/-
# Callers of one chunk

Any number of callers of `ensure_chunk_local` for one chunk of one mirror, step by step.
The first caller that misses registers as the fetcher of a flight; callers that miss while
it is registered wait for it.  The store's lock makes a read and a publish one step each.
-/

import TieredCache.Math.Runs
import TieredCache.Remote.Mirror

namespace TieredCache.Remote

open Math Math.Files

universe u

/-- `InFlight`, and the status of its `fetch_and_publish` once that has returned. -/
structure Flight where
  done : Bool := false
  status : Status := .ok
  fetched : Option Status := none
  deriving DecidableEq, Repr

/-- Where in `ensure_chunk_local` a caller is, with its chunk buffer and the flight it has
registered or joined. -/
inductive CallerPc
  | idle
  | entered (buffer : Bytes)
  | missed (buffer : Bytes)
  | registered (buffer : Bytes) (flight : ℕ)
  | fetching (buffer : Bytes) (flight : ℕ)
  | publishing (buffer : Bytes) (flight : ℕ) (payload : Bytes)
  | marking (buffer : Bytes) (flight : ℕ) (status : Status)
  | notifying (buffer : Bytes) (flight : ℕ)
  | erasing (buffer : Bytes) (flight : ℕ)
  | joined (buffer : Bytes) (flight : ℕ)
  | asleep (buffer : Bytes) (flight : ℕ)
  | landed (buffer : Bytes) (flight : ℕ)
  | returned (status : Status) (buffer : Bytes) (flight : Option ℕ)
  deriving DecidableEq, Repr

/-- The callers of one chunk: what the mirror holds, the entry of `inflight_` for the chunk,
the flights so far, and the payloads whose publish has succeeded. -/
structure Callers (ι : Type u) where
  state : MirrorState
  inflight : Option ℕ := none
  flights : ℕ → Flight := fun _ => {}
  count : ℕ := 0
  pc : ι → CallerPc
  published : List Bytes := []

/-- What happens: a caller enters, takes its next step or wakes for no reason, or something
else of the mirror or its directory changes. -/
inductive CallerAction (ι : Type u)
  | enter (caller : ι) (buffer : Bytes)
  | step (caller : ι) (around : Surroundings)
  | wakeup (caller : ι)
  | elsewhere (state : MirrorState)

namespace Callers

variable {ι : Type u} [DecidableEq ι]

/-- No caller has entered. -/
def start (ι : Type u) (state : MirrorState) : Callers ι where
  state := state
  pc := fun _ => .idle

/-- Move one caller. -/
def move (s : Callers ι) (caller : ι) (pc : CallerPc) : Callers ι :=
  { s with pc := Function.update s.pc caller pc }

@[simp]
theorem move_pc_self (s : Callers ι) (caller : ι) (pc : CallerPc) :
    (s.move caller pc).pc caller = pc :=
  Function.update_self ..

theorem move_pc_other {s : Callers ι} {caller other : ι} {pc : CallerPc} (h : other ≠ caller) :
    (s.move caller pc).pc other = s.pc other :=
  Function.update_of_ne h ..

/-- Wake the callers that sleep on a flight. -/
def wake (s : Callers ι) (flight : ℕ) : Callers ι :=
  { s with
    pc := fun caller =>
      match s.pc caller with
      | .asleep buffer f => if f = flight then .joined buffer f else .asleep buffer f
      | pc => pc }

/-- Register a new flight. -/
def register (s : Callers ι) : Callers ι :=
  { s with
    inflight := some s.count
    flights := Function.update s.flights s.count {}
    count := s.count + 1 }

/-- Mark a flight as done. -/
def mark (s : Callers ι) (flight : ℕ) (status : Status) : Callers ι :=
  { s with
    flights := Function.update s.flights flight
      { s.flights flight with done := true, status := status } }

/-- Note the status of the fetch of a flight. -/
def note (s : Callers ι) (flight : ℕ) (status : Status) : Callers ι :=
  { s with
    flights := Function.update s.flights flight
      { s.flights flight with fetched := some status } }

variable (order : ByteOrder) (m : Mirror) (index : UInt32) (chunkLen : UInt64)

/-- The local read of a caller. -/
def readLocal (s : Callers ι) (buffer : Bytes) : ReadResult × Bytes :=
  readChunk order m.chunkSize s.state.directory m.source index buffer

/-- The next step of a caller. -/
def advance (s : Callers ι) (caller : ι) (around : Surroundings) : Option (Callers ι) :=
  match s.pc caller with
  | .entered buffer =>
      let look := s.readLocal order m index buffer
      let s := { s with state := Mirror.countLocal look.1.status s.state }
      if look.1.status = .ok then some (s.move caller (.returned .ok look.2 none))
      else some (s.move caller (.missed look.2))
  | .missed buffer =>
      match s.inflight with
      | some flight =>
          let s := { s with state := { s.state with stats := s.state.stats.recordCoalesced } }
          some (s.move caller (.joined buffer flight))
      | none => some ((s.register).move caller (.registered buffer s.count))
  | .registered buffer flight =>
      let look := s.readLocal order m index buffer
      if look.1.status = .ok then some (s.move caller (.marking look.2 flight .ok))
      else some (s.move caller (.fetching look.2 flight))
  | .fetching buffer flight =>
      let fetched := around.transport (m.fetchRequest index chunkLen)
      let status := Mirror.fetchStatus chunkLen fetched.1
      let s := { s with state := { s.state with stats := s.state.stats.recordFetch fetched.1 } }
      if status ≠ Status.ok then
        some ((s.note flight status).move caller (.marking buffer flight status))
      else some (s.move caller (.publishing buffer flight fetched.2))
  | .publishing buffer flight payload =>
      let result := m.publish order around.io index payload s.state
      let s := { s with
        state := result.2
        published := if result.1 = Status.ok then payload :: s.published else s.published }
      some ((s.note flight result.1).move caller (.marking buffer flight result.1))
  | .marking buffer flight status =>
      some ((s.mark flight status).move caller (.notifying buffer flight))
  | .notifying buffer flight => some ((s.wake flight).move caller (.erasing buffer flight))
  | .erasing buffer flight => some ({ s with inflight := none }.move caller (.landed buffer flight))
  | .joined buffer flight =>
      if (s.flights flight).done then some (s.move caller (.landed buffer flight))
      else some (s.move caller (.asleep buffer flight))
  | .landed buffer flight =>
      -- Nobody writes the status of a flight that is done.
      if (s.flights flight).status ≠ .ok then
        some (s.move caller (.returned (s.flights flight).status buffer (some flight)))
      else
        let look := s.readLocal order m index buffer
        some (s.move caller (.returned (Mirror.readBackStatus look.1.status) look.2 (some flight)))
  | .idle | .asleep _ _ | .returned _ _ _ => none

/-- One step of the callers.  A caller brings a buffer of the size of a chunk, and what
happens elsewhere leaves the chunk file alone. -/
def step (s : Callers ι) : CallerAction ι → Option (Callers ι)
  | .enter caller buffer =>
      if s.pc caller = .idle ∧ buffer.length = m.chunkSize.toNat then
        some (s.move caller (.entered buffer))
      else none
  | .step caller around => s.advance order m index chunkLen caller around
  | .wakeup caller =>
      match s.pc caller with
      | .asleep buffer flight => some (s.move caller (.joined buffer flight))
      | _ => none
  | .elsewhere state =>
      if state.directory.read (chunkFileName m.source index) =
          s.state.directory.read (chunkFileName m.source index) then
        some { s with state := state }
      else none

end Callers

end TieredCache.Remote
