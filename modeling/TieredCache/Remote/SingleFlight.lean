/-
# One fetch at a time

Callers of one chunk share its fetches: at most one is in progress, none is issued once one
has been published, and every caller returns the chunk or the status of a fetch it made or
waited for.  A publish that returns success must have written a file that can be read.
-/

import TieredCache.Remote.Flights
import TieredCache.Remote.Publication

namespace TieredCache.Remote

open Math Math.Files Math.Runs

universe u
variable {ι : Type u} {order : ByteOrder} {m : Mirror} {index : UInt32}
  {chunkLen : UInt64} {s s' : Callers ι} {caller other : ι} {around : Surroundings}
  {file : Option Bytes} {payload buffer : Bytes} {flight : ℕ} {pc : CallerPc}

/-! ## The chunk on disk -/

/-- The chunk file is accepted and holds a payload. -/
def Held (order : ByteOrder) (m : Mirror) (index : UInt32) (file : Option Bytes)
    (payload : Bytes) : Prop :=
  payload.length ≤ m.chunkSize.toNat ∧ ∃ bytes, file = some bytes ∧ ∀ buffer, buffer.length = m.chunkSize.toNat →
    readFile order m.chunkSize m.source index bytes buffer =
      (⟨.ok, UInt32.ofNat payload.length⟩, payload ++ buffer.drop payload.length)

/-- A chunk file holds one payload. -/
theorem Held.unique {payload' : Bytes} (h : Held order m index file payload)
    (h' : Held order m index file payload') : payload = payload' := by
  obtain ⟨hsize, bytes, hfile, hread⟩ := h
  obtain ⟨hsize', bytes', hfile', hread'⟩ := h'
  rw [hfile] at hfile'
  cases hfile'
  have hbuffer : (List.replicate m.chunkSize.toNat (0 : UInt8)).length = m.chunkSize.toNat :=
    List.length_replicate ..
  have hsame := (hread _ hbuffer).symm.trans (hread' _ hbuffer)
  have hlimit := m.chunkSize.toNat_lt
  have hbytes := congrArg (fun result => result.1.bytes.toNat) hsame
  dsimp only at hbytes
  rw [UInt32.toNat_ofNat', UInt32.toNat_ofNat', Nat.mod_eq_of_lt (by omega),
    Nat.mod_eq_of_lt (by omega)] at hbytes
  exact (List.append_inj (congrArg Prod.snd hsame) hbytes).1

namespace Callers

/-- The chunk file. -/
def chunk (m : Mirror) (index : UInt32) (s : Callers ι) : Option Bytes :=
  s.state.directory.read (chunkFileName m.source index)

/-- The chunk can be read from disk. -/
def Available (order : ByteOrder) (m : Mirror) (index : UInt32) (s : Callers ι) : Prop :=
  ∃ payload, Held order m index (s.chunk m index) payload

theorem readLocal_of_held (h : Held order m index (s.chunk m index) payload)
    (hbuffer : buffer.length = m.chunkSize.toNat) :
    s.readLocal order m index buffer =
      (⟨.ok, UInt32.ofNat payload.length⟩, payload ++ buffer.drop payload.length) := by
  obtain ⟨-, bytes, hfile, hread⟩ := h
  rw [readLocal, readChunk_of_read hfile]
  exact hread buffer hbuffer

theorem length_readLocal (s : Callers ι) (buffer : Bytes) :
    (s.readLocal order m index buffer).2.length = buffer.length := by
  rw [readLocal, length_readChunk]

/-- A local read that succeeds finds the chunk on disk. -/
theorem held_of_readLocal (hbuffer : buffer.length = m.chunkSize.toNat)
    (hok : (s.readLocal order m index buffer).1.status = .ok) :
    ∃ payload, Held order m index (s.chunk m index) payload ∧
      (s.readLocal order m index buffer).2 = payload ++ buffer.drop payload.length := by
  cases hfile : s.chunk m index with
  | none =>
      rw [readLocal, readChunk, show s.state.directory.read _ = none from hfile] at hok
      cases hok
  | some bytes =>
      have hread : readChunk order m.chunkSize s.state.directory m.source index buffer = _ :=
        readChunk_of_read hfile
      rw [readLocal, hread] at hok ⊢
      obtain ⟨header, payload, -, -, -, -, -, hchunk, -, -, -, -, hcount, hall⟩ := readFile_ok hok
      have hlength : header.payloadLength = UInt32.ofNat payload.length := by
        rw [hcount, UInt32.ofNat_toNat]
      rw [hlength] at hall
      refine ⟨payload, ⟨?_, bytes, rfl, fun buffer' hbuffer' => ?_⟩, ?_⟩
      · rw [hcount]
        exact UInt32.le_iff_toNat_le.mp hchunk
      · exact hall buffer' (hbuffer'.trans hbuffer.symm)
      · rw [hall buffer rfl]

theorem available_of_readLocal (hbuffer : buffer.length = m.chunkSize.toNat)
    (hok : (s.readLocal order m index buffer).1.status = .ok) : s.Available order m index := by
  obtain ⟨payload, hheld, -⟩ := held_of_readLocal hbuffer hok
  exact ⟨payload, hheld⟩

end Callers

/-- A publish that succeeds leaves a file its own mirror can read: the validator's length
fits 32 bits and no bytes were lost. -/
structure Durable (m : Mirror) (call : PublishCall) (io : PublishIo) : Prop where
  short : (canonicalValidator m.source.validator).length < 2 ^ 32
  complete : ¬ io.Leaves call

/-- What a durable publish has published is on disk. -/
theorem held_of_publish {io : PublishIo} {state : MirrorState}
    (hok : (m.publish order io index payload state).1 = .ok)
    (hdurable : Durable m (m.publishCall index payload state) io) :
    Held order m index
      ((m.publish order io index payload state).2.directory.read (chunkFileName m.source index))
      payload := by
  obtain ⟨hsize, -, ⟨file, hread, -, hwhole⟩, -⟩ := publishChunk_ok (Prod.ext hok rfl)
  rw [hwhole.mpr hdurable.complete] at hread
  refine ⟨hsize, _, hread, fun buffer hbuffer => ?_⟩
  exact readFile_chunkFile ⟨rfl, rfl, rfl, rfl⟩ hdurable.short hsize (hbuffer ▸ hsize)

/-! ## The invariant -/

/-- The flight a caller has registered and not erased yet. -/
def CallerPc.owns : CallerPc → Option ℕ
  | .registered _ flight => some flight
  | .fetching _ flight => some flight
  | .publishing _ flight _ => some flight
  | .marking _ flight _ => some flight
  | .notifying _ flight => some flight
  | .erasing _ flight => some flight
  | _ => none

/-- The caller is in `fetch_range`. -/
def CallerPc.Fetching (pc : CallerPc) : Prop := ∃ buffer flight, pc = .fetching buffer flight

/-- The owner of a flight has not notified its waiters yet. -/
def CallerPc.WillNotify (flight : ℕ) : CallerPc → Prop
  | .registered _ f => f = flight
  | .fetching _ f => f = flight
  | .publishing _ f _ => f = flight
  | .marking _ f _ => f = flight
  | .notifying _ f => f = flight
  | _ => False

namespace Callers

/-- What a finished flight has come to: the chunk is on disk, or its fetch has failed with the
flight's status. -/
def Settled (order : ByteOrder) (m : Mirror) (index : UInt32) (s : Callers ι) (status : Status)
    (flight : ℕ) : Prop :=
  if status = .ok then s.Available order m index
  else (s.flights flight).fetched = some status

/-- A flight that is registered and not done. -/
def Open (m : Mirror) (s : Callers ι) (buffer : Bytes) (flight : ℕ) : Prop :=
  s.inflight = some flight ∧ flight < s.count ∧ (s.flights flight).done = false ∧
    buffer.length = m.chunkSize.toNat

/-- What holds of a caller, by where it is. -/
def Fits (order : ByteOrder) (m : Mirror) (index : UInt32) (s : Callers ι) : CallerPc → Prop
  | .idle => True
  | .entered buffer => buffer.length = m.chunkSize.toNat
  | .missed buffer => buffer.length = m.chunkSize.toNat
  | .registered buffer flight => s.Open m buffer flight
  | .fetching buffer flight => s.Open m buffer flight ∧ ¬ s.Available order m index
  | .publishing buffer flight _ => s.Open m buffer flight ∧ ¬ s.Available order m index
  | .marking buffer flight status => s.Open m buffer flight ∧ s.Settled order m index status flight
  | .notifying buffer flight =>
      s.inflight = some flight ∧ flight < s.count ∧ (s.flights flight).done = true ∧
        buffer.length = m.chunkSize.toNat
  | .erasing buffer flight =>
      s.inflight = some flight ∧ flight < s.count ∧ (s.flights flight).done = true ∧
        buffer.length = m.chunkSize.toNat
  | .joined buffer flight => flight < s.count ∧ buffer.length = m.chunkSize.toNat
  | .asleep buffer flight => flight < s.count ∧ buffer.length = m.chunkSize.toNat
  | .landed buffer flight =>
      flight < s.count ∧ (s.flights flight).done = true ∧ buffer.length = m.chunkSize.toNat
  | .returned status buffer flight =>
      if status = .ok then ∃ payload behind, Held order m index (s.chunk m index) payload ∧
        buffer = payload ++ behind
      else ∃ f, flight = some f ∧ f < s.count ∧ (s.flights f).done = true ∧
        (s.flights f).fetched = some status

/-- The invariant of the callers. -/
structure Inv (order : ByteOrder) (m : Mirror) (index : UInt32) (first : Option Bytes)
    (s : Callers ι) : Prop where
  fits : ∀ caller, s.Fits order m index (s.pc caller)
  /-- At most one caller owns a flight. -/
  owner : ∀ caller other flight, (s.pc caller).owns = some flight → ∀ flight',
    (s.pc other).owns = some flight' → caller = other
  settled : ∀ flight, flight < s.count → (s.flights flight).done = true →
    s.Settled order m index (s.flights flight).status flight
  known : ∀ flight, s.inflight = some flight → flight < s.count ∧
    ∃ caller, (s.pc caller).owns = some flight
  unfinished : ∀ flight, flight < s.count → (s.flights flight).done = false →
    ∃ caller, (s.pc caller).WillNotify flight
  awake : ∀ caller buffer flight, s.pc caller = .asleep buffer flight →
    ∃ other, (s.pc other).WillNotify flight
  published : s.published ≠ [] → s.Available order m index
  /-- What is on disk was there at the start or has been published. -/
  source : s.chunk m index = first ∨
    ∃ payload ∈ s.published, Held order m index (s.chunk m index) payload

/-! ## What other callers rely on -/

/-- The parts of two states that the invariant speaks of are the same. -/
structure Same (m : Mirror) (index : UInt32) (s s' : Callers ι) : Prop where
  inflight : s'.inflight = s.inflight
  flights : s'.flights = s.flights
  count : s'.count = s.count
  chunk : s'.chunk m index = s.chunk m index
  published : s'.published = s.published

theorem Same.available (h : Same m index s s') :
    s'.Available order m index ↔ s.Available order m index := by
  rw [Available, h.chunk, Available]

theorem Same.settled (h : Same m index s s') {status : Status} :
    s'.Settled order m index status flight ↔ s.Settled order m index status flight := by
  rw [Settled, Settled, h.available, h.flights]

theorem Same.opened (h : Same m index s s') : s'.Open m buffer flight ↔ s.Open m buffer flight := by
  rw [Open, Open, h.inflight, h.count, h.flights]

theorem Same.fits (h : Same m index s s') (hpc : s.Fits order m index pc) :
    s'.Fits order m index pc := by
  cases pc <;> simp only [Fits, h.opened, h.available, h.settled, h.inflight, h.flights, h.count,
    h.chunk] at hpc ⊢ <;> exact hpc

/-- Flights go on, finished ones stay as they are, and a chunk that is on disk stays there. -/
structure Grows (order : ByteOrder) (m : Mirror) (index : UInt32) (s s' : Callers ι) : Prop where
  count : s.count ≤ s'.count
  flights : ∀ flight, flight < s.count → (s.flights flight).done = true →
    s'.flights flight = s.flights flight
  chunk : s.Available order m index → s'.chunk m index = s.chunk m index

theorem Grows.available (h : Grows order m index s s') (ha : s.Available order m index) :
    s'.Available order m index := by
  rw [Available, h.chunk ha]
  exact ha

theorem Grows.settled (h : Grows order m index s s') {status : Status} (hflight : flight < s.count)
    (hdone : (s.flights flight).done = true) (hs : s.Settled order m index status flight) :
    s'.Settled order m index status flight := by
  unfold Settled at hs ⊢
  split_ifs at hs ⊢
  · exact h.available hs
  · rw [h.flights flight hflight hdone]
    exact hs

/-- A caller without a flight of its own does not notice. -/
theorem Grows.fits (h : Grows order m index s s') (howns : pc.owns = none)
    (hpc : s.Fits order m index pc) : s'.Fits order m index pc := by
  cases pc with
  | idle => trivial
  | entered buffer => exact hpc
  | missed buffer => exact hpc
  | joined buffer flight => exact ⟨lt_of_lt_of_le hpc.1 h.count, hpc.2⟩
  | asleep buffer flight => exact ⟨lt_of_lt_of_le hpc.1 h.count, hpc.2⟩
  | landed buffer flight =>
      obtain ⟨hflight, hdone, hbuffer⟩ := hpc
      refine ⟨lt_of_lt_of_le hflight h.count, ?_, hbuffer⟩
      rw [h.flights flight hflight hdone]
      exact hdone
  | returned status buffer flight =>
      unfold Fits at hpc ⊢
      dsimp only at hpc ⊢
      split_ifs at hpc ⊢
      · obtain ⟨payload, behind, hheld, hbuffer⟩ := hpc
        refine ⟨payload, behind, ?_, hbuffer⟩
        rw [h.chunk ⟨payload, hheld⟩]
        exact hheld
      · obtain ⟨f, hf, hlt, hdone, hfetched⟩ := hpc
        refine ⟨f, hf, lt_of_lt_of_le hlt h.count, ?_, ?_⟩ <;> rw [h.flights f hlt hdone]
        · exact hdone
        · exact hfetched
  | registered buffer flight => cases howns
  | fetching buffer flight => cases howns
  | publishing buffer flight payload => cases howns
  | marking buffer flight status => cases howns
  | notifying buffer flight => cases howns
  | erasing buffer flight => cases howns

/-- A caller that owns a flight owns the one that is registered. -/
theorem Fits.owns (h : s.Fits order m index pc) (howns : pc.owns = some flight) :
    s.inflight = some flight := by
  cases pc <;> cases howns
  · exact h.1
  · exact h.1.1
  · exact h.1.1
  · exact h.1.1
  · exact h.1
  · exact h.1

theorem Inv.others_own_nothing {first : Option Bytes} (h : Inv order m index first s)
    (hcaller : (s.pc caller).owns = some flight) (hother : other ≠ caller) :
    (s.pc other).owns = none := by
  cases hown : (s.pc other).owns with
  | none => rfl
  | some flight' => exact absurd (h.owner other caller flight' hown flight hcaller) hother

theorem Inv.nobody_owns {first : Option Bytes} (h : Inv order m index first s)
    (hnone : s.inflight = none) (other : ι) : (s.pc other).owns = none := by
  cases hown : (s.pc other).owns with
  | none => rfl
  | some flight =>
      have hin := (h.fits other).owns hown
      rw [hnone] at hin
      cases hin

/-! ## Steps that keep the invariant -/

variable {first : Option Bytes}

/-- A step of one caller that changes nothing others look at. -/
theorem Inv.of_same (h : Inv order m index first s) (hsame : Same m index s s')
    (hother : ∀ other, other ≠ caller → s'.pc other = s.pc other)
    (hself : s.Fits order m index (s'.pc caller))
    (howns : (s'.pc caller).owns = (s.pc caller).owns)
    (hnotify : ∀ flight, (s.pc caller).WillNotify flight → (s'.pc caller).WillNotify flight ∨
      (s.flights flight).done = true ∧ ∀ other buffer, s'.pc other ≠ .asleep buffer flight)
    (hasleep : ∀ buffer flight, s'.pc caller = .asleep buffer flight →
      ∃ other, (s.pc other).WillNotify flight) : Inv order m index first s' := by
  have hall : ∀ other, (s'.pc other).owns = (s.pc other).owns := by
    intro other
    by_cases heq : other = caller
    · rw [heq, howns]
    · rw [hother other heq]
  have hwill : ∀ flight, (∃ other, (s.pc other).WillNotify flight) →
      (∃ other buffer, s'.pc other = .asleep buffer flight) →
      ∃ other, (s'.pc other).WillNotify flight := by
    rintro flight ⟨other, hw⟩ ⟨sleeper, buffer, hsleeper⟩
    refine ⟨other, ?_⟩
    by_cases heq : other = caller
    · rw [heq] at hw ⊢
      exact (hnotify flight hw).resolve_right fun hnone => hnone.2 sleeper buffer hsleeper
    · rwa [hother other heq]
  refine ⟨fun other => ?_, fun a b flight ha flight' hb => ?_, fun flight hlt hdone => ?_,
    fun flight hin => ?_, fun flight hlt hdone => ?_, fun other buffer flight hpc => ?_,
    fun hne => ?_, ?_⟩
  · by_cases heq : other = caller
    · rw [heq]
      exact hsame.fits hself
    · rw [hother other heq]
      exact hsame.fits (h.fits other)
  · rw [hall] at ha hb
    exact h.owner a b flight ha flight' hb
  · rw [hsame.count] at hlt
    rw [hsame.flights] at hdone ⊢
    exact hsame.settled.mpr (h.settled flight hlt hdone)
  · rw [hsame.inflight] at hin
    obtain ⟨hlt, owner, howner⟩ := h.known flight hin
    exact ⟨hsame.count ▸ hlt, owner, by rw [hall, howner]⟩
  · rw [hsame.count] at hlt
    rw [hsame.flights] at hdone
    obtain ⟨other, hw⟩ := h.unfinished flight hlt hdone
    refine ⟨other, ?_⟩
    by_cases heq : other = caller
    · rw [heq] at hw ⊢
      refine (hnotify flight hw).resolve_right fun hfinished => ?_
      rw [hfinished.1] at hdone
      cases hdone
    · rwa [hother other heq]
  · refine hwill flight ?_ ⟨other, buffer, hpc⟩
    by_cases heq : other = caller
    · exact hasleep buffer flight (heq ▸ hpc)
    · rw [hother other heq] at hpc
      exact h.awake other buffer flight hpc
  · exact hsame.available.mpr (h.published (hsame.published ▸ hne))
  · rw [hsame.chunk, hsame.published]
    exact h.source

/-- A step of the only caller with a flight. -/
theorem Inv.of_owner (h : Inv order m index first s) (hgrows : Grows order m index s s')
    (hother : ∀ other, other ≠ caller → s'.pc other = s.pc other)
    (hnobody : ∀ other, other ≠ caller → (s.pc other).owns = none)
    (hself : s'.Fits order m index (s'.pc caller))
    (hsettled : ∀ flight, flight < s'.count → (s'.flights flight).done = true →
      flight < s.count ∧ (s.flights flight).done = true ∨
        s'.Settled order m index (s'.flights flight).status flight)
    (hunfinished : ∀ flight, flight < s'.count → (s'.flights flight).done = false →
      flight < s.count ∧ (s.flights flight).done = false ∨ (s'.pc caller).WillNotify flight)
    (hknown : ∀ flight, s'.inflight = some flight → flight < s'.count ∧
      (s'.pc caller).owns = some flight)
    (hnotify : ∀ flight, (s.pc caller).WillNotify flight → (s'.pc caller).WillNotify flight)
    (hasleep : ∀ buffer flight, s'.pc caller ≠ .asleep buffer flight)
    (hpublished : s'.published ≠ [] → s'.Available order m index)
    (hsource : s'.chunk m index = first ∨
      ∃ payload ∈ s'.published, Held order m index (s'.chunk m index) payload) :
    Inv order m index first s' := by
  have hnone : ∀ other, other ≠ caller → (s'.pc other).owns = none := fun other hne => by
    rw [hother other hne]
    exact hnobody other hne
  have hwill : ∀ other flight, (s.pc other).WillNotify flight →
      (s'.pc other).WillNotify flight := by
    intro other flight hw
    by_cases heq : other = caller
    · rw [heq] at hw ⊢
      exact hnotify flight hw
    · rwa [hother other heq]
  refine ⟨fun other => ?_, fun a b flight ha flight' hb => ?_, fun flight hlt hdone => ?_,
    fun flight hin => ?_, fun flight hlt hdone => ?_, fun other buffer flight hpc => ?_,
    hpublished, hsource⟩
  · by_cases heq : other = caller
    · rw [heq]
      exact hself
    · rw [hother other heq]
      exact hgrows.fits (hnobody other heq) (h.fits other)
  · have howner : ∀ c f, (s'.pc c).owns = some f → c = caller := by
      intro c f hc
      by_contra hne
      rw [hnone c hne] at hc
      cases hc
    rw [howner a flight ha, howner b flight' hb]
  · rcases hsettled flight hlt hdone with ⟨hlt', hdone'⟩ | hnew
    · rw [hgrows.flights flight hlt' hdone']
      exact hgrows.settled hlt' hdone' (h.settled flight hlt' hdone')
    · exact hnew
  · obtain ⟨hlt, hown⟩ := hknown flight hin
    exact ⟨hlt, caller, hown⟩
  · rcases hunfinished flight hlt hdone with ⟨hlt', hdone'⟩ | hself'
    · obtain ⟨waker, hw⟩ := h.unfinished flight hlt' hdone'
      exact ⟨waker, hwill waker flight hw⟩
    · exact ⟨caller, hself'⟩
  · by_cases heq : other = caller
    · exact absurd (heq ▸ hpc) (hasleep buffer flight)
    · rw [hother other heq] at hpc
      obtain ⟨waker, hw⟩ := h.awake other buffer flight hpc
      exact ⟨waker, hwill waker flight hw⟩

section Steps

variable [DecidableEq ι]

/-- Moving a caller and counting change nothing others look at. -/
theorem same_move (s : Callers ι) (caller : ι) (pc : CallerPc) {state : MirrorState}
    (hdirectory : state.directory = s.state.directory) :
    Same m index s ({ s with state := state }.move caller pc) :=
  ⟨rfl, rfl, rfl, congrArg (fun d : Directory => d.read _) hdirectory, rfl⟩

/-- A step of a caller that only moves on. -/
theorem Inv.move (h : Inv order m index first s) {state : MirrorState}
    (hdirectory : state.directory = s.state.directory) (hself : s.Fits order m index pc)
    (howns : pc.owns = (s.pc caller).owns)
    (hnotify : ∀ flight, (s.pc caller).WillNotify flight → pc.WillNotify flight)
    (hasleep : ∀ buffer flight, pc = .asleep buffer flight →
      ∃ other, (s.pc other).WillNotify flight) :
    Inv order m index first ({ s with state := state }.move caller pc) := by
  have hpc : ({ s with state := state }.move caller pc).pc caller = pc := move_pc_self ..
  apply h.of_same (same_move s caller pc hdirectory) fun other hne => move_pc_other hne
  all_goals rw [hpc]
  · exact hself
  · exact howns
  · exact fun flight hw => Or.inl (hnotify flight hw)
  · exact hasleep

/-- Looking at the local chunk, on entry. -/
theorem Inv.look (h : Inv order m index first s) (hpc : s.pc caller = .entered buffer)
    (hstep : s.advance order m index chunkLen caller around = some s') :
    Inv order m index first s' := by
  have hbuffer : buffer.length = m.chunkSize.toNat := by
    have hfits := h.fits caller
    rw [hpc] at hfits
    exact hfits
  unfold advance at hstep
  rw [hpc] at hstep
  dsimp only at hstep
  split_ifs at hstep with hok <;> cases hstep <;>
    refine h.move (Mirror.directory_countLocal ..) ?_ (by rw [hpc]; rfl) (by rw [hpc]; nofun) nofun
  · obtain ⟨payload, hheld, hread⟩ := held_of_readLocal hbuffer hok
    exact ⟨payload, _, hheld, hread⟩
  · exact (length_readLocal s buffer).trans hbuffer

/-- A caller that has missed joins a flight. -/
theorem Inv.join (h : Inv order m index first s) (hpc : s.pc caller = .missed buffer)
    (hin : s.inflight = some flight)
    (hstep : s.advance order m index chunkLen caller around = some s') :
    Inv order m index first s' := by
  have hbuffer : buffer.length = m.chunkSize.toNat := by
    have hfits := h.fits caller
    rw [hpc] at hfits
    exact hfits
  unfold advance at hstep
  rw [hpc] at hstep
  dsimp only at hstep
  split at hstep
  · rename_i flight' hin'
    rw [hin] at hin'
    cases hin'
    cases hstep
    refine h.move rfl ?_ (by rw [hpc]; rfl) (by rw [hpc]; nofun) nofun
    exact ⟨(h.known flight hin).1, hbuffer⟩
  · rename_i hnone
    rw [hin] at hnone
    cases hnone

/-- A caller that has missed registers a flight. -/
theorem Inv.register (h : Inv order m index first s) (hpc : s.pc caller = .missed buffer)
    (hin : s.inflight = none)
    (hstep : s.advance order m index chunkLen caller around = some s') :
    Inv order m index first s' := by
  have hbuffer : buffer.length = m.chunkSize.toNat := by
    have hfits := h.fits caller
    rw [hpc] at hfits
    exact hfits
  unfold advance at hstep
  rw [hpc] at hstep
  dsimp only at hstep
  rw [hin] at hstep
  cases hstep
  have hself : ((s.register).move caller (.registered buffer s.count)).pc caller =
      .registered buffer s.count := move_pc_self ..
  have hold : ∀ f, f ≠ s.count → (s.register).flights f = s.flights f := fun f hne =>
    Function.update_of_ne hne ..
  have hnew : (s.register).flights s.count = {} := Function.update_self ..
  refine h.of_owner ⟨Nat.le_succ _, fun f hlt _ => hold f (Nat.ne_of_lt hlt), fun _ => rfl⟩
    (fun other (hne : other ≠ caller) => move_pc_other hne) (fun other _ => h.nobody_owns hin other)
    ?_ (fun f hlt hdone => ?_) (fun f hlt hdone => ?_) (fun f hf => ?_) ?_ ?_ h.published h.source
  · rw [hself]
    refine ⟨rfl, Nat.lt_succ_self _, ?_, hbuffer⟩
    show ((s.register).flights s.count).done = false
    rw [hnew]
  · have hdone : ((s.register).flights f).done = true := hdone
    by_cases hf : f = s.count
    · rw [hf, hnew] at hdone
      cases hdone
    · rw [hold f hf] at hdone
      exact Or.inl ⟨Nat.lt_of_le_of_ne (Nat.le_of_lt_succ hlt) hf, hdone⟩
  · have hdone : ((s.register).flights f).done = false := hdone
    by_cases hf : f = s.count
    · rw [hself]
      exact Or.inr hf.symm
    · rw [hold f hf] at hdone
      exact Or.inl ⟨Nat.lt_of_le_of_ne (Nat.le_of_lt_succ hlt) hf, hdone⟩
  · cases hf
    rw [hself]
    exact ⟨Nat.lt_succ_self _, rfl⟩
  · rw [hpc]
    nofun
  · rw [hself]
    nofun

/-- The fetcher looks once more before it fetches. -/
theorem Inv.lookAgain (h : Inv order m index first s)
    (hpc : s.pc caller = .registered buffer flight)
    (hstep : s.advance order m index chunkLen caller around = some s') :
    Inv order m index first s' := by
  have hopen : s.Open m buffer flight := by
    have hfits := h.fits caller
    rw [hpc] at hfits
    exact hfits
  obtain ⟨hin, hlt, hdone, hbuffer⟩ := hopen
  have hlength : (s.readLocal order m index buffer).2.length = m.chunkSize.toNat :=
    (length_readLocal s buffer).trans hbuffer
  unfold advance at hstep
  rw [hpc] at hstep
  dsimp only at hstep
  split_ifs at hstep with hok <;> cases hstep <;>
    refine h.move rfl ?_ (by rw [hpc]; rfl) (by rw [hpc]; exact fun _ => id) nofun
  · refine ⟨⟨hin, hlt, hdone, hlength⟩, ?_⟩
    exact available_of_readLocal hbuffer hok
  · refine ⟨⟨hin, hlt, hdone, hlength⟩, ?_⟩
    rintro ⟨payload, hheld⟩
    rw [readLocal_of_held hheld hbuffer] at hok
    exact hok rfl

/-- The status of a fetch is noted for its flight. -/
theorem Inv.noted (h : Inv order m index first s) {status : Status} {state : MirrorState}
    {published : List Bytes} (howns : (s.pc caller).owns = some flight)
    (hopen : s.Open m buffer flight)
    (hgrows : s.Available order m index →
      state.directory.read (chunkFileName m.source index) = s.chunk m index)
    (hnotify : (s.pc caller).WillNotify flight)
    (hok : status = .ok → ∃ payload, Held order m index
      (state.directory.read (chunkFileName m.source index)) payload)
    (hpublished : published ≠ [] → ∃ payload, Held order m index
      (state.directory.read (chunkFileName m.source index)) payload)
    (hsource : state.directory.read (chunkFileName m.source index) = first ∨
      ∃ payload ∈ published, Held order m index
        (state.directory.read (chunkFileName m.source index)) payload) :
    Inv order m index first
      (({ s with state := state, published := published }.note flight status).move caller
        (.marking buffer flight status)) := by
  generalize hs' : (({ s with state := state, published := published }.note flight status).move caller
    (.marking buffer flight status)) = s'
  have hself : s'.pc caller = .marking buffer flight status := by
    rw [← hs']
    exact move_pc_self ..
  have hnew : s'.flights flight = { s.flights flight with fetched := some status } := by
    rw [← hs']
    exact Function.update_self ..
  have hold : ∀ f, f ≠ flight → s'.flights f = s.flights f := fun f hne => by
    rw [← hs']
    exact Function.update_of_ne hne ..
  have hcount : s'.count = s.count := by rw [← hs']; rfl
  have hin : s'.inflight = s.inflight := by rw [← hs']; rfl
  have hchunk : s'.chunk m index = state.directory.read (chunkFileName m.source index) := by
    rw [← hs']
    rfl
  have hlist : s'.published = published := by rw [← hs']; rfl
  obtain ⟨hregistered, hlt, hdone, hbuffer⟩ := hopen
  have hopened : s'.Open m buffer flight :=
    ⟨hin.trans hregistered, hcount ▸ hlt, by rw [hnew, hdone], hbuffer⟩
  refine h.of_owner ⟨le_of_eq hcount.symm, fun f _ hf => hold f ?_, fun ha => ?_⟩
    (fun other hne => ?_) (fun other hne => h.others_own_nothing howns hne) ?_
    (fun f hf hfdone => ?_) (fun f hf hfdone => ?_) (fun f hf => ?_) (fun f hf => ?_) ?_ ?_ ?_
  · rintro rfl
    rw [hdone] at hf
    cases hf
  · rw [hchunk, hgrows ha]
  · rw [← hs']
    exact move_pc_other hne
  · rw [hself]
    refine ⟨hopened, ?_⟩
    unfold Settled
    split_ifs with hstatus
    · rw [Available, hchunk]
      exact hok hstatus
    · rw [hnew]
  · by_cases hne : f = flight
    · rw [hne, hnew] at hfdone
      rw [hdone] at hfdone
      cases hfdone
    · rw [hold f hne] at hfdone
      exact Or.inl ⟨hcount ▸ hf, hfdone⟩
  · by_cases hne : f = flight
    · rw [hself]
      exact Or.inr hne.symm
    · rw [hold f hne] at hfdone
      exact Or.inl ⟨hcount ▸ hf, hfdone⟩
  · rw [hin, hregistered] at hf
    cases hf
    rw [hself]
    exact ⟨hcount ▸ hlt, rfl⟩
  · rw [hself]
    have hflight : flight = f := by
      cases hcaller : s.pc caller <;> rw [hcaller] at hf hnotify <;> first
        | exact hnotify.symm.trans hf
        | exact False.elim hf
    exact hflight
  · rw [hself]
    nofun
  · rw [hlist, Available, hchunk]
    exact hpublished
  · rw [hlist, hchunk]
    exact hsource

/-- A fetch returns. -/
theorem Inv.fetch (h : Inv order m index first s) (hpc : s.pc caller = .fetching buffer flight)
    (hstep : s.advance order m index chunkLen caller around = some s') :
    Inv order m index first s' := by
  have hfits := h.fits caller
  rw [hpc] at hfits
  obtain ⟨hopen, hmissing⟩ : s.Open m buffer flight ∧ ¬ s.Available order m index := hfits
  unfold advance at hstep
  rw [hpc] at hstep
  dsimp only at hstep
  split_ifs at hstep with hstatus <;> cases hstep
  · exact h.noted (by rw [hpc]; rfl) hopen (fun _ => rfl) (by rw [hpc]; rfl)
      (fun hok => absurd hok hstatus) h.published h.source
  · refine h.move rfl ?_ (by rw [hpc]; rfl) (by rw [hpc]; exact fun _ => id) nofun
    exact ⟨hopen, hmissing⟩

/-- A publish returns; if it was successful, the chunk is on disk. -/
theorem Inv.publish (h : Inv order m index first s)
    (hpc : s.pc caller = .publishing buffer flight payload)
    (hdurable : (m.publish order around.io index payload s.state).1 = .ok →
      Durable m (m.publishCall index payload s.state) around.io)
    (hstep : s.advance order m index chunkLen caller around = some s') :
    Inv order m index first s' := by
  have hfits := h.fits caller
  rw [hpc] at hfits
  obtain ⟨hopen, hmissing⟩ : s.Open m buffer flight ∧ ¬ s.Available order m index := hfits
  have hempty : s.published = [] := by
    by_contra hne
    exact hmissing (h.published hne)
  unfold advance at hstep
  rw [hpc] at hstep
  dsimp only at hstep
  cases hstep
  refine h.noted (by rw [hpc]; rfl) hopen (fun ha => absurd ha hmissing) (by rw [hpc]; rfl)
    (fun hok => ⟨payload, held_of_publish hok (hdurable hok)⟩) (fun hne => ?_) ?_
  · split_ifs at hne with hok
    · exact ⟨payload, held_of_publish hok (hdurable hok)⟩
    · exact absurd hempty hne
  · split_ifs with hok
    · exact Or.inr ⟨payload, List.mem_cons_self, held_of_publish hok (hdurable hok)⟩
    · -- A failed publish has changed no chunk file.
      have hsame := (publishChunk_failed rfl hok).1 _
        (chunkFileName_ne_temp m.source index (m.publishCall index payload s.state))
      rcases h.source with hfirst | ⟨_, hmem, -⟩
      · exact Or.inl (hsame.trans hfirst)
      · rw [hempty] at hmem
        cases hmem

/-- The fetcher marks its flight as done. -/
theorem Inv.markDone (h : Inv order m index first s) {status : Status}
    (hpc : s.pc caller = .marking buffer flight status)
    (hstep : s.advance order m index chunkLen caller around = some s') :
    Inv order m index first s' := by
  have hfits := h.fits caller
  rw [hpc] at hfits
  obtain ⟨⟨hregistered, hlt, hdone, hbuffer⟩, hsettled⟩ :
    s.Open m buffer flight ∧ s.Settled order m index status flight := hfits
  have howns : (s.pc caller).owns = some flight := by rw [hpc]; rfl
  unfold advance at hstep
  rw [hpc] at hstep
  cases hstep
  have hself : ((s.mark flight status).move caller (.notifying buffer flight)).pc caller =
      .notifying buffer flight := move_pc_self ..
  have hnew : (s.mark flight status).flights flight =
      { s.flights flight with done := true, status := status } := Function.update_self ..
  have hold : ∀ f, f ≠ flight → (s.mark flight status).flights f = s.flights f := fun f hne =>
    Function.update_of_ne hne ..
  refine h.of_owner ⟨le_rfl, fun f _ hf => hold f ?_, fun _ => rfl⟩
    (fun other (hne : other ≠ caller) => move_pc_other hne) (fun other hne => h.others_own_nothing howns hne) ?_
    (fun f hf hfdone => ?_) (fun f hf hfdone => Or.inl ?_) (fun f hf => ?_) (fun f hf => ?_) ?_
    h.published h.source
  · rintro rfl
    rw [hdone] at hf
    cases hf
  · rw [hself]
    refine ⟨hregistered, hlt, ?_, hbuffer⟩
    show ((s.mark flight status).flights flight).done = true
    rw [hnew]
  · by_cases hne : f = flight
    · subst hne
      refine Or.inr ?_
      show Settled order m index _ ((s.mark f status).flights f).status f
      rw [hnew]
      unfold Settled at hsettled ⊢
      split_ifs at hsettled ⊢
      · exact hsettled
      · show ((s.mark f status).flights f).fetched = some status
        rw [hnew]
        exact hsettled
    · have hfdone : ((s.mark flight status).flights f).done = true := hfdone
      rw [hold f hne] at hfdone
      exact Or.inl ⟨hf, hfdone⟩
  · have hfdone : ((s.mark flight status).flights f).done = false := hfdone
    have hne : f ≠ flight := by
      rintro rfl
      rw [hnew] at hfdone
      cases hfdone
    rw [hold f hne] at hfdone
    exact ⟨hf, hfdone⟩
  · have hf : s.inflight = some f := hf
    rw [hregistered] at hf
    cases hf
    rw [hself]
    exact ⟨hlt, rfl⟩
  · rw [hself]
    rw [hpc] at hf
    exact hf
  · rw [hself]
    nofun

/-- The fetcher erases its flight. -/
theorem Inv.erase (h : Inv order m index first s) (hpc : s.pc caller = .erasing buffer flight)
    (hstep : s.advance order m index chunkLen caller around = some s') :
    Inv order m index first s' := by
  have hfits := h.fits caller
  rw [hpc] at hfits
  obtain ⟨hregistered, hlt, hdone, hbuffer⟩ : s.inflight = some flight ∧ flight < s.count ∧
    (s.flights flight).done = true ∧ buffer.length = m.chunkSize.toNat := hfits
  have howns : (s.pc caller).owns = some flight := by rw [hpc]; rfl
  unfold advance at hstep
  rw [hpc] at hstep
  cases hstep
  have hself : ({ s with inflight := none }.move caller (.landed buffer flight)).pc caller =
      .landed buffer flight := move_pc_self ..
  refine h.of_owner ⟨le_rfl, fun _ _ _ => rfl, fun _ => rfl⟩
    (fun other (hne : other ≠ caller) => move_pc_other hne) (fun other hne => h.others_own_nothing howns hne) ?_
    (fun f hf hfdone => Or.inl ⟨hf, hfdone⟩) (fun f hf hfdone => Or.inl ⟨hf, hfdone⟩) nofun
    (fun f hf => ?_) ?_ h.published h.source
  · rw [hself]
    exact ⟨hlt, hdone, hbuffer⟩
  · rw [hpc] at hf
    exact False.elim hf
  · rw [hself]
    nofun

omit [DecidableEq ι] in
/-- What waking does to a caller. -/
theorem wake_pc (s : Callers ι) (flight : ℕ) (caller : ι) :
    (s.wake flight).pc caller = s.pc caller ∧
        (∀ buffer, s.pc caller ≠ .asleep buffer flight) ∨
      ∃ buffer, s.pc caller = .asleep buffer flight ∧
        (s.wake flight).pc caller = .joined buffer flight := by
  unfold wake
  dsimp only
  split
  · rename_i buffer f hpc
    split_ifs with hf
    · subst hf
      exact Or.inr ⟨buffer, hpc, rfl⟩
    · refine Or.inl ⟨hpc.symm, fun buffer' hpc' => ?_⟩
      rw [hpc] at hpc'
      cases hpc'
      exact hf rfl
  · rename_i hnot
    exact Or.inl ⟨rfl, fun buffer hpc => hnot buffer flight hpc⟩

omit [DecidableEq ι] in
/-- Waking callers keeps the invariant. -/
theorem Inv.wake (h : Inv order m index first s) (flight : ℕ) :
    Inv order m index first (s.wake flight) := by
  have hsame : Same m index s (s.wake flight) := ⟨rfl, rfl, rfl, rfl, rfl⟩
  have howns : ∀ caller, ((s.wake flight).pc caller).owns = (s.pc caller).owns := by
    intro caller
    rcases s.wake_pc flight caller with ⟨heq, -⟩ | ⟨buffer, hpc, heq⟩
    · rw [heq]
    · rw [heq, hpc]
      rfl
  have hwill : ∀ caller f, (s.pc caller).WillNotify f → ((s.wake flight).pc caller).WillNotify f := by
    intro caller f hw
    rcases s.wake_pc flight caller with ⟨heq, -⟩ | ⟨buffer, hpc, -⟩
    · rwa [heq]
    · rw [hpc] at hw
      exact False.elim hw
  refine ⟨fun caller => hsame.fits ?_, fun a b f ha f' hb => ?_, h.settled, fun f hf => ?_,
    fun f hf hdone => ?_, fun caller buffer f hpc => ?_, h.published, h.source⟩
  · have hfits := h.fits caller
    rcases s.wake_pc flight caller with ⟨heq, -⟩ | ⟨buffer, hpc, heq⟩
    · rwa [heq]
    · rw [hpc] at hfits
      rw [heq]
      exact hfits
  · rw [howns] at ha hb
    exact h.owner a b f ha f' hb
  · obtain ⟨hlt, owner, howner⟩ := h.known f hf
    exact ⟨hlt, owner, by rw [howns, howner]⟩
  · obtain ⟨waker, hw⟩ := h.unfinished f hf hdone
    exact ⟨waker, hwill waker f hw⟩
  · rcases s.wake_pc flight caller with ⟨heq, -⟩ | ⟨buffer', -, heq⟩
    · rw [heq] at hpc
      obtain ⟨waker, hw⟩ := h.awake caller buffer f hpc
      exact ⟨waker, hwill waker f hw⟩
    · rw [heq] at hpc
      cases hpc

/-- The fetcher wakes the callers that sleep on its flight. -/
theorem Inv.notify (h : Inv order m index first s) (hpc : s.pc caller = .notifying buffer flight)
    (hstep : s.advance order m index chunkLen caller around = some s') :
    Inv order m index first s' := by
  have hfits := h.fits caller
  rw [hpc] at hfits
  unfold advance at hstep
  rw [hpc] at hstep
  cases hstep
  have hcaller : (s.wake flight).pc caller = .notifying buffer flight := by
    rcases s.wake_pc flight caller with ⟨heq, -⟩ | ⟨buffer', hasleep, -⟩
    · rw [heq, hpc]
    · rw [hpc] at hasleep
      cases hasleep
  have hself : ((s.wake flight).move caller (.erasing buffer flight)).pc caller =
      .erasing buffer flight := move_pc_self ..
  refine (h.wake flight).of_same ⟨rfl, rfl, rfl, rfl, rfl⟩
    (fun other (hne : other ≠ caller) => move_pc_other hne) ?_ ?_ (fun f hf => Or.inr ⟨?_, ?_⟩) ?_
  · rw [hself]
    exact hfits
  · rw [hself, hcaller]
    rfl
  · rw [hcaller] at hf
    have hf : flight = f := hf
    subst hf
    exact hfits.2.2.1
  · -- Nobody sleeps on the flight any more.
    rw [hcaller] at hf
    have hf : flight = f := hf
    subst hf
    intro other buffer' hasleep
    by_cases hother : other = caller
    · rw [hother, hself] at hasleep
      cases hasleep
    · rw [move_pc_other hother] at hasleep
      rcases s.wake_pc flight other with ⟨heq, hnot⟩ | ⟨buffer'', -, heq⟩
      · exact hnot buffer' (heq ▸ hasleep)
      · rw [heq] at hasleep
        cases hasleep
  · rw [hself]
    nofun

/-- A waiter looks whether its flight is done. -/
theorem Inv.wait (h : Inv order m index first s) (hpc : s.pc caller = .joined buffer flight)
    (hstep : s.advance order m index chunkLen caller around = some s') :
    Inv order m index first s' := by
  have hfits := h.fits caller
  rw [hpc] at hfits
  obtain ⟨hlt, hbuffer⟩ : flight < s.count ∧ buffer.length = m.chunkSize.toNat := hfits
  unfold advance at hstep
  rw [hpc] at hstep
  dsimp only at hstep
  split_ifs at hstep with hdone <;> cases hstep
  · refine h.move rfl ?_ (by rw [hpc]; rfl) (by rw [hpc]; nofun) nofun
    exact ⟨hlt, hdone, hbuffer⟩
  · refine h.move rfl ?_ (by rw [hpc]; rfl) (by rw [hpc]; nofun) ?_
    · exact ⟨hlt, hbuffer⟩
    · rintro buffer' flight' ⟨⟩
      exact h.unfinished flight hlt (Bool.not_eq_true _ ▸ hdone)

/-- A caller whose flight is done returns. -/
theorem Inv.land (h : Inv order m index first s) (hpc : s.pc caller = .landed buffer flight)
    (hstep : s.advance order m index chunkLen caller around = some s') :
    Inv order m index first s' := by
  have hfits := h.fits caller
  rw [hpc] at hfits
  obtain ⟨hlt, hdone, hbuffer⟩ :
    flight < s.count ∧ (s.flights flight).done = true ∧ buffer.length = m.chunkSize.toNat := hfits
  have hsettled := h.settled flight hlt hdone
  unfold Settled at hsettled
  unfold advance at hstep
  rw [hpc] at hstep
  dsimp only at hstep
  split_ifs at hstep with hstatus <;> cases hstep
  · rw [if_neg hstatus] at hsettled
    refine h.move rfl ?_ (by rw [hpc]; rfl) (by rw [hpc]; nofun) nofun
    unfold Fits
    dsimp only
    rw [if_neg hstatus]
    exact ⟨flight, rfl, hlt, hdone, hsettled⟩
  · rw [if_pos (not_not.mp hstatus)] at hsettled
    obtain ⟨payload, hheld⟩ := hsettled
    have hread := readLocal_of_held hheld hbuffer
    refine h.move rfl ?_ (by rw [hpc]; rfl) (by rw [hpc]; nofun) nofun
    rw [hread]
    exact ⟨payload, _, hheld, rfl⟩

/-- Every step of a caller keeps the invariant. -/
theorem Inv.advance (h : Inv order m index first s)
    (hdurable : ∀ buffer flight payload, s.pc caller = .publishing buffer flight payload →
      around.io.Succeeds (m.publishCall index payload s.state) →
      Durable m (m.publishCall index payload s.state) around.io)
    (hstep : s.advance order m index chunkLen caller around = some s') :
    Inv order m index first s' := by
  cases hpc : s.pc caller with
  | entered buffer => exact h.look hpc hstep
  | missed buffer =>
      cases hin : s.inflight with
      | some flight => exact h.join hpc hin hstep
      | none => exact h.register hpc hin hstep
  | registered buffer flight => exact h.lookAgain hpc hstep
  | fetching buffer flight => exact h.fetch hpc hstep
  | publishing buffer flight payload =>
      refine h.publish hpc (fun hok => hdurable buffer flight payload hpc ?_) hstep
      exact (publishChunk_status_ok_iff.mp hok).2
  | marking buffer flight status => exact h.markDone hpc hstep
  | notifying buffer flight => exact h.notify hpc hstep
  | erasing buffer flight => exact h.erase hpc hstep
  | joined buffer flight => exact h.wait hpc hstep
  | landed buffer flight => exact h.land hpc hstep
  | _ =>
      unfold Callers.advance at hstep
      rw [hpc] at hstep
      cases hstep

/-- A publish that reports success must be durable. -/
def Careful (m : Mirror) (index : UInt32) (s : Callers ι) : CallerAction ι → Prop
  | .step caller around => ∀ buffer flight payload,
      s.pc caller = .publishing buffer flight payload →
      around.io.Succeeds (m.publishCall index payload s.state) →
      Durable m (m.publishCall index payload s.state) around.io
  | _ => True

theorem Inv.step {a : CallerAction ι} (h : Inv order m index first s) (ha : s.Careful m index a)
    (hstep : s.step order m index chunkLen a = some s') : Inv order m index first s' := by
  cases a with
  | enter caller buffer =>
      unfold Callers.step at hstep
      dsimp only at hstep
      split_ifs at hstep with hfree
      cases hstep
      refine h.move rfl ?_ (by rw [hfree.1]; rfl) (by rw [hfree.1]; nofun) nofun
      exact hfree.2
  | step caller around => exact h.advance ha hstep
  | wakeup caller =>
      unfold Callers.step at hstep
      dsimp only at hstep
      split at hstep <;> cases hstep
      rename_i buffer flight hpc
      have hfits := h.fits caller
      rw [hpc] at hfits
      exact h.move rfl hfits (by rw [hpc]; rfl) (by rw [hpc]; nofun) nofun
  | elsewhere state =>
      unfold Callers.step at hstep
      dsimp only at hstep
      split_ifs at hstep with hfile
      cases hstep
      have hsame : Same m index s { s with state := state } := ⟨rfl, rfl, rfl, hfile, rfl⟩
      exact ⟨fun caller => hsame.fits (h.fits caller), h.owner,
        fun flight hlt hdone => hsame.settled.mpr (h.settled flight hlt hdone), h.known,
        h.unfinished, h.awake, fun hne => hsame.available.mpr (h.published hne),
        by rw [hsame.chunk]; exact h.source⟩

omit [DecidableEq ι] in
theorem Inv.start (state : MirrorState) :
    Inv order m index (state.directory.read (chunkFileName m.source index))
      (Callers.start ι state) where
  fits := fun _ => trivial
  owner := nofun
  settled := nofun
  known := nofun
  unfinished := nofun
  awake := nofun
  published := fun hne => absurd rfl hne
  source := Or.inl rfl

/-! ## Coalescing -/

/-- Callers of one chunk share its fetches. -/
structure Coalesced (order : ByteOrder) (m : Mirror) (index : UInt32) (first : Option Bytes)
    (s : Callers ι) : Prop where
  /-- At most one fetch is in progress. -/
  one : ∀ caller other, (s.pc caller).Fetching → (s.pc other).Fetching → caller = other
  /-- None is issued once one has been published. -/
  last : s.published ≠ [] → ∀ caller, ¬ (s.pc caller).Fetching
  /-- Whoever returns success has the published payload, or what was on disk at the start. -/
  ok : ∀ caller buffer flight, s.pc caller = .returned .ok buffer flight →
    ∃ payload behind, buffer = payload ++ behind ∧ Held order m index (s.chunk m index) payload ∧
      (payload ∈ s.published ∨ s.chunk m index = first)
  /-- Whoever fails returns the status of a fetch it has made or waited for. -/
  failed : ∀ caller status buffer flight, s.pc caller = .returned status buffer flight →
    status ≠ .ok → ∃ f, flight = some f ∧ (s.flights f).fetched = some status

omit [DecidableEq ι] in
theorem Inv.coalesced (h : Inv order m index first s) : Coalesced order m index first s where
  one := by
    rintro caller other ⟨buffer, flight, hpc⟩ ⟨buffer', flight', hpc'⟩
    exact h.owner caller other flight (by rw [hpc]; rfl) flight' (by rw [hpc']; rfl)
  last := by
    rintro hne caller ⟨buffer, flight, hpc⟩
    have hfits := h.fits caller
    rw [hpc] at hfits
    exact hfits.2 (h.published hne)
  ok := by
    intro caller buffer flight hpc
    have hfits := h.fits caller
    rw [hpc] at hfits
    obtain ⟨payload, behind, hheld, hbuffer⟩ : ∃ payload behind,
      Held order m index (s.chunk m index) payload ∧ buffer = payload ++ behind := hfits
    refine ⟨payload, behind, hbuffer, hheld, ?_⟩
    rcases h.source with hfirst | ⟨payload', hmem, hheld'⟩
    · exact Or.inr hfirst
    · rw [hheld.unique hheld']
      exact Or.inl hmem
  failed := by
    intro caller status buffer flight hpc hstatus
    have hfits := h.fits caller
    rw [hpc] at hfits
    unfold Fits at hfits
    dsimp only at hfits
    rw [if_neg hstatus] at hfits
    obtain ⟨f, hf, -, -, hfetched⟩ := hfits
    exact ⟨f, hf, hfetched⟩

/-- Same-chunk fetches coalesce in every run whose successful publishes are durable. -/
theorem fetches_coalesce {state : MirrorState}
    (hs : Reaches (Callers.step order m index chunkLen) (Careful m index)
      (Callers.start ι state) s) :
    Coalesced order m index (state.directory.read (chunkFileName m.source index)) s :=
  (hs.invariant (Inv.start state) fun _ _ _ hinv ha hstep => hinv.step ha hstep).coalesced

/-- A caller that has neither returned nor gone to sleep can go on. -/
theorem exists_advance (order : ByteOrder) (m : Mirror) (index : UInt32) (chunkLen : UInt64)
    (around : Surroundings) (hidle : s.pc caller ≠ .idle)
    (hasleep : ∀ buffer flight, s.pc caller ≠ .asleep buffer flight)
    (hreturned : ∀ status buffer flight, s.pc caller ≠ .returned status buffer flight) :
    ∃ s', s.advance order m index chunkLen caller around = some s' := by
  unfold advance
  cases hpc : s.pc caller with
  | idle => exact absurd hpc hidle
  | asleep buffer flight => exact absurd hpc (hasleep buffer flight)
  | returned status buffer flight => exact absurd hpc (hreturned status buffer flight)
  | missed buffer => cases hin : s.inflight <;> exact ⟨_, rfl⟩
  | _ =>
      dsimp only
      try split_ifs
      all_goals exact ⟨_, rfl⟩

/-- As long as a caller has not returned, some caller can go on: nobody sleeps for ever. -/
theorem Inv.progress (h : Inv order m index first s) (chunkLen : UInt64) (around : Surroundings)
    (hidle : s.pc caller ≠ .idle)
    (hreturned : ∀ status buffer flight, s.pc caller ≠ .returned status buffer flight) :
    ∃ other s', s.advance order m index chunkLen other around = some s' := by
  by_cases hasleep : ∃ buffer flight, s.pc caller = .asleep buffer flight
  · obtain ⟨buffer, flight, hpc⟩ := hasleep
    obtain ⟨waker, hwill⟩ := h.awake caller buffer flight hpc
    refine ⟨waker, exists_advance order m index chunkLen around ?_ (fun buffer' flight' heq => ?_)
      fun status buffer' flight' heq => ?_⟩
    · intro heq
      rw [heq] at hwill
      exact hwill
    · rw [heq] at hwill
      exact hwill
    · rw [heq] at hwill
      exact hwill
  · refine ⟨caller, exists_advance order m index chunkLen around hidle (fun buffer flight hpc => ?_)
      hreturned⟩
    exact hasleep ⟨buffer, flight, hpc⟩

/-! ## One caller alone -/

/-- The steps of one caller in one environment. -/
abbrev Runs (order : ByteOrder) (m : Mirror) (index : UInt32) (chunkLen : UInt64) (caller : ι)
    (around : Surroundings) : Callers ι → Callers ι → Prop :=
  Reaches (Callers.step order m index chunkLen) fun _ a => a = .step caller around

theorem Runs.next {s'' : Callers ι} (h : Runs order m index chunkLen caller around s s')
    (hstep : s'.advance order m index chunkLen caller around = some s'') :
    Runs order m index chunkLen caller around s s'' :=
  .step h rfl hstep

/-- From a noted status on, the fetcher marks, notifies and erases its flight. -/
theorem Runs.finish {status : Status} (h : Runs order m index chunkLen caller around s s')
    (hpc : s'.pc caller = .marking buffer flight status) :
    ∃ s'', Runs order m index chunkLen caller around s s'' ∧
      s''.pc caller = .landed buffer flight ∧ (s''.flights flight).status = status ∧
      s''.state = s'.state ∧ s''.inflight = none := by
  have hmark : s'.advance order m index chunkLen caller around =
      some ((s'.mark flight status).move caller (.notifying buffer flight)) := by
    rw [advance, hpc]
  have hmarked : ((s'.mark flight status).move caller (.notifying buffer flight)).pc caller =
      .notifying buffer flight := move_pc_self ..
  generalize hs₁ : (s'.mark flight status).move caller (.notifying buffer flight) = s₁
    at hmark hmarked
  have hnotify : s₁.advance order m index chunkLen caller around =
      some ((s₁.wake flight).move caller (.erasing buffer flight)) := by
    rw [advance, hmarked]
  have hnotified : ((s₁.wake flight).move caller (.erasing buffer flight)).pc caller =
      .erasing buffer flight := move_pc_self ..
  generalize hs₂ : (s₁.wake flight).move caller (.erasing buffer flight) = s₂ at hnotify hnotified
  have herase : s₂.advance order m index chunkLen caller around =
      some ({ s₂ with inflight := none }.move caller (.landed buffer flight)) := by
    rw [advance, hnotified]
  refine ⟨_, ((h.next hmark).next hnotify).next herase, move_pc_self .., ?_, ?_, rfl⟩
  · show (s₂.flights flight).status = status
    rw [← hs₂, ← hs₁]
    show (Function.update s'.flights flight _ flight).status = status
    rw [Function.update_self]
  · show s₂.state = s'.state
    rw [← hs₂, ← hs₁]
    rfl

/-- A landed caller returns what its flight or the read-back says. -/
theorem Runs.land {status : Status} (h : Runs order m index chunkLen caller around s s')
    (hpc : s'.pc caller = .landed buffer flight) (hstatus : (s'.flights flight).status = status) :
    ∃ s'', Runs order m index chunkLen caller around s s'' ∧ s''.state = s'.state ∧
      s''.inflight = s'.inflight ∧ s''.pc caller =
        if status ≠ .ok then .returned status buffer (some flight)
        else .returned (Mirror.readBackStatus (s'.readLocal order m index buffer).1.status)
          (s'.readLocal order m index buffer).2 (some flight) := by
  have hstep : s'.advance order m index chunkLen caller around = some (s'.move caller
      (if status ≠ .ok then .returned status buffer (some flight)
        else .returned (Mirror.readBackStatus (s'.readLocal order m index buffer).1.status)
          (s'.readLocal order m index buffer).2 (some flight))) := by
    rw [advance, hpc]
    dsimp only
    rw [hstatus]
    split_ifs <;> rfl
  exact ⟨_, h.next hstep, rfl, rfl, move_pc_self ..⟩

/-- What a caller returns after its flight has come to a status. -/
def outcome (order : ByteOrder) (m : Mirror) (index : UInt32) (buffer : Bytes)
    (fetched : Status × MirrorState) : Status × Bytes × MirrorState :=
  if fetched.1 ≠ .ok then (fetched.1, buffer, fetched.2)
  else
    let back := readChunk order m.chunkSize fetched.2.directory m.source index buffer
    (Mirror.readBackStatus back.1.status, back.2, fetched.2)

/-- From a noted status on, a fetcher alone returns. -/
theorem Runs.settle {status : Status} (h : Runs order m index chunkLen caller around s s')
    (hpc : s'.pc caller = .marking buffer flight status) :
    ∃ s'', Runs order m index chunkLen caller around s s'' ∧ s''.inflight = none ∧
      s''.state = (outcome order m index buffer (status, s'.state)).2.2 ∧
      s''.pc caller = .returned (outcome order m index buffer (status, s'.state)).1
        (outcome order m index buffer (status, s'.state)).2.1 (some flight) := by
  obtain ⟨s₁, hrun, hlanded, hstatus, hstate, hin⟩ := h.finish hpc
  obtain ⟨s₂, hrun, hstate', hin', hreturned⟩ := hrun.land hlanded hstatus
  refine ⟨s₂, hrun, hin'.trans hin, ?_, ?_⟩
  · rw [hstate', hstate, outcome]
    split_ifs <;> rfl
  · rw [hreturned, outcome, readLocal, hstate]
    split_ifs <;> rfl

/-- A registered caller alone fetches and returns. -/
theorem Runs.fetch (h : Runs order m index chunkLen caller around s s')
    (hpc : s'.pc caller = .registered buffer flight) :
    ∃ s'', Runs order m index chunkLen caller around s s'' ∧ s''.inflight = none ∧
      let look := s'.readLocal order m index buffer
      let result := outcome order m index look.2
        (if look.1.status = .ok then (Status.ok, s'.state)
          else m.fetchAndPublish order around index chunkLen s'.state)
      s''.state = result.2.2 ∧ s''.pc caller = .returned result.1 result.2.1 (some flight) := by
  dsimp only
  by_cases hok : (s'.readLocal order m index buffer).1.status = .ok
  · rw [if_pos hok]
    have hstep : s'.advance order m index chunkLen caller around = some (s'.move caller
        (.marking (s'.readLocal order m index buffer).2 flight .ok)) := by
      rw [advance, hpc]
      dsimp only
      rw [if_pos hok]
    exact (h.next hstep).settle (move_pc_self ..)
  · rw [if_neg hok]
    have hstep : s'.advance order m index chunkLen caller around = some (s'.move caller
        (.fetching (s'.readLocal order m index buffer).2 flight)) := by
      rw [advance, hpc]
      dsimp only
      rw [if_neg hok]
    have hfetching := move_pc_self s' caller (.fetching (s'.readLocal order m index buffer).2 flight)
    have hrun := h.next hstep
    have hstate : (s'.move caller (.fetching (s'.readLocal order m index buffer).2 flight)).state =
        s'.state := rfl
    generalize s'.move caller (.fetching (s'.readLocal order m index buffer).2 flight) = s₁
      at hfetching hrun hstate
    rw [← hstate]
    generalize (s'.readLocal order m index buffer).2 = buffer' at hfetching ⊢
    unfold Mirror.fetchAndPublish
    dsimp only
    generalize hfetched : around.transport (m.fetchRequest index chunkLen) = fetched
    generalize hs₂ : { s₁ with
      state := { s₁.state with stats := s₁.state.stats.recordFetch fetched.1 } } = s₂
    have hstate₂ : { s₁.state with stats := s₁.state.stats.recordFetch fetched.1 } = s₂.state := by
      rw [← hs₂]
    rw [hstate₂]
    by_cases hstatus : Mirror.fetchStatus chunkLen fetched.1 ≠ .ok
    · rw [if_pos hstatus]
      have hstep : s₁.advance order m index chunkLen caller around =
          some ((s₂.note flight (Mirror.fetchStatus chunkLen fetched.1)).move caller
            (.marking buffer' flight (Mirror.fetchStatus chunkLen fetched.1))) := by
        rw [advance, hfetching]
        dsimp only
        rw [hfetched, if_pos hstatus, hs₂]
      exact (hrun.next hstep).settle (move_pc_self ..)
    · rw [if_neg hstatus]
      have hstep : s₁.advance order m index chunkLen caller around =
          some (s₂.move caller (.publishing buffer' flight fetched.2)) := by
        rw [advance, hfetching]
        dsimp only
        rw [hfetched, if_neg hstatus, hs₂]
      have hstep' : (s₂.move caller (.publishing buffer' flight fetched.2)).advance order m index
          chunkLen caller around = some (({ s₂.move caller (.publishing buffer' flight fetched.2) with
            state := (m.publish order around.io index fetched.2 s₂.state).2
            published := if (m.publish order around.io index fetched.2 s₂.state).1 = Status.ok then
              fetched.2 :: s₂.published else s₂.published }.note flight
                (m.publish order around.io index fetched.2 s₂.state).1).move caller
            (.marking buffer' flight (m.publish order around.io index fetched.2 s₂.state).1)) := by
        rw [advance, move_pc_self]
        rfl
      exact ((hrun.next hstep).next hstep').settle (move_pc_self ..)

omit [DecidableEq ι] in
/-- The sequential function in the words of the callers. -/
theorem ensureChunkLocal_eq (arounds : UInt32 → Surroundings) (s : Callers ι) {s₁ : Callers ι}
    (hs₁ : s₁.state = Mirror.countLocal (s.readLocal order m index buffer).1.status s.state) :
    m.ensureChunkLocal order arounds index chunkLen buffer s.state =
      if (s.readLocal order m index buffer).1.status = .ok then
        (.ok, (s.readLocal order m index buffer).2, s₁.state)
      else outcome order m index
        (s₁.readLocal order m index (s.readLocal order m index buffer).2).2
        (if (s₁.readLocal order m index (s.readLocal order m index buffer).2).1.status = .ok then
            (Status.ok, s₁.state)
          else m.fetchAndPublish order (arounds index) index chunkLen s₁.state) := by
  unfold readLocal
  rw [hs₁]
  rfl

/-- A caller alone does what `ensureChunkLocal` says. -/
theorem ensureChunkLocal_alone (arounds : UInt32 → Surroundings)
    (hpc : s.pc caller = .entered buffer) (hin : s.inflight = none) :
    ∃ s', Runs order m index chunkLen caller (arounds index) s s' ∧ s'.inflight = none ∧
      s'.state = (m.ensureChunkLocal order arounds index chunkLen buffer s.state).2.2 ∧
      ∃ flight, s'.pc caller = .returned
        (m.ensureChunkLocal order arounds index chunkLen buffer s.state).1
        (m.ensureChunkLocal order arounds index chunkLen buffer s.state).2.1 flight := by
  generalize hs₁ : { s with
    state := Mirror.countLocal (s.readLocal order m index buffer).1.status s.state } = s₁
  have hin₁ : s₁.inflight = none := by rw [← hs₁]; exact hin
  have hstate₁ : s₁.state = Mirror.countLocal (s.readLocal order m index buffer).1.status s.state := by
    rw [← hs₁]
  rw [ensureChunkLocal_eq arounds s hstate₁]
  by_cases hfirst : (s.readLocal order m index buffer).1.status = .ok
  · have hstep : s.advance order m index chunkLen caller (arounds index) =
        some (s₁.move caller (.returned .ok (s.readLocal order m index buffer).2 none)) := by
      rw [advance, hpc]
      dsimp only
      rw [if_pos hfirst, hs₁]
    rw [if_pos hfirst]
    exact ⟨_, Runs.next .start hstep, hin₁, rfl, none, move_pc_self ..⟩
  · have hstep : s.advance order m index chunkLen caller (arounds index) =
        some (s₁.move caller (.missed (s.readLocal order m index buffer).2)) := by
      rw [advance, hpc]
      dsimp only
      rw [if_neg hfirst, hs₁]
    rw [if_neg hfirst]
    generalize (s.readLocal order m index buffer).2 = buffer' at hstep ⊢
    have hmissed := move_pc_self s₁ caller (.missed buffer')
    have hin₂ : (s₁.move caller (.missed buffer')).inflight = none := hin₁
    have hregister : (s₁.move caller (.missed buffer')).advance order m index chunkLen caller
        (arounds index) = some ((s₁.move caller (.missed buffer')).register.move caller
          (.registered buffer' s₁.count)) := by
      rw [advance, hmissed]
      dsimp only
      split
      · rename_i flight hflight
        rw [hin₂] at hflight
        cases hflight
      · rfl
    obtain ⟨s', hrun, hin', hstate', hreturned⟩ :=
      ((Runs.next .start hstep).next hregister).fetch (move_pc_self ..)
    exact ⟨s', hrun, hin', hstate', _, hreturned⟩

end Steps

/-! ## Runs of two callers -/

/-- A mirror of a source of one byte. -/
def oneByteMirror : Mirror := ⟨⟨ascii "u", ⟨ascii "x", [], 1⟩⟩, 1, true, 0⟩

/-- A transport that delivers the byte, over some disk. -/
def sevens (io : PublishIo) : Surroundings := ⟨fun request => (⟨.ok, request.length, {}, 0⟩, [7]), io⟩

/-- The first caller alone, until it has returned. -/
def firstCaller (io : PublishIo) : List (CallerAction (Fin 2)) :=
  .enter 0 [0] :: List.replicate 9 (.step 0 (sevens io))

/-- The second caller comes while the first is about to fetch, and sleeps on its flight. -/
def twoCallers : List (CallerAction (Fin 2)) :=
  .enter 0 [0] :: List.replicate 3 (.step 0 (sevens {})) ++
    .enter 1 [0] :: List.replicate 3 (.step 1 (sevens {})) ++
    List.replicate 6 (.step 0 (sevens {})) ++ List.replicate 2 (.step 1 (sevens {}))

/-- One caller fetches a chunk and publishes it, the other sleeps and reads it back. -/
theorem fetches_coalesce_two : ∃ s : Callers (Fin 2),
    Reaches (Callers.step .little oneByteMirror 0 1) (Careful oneByteMirror 0)
        (Callers.start (Fin 2) ⟨Disk.empty _, 0, {}⟩) s ∧
      s.pc 0 = .returned .ok [7] (some 0) ∧ s.pc 1 = .returned .ok [7] (some 0) ∧
      s.published = [[7]] ∧ Coalesced .little oneByteMirror 0 none s := by
  have hrun : (exec (Callers.step .little oneByteMirror 0 1) twoCallers
      (Callers.start (Fin 2) ⟨Disk.empty _, 0, {}⟩)).any
        (fun s => s.pc 0 = .returned .ok [7] (some 0) ∧ s.pc 1 = .returned .ok [7] (some 0) ∧
          s.published = [[7]]) = true := by
    decide +kernel
  obtain ⟨s, hexec, hstate⟩ := (Option.any_eq_true _ _).mp hrun
  obtain ⟨hfirst, hsecond, hpublished⟩ := of_decide_eq_true hstate
  have hsteps : ∀ a ∈ twoCallers, (∃ caller buffer, a = .enter caller buffer) ∨
      ∃ caller, a = .step caller (sevens {}) := by
    simp [twoCallers]
  have hcareful : ∀ a ∈ twoCallers, ∀ s : Callers (Fin 2), Careful oneByteMirror 0 s a := by
    intro a ha s
    rcases hsteps a ha with ⟨caller, buffer, rfl⟩ | ⟨caller, rfl⟩
    · trivial
    · exact fun _ _ _ _ _ => ⟨by decide, fun hleaves => Nat.lt_irrefl 0 hleaves.2.1⟩
  have hs := reaches_of_exec .start (allAllowed_of_forall hcareful _) hexec
  exact ⟨s, hs, hfirst, hsecond, hpublished, fetches_coalesce hs⟩

/-- A full disk that the first caller does not notice: its publish succeeds, the file lacks a
byte, and the second caller fetches the chunk again. -/
theorem fetches_twice : ∃ s : Callers (Fin 2),
    Reachable (Callers.step .little oneByteMirror 0 1)
        (Callers.start (Fin 2) ⟨Disk.empty _, 0, {}⟩) s ∧
      s.published = [[7]] ∧ s.pc 0 = .returned .corrupt [0] (some 0) ∧
      s.pc 1 = .fetching [0] 1 ∧ ¬ Coalesced .little oneByteMirror 0 none s := by
  have hrun : (exec (Callers.step .little oneByteMirror 0 1)
      (firstCaller fullDisk ++ .enter 1 [0] :: List.replicate 3 (.step 1 (sevens {})))
      (Callers.start (Fin 2) ⟨Disk.empty _, 0, {}⟩)).any
        (fun s => s.published = [[7]] ∧ s.pc 0 = .returned .corrupt [0] (some 0) ∧
          s.pc 1 = .fetching [0] 1) = true := by
    decide +kernel
  obtain ⟨s, hexec, hstate⟩ := (Option.any_eq_true _ _).mp hrun
  obtain ⟨hpublished, hfirst, hsecond⟩ := of_decide_eq_true hstate
  refine ⟨s, reachable_of_exec .start hexec, hpublished, hfirst, hsecond, fun h => ?_⟩
  exact h.last (by rw [hpublished]; nofun) 1 ⟨[0], 1, hsecond⟩

end Callers

end TieredCache.Remote
