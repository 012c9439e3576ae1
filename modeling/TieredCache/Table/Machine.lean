/-
# The table and its clients as one machine

The state is the table together with what its clients hold: lease and ticket
variables, and for each thread where it is inside a public operation.  One step is
one critical section of the table's mutex, one wait on a claim, one codec call, or
one delivery by the transport; any thread may take the next step.  A thread asleep on
the condition variable remembers how many notifications it had seen.
-/

import TieredCache.Table.Sections

namespace TieredCache

/-- A lease variable of a client, numbered by its place in memory: the entries of a
span have consecutive numbers. -/
abbrev LeaseVar := ℕ

/-- A ticket variable of a client. -/
abbrev TicketVar := ℕ

/-- A client thread. -/
abbrev ThreadId := ℕ

/-- A held `RowLease`. -/
structure Lease (cfg : TableConfig) where
  slot : cfg.SlotId
  epoch : UInt32
  bytes : ByteRange
  rowIndex : UInt64
  generation : UInt64
  /-- Ghost: the number of the lease among all leases granted. -/
  id : ℕ
  /-- Ghost: the binding the row was admitted under. -/
  through : BindingId
  deriving DecidableEq

/-- A ticket variable and, as the client's own obligation, how many calls use it. -/
structure TicketCell (cfg : TableConfig) where
  ticket : Option (Ticket cfg) := none
  users : ℕ := 0

/-! ## Program counters -/

/-- Where in `finish_fill` a thread is.  `waiting` names the claims not yet waited
for. -/
inductive FinishPc
  | enter
  | waiting (pending : List RequestId)
  | timedOut
  | convert
  | publish (result : Status)
  deriving DecidableEq, Repr

/-- One call of `resolve_into`. -/
structure ResolveCall where
  rows : List UInt64
  /-- The variable of `out[0]`. -/
  out : LeaseVar
  /-- Ghost: the binding that was current when the call was made. -/
  begun : BindingId
  /-- Ghost: the binding the rows were admitted under, once they are. -/
  binding : BindingId
  /-- Ghost: the generation the rows were admitted under. -/
  generation : UInt64 := 0
  /-- Ghost: the leases the call took. -/
  taken : List ℕ := []
  /-- Ghost: the keys the call started a fetch for. -/
  fetched : List RowKey := []
  deriving DecidableEq, Repr

/-- A call that has just been made. -/
def ResolveCall.begin (rows : List UInt64) (out : LeaseVar) (current : BindingId) : ResolveCall where
  rows := rows
  out := out
  begun := current
  binding := current

/-- Where in `resolve_into` a thread is. -/
inductive ResolvePc (cfg : TableConfig)
  | releasing (i : ℕ)
  | phaseA
  | unwind (i count : ℕ) (failure : Status)
  | drive (i : ℕ)
  | finishing (i : ℕ) (slot : cfg.SlotId) (pc : FinishPc)
  | settle (i : ℕ)
  | asleep (i since : ℕ)
  | returned (result : Except Status ℕ)
  deriving DecidableEq

/-- One call of `wait`. -/
structure WaitCall (cfg : TableConfig) where
  ticket : TicketVar
  record : cfg.RecordId
  count : ℕ
  deadline : Bool
  deriving DecidableEq

/-- The tally of `wait`. -/
structure WaitOutcome where
  status : Status := .ok
  filled : UInt32 := 0
  failed : UInt32 := 0
  pending : UInt32 := 0
  evicted : UInt32 := 0
  deriving DecidableEq, Repr

/-- Where in `wait` a thread is. -/
inductive WaitPc (cfg : TableConfig)
  | entry (i : ℕ)
  | finishing (i : ℕ) (slot : cfg.SlotId) (pc : FinishPc)
  | settle (i : ℕ)
  | asleep (i since : ℕ)
  | returned
  deriving DecidableEq

/-- Where in `drain` a thread is. -/
inductive DrainPc
  | start
  | asleep (since : ℕ)
  | returned (result : Status)
  deriving DecidableEq, Repr

/-- Where a client thread is.  `refused` is a call whose arguments were rejected. -/
inductive Pc (cfg : TableConfig)
  | idle
  | refused (status : Status)
  | resolving (call : ResolveCall) (pc : ResolvePc cfg)
  | waiting (call : WaitCall cfg) (outcome : WaitOutcome) (pc : WaitPc cfg)
  | draining (deadline : Bool) (pc : DrainPc)
  deriving DecidableEq

/-- Where the completion worker is. -/
inductive WorkerPc (cfg : TableConfig)
  | scan
  | finishing (slot : cfg.SlotId) (pc : FinishPc)
  | asleep (since : ℕ)
  deriving DecidableEq

/-- The whole state. -/
structure World (cfg : TableConfig) where
  table : Table cfg
  leases : LeaseVar → Option (Lease cfg)
  /-- The variables that belong to the `out` span of a running call. -/
  inUse : LeaseVar → Bool
  /-- Ghost: how many leases have been granted. -/
  granted : ℕ
  /-- Ghost: the leases released, latest first. -/
  released : List ℕ
  tickets : TicketVar → TicketCell cfg
  threads : ThreadId → Pc cfg
  worker : WorkerPc cfg
  /-- `std::terminate` has been called. -/
  crashed : Bool

/-- What the surroundings decide in one step: the transport's answers, whether the
codec succeeds, whether the deadline has passed, and whether a wait on the condition
variable ends without a notification. -/
structure Choice where
  answers : Answers := fun _ => {}
  codecOk : Bool := true
  expired : Bool := false
  spurious : Bool := false

/-- The steps of the machine. -/
inductive Action (cfg : TableConfig)
  | resolveInto (thread : ThreadId) (rows : List UInt64) (out : LeaseVar) (outSize : ℕ)
  | wait (thread : ThreadId) (ticket : TicketVar) (deadline : Bool)
  | drain (thread : ThreadId) (deadline : Bool)
  | advance (thread : ThreadId) (choice : Choice)
  | leave (thread : ThreadId)
  | work (choice : Choice)
  | tryGet (row : UInt64) (lease : LeaseVar)
  | reset (lease : LeaseVar)
  | move (source target : LeaseVar)
  | prefetch (rows : List UInt64) (ticket : TicketVar) (answers : Answers)
  | dropTicket (ticket : TicketVar)
  | moveTicket (source target : TicketVar)
  | invalidate (creation : MemStatus) (generation : UInt64) (sources : List ShardSource)
      (resolver : Option RowExtentResolver)
  | deliver (id : RequestId) (status : MemStatus)

/-! ## finish_fill -/

namespace Table

variable {cfg : TableConfig}

/-- The claims `finish_fill` waits for: the chunk claims if there are any, else the
one claim. -/
def awaited (t : Table cfg) (slot : cfg.SlotId) : List RequestId :=
  let s := t.slots slot
  if s.chunkClaims = [] then s.claim.toList else s.chunkClaims

/-- One step of `finish_fill`.  `none` means the thread cannot go on yet; otherwise the
next program counter, or `none` when the function returns. -/
def finishStep (t : Table cfg) (slot : cfg.SlotId) (deadline : Bool) (choice : Choice) :
    FinishPc → Option (Option FinishPc × Table cfg)
  | .enter =>
      if (t.slots slot).state ≠ .filling then some (none, t)
      else some (some (.waiting (t.awaited slot)), t)
  | .waiting [] => some (some (if cfg.converting then .convert else .publish .ok), t)
  | .waiting (id :: rest) =>
      match (t.requests id).outcome with
      | some .ok => some (some (.waiting rest), t)
      | some status => some (some (.publish (fromMempage status)), t)
      | none => if deadline && choice.expired then some (some .timedOut, t) else none
  | .timedOut => some (none, t.relinquish slot)
  | .convert => some (some (.publish (if choice.codecOk then .ok else .codecFailed)), t)
  | .publish result => some (none, t.publish slot result)

end Table

namespace World

variable {cfg : TableConfig}

/-- The state before any client has done anything. -/
def start (cfg : TableConfig) (h : cfg.Accepted) : World cfg where
  table := Table.create cfg h
  leases := fun _ => none
  inUse := fun _ => false
  granted := 0
  released := []
  tickets := fun _ => {}
  threads := fun _ => .idle
  worker := .scan
  crashed := false

/-! ## Leases -/

/-- `RowLease::reset`. -/
def resetLease (w : World cfg) (v : LeaseVar) : World cfg :=
  match w.leases v with
  | none => w
  | some lease =>
      match w.table.releaseLease lease.slot lease.epoch with
      | none => { w with crashed := true }
      | some t =>
          { w with
            table := t
            leases := Function.update w.leases v none
            released := lease.id :: w.released }

/-- Pin a slot and write the lease on it into a variable. -/
def grant (w : World cfg) (v : LeaseVar) (slot : cfg.SlotId) (row : UInt64)
    (bytes : ByteRange) : World cfg :=
  let s := w.table.slots slot
  { w with
    table := w.table.pin slot
    leases := Function.update w.leases v
      (some ⟨slot, s.epoch, bytes, row, s.rowGeneration, w.granted, s.filledThrough⟩)
    granted := w.granted + 1 }

/-- `RowLease::operator=` with a moved-from source. -/
def moveLease (w : World cfg) (source target : LeaseVar) : World cfg :=
  if source = target then w
  else
    let w := w.resetLease target
    { w with
      leases := Function.update (Function.update w.leases target (w.leases source)) source none }

/-! ## resolve_into -/

/-- Phase A of `resolve_into`, from position `i` on: how many rows were pinned, and the
failure that stopped it. -/
def admitRows (answers : Answers) (out : LeaseVar) :
    ℕ → List UInt64 → World cfg → ℕ × Status × World cfg
  | i, [], w => (i, .ok, w)
  | i, row :: rows, w =>
      match w.table.findOrFetch answers row with
      | (.ok slot, t) =>
          admitRows answers out (i + 1) rows ({ w with table := t }.grant (out + i) slot row ⟨0, 0⟩)
      | (.error failure, t) => (i, failure, { w with table := t })

/-- Where phase B goes with the outcome of row `i`. -/
def afterRow (call : ResolveCall) (i : ℕ) (failure : Status) : ResolvePc cfg :=
  if failure = .ok then .drive (i + 1) else .unwind 0 call.rows.length failure

/-- The end of one turn of phase B: read the outcome of row `i`. -/
def settleRow (w : World cfg) (call : ResolveCall) (i : ℕ) (lease : Lease cfg) :
    ResolvePc cfg × World cfg :=
  let s := w.table.slots lease.slot
  if s.epoch ≠ lease.epoch then (afterRow call i .poolExhausted, w)
  else if s.state = .ready then
    (afterRow call i .ok,
      { w with
        leases := Function.update w.leases (call.out + i)
          (some { lease with bytes := w.table.publishedSpan lease.slot }) })
  else (afterRow call i s.failure, w)

/-- The outcome of a thread's step: its call, where it is now, and the state. -/
abbrev ResolveStep (cfg : TableConfig) := Option (ResolveCall × ResolvePc cfg × World cfg)

/-- One step of `resolve_into`. -/
def resolveStep (w : World cfg) (call : ResolveCall) (choice : Choice) :
    ResolvePc cfg → ResolveStep cfg
  | .releasing i =>
      if i < call.rows.length then
        some (call, .releasing (i + 1), w.resetLease (call.out + i))
      else if Table.anyOutOfRange cfg call.rows then
        some (call, .returned (.error .outOfRange), w)
      else some (call, .phaseA, w)
  | .phaseA =>
      let (pinned, failure, w') := admitRows choice.answers call.out 0 call.rows w
      let call' :=
        { call with
          generation := w.table.currentGeneration
          binding := w.table.currentBinding
          taken := List.range' w.granted pinned
          fetched := w'.table.fetchLog.take
            (w'.table.fetchLog.length - w.table.fetchLog.length) }
      if failure = .ok then some (call', .drive 0, w')
      else some (call', .unwind 0 pinned failure, w')
  | .unwind i count failure =>
      if i < count then some (call, .unwind (i + 1) count failure, w.resetLease (call.out + i))
      else some (call, .returned (.error failure), w)
  | .drive i =>
      if i < call.rows.length then
        match w.leases (call.out + i) with
        | none => none
        | some lease =>
            let s := w.table.slots lease.slot
            if s.epoch ≠ lease.epoch then some (call, afterRow call i .poolExhausted, w)
            else if s.state = .filling then
              if s.finishing then some (call, .asleep i w.table.notifications, w)
              else
                some (call, .finishing i lease.slot .enter,
                  { w with table := w.table.takeOver lease.slot })
            else some (call, w.settleRow call i lease)
      else some (call, .returned (.ok call.rows.length), w)
  | .finishing i slot pc =>
      match w.table.finishStep slot false choice pc with
      | none => none
      | some (some pc', t) => some (call, .finishing i slot pc', { w with table := t })
      | some (none, t) => some (call, .settle i, { w with table := t })
  | .settle i =>
      match w.leases (call.out + i) with
      | none => none
      | some lease => some (call, w.settleRow call i lease)
  | .asleep i since =>
      if since < w.table.notifications ∨ choice.spurious then
        match w.leases (call.out + i) with
        | none => none
        | some lease =>
            let s := w.table.slots lease.slot
            if s.epoch ≠ lease.epoch ∨ s.state ≠ .filling then
              some (call, w.settleRow call i lease)
            else some (call, .asleep i w.table.notifications, w)
      else none
  | .returned _ => none

/-! ## wait -/

/-- The outcome of a waiting thread's step. -/
abbrev WaitStep (cfg : TableConfig) := Option (WaitOutcome × WaitPc cfg × World cfg)

/-- The end of one turn of `wait`: tally what became of the entry. -/
def settleEntry (w : World cfg) (outcome : WaitOutcome) (i : ℕ) (slot : cfg.SlotId)
    (epoch : UInt32) : WaitOutcome × WaitPc cfg × World cfg :=
  let s := w.table.slots slot
  let outcome :=
    if s.epoch ≠ epoch then { outcome with evicted := outcome.evicted + 1 }
    else if s.state = .ready then { outcome with filled := outcome.filled + 1 }
    else if s.state = .filling then
      { outcome with pending := outcome.pending + 1, status := .timeout }
    else
      { outcome with
        failed := outcome.failed + 1
        status := if outcome.status = .ok then s.failure else outcome.status }
  (outcome, .entry (i + 1), w)

/-- One step of `wait`. -/
def waitStep (w : World cfg) (call : WaitCall cfg) (outcome : WaitOutcome) (choice : Choice) :
    WaitPc cfg → WaitStep cfg
  | .entry i =>
      if i < call.count then
        let entry := w.table.waiters call.record i
        match entry.slot with
        | none => some ({ outcome with evicted := outcome.evicted + 1 }, .entry (i + 1), w)
        | some slot =>
            let s := w.table.slots slot
            if s.epoch ≠ entry.epoch then
              some ({ outcome with evicted := outcome.evicted + 1 }, .entry (i + 1), w)
            else if s.state = .filling then
              if s.finishing then some (outcome, .asleep i w.table.notifications, w)
              else
                some (outcome, .finishing i slot .enter,
                  { w with table := w.table.takeOver slot })
            else some (w.settleEntry outcome i slot entry.epoch)
      else some (outcome, .returned, w)
  | .finishing i slot pc =>
      match w.table.finishStep slot call.deadline choice pc with
      | none => none
      | some (some pc', t) => some (outcome, .finishing i slot pc', { w with table := t })
      | some (none, t) => some (outcome, .settle i, { w with table := t })
  | .settle i =>
      let entry := w.table.waiters call.record i
      match entry.slot with
      | none => none
      | some slot => some (w.settleEntry outcome i slot entry.epoch)
  | .asleep i since =>
      let expired := call.deadline && choice.expired
      if since < w.table.notifications ∨ choice.spurious ∨ expired then
        let entry := w.table.waiters call.record i
        match entry.slot with
        | none => none
        | some slot =>
            let s := w.table.slots slot
            if s.epoch ≠ entry.epoch ∨ s.state ≠ .filling then
              some (w.settleEntry outcome i slot entry.epoch)
            else if expired then
              some ({ outcome with pending := outcome.pending + 1, status := .timeout },
                .entry (i + 1), w)
            else some (outcome, .asleep i w.table.notifications, w)
      else none
  | .returned => none

/-! ## drain and the worker -/

/-- One step of `drain`. -/
def drainStep (t : Table cfg) (deadline : Bool) (choice : Choice) : DrainPc → Option DrainPc
  | .start => if t.inFlight = 0 then some (.returned .ok) else some (.asleep t.notifications)
  | .asleep since =>
      let expired := deadline && choice.expired
      if since < t.notifications ∨ choice.spurious ∨ expired then
        if t.inFlight = 0 then some (.returned .ok)
        else if expired then some (.returned .timeout)
        else some (.asleep t.notifications)
      else none
  | .returned _ => none

/-- One step of `worker_loop`. -/
def workerStep (t : Table cfg) (choice : Choice) :
    WorkerPc cfg → Option (WorkerPc cfg × Table cfg)
  | .scan =>
      match t.findUnclaimedFilling with
      | some slot => some (.finishing slot .enter, t.takeOver slot)
      | none => some (.asleep t.notifications, t)
  | .finishing slot pc =>
      match t.finishStep slot false choice pc with
      | none => none
      | some (some pc', t) => some (.finishing slot pc', t)
      | some (none, t) => some (.scan, t)
  | .asleep since => if since < t.notifications ∨ choice.spurious then some (.scan, t) else none

/-! ## The step function -/

/-- Put a thread somewhere. -/
def setThread (w : World cfg) (thread : ThreadId) (pc : Pc cfg) : World cfg :=
  { w with threads := Function.update w.threads thread pc }

/-- Mark the variables of an `out` span as used by a call, or no longer. -/
def setInUse (w : World cfg) (out : LeaseVar) (count : ℕ) (used : Bool) : World cfg :=
  { w with inUse := fun v => if out ≤ v ∧ v < out + count then used else w.inUse v }

/-- Write a ticket variable. -/
def setTicket (w : World cfg) (v : TicketVar) (cell : TicketCell cfg) : World cfg :=
  { w with tickets := Function.update w.tickets v cell }

/-- `PrefetchTicket::reset`. -/
def resetTicket (w : World cfg) (v : TicketVar) : World cfg :=
  match (w.tickets v).ticket with
  | none => w
  | some ticket =>
      match w.table.discardTicket ticket with
      | none => { w with crashed := true }
      | some t => { w with table := t }.setTicket v { w.tickets v with ticket := none }

/-- A thread calls `resolve_into`.  No entry of `out` may be in use by another call. -/
def callResolve (w : World cfg) (thread : ThreadId) (rows : List UInt64) (out : LeaseVar)
    (outSize : ℕ) : Option (World cfg) :=
  match w.threads thread with
  | .idle =>
      if Table.batchStatus cfg rows ≠ .ok then
        some (w.setThread thread (.refused (Table.batchStatus cfg rows)))
      else if outSize < rows.length then
        some (w.setThread thread (.refused .invalidArgument))
      else if ∃ i < rows.length, w.inUse (out + i) then none
      else
        some ((w.setInUse out rows.length true).setThread thread
          (.resolving (.begin rows out w.table.currentBinding) (.releasing 0)))
  | _ => none

/-- A thread calls `wait`. -/
def callWait (w : World cfg) (thread : ThreadId) (v : TicketVar) (deadline : Bool) :
    Option (World cfg) :=
  match w.threads thread with
  | .idle =>
      match (w.tickets v).ticket with
      | none => some (w.setThread thread (.refused .invalidArgument))
      | some ticket =>
          some ((w.setTicket v { w.tickets v with users := (w.tickets v).users + 1 }).setThread
            thread (.waiting
              ⟨v, ticket.record, (w.table.tickets ticket.record).count, deadline⟩ {} (.entry 0)))
  | _ => none

/-- A thread calls `drain`. -/
def callDrain (w : World cfg) (thread : ThreadId) (deadline : Bool) : Option (World cfg) :=
  match w.threads thread with
  | .idle => some (w.setThread thread (.draining deadline .start))
  | _ => none

/-- A thread inside a call takes its next step. -/
def advance (w : World cfg) (thread : ThreadId) (choice : Choice) : Option (World cfg) :=
  match w.threads thread with
  | .resolving call pc =>
      (w.resolveStep call choice pc).map fun (call', pc', w') =>
        w'.setThread thread (.resolving call' pc')
  | .waiting call outcome pc =>
      (w.waitStep call outcome choice pc).map fun (outcome', pc', w') =>
        w'.setThread thread (.waiting call outcome' pc')
  | .draining deadline pc =>
      (drainStep w.table deadline choice pc).map fun pc' =>
        w.setThread thread (.draining deadline pc')
  | _ => none

/-- The caller takes the result of a finished call. -/
def leave (w : World cfg) (thread : ThreadId) : Option (World cfg) :=
  match w.threads thread with
  | .refused _ => some (w.setThread thread .idle)
  | .resolving call (.returned _) =>
      some ((w.setInUse call.out call.rows.length false).setThread thread .idle)
  | .waiting call _ .returned =>
      some ((w.setTicket call.ticket
        { w.tickets call.ticket with users := (w.tickets call.ticket).users - 1 }).setThread
          thread .idle)
  | .draining _ (.returned _) => some (w.setThread thread .idle)
  | _ => none

/-- `try_get`; the lease goes to an empty variable. -/
def tryGet (w : World cfg) (row : UInt64) (v : LeaseVar) : Option (World cfg) :=
  if w.inUse v ∨ w.leases v ≠ none then none
  else if cfg.rowCount ≤ row then some w
  else
    match w.table.findReady row with
    | (none, t) => some { w with table := t }
    | (some slot, t) => some ({ w with table := t }.grant v slot row (t.publishedSpan slot))

/-- `prefetch`; the ticket goes to an empty variable. -/
def prefetch (w : World cfg) (rows : List UInt64) (v : TicketVar) (answers : Answers) :
    Option (World cfg) :=
  if (w.tickets v).users ≠ 0 ∨ (w.tickets v).ticket.isSome then none
  else
    match w.table.prefetch answers rows with
    | (.error _, t) => some { w with table := t }
    | (.ok ticket, t) => some ({ w with table := t }.setTicket v { ticket := some ticket })

/-- `PrefetchTicket::operator=` with a moved-from source. -/
def moveTicket (w : World cfg) (source target : TicketVar) : World cfg :=
  if source = target then w
  else
    let w := w.resetTicket target
    (w.setTicket target { w.tickets target with ticket := (w.tickets source).ticket }).setTicket
      source { w.tickets source with ticket := none }

/-- What an action does while the process lives; `none` if it cannot happen. -/
def act (w : World cfg) : Action cfg → Option (World cfg)
  | .resolveInto thread rows out outSize => w.callResolve thread rows out outSize
  | .wait thread ticket deadline => w.callWait thread ticket deadline
  | .drain thread deadline => w.callDrain thread deadline
  | .advance thread choice => w.advance thread choice
  | .leave thread => w.leave thread
  | .work choice =>
      (workerStep w.table choice w.worker).map fun (pc, t) => { w with table := t, worker := pc }
  | .tryGet row lease => w.tryGet row lease
  | .reset lease => if w.inUse lease then none else some (w.resetLease lease)
  | .move source target =>
      if w.inUse source ∨ w.inUse target then none else some (w.moveLease source target)
  | .prefetch rows ticket answers => w.prefetch rows ticket answers
  | .dropTicket ticket => if (w.tickets ticket).users ≠ 0 then none else some (w.resetTicket ticket)
  | .moveTicket source target =>
      if (w.tickets source).users ≠ 0 ∨ (w.tickets target).users ≠ 0 then none
      else some (w.moveTicket source target)
  | .invalidate creation generation sources resolver =>
      some { w with table := (w.table.invalidate creation generation sources resolver).2 }
  | .deliver id status => some { w with table := w.table.deliver id status }

/-- One step of the machine.  Nothing happens after `std::terminate`. -/
def step (w : World cfg) (action : Action cfg) : Option (World cfg) :=
  if w.crashed then none else w.act action

end World

/-! ## A small table -/

/-- Row 0 is the first shard, every other row the second. -/
def twoShardsResolver : RowExtentResolver where
  resolve := fun row => .ok ⟨if row = 0 then 0 else 1, ⟨0, 2⟩⟩
  failure_ne_ok := fun row h => by cases h

/-- Two rows of two bytes, each in a shard of its own, read byte by byte into the one
slot there is. -/
def twoShards : TableConfig where
  rowCount := 2
  sourceRowBytes := 2
  fillChunkBytes := 1
  outputRowBytes := 2
  sources := [⟨0, 2⟩, ⟨1, 2⟩]
  resolveExtent := some twoShardsResolver
  outputStorage := ⟨0, 2⟩
  budgetRows := 1
  maxTickets := 2
  maxBatchRows := 2

theorem twoShards_accepted : twoShards.Accepted := by decide +kernel

end TieredCache
