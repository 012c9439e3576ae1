/-
# The life of a slot

The operations a critical section is made of: choosing a victim, freeing a slot,
admitting a row into a slot and submitting its reads, pinning and unpinning, and
publishing the end of a fill.  All of them run under the table's mutex.
-/

import TieredCache.Table.State

namespace TieredCache

/-- What the transport does at one submit: the deliveries it makes just before it,
on its own threads, and its answer.  `ok` accepts, anything else refuses. -/
structure Answer where
  deliveries : List (RequestId × MemStatus) := []
  status : MemStatus := .ok

/-- The answers to the submits, by number. -/
abbrev Answers := ℕ → Answer

namespace Table

variable {cfg : TableConfig}

/-! ## The index under the slots -/

/-- `index_insert` on the table. -/
def indexInsert (t : Table cfg) (key : RowKey) (slot : cfg.SlotId) :
    Fin (indexSize cfg.budgetRows) → Option cfg.SlotId :=
  (TieredCache.indexInsert (indexHome cfg) t.index key slot).getD t.index

/-- `index_erase` on the table. -/
def indexErase (t : Table cfg) (key : RowKey) :
    Fin (indexSize cfg.budgetRows) → Option cfg.SlotId :=
  (TieredCache.indexErase (indexHome cfg) t.keyOf t.index key).getD t.index

/-- The index once `unindex_locked` has removed the slot's entry, if it had one. -/
def unindexed (t : Table cfg) (slot : cfg.SlotId) :
    Fin (indexSize cfg.budgetRows) → Option cfg.SlotId :=
  if (t.slots slot).indexed then t.indexErase (t.keyOf slot) else t.index

/-! ## Victims -/

/-- `make_free`. -/
def makeFree (t : Table cfg) (slot : cfg.SlotId) : Table cfg :=
  let s := t.slots slot
  { t with
    index := t.unindexed slot
    nonFree := if s.state ≠ .free then t.nonFree - 1 else t.nonFree
    slots := Function.update t.slots slot
      { s with
        indexed := false
        state := .free
        referenced := false
        claim := none
        chunkClaims := []
        scratchSlot := none
        fillBinding := none } }

/-- The clock hand's next position. -/
def nextHand (slot : cfg.SlotId) : cfg.SlotId :=
  if h : slot.val + 1 < cfg.budgetRows.toNat then ⟨slot.val + 1, h⟩ else ⟨0, slot.pos⟩

/-- The sweep of `claim_victim`, for a number of steps. -/
def claimVictimLoop : ℕ → Table cfg → Option cfg.SlotId × Table cfg
  | 0, t => (none, t)
  | steps + 1, t =>
      let slot := t.clockHand
      let candidate := t.slots slot
      let t := { t with clockHand := nextHand slot }
      if candidate.state = .free then (some slot, t)
      else if candidate.pins ≠ 0 ∨ candidate.state = .filling then claimVictimLoop steps t
      else if candidate.state = .failed then (some slot, t.makeFree slot)
      else if candidate.referenced then
        claimVictimLoop steps (t.modify slot fun s => { s with referenced := false })
      else
        (some slot,
          { t with
            counters := { t.counters with evictions := t.counters.evictions + 1 } }.makeFree slot)

/-- `claim_victim`.  The number of steps, twice the budget, is a 32-bit product. -/
def claimVictim (t : Table cfg) : Option cfg.SlotId × Table cfg :=
  claimVictimLoop (2 * cfg.budgetRows).toNat t

/-! ## Submitting -/

/-- The transport delivers a request: it ends, and writes its destination no more. -/
def deliver (t : Table cfg) (id : RequestId) (status : MemStatus) : Table cfg :=
  if id < t.requestCount ∧ (t.requests id).Live ∧ status.Terminal then
    { t with
      requests := Function.update t.requests id
        { t.requests id with outcome := some status } }
  else t

/-- The transport delivers several requests. -/
def deliverAll (t : Table cfg) (deliveries : List (RequestId × MemStatus)) : Table cfg :=
  deliveries.foldl (fun t delivery => t.deliver delivery.1 delivery.2) t

/-- The transfer set of the request still has a live request over a destination
byte the request wants. -/
def Busy (t : Table cfg) (r : Request) : Prop :=
  ∃ id < t.requestCount,
    (t.requests id).Live ∧ (t.requests id).SameSet r ∧ (t.requests id).Overlaps r

instance (t : Table cfg) (r : Request) : Decidable (t.Busy r) :=
  inferInstanceAs (Decidable (∃ id < t.requestCount, _))

/-- The transport records an accepted request; its number is the claim. -/
def accept (t : Table cfg) (r : Request) : Table cfg :=
  { t with
    submits := t.submits + 1
    requests := Function.update t.requests t.requestCount r
    requestCount := t.requestCount + 1 }

/-- The transport refuses a request. -/
def refuse (t : Table cfg) : Table cfg := { t with submits := t.submits + 1 }

/-- `TransferSet::submit`.  The set refuses a request that overlaps a live one of
its own; otherwise the transport answers. -/
def submit (t : Table cfg) (answers : Answers) (r : Request) : MemStatus × Table cfg :=
  let answer := answers t.submits
  let t := t.deliverAll answer.deliveries
  if t.Busy r then (.busy, t.refuse)
  else if answer.status = .ok then (.ok, t.accept r)
  else (answer.status, t.refuse)

/-- The chunk claims gathered so far are dropped. -/
def dropChunks (t : Table cfg) (slot : cfg.SlotId) : Table cfg :=
  let s := t.slots slot
  { t with
    lostChunks :=
      if ∃ id ∈ s.chunkClaims, (t.requests id).Live then t.lostChunks + 1 else t.lostChunks
    slots := Function.update t.slots slot { s with chunkClaims := [] } }

/-- The chunk loop of `start_fill_locked`.  A refused chunk drops the claims of the
chunks accepted before it. -/
def submitChunks (answers : Answers) (slot : cfg.SlotId) (shard : ℕ) :
    List Read → Table cfg → MemStatus × Table cfg
  | [], t => (.ok, t)
  | read :: rest, t =>
      match t.submit answers ⟨t.currentBinding, shard, .output, read, none⟩ with
      | (.ok, t') =>
          submitChunks answers slot shard rest
            (t'.modify slot fun s => { s with chunkClaims := s.chunkClaims ++ [t.requestCount] })
      | (status, t') => (status, t'.dropChunks slot)

/-- `acquire_scratch`: the first scratch row not in use. -/
def acquireScratch (t : Table cfg) : Option cfg.ScratchId :=
  (List.finRange cfg.scratchRows.toNat).find? fun i => !t.scratchUsed i

/-- Mark a scratch row used or released. -/
def setScratch (t : Table cfg) (scratch : cfg.ScratchId) (used : Bool) : Table cfg :=
  { t with scratchUsed := Function.update t.scratchUsed scratch used }

/-- The submission part of `start_fill_locked`: chunked, plain or through scratch. -/
def submitFill (t : Table cfg) (answers : Answers) (slot : cfg.SlotId)
    (location : RowLocation) (shard : ShardSource) : Status × Table cfg :=
  let fill := (fillWindow cfg.fillAlignment shard.bytes location.range).fill
  if cfg.chunked then
    let (status, t) := submitChunks answers slot location.shard.toNat (cfg.chunkPlan slot fill) t
    (fromMempage status, t)
  else if !cfg.converting then
    match t.submit answers ⟨t.currentBinding, location.shard.toNat, .output,
        ⟨fill, cfg.slotBase slot⟩, none⟩ with
    | (.ok, t') => (.ok, t'.modify slot fun s => { s with claim := some t.requestCount })
    | (status, t') => (fromMempage status, t')
  else
    match t.acquireScratch with
    | none => (.poolExhausted, t)
    | some scratch =>
        match (t.setScratch scratch true).submit answers ⟨t.currentBinding,
            location.shard.toNat, .scratch, ⟨location.range, cfg.scratchBase scratch⟩, none⟩ with
        | (.ok, t') =>
            (.ok, t'.modify slot fun s =>
              { s with scratchSlot := some scratch, claim := some t.requestCount })
        | (status, t') => (fromMempage status, t'.setScratch scratch false)

/-! ## Admission -/

/-- The head of `start_fill_locked`: the slot takes the row's key, starts filling
and enters the index. -/
def beginAdmission (t : Table cfg) (slot : cfg.SlotId) (row : UInt64) : Table cfg :=
  let s := t.slots slot
  { t with
    slots := Function.update t.slots slot
      { s with
        rowIndex := row
        rowGeneration := t.currentGeneration
        epoch := s.epoch + 1
        state := .filling
        failure := .ok
        finishing := false
        scratchSlot := none
        fillBinding := some t.currentBinding
        filledThrough := t.currentBinding
        admission := t.admissions
        indexed := true }
    admissions := t.admissions + 1
    index := t.indexInsert (row, t.currentGeneration) slot
    nonFree := min cfg.budgetRows (t.nonFree + 1) }

/-- The `fail` exit of `start_fill_locked`. -/
def failFill (t : Table cfg) (slot : cfg.SlotId) (status : Status) : Table cfg :=
  let s := t.slots slot
  { t with
    index := t.unindexed slot
    slots := Function.update t.slots slot
      { s with
        state := .failed
        failure := status
        indexed := false
        fillBinding := none } }

/-- The tail of `start_fill_locked`, once every read is accepted. -/
def commitFill (t : Table cfg) (slot : cfg.SlotId) (length head : UInt64) : Table cfg :=
  let s := t.slots slot
  let binding := t.bindings t.currentBinding
  { t with
    slots := Function.update t.slots slot
      { s with
        publishedBytes := if cfg.converting then cfg.outputRowBytes else length
        publishedOffset := head }
    inFlight := t.inFlight + 1
    bindings := Function.update t.bindings t.currentBinding
      { binding with inFlight := binding.inFlight + 1 }
    counters := { t.counters with fetches := t.counters.fetches + 1 }
    fetchLog := s.key :: t.fetchLog
    notifications := t.notifications + 1 }

/-- `start_fill_locked`: admit a row into a free slot and submit its reads. -/
def startFillLocked (t : Table cfg) (answers : Answers) (slot : cfg.SlotId) (row : UInt64) :
    Status × Table cfg :=
  let binding := t.bindings t.currentBinding
  let t := t.beginAdmission slot row
  match cfg.locate binding.sources binding.resolver row with
  | .error status => (status, t.failFill slot status)
  | .ok (location, shard) =>
      let window := fillWindow cfg.fillAlignment shard.bytes location.range
      match t.submitFill answers slot location shard with
      | (.ok, t) => (.ok, t.commitFill slot location.range.length window.head)
      | (status, t) => (status, t.failFill slot status)

/-! ## Pins -/

/-- What every request that finds or admits a row does to its slot. -/
def pin (t : Table cfg) (slot : cfg.SlotId) : Table cfg :=
  let s := t.slots slot
  { t with
    slots := Function.update t.slots slot { s with pins := s.pins + 1, referenced := true }
    pinsTotal := t.pinsTotal + 1 }

/-- `unpin_locked`. -/
def unpinLocked (t : Table cfg) (slot : cfg.SlotId) : Table cfg :=
  let s := t.slots slot
  { t with
    pinsTotal := t.pinsTotal - 1
    slots := Function.update t.slots slot { s with pins := s.pins - 1 } }

/-- `release_lease`; `none` is its call of `std::terminate`. -/
def releaseLease (t : Table cfg) (slot : cfg.SlotId) (epoch : UInt32) : Option (Table cfg) :=
  if (t.slots slot).epoch ≠ epoch ∨ (t.slots slot).pins = 0 then none
  else some (t.unpinLocked slot)

/-! ## The end of a fill -/

/-- A thread takes over a fill. -/
def takeOver (t : Table cfg) (slot : cfg.SlotId) : Table cfg :=
  t.modify slot fun s => { s with finishing := true }

/-- The section of `finish_fill` that a passed deadline leads to. -/
def relinquish (t : Table cfg) (slot : cfg.SlotId) : Table cfg :=
  (t.modify slot fun s => { s with finishing := false }).notifyAll

/-- The bindings once a fill of `binding` has ended. -/
def releasedBinding (t : Table cfg) (binding : Option BindingId) : BindingId → Binding :=
  match binding with
  | none => t.bindings
  | some b =>
      Function.update t.bindings b
        { t.bindings b with inFlight := (t.bindings b).inFlight - 1 }

/-- The last section of `finish_fill`: drop the claims, return the scratch row,
leave the counts and publish the slot as ready or failed. -/
def publish (t : Table cfg) (slot : cfg.SlotId) (result : Status) : Table cfg :=
  let s := t.slots slot
  { t with
    scratchUsed :=
      match s.scratchSlot with
      | some scratch =>
          if cfg.converting then Function.update t.scratchUsed scratch false
          else t.scratchUsed
      | none => t.scratchUsed
    inFlight := t.inFlight - 1
    bindings := t.releasedBinding s.fillBinding
    index := if result = .ok then t.index else t.unindexed slot
    counters :=
      if result = .ok then
        if cfg.converting then
          { t.counters with conversions := t.counters.conversions + 1 }
        else t.counters
      else
        { t.counters with
          failed := t.counters.failed + 1
          codecFailures :=
            if result = .codecFailed then t.counters.codecFailures + 1
            else t.counters.codecFailures }
    slots := Function.update t.slots slot
      { s with
        claim := none
        chunkClaims := []
        scratchSlot := if cfg.converting then none else s.scratchSlot
        fillBinding := none
        state := if result = .ok then .ready else .failed
        failure := if result = .ok then s.failure else result
        indexed := if result = .ok then s.indexed else false
        finishing := false }
    notifications := t.notifications + 1 }

end Table

end TieredCache
