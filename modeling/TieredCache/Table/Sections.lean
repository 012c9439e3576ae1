/-
# The critical sections of the public operations

What each public operation does while it holds the table's mutex, as a function of
the table.  Operations that let go of the mutex in between, and the leases and
tickets they hand out, are put together in `Table.Machine`.
-/

import TieredCache.Table.Lifecycle

namespace TieredCache

/-- What a prefetch ticket names. -/
structure Ticket (cfg : TableConfig) where
  record : cfg.RecordId
  generation : UInt32
  deriving DecidableEq

namespace TableConfig

variable {cfg : TableConfig}

/-- An accepted table has a slot. -/
theorem Accepted.budget_pos (h : cfg.Accepted) : 0 < cfg.budgetRows.toNat :=
  Nat.pos_of_ne_zero fun hzero => h.checked.budgetRows_ne (UInt32.toNat_inj.mp hzero)

end TableConfig

namespace Table

variable {cfg : TableConfig}

/-! ## Registration -/

/-- The table `create` builds from accepted parameters, with its initial binding. -/
def create (cfg : TableConfig) (h : cfg.Accepted) : Table cfg where
  bindings := fun _ => ⟨cfg.sources, cfg.resolveExtent.get h.checked.resolver, 0⟩
  bindingCount := 1
  currentBinding := 0
  retiringBinding := none
  slots := fun _ => {}
  index := fun _ => none
  tickets := fun _ => {}
  waiters := fun _ _ => {}
  clockHand := ⟨0, h.budget_pos⟩
  currentGeneration := cfg.generation
  pinsTotal := 0
  ticketsHeld := 0
  inFlight := 0
  nonFree := 0
  counters := {}
  scratchUsed := fun _ => false
  requests := fun _ => ⟨0, 0, .output, ⟨⟨0, 0⟩, 0⟩, some .ok⟩
  requestCount := 0
  submits := 0
  admissions := 0
  fetchLog := []
  lostChunks := 0
  notifications := 0

/-! ## Counters -/

/-- `++counters_.hits`. -/
def countHit (t : Table cfg) : Table cfg :=
  { t with counters := { t.counters with hits := t.counters.hits + 1 } }

/-- `++counters_.misses`. -/
def countMiss (t : Table cfg) : Table cfg :=
  { t with counters := { t.counters with misses := t.counters.misses + 1 } }

/-- `++counters_.coalesced`. -/
def countCoalesced (t : Table cfg) : Table cfg :=
  { t with counters := { t.counters with coalesced := t.counters.coalesced + 1 } }

/-- The bytes a lease on a ready slot exposes, as a range of the output storage. -/
def publishedSpan (t : Table cfg) (slot : cfg.SlotId) : ByteRange :=
  ⟨cfg.slotBase slot + (t.slots slot).publishedOffset, (t.slots slot).publishedBytes⟩

/-! ## Admission of one row -/

/-- What phase A of `resolve_into` does for one row before it pins: find the row, or
claim a victim and start a fill in it. -/
def findOrFetch (t : Table cfg) (answers : Answers) (row : UInt64) :
    Except Status cfg.SlotId × Table cfg :=
  match t.indexFind (row, t.currentGeneration) with
  | some slot =>
      (.ok slot,
        match (t.slots slot).state with
        | .filling => t.countCoalesced
        | .ready => t.countHit
        | _ => t)
  | none =>
      match t.claimVictim with
      | (none, t) => (.error .poolExhausted, t)
      | (some slot, t) =>
          match t.startFillLocked answers slot row with
          | (.ok, t) => (.ok slot, t)
          | (status, t) => (.error status, t)

/-- The lookup of `try_get`: a hit only if the row is ready. -/
def findReady (t : Table cfg) (row : UInt64) : Option cfg.SlotId × Table cfg :=
  match t.indexFind (row, t.currentGeneration) with
  | none => (none, t.countMiss)
  | some slot =>
      if (t.slots slot).state ≠ .ready then (none, t.countMiss) else (some slot, t.countHit)

/-! ## Prefetch -/

/-- Write one entry of the waiter table. -/
def setWaiter (t : Table cfg) (record : cfg.RecordId) (i : ℕ) (entry : WaiterEntry cfg) :
    Table cfg :=
  { t with
    waiters := Function.update t.waiters record (Function.update (t.waiters record) i entry) }

/-- Record the slot a row was admitted in. -/
def noteWaiter (t : Table cfg) (record : cfg.RecordId) (i : ℕ) (slot : cfg.SlotId) :
    Table cfg :=
  t.setWaiter record i ⟨some slot, (t.slots slot).epoch, (t.slots slot).admission⟩

/-- The loop body of `prefetch`.  A fill that does not start is recorded on its slot
alone. -/
def prefetchRow (t : Table cfg) (answers : Answers) (record : cfg.RecordId) (i : ℕ)
    (row : UInt64) : Table cfg :=
  match t.indexFind (row, t.currentGeneration) with
  | none =>
      match t.claimVictim with
      | (none, t) => t.setWaiter record i {}
      | (some slot, t) => (t.startFillLocked answers slot row).2.noteWaiter record i slot
  | some slot =>
      (match (t.slots slot).state with
        | .ready => t.countHit
        | _ => t.countCoalesced).noteWaiter record i slot

/-- The loop of `prefetch`, from position `i` of the batch. -/
def prefetchRows (answers : Answers) (record : cfg.RecordId) :
    ℕ → List UInt64 → Table cfg → Table cfg
  | _, [], t => t
  | i, row :: rows, t =>
      prefetchRows answers record (i + 1) rows (t.prefetchRow answers record i row)

/-- The first ticket record not in use. -/
def freeRecord (t : Table cfg) : Option cfg.RecordId :=
  (List.finRange cfg.maxTickets.toNat).find? fun record => !(t.tickets record).inUse

/-- Take a ticket record for a batch. -/
def openRecord (t : Table cfg) (record : cfg.RecordId) (count : ℕ) : Table cfg :=
  { t with
    tickets := Function.update t.tickets record
      ⟨(t.tickets record).generation + 1, count, true, true⟩
    ticketsHeld := t.ticketsHeld + 1 }

/-- The checks `prefetch` and `resolve_into` make on the size of a batch. -/
def batchStatus (cfg : TableConfig) (rows : List UInt64) : Status :=
  if rows = [] then .emptyRange
  else if cfg.maxBatchRows.toNat < rows.length then .batchTooLarge
  else .ok

/-- Whether a row of the batch is not addressable. -/
def anyOutOfRange (cfg : TableConfig) (rows : List UInt64) : Bool :=
  rows.any fun row => cfg.rowCount ≤ row

/-- `prefetch`. -/
def prefetch (t : Table cfg) (answers : Answers) (rows : List UInt64) :
    Except Status (Ticket cfg) × Table cfg :=
  if batchStatus cfg rows ≠ .ok then (.error (batchStatus cfg rows), t)
  else if anyOutOfRange cfg rows then (.error .outOfRange, t)
  else
    match t.freeRecord with
    | none => (.error .ticketExhausted, t)
    | some record =>
        let t := prefetchRows answers record 0 rows (t.openRecord record rows.length)
        (.ok ⟨record, (t.tickets record).generation⟩, t)

/-- `discard_ticket`; `none` is its call of `std::terminate`. -/
def discardTicket (t : Table cfg) (ticket : Ticket cfg) : Option (Table cfg) :=
  let record := t.tickets ticket.record
  if record.generation ≠ ticket.generation ∨ !record.held then none
  else some
    { t with
      tickets := Function.update t.tickets ticket.record
        { record with held := false, inUse := false }
      ticketsHeld := t.ticketsHeld - 1 }

/-! ## Generation change -/

/-- Discard the retiring binding. -/
def dropRetiring (t : Table cfg) : Table cfg := { t with retiringBinding := none }

/-- Install a new binding; the current one retires. -/
def installBinding (t : Table cfg) (generation : UInt64) (sources : List ShardSource)
    (resolver : RowExtentResolver) : Table cfg :=
  { t with
    bindings := Function.update t.bindings t.bindingCount ⟨sources, resolver, 0⟩
    bindingCount := t.bindingCount + 1
    currentBinding := t.bindingCount
    retiringBinding := some t.currentBinding
    currentGeneration := generation }

/-- A retiring binding still has fills in flight. -/
def RetiringBusy (t : Table cfg) : Prop :=
  ∃ b ∈ t.retiringBinding, (t.bindings b).inFlight ≠ 0

instance (t : Table cfg) : Decidable t.RetiringBusy :=
  match h : t.retiringBinding with
  | none => isFalse fun ⟨b, hb, _⟩ => by rw [h] at hb; cases hb
  | some b =>
      if hb : (t.bindings b).inFlight ≠ 0 then isTrue ⟨b, h, hb⟩
      else isFalse fun ⟨b', hb', hne⟩ => by rw [h] at hb'; cases hb'; exact hb hne

/-- `invalidate`.  `creation` is the first refusal among the transfer sets the new
binding creates, or `ok`. -/
def invalidate (t : Table cfg) (creation : MemStatus) (generation : UInt64)
    (sources : List ShardSource) (resolver : Option RowExtentResolver) :
    Status × Table cfg :=
  if sources = [] then (.invalidArgument, t)
  else if sources.any (·.bytes == 0) then (.invalidArgument, t)
  else if t.RetiringBusy then (.busy, t)
  else if creation ≠ .ok then (fromMempage creation, t.dropRetiring)
  else
    (.ok, t.dropRetiring.installBinding generation sources
      (resolver.getD (t.bindings t.currentBinding).resolver))

/-! ## The completion worker and the statistics -/

/-- `find_unclaimed_filling_locked`. -/
def findUnclaimedFilling (t : Table cfg) : Option cfg.SlotId :=
  (List.finRange cfg.budgetRows.toNat).find? fun slot =>
    (t.slots slot).state = .filling ∧ (t.slots slot).finishing = false

/-- The number of slots that `stats` reports as resident. -/
def resident (t : Table cfg) : ℕ :=
  (List.finRange cfg.budgetRows.toNat).countP fun slot => (t.slots slot).state = .ready

/-- The number of slots that `stats` reports as leased. -/
def leased (t : Table cfg) : ℕ :=
  (List.finRange cfg.budgetRows.toNat).countP fun slot => (t.slots slot).pins ≠ 0

end Table

end TieredCache
