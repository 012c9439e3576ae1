/-
# The state of one table

Everything the table's mutex guards: slots, row index, bindings, tickets and
counters, together with the requests the page transport has accepted for the
table.  Heap objects are named by number: a binding by the order of its
construction, a claim by the request it stands for.  Fields marked as ghosts are
read by no function of the model; they only record what a statement is about.
-/

import TieredCache.Table.FillPlan
import TieredCache.Table.RowIndex

namespace TieredCache

/-- A binding, named by the order in which bindings are built. -/
abbrev BindingId := ℕ

/-- A transport request, named by the order in which requests are accepted; a
claim is the number of its request. -/
abbrev RequestId := ℕ

/-- Slot states. -/
inductive SlotState
  | free
  | filling
  | ready
  | failed
  deriving DecidableEq, Repr

/-- One immutable-source binding. -/
structure Binding where
  sources : List ShardSource
  resolver : RowExtentResolver
  inFlight : UInt32 := 0

/-- Where a binding reads rows from. -/
def Binding.origin (b : Binding) : List ShardSource × RowExtentResolver := (b.sources, b.resolver)

/-- One transport request.  Binding, shard and region name its transfer set: every
binding has a row transfer and, if converting, a scratch transfer per shard.  A
request with no outcome has been accepted and is still awaiting its delivery. -/
structure Request where
  binding : BindingId
  shard : ℕ
  region : Region
  read : Read
  outcome : Option MemStatus := none
  deriving DecidableEq, Repr

namespace Request

/-- The request may still write its destination. -/
def Live (r : Request) : Prop := r.outcome = none

instance (r : Request) : Decidable r.Live := inferInstanceAs (Decidable (_ = _))

/-- Byte `i` of its region is one the request writes. -/
def Targets (r : Request) (i : ℕ) : Prop :=
  r.read.destination.toNat ≤ i ∧ i < r.read.destination.toNat + r.read.source.length.toNat

instance (r : Request) (i : ℕ) : Decidable (r.Targets i) :=
  inferInstanceAs (Decidable (_ ∧ _))

/-- The two requests went through one transfer set. -/
def SameSet (r r' : Request) : Prop :=
  r.binding = r'.binding ∧ r.shard = r'.shard ∧ r.region = r'.region

instance (r r' : Request) : Decidable (r.SameSet r') :=
  inferInstanceAs (Decidable (_ ∧ _ ∧ _))

/-- The destinations of the two requests share a byte. -/
def Overlaps (r r' : Request) : Prop :=
  max r.read.destination.toNat r'.read.destination.toNat <
    min (r.read.destination.toNat + r.read.source.length.toNat)
      (r'.read.destination.toNat + r'.read.source.length.toNat)

instance (r r' : Request) : Decidable (r.Overlaps r') :=
  inferInstanceAs (Decidable (_ < _))

end Request

/-- One resident-row slot. -/
structure Slot (cfg : TableConfig) where
  rowIndex : UInt64 := 0
  rowGeneration : UInt64 := 0
  epoch : UInt32 := 0
  pins : UInt32 := 0
  state : SlotState := .free
  failure : Status := .ok
  referenced : Bool := false
  finishing : Bool := false
  indexed : Bool := false
  fillBinding : Option BindingId := none
  claim : Option RequestId := none
  scratchSlot : Option cfg.ScratchId := none
  /-- The chunk claims in use for the current fill.  The code writes them without a check into an
  array of `chunks_per_row_` entries: the list is that array where no fill has more chunks. -/
  chunkClaims : List RequestId := []
  publishedBytes : UInt64 := 0
  publishedOffset : UInt64 := 0
  /-- Ghost: the binding the slot was last filled through. -/
  filledThrough : BindingId := 0
  /-- Ghost: the number of the slot's last admission. -/
  admission : ℕ := 0
  deriving DecidableEq

namespace Slot

variable {cfg : TableConfig}

/-- The key the slot is indexed under. -/
def key (s : Slot cfg) : RowKey := (s.rowIndex, s.rowGeneration)

/-- Every claim the slot currently holds. -/
def claims (s : Slot cfg) : List RequestId := s.claim.toList ++ s.chunkClaims

/-- A row is resident or on its way. -/
def Occupied (s : Slot cfg) : Prop := s.state = .filling ∨ s.state = .ready

instance (s : Slot cfg) : Decidable s.Occupied := inferInstanceAs (Decidable (_ ∨ _))

end Slot

/-- A prefetch batch's record. -/
structure TicketRecord where
  generation : UInt32 := 0
  count : ℕ := 0
  held : Bool := false
  inUse : Bool := false
  deriving DecidableEq, Repr

/-- Where one row of a prefetch batch was admitted. -/
structure WaiterEntry (cfg : TableConfig) where
  slot : Option cfg.SlotId := none
  epoch : UInt32 := 0
  /-- Ghost: the admission the entry was recorded under. -/
  admission : ℕ := 0
  deriving DecidableEq

/-- The counters the table keeps; `resident` and `leased` are computed on demand. -/
structure TableStats where
  hits : UInt64 := 0
  misses : UInt64 := 0
  fetches : UInt64 := 0
  coalesced : UInt64 := 0
  conversions : UInt64 := 0
  codecFailures : UInt64 := 0
  evictions : UInt64 := 0
  failed : UInt64 := 0
  deriving DecidableEq, Repr

/-- The state the table's mutex guards. -/
structure Table (cfg : TableConfig) where
  bindings : BindingId → Binding
  /-- Ghost: how many bindings have been built. -/
  bindingCount : ℕ
  currentBinding : BindingId
  retiringBinding : Option BindingId
  slots : cfg.SlotId → Slot cfg
  index : Fin (indexSize cfg.budgetRows) → Option cfg.SlotId
  tickets : cfg.RecordId → TicketRecord
  /-- The waiter table, by record and position in the batch. -/
  waiters : cfg.RecordId → ℕ → WaiterEntry cfg
  clockHand : cfg.SlotId
  currentGeneration : UInt64
  pinsTotal : UInt32
  ticketsHeld : UInt32
  inFlight : UInt32
  nonFree : UInt32
  counters : TableStats
  scratchUsed : cfg.ScratchId → Bool
  /-- The transport's side: the requests accepted so far. -/
  requests : RequestId → Request
  requestCount : ℕ
  /-- Ghost: how many requests have been submitted, accepted or not. -/
  submits : ℕ
  /-- Ghost: how many admissions have begun. -/
  admissions : ℕ
  /-- Ghost: the keys of all fetches that were started, latest first. -/
  fetchLog : List RowKey
  /-- Ghost: how often a refused chunk dropped the claim of a live chunk. -/
  lostChunks : ℕ
  /-- How often `progress_.notify_all` has been called; a thread that fell asleep
  at an earlier count has a pending notification. -/
  notifications : ℕ

namespace Table

variable {cfg : TableConfig}

/-! ## Lookup and small updates -/

/-- The shift that turns a 64-bit hash into a cell of the index. -/
def indexShift (cfg : TableConfig) : ℕ := 64 - Nat.log2 (indexSize cfg.budgetRows)

/-- The mixed hash of a row key. -/
def rowHash (key : RowKey) : UInt64 :=
  let h := key.1 + 0x9E3779B97F4A7C15
  let h := (h ^^^ (h >>> 30)) * 0xBF58476D1CE4E5B9
  let h := h ^^^ (key.2 + 0x9E3779B97F4A7C15)
  let h := (h ^^^ (h >>> 27)) * 0x94D049BB133111EB
  h ^^^ (h >>> 31)

theorem rowHash_shift_lt (cfg : TableConfig) (key : RowKey) :
    (rowHash key).toNat >>> indexShift cfg < indexSize cfg.budgetRows := by
  obtain ⟨k, hk, hsize⟩ := indexSize_eq_two_pow cfg.budgetRows
  have hlt := (rowHash key).toNat_lt
  unfold indexShift
  rw [hsize, Nat.log2_two_pow, Nat.shiftRight_eq_div_pow,
    Nat.div_lt_iff_lt_mul (Nat.two_pow_pos _), ← Nat.pow_add, Nat.add_sub_cancel' hk]
  exact hlt

/-- `index_home`. -/
def indexHome (cfg : TableConfig) (key : RowKey) : Fin (indexSize cfg.budgetRows) :=
  ⟨(rowHash key).toNat >>> indexShift cfg, rowHash_shift_lt cfg key⟩

/-- The key fields of the slots. -/
def keyOf (t : Table cfg) (slot : cfg.SlotId) : RowKey := (t.slots slot).key

/-- `index_find` on the table.  On the well-formed index of every reachable table
the loop ends, so the inner answer is the one that counts. -/
def indexFind (t : Table cfg) (key : RowKey) : Option cfg.SlotId :=
  (TieredCache.indexFind (indexHome cfg) t.keyOf t.index key).join

/-- Apply a change to one slot. -/
def modify (t : Table cfg) (slot : cfg.SlotId) (f : Slot cfg → Slot cfg) : Table cfg :=
  { t with slots := Function.update t.slots slot (f (t.slots slot)) }

/-- `progress_.notify_all()`. -/
def notifyAll (t : Table cfg) : Table cfg := { t with notifications := t.notifications + 1 }

end Table

end TieredCache
