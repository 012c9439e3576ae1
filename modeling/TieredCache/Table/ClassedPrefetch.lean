/-
# Prefetching several classes

`prefetch` asks one class after the other and drops each ticket at once.  It has one caller at a
time, so a class table always has a record for it: it fails for a row that is not addressable, and
before it has started anything, or not at all, and it never holds a ticket when it returns.
-/

import TieredCache.Table.ClassedRows
import TieredCache.Table.SoleTickets

namespace TieredCache

open Math.Families Math.Runs

/-! ## The batches of the classes -/

namespace SizeClassedTable

variable {t : SizeClassedTable} {resolver : RowExtentResolver}

/-- Every row of the batch is addressable. -/
def Addressable (t : SizeClassedTable) (rows : List UInt64) : Prop :=
  ∀ row ∈ rows, row < t.config.rowCount

theorem addressable_of_any {rows : List UInt64}
    (h : ¬ (rows.any fun row => t.config.rowCount ≤ row) = true) : t.Addressable rows := by
  intro row hrow
  rw [Bool.not_eq_true, List.any_eq_false] at h
  exact UInt64.not_le.mp fun hout => h row hrow (decide_eq_true hout)

theorem not_addressable_of_any {rows : List UInt64}
    (h : (rows.any fun row => t.config.rowCount ≤ row) = true) : ¬ t.Addressable rows := by
  obtain ⟨row, hrow, hout⟩ := List.any_eq_true.mp h
  exact fun hin => UInt64.not_le.mpr (hin row hrow) (of_decide_eq_true hout)

/-- A row of a class has a number that the class's table can address. -/
theorem Partitions.localRow_lt (hparts : t.Partitions resolver) {row : UInt64} {c : t.ClassId}
    (hrow : row < t.config.rowCount) (hroute : t.routeOf row = some c) :
    t.localRow row < (t.classConfig c).rowCount := by
  obtain ⟨c', l, table, routed, hc, hl, htable, hlt, -⟩ := hparts.routes row hrow
  rw [routeOf_eq_some hroute] at hc
  cases hc
  obtain ⟨hclass, hget⟩ := List.getElem?_eq_some_iff.mp htable
  have hconfig : t.classConfig c = table.config := congrArg ClassTable.config hget
  rw [hconfig, localRow, List.getD_eq_getElem?_getD, hl]
  exact hlt

/-- A table with rows has a class. -/
theorem Partitions.tables_pos (hparts : t.Partitions resolver) (hrow : 0 < t.config.rowCount) :
    0 < t.tables.length := by
  obtain ⟨c, -⟩ := hparts.routed hrow
  exact c.pos

/-- What a batch asks of one class is a valid batch of its table. -/
theorem Partitions.validBatch (hparts : t.Partitions resolver) {rows : List UInt64}
    (hlength : rows.length ≤ t.config.maxBatchRows.toNat) (hrows : t.Addressable rows)
    {c : t.ClassId} (hne : t.scratchRows rows c ≠ []) :
    Table.ValidBatch (t.classConfig c) (t.scratchRows rows c) := by
  obtain ⟨cls, group, slice, -, hconfig, -⟩ := hparts.classConfig c
  have hmax : (t.classConfig c).maxBatchRows = t.config.maxBatchRows := by
    rw [hconfig]
    rfl
  have hshort : (t.scratchRows rows c).length ≤ t.config.maxBatchRows.toNat := by
    rw [scratchRows, List.length_map]
    exact (List.length_filter_le _ _).trans hlength
  constructor
  · unfold Table.batchStatus
    rw [if_neg hne, hmax, if_neg (Nat.not_lt.mpr hshort)]
  · rw [Table.anyOutOfRange, List.any_eq_false]
    intro number hnumber hout
    obtain ⟨row, hrow, rfl⟩ := List.mem_map.mp hnumber
    obtain ⟨hmem, hroute⟩ := List.mem_filter.mp hrow
    exact UInt64.not_le.mpr (hparts.localRow_lt (hrows row hmem) (of_decide_eq_true hroute))
      (of_decide_eq_true hout)

end SizeClassedTable

/-! ## Calls of prefetch -/

/-- The action waits on a ticket, or handles one. -/
def Action.UsesTickets {cfg : TableConfig} : Action cfg → Prop
  | .wait _ _ _ => True
  | .prefetch _ _ _ => True
  | .dropTicket _ => True
  | .moveTicket _ _ => True
  | _ => False

theorem Action.not_handles {cfg : TableConfig} {action : Action cfg} (h : ¬ action.UsesTickets) :
    ¬ action.HandlesTickets := by
  cases action with
  | wait thread v deadline => exact id
  | _ => exact h

namespace ClassedWorld

variable {t : SizeClassedTable} {resolver : RowExtentResolver} {w w' : ClassedWorld t}
  {thread : ThreadId} {rows : List UInt64} {pc pc' : ClassedPrefetchPc t} {choice : Choice}
  {action : ClassedAction t} {moves : ClassMoves t} {clients : ClassedClients t}

/-- What a step does to calls of `prefetch` and to tickets. -/
inductive PrefetchKind (w : ClassedWorld t) : ClassedAction t → ClassMoves t → ClassedClients t → Prop
  | apart {action : ClassedAction t} {moves : ClassMoves t} {clients : ClassedClients t}
      (hmoves : ∀ c, ∀ a ∈ moves c, ¬ a.UsesTickets)
      (hcalls : ∀ k rows pc, clients.threads k = .prefetching rows pc ↔
        w.threads k = .prefetching rows pc)
      (hprefetcher : clients.prefetcher = w.prefetcher) : PrefetchKind w action moves clients
  | begins {thread : ThreadId} {rows : List UInt64} (hsole : w.prefetcher = none)
      (hlength : rows.length ≤ t.config.maxBatchRows.toNat) :
      PrefetchKind w (.prefetch thread rows) still
        { w.setThread thread (.prefetching rows (.table 0)) with prefetcher := some thread }
  | goesOn {thread : ThreadId} {choice : Choice} {rows : List UInt64} {pc pc' : ClassedPrefetchPc t}
      {moves : ClassMoves t} (hpc : w.threads thread = .prefetching rows pc)
      (hprefetch : w.prefetchStep thread rows choice pc = some (moves, pc')) :
      PrefetchKind w (.advance thread choice) moves (w.setThread thread (.prefetching rows pc'))
  | leaves {thread : ThreadId} {rows : List UInt64} {result : Status}
      (hpc : w.threads thread = .prefetching rows (.returned result)) :
      PrefetchKind w (.leave thread) still { w.setThread thread .idle with prefetcher := none }

theorem resolveStep_tickets {call : ClassedCall} {pc pc' : ClassedResolvePc t}
    (h : w.resolveStep thread call choice pc = some (moves, pc')) (c : t.ClassId) :
    ∀ a ∈ moves c, ¬ a.UsesTickets := by
  let apart : ∀ c, Action (t.classConfig c) → Prop := fun _ a => ¬ a.UsesTickets
  cases pc with
  | row i =>
      unfold resolveStep at h
      dsimp only at h
      split at h
      · cases h
        exact fun a ha => by cases ha
      · split_ifs at h
        · cases h
          exact fun a ha => by cases ha
        · obtain ⟨d, -, hmove⟩ := Option.map_eq_some_iff.mp h
          cases hmove
          exact forall_only (P := apart) (by exact id) c
  | inside i d =>
      unfold resolveStep at h
      dsimp only at h
      split at h <;> cases h
      · exact forall_only (P := apart) (by exact id) c
      · exact forall_only (P := apart) (by exact id) c
      · exact forall_only (P := apart) (by exact id) c
      · intro a ha
        by_cases hcd : c = d
        · subst hcd
          rw [Function.update_self] at ha
          cases ha
          exact id
        · rw [Function.update_of_ne hcd] at ha
          cases ha
          exact id
      · exact forall_only (P := apart) (by exact id) c
  | unwind j i failure =>
      unfold resolveStep at h
      dsimp only at h
      split_ifs at h <;> cases h
      · intro a ha
        cases ha
        exact id
      · exact fun a ha => by cases ha
  | returned result => cases h

theorem drainStep_tickets {deadline : Bool} {pc pc' : ClassedDrainPc t}
    (h : w.drainStep thread deadline choice pc = some (moves, pc')) (c : t.ClassId) :
    ∀ a ∈ moves c, ¬ a.UsesTickets := by
  let apart : ∀ c, Action (t.classConfig c) → Prop := fun _ a => ¬ a.UsesTickets
  cases pc with
  | table d =>
      unfold drainStep at h
      dsimp only at h
      split_ifs at h <;> cases h
      · exact forall_only (P := apart) (by exact id) c
      · exact fun a ha => by cases ha
  | inside d =>
      unfold drainStep at h
      dsimp only at h
      split at h <;> cases h <;> exact forall_only (P := apart) (by exact id) c
  | returned result => cases h

theorem prefetchStep_waits (h : w.prefetchStep thread rows choice pc = some (moves, pc'))
    (c : t.ClassId) : ∀ a ∈ moves c, ∀ k v deadline, a ≠ .wait k v deadline := by
  let apart : ∀ c, Action (t.classConfig c) → Prop := fun _ a =>
    ∀ k v deadline, a ≠ .wait k v deadline
  cases pc with
  | table d =>
      unfold prefetchStep at h
      dsimp only at h
      split_ifs at h
      · cases h
        exact fun a ha => by cases ha
      · cases h
        exact fun a ha => by cases ha
      · split at h <;> cases h <;>
          exact forall_only (P := apart) (fun _ _ _ hwait => by cases hwait) c
      · cases h
        exact fun a ha => by cases ha
  | dropping d =>
      cases h
      exact forall_only (P := apart) (fun _ _ _ hwait => by cases hwait) c
  | returned result => cases h

/-- A thread outside `prefetch` stays outside. -/
theorem prefetches_update {next : ClassedPc t}
    (hbefore : ∀ rows pc, w.threads thread ≠ .prefetching rows pc)
    (hafter : ∀ rows pc, next ≠ .prefetching rows pc) (k : ThreadId) (rows : List UInt64)
    (pc : ClassedPrefetchPc t) :
    Function.update w.threads thread next k = .prefetching rows pc ↔
      w.threads k = .prefetching rows pc := by
  by_cases hk : k = thread
  · rw [hk, Function.update_self]
    exact iff_of_false (hafter rows pc) (hbefore rows pc)
  · rw [Function.update_of_ne hk]

theorem prefetchKind_of_act (h : w.act action = some (moves, clients)) :
    w.PrefetchKind action moves clients := by
  let apart : ∀ c, Action (t.classConfig c) → Prop := fun _ a => ¬ a.UsesTickets
  have hstill : ∀ c, ∀ a ∈ (still : ClassMoves t) c, apart c a := fun c a ha => by cases ha
  have hidle : ∀ {k}, w.threads k = .idle → ∀ rows pc, w.threads k ≠ .prefetching rows pc :=
    fun hk rows pc hpc => by
      rw [hk] at hpc
      cases hpc
  cases action with
  | resolveInto k rows out size =>
      have h : w.callResolve k rows out size = some (moves, clients) := h
      unfold callResolve at h
      split at h
      · rename_i hk
        split_ifs at h <;> cases h <;> exact .apart hstill
          (prefetches_update (hidle hk) fun _ _ hpc => by cases hpc) rfl
      · cases h
  | prefetch k rows =>
      have h : w.callPrefetch k rows = some (moves, clients) := h
      unfold callPrefetch at h
      split at h
      · rename_i hk hsole
        split_ifs at h with hlong <;> cases h
        · exact .apart hstill (prefetches_update (hidle hk) fun _ _ hpc => by cases hpc) rfl
        · exact .begins hsole (Nat.not_lt.mp hlong)
      · cases h
  | drain k deadline =>
      have h : w.callDrain k deadline = some (moves, clients) := h
      unfold callDrain at h
      split at h
      · rename_i hk
        cases h
        exact .apart hstill (prefetches_update (hidle hk) fun _ _ hpc => by cases hpc) rfl
      · cases h
  | advance k choice =>
      have h : w.advance k choice = some (moves, clients) := h
      unfold advance at h
      split at h
      · rename_i call pc hpc
        obtain ⟨⟨moves', pc'⟩, hresolve, heq⟩ := Option.map_eq_some_iff.mp h
        cases heq
        refine .apart (resolveStep_tickets hresolve)
          (prefetches_update (fun _ _ hk => ?_) fun _ _ hk => by cases hk) rfl
        rw [hpc] at hk
        cases hk
      · rename_i rows pc hpc
        obtain ⟨⟨moves', pc'⟩, hprefetch, heq⟩ := Option.map_eq_some_iff.mp h
        cases heq
        exact .goesOn hpc hprefetch
      · rename_i deadline pc hpc
        obtain ⟨⟨moves', pc'⟩, hdrain, heq⟩ := Option.map_eq_some_iff.mp h
        cases heq
        refine .apart (drainStep_tickets hdrain)
          (prefetches_update (fun _ _ hk => ?_) fun _ _ hk => by cases hk) rfl
        rw [hpc] at hk
        cases hk
      · cases h
  | leave k =>
      have h : w.leave k = some (moves, clients) := h
      unfold leave at h
      split at h
      · rename_i hpc
        cases h
        refine .apart hstill (prefetches_update (fun _ _ hk => ?_) fun _ _ hk => by cases hk) rfl
        rw [hpc] at hk
        cases hk
      · rename_i hpc
        cases h
        refine .apart hstill (prefetches_update (fun _ _ hk => ?_) fun _ _ hk => by cases hk) rfl
        have hk := hpc.symm.trans hk
        cases hk
      · rename_i hpc
        cases h
        exact .leaves hpc
      · rename_i hpc
        cases h
        refine .apart hstill (prefetches_update (fun _ _ hk => ?_) fun _ _ hk => by cases hk) rfl
        rw [hpc] at hk
        cases hk
      · cases h
  | tryGet row lease =>
      have h : w.tryGet row lease = some (moves, clients) := h
      unfold tryGet at h
      split_ifs at h
      · cases h
        exact .apart hstill (fun _ _ _ => Iff.rfl) rfl
      · obtain ⟨c, -, heq⟩ := Option.map_eq_some_iff.mp h
        cases heq
        exact .apart (forall_only (P := apart) (by exact id)) (fun _ _ _ => Iff.rfl) rfl
  | reset lease =>
      have h : (if w.inUse lease then none else some (resetAll lease, w.toClassedClients)) =
        some (moves, clients) := h
      split_ifs at h
      cases h
      refine .apart (fun c a ha => ?_) (fun _ _ _ => Iff.rfl) rfl
      cases ha
      exact id
  | move source target =>
      have h : (if w.inUse source ∨ w.inUse target then none
        else some ((fun _ => some (.move source target)), w.toClassedClients)) =
          some (moves, clients) := h
      split_ifs at h
      cases h
      refine .apart (fun c a ha => ?_) (fun _ _ _ => Iff.rfl) rfl
      cases ha
      exact id
  | work c choice =>
      cases h
      exact .apart (forall_only (P := apart) (by exact id)) (fun _ _ _ => Iff.rfl) rfl
  | deliver c request status =>
      cases h
      exact .apart (forall_only (P := apart) (by exact id)) (fun _ _ _ => Iff.rfl) rfl

/-! ## Tickets -/

/-- How far the checks of a batch have got. -/
def CheckedTo (rows : List UInt64) : ClassedPrefetchPc t → Prop
  | .table c => 0 < c → t.Addressable rows
  | .dropping _ => t.Addressable rows
  | .returned result =>
      (result = .ok ∧ t.Addressable rows) ∨ (result = .outOfRange ∧ ¬ t.Addressable rows)

/-- One thread is in `prefetch`, and no ticket is held but the one it is about to drop. -/
structure TicketsInv (w : ClassedWorld t) : Prop where
  sole : ∀ k rows pc, w.threads k = .prefetching rows pc → w.prefetcher = some k
  bounded : ∀ k rows pc, w.threads k = .prefetching rows pc →
    rows.length ≤ t.config.maxBatchRows.toNat
  checked : ∀ k rows pc, w.threads k = .prefetching rows pc → CheckedTo rows pc
  holds : ∀ k rows c, w.threads k = .prefetching rows (.dropping c) → (w.tables c).HoldsTicket k
  free : ∀ c, (∀ k rows, w.threads k ≠ .prefetching rows (.dropping c)) → (w.tables c).TicketFree
  waits : ∀ c, (w.tables c).NoWaits

theorem TicketsInv.start (h : ∀ c, (t.classConfig c).Accepted) :
    (ClassedWorld.start t h).TicketsInv where
  sole := fun k rows pc hpc => by cases hpc
  bounded := fun k rows pc hpc => by cases hpc
  checked := fun k rows pc hpc => by cases hpc
  holds := fun k rows c hpc => by cases hpc
  free := fun c _ => .start (h c)
  waits := fun c k v => id

/-- The batches of one class: a ticket free before stays free, a held one stays held. -/
theorem tickets_of_turn (hturn : ∀ c, turn World.step (w.tables c) (moves c) = some (w'.tables c))
    {c : t.ClassId} (hapart : ∀ a ∈ moves c, ¬ a.UsesTickets) :
    ((w.tables c).TicketFree → (w'.tables c).TicketFree) ∧
      ∀ k, (w.tables c).HoldsTicket k → (w'.tables c).HoldsTicket k := by
  have hstep := hturn c
  cases hmove : moves c with
  | none =>
      rw [hmove] at hstep
      rw [← Option.some.inj hstep]
      exact ⟨id, fun _ => id⟩
  | some a =>
      rw [hmove] at hstep
      exact ⟨fun h => h.step hstep (Action.not_handles (hapart a hmove)),
        fun _ h => h.step hstep (Action.not_handles (hapart a hmove))⟩

namespace TicketsInv

/-- The thread in `prefetch` is the only one. -/
theorem only_thread (h : w.TicketsInv) (hpc : w.threads thread = .prefetching rows pc)
    {k : ThreadId} {rows' : List UInt64} {pc' : ClassedPrefetchPc t}
    (hk : w.threads k = .prefetching rows' pc') : k = thread :=
  Option.some.inj ((h.sole k rows' pc' hk).symm.trans (h.sole thread rows pc hpc))

/-- Nobody comes to wait. -/
theorem waits_of_turn (h : w.TicketsInv) (hspans : ∀ c, (w.tables c).SpanInv)
    (hturn : ∀ c, turn World.step (w.tables c) (moves c) = some (w'.tables c)) {c : t.ClassId}
    (hapart : ∀ a ∈ moves c, ∀ k v deadline, a ≠ .wait k v deadline) : (w'.tables c).NoWaits := by
  have hstep := hturn c
  cases hmove : moves c with
  | none =>
      rw [hmove] at hstep
      rw [← Option.some.inj hstep]
      exact h.waits c
  | some a =>
      rw [hmove] at hstep
      exact (h.waits c).step (hspans c) hstep (hapart a hmove)

/-- Calls of `prefetch` go on without a step of theirs, and so do tickets. -/
theorem apart (h : w.TicketsInv) (hspans : ∀ c, (w.tables c).SpanInv)
    (hmoves : ∀ c, ∀ a ∈ moves c, ¬ a.UsesTickets)
    (hcalls : ∀ k rows pc, w'.threads k = .prefetching rows pc ↔ w.threads k = .prefetching rows pc)
    (hprefetcher : w'.prefetcher = w.prefetcher)
    (hturn : ∀ c, turn World.step (w.tables c) (moves c) = some (w'.tables c)) :
    w'.TicketsInv where
  sole := fun k rows pc hpc => hprefetcher.trans (h.sole k rows pc ((hcalls k rows pc).mp hpc))
  bounded := fun k rows pc hpc => h.bounded k rows pc ((hcalls k rows pc).mp hpc)
  checked := fun k rows pc hpc => h.checked k rows pc ((hcalls k rows pc).mp hpc)
  holds := fun k rows c hpc =>
    (tickets_of_turn hturn (hmoves c)).2 k (h.holds k rows c ((hcalls k rows _).mp hpc))
  free := fun c hnot => (tickets_of_turn hturn (hmoves c)).1
    (h.free c fun k rows hpc => hnot k rows ((hcalls k rows _).mpr hpc))
  waits := fun c => h.waits_of_turn hspans hturn fun a ha k v deadline hwait =>
    hmoves c a ha (by rw [hwait]; trivial)

/-- A step of `prefetch` itself. -/
theorem goesOn (h : w.TicketsInv) (hspans : ∀ c, (w.tables c).SpanInv) (hparts : t.Partitions resolver) (hrow : 0 < t.config.rowCount)
    (hpc : w.threads thread = .prefetching rows pc)
    (hprefetch : w.prefetchStep thread rows choice pc = some (moves, pc'))
    (hclients : w'.toClassedClients = w.setThread thread (.prefetching rows pc'))
    (hturn : ∀ c, turn World.step (w.tables c) (moves c) = some (w'.tables c)) :
    w'.TicketsInv := by
  have hlength := h.bounded thread rows pc hpc
  have hchecked := h.checked thread rows pc hpc
  have hcases : ∀ {k rows' q}, w'.threads k = .prefetching rows' q →
      k = thread ∧ rows' = rows ∧ q = pc' := by
    intro k rows' q hk
    rw [congrArg ClassedClients.threads hclients] at hk
    have hk : Function.update w.threads thread (.prefetching rows pc') k = .prefetching rows' q := hk
    by_cases hkt : k = thread
    · rw [hkt, Function.update_self] at hk
      cases hk
      exact ⟨hkt, rfl, rfl⟩
    · rw [Function.update_of_ne hkt] at hk
      exact absurd (h.only_thread hpc hk) hkt
  have hnow : w'.threads thread = .prefetching rows pc' :=
    (congrFun (congrArg ClassedClients.threads hclients) thread).trans (Function.update_self ..)
  have hsole : w'.prefetcher = some thread :=
    (congrArg ClassedClients.prefetcher hclients).trans (h.sole thread rows pc hpc)
  suffices hsuffices : CheckedTo rows pc' ∧ (∀ c, pc' = .dropping c → (w'.tables c).HoldsTicket thread) ∧
      ∀ c, pc' ≠ .dropping c → (w'.tables c).TicketFree by
    obtain ⟨hchecked', hholds, hfree⟩ := hsuffices
    refine ⟨fun k rows' q hk => ?_, fun k rows' q hk => ?_, fun k rows' q hk => ?_,
      fun k rows' c hk => ?_, fun c hnot => hfree c fun hc => hnot thread rows (by rw [hnow, hc]),
      fun c => h.waits_of_turn hspans hturn (prefetchStep_waits hprefetch c)⟩
    · rw [(hcases hk).1, hsole]
    · rw [(hcases hk).2.1]
      exact hlength
    · obtain ⟨-, rfl, rfl⟩ := hcases hk
      exact hchecked'
    · obtain ⟨rfl, rfl, hq⟩ := hcases hk
      exact hholds c hq.symm
  have hfree : ∀ c, pc ≠ .dropping c → (w.tables c).TicketFree := fun c hne =>
    h.free c fun k rows' hk => by
      have hkt := h.only_thread hpc hk
      rw [hkt, hpc] at hk
      cases hk
      exact hne rfl
  -- Nothing is asked of any class.
  have hquiet : moves = still → (∀ c, pc ≠ .dropping c) → ∀ c, (w'.tables c).TicketFree := by
    rintro rfl hne c
    exact (tickets_of_turn hturn fun a ha => by cases ha).1 (hfree c (hne c))
  cases pc with
  | table c =>
      have hne : ∀ d, ClassedPrefetchPc.table (t := t) c ≠ .dropping d := fun d hd => by cases hd
      unfold prefetchStep at hprefetch
      dsimp only at hprefetch
      split_ifs at hprefetch with hc hany hempty
      · cases hprefetch
        exact ⟨Or.inr ⟨rfl, SizeClassedTable.not_addressable_of_any hany⟩, fun d hd => (by cases hd),
          fun d _ => hquiet rfl hne d⟩
      · cases hprefetch
        exact ⟨fun _ => SizeClassedTable.addressable_of_any hany, fun d hd => (by cases hd),
          fun d _ => hquiet rfl hne d⟩
      · have hrows := SizeClassedTable.addressable_of_any hany
        obtain ⟨ticket, hticket, hholds⟩ := (hfree ⟨c, hc⟩ (hne _)).prefetch (k := thread)
          (hparts.accepted _) (hparts.validBatch hlength hrows hempty) choice.answers
        rw [hticket] at hprefetch
        cases hprefetch
        refine ⟨hrows, fun d hd => ?_, fun d hd => ?_⟩
        · cases hd
          have hstep := hturn ⟨c, hc⟩
          rw [only_self] at hstep
          exact hholds _ hstep
        · have hcd : d ≠ ⟨c, hc⟩ := fun heq => hd (by rw [heq])
          refine (tickets_of_turn hturn fun a ha => ?_).1 (hfree d (hne d))
          rw [only_of_ne hcd] at ha
          cases ha
      · cases hprefetch
        have hpos : 0 < t.tables.length := hparts.tables_pos hrow
        have hrows := hchecked (hpos.trans_le (Nat.not_lt.mp hc))
        exact ⟨Or.inl ⟨rfl, hrows⟩, fun d hd => (by cases hd), fun d _ => hquiet rfl hne d⟩
  | dropping c =>
      cases hprefetch
      refine ⟨fun _ => hchecked, fun d hd => (by cases hd), fun d _ => ?_⟩
      by_cases hcd : d = c
      · subst hcd
        have hstep := hturn d
        rw [only_self] at hstep
        exact ((h.holds thread rows d hpc).drop hstep).1
      · refine (tickets_of_turn hturn fun a ha => ?_).1 (hfree d fun heq => hcd ?_)
        · rw [only_of_ne hcd] at ha
          cases ha
        · cases heq
          rfl
  | returned result => cases hprefetch

/-- Every step keeps it so. -/
theorem step (h : w.TicketsInv) (hspans : ∀ c, (w.tables c).SpanInv) (hparts : t.Partitions resolver)
    (hrow : 0 < t.config.rowCount) (hkind : w.PrefetchKind action moves w'.toClassedClients)
    (hturn : ∀ c, turn World.step (w.tables c) (moves c) = some (w'.tables c)) :
    w'.TicketsInv := by
  generalize hclients : w'.toClassedClients = clients at hkind
  have hthreads : w'.threads = clients.threads := congrArg ClassedClients.threads hclients
  have hprefetcher : w'.prefetcher = clients.prefetcher :=
    congrArg ClassedClients.prefetcher hclients
  have hstill : moves = still → (∀ c, ∀ a ∈ moves c, ¬ a.UsesTickets) := by
    rintro rfl c a ha
    cases ha
  cases hkind with
  | apart hmoves hcalls hsame =>
      refine h.apart hspans hmoves (fun k rows pc => ?_) (hprefetcher.trans hsame) hturn
      rw [hthreads]
      exact hcalls k rows pc
  | @begins thread rows hsole hlength =>
      have hcases : ∀ {k rows' pc}, w'.threads k = .prefetching rows' pc →
          k = thread ∧ rows' = rows ∧ pc = .table 0 := by
        intro k rows' pc hk
        rw [hthreads] at hk
        have hk : Function.update w.threads thread (.prefetching rows (.table 0)) k =
          .prefetching rows' pc := hk
        by_cases hkt : k = thread
        · rw [hkt, Function.update_self] at hk
          cases hk
          exact ⟨hkt, rfl, rfl⟩
        · rw [Function.update_of_ne hkt] at hk
          have hnone := h.sole k rows' pc hk
          rw [hsole] at hnone
          cases hnone
      refine ⟨fun k rows' pc hk => ?_, fun k rows' pc hk => ?_, fun k rows' pc hk => ?_,
        fun k rows' c hk => ?_, fun c _ => ?_, fun c => ?_⟩
      · rw [(hcases hk).1, hprefetcher]
      · rw [(hcases hk).2.1]
        exact hlength
      · rw [(hcases hk).2.2]
        exact fun hpos => absurd hpos (Nat.lt_irrefl 0)
      · cases (hcases hk).2.2
      · refine (tickets_of_turn hturn (hstill rfl c)).1 (h.free c fun k rows' hk => ?_)
        have hnone := h.sole k rows' _ hk
        rw [hsole] at hnone
        cases hnone
      · exact h.waits_of_turn hspans hturn fun a ha => by cases ha
  | goesOn hpc hprefetch => exact h.goesOn hspans hparts hrow hpc hprefetch hclients hturn
  | @leaves thread rows result hpc =>
      have hcases : ∀ {k rows' pc}, w'.threads k ≠ .prefetching rows' pc := by
        intro k rows' pc hk
        rw [hthreads] at hk
        have hk : Function.update w.threads thread .idle k = .prefetching rows' pc := hk
        by_cases hkt : k = thread
        · rw [hkt, Function.update_self] at hk
          cases hk
        · rw [Function.update_of_ne hkt] at hk
          exact hkt (h.only_thread hpc hk)
      refine ⟨fun _ _ _ hk => absurd hk hcases, fun _ _ _ hk => absurd hk hcases,
        fun _ _ _ hk => absurd hk hcases, fun _ _ _ hk => absurd hk hcases, fun c _ => ?_,
        fun c => h.waits_of_turn hspans hturn fun a ha => by cases ha⟩
      refine (tickets_of_turn hturn (hstill rfl c)).1 (h.free c fun k rows' hk => ?_)
      have hkt := h.only_thread hpc hk
      rw [hkt, hpc] at hk
      cases hk

end TicketsInv

/-- In every run `prefetch` has one caller, who holds no ticket but the one about to be dropped. -/
theorem ticketsInv_of_reachable {h : ∀ c, (t.classConfig c).Accepted}
    (hparts : t.Partitions resolver) (hrow : 0 < t.config.rowCount)
    (hw : Reachable ClassedWorld.step (ClassedWorld.start t h) w) : w.TicketsInv :=
  hw.invariant_of (fun _ hs c => World.spanInv_of_reachable (reachable_table hs c))
    (.start h) fun _ _ _ hspans hinv _ hstep => by
      obtain ⟨moves, hact, hturn⟩ := act_of_step hstep
      exact hinv.step hspans hparts hrow (prefetchKind_of_act hact) hturn

/-! ## What prefetch does -/

/-- How many steps of its own a call of `prefetch` has left, at most. -/
def stepsLeft : ClassedPrefetchPc t → ℕ
  | .table c => 2 * (t.tables.length - c) + 1
  | .dropping c => 2 * (t.tables.length - c.val)
  | .returned _ => 0

/-- What the caller of `prefetch` can rely on. -/
structure Prefetches (w : ClassedWorld t) : Prop where
  /-- The result says whether every row is addressable. -/
  result : ∀ k rows result, w.threads k = .prefetching rows (.returned result) →
    (result = .ok ∧ t.Addressable rows) ∨ (result = .outOfRange ∧ ¬ t.Addressable rows)
  /-- A call that has not returned goes on, whatever the others do, and does not call
  `std::terminate`. -/
  proceeds : ∀ k rows pc choice, w.threads k = .prefetching rows pc → 0 < stepsLeft pc →
    (∀ c, ¬ (w.tables c).crashed) → ∃ w' pc', w.step (.advance k choice) = some w' ∧
      w'.threads k = .prefetching rows pc' ∧ stepsLeft pc' < stepsLeft pc ∧
      ∀ c, ¬ (w'.tables c).crashed
  /-- A batch with a row that is not addressable asks nothing of any class. -/
  untouched : ∀ k rows pc choice w', w.threads k = .prefetching rows pc → ¬ t.Addressable rows →
    w.step (.advance k choice) = some w' → w'.tables = w.tables
  /-- Between two batches of classes no ticket is held. -/
  released : (∀ k rows c, w.threads k ≠ .prefetching rows (.dropping c)) →
    ∀ c, (w.tables c).TicketFree

/-- The next step of a call, and what it asks of the class tables. -/
theorem TicketsInv.next (h : w.TicketsInv) (hparts : t.Partitions resolver)
    (htickets : ∀ c, (w.tables c).TicketInv) (hlives : ∀ c, ¬ (w.tables c).crashed)
    (hpc : w.threads thread = .prefetching rows pc) (hleft : 0 < stepsLeft pc) (choice : Choice) :
    ∃ moves pc', w.prefetchStep thread rows choice pc = some (moves, pc') ∧
      stepsLeft pc' < stepsLeft pc ∧ ∀ c, ∃ u, turn World.step (w.tables c) (moves c) = some u ∧
        ¬ u.crashed := by
  have hstill : ∀ c, ∃ u, turn World.step (w.tables c) ((still : ClassMoves t) c) = some u ∧
      ¬ u.crashed := fun c => ⟨_, rfl, hlives c⟩
  have honly : ∀ (c : t.ClassId) (a : Action (t.classConfig c)),
      (∃ u, (w.tables c).step a = some u ∧ ¬ u.crashed) →
      ∀ d, ∃ u, turn World.step (w.tables d) ((only c a : ClassMoves t) d) = some u ∧
        ¬ u.crashed := fun c a hpart d => by
    by_cases hdc : d = c
    · subst hdc
      rw [only_self]
      exact hpart
    · rw [only_of_ne hdc]
      exact ⟨_, rfl, hlives d⟩
  cases pc with
  | table c =>
      unfold prefetchStep
      dsimp only
      split_ifs with hc hany hempty
      · exact ⟨_, _, rfl, Nat.succ_pos _, hstill⟩
      · refine ⟨_, _, rfl, ?_, hstill⟩
        show 2 * (t.tables.length - (c + 1)) + 1 < 2 * (t.tables.length - c) + 1
        omega
      · have hfree : (w.tables ⟨c, hc⟩).TicketFree := h.free _ fun k rows' hk => by
          have hkt := h.only_thread hpc hk
          rw [hkt, hpc] at hk
          cases hk
        obtain ⟨ticket, hticket, -⟩ := hfree.prefetch (k := thread) (hparts.accepted _)
          (hparts.validBatch (h.bounded thread rows _ hpc)
            (SizeClassedTable.addressable_of_any hany) hempty) choice.answers
        obtain ⟨u, hu⟩ := Option.isSome_iff_exists.mp ((h.waits ⟨c, hc⟩).can_prefetch
          (htickets _) (hlives _) (hfree.1 thread) (t.scratchRows rows ⟨c, hc⟩) choice.answers)
        rw [hticket]
        refine ⟨_, _, rfl, Nat.lt_succ_self _, honly _ _ ⟨u, hu, ?_⟩⟩
        rw [World.prefetch_crashed hu]
        exact hlives _
      · exact ⟨_, _, rfl, Nat.succ_pos _, hstill⟩
  | dropping c =>
      obtain ⟨u, hu⟩ := Option.isSome_iff_exists.mp
        ((h.waits c).can_drop (k := thread) (htickets c) (hlives c))
      refine ⟨_, _, rfl, ?_, honly _ _ ⟨u, hu, ?_⟩⟩
      · show 2 * (t.tables.length - (c.val + 1)) + 1 < 2 * (t.tables.length - c.val)
        have := c.isLt
        omega
      · rw [((h.holds thread rows c hpc).drop hu).2]
        exact hlives c
  | returned result => exact absurd hleft (Nat.lt_irrefl 0)

/-- Only a batch whose rows are all addressable asks anything of a class. -/
theorem TicketsInv.still_of_stray (h : w.TicketsInv) (hpc : w.threads thread = .prefetching rows pc)
    (hstray : ¬ t.Addressable rows)
    (hprefetch : w.prefetchStep thread rows choice pc = some (moves, pc')) : moves = still := by
  have hchecked := h.checked thread rows pc hpc
  cases pc with
  | table c =>
      unfold prefetchStep at hprefetch
      dsimp only at hprefetch
      split_ifs at hprefetch with hc hany
      · cases hprefetch
        rfl
      · cases hprefetch
        rfl
      · exact absurd (SizeClassedTable.addressable_of_any hany) hstray
      · cases hprefetch
        rfl
  | dropping c => exact absurd hchecked hstray
  | returned result => cases hprefetch

end ClassedWorld

/-- A table has a row. -/
theorem SizeClassedTableConfig.rowCount_pos {cfg : SizeClassedTableConfig}
    {share : List SizeClass → ℕ → UInt64} {t : SizeClassedTable} (h : cfg.create share = .ok t) :
    0 < t.config.rowCount := by
  obtain ⟨resolver, -, -, -, -, hresolver, -, -, -, -, -, -, rfl, -⟩ := create_eq_ok h
  unfold create at h
  rw [hresolver] at h
  dsimp only at h
  split_ifs at h with hchecks
  rw [not_or] at hchecks
  exact UInt64.pos_iff_ne_zero.mpr hchecks.1

/-- In every run a call of `prefetch` returns after a bounded number of its own steps, waiting for
nobody: `ok`, or `out_of_range` before it has asked anything of a class, and never for want of a
ticket. -/
theorem prefetch_returns {cfg : SizeClassedTableConfig} {share : List SizeClass → ℕ → UInt64}
    {t : SizeClassedTable} (hcreate : cfg.create share = .ok t)
    {h : ∀ c, (t.classConfig c).Accepted} {w : ClassedWorld t}
    (hw : Reachable ClassedWorld.step (.start t h) w) : w.Prefetches := by
  obtain ⟨-, resolver, -, hparts⟩ := SizeClassedTable.partitions_of_create hcreate
  have hrow := SizeClassedTableConfig.rowCount_pos hcreate
  have hinv := ClassedWorld.ticketsInv_of_reachable hparts hrow hw
  refine ⟨fun k rows result hpc => hinv.checked k rows _ hpc, ?_, ?_, fun hnot c => ?_⟩
  · intro k rows pc choice hpc hleft hlives
    obtain ⟨moves, pc', hprefetch, hless, hturns⟩ := hinv.next hparts
      (fun c => World.ticketInv_of_reachable (ClassedWorld.reachable_table hw c)) hlives hpc hleft
      choice
    choose tables hturn hlives' using hturns
    refine ⟨⟨w.setThread k (.prefetching rows pc'), tables⟩, pc', ?_, Function.update_self .., hless,
      hlives'⟩
    unfold ClassedWorld.step
    rw [if_neg (not_exists.mpr hlives)]
    show (w.advance k choice).bind _ = _
    unfold ClassedWorld.advance
    rw [hpc]
    dsimp only
    rw [hprefetch]
    show (turns (fun _ => World.step) w.tables moves).map _ = _
    rw [turns_eq_some_iff.mpr hturn]
    rfl
  · intro k rows pc choice w' hpc hstray hstep
    obtain ⟨moves, hact, hturn⟩ := ClassedWorld.act_of_step hstep
    have hact : w.advance k choice = some (moves, w'.toClassedClients) := hact
    unfold ClassedWorld.advance at hact
    rw [hpc] at hact
    obtain ⟨⟨moves', pc'⟩, hprefetch, heq⟩ := Option.map_eq_some_iff.mp hact
    have hmoves : moves' = moves := congrArg Prod.fst heq
    have hstill := hinv.still_of_stray hpc hstray hprefetch
    funext c
    exact ClassedWorld.same_of_none hturn (by rw [← hmoves, hstill]; rfl)
  · exact hinv.free c fun k rows => hnot k rows c

/-- Row 1 is prefetched, with one ticket record. -/
theorem prefetch_returns_odd :
    ∃ w, Reachable ClassedWorld.step (.start _ twoWidthsTable_accepted) w ∧
      w.threads 0 = .prefetching [1] (.returned .ok) ∧ w.Prefetches := by
  have hrun : (exec ClassedWorld.step
      (.prefetch 0 [1] :: List.replicate 4 (.advance 0 {}))
      (.start _ twoWidthsTable_accepted)).any fun w =>
        w.threads 0 = .prefetching [1] (.returned .ok) := by
    decide +kernel
  obtain ⟨w, hw, hfacts⟩ := (Option.any_eq_true _ _).mp hrun
  have hreach := reachable_of_exec .start hw
  exact ⟨w, hreach, of_decide_eq_true hfacts, prefetch_returns twoWidthsTable_created hreach⟩

end TieredCache
