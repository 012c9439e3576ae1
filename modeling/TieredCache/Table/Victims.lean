/-
# The search for a victim

`claim_victim` is a second-chance sweep: what it returns, what it leaves of the slot and
what it leaves alone is read off the sweep over the slots' marks.  Its number of steps,
twice the budget, is a 32-bit product, so for budgets from `2 ^ 31` on the sweep is
shorter than one turn.
-/

import TieredCache.Math.Clock
import TieredCache.Table.Statistics

namespace TieredCache

open Math.Runs Math.Clock
open Math.OpenAddressing (next next_val gap gap_lt Holds)

variable {cfg : TableConfig}

/-- What the sweep makes of a slot. -/
def Slot.mark (s : Slot cfg) : Mark :=
  if s.state = .free then .claimable
  else if s.pins ≠ 0 ∨ s.state = .filling then .barred
  else if s.state = .failed then .claimable
  else if s.referenced then .spared else .claimable

/-- The slot is pinned or being filled. -/
def Slot.Barred (s : Slot cfg) : Prop := s.pins ≠ 0 ∨ s.state = .filling

/-- The slot is free, or unpinned and failed, or unpinned and ready with its
second-chance bit clear. -/
def Slot.Claimable (s : Slot cfg) : Prop :=
  s.state = .free ∨ s.pins = 0 ∧ (s.state = .failed ∨ s.state = .ready ∧ s.referenced = false)

instance (s : Slot cfg) : Decidable s.Barred := inferInstanceAs (Decidable (_ ∨ _))

instance (s : Slot cfg) : Decidable s.Claimable := inferInstanceAs (Decidable (_ ∨ _))

/-- Free slots are unpinned. -/
def Slot.Sound (s : Slot cfg) : Prop := s.state = .free → s.pins = 0

namespace Slot

variable {s : Slot cfg}

theorem mark_eq_claimable_iff : s.mark = .claimable ↔ s.Claimable := by
  unfold mark Claimable
  cases hstate : s.state <;> by_cases hpins : s.pins = 0 <;> cases s.referenced <;> simp [hpins]

theorem mark_eq_barred_iff (h : s.Sound) : s.mark = .barred ↔ s.Barred := by
  unfold Sound at h
  unfold mark Barred
  cases hstate : s.state <;> by_cases hpins : s.pins = 0 <;> cases s.referenced <;>
    simp_all

theorem mark_eq_spared_iff :
    s.mark = .spared ↔ s.pins = 0 ∧ s.state = .ready ∧ s.referenced = true := by
  unfold mark
  cases hstate : s.state <;> by_cases hpins : s.pins = 0 <;> cases s.referenced <;> simp [hpins]

/-- A slot that has lost its second chance. -/
theorem mark_cleared (h : s.mark = .spared) :
    ({ s with referenced := false } : Slot cfg).mark = .claimable := by
  obtain ⟨hpins, hstate, -⟩ := mark_eq_spared_iff.mp h
  simp [mark, hpins, hstate]

end Slot

namespace Table

variable {t t' : Table cfg} {slot : cfg.SlotId}

theorem modify_self (t : Table cfg) (slot : cfg.SlotId) (f : Slot cfg → Slot cfg) :
    (t.modify slot f).slots slot = f (t.slots slot) := Function.update_self ..

theorem modify_other (f : Slot cfg → Slot cfg) {s : cfg.SlotId} (hs : s ≠ slot) :
    (t.modify slot f).slots s = t.slots s := Function.update_of_ne hs ..

/-- The marks of all slots. -/
def marks (t : Table cfg) (slot : cfg.SlotId) : Mark := (t.slots slot).mark

theorem nextHand_eq (slot : cfg.SlotId) : nextHand slot = next slot := by
  have hlt := slot.isLt
  apply Fin.ext
  rw [next_val, nextHand]
  split_ifs <;> first | rfl | omega

/-- The table once the sweep has gone round: the hand has moved, and the slots whose mark
has changed have lost their second chance. -/
def swept (t : Table cfg) (result : Swept cfg.budgetRows.toNat) : Table cfg :=
  { t with
    clockHand := result.hand
    slots := fun s =>
      if result.marks s = t.marks s then t.slots s else { t.slots s with referenced := false } }

/-- What the sweep does with the slot it ends at. -/
def take (t : Table cfg) (slot : cfg.SlotId) : Table cfg :=
  match (t.slots slot).state with
  | .free => t
  | .failed => t.makeFree slot
  | _ => t.countEviction.makeFree slot

/-- A step of the hand. -/
def advanced (t : Table cfg) : Table cfg := { t with clockHand := next t.clockHand }

theorem claimVictimLoop_barred {steps : ℕ} (h : t.marks t.clockHand = .barred) :
    claimVictimLoop (steps + 1) t = claimVictimLoop steps t.advanced := by
  unfold marks Slot.mark at h
  rw [claimVictimLoop, advanced, ← nextHand_eq]
  dsimp only
  split_ifs at h ⊢
  rfl

theorem claimVictimLoop_spared {steps : ℕ} (h : t.marks t.clockHand = .spared) :
    claimVictimLoop (steps + 1) t =
      claimVictimLoop steps (t.advanced.modify t.clockHand fun s => { s with referenced := false }) := by
  unfold marks Slot.mark at h
  rw [claimVictimLoop, advanced, ← nextHand_eq]
  dsimp only
  split_ifs at h ⊢
  rfl

theorem claimVictimLoop_claimable {steps : ℕ} (h : t.marks t.clockHand = .claimable) :
    claimVictimLoop (steps + 1) t = (some t.clockHand, t.advanced.take t.clockHand) := by
  rw [claimVictimLoop, advanced, take, ← nextHand_eq]
  rcases Slot.mark_eq_claimable_iff.mp h with hstate | ⟨hpins, hstate | ⟨hstate, hclear⟩⟩
  · simp [hstate]
  · simp [hstate, hpins]
  · simp [hstate, hpins, hclear, countEviction]

theorem marks_modify (h : t.marks slot = .spared) :
    (t.modify slot fun s => { s with referenced := false }).marks =
      Function.update t.marks slot .claimable := by
  ext s : 1
  by_cases hs : s = slot
  · subst hs
    rw [Function.update_self, marks, modify_self]
    exact Slot.mark_cleared h
  · rw [Function.update_of_ne hs, marks, modify_other _ hs]
    rfl

/-- Clearing a bit before the sweep or in it is the same. -/
theorem swept_modify (steps : ℕ) (hand : cfg.SlotId) (h : t.marks slot = .spared) :
    (t.modify slot fun s => { s with referenced := false }).swept
        (sweep steps hand (Function.update t.marks slot .claimable)) =
      t.swept (sweep steps hand (Function.update t.marks slot .claimable)) := by
  have hslots : ∀ s,
      ((t.modify slot fun s => { s with referenced := false }).swept
        (sweep steps hand (Function.update t.marks slot .claimable))).slots s =
      (t.swept (sweep steps hand (Function.update t.marks slot .claimable))).slots s := by
    intro s
    unfold swept
    dsimp only
    rw [marks_modify h]
    by_cases hs : s = slot
    · subst hs
      have hcleared := sweep_marks steps hand (Function.update t.marks s .claimable) s
      rw [Function.update_self] at hcleared
      have hlast := hcleared.resolve_right fun hspared => by cases hspared.1
      rw [Function.update_self, if_pos hlast, hlast, if_neg (by rw [h]; decide), modify_self]
    · rw [Function.update_of_ne hs, modify_other _ hs]
  exact congrArg (fun slots => ({ t with
    clockHand := (sweep steps hand (Function.update t.marks slot .claimable)).hand
    slots := slots } : Table cfg)) (funext hslots)

/-- The loop is the sweep over the marks, and the taken slot is freed at its end. -/
theorem claimVictimLoop_eq (steps : ℕ) (t : Table cfg) :
    claimVictimLoop steps t =
      ((sweep steps t.clockHand t.marks).taken,
        match (sweep steps t.clockHand t.marks).taken with
        | none => t.swept (sweep steps t.clockHand t.marks)
        | some slot => (t.swept (sweep steps t.clockHand t.marks)).take slot) := by
  induction steps generalizing t with
  | zero => simp [claimVictimLoop, swept, sweep]
  | succ steps ih =>
      cases hmark : t.marks t.clockHand with
      | barred =>
          rw [claimVictimLoop_barred hmark, sweep_barred hmark]
          exact ih t.advanced
      | spared =>
          rw [claimVictimLoop_spared hmark, sweep_spared hmark, ih]
          have hmarks := marks_modify (t := t.advanced) hmark
          have hswept := swept_modify (t := t.advanced) steps (next t.clockHand) hmark
          rw [hmarks]
          exact congrArg (fun u => (_, match (sweep steps (next t.clockHand)
            (Function.update t.marks t.clockHand .claimable)).taken with
            | none => u
            | some slot => u.take slot)) hswept
      | claimable =>
          rw [claimVictimLoop_claimable hmark, sweep_claimable hmark]
          simp [swept, advanced]

/-- Apart from the taken slot and its index entry, a search has changed only the hand,
second-chance bits, `non_free_` and the eviction counter. -/
structure SameElse (t t' : Table cfg) (taken : Option cfg.SlotId) : Prop where
  fields : t' =
    { t with
      slots := t'.slots
      index := t'.index
      clockHand := t'.clockHand
      nonFree := t'.nonFree
      counters := { t.counters with evictions := t'.counters.evictions } }
  slots : ∀ s, taken ≠ some s → SameSlot (t.slots s) (t'.slots s)
  index : ∀ s key, taken ≠ some s → (t'.indexFind key = some s ↔ t.indexFind key = some s)

/-- What `claim_victim` is for. -/
structure ClaimExact (t : Table cfg) : Prop where
  none_iff : t.claimVictim.1 = none ↔ ∀ s, (t.slots s).Barred
  victim : ∀ slot, t.claimVictim.1 = some slot →
    ((t.slots slot).pins = 0 ∧ (t.slots slot).state ≠ .filling) ∧
      (t.claimVictim.2.slots slot).state = .free ∧
      (t.claimVictim.2.slots slot).indexed = false ∧
      ∀ key, t.claimVictim.2.indexFind key ≠ some slot
  second : ∀ slot, t.claimVictim.1 = some slot → (t.slots slot).state = .ready →
    (t.slots slot).referenced = true → ∀ s, ¬ (t.slots s).Claimable
  frame : SameElse t t.claimVictim.2 t.claimVictim.1

/-- The sweep gets as far as it has to: it is two turns long, or there is nothing to find,
or there is something to find in the fewer steps it takes. -/
def SweepsFarEnough (t : Table cfg) : Prop :=
  cfg.budgetRows.toNat < 2 ^ 31 ∨ (∀ s, (t.slots s).Barred) ∨
    ∃ s, (t.slots s).Claimable ∧ gap t.clockHand s < 2 * cfg.budgetRows.toNat - 2 ^ 32

/-- The number of steps, as the code computes it. -/
theorem toNat_steps (cfg : TableConfig) :
    (2 * cfg.budgetRows).toNat =
      if cfg.budgetRows.toNat < 2 ^ 31 then 2 * cfg.budgetRows.toNat
      else 2 * cfg.budgetRows.toNat - 2 ^ 32 := by
  have hlt := cfg.budgetRows.toNat_lt
  rw [UInt32.toNat_mul]
  simp only [UInt32.reduceToNat]
  split_ifs <;> omega

theorem claimVictim_eq (t : Table cfg) :
    t.claimVictim =
      ((sweep (2 * cfg.budgetRows).toNat t.clockHand t.marks).taken,
        match (sweep (2 * cfg.budgetRows).toNat t.clockHand t.marks).taken with
        | none => t.swept (sweep (2 * cfg.budgetRows).toNat t.clockHand t.marks)
        | some slot => (t.swept (sweep (2 * cfg.budgetRows).toNat t.clockHand t.marks)).take slot) :=
  claimVictimLoop_eq _ t

/-- The sweep finds nothing exactly if all is barred, provided it gets far enough; if it
does not, it finds nothing though something is claimable or has a second chance. -/
theorem claimVictim_none_iff (hsound : ∀ s, (t.slots s).Sound) :
    (t.claimVictim.1 = none ↔ ∀ s, (t.slots s).Barred) ↔ t.SweepsFarEnough := by
  have hbarred : (∀ s, t.marks s = .barred) ↔ ∀ s, (t.slots s).Barred :=
    forall_congr' fun s => Slot.mark_eq_barred_iff (hsound s)
  rw [claimVictim_eq]
  unfold SweepsFarEnough
  have hsteps := toNat_steps cfg
  split_ifs at hsteps with hsmall
  · rw [sweep_two_turns hsteps, hbarred]
    exact iff_of_true Iff.rfl (Or.inl hsmall)
  · have hbudget := cfg.budgetRows.toNat_lt
    rw [sweep_one_turn (by omega), hsteps]
    constructor
    · intro hiff
      by_cases hall : ∀ s, (t.slots s).Barred
      · exact Or.inr (Or.inl hall)
      · have hfound := mt hiff.mp hall
        push Not at hfound
        obtain ⟨s, hgap, hmark⟩ := hfound
        exact Or.inr (Or.inr ⟨s, Slot.mark_eq_claimable_iff.mp hmark, hgap⟩)
    · rintro (hlt | hall | ⟨s, hs, hgap⟩)
      · exact absurd hlt hsmall
      · refine iff_of_true (fun s _ hmark => ?_) hall
        rw [hbarred.mpr hall s] at hmark
        cases hmark
      · refine iff_of_false (fun hnone => hnone s hgap (Slot.mark_eq_claimable_iff.mpr hs)) ?_
        intro hall
        have hmark : (t.slots s).mark = .barred := hbarred.mpr hall s
        rw [Slot.mark_eq_claimable_iff.mpr hs] at hmark
        cases hmark

/-! ## What the search leaves -/

theorem swept_slots (t : Table cfg) (result : Swept cfg.budgetRows.toNat) (s : cfg.SlotId) :
    SameSlot (t.slots s) ((t.swept result).slots s) := by
  unfold swept
  dsimp only
  split_ifs
  · exact .refl _
  · exact ⟨false, rfl⟩

theorem take_spec (t : Table cfg) (slot : cfg.SlotId) :
    (∀ s, s ≠ slot → (t.take slot).slots s = t.slots s) ∧
      t.take slot =
        { t with
          slots := (t.take slot).slots
          index := (t.take slot).index
          clockHand := (t.take slot).clockHand
          nonFree := (t.take slot).nonFree
          counters := { t.counters with evictions := (t.take slot).counters.evictions } } := by
  unfold take
  split
  · exact ⟨fun _ _ => rfl, rfl⟩
  · exact ⟨fun s hs => Function.update_of_ne hs .., rfl⟩
  · exact ⟨fun s hs => Function.update_of_ne hs .., rfl⟩

/-- What a search changes. -/
theorem claimVictim_frame (h : t.IndexInv) : SameElse t t.claimVictim.2 t.claimVictim.1 := by
  have hslots : ∀ s, t.claimVictim.1 ≠ some s → SameSlot (t.slots s) (t.claimVictim.2.slots s) := by
    intro s hs
    rw [claimVictim_eq] at hs ⊢
    dsimp only at hs ⊢
    split
    · exact t.swept_slots _ s
    · rename_i slot htaken
      have hne : s ≠ slot := by
        rintro rfl
        exact hs htaken
      rw [(take_spec _ slot).1 s hne]
      exact t.swept_slots _ s
  refine ⟨?_, hslots, fun s key hs => ?_⟩
  · rw [claimVictim_eq]
    dsimp only
    split
    · rfl
    · rename_i slot htaken
      exact (take_spec _ slot).2
  · obtain ⟨r, hr⟩ := hslots s hs
    rw [(h.sweeps t.claimVictim_spec.1).indexFind_eq_some_iff, h.indexFind_eq_some_iff, hr]
    rfl

/-- The slot a search returns. -/
theorem claimVictim_victim (h : t.IndexInv) (hsound : ∀ s, (t.slots s).Sound)
    (htaken : t.claimVictim.1 = some slot) :
    ((t.slots slot).pins = 0 ∧ (t.slots slot).state ≠ .filling) ∧
      (t.claimVictim.2.slots slot).state = .free ∧
      (t.claimVictim.2.slots slot).indexed = false ∧
      ∀ key, t.claimVictim.2.indexFind key ≠ some slot := by
  have hindex := h.sweeps t.claimVictim_spec.1
  have hfree := t.claimVictim_spec.2 slot htaken
  have hunindexed : (t.claimVictim.2.slots slot).indexed = false := by
    rw [← Bool.not_eq_true, hindex.occupied]
    rintro (hs | hs) <;> rw [hfree] at hs <;> cases hs
  rw [claimVictim_eq] at htaken
  have hmark := sweep_not_barred htaken
  rw [Ne, marks, Slot.mark_eq_barred_iff (hsound slot), Slot.Barred, not_or, not_not] at hmark
  refine ⟨hmark, hfree, hunindexed, fun key hfind => ?_⟩
  rw [hindex.indexFind_eq_some_iff, hunindexed] at hfind
  cases hfind.1

/-- A second chance is only denied when nothing else is left. -/
theorem claimVictim_second (htaken : t.claimVictim.1 = some slot)
    (hready : (t.slots slot).state = .ready) (hreferenced : (t.slots slot).referenced = true)
    (s : cfg.SlotId) : ¬ (t.slots s).Claimable := by
  rw [claimVictim_eq] at htaken
  rw [← Slot.mark_eq_claimable_iff]
  rcases sweep_eq_some htaken with ⟨hmark, -⟩ | ⟨-, hnone⟩
  · have hclaimable := Slot.mark_eq_claimable_iff.mp hmark
    simp [Slot.Claimable, hready, hreferenced] at hclaimable
  · exact hnone s

theorem claimExact_iff (h : t.IndexInv) (hsound : ∀ s, (t.slots s).Sound) :
    t.ClaimExact ↔ t.SweepsFarEnough := by
  rw [← claimVictim_none_iff hsound]
  refine ⟨fun hexact => hexact.none_iff, fun hnone => ⟨hnone, fun slot htaken => ?_, ?_, ?_⟩⟩
  · exact claimVictim_victim h hsound htaken
  · exact fun slot htaken hready hreferenced => claimVictim_second htaken hready hreferenced
  · exact claimVictim_frame h

end Table

/-! ## Every search of the machine -/

/-- A table in which a section searches for a victim: the rows of its batch before the
one it has come to are done. -/
inductive World.Searches (w : World cfg) : Table cfg → Prop
  | prefetching (answers : Answers) (record : cfg.RecordId) (count : ℕ) (rows : List UInt64) :
      w.Searches (Table.prefetchRows answers record 0 rows (w.table.openRecord record count))
  | resolving (answers : Answers) (out : LeaseVar) (rows : List UInt64) :
      w.Searches (World.admitRows answers out 0 rows w).2.2.table

/-- What a section has done before it searches. -/
theorem World.Searches.edits {w : World cfg} {t : Table cfg} (hindex : w.table.IndexInv)
    (ht : w.Searches t) : Table.Edits w.table t := by
  cases ht with
  | prefetching answers record count rows =>
      have hopened : Table.Bookkeeping w.table (w.table.openRecord record count) :=
        .of_records w.table _ w.table.waiters w.table.clockHand _ _
      exact Table.Quiets.edits (hopened.quiets.trans
        (Table.prefetchRows_quiets answers record rows (hindex.bookkeeping hopened) 0))
  | resolving answers out rows =>
      exact (World.admitRows_edits answers out rows 0 w hindex).1.edits

/-- `claim_victim` is exact, wherever the hand is, in exactly the states in which its sweep
gets far enough from there. -/
theorem claim_victim_exact_iff {h : cfg.Accepted} {w : World cfg} {t : Table cfg}
    (hw : Reachable World.step (World.start cfg h) w) (ht : w.Searches t) (hand : cfg.SlotId) :
    ({ t with clockHand := hand } : Table cfg).ClaimExact ↔
      ({ t with clockHand := hand } : Table cfg).SweepsFarEnough := by
  have hindex := (World.fillInv_of_reachable hw).index
  have hledger := World.ledgerInv_of_reachable hw
  have hunpinned : t.LedgerInv := by
    cases ht with
    | prefetching answers record count rows =>
        exact (hledger.aside (w.table.openRecord_aside record count)).motions
          (Table.prefetchRows_motions answers record rows 0 _)
    | resolving answers out rows =>
        exact hledger.motions (World.admitRows_motions answers out rows 0 w hindex)
  exact Table.claimExact_iff ((hindex.edits (ht.edits hindex)).bookkeeping
    (.of_records t t.tickets t.waiters hand t.ticketsHeld t.counters)) hunpinned.unpinned

/-- Every row is the first byte of the shard. -/
def firstByteResolver : RowExtentResolver where
  resolve := fun _ => .ok ⟨0, ⟨0, 1⟩⟩
  failure_ne_ok := fun _ h => by cases h

/-- Four rows of one byte, and a slot for each. -/
def fourSlots : TableConfig where
  rowCount := 4
  sourceRowBytes := 1
  outputRowBytes := 1
  sources := [⟨0, 1⟩]
  resolveExtent := some firstByteResolver
  outputStorage := ⟨0, 4⟩
  budgetRows := 4
  maxTickets := 1
  maxBatchRows := 4

theorem fourSlots_accepted : fourSlots.Accepted := by decide +kernel

/-- Four rows are asked for.  The first two are read and leased, the second lease is given back;
the third row fails; the fourth is still to be delivered. -/
def mixedRun : List (Action fourSlots) :=
  [.prefetch [0, 1, 2, 3] 0 fun _ => {}, .deliver 0 .ok, .deliver 1 .ok, .deliver 2 .ioError] ++
    List.replicate 14 (.work {}) ++ [.tryGet 0 0, .tryGet 1 1, .reset 1]

/-- A search among a pinned, a referenced, a failed and a filling slot. -/
theorem claim_victim_exact_mixed :
    ∃ w, Reachable World.step (World.start fourSlots fourSlots_accepted) w ∧
      (∃ s, (w.table.slots s).pins = 1) ∧
      (∃ s, (w.table.slots s).pins = 0 ∧ (w.table.slots s).referenced) ∧
      (∃ s, (w.table.slots s).state = .failed) ∧ (∃ s, (w.table.slots s).state = .filling) ∧
      ∀ hand, ({ w.table with clockHand := hand } : Table fourSlots).ClaimExact := by
  have hrun : (exec World.step mixedRun (World.start fourSlots fourSlots_accepted)).any fun w =>
      (∃ s, (w.table.slots s).pins = 1) ∧
        (∃ s, (w.table.slots s).pins = 0 ∧ (w.table.slots s).referenced) ∧
        (∃ s, (w.table.slots s).state = .failed) ∧ ∃ s, (w.table.slots s).state = .filling := by
    decide +kernel
  obtain ⟨w, hw, hfacts⟩ := (Option.any_eq_true _ _).mp hrun
  obtain ⟨hpinned, hreferenced, hfailed, hfilling⟩ := of_decide_eq_true hfacts
  have hreach := reachable_of_exec .start hw
  have hsearch : w.Searches w.table := .resolving (fun _ => {}) 0 []
  exact ⟨w, hreach, hpinned, hreferenced, hfailed, hfilling, fun hand =>
    (claim_victim_exact_iff hreach hsearch hand).mpr (Or.inl (by decide))⟩

/-- Rows of one byte, and `2 ^ 31` slots for them. -/
def hugeBudget : TableConfig where
  rowCount := 1
  sourceRowBytes := 1
  outputRowBytes := 1
  sources := [⟨0, 1⟩]
  resolveExtent := some firstByteResolver
  outputStorage := ⟨0, 0x80000000⟩
  budgetRows := 0x80000000
  maxTickets := 1
  maxBatchRows := 1

theorem hugeBudget_accepted : hugeBudget.Accepted := by decide +kernel

/-- Twice the budget wraps to no steps at all, and every slot is free. -/
theorem claim_victim_finds_nothing :
    ∃ t, (World.start hugeBudget hugeBudget_accepted).Searches t ∧ t.claimVictim.1 = none ∧
      (∀ s, (t.slots s).state = .free) ∧ ¬ t.ClaimExact := by
  refine ⟨_, .resolving (fun _ => {}) 0 [], ?_⟩
  have hsteps : (2 * hugeBudget.budgetRows).toNat = 0 := by decide
  have hnone : (World.start hugeBudget hugeBudget_accepted).table.claimVictim.1 = none := by
    rw [Table.claimVictim, hsteps]
    rfl
  refine ⟨hnone, fun s => rfl, fun hexact => ?_⟩
  rcases hexact.none_iff.mp hnone ⟨0, by decide⟩ with hpins | hfilling
  · exact hpins rfl
  · cases hfilling

end TieredCache
