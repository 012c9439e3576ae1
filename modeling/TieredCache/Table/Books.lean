/-
# The books of a table

`in_flight_` counts the filling slots, and the `in_flight` of a binding those that fill
through it; a filling slot fills through the current or the retiring binding, and no
other slot names a binding.
-/

import TieredCache.Math.Tally
import TieredCache.Math.Words
import TieredCache.Table.Finishers

namespace TieredCache

open Math.Runs Math.Tally Math.Words

variable {cfg : TableConfig}

/-- The slot is being filled. -/
def Slot.Filling (s : Slot cfg) : Prop := s.state = .filling

/-- The slot is being filled through this binding. -/
def Slot.FillingThrough (b : BindingId) (s : Slot cfg) : Prop :=
  s.state = .filling ∧ s.filledThrough = b

namespace Table

variable {t t' : Table cfg} {slot : cfg.SlotId}

/-- The counts of fills are right. -/
structure BookInv (t : Table cfg) : Prop where
  inFlight : t.inFlight.toNat = tally Slot.Filling t.slots
  binding : ∀ b, (t.bindings b).inFlight.toNat = tally (Slot.FillingThrough b) t.slots
  names : ∀ s, (t.slots s).fillBinding =
    if (t.slots s).state = .filling then some (t.slots s).filledThrough else none
  known : ∀ s, (t.slots s).state = .filling →
    (t.slots s).filledThrough = t.currentBinding ∨
      t.retiringBinding = some (t.slots s).filledThrough
  current_lt : t.currentBinding < t.bindingCount
  retiring_lt : ∀ b, t.retiringBinding = some b → b < t.currentBinding

namespace BookInv

/-- There are never more fills than slots. -/
theorem tally_le_budget (p : Slot cfg → Prop) (slots : cfg.SlotId → Slot cfg) :
    tally p slots ≤ cfg.budgetRows.toNat := by
  have h := tally_le_card p slots
  rwa [Fintype.card_fin] at h

theorem create (h : cfg.Accepted) : (Table.create cfg h).BookInv where
  inFlight := (tally_eq_zero fun s hs => by cases hs).symm
  binding := fun b => (tally_eq_zero fun s hs => by cases hs.1).symm
  names := fun s => rfl
  known := fun s hs => by cases hs
  current_lt := Nat.one_pos
  retiring_lt := fun b hb => by cases hb

/-- A change that leaves the counts and the slots' part in them alone. -/
theorem keep (h : t.BookInv) (hinFlight : t'.inFlight = t.inFlight)
    (hbindings : t'.bindings = t.bindings) (hcurrent : t'.currentBinding = t.currentBinding)
    (hretiring : t'.retiringBinding = t.retiringBinding)
    (hcount : t'.bindingCount = t.bindingCount)
    (hslots : ∀ s, (t'.slots s).fillBinding = (t.slots s).fillBinding ∧
      ((t'.slots s).state = .filling ↔ (t.slots s).state = .filling) ∧
      ((t.slots s).state = .filling → (t'.slots s).filledThrough = (t.slots s).filledThrough)) :
    t'.BookInv where
  inFlight := by
    rw [hinFlight, h.inFlight]
    exact tally_congr fun s => (hslots s).2.1.symm
  binding := fun b => by
    rw [hbindings, h.binding]
    refine tally_congr fun s => ?_
    obtain ⟨-, hstate, hthrough⟩ := hslots s
    refine ⟨fun hs => ⟨hstate.mpr hs.1, (hthrough hs.1).trans hs.2⟩, fun hs => ?_⟩
    have hfill := hstate.mp hs.1
    exact ⟨hfill, (hthrough hfill).symm.trans hs.2⟩
  names := fun s => by
    obtain ⟨hnames, hstate, hthrough⟩ := hslots s
    rw [hnames, h.names s]
    by_cases hfill : (t.slots s).state = .filling
    · rw [if_pos hfill, if_pos (hstate.mpr hfill), hthrough hfill]
    · rw [if_neg hfill, if_neg fun hs => hfill (hstate.mp hs)]
  known := fun s hs => by
    obtain ⟨-, hstate, hthrough⟩ := hslots s
    have hfill := hstate.mp hs
    rw [hthrough hfill, hcurrent, hretiring]
    exact h.known s hfill
  current_lt := by
    rw [hcurrent, hcount]
    exact h.current_lt
  retiring_lt := fun b hb => by
    rw [hretiring] at hb
    rw [hcurrent]
    exact h.retiring_lt b hb

/-- A rewrite of one slot that is not its concern. -/
theorem update (h : t.BookInv) (hinFlight : t'.inFlight = t.inFlight)
    (hbindings : t'.bindings = t.bindings) (hcurrent : t'.currentBinding = t.currentBinding)
    (hretiring : t'.retiringBinding = t.retiringBinding)
    (hcount : t'.bindingCount = t.bindingCount) {s' : Slot cfg}
    (hslots : t'.slots = Function.update t.slots slot s')
    (hnames : s'.fillBinding = (t.slots slot).fillBinding)
    (hstate : s'.state = .filling ↔ (t.slots slot).state = .filling)
    (hthrough : (t.slots slot).state = .filling →
      s'.filledThrough = (t.slots slot).filledThrough) : t'.BookInv := by
  refine h.keep hinFlight hbindings hcurrent hretiring hcount fun s => ?_
  rw [hslots]
  by_cases hs : s = slot
  · subst hs
    rw [Function.update_self]
    exact ⟨hnames, hstate, hthrough⟩
  · rw [Function.update_of_ne hs]
    exact ⟨rfl, Iff.rfl, fun _ => rfl⟩

/-- A slot that is not filling names no binding. -/
theorem names_none (h : t.BookInv) (hslot : (t.slots slot).state ≠ .filling) :
    (t.slots slot).fillBinding = none := by
  rw [h.names slot, if_neg hslot]

/-- A slot starts filling through the current binding. -/
theorem begun (h : t.BookInv) (hslot : (t.slots slot).state ≠ .filling)
    (hinFlight : t'.inFlight = t.inFlight + 1)
    (hbindings : t'.bindings = Function.update t.bindings t.currentBinding
      { t.bindings t.currentBinding with
        inFlight := (t.bindings t.currentBinding).inFlight + 1 })
    (hcurrent : t'.currentBinding = t.currentBinding)
    (hretiring : t'.retiringBinding = t.retiringBinding)
    (hcount : t'.bindingCount = t.bindingCount) {s' : Slot cfg}
    (hslots : t'.slots = Function.update t.slots slot s') (hstate : s'.state = .filling)
    (hthrough : s'.filledThrough = t.currentBinding)
    (hnames : s'.fillBinding = some t.currentBinding) : t'.BookInv := by
  have hlt := cfg.budgetRows.toNat_lt
  have hgain : ∀ p : Slot cfg → Prop, ¬ p (t.slots slot) → p s' →
      tally p t'.slots = tally p t.slots + 1 := fun p hold hnew => by
    rw [hslots]
    exact tally_update_gain (Set.toFinite _) hold hnew
  have hbound : ∀ p : Slot cfg → Prop, ¬ p (t.slots slot) → p s' →
      tally p t.slots + 1 < 2 ^ 32 := fun p hold hnew => by
    rw [← hgain p hold hnew]
    exact lt_of_le_of_lt (tally_le_budget p t'.slots) hlt
  refine ⟨?_, fun b => ?_, fun s => ?_, fun s hs => ?_, ?_, fun b hb => ?_⟩
  · rw [hinFlight, toNat_succ (by rw [h.inFlight]; exact hbound _ hslot hstate), h.inFlight,
      hgain _ hslot hstate]
  · rw [hbindings]
    by_cases hb : b = t.currentBinding
    · subst hb
      have hold : ¬ Slot.FillingThrough t.currentBinding (t.slots slot) := fun hs => hslot hs.1
      have hnew : Slot.FillingThrough t.currentBinding s' := ⟨hstate, hthrough⟩
      rw [Function.update_self, toNat_succ (by rw [h.binding]; exact hbound _ hold hnew),
        h.binding, hgain _ hold hnew]
    · rw [Function.update_of_ne hb, h.binding, hslots]
      refine (tally_update_same ⟨fun hs => ?_, fun hs => absurd hs.1 hslot⟩).symm
      exact absurd (hs.2.symm.trans hthrough) hb
  · rw [hslots]
    by_cases hs : s = slot
    · subst hs
      rw [Function.update_self, if_pos hstate, hnames, hthrough]
    · rw [Function.update_of_ne hs]
      exact h.names s
  · rw [hslots] at hs ⊢
    rw [hcurrent, hretiring]
    by_cases hss : s = slot
    · subst hss
      rw [Function.update_self]
      exact Or.inl hthrough
    · rw [Function.update_of_ne hss] at hs ⊢
      exact h.known s hs
  · rw [hcurrent, hcount]
    exact h.current_lt
  · rw [hretiring] at hb
    rw [hcurrent]
    exact h.retiring_lt b hb

/-- The fill of a slot ends. -/
theorem ended (h : t.BookInv) (hslot : (t.slots slot).state = .filling)
    (hinFlight : t'.inFlight = t.inFlight - 1)
    (hbindings : t'.bindings = t.releasedBinding (t.slots slot).fillBinding)
    (hcurrent : t'.currentBinding = t.currentBinding)
    (hretiring : t'.retiringBinding = t.retiringBinding)
    (hcount : t'.bindingCount = t.bindingCount) {s' : Slot cfg}
    (hslots : t'.slots = Function.update t.slots slot s') (hstate : s'.state ≠ .filling)
    (hnames : s'.fillBinding = none) : t'.BookInv := by
  have hloss : ∀ p : Slot cfg → Prop, p (t.slots slot) → ¬ p s' →
      tally p t'.slots + 1 = tally p t.slots := fun p hold hnew => by
    rw [hslots]
    exact tally_update_loss (Set.toFinite _) hold hnew
  have hpos : ∀ p : Slot cfg → Prop, p (t.slots slot) → 0 < tally p t.slots := fun p hp =>
    tally_pos (Set.toFinite _) hp
  refine ⟨?_, fun b => ?_, fun s => ?_, fun s hs => ?_, ?_, fun b hb => ?_⟩
  · have := hloss Slot.Filling hslot hstate
    rw [hinFlight, toNat_pred (by rw [h.inFlight]; exact hpos _ hslot), h.inFlight]
    omega
  · rw [hbindings, h.names slot, if_pos hslot, releasedBinding]
    by_cases hb : b = (t.slots slot).filledThrough
    · subst hb
      have hold : Slot.FillingThrough (t.slots slot).filledThrough (t.slots slot) := ⟨hslot, rfl⟩
      have := hloss _ hold fun hs => hstate hs.1
      rw [Function.update_self, toNat_pred (by rw [h.binding]; exact hpos _ hold), h.binding]
      omega
    · rw [Function.update_of_ne hb, h.binding, hslots]
      refine (tally_update_same ⟨fun hs => absurd hs.1 hstate, fun hs => ?_⟩).symm
      exact absurd hs.2.symm hb
  · rw [hslots]
    by_cases hs : s = slot
    · subst hs
      rw [Function.update_self, if_neg hstate, hnames]
    · rw [Function.update_of_ne hs]
      exact h.names s
  · rw [hslots] at hs ⊢
    rw [hcurrent, hretiring]
    by_cases hss : s = slot
    · subst hss
      rw [Function.update_self] at hs
      exact absurd hs hstate
    · rw [Function.update_of_ne hss] at hs ⊢
      exact h.known s hs
  · rw [hcurrent, hcount]
    exact h.current_lt
  · rw [hretiring] at hb
    rw [hcurrent]
    exact h.retiring_lt b hb

/-! ## The operations -/

theorem bookkeeping (h : t.BookInv) (hb : t.Bookkeeping t') : t'.BookInv := by
  cases hb with
  | mk slots tickets waiters hand held counters notifications hslots =>
      refine h.keep rfl rfl rfl rfl rfl fun s => ?_
      obtain ⟨r, hs⟩ := hslots s
      dsimp only
      rw [hs]
      exact ⟨rfl, Iff.rfl, fun _ => rfl⟩

theorem makeFree (h : t.BookInv) (hslot : (t.slots slot).state ≠ .filling) :
    (t.makeFree slot).BookInv := by
  refine h.update rfl rfl rfl rfl rfl rfl ?_ ⟨fun hs => (by cases hs), fun hs => absurd hs hslot⟩
    fun hs => absurd hs hslot
  exact (h.names_none hslot).symm

/-- Starting a fill counts it; a refused start counts nothing. -/
theorem startFillLocked (h : t.BookInv) (answers : Answers) (row : UInt64)
    (hfree : (t.slots slot).state = .free) : (t.startFillLocked answers slot row).2.BookInv := by
  have hslot : (t.slots slot).state ≠ .filling := by
    rw [hfree]
    decide
  obtain ⟨u, hu, hstart⟩ := t.startFillLocked_cases answers slot row
  have hself : (t.beginAdmission slot row).slots slot = _ := Function.update_self ..
  cases hu with
  | mk slots used requests count submits lost claim scratch chunks hother hslot' =>
      rw [hself] at hslot'
      have hslots : ∀ s', Function.update slots slot s' = Function.update t.slots slot s' := by
        intro s'
        funext s
        by_cases hs : s = slot
        · rw [hs, Function.update_self, Function.update_self]
        · rw [Function.update_of_ne hs, Function.update_of_ne hs, hother s hs]
          exact Function.update_of_ne hs ..
      rcases hstart with ⟨length, head, hstart⟩ | ⟨status, -, hstart⟩ <;> rw [hstart]
      · refine h.begun hslot rfl rfl rfl rfl rfl (hslots _) ?_ ?_ ?_ <;>
          dsimp only <;> rw [hslot']
      · refine h.update rfl rfl rfl rfl rfl (hslots _) ?_ ?_ fun hs => absurd hs hslot
        · exact (h.names_none hslot).symm
        · exact ⟨fun hs => (by cases hs), fun hs => absurd hs hslot⟩

theorem quiet (h : t.BookInv) (he : Quiet t t') : t'.BookInv := by
  cases he with
  | sweep he =>
      cases he with
      | bookkeeping hb => exact h.bookkeeping hb
      | freed slot hpins hstate =>
          refine h.makeFree ?_
          rcases hstate with hs | hs <;> rw [hs] <;> decide
  | deliveries hd =>
      cases hd with
      | mk requests hrequests =>
          exact h.keep rfl rfl rfl rfl rfl fun s => ⟨rfl, Iff.rfl, fun _ => rfl⟩
  | started answers slot row hfree habsent => exact h.startFillLocked answers row hfree

/-- A binding with no fills in flight has no filling slot. -/
theorem not_filling_of_binding (h : t.BookInv) {b : BindingId} (hb : (t.bindings b).inFlight = 0)
    (s : cfg.SlotId) (hs : (t.slots s).state = .filling) : (t.slots s).filledThrough ≠ b := by
  intro hthrough
  have hpos := tally_pos (p := Slot.FillingThrough b) (Set.toFinite _) (i := s) ⟨hs, hthrough⟩
  rw [← h.binding, hb] at hpos
  exact absurd hpos (by decide)

/-- A table with no fills in flight has no filling slot. -/
theorem not_filling (h : t.BookInv) (hzero : t.inFlight = 0) (s : cfg.SlotId) :
    (t.slots s).state ≠ .filling := by
  intro hs
  have hpos := tally_pos (p := Slot.Filling) (Set.toFinite _) (i := s) hs
  rw [← h.inFlight, hzero] at hpos
  exact absurd hpos (by decide)

theorem dropRetiring (h : t.BookInv) (hidle : ¬ t.RetiringBusy) : t.dropRetiring.BookInv where
  inFlight := h.inFlight
  binding := h.binding
  names := h.names
  known := fun s hs => by
    refine Or.inl ((h.known s hs).resolve_right fun hretiring => ?_)
    refine h.not_filling_of_binding ?_ s hs rfl
    by_contra hbusy
    exact hidle ⟨_, hretiring, hbusy⟩
  current_lt := h.current_lt
  retiring_lt := fun b hb => by cases hb

theorem installBinding (h : t.BookInv) (hnone : t.retiringBinding = none) (generation : UInt64)
    (sources : List ShardSource) (resolver : RowExtentResolver) :
    (t.installBinding generation sources resolver).BookInv := by
  have hcurrent : ∀ s, (t.slots s).state = .filling →
      (t.slots s).filledThrough = t.currentBinding := fun s hs =>
    (h.known s hs).resolve_right fun hretiring => by rw [hnone] at hretiring; cases hretiring
  refine ⟨h.inFlight, fun b => ?_, h.names, fun s hs => Or.inr ?_, Nat.lt_succ_self _, ?_⟩
  · show ((Function.update t.bindings t.bindingCount _) b).inFlight.toNat = tally _ t.slots
    by_cases hb : b = t.bindingCount
    · subst hb
      rw [Function.update_self]
      refine (tally_eq_zero fun s hs => ?_).symm
      have := (hcurrent s hs.1).symm.trans hs.2
      exact absurd this (Nat.ne_of_lt h.current_lt)
    · rw [Function.update_of_ne hb]
      exact h.binding b
  · exact congrArg some (hcurrent s hs).symm
  · rintro b ⟨⟩
    exact h.current_lt

theorem edit (h : t.BookInv) (he : Edit t t') : t'.BookInv := by
  cases he with
  | quiet he => exact h.quiet he
  | pinned slot => exact h.update rfl rfl rfl rfl rfl rfl rfl Iff.rfl fun _ => rfl
  | unpinned slot => exact h.update rfl rfl rfl rfl rfl rfl rfl Iff.rfl fun _ => rfl
  | dropped hidle => exact h.dropRetiring hidle
  | installed generation sources resolver hnone =>
      exact h.installBinding hnone generation sources resolver

theorem takeOver (h : t.BookInv) (slot : cfg.SlotId) : (t.takeOver slot).BookInv :=
  h.update rfl rfl rfl rfl rfl rfl rfl Iff.rfl fun _ => rfl

theorem relinquish (h : t.BookInv) (slot : cfg.SlotId) : (t.relinquish slot).BookInv :=
  h.update rfl rfl rfl rfl rfl rfl rfl Iff.rfl fun _ => rfl

theorem publish (h : t.BookInv) (hslot : (t.slots slot).state = .filling) (result : Status) :
    (t.publish slot result).BookInv := by
  refine h.ended hslot rfl rfl rfl rfl rfl rfl ?_ rfl
  dsimp only
  split_ifs <;> decide

end BookInv

end Table

namespace World

variable {w w' : World cfg} {action : Action cfg}

/-- Every step keeps the books. -/
theorem bookInv_step (hfill : w.FillInv) (h : w.table.BookInv)
    (hstep : w.step action = some w') : w'.table.BookInv := by
  cases step_move hfill.index hstep with
  | edits htable hlocal hsame => exact htable.invariant (fun _ _ hu hedit => hu.edit hedit) h
  | tookOver g slot hagent hbefore hfilling hunclaimed htable hnow hothers =>
      rw [htable]
      exact h.takeOver slot
  | finishing g slot pc next deadline choice hagent hbefore hfinish hnow hothers =>
      obtain ⟨hfilling, -⟩ := hfill.driven g slot pc hbefore
      have hmove := Table.finishStep_move hfilling hfinish
      generalize w'.table = t' at hmove
      cases hmove with
      | stays next => exact h
      | relinquished hpc => exact h.relinquish slot
      | published result hpc => exact h.publish hfilling result

/-- The books are right in every reachable state. -/
theorem bookInv_of_reachable {h : cfg.Accepted} (hw : Reachable World.step (World.start cfg h) w) :
    w.table.BookInv :=
  hw.invariant_of (fun _ => fillInv_of_reachable) (.create h)
    fun _ _ _ hfill hbook _ hstep => bookInv_step hfill hbook hstep

end World

end TieredCache
