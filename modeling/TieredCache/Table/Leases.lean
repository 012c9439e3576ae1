/-
# Pins and leases

The pins of a slot count the lease variables that name it, and `pins_total_` counts
them all.  A slot that some variable names is never reclaimed, so its epoch and its key
stay those of the lease.  Pins are 32-bit words: the counts are right as long as fewer
than `2 ^ 32` leases are held.
-/

import TieredCache.Math.Tally
import TieredCache.Math.Words
import TieredCache.Table.Finishers

namespace TieredCache

open Math.Runs Math.Tally Math.Words

variable {cfg : TableConfig}

namespace Table

variable {t t' t'' : Table cfg} {slot : cfg.SlotId}

/-! ## What a held slot keeps -/

/-- The slot still holds the row of the same admission: it may have been filled, and if
its fill had ended it is as it was. -/
structure Carries (s s' : Slot cfg) : Prop where
  epoch : s'.epoch = s.epoch
  key : s'.key = s.key
  through : s'.filledThrough = s.filledThrough
  not_free : s'.state ≠ .free
  ended : s.state ≠ .filling → s'.state = s.state ∧ s'.failure = s.failure ∧
    s'.publishedOffset = s.publishedOffset ∧ s'.publishedBytes = s.publishedBytes

theorem Carries.trans {s s' s'' : Slot cfg} (h : Carries s s') (h' : Carries s' s'') :
    Carries s s'' where
  epoch := h'.epoch.trans h.epoch
  key := h'.key.trans h.key
  through := h'.through.trans h.through
  not_free := h'.not_free
  ended := fun hs => by
    obtain ⟨hstate, hfailure, hoffset, hbytes⟩ := h.ended hs
    obtain ⟨hstate', hfailure', hoffset', hbytes'⟩ := h'.ended (by rwa [hstate])
    exact ⟨hstate'.trans hstate, hfailure'.trans hfailure, hoffset'.trans hoffset,
      hbytes'.trans hbytes⟩

theorem SameFill.carries {s s' : Slot cfg} (h : SameFill s s') (hs : s.state ≠ .free) :
    Carries s s' := by
  obtain ⟨r, p, rfl⟩ := h
  exact ⟨rfl, rfl, rfl, hs, fun _ => ⟨rfl, rfl, rfl, rfl⟩⟩

theorem SameSlot.carries {s s' : Slot cfg} (h : SameSlot s s') (hs : s.state ≠ .free) :
    Carries s s' := by
  obtain ⟨r, rfl⟩ := h
  exact ⟨rfl, rfl, rfl, hs, fun _ => ⟨rfl, rfl, rfl, rfl⟩⟩

theorem Carries.refl {s : Slot cfg} (hs : s.state ≠ .free) : Carries s s :=
  (SameFill.refl s).carries hs

/-- No pin is taken or returned, and pinned slots carry on. -/
structure Keeps (t t' : Table cfg) : Prop where
  total : t'.pinsTotal = t.pinsTotal
  pins : ∀ s, (t'.slots s).pins = (t.slots s).pins
  held : ∀ s, (t.slots s).pins ≠ 0 → (t.slots s).state ≠ .free → Carries (t.slots s) (t'.slots s)

namespace Keeps

theorem refl (t : Table cfg) : Keeps t t := ⟨rfl, fun _ => rfl, fun _ _ hs => .refl hs⟩

theorem trans (h : Keeps t t') (h' : Keeps t' t'') : Keeps t t'' where
  total := h'.total.trans h.total
  pins := fun s => (h'.pins s).trans (h.pins s)
  held := fun s hpins hs => by
    have hcarries := h.held s hpins hs
    refine hcarries.trans (h'.held s ?_ hcarries.not_free)
    rwa [h.pins s]

/-- Quiet edits reclaim no pinned slot. -/
theorem of_quiets (h : Quiets t t') : Keeps t t' := by
  obtain ⟨hframe, hslots⟩ := h.frame
  exact ⟨hframe.pinsTotal, hframe.pins, fun s hpins hs => (hslots s (Or.inr ⟨hpins, hs⟩)).carries hs⟩

/-- A rewrite of one slot that carries it on. -/
theorem update (htotal : t'.pinsTotal = t.pinsTotal) {s' : Slot cfg}
    (hslots : t'.slots = Function.update t.slots slot s') (hpins : s'.pins = (t.slots slot).pins)
    (hcarries : (t.slots slot).state ≠ .free → Carries (t.slots slot) s') : Keeps t t' := by
  refine ⟨htotal, fun s => ?_, fun s _ hs => ?_⟩ <;> rw [hslots]
  · exact proj_update Slot.pins t.slots hpins s
  · by_cases hss : s = slot
    · subst hss
      rw [Function.update_self]
      exact hcarries hs
    · rw [Function.update_of_ne hss]
      exact .refl hs

theorem takeOver (t : Table cfg) (slot : cfg.SlotId) : Keeps t (t.takeOver slot) :=
  .update rfl rfl rfl fun hs => ⟨rfl, rfl, rfl, hs, fun _ => ⟨rfl, rfl, rfl, rfl⟩⟩

theorem relinquish (t : Table cfg) (slot : cfg.SlotId) : Keeps t (t.relinquish slot) :=
  .update rfl rfl rfl fun hs => ⟨rfl, rfl, rfl, hs, fun _ => ⟨rfl, rfl, rfl, rfl⟩⟩

/-- Publishing ends a fill that had not ended before. -/
theorem publish (hfill : (t.slots slot).state = .filling) (result : Status) :
    Keeps t (t.publish slot result) := by
  refine .update rfl rfl rfl fun _ => ⟨rfl, rfl, rfl, ?_, fun h => ?_⟩
  · dsimp only
    split_ifs <;> decide
  · exact absurd hfill h

theorem invalidate (t : Table cfg) (creation : MemStatus) (generation : UInt64)
    (sources : List ShardSource) (resolver : Option RowExtentResolver) :
    Keeps t (t.invalidate creation generation sources resolver).2 := by
  unfold Table.invalidate
  split_ifs
  · exact .refl t
  · exact .refl t
  · exact .refl t
  · exact ⟨rfl, fun _ => rfl, fun _ _ hs => .refl hs⟩
  · exact ⟨rfl, fun _ => rfl, fun _ _ hs => .refl hs⟩

/-- A step of `finish_fill`. -/
theorem finishStep {deadline : Bool} {choice : Choice} {pc : FinishPc} {next : Option FinishPc}
    (hfill : (t.slots slot).state = .filling)
    (h : t.finishStep slot deadline choice pc = some (next, t')) : Keeps t t' := by
  cases finishStep_move hfill h with
  | stays next => exact .refl t
  | relinquished hpc => exact .relinquish t slot
  | published result hpc => exact .publish hfill result

end Keeps

/-- Pinning changes nothing but the pins and the second-chance bit of one slot. -/
theorem pin_sameFill (t : Table cfg) (slot s : cfg.SlotId) :
    SameFill (t.slots s) ((t.pin slot).slots s) := by
  by_cases hs : s = slot
  · subst hs
    exact ⟨_, _, Function.update_self ..⟩
  · exact ⟨_, _, Function.update_of_ne hs ..⟩

theorem unpinLocked_sameFill (t : Table cfg) (slot s : cfg.SlotId) :
    SameFill (t.slots s) ((t.unpinLocked slot).slots s) := by
  by_cases hs : s = slot
  · subst hs
    exact ⟨_, _, Function.update_self ..⟩
  · exact ⟨_, _, Function.update_of_ne hs ..⟩

/-- A step that drives a fill, or none, takes and returns no pins. -/
theorem keeps_of_callMove {before after : Option (cfg.SlotId × FinishPc)}
    (h : World.CallMove Eq t before after t')
    (hdriven : ∀ slot pc, before = some (slot, pc) → (t.slots slot).state = .filling) :
    Keeps t t' := by
  cases h with
  | edits hbefore hafter htable =>
      rw [← htable]
      exact .refl t
  | tookOver slot hbefore hfilling hunclaimed htable hafter =>
      rw [htable]
      exact .takeOver t slot
  | finishing slot pc next deadline choice hbefore hstep hafter =>
      exact .finishStep (hdriven slot pc hbefore) hstep

end Table

/-! ## The invariant on pins -/

/-- The slot a variable's lease names. -/
def slotOf : Option (Lease cfg) → Option cfg.SlotId := Option.map Lease.slot

@[simp]
theorem slotOf_some (l : Lease cfg) : slotOf (some l) = some l.slot := rfl

@[simp]
theorem slotOf_none : slotOf (none : Option (Lease cfg)) = none := rfl

namespace World

variable {w w' : World cfg} {v : LeaseVar} {l : Lease cfg}

/-- How many variables hold a lease on the slot. -/
noncomputable def holders (w : World cfg) (slot : cfg.SlotId) : ℕ :=
  tally (fun b => slotOf b = some slot) w.leases

/-- How many variables hold a lease. -/
noncomputable def held (w : World cfg) : ℕ := tally (fun b => (slotOf b).isSome) w.leases

/-- The slot of a lease is still the one the lease was taken on. -/
structure Names (t : Table cfg) (l : Lease cfg) : Prop where
  epoch : (t.slots l.slot).epoch = l.epoch
  key : (t.slots l.slot).key = (l.rowIndex, l.generation)
  through : (t.slots l.slot).filledThrough = l.through
  not_free : (t.slots l.slot).state ≠ .free

theorem Names.sameFill {t t' : Table cfg} (h : Names t l)
    (hslot : Table.SameFill (t.slots l.slot) (t'.slots l.slot)) : Names t' l := by
  obtain ⟨r, p, hr⟩ := hslot
  constructor <;> rw [hr]
  · exact h.epoch
  · exact h.key
  · exact h.through
  · exact h.not_free

/-- Pins count lease variables, every lease is in one variable or released once, and the
slots of leases are still theirs. -/
structure PinInv (w : World cfg) : Prop where
  finite : {v | (slotOf (w.leases v)).isSome}.Finite
  pins : ∀ slot, (w.table.slots slot).pins.toNat = w.holders slot
  total : w.table.pinsTotal.toNat = w.held
  live : w.held + w.released.length = w.granted
  names : ∀ v l, w.leases v = some l → Names w.table l
  id_lt : ∀ v l, w.leases v = some l → l.id < w.granted
  distinct : ∀ v v' l l', w.leases v = some l → w.leases v' = some l' → l.id = l'.id → v = v'
  accounted : ∀ id < w.granted, id ∈ w.released ∨ ∃ v l, w.leases v = some l ∧ l.id = id
  not_released : ∀ v l, w.leases v = some l → l.id ∉ w.released
  released_lt : ∀ id ∈ w.released, id < w.granted
  released_nodup : w.released.Nodup

namespace PinInv

theorem finite_slot (h : w.PinInv) (slot : cfg.SlotId) :
    {v | slotOf (w.leases v) = some slot}.Finite :=
  h.finite.subset fun v hv => by
    rw [Set.mem_ofPred_eq] at hv ⊢
    rw [hv]
    rfl

/-- The slot a variable names is pinned. -/
theorem pinned (h : w.PinInv) (hv : w.leases v = some l) :
    0 < (w.table.slots l.slot).pins.toNat := by
  rw [h.pins]
  refine tally_pos (h.finite_slot l.slot) (i := v) ?_
  rw [hv]
  rfl

theorem pins_ne (h : w.PinInv) (hv : w.leases v = some l) :
    (w.table.slots l.slot).pins ≠ 0 := fun hzero => by
  have hpos := h.pinned hv
  rw [hzero] at hpos
  exact absurd hpos (by decide)

/-- `pins_total_` is the sum of the pins. -/
theorem total_eq_sum (h : w.PinInv) :
    w.table.pinsTotal.toNat = ∑ slot, (w.table.slots slot).pins.toNat := by
  rw [h.total, held, ← sum_tally slotOf h.finite]
  exact Finset.sum_congr rfl fun slot _ => (h.pins slot).symm

/-- A release finds the epoch it expects and a pin to return. -/
theorem releaseLease_isSome (h : w.PinInv) (hv : w.leases v = some l) :
    w.table.releaseLease l.slot l.epoch = some (w.table.unpinLocked l.slot) := by
  unfold Table.releaseLease
  rw [if_neg]
  rw [not_or, not_not]
  exact ⟨(h.names v l hv).epoch, h.pins_ne hv⟩

theorem start (h : cfg.Accepted) : (World.start cfg h).PinInv where
  finite := by simp [World.start]
  pins := fun slot => (tally_eq_zero fun v hv => by cases hv).symm
  total := (tally_eq_zero fun v hv => by cases hv).symm
  live := by
    rw [held, tally_eq_zero fun v hv => by cases hv]
    rfl
  names := fun v l hv => by cases hv
  id_lt := fun v l hv => by cases hv
  distinct := fun v v' l l' hv => by cases hv
  accounted := fun id hid => absurd hid (Nat.not_lt_zero id)
  not_released := fun v l hv => by cases hv
  released_lt := fun id hid => by cases hid
  released_nodup := List.nodup_nil

/-- The lease of a slot that carries on still names it. -/
theorem names_of_keeps (h : w.PinInv) {t : Table cfg} (htable : Table.Keeps w.table t)
    (hv : w.leases v = some l) : Names t l := by
  have hnames := h.names v l hv
  have hcarries := htable.held l.slot (h.pins_ne hv) hnames.not_free
  exact ⟨hcarries.epoch.trans hnames.epoch, hcarries.key.trans hnames.key,
    hcarries.through.trans hnames.through, hcarries.not_free⟩

/-- Leases are left alone, and no pin is taken or returned. -/
theorem keep (h : w.PinInv) (htable : Table.Keeps w.table w'.table)
    (hleases : w'.leases = w.leases) (hgranted : w'.granted = w.granted)
    (hreleased : w'.released = w.released) : w'.PinInv where
  finite := by
    rw [hleases]
    exact h.finite
  pins := fun slot => by
    rw [htable.pins, h.pins, holders, holders, hleases]
  total := by
    rw [htable.total, h.total, held, held, hleases]
  live := by
    rw [held, hleases, hreleased, hgranted]
    exact h.live
  names := fun v l hv => by
    rw [hleases] at hv
    exact h.names_of_keeps htable hv
  id_lt := by
    rw [hleases, hgranted]
    exact h.id_lt
  distinct := by
    rw [hleases]
    exact h.distinct
  accounted := by
    rw [hleases, hgranted, hreleased]
    exact h.accounted
  not_released := by
    rw [hleases, hreleased]
    exact h.not_released
  released_lt := by
    rw [hreleased, hgranted]
    exact h.released_lt
  released_nodup := by
    rw [hreleased]
    exact h.released_nodup

/-! ### Taking and returning a lease -/

/-- `RowLease::reset` returns the pin of a held lease. -/
theorem resetLease_some (h : w.PinInv) (hv : w.leases v = some l) :
    w.resetLease v =
      { w with
        table := w.table.unpinLocked l.slot
        leases := Function.update w.leases v none
        released := l.id :: w.released } := by
  unfold resetLease
  rw [hv]
  dsimp only
  rw [h.releaseLease_isSome hv]

theorem resetLease_none (hv : w.leases v = none) : w.resetLease v = w := by
  unfold resetLease
  rw [hv]

/-- A reset leaves its variable empty, and no other variable changes. -/
theorem resetLease_leases (h : w.PinInv) (v : LeaseVar) :
    (w.resetLease v).leases = Function.update w.leases v none := by
  cases hv : w.leases v with
  | none => rw [resetLease_none hv, ← hv, Function.update_eq_self]
  | some l => rw [h.resetLease_some hv]

/-- A variable whose lease goes counts no more. -/
theorem holders_update_none (h : w.PinInv) (hv : w.leases v = some l) (slot : cfg.SlotId) :
    tally (fun b => slotOf b = some slot) (Function.update w.leases v none) +
        (if slot = l.slot then 1 else 0) = w.holders slot := by
  split_ifs with hslot
  · subst hslot
    exact tally_update_loss (p := fun b => slotOf b = some l.slot) (h.finite_slot l.slot)
      (by rw [hv]; rfl) (by simp)
  · refine tally_update_same (p := fun b => slotOf b = some slot) (f := w.leases) ?_
    rw [hv, slotOf_none, slotOf_some, Option.some.injEq]
    exact ⟨fun h => (by cases h), fun h => absurd h.symm hslot⟩

theorem held_update_none (h : w.PinInv) (hv : w.leases v = some l) :
    tally (fun b => (slotOf b).isSome) (Function.update w.leases v none) + 1 = w.held :=
  tally_update_loss (p := fun b => (slotOf b).isSome) h.finite (by rw [hv]; rfl) (by simp)

/-- Resetting a variable keeps the invariant. -/
theorem reset (h : w.PinInv) (v : LeaseVar) : (w.resetLease v).PinInv := by
  cases hv : w.leases v with
  | none =>
      rw [resetLease_none hv]
      exact h
  | some l =>
      rw [h.resetLease_some hv]
      have hback : ∀ v' l', Function.update w.leases v none v' = some l' →
          w.leases v' = some l' ∧ v' ≠ v := by
        intro v' l' hv'
        by_cases hne : v' = v
        · subst hne
          rw [Function.update_self] at hv'
          cases hv'
        · rw [Function.update_of_ne hne] at hv'
          exact ⟨hv', hne⟩
      have hheld := h.held_update_none hv
      refine
        { finite := finite_update (p := fun b => (slotOf b).isSome) h.finite v none
          pins := fun slot => ?_
          total := ?_
          live := ?_
          names := fun v' l' hv' => ?_
          id_lt := fun v' l' hv' => h.id_lt v' l' (hback v' l' hv').1
          distinct := fun v₁ v₂ l₁ l₂ h₁ h₂ => h.distinct v₁ v₂ l₁ l₂ (hback _ _ h₁).1 (hback _ _ h₂).1
          accounted := fun id hid => ?_
          not_released := fun v' l' hv' => ?_
          released_lt := fun id hid => ?_
          released_nodup := ?_ }
      · have hholders := h.holders_update_none hv slot
        rw [← h.pins] at hholders
        show ((Function.update w.table.slots l.slot _) slot).pins.toNat =
          tally (fun b => slotOf b = some slot) (Function.update w.leases v none)
        by_cases hslot : slot = l.slot
        · subst hslot
          rw [if_pos rfl] at hholders
          rw [Function.update_self, toNat_pred (h.pinned hv)]
          omega
        · rw [if_neg hslot, Nat.add_zero] at hholders
          rw [Function.update_of_ne hslot]
          exact hholders.symm
      · have hpos : 0 < w.table.pinsTotal.toNat := by
          rw [h.total]
          omega
        show (w.table.pinsTotal - 1).toNat =
          tally (fun b => (slotOf b).isSome) (Function.update w.leases v none)
        rw [toNat_pred hpos, h.total]
        omega
      · have hlive := h.live
        show tally (fun b => (slotOf b).isSome) (Function.update w.leases v none) +
          (l.id :: w.released).length = w.granted
        rw [List.length_cons]
        omega
      · exact (h.names v' l' (hback v' l' hv').1).sameFill (w.table.unpinLocked_sameFill _ _)
      · rcases h.accounted id hid with hrel | ⟨v', l', hv', hl'⟩
        · exact Or.inl (List.mem_cons_of_mem _ hrel)
        · by_cases hne : v' = v
          · subst hne
            rw [hv] at hv'
            cases hv'
            exact Or.inl (List.mem_cons.mpr (Or.inl hl'.symm))
          · exact Or.inr ⟨v', l', (Function.update_of_ne hne ..).trans hv', hl'⟩
      · obtain ⟨hold, hne⟩ := hback v' l' hv'
        rw [List.mem_cons, not_or]
        exact ⟨fun hid => hne (h.distinct v' v l' l hold hv hid), h.not_released v' l' hold⟩
      · rcases List.mem_cons.mp hid with rfl | hid
        · exact h.id_lt v l hv
        · exact h.released_lt id hid
      · exact List.nodup_cons.mpr ⟨h.not_released v l hv, h.released_nodup⟩

/-- One more variable holds a lease. -/
theorem held_grant (h : w.PinInv) (hv : w.leases v = none) (slot : cfg.SlotId) (row : UInt64)
    (bytes : ByteRange) : (w.grant v slot row bytes).held = w.held + 1 :=
  tally_update_gain (p := fun b => (slotOf b).isSome) h.finite (by simp [hv]) rfl

/-- Pinning a slot for an empty variable keeps the invariant, while fewer than `2 ^ 32`
leases are held. -/
theorem grant (h : w.PinInv) (hv : w.leases v = none) {slot : cfg.SlotId} {row : UInt64}
    (bytes : ByteRange) (hroom : w.held + 1 < 2 ^ 32)
    (hstate : (w.table.slots slot).state ≠ .free) (hrow : (w.table.slots slot).rowIndex = row) :
    (w.grant v slot row bytes).PinInv := by
  have hheld := h.held_grant hv slot row bytes
  have hback : ∀ v' l', (w.grant v slot row bytes).leases v' = some l' →
      (w.leases v' = some l' ∧ v' ≠ v) ∨
        (v' = v ∧ l' = ⟨slot, (w.table.slots slot).epoch, bytes, row,
          (w.table.slots slot).rowGeneration, w.granted, (w.table.slots slot).filledThrough⟩) := by
    intro v' l' hv'
    by_cases hne : v' = v
    · subst hne
      rw [show (w.grant v' slot row bytes).leases v' = _ from Function.update_self ..] at hv'
      exact Or.inr ⟨rfl, (Option.some.inj hv').symm⟩
    · rw [show (w.grant v slot row bytes).leases v' = _ from Function.update_of_ne hne ..] at hv'
      exact Or.inl ⟨hv', hne⟩
  refine
    { finite := finite_update (p := fun b => (slotOf b).isSome) h.finite v _
      pins := fun s => ?_
      total := ?_
      live := ?_
      names := fun v' l' hv' => ?_
      id_lt := fun v' l' hv' => ?_
      distinct := fun v₁ v₂ l₁ l₂ h₁ h₂ hid => ?_
      accounted := fun id hid => ?_
      not_released := fun v' l' hv' => ?_
      released_lt := fun id hid => Nat.lt_succ_of_lt (h.released_lt id hid)
      released_nodup := h.released_nodup }
  · show ((Function.update w.table.slots slot _) s).pins.toNat =
      tally (fun b => slotOf b = some s) (Function.update w.leases v (some _))
    have hpins := h.pins s
    unfold holders at hpins
    by_cases hs : s = slot
    · subst hs
      have hle : w.holders s ≤ w.held := by
        apply Set.ncard_le_ncard _ h.finite
        intro v' hv'
        rw [Set.mem_ofPred_eq] at hv' ⊢
        rw [hv']
        rfl
      unfold holders at hle
      rw [Function.update_self, toNat_succ (by omega), hpins]
      exact (tally_update_gain (p := fun b => slotOf b = some s) (h.finite_slot s)
        (by simp [hv]) rfl).symm
    · rw [Function.update_of_ne hs, hpins]
      refine (tally_update_same ?_).symm
      rw [hv, slotOf_none, slotOf_some, Option.some.injEq]
      exact ⟨fun heq => absurd heq.symm hs, fun heq => by cases heq⟩
  · show (w.table.pinsTotal + 1).toNat = _
    rw [hheld, toNat_succ (by rw [h.total]; exact hroom), h.total]
  · rw [hheld]
    have hlive := h.live
    show w.held + 1 + w.released.length = w.granted + 1
    omega
  · rcases hback v' l' hv' with ⟨hold, -⟩ | ⟨-, rfl⟩
    · exact (h.names v' l' hold).sameFill (w.table.pin_sameFill _ _)
    · refine Names.sameFill (t := w.table) ⟨rfl, ?_, rfl, hstate⟩ (w.table.pin_sameFill _ _)
      rw [← hrow]
      rfl
  · rcases hback v' l' hv' with ⟨hold, -⟩ | ⟨-, rfl⟩
    · exact Nat.lt_succ_of_lt (h.id_lt v' l' hold)
    · exact Nat.lt_succ_self _
  · rcases hback v₁ l₁ h₁ with ⟨hold₁, -⟩ | ⟨rfl, rfl⟩ <;>
      rcases hback v₂ l₂ h₂ with ⟨hold₂, -⟩ | ⟨rfl, rfl⟩
    · exact h.distinct v₁ v₂ l₁ l₂ hold₁ hold₂ hid
    · exact absurd hid (Nat.ne_of_lt (h.id_lt v₁ l₁ hold₁))
    · exact absurd hid.symm (Nat.ne_of_lt (h.id_lt v₂ l₂ hold₂))
    · rfl
  · rcases Nat.lt_succ_iff_lt_or_eq.mp hid with hlt | rfl
    · refine (h.accounted id hlt).imp_right ?_
      rintro ⟨v', l', hv', hl'⟩
      refine ⟨v', l', ?_, hl'⟩
      have hne : v' ≠ v := by
        rintro rfl
        rw [hv] at hv'
        cases hv'
      exact (Function.update_of_ne hne ..).trans hv'
    · exact Or.inr ⟨v, _, Function.update_self .., rfl⟩
  · rcases hback v' l' hv' with ⟨hold, -⟩ | ⟨-, rfl⟩
    · exact h.not_released v' l' hold
    · exact fun hid => Nat.lt_irrefl _ (h.released_lt _ hid)

/-! ### Rearranging leases -/

/-- The leases are rearranged among the variables, or their bytes rewritten, and no
other field has moved.  `back` takes each variable that holds a lease to where it was. -/
theorem rearrange (h : w.PinInv) (htable : w'.table = w.table)
    (hgranted : w'.granted = w.granted) (hreleased : w'.released = w.released)
    (hfinite : {v | (slotOf (w'.leases v)).isSome}.Finite)
    (hholders : ∀ slot, w'.holders slot = w.holders slot) (hheld : w'.held = w.held)
    (back : LeaseVar → LeaseVar)
    (hback : ∀ v l, w'.leases v = some l →
      ∃ l', w.leases (back v) = some l' ∧ l = { l' with bytes := l.bytes })
    (hinj : ∀ v v' l l', w'.leases v = some l → w'.leases v' = some l' → back v = back v' → v = v')
    (hforth : ∀ v l, w.leases v = some l → ∃ v' l', w'.leases v' = some l' ∧ l'.id = l.id) :
    w'.PinInv where
  finite := hfinite
  pins := fun slot => by rw [htable, hholders, h.pins]
  total := by rw [htable, hheld, h.total]
  live := by rw [hheld, hreleased, hgranted, h.live]
  names := fun v l hv => by
    obtain ⟨l', hl', heq⟩ := hback v l hv
    have hnames := h.names _ _ hl'
    rw [htable, heq]
    exact ⟨hnames.epoch, hnames.key, hnames.through, hnames.not_free⟩
  id_lt := fun v l hv => by
    obtain ⟨l', hl', heq⟩ := hback v l hv
    have hlt := h.id_lt _ _ hl'
    rw [heq, hgranted]
    exact hlt
  distinct := fun v₁ v₂ l₁ l₂ h₁ h₂ hid => by
    obtain ⟨l₁', hl₁, heq₁⟩ := hback v₁ l₁ h₁
    obtain ⟨l₂', hl₂, heq₂⟩ := hback v₂ l₂ h₂
    apply hinj v₁ v₂ l₁ l₂ h₁ h₂
    apply h.distinct _ _ _ _ hl₁ hl₂
    rw [heq₁, heq₂] at hid
    exact hid
  accounted := fun id hid => by
    rw [hgranted] at hid
    rw [hreleased]
    refine (h.accounted id hid).imp_right ?_
    rintro ⟨v, l, hv, rfl⟩
    exact hforth v l hv
  not_released := fun v l hv => by
    obtain ⟨l', hl', heq⟩ := hback v l hv
    have hnot := h.not_released _ _ hl'
    rw [heq, hreleased]
    exact hnot
  released_lt := by rw [hreleased, hgranted]; exact h.released_lt
  released_nodup := by rw [hreleased]; exact h.released_nodup

/-- The bytes of a held lease are written. -/
theorem rebytes (h : w.PinInv) (hv : w.leases v = some l) (bytes : ByteRange) :
    ({ w with leases := Function.update w.leases v (some { l with bytes := bytes }) } :
      World cfg).PinInv := by
  have hslots : ∀ v', slotOf (Function.update w.leases v (some { l with bytes := bytes }) v') =
      slotOf (w.leases v') :=
    proj_update slotOf w.leases (by rw [hv]; rfl)
  have hat : ∀ v' l', Function.update w.leases v (some { l with bytes := bytes }) v' = some l' →
      ∃ old, w.leases v' = some old ∧ l' = { old with bytes := l'.bytes } := by
    intro v' l' hv'
    by_cases hne : v' = v
    · subst hne
      rw [Function.update_self] at hv'
      cases hv'
      exact ⟨l, hv, rfl⟩
    · rw [Function.update_of_ne hne] at hv'
      exact ⟨l', hv', rfl⟩
  refine h.rearrange rfl rfl rfl ?_ (fun slot => ?_) ?_ id hat
    (fun v₁ v₂ l₁ l₂ _ _ heq => heq) fun v' l' hv' => ?_
  · simp only [hslots]
    exact h.finite
  · exact tally_congr fun v' => by rw [hslots]
  · exact tally_congr fun v' => by rw [hslots]
  · by_cases hne : v' = v
    · subst hne
      rw [hv] at hv'
      cases hv'
      exact ⟨v', _, Function.update_self .., rfl⟩
    · exact ⟨v', l', (Function.update_of_ne hne ..).trans hv', rfl⟩

/-- A lease is moved into an empty variable. -/
theorem transfer (h : w.PinInv) {source target : LeaseVar} (hne : source ≠ target)
    (hempty : w.leases target = none) :
    ({ w with
      leases := Function.update (Function.update w.leases target (w.leases source)) source none } :
      World cfg).PinInv := by
  cases hsource : w.leases source with
  | none =>
      have hsame : Function.update (Function.update w.leases target none) source none =
          w.leases := by
        funext v
        by_cases hs : v = source
        · rw [hs, Function.update_self, hsource]
        · rw [Function.update_of_ne hs]
          by_cases ht : v = target
          · rw [ht, Function.update_self, hempty]
          · rw [Function.update_of_ne ht]
      rw [hsame]
      exact h
  | some l =>
      have hgained : Function.update w.leases target (some l) source = some l := by
        rw [Function.update_of_ne hne, hsource]
      -- The count goes up at the target and down at the source.
      have hcount : ∀ p : Option (Lease cfg) → Prop, {v | p (w.leases v)}.Finite → ¬ p none →
          tally p (Function.update (Function.update w.leases target (some l)) source none) =
            tally p w.leases := by
        intro p hfin hnone
        by_cases hp : p (some l)
        · have hup := tally_update_gain (i := target) hfin (by rw [hempty]; exact hnone) hp
          have hdown := tally_update_loss (i := source) (finite_update hfin target (some l))
            (by rw [hgained]; exact hp) hnone
          omega
        · rw [tally_update_same (by rw [hgained]; exact iff_of_false hnone hp),
            tally_update_same (by rw [hempty]; exact iff_of_false hp hnone)]
      have hat : ∀ v l', Function.update (Function.update w.leases target (some l)) source none v =
          some l' → (v = target ∧ l' = l) ∨ (v ≠ target ∧ v ≠ source ∧ w.leases v = some l') := by
        intro v l' hv
        by_cases hs : v = source
        · rw [hs, Function.update_self] at hv
          cases hv
        · rw [Function.update_of_ne hs] at hv
          by_cases ht : v = target
          · rw [ht, Function.update_self] at hv
            exact Or.inl ⟨ht, (Option.some.inj hv).symm⟩
          · rw [Function.update_of_ne ht] at hv
            exact Or.inr ⟨ht, hs, hv⟩
      refine h.rearrange rfl rfl rfl ?_ (fun slot => ?_) ?_
        (fun v => if v = target then source else v) (fun v l' hv => ?_)
        (fun v₁ v₂ l₁ l₂ h₁ h₂ heq => ?_) fun v l' hv => ?_
      · exact finite_update (p := fun b => (slotOf b).isSome)
          (finite_update (p := fun b => (slotOf b).isSome) h.finite target (some l)) source none
      · exact hcount (fun b => slotOf b = some slot) (h.finite_slot slot) (by simp)
      · exact hcount (fun b => (slotOf b).isSome) h.finite (by simp)
      · rcases hat v l' hv with ⟨rfl, rfl⟩ | ⟨ht, -, hold⟩
        · exact ⟨l', by rw [if_pos rfl]; exact hsource, rfl⟩
        · exact ⟨l', by rw [if_neg ht]; exact hold, rfl⟩
      · rcases hat v₁ l₁ h₁ with ⟨rfl, -⟩ | ⟨ht₁, hs₁, -⟩ <;>
          rcases hat v₂ l₂ h₂ with ⟨rfl, -⟩ | ⟨ht₂, hs₂, -⟩
        · rfl
        · rw [if_pos rfl, if_neg ht₂] at heq
          exact absurd heq.symm hs₂
        · rw [if_neg ht₁, if_pos rfl] at heq
          exact absurd heq hs₁
        · rwa [if_neg ht₁, if_neg ht₂] at heq
      · by_cases hs : v = source
        · subst hs
          rw [hsource] at hv
          cases hv
          refine ⟨target, l, ?_, rfl⟩
          exact (Function.update_of_ne hne.symm ..).trans (Function.update_self ..)
        · have ht : v ≠ target := by
            rintro rfl
            rw [hempty] at hv
            cases hv
          refine ⟨v, l', ?_, rfl⟩
          exact (Function.update_of_ne hs ..).trans ((Function.update_of_ne ht ..).trans hv)

/-- `RowLease::operator=` resets the target and takes the source's lease over. -/
theorem moveLease (h : w.PinInv) (source target : LeaseVar) :
    (w.moveLease source target).PinInv := by
  unfold World.moveLease
  split_ifs with hne
  · exact h
  · refine (h.reset target).transfer hne ?_
    rw [h.resetLease_leases, Function.update_self]

end PinInv

end World

end TieredCache
