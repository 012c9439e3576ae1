/-
# How slots age

Admissions are numbered, and each also moves the epoch of its slot, a 32-bit word.  From one state
to a later one, a slot keeps its admission, or it has been admitted again, some number of times.
-/

import TieredCache.Table.Finishers

namespace TieredCache

open Math.Runs

variable {cfg : TableConfig}

/-- What has become of a slot while the number of admissions went from `n` to `n'`.  A slot that
keeps its admission does not begin to fill, and a free one stays free. -/
inductive Slot.Aged (n n' : ℕ) (s s' : Slot cfg) : Prop
  | kept (hepoch : s'.epoch = s.epoch) (hadmission : s'.admission = s.admission)
      (hkey : s'.key = s.key) (hfilling : s'.state = .filling → s.state = .filling)
      (hfree : s.state = .free → s'.state = .free)
  | readmitted (d : ℕ) (hd : 0 < d) (hepoch : s'.epoch = s.epoch + UInt32.ofNat d)
      (hsince : n + d ≤ s'.admission + 1) (hbound : s'.admission < n')

namespace Table

variable {t t' t'' : Table cfg} {slot s : cfg.SlotId}

/-- The slots of a table age. -/
structure Ages (t t' : Table cfg) : Prop where
  admissions : t.admissions ≤ t'.admissions
  slots : ∀ s, Slot.Aged t.admissions t'.admissions (t.slots s) (t'.slots s)

namespace Ages

theorem refl (t : Table cfg) : Ages t t := ⟨le_rfl, fun _ => .kept rfl rfl rfl id id⟩

theorem trans (h : Ages t t') (h' : Ages t' t'') : Ages t t'' where
  admissions := h.admissions.trans h'.admissions
  slots := fun s => by
    have hle := h.admissions
    have hle' := h'.admissions
    cases h.slots s with
    | kept hepoch hadmission hkey hfilling hfree =>
        cases h'.slots s with
        | kept hepoch' hadmission' hkey' hfilling' hfree' =>
            exact .kept (hepoch'.trans hepoch) (hadmission'.trans hadmission) (hkey'.trans hkey)
              (fun hs => hfilling (hfilling' hs)) (fun hs => hfree' (hfree hs))
        | readmitted d hd hepoch' hsince' hbound' =>
            exact .readmitted d hd (by rw [hepoch', hepoch]) (by omega) hbound'
    | readmitted d hd hepoch hsince hbound =>
        cases h'.slots s with
        | kept hepoch' hadmission' hkey' hfilling' hfree' =>
            exact .readmitted d hd (hepoch'.trans hepoch) (by omega) (by omega)
        | readmitted d' hd' hepoch' hsince' hbound' =>
            refine .readmitted (d + d') (by omega) ?_ (by omega) hbound'
            rw [hepoch', hepoch, UInt32.ofNat_add, UInt32.add_assoc]

/-- Nothing is admitted, and every slot keeps its admission. -/
theorem of_kept (hadmissions : t'.admissions = t.admissions)
    (h : ∀ s, (t'.slots s).epoch = (t.slots s).epoch ∧
      (t'.slots s).admission = (t.slots s).admission ∧ (t'.slots s).key = (t.slots s).key ∧
      ((t'.slots s).state = .filling → (t.slots s).state = .filling) ∧
      ((t.slots s).state = .free → (t'.slots s).state = .free)) : Ages t t' :=
  ⟨hadmissions.ge, fun s =>
    .kept (h s).1 (h s).2.1 (h s).2.2.1 (h s).2.2.2.1 (h s).2.2.2.2⟩

/-- One slot is rewritten and keeps its admission. -/
theorem update (hadmissions : t'.admissions = t.admissions) {s' : Slot cfg}
    (hslots : t'.slots = Function.update t.slots slot s')
    (hepoch : s'.epoch = (t.slots slot).epoch)
    (hadmission : s'.admission = (t.slots slot).admission)
    (hkey : s'.key = (t.slots slot).key)
    (hfilling : s'.state = .filling → (t.slots slot).state = .filling)
    (hfree : (t.slots slot).state = .free → s'.state = .free) : Ages t t' := by
  refine of_kept hadmissions fun s => ?_
  by_cases hs : s = slot
  · subst hs
    rw [hslots, Function.update_self]
    exact ⟨hepoch, hadmission, hkey, hfilling, hfree⟩
  · rw [hslots, Function.update_of_ne hs]
    exact ⟨rfl, rfl, rfl, id, id⟩

/-- A fill that was in flight under an old admission and still is has been in flight. -/
theorem filling (h : Ages t t') (hfilling : (t'.slots s).state = .filling)
    (hold : (t'.slots s).admission < t.admissions) :
    (t.slots s).state = .filling ∧ (t.slots s).admission = (t'.slots s).admission := by
  cases h.slots s with
  | kept hepoch hadmission hkey hstill hfree => exact ⟨hstill hfilling, hadmission.symm⟩
  | readmitted d hd hepoch hsince hbound => omega

end Ages

/-- A slot in use has been admitted. -/
def Numbered (t : Table cfg) : Prop :=
  ∀ s, (t.slots s).state ≠ .free → (t.slots s).admission < t.admissions

theorem Numbered.create (h : cfg.Accepted) : (Table.create cfg h).Numbered :=
  fun _ hs => (hs rfl).elim

theorem Numbered.ages (h : t.Numbered) (hages : Ages t t') : t'.Numbered := by
  intro s hs
  have hle := hages.admissions
  cases hages.slots s with
  | kept hepoch hadmission hkey hfilling hfree =>
      have hold := h s fun hold => hs (hfree hold)
      omega
  | readmitted d hd hepoch hsince hbound => exact hbound

/-- An admission numbers its slot, moves its epoch and gives it the row's key. -/
theorem startFillLocked_admitted (t : Table cfg) (answers : Answers) (slot : cfg.SlotId)
    (row : UInt64) :
    (t.startFillLocked answers slot row).2.admissions = t.admissions + 1 ∧
      ((t.startFillLocked answers slot row).2.slots slot).epoch = (t.slots slot).epoch + 1 ∧
      ((t.startFillLocked answers slot row).2.slots slot).admission = t.admissions ∧
      ((t.startFillLocked answers slot row).2.slots slot).key = (row, t.currentGeneration) := by
  obtain ⟨u, hu, hstart⟩ := t.startFillLocked_cases answers slot row
  have hbegin : (t.beginAdmission slot row).slots slot = _ := Function.update_self ..
  cases hu with
  | mk slots used requests count submits lost claim scratch chunks hother hslot =>
      rw [hbegin] at hslot
      rcases hstart with ⟨length, head, hstart⟩ | ⟨status, -, hstart⟩ <;> rw [hstart]
      all_goals
        refine ⟨rfl, ?_⟩
        dsimp only [commitFill, failFill]
        rw [Function.update_self, hslot]
        exact ⟨rfl, rfl, rfl⟩

theorem startFillLocked_ages (t : Table cfg) (answers : Answers) (slot : cfg.SlotId)
    (row : UInt64) : Ages t (t.startFillLocked answers slot row).2 := by
  obtain ⟨hadmissions, hepoch, hadmission, -⟩ := t.startFillLocked_admitted answers slot row
  refine ⟨by omega, fun s => ?_⟩
  by_cases hs : s = slot
  · subst hs
    exact .readmitted 1 Nat.one_pos hepoch (by omega) (by omega)
  · rw [(t.startFillLocked_frame answers slot row).2 s hs]
    exact .kept rfl rfl rfl id id

theorem Quiet.ages (h : Quiet t t') : Ages t t' := by
  cases h with
  | sweep h =>
      cases h with
      | bookkeeping h =>
          cases h with
          | mk slots tickets waiters hand held counters notifications hslots =>
              refine .of_kept rfl fun s => ?_
              obtain ⟨r, hr⟩ := hslots s
              dsimp only
              rw [hr]
              exact ⟨rfl, rfl, rfl, id, id⟩
      | freed slot hpins hstate => exact .update rfl rfl rfl rfl rfl (fun hs => by cases hs) fun _ => rfl
  | deliveries h =>
      cases h with
      | mk requests h => exact .of_kept rfl fun _ => ⟨rfl, rfl, rfl, id, id⟩
  | started answers slot row hfree habsent => exact t.startFillLocked_ages answers slot row

theorem Quiets.ages (h : Quiets t t') : Ages t t' := by
  induction h with
  | refl => exact .refl t
  | tail _ hlast ih => exact ih.trans hlast.ages

theorem Edits.ages (h : Edits t t') : Ages t t' := by
  induction h with
  | refl => exact .refl t
  | tail _ hlast ih =>
      refine ih.trans ?_
      cases hlast with
      | quiet h => exact h.ages
      | pinned slot => exact .update rfl rfl rfl rfl rfl id id
      | unpinned slot => exact .update rfl rfl rfl rfl rfl id id
      | dropped h => exact .of_kept rfl fun _ => ⟨rfl, rfl, rfl, id, id⟩
      | installed generation sources resolver h => exact .of_kept rfl fun _ => ⟨rfl, rfl, rfl, id, id⟩

end Table

namespace World

variable {w w' : World cfg} {action : Action cfg}

/-- Slots age in every step. -/
theorem step_ages (hfill : w.FillInv) (hstep : w.step action = some w') :
    Table.Ages w.table w'.table := by
  cases step_move hfill.index hstep with
  | edits htable hlocal hsame => exact htable.ages
  | tookOver g slot hagent hbefore hfilling hunclaimed htable hnow hothers =>
      rw [htable]
      exact .update rfl rfl rfl rfl rfl id id
  | finishing g slot pc next deadline choice hagent hbefore hfinish hnow hothers =>
      obtain ⟨hfilling, -⟩ := hfill.driven g slot pc hbefore
      have hmove := Table.finishStep_move hfilling hfinish
      generalize w'.table = t' at hmove
      cases hmove with
      | stays next => exact .refl _
      | relinquished hpc => exact .update rfl rfl rfl rfl rfl id id
      | published result hpc =>
          refine .update rfl rfl rfl rfl rfl (fun _ => hfilling) fun hfree => ?_
          rw [hfilling] at hfree
          cases hfree

theorem numbered_of_reachable {h : cfg.Accepted}
    (hw : Reachable World.step (World.start cfg h) w) : w.table.Numbered :=
  hw.invariant_of (fun _ => fillInv_of_reachable) (Table.Numbered.create h)
    fun _ _ _ hfill hnumbered _ hstep => Table.Numbered.ages hnumbered (step_ages hfill hstep)

end World

end TieredCache
