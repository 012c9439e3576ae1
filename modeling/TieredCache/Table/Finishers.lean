/-
# Finishers

A thread inside `finish_fill` drives a filling slot whose `finishing` flag is set, and
no two threads drive the same slot.  With the index invariant this is inductive over
the steps of the machine.
-/

import TieredCache.Math.Runs
import TieredCache.Table.Step

namespace TieredCache

open Math.Runs

variable {cfg : TableConfig}

namespace Table

variable {t t' : Table cfg} {slot : cfg.SlotId} {next : Option FinishPc} {pc : FinishPc}
  {deadline : Bool} {choice : Choice}

/-- One step of `finish_fill` for a filling slot: the table stays, the slot is
relinquished, or it is published. -/
inductive FinishMove (t : Table cfg) (slot : cfg.SlotId) (pc : FinishPc) :
    Option FinishPc → Table cfg → Prop
  | stays (next : FinishPc) : FinishMove t slot pc (some next) t
  | relinquished (hpc : pc = .timedOut) : FinishMove t slot pc none (t.relinquish slot)
  | published (result : Status) (hpc : pc = .publish result) :
      FinishMove t slot pc none (t.publish slot result)

theorem finishStep_move (hfill : (t.slots slot).state = .filling)
    (h : t.finishStep slot deadline choice pc = some (next, t')) :
    FinishMove t slot pc next t' := by
  cases pc with
  | enter =>
      have h : (if (t.slots slot).state ≠ .filling then some (none, t)
        else some (some (.waiting (t.awaited slot)), t)) = some (next, t') := h
      rw [if_neg (not_not.mpr hfill)] at h
      cases h
      exact .stays _
  | waiting pending =>
      cases pending with
      | nil =>
          cases h
          exact .stays _
      | cons id rest =>
          unfold finishStep at h
          dsimp only at h
          split at h
          · cases h
            exact .stays _
          · cases h
            exact .stays _
          · split_ifs at h
            cases h
            exact .stays _
  | timedOut =>
      cases h
      exact .relinquished rfl
  | convert =>
      cases h
      exact .stays _
  | publish result =>
      cases h
      exact .published result rfl

end Table

namespace World

variable {w w' : World cfg} {action : Action cfg}

/-- The index is right, and every fill being driven is a filling slot taken over by
exactly one agent. -/
structure FillInv (w : World cfg) : Prop where
  index : w.table.IndexInv
  driven : ∀ g slot pc, w.finisher g = some (slot, pc) →
    (w.table.slots slot).state = .filling ∧ (w.table.slots slot).finishing = true
  alone : ∀ g g' slot pc pc', w.finisher g = some (slot, pc) →
    w.finisher g' = some (slot, pc') → g = g'

namespace FillInv

theorem start (h : cfg.Accepted) : (World.start cfg h).FillInv where
  index := .create h
  driven := fun g slot pc hg => by cases g <;> cases hg
  alone := fun g g' slot pc pc' hg => by cases g <;> cases hg

/-- Edits leave every driven fill in place. -/
theorem edits (h : w.FillInv) (htable : Table.Edits w.table w'.table)
    (hsame : ∀ g, w'.finisher g = w.finisher g) : w'.FillInv where
  index := h.index.edits htable
  driven := fun g slot pc hg => by
    rw [hsame] at hg
    obtain ⟨hfill, hfinishing⟩ := h.driven g slot pc hg
    obtain ⟨r, p, hslot⟩ := htable.sameFill hfill
    rw [hslot]
    exact ⟨hfill, hfinishing⟩
  alone := fun g g' slot pc pc' hg hg' => by
    rw [hsame] at hg hg'
    exact h.alone g g' slot pc pc' hg hg'

/-- An agent takes over a slot nobody drives. -/
theorem tookOver (h : w.FillInv) {g : Option ThreadId} {slot : cfg.SlotId}
    (hfilling : (w.table.slots slot).state = .filling)
    (hunclaimed : (w.table.slots slot).finishing = false)
    (htable : w'.table = w.table.takeOver slot) (hnow : w'.finisher g = some (slot, .enter))
    (hothers : ∀ k, k ≠ g → w'.finisher k = w.finisher k) : w'.FillInv := by
  have hfree : ∀ k pc, k ≠ g → w'.finisher k ≠ some (slot, pc) := by
    intro k pc hk hdrives
    rw [hothers k hk] at hdrives
    have := (h.driven k slot pc hdrives).2
    rw [hunclaimed] at this
    cases this
  refine ⟨by rw [htable]; exact h.index.takeOver slot, ?_, ?_⟩
  · intro k s pc hk
    rw [htable]
    show ((Function.update w.table.slots slot _) s).state = _ ∧
      ((Function.update w.table.slots slot _) s).finishing = _
    by_cases hs : s = slot
    · subst hs
      rw [Function.update_self]
      exact ⟨hfilling, rfl⟩
    · rw [Function.update_of_ne hs]
      by_cases hkg : k = g
      · subst hkg
        rw [hnow] at hk
        cases hk
        exact absurd rfl hs
      · rw [hothers k hkg] at hk
        exact h.driven k s pc hk
  · intro k k' s pc pc' hk hk'
    by_cases hkg : k = g <;> by_cases hkg' : k' = g
    · rw [hkg, hkg']
    · subst hkg
      rw [hnow] at hk
      cases hk
      exact absurd hk' (hfree k' pc' hkg')
    · subst hkg'
      rw [hnow] at hk'
      cases hk'
      exact absurd hk (hfree k pc hkg)
    · rw [hothers k hkg] at hk
      rw [hothers k' hkg'] at hk'
      exact h.alone k k' s pc pc' hk hk'

/-- The agent of a slot leaves it, and the slot is rewritten. -/
theorem left (h : w.FillInv) {g : Option ThreadId} {slot : cfg.SlotId} {pc : FinishPc}
    (hbefore : w.finisher g = some (slot, pc)) (hindex : w'.table.IndexInv)
    (hslots : ∀ s, s ≠ slot → w'.table.slots s = w.table.slots s)
    (hnow : w'.finisher g = none)
    (hothers : ∀ k, k ≠ g → w'.finisher k = w.finisher k) : w'.FillInv := by
  have hne : ∀ k s pc', w'.finisher k = some (s, pc') → k ≠ g ∧ s ≠ slot := by
    intro k s pc' hk
    have hkg : k ≠ g := by
      rintro rfl
      rw [hnow] at hk
      cases hk
    refine ⟨hkg, ?_⟩
    rintro rfl
    rw [hothers k hkg] at hk
    exact hkg (h.alone k g s pc' pc hk hbefore)
  refine ⟨hindex, fun k s pc' hk => ?_, fun k k' s pc' pc'' hk hk' => ?_⟩
  · obtain ⟨hkg, hs⟩ := hne k s pc' hk
    rw [hothers k hkg] at hk
    rw [hslots s hs]
    exact h.driven k s pc' hk
  · rw [hothers k (hne k s pc' hk).1] at hk
    rw [hothers k' (hne k' s pc'' hk').1] at hk'
    exact h.alone k k' s pc' pc'' hk hk'

/-- The agent of a slot goes on. -/
theorem goesOn (h : w.FillInv) {g : Option ThreadId} {slot : cfg.SlotId} {pc next : FinishPc}
    (hbefore : w.finisher g = some (slot, pc)) (htable : w'.table = w.table)
    (hnow : w'.finisher g = some (slot, next))
    (hothers : ∀ k, k ≠ g → w'.finisher k = w.finisher k) : w'.FillInv := by
  have hback : ∀ k s pc', w'.finisher k = some (s, pc') → ∃ pc'', w.finisher k = some (s, pc'') := by
    intro k s pc' hk
    by_cases hkg : k = g
    · subst hkg
      rw [hnow] at hk
      cases hk
      exact ⟨pc, hbefore⟩
    · rw [hothers k hkg] at hk
      exact ⟨pc', hk⟩
  refine ⟨by rw [htable]; exact h.index, fun k s pc' hk => ?_, fun k k' s pc' pc'' hk hk' => ?_⟩
  · obtain ⟨old, hold⟩ := hback k s pc' hk
    rw [htable]
    exact h.driven k s old hold
  · obtain ⟨old, hold⟩ := hback k s pc' hk
    obtain ⟨old', hold'⟩ := hback k' s pc'' hk'
    exact h.alone k k' s old old' hold hold'

/-- Every step keeps the invariant. -/
theorem step (h : w.FillInv) (hstep : w.step action = some w') : w'.FillInv := by
  cases step_move h.index hstep with
  | edits htable hlocal hsame => exact h.edits htable hsame
  | tookOver g slot hagent hbefore hfilling hunclaimed htable hnow hothers =>
      exact h.tookOver hfilling hunclaimed htable hnow hothers
  | finishing g slot pc next deadline choice hagent hbefore hfinish hnow hothers =>
      obtain ⟨hfill, hfinishing⟩ := h.driven g slot pc hbefore
      have hmove := Table.finishStep_move hfill hfinish
      generalize htable : w'.table = t' at hmove
      cases hmove with
      | stays next => exact h.goesOn hbefore htable hnow hothers
      | relinquished hpc =>
          refine h.left hbefore ?_ ?_ hnow hothers <;> rw [htable]
          · exact h.index.relinquish slot
          · exact fun s hs => Function.update_of_ne hs _ _
      | published result hpc =>
          refine h.left hbefore ?_ ?_ hnow hothers <;> rw [htable]
          · exact h.index.publish hfill result
          · exact fun s hs => Function.update_of_ne hs _ _

end FillInv

/-- The invariant holds in every reachable state. -/
theorem fillInv_of_reachable {h : cfg.Accepted} (hw : Reachable World.step (World.start cfg h) w) :
    w.FillInv :=
  hw.invariant (.start h) fun _ _ _ hinv _ hstep => hinv.step hstep

end World

end TieredCache
