/-
# An `invalidate` that fails

A failed `invalidate` may still have discarded the retiring binding.  Nothing refers to a
binding that is discarded, and no later operation can tell.
-/

import TieredCache.Table.Counters
import TieredCache.Table.Isolation
import TieredCache.Table.Quiescence
import TieredCache.Table.Retirement

namespace TieredCache

open Math.Runs Math.Tally

variable {cfg : TableConfig}

namespace Table

variable {t : Table cfg}

/-- Where the books are right without the retiring binding, it has no fills in flight. -/
theorem BookInv.idle_of_dropRetiring (h : t.BookInv) (hdropped : t.dropRetiring.BookInv) :
    ¬ t.RetiringBusy := by
  rintro ⟨b, hb, hne⟩
  have hlt := h.retiring_lt b hb
  have hnone : tally (Slot.FillingThrough b) t.slots = 0 := by
    apply tally_eq_zero
    rintro s ⟨hfilling, hthrough⟩
    rcases hdropped.known s hfilling with hcurrent | hretiring
    · exact absurd (hthrough.symm.trans hcurrent) (Nat.ne_of_lt hlt)
    · cases hretiring
  rw [← h.binding b] at hnone
  exact hne (UInt32.toNat_inj.mp hnone)

/-! ## The answer -/

/-- The shards `make_binding` accepts. -/
def WellFormed (sources : List ShardSource) : Prop := sources ≠ [] ∧ ∀ shard ∈ sources, shard.bytes ≠ 0

variable {creation : MemStatus} {generation : UInt64} {sources : List ShardSource}
  {resolver : Option RowExtentResolver}

theorem not_retiringBusy_dropRetiring (t : Table cfg) : ¬ t.dropRetiring.RetiringBusy := by
  rintro ⟨b, hb, -⟩
  cases hb

/-- An `invalidate` answers the same once an idle retiring binding has been discarded. -/
theorem invalidate_dropRetiring (hidle : ¬ t.RetiringBusy) :
    (t.dropRetiring.invalidate creation generation sources resolver).1 =
        (t.invalidate creation generation sources resolver).1 ∧
      ((t.dropRetiring.invalidate creation generation sources resolver).2 =
          (t.invalidate creation generation sources resolver).2 ∨
        (t.invalidate creation generation sources resolver).2 = t ∧
          (t.dropRetiring.invalidate creation generation sources resolver).2 = t.dropRetiring) := by
  unfold invalidate
  rw [if_neg hidle, if_neg t.not_retiringBusy_dropRetiring]
  split_ifs
  · exact ⟨rfl, Or.inr ⟨rfl, rfl⟩⟩
  · exact ⟨rfl, Or.inr ⟨rfl, rfl⟩⟩
  · exact ⟨rfl, Or.inl rfl⟩
  · exact ⟨rfl, Or.inl rfl⟩

end Table

/-! ## Later operations -/

namespace World

variable {w w' : World cfg} {action : Action cfg}

/-- The second state is the first, or the first without its retiring binding, which has no
fills in flight. -/
inductive Discards (w : World cfg) : World cfg → Prop
  | same : Discards w w
  | dropped (hfill : w.FillInv) (hbooks : w.table.BookInv) (hidle : ¬ w.table.RetiringBusy) :
      Discards w w.dropRetiring

/-- Whatever happens next happens in both states. -/
theorem Discards.step (h : Discards w w') (action : Action cfg) :
    Option.Rel Discards (w.step action) (w'.step action) := by
  cases h with
  | same =>
      cases w.step action with
      | none => exact .none
      | some next => exact .some .same
  | dropped hfill hbooks hidle =>
      by_cases hrebinds : action.Rebinds
      · cases action with
        | invalidate creation generation sources resolver =>
            simp only [World.step, show w.dropRetiring.crashed = w.crashed from rfl, act]
            split_ifs
            · exact .none
            · refine .some ?_
              have hinvalidated := (@Table.invalidate_dropRetiring _ _ creation generation sources resolver
                hidle).2
              rcases hinvalidated with hsame | ⟨hkept, hdropped⟩
              · rw [dropRetiring_table, hsame]
                exact .same
              · rw [dropRetiring_table, hkept, hdropped]
                exact .dropped hfill hbooks hidle
        | _ => exact hrebinds.elim
      · have hsimulated := w.step_dropRetiring hrebinds
        rw [hsimulated]
        cases hstep : w.step action with
        | none => exact .none
        | some next =>
            rw [hstep] at hsimulated
            have hdropped : Table.Edit w.table w.dropRetiring.table := .dropped hidle
            have hfill' : w.dropRetiring.FillInv := hfill.edits (.single hdropped) fun _ => rfl
            have hbooks' := bookInv_step hfill hbooks hstep
            exact .some (.dropped (hfill.step hstep) hbooks'
              (hbooks'.idle_of_dropRetiring (bookInv_step hfill' (hbooks.edit hdropped) hsimulated)))

end World

end TieredCache
