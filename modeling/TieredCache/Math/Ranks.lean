/-
# Machines that come to rest

A machine whose moves lower a rank makes no endless run of moves.  The rank of a machine of many
parts is a sum over the parts, taken lexicographically: what is rare comes first, and may raise
what comes after it.
-/

import Mathlib.Algebra.BigOperators.Group.Finset.Piecewise
import Mathlib.Algebra.Order.BigOperators.Group.Finset
import Mathlib.Data.Prod.Lex
import Mathlib.Order.WellFounded

namespace TieredCache.Math.Ranks

universe u v
variable {σ : Type u} {ρ : Type v}

/-- A run of moves that never ends. -/
def Endless (moves : σ → σ → Prop) (s : σ) : Prop :=
  ∃ run : ℕ → σ, run 0 = s ∧ ∀ n, moves (run n) (run (n + 1))

/-- Moves that lower a rank come to an end. -/
theorem not_endless [Preorder ρ] [WellFoundedLT ρ] {moves : σ → σ → Prop} {inv : σ → Prop}
    (rank : σ → ρ) (hinv : ∀ s s', inv s → moves s s' → inv s')
    (hrank : ∀ s s', inv s → moves s s' → rank s' < rank s) {s : σ} (hs : inv s) :
    ¬ Endless moves s := by
  rintro ⟨run, rfl, hrun⟩
  have hall : ∀ n, inv (run n) := by
    intro n
    induction n with
    | zero => exact hs
    | succ n ih => exact hinv _ _ ih (hrun n)
  obtain ⟨n, hn⟩ := WellFounded.not_rel_apply_succ (r := (· < ·)) fun n => rank (run n)
  exact hn (hrank _ _ (hall n) (hrun n))

/-! ## Ranks in three parts -/

/-- Three counts, the first of which matters most. -/
def rank₃ (a b c : ℕ) : ℕ ×ₗ ℕ ×ₗ ℕ := toLex (a, toLex (b, c))

variable {a a' b b' c c' : ℕ}

theorem rank₃_lt_first (ha : a' < a) : rank₃ a' b' c' < rank₃ a b c :=
  Prod.Lex.toLex_lt_toLex.mpr (Or.inl ha)

theorem rank₃_lt_second (ha : a' ≤ a) (hb : b' < b) : rank₃ a' b' c' < rank₃ a b c := by
  rcases ha.lt_or_eq with hlt | rfl
  · exact rank₃_lt_first hlt
  · exact Prod.Lex.toLex_lt_toLex.mpr (Or.inr ⟨rfl, Prod.Lex.toLex_lt_toLex.mpr (Or.inl hb)⟩)

theorem rank₃_lt_third (ha : a' ≤ a) (hb : b' ≤ b) (hc : c' < c) :
    rank₃ a' b' c' < rank₃ a b c := by
  rcases hb.lt_or_eq with hlt | rfl
  · exact rank₃_lt_second ha hlt
  · rcases ha.lt_or_eq with hlt | rfl
    · exact rank₃_lt_first hlt
    · exact Prod.Lex.toLex_lt_toLex.mpr
        (Or.inr ⟨rfl, Prod.Lex.toLex_lt_toLex.mpr (Or.inr ⟨rfl, hc⟩)⟩)

/-! ## Sums over the parts -/

section Sums

variable {ι β : Type*} [DecidableEq ι] {parts : Finset ι} {i : ι} {f : ι → β} {b : β}

/-- One part changes. -/
theorem sum_update (count : β → ℕ) (hi : i ∈ parts) :
    ∑ j ∈ parts, count (Function.update f i b j) + count (f i) =
      ∑ j ∈ parts, count (f j) + count b := by
  have hcomp : (fun j => count (Function.update f i b j)) =
      Function.update (fun j => count (f j)) i (count b) := Function.comp_update count f i b
  rw [hcomp, Finset.sum_update_of_mem hi,
    Finset.sum_eq_add_sum_sdiff_singleton_of_mem hi fun j => count (f j)]
  omega

end Sums

end TieredCache.Math.Ranks
