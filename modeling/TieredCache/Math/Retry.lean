/-
# Bounded retries

Attempts are made one after the other, each from the state the one before it left, until an
outcome is final or no retry is left.  The attempts made are those up to the first final
outcome, or up to the bound.
-/

import Mathlib

namespace TieredCache.Math.Retry

universe u v

variable {S : Type u} {R : Type v}

/-! ## The first index -/

open Classical in
/-- The first index at which something holds, infinite if there is none. -/
noncomputable def first (p : ℕ → Prop) : ℕ∞ := if h : ∃ n, p n then (Nat.find h : ℕ∞) else ⊤

theorem first_eq_coe_iff {p : ℕ → Prop} {n : ℕ} : first p = n ↔ p n ∧ ∀ j < n, ¬ p j := by
  classical
  unfold first
  split_ifs with h
  · rw [Nat.cast_inj, Nat.find_eq_iff]
  · constructor
    · intro htop
      exact absurd htop (ENat.top_ne_natCast n)
    · rintro ⟨hn, -⟩
      exact absurd ⟨n, hn⟩ h

theorem first_eq_top_iff {p : ℕ → Prop} : first p = ⊤ ↔ ∀ n, ¬ p n := by
  unfold first
  split_ifs with h
  · constructor
    · intro htop
      exact absurd htop (ENat.natCast_ne_top _)
    · intro hnone
      exact absurd h (not_exists.mpr hnone)
  · simpa using h

/-- Nothing holds before the first index. -/
theorem not_of_lt_first {p : ℕ → Prop} {n : ℕ} (h : (n : ℕ∞) < first p) : ¬ p n := by
  cases hfirst : first p with
  | top => exact first_eq_top_iff.mp hfirst n
  | coe k =>
      rw [hfirst, Nat.cast_lt] at h
      exact (first_eq_coe_iff.mp hfirst).2 n h

/-! ## The loop -/

/-- The attempts of a loop: the outcomes before the last, the last one and the state it left. -/
structure Made (R : Type v) (S : Type u) where
  earlier : List R
  last : R
  state : S

/-- How many attempts were made. -/
def Made.count (made : Made R S) : ℕ := made.earlier.length + 1

/-- The attempts from one number on, with so many retries left. -/
def run (attempt : ℕ → S → R × S) (final : R → Prop) [DecidablePred final] :
    ℕ → ℕ → S → Made R S
  | left, n, s =>
      let (outcome, s) := attempt n s
      if final outcome then ⟨[], outcome, s⟩
      else
        match left with
        | 0 => ⟨[], outcome, s⟩
        | left + 1 =>
            let made := run attempt final left (n + 1) s
            { made with earlier := outcome :: made.earlier }

/-- The states before the attempts, were all of them made. -/
def stateAt (attempt : ℕ → S → R × S) (s : S) : ℕ → S
  | 0 => s
  | n + 1 => (attempt n (stateAt attempt s n)).2

/-- The outcomes of the attempts, were all of them made. -/
def outcomeAt (attempt : ℕ → S → R × S) (s : S) (n : ℕ) : R := (attempt n (stateAt attempt s n)).1

section Law

variable {attempt : ℕ → S → R × S} {final : R → Prop} [DecidablePred final] {s : S}
  {left n m : ℕ}

/-- One turn of the loop. -/
theorem run_eq_turn : run attempt final left n s =
    if final (attempt n s).1 then ⟨[], (attempt n s).1, (attempt n s).2⟩
    else
      match left with
      | 0 => ⟨[], (attempt n s).1, (attempt n s).2⟩
      | left + 1 =>
          { run attempt final left (n + 1) (attempt n s).2 with
            earlier := (attempt n s).1 :: (run attempt final left (n + 1) (attempt n s).2).earlier } := by
  cases left <;> rfl

/-- The loop makes the attempts up to the first final outcome, or up to the bound. -/
theorem run_eq (hbound : m ≤ left) (hbefore : ∀ j < m, ¬ final (outcomeAt attempt s (n + j)))
    (hstop : final (outcomeAt attempt s (n + m)) ∨ m = left) :
    run attempt final left n (stateAt attempt s n) =
      ⟨(List.range m).map fun j => outcomeAt attempt s (n + j), outcomeAt attempt s (n + m),
        stateAt attempt s (n + m + 1)⟩ := by
  induction m generalizing left n with
  | zero =>
      rw [run_eq_turn]
      cases left with
      | zero => exact ite_self _
      | succ left => exact if_pos (hstop.resolve_right (Nat.succ_ne_zero left).symm)
  | succ m ih =>
      obtain ⟨left, rfl⟩ : ∃ rest, left = rest + 1 := ⟨left - 1, by omega⟩
      have hgoes : ¬ final (attempt n (stateAt attempt s n)).1 := hbefore 0 (Nat.succ_pos m)
      have hrest := ih (n := n + 1) (Nat.le_of_succ_le_succ hbound)
        (fun j hj => by
          rw [Nat.add_assoc, Nat.add_comm 1]
          exact hbefore (j + 1) (Nat.succ_lt_succ hj))
        (by
          rw [Nat.add_assoc, Nat.add_comm 1]
          exact hstop.imp id Nat.succ.inj)
      have hstate : stateAt attempt s (n + 1) = (attempt n (stateAt attempt s n)).2 := rfl
      rw [hstate] at hrest
      rw [run_eq_turn, if_neg hgoes]
      dsimp only
      rw [hrest, List.range_succ_eq_map, List.map_cons, List.map_map]
      have hindex : ∀ j, n + 1 + j = n + (j + 1) := fun j => by omega
      simp only [hindex, Function.comp_def, Nat.succ_eq_add_one]
      rfl

/-- How many attempts the loop makes, and which they are. -/
theorem run_law (attempt : ℕ → S → R × S) (final : R → Prop) [DecidablePred final] (left : ℕ)
    (s : S) :
    ∃ m : ℕ, (m : ℕ∞) = min (first fun n => final (outcomeAt attempt s n)) left ∧
      run attempt final left 0 s =
        ⟨(List.range m).map (outcomeAt attempt s), outcomeAt attempt s m,
          stateAt attempt s (m + 1)⟩ := by
  obtain ⟨m, hm⟩ := ENat.ne_top_iff_exists.mp
    (ne_top_of_le_ne_top (ENat.natCast_ne_top left)
      (min_le_right (first fun n => final (outcomeAt attempt s n)) (left : ℕ∞)))
  refine ⟨m, hm, ?_⟩
  have hbound : m ≤ left := Nat.cast_le.mp (hm.le.trans (min_le_right _ _))
  have hfirst : (m : ℕ∞) ≤ first fun n => final (outcomeAt attempt s n) :=
    hm.le.trans (min_le_left _ _)
  have hbefore : ∀ j < m, ¬ final (outcomeAt attempt s (0 + j)) := by
    intro j hj
    have hlt : (j : ℕ∞) < first fun n => final (outcomeAt attempt s n) :=
      lt_of_lt_of_le (Nat.cast_lt.mpr hj) hfirst
    rw [Nat.zero_add]
    exact not_of_lt_first hlt
  have hstop : final (outcomeAt attempt s (0 + m)) ∨ m = left := by
    rw [Nat.zero_add]
    rcases min_choice (first fun n => final (outcomeAt attempt s n)) (left : ℕ∞) with h | h
    · exact Or.inl (first_eq_coe_iff.mp (h.symm.trans hm.symm)).1
    · exact Or.inr (Nat.cast_inj.mp (hm.trans h))
  simpa only [Nat.zero_add, stateAt] using run_eq hbound hbefore hstop

end Law

end TieredCache.Math.Retry
