/-
# Folds that keep states apart

A fold whose step is injective, in the state and in the item, ends in different states for
two lists that differ in one place.  The steps before that place lead to one state, the
step there to two, and the steps after it never merge them.
-/

import Mathlib.Data.List.Basic
import Mathlib.Logic.Function.Basic

namespace TieredCache.Math.Folds

universe u v

variable {A : Type u} {B : Type v} {step : A → B → A}

/-- Lists of one length that differ in exactly one place. -/
def DifferOnce (first second : List B) : Prop :=
  first.length = second.length ∧ ∃! i : ℕ, first[i]? ≠ second[i]?

/-- Another item in one place. -/
theorem differOnce_set {items : List B} {i : ℕ} {item : B} (hi : i < items.length)
    (hne : items[i]? ≠ some item) : DifferOnce items (items.set i item) := by
  refine ⟨by simp, i, ?_, fun j hj => ?_⟩
  · simpa [hi] using hne
  · by_contra hji
    exact hj (by simp [List.getElem?_set_ne (Ne.symm hji)])

/-- Equal items do not matter. -/
theorem DifferOnce.tail {item : B} {first second : List B}
    (h : DifferOnce (item :: first) (item :: second)) : DifferOnce first second := by
  obtain ⟨hlength, i, hi, hunique⟩ := h
  cases i with
  | zero => exact absurd rfl hi
  | succ i =>
      refine ⟨by simpa using hlength, i, by simpa using hi, fun j hj => ?_⟩
      simpa using hunique (j + 1) (by simpa using hj)

/-- Different items are the only difference. -/
theorem DifferOnce.tail_eq {x y : B} {first second : List B} (hne : x ≠ y)
    (h : DifferOnce (x :: first) (y :: second)) : first = second := by
  obtain ⟨-, i, -, hunique⟩ := h
  have hzero : 0 = i := hunique 0 (by simpa using hne)
  ext1 j
  by_contra hj
  have hsucc : j + 1 = i := hunique (j + 1) (by simpa using hj)
  omega

/-- Steps that never merge two states do not merge them in a row. -/
theorem foldl_injective (hstate : ∀ item, Function.Injective fun state => step state item)
    (items : List B) : Function.Injective fun state => items.foldl step state := by
  induction items with
  | nil => exact Function.injective_id
  | cons item items ih =>
      intro state state' heq
      exact hstate item (ih heq)

/-- A fold tells lists that differ in one place apart. -/
theorem DifferOnce.foldl_ne {first second : List B} (h : DifferOnce first second)
    (hstate : ∀ item, Function.Injective fun state => step state item)
    (hitem : ∀ state, Function.Injective (step state)) (state : A) :
    first.foldl step state ≠ second.foldl step state := by
  induction first generalizing second state with
  | nil =>
      obtain ⟨hlength, i, hi, -⟩ := h
      rw [List.length_eq_zero_iff.mp hlength.symm] at hi
      exact absurd rfl hi
  | cons x first ih =>
      cases second with
      | nil => exact absurd h.1 (by simp)
      | cons y second =>
          by_cases hxy : x = y
          · subst hxy
            exact ih h.tail (step state x)
          · intro heq
            rw [h.tail_eq hxy] at heq
            exact hxy (hitem state (foldl_injective hstate second heq))

end TieredCache.Math.Folds
