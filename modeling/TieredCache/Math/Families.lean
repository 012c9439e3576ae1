/-
# Machines side by side

A family of machines that take their turns together: in one turn each machine takes one action
of its own or stands still, and no turn is taken unless every machine can take its part of it.
What holds of every run of one machine holds of it inside the family.
-/

import Mathlib
import TieredCache.Math.Runs

namespace TieredCache.Math.Families

open TieredCache.Math.Runs

/-- One machine's part of a turn: it takes its action, or stands still. -/
def turn {σ α : Type*} (step : σ → α → Option σ) (s : σ) : Option α → Option σ
  | none => some s
  | some a => step s a

variable {n : ℕ} {σ α : Fin n → Type*} {step : ∀ i, σ i → α i → Option (σ i)}
  {s s' : ∀ i, σ i} {moves : ∀ i, Option (α i)}

/-- A turn of all machines. -/
def turns (step : ∀ i, σ i → α i → Option (σ i)) (s : ∀ i, σ i) (moves : ∀ i, Option (α i)) :
    Option (∀ i, σ i) :=
  if h : ∀ i, (turn (step i) (s i) (moves i)).isSome then
    some fun i => (turn (step i) (s i) (moves i)).get (h i)
  else none

theorem turns_eq_some_iff :
    turns step s moves = some s' ↔ ∀ i, turn (step i) (s i) (moves i) = some (s' i) := by
  unfold turns
  constructor
  · intro h i
    split_ifs at h
    cases h
    exact (Option.some_get _).symm
  · intro h
    have hall : ∀ i, (turn (step i) (s i) (moves i)).isSome := fun i => by
      rw [h i]
      rfl
    rw [dif_pos hall]
    congr 1
    funext i
    exact Option.get_of_eq_some _ (h i)

/-- Only one machine has an action. -/
def only (i : Fin n) (a : α i) : ∀ j, Option (α j) := Function.update (fun _ => none) i (some a)

@[simp]
theorem only_self (i : Fin n) (a : α i) : only i a i = some a := Function.update_self ..

theorem only_of_ne {i j : Fin n} (h : j ≠ i) (a : α i) : only i a j = none :=
  Function.update_of_ne h ..

/-- What holds of the one action holds of all. -/
theorem forall_only {P : ∀ i, α i → Prop} {i : Fin n} {a : α i} (h : P i a) :
    ∀ j, ∀ b ∈ only i a j, P j b := by
  intro j b hb
  by_cases hj : j = i
  · subst hj
    rw [only_self] at hb
    cases hb
    exact h
  · rw [only_of_ne hj] at hb
    cases hb

/-- A machine of a family runs as it does alone, if it is left alone or takes an allowed action
whenever the whole takes a step. -/
theorem reaches_component {τ β : Type*} {whole : τ → β → Option τ} {init t : τ}
    {allowed : τ → β → Prop} (step : ∀ i, σ i → α i → Option (σ i)) (part : τ → ∀ i, σ i)
    (allowed' : ∀ i, σ i → α i → Prop)
    (ht : Reaches whole allowed init t) (i : Fin n)
    (h : ∀ t b t', allowed t b → whole t b = some t' → ∃ m : Option (α i),
      turn (step i) (part t i) m = some (part t' i) ∧ ∀ a ∈ m, allowed' i (part t i) a) :
    Reaches (step i) (allowed' i) (part init i) (part t i) := by
  induction ht with
  | start => exact .start
  | step hs hallowed hstep ih =>
      obtain ⟨m, hturn, hm⟩ := h _ _ _ hallowed hstep
      cases m with
      | none =>
          rw [← Option.some.inj hturn]
          exact ih
      | some a => exact ih.step (hm a rfl) hturn

end TieredCache.Math.Families
