/-
# Runs of a partial step function

A machine whose step is a partial function of its state and of an action, the
states its runs reach, and the invariant rule.  A run may be restricted to steps
that meet a condition on the state before the step and the action.
-/

import Mathlib.Init

namespace TieredCache.Math.Runs

universe u v
variable {σ : Type u} {α : Type v} {step : σ → α → Option σ} {start : σ}

/-- The states reached from `start` by steps that are all allowed. -/
inductive Reaches (step : σ → α → Option σ) (allowed : σ → α → Prop) (start : σ) : σ → Prop
  | start : Reaches step allowed start start
  | step {s s' : σ} {a : α} (hs : Reaches step allowed start s) (ha : allowed s a)
      (h : step s a = some s') : Reaches step allowed start s'

/-- Any state reached by steps of any kind. -/
abbrev Reachable (step : σ → α → Option σ) (start : σ) : σ → Prop :=
  Reaches step (fun _ _ => True) start

namespace Reaches

variable {allowed : σ → α → Prop} {s s' : σ}

/-- Every state reached has a property that holds at the start and is preserved. -/
theorem invariant {inv : σ → Prop} (hs : Reaches step allowed start s) (hstart : inv start)
    (hstep : ∀ s a s', inv s → allowed s a → step s a = some s' → inv s') : inv s := by
  induction hs with
  | start => exact hstart
  | step hs ha h ih => exact hstep _ _ _ ih ha h

/-- The invariant rule with a property already known of every state reached. -/
theorem invariant_of {known inv : σ → Prop} (hs : Reaches step allowed start s)
    (hknown : ∀ s, Reaches step allowed start s → known s) (hstart : inv start)
    (hstep : ∀ s a s', known s → inv s → allowed s a → step s a = some s' → inv s') :
    inv s := by
  induction hs with
  | start => exact hstart
  | step hs ha h ih => exact hstep _ _ _ (hknown _ hs) ih ha h

/-- Fewer restrictions reach more states. -/
theorem mono {allowed' : σ → α → Prop} (himp : ∀ s a, allowed s a → allowed' s a)
    (hs : Reaches step allowed start s) : Reaches step allowed' start s := by
  induction hs with
  | start => exact .start
  | step hs ha h ih => exact .step ih (himp _ _ ha) h

/-- A restricted run is a run. -/
theorem reachable (hs : Reaches step allowed start s) : Reachable step start s :=
  hs.mono fun _ _ _ => trivial

end Reaches

/-- Take the steps of a list of actions. -/
def exec (step : σ → α → Option σ) : List α → σ → Option σ
  | [], s => some s
  | a :: as, s => (step s a).bind (exec step as)

/-- Every action of the list is allowed when its turn comes. -/
def AllAllowed (step : σ → α → Option σ) (allowed : σ → α → Prop) : List α → σ → Prop
  | [], _ => True
  | a :: as, s => allowed s a ∧ ∀ s' ∈ step s a, AllAllowed step allowed as s'

instance AllAllowed.decidable (step : σ → α → Option σ) (allowed : σ → α → Prop)
    [∀ s a, Decidable (allowed s a)] : ∀ as s, Decidable (AllAllowed step allowed as s)
  | [], _ => isTrue trivial
  | a :: as, s =>
      have : ∀ s', Decidable (AllAllowed step allowed as s') :=
        AllAllowed.decidable step allowed as
      inferInstanceAs (Decidable (allowed s a ∧ ∀ s' ∈ step s a, AllAllowed step allowed as s'))

theorem AllAllowed.mono {allowed allowed' : σ → α → Prop}
    (himp : ∀ s a, allowed s a → allowed' s a) {as : List α} {s : σ}
    (h : AllAllowed step allowed as s) : AllAllowed step allowed' as s := by
  induction as generalizing s with
  | nil => trivial
  | cons a as ih => exact ⟨himp s a h.1, fun s' hs' => ih (h.2 s' hs')⟩

/-- Actions that are allowed everywhere are allowed when their turn comes. -/
theorem allAllowed_of_forall {allowed : σ → α → Prop} {as : List α}
    (h : ∀ a ∈ as, ∀ s, allowed s a) (s : σ) : AllAllowed step allowed as s := by
  induction as generalizing s with
  | nil => trivial
  | cons a as ih =>
      exact ⟨h a List.mem_cons_self s,
        fun s' _ => ih (fun b hb => h b (List.mem_cons_of_mem _ hb)) s'⟩

/-- Executing allowed actions reaches a state. -/
theorem reaches_of_exec {allowed : σ → α → Prop} {as : List α} {s s' : σ}
    (hs : Reaches step allowed start s) (hall : AllAllowed step allowed as s)
    (h : exec step as s = some s') : Reaches step allowed start s' := by
  induction as generalizing s with
  | nil =>
      cases h
      exact hs
  | cons a as ih =>
      obtain ⟨next, hnext, hrest⟩ := Option.bind_eq_some_iff.mp h
      exact ih (.step hs hall.1 hnext) (hall.2 next hnext) hrest

/-- Executing actions from the start reaches a state. -/
theorem reachable_of_exec {as : List α} {s s' : σ} (hs : Reachable step start s)
    (h : exec step as s = some s') : Reachable step start s' := by
  induction as generalizing s with
  | nil =>
      cases h
      exact hs
  | cons a as ih =>
      obtain ⟨next, hnext, hrest⟩ := Option.bind_eq_some_iff.mp h
      exact ih (.step hs trivial hnext) hrest

/-- A machine that carries more state than another runs as the other does. -/
theorem exec_map {τ : Type*} {step' : τ → α → Option τ} {proj : σ → τ}
    (hstep : ∀ s a, (step s a).map proj = step' (proj s) a) (as : List α) (s : σ) :
    (exec step as s).map proj = exec step' as (proj s) := by
  induction as generalizing s with
  | nil => rfl
  | cons a as ih =>
      unfold exec
      rw [← hstep]
      cases step s a with
      | none => rfl
      | some next => exact ih next

end TieredCache.Math.Runs
