/-
# Second-chance sweeps over a ring

A hand goes round a ring of places.  A barred place is passed, a place with a second
chance is passed once and loses the chance, and the first place that is neither is
taken.  What a sweep of a given number of steps takes, and when it takes nothing, is
said here in terms of the marks at its start.
-/

import Mathlib.Data.Finset.Option
import TieredCache.Math.OpenAddressing

namespace TieredCache.Math.Clock

open TieredCache.Math.OpenAddressing

variable {m : ℕ}

/-- What the hand finds at a place. -/
inductive Mark
  | barred
  | spared
  | claimable
  deriving DecidableEq, Repr

/-- What a sweep ends with: the place it took, the hand and the marks. -/
structure Swept (m : ℕ) where
  taken : Option (Fin m)
  hand : Fin m
  marks : Fin m → Mark

/-- A sweep of a number of steps.  A taken place keeps its mark. -/
def sweep : ℕ → Fin m → (Fin m → Mark) → Swept m
  | 0, hand, marks => ⟨none, hand, marks⟩
  | steps + 1, hand, marks =>
      match marks hand with
      | .barred => sweep steps (next hand) marks
      | .spared => sweep steps (next hand) (Function.update marks hand .claimable)
      | .claimable => ⟨some hand, next hand, marks⟩

variable {hand p q : Fin m} {marks : Fin m → Mark} {steps : ℕ}

theorem sweep_barred (h : marks hand = .barred) :
    sweep (steps + 1) hand marks = sweep steps (next hand) marks := by
  simp [sweep, h]

theorem sweep_spared (h : marks hand = .spared) :
    sweep (steps + 1) hand marks =
      sweep steps (next hand) (Function.update marks hand .claimable) := by
  simp [sweep, h]

theorem sweep_claimable (h : marks hand = .claimable) :
    sweep (steps + 1) hand marks = ⟨some hand, next hand, marks⟩ := by
  simp [sweep, h]

/-- The place the hand has just left is the farthest ahead of it. -/
theorem gap_next_self (hand : Fin m) : gap (next hand) hand + 1 = m := by
  have := hand.isLt
  simp only [gap_def, next_val]
  split_ifs <;> omega

/-- Seen from the next position, every place but the one just left is one step nearer. -/
theorem gap_next_lt_iff {n : ℕ} (hp : p ≠ hand) :
    gap (next hand) p < n ↔ gap hand p < n + 1 := by
  have := gap_next_left (Ne.symm hp)
  omega

/-! ## When nothing is taken -/

/-- A sweep takes nothing exactly if no place it reaches is claimable and every place
it reaches twice is barred. -/
theorem sweep_eq_none_iff :
    (sweep steps hand marks).taken = none ↔
      (∀ p, gap hand p < steps → marks p ≠ .claimable) ∧
        ∀ p, gap hand p + m < steps → marks p = .barred := by
  induction steps generalizing hand marks with
  | zero => simp [sweep]
  | succ steps ih =>
      have hself := gap_next_self hand
      cases hmark : marks hand with
      | barred =>
          rw [sweep_barred hmark, ih]
          constructor
          · rintro ⟨honce, htwice⟩
            refine ⟨fun p hp => ?_, fun p hp => ?_⟩ <;> by_cases hne : p = hand
            · rw [hne, hmark]
              decide
            · exact honce p ((gap_next_lt_iff hne).mpr hp)
            · rw [hne, hmark]
            · have := gap_next_left (Ne.symm hne)
              exact htwice p (by omega)
          · rintro ⟨honce, htwice⟩
            refine ⟨fun p hp => ?_, fun p hp => ?_⟩ <;> by_cases hne : p = hand
            · rw [hne, hmark]
              decide
            · exact honce p ((gap_next_lt_iff hne).mp hp)
            · rw [hne, hmark]
            · have := gap_next_left (Ne.symm hne)
              exact htwice p (by omega)
      | spared =>
          rw [sweep_spared hmark, ih]
          have hother : ∀ {p}, p ≠ hand → Function.update marks hand .claimable p = marks p :=
            fun hne => Function.update_of_ne hne ..
          constructor
          · rintro ⟨honce, htwice⟩
            -- The hand does not come back to the place it has just spared.
            have hshort : steps ≤ gap (next hand) hand := by
              by_contra hlong
              exact honce hand (Nat.lt_of_not_le hlong) (Function.update_self ..)
            refine ⟨fun p hp => ?_, fun p hp => by omega⟩
            by_cases hne : p = hand
            · rw [hne, hmark]
              decide
            · rw [← hother hne]
              exact honce p ((gap_next_lt_iff hne).mpr hp)
          · rintro ⟨honce, htwice⟩
            have hshort : steps ≤ gap (next hand) hand := by
              by_contra hlong
              have hbarred := htwice hand (by rw [gap_self]; omega)
              rw [hmark] at hbarred
              cases hbarred
            refine ⟨fun p hp => ?_, fun p hp => by omega⟩
            by_cases hne : p = hand
            · subst hne
              omega
            · rw [hother hne]
              exact honce p ((gap_next_lt_iff hne).mp hp)
      | claimable =>
          rw [sweep_claimable hmark]
          simp only [reduceCtorEq, false_iff, not_and]
          intro honce
          exact absurd hmark (honce hand (by rw [gap_self]; omega))

/-- Two full turns take nothing exactly if every place is barred. -/
theorem sweep_two_turns (h : steps = 2 * m) :
    (sweep steps hand marks).taken = none ↔ ∀ p, marks p = .barred := by
  rw [sweep_eq_none_iff]
  constructor
  · rintro ⟨-, htwice⟩ p
    have := gap_lt hand p
    exact htwice p (by omega)
  · intro hall
    exact ⟨fun p _ => by rw [hall]; decide, fun p _ => hall p⟩

/-- At most one turn takes nothing exactly if no place it reaches is claimable. -/
theorem sweep_one_turn (h : steps ≤ m) :
    (sweep steps hand marks).taken = none ↔ ∀ p, gap hand p < steps → marks p ≠ .claimable := by
  rw [sweep_eq_none_iff]
  exact ⟨fun hnone => hnone.1, fun honce => ⟨honce, fun p hp => by omega⟩⟩

/-! ## What is taken -/

/-- What a sweep takes: the first claimable place, or on the second turn, when there is
no claimable place at all, the first spared one. -/
theorem sweep_eq_some (h : (sweep steps hand marks).taken = some p) :
    (marks p = .claimable ∧ ∀ q, gap hand q < gap hand p → marks q ≠ .claimable) ∨
      (marks p = .spared ∧ ∀ q, marks q ≠ .claimable) := by
  induction steps generalizing hand marks with
  | zero => simp [sweep] at h
  | succ steps ih =>
      have hlast : ∀ q, q ≠ hand → gap (next hand) q < gap (next hand) hand := fun q hne => by
        have := gap_next_left (Ne.symm hne)
        have := gap_next_self hand
        have := gap_lt hand q
        omega
      have hnearer : ∀ {q r : Fin m}, q ≠ hand → r ≠ hand → gap hand q < gap hand r →
          gap (next hand) q < gap (next hand) r := fun hq hr hlt => by
        have := gap_next_left (Ne.symm hq)
        have := gap_next_left (Ne.symm hr)
        omega
      cases hmark : marks hand with
      | barred =>
          rw [sweep_barred hmark] at h
          apply (ih h).imp_left
          rintro ⟨hp, hfirst⟩
          refine ⟨hp, fun q hq => ?_⟩
          have hne : p ≠ hand := by
            rintro rfl
            rw [hmark] at hp
            cases hp
          by_cases hqh : q = hand
          · rw [hqh, hmark]
            decide
          · exact hfirst q (hnearer hqh hne hq)
      | spared =>
          rw [sweep_spared hmark] at h
          rcases ih h with ⟨hp, hfirst⟩ | ⟨-, hnone⟩
          · have hold : ∀ q, q ≠ hand → gap (next hand) q < gap (next hand) p →
                marks q ≠ .claimable := fun q hne hq => by
              have := hfirst q hq
              rwa [Function.update_of_ne hne] at this
            by_cases hne : p = hand
            · -- The hand is back where it was: it has passed every other place.
              subst hne
              refine Or.inr ⟨hmark, fun q => ?_⟩
              by_cases hqp : q = p
              · rw [hqp, hmark]
                decide
              · exact hold q hqp (hlast q hqp)
            · rw [Function.update_of_ne hne] at hp
              refine Or.inl ⟨hp, fun q hq => ?_⟩
              by_cases hqh : q = hand
              · rw [hqh, hmark]
                decide
              · exact hold q hqh (hnearer hqh hne hq)
          · exact absurd (Function.update_self ..) (hnone hand)
      | claimable =>
          rw [sweep_claimable hmark] at h
          cases h
          exact Or.inl ⟨hmark, fun q hq => by simp at hq⟩

/-- What a sweep takes is not barred. -/
theorem sweep_not_barred (h : (sweep steps hand marks).taken = some p) : marks p ≠ .barred := by
  rcases sweep_eq_some h with ⟨hp, -⟩ | ⟨hp, -⟩ <;> rw [hp] <;> decide

/-- A sweep changes a mark only by taking a second chance away. -/
theorem sweep_marks (steps : ℕ) (hand : Fin m) (marks : Fin m → Mark) (q : Fin m) :
    (sweep steps hand marks).marks q = marks q ∨
      marks q = .spared ∧ (sweep steps hand marks).marks q = .claimable := by
  induction steps generalizing hand marks with
  | zero => exact Or.inl rfl
  | succ steps ih =>
      cases hmark : marks hand with
      | barred =>
          rw [sweep_barred hmark]
          exact ih (next hand) marks
      | spared =>
          rw [sweep_spared hmark]
          have hrest := ih (next hand) (Function.update marks hand .claimable)
          by_cases hq : q = hand
          · subst hq
            rw [Function.update_self] at hrest
            exact Or.inr ⟨hmark, hrest.resolve_right fun h => by cases h.1⟩
          · rwa [Function.update_of_ne hq] at hrest
      | claimable =>
          rw [sweep_claimable hmark]
          exact Or.inl rfl

/-! ## The order in which places are taken -/

/-- The hand takes `p` before `q`: a claimable place before a spared one, and of two alike
the one it comes to first. -/
def Before (hand : Fin m) (marks : Fin m → Mark) (p q : Fin m) : Prop :=
  marks p = .claimable ∧ marks q = .spared ∨ marks p = marks q ∧ gap hand p < gap hand q

instance (hand : Fin m) (marks : Fin m → Mark) (p q : Fin m) :
    Decidable (Before hand marks p q) := inferInstanceAs (Decidable (_ ∨ _))

theorem Before.asymm (h : Before hand marks p q) : ¬ Before hand marks q p := by
  rintro (⟨hq, hp⟩ | ⟨hsame, hlt⟩) <;> rcases h with ⟨hp', hq'⟩ | ⟨hsame', hlt'⟩
  · simp_all
  · simp_all
  · simp_all
  · omega

/-- A step of the hand past a barred or a taken place leaves the order of the others. -/
theorem before_next (hp : p ≠ hand) (hq : q ≠ hand) :
    Before (next hand) marks p q ↔ Before hand marks p q := by
  have := gap_next_left (Ne.symm hp)
  have := gap_next_left (Ne.symm hq)
  have hgap : gap (next hand) p < gap (next hand) q ↔ gap hand p < gap hand q := by omega
  simp only [Before, hgap]

/-- A spared place the hand comes to is next among the spared ones.  Once passed it is
last among the claimable ones, so it has not lost its turn. -/
theorem before_spared (hmark : marks hand = .spared) :
    Before (next hand) (Function.update marks hand .claimable) p q ↔ Before hand marks p q := by
  have hlast : ∀ r, gap (next hand) r < gap (next hand) hand ↔ r ≠ hand := fun r => by
    have := gap_next_self hand
    constructor
    · rintro hlt rfl
      exact hlt.false
    · intro hne
      have := gap_next_left (Ne.symm hne)
      have := gap_lt hand r
      omega
  have hfirst : ∀ r, gap hand hand < gap hand r ↔ r ≠ hand := fun r =>
    ⟨fun hlt hr => by simp [hr] at hlt, fun hne => by simpa using gap_pos (Ne.symm hne)⟩
  by_cases hph : p = hand <;> by_cases hqh : q = hand
  · subst hph hqh
    simp [Before, hmark]
  · subst hph
    have hback : ¬ gap (next p) p < gap (next p) q := ((hlast q).mpr hqh).asymm
    have hahead := (hfirst q).mpr hqh
    rw [gap_self] at hahead
    simp [Before, hmark, hqh, hback, hahead, eq_comm]
  · subst hqh
    simp [Before, hmark, hph, (hlast p).mpr hph]
  · rw [← before_next hph hqh]
    simp [Before, Function.update_of_ne hph, Function.update_of_ne hqh]

/-- A sweep leaves the order of the places it does not take. -/
theorem sweep_before (hp : marks p ≠ .barred) (hq : marks q ≠ .barred)
    (hpkept : (sweep steps hand marks).taken ≠ some p)
    (hqkept : (sweep steps hand marks).taken ≠ some q) :
    Before (sweep steps hand marks).hand (sweep steps hand marks).marks p q ↔
      Before hand marks p q := by
  induction steps generalizing hand marks with
  | zero => exact Iff.rfl
  | succ steps ih =>
      cases hmark : marks hand with
      | barred =>
          rw [sweep_barred hmark] at hpkept hqkept ⊢
          rw [ih hp hq hpkept hqkept]
          apply before_next
          · rintro rfl
            exact hp hmark
          · rintro rfl
            exact hq hmark
      | spared =>
          rw [sweep_spared hmark] at hpkept hqkept ⊢
          have hlive : ∀ {r}, marks r ≠ .barred →
              Function.update marks hand .claimable r ≠ .barred := fun {r} hr => by
            by_cases hrh : r = hand
            · simp [hrh]
            · simpa [Function.update_of_ne hrh] using hr
          rw [ih (hlive hp) (hlive hq) hpkept hqkept]
          exact before_spared hmark
      | claimable =>
          rw [sweep_claimable hmark] at hpkept hqkept ⊢
          apply before_next
          · rintro rfl
            exact hpkept rfl
          · rintro rfl
            exact hqkept rfl

/-- What a sweep takes is the first place of the order. -/
theorem sweep_first (h : (sweep steps hand marks).taken = some p) (hq : marks q ≠ .barred)
    (hne : q ≠ p) : Before hand marks p q := by
  induction steps generalizing hand marks with
  | zero => simp [sweep] at h
  | succ steps ih =>
      cases hmark : marks hand with
      | barred =>
          have hp := sweep_not_barred h
          rw [sweep_barred hmark] at h
          apply (before_next ?_ ?_).mp (ih h hq)
          · rintro rfl
            exact hp hmark
          · rintro rfl
            exact hq hmark
      | spared =>
          rw [sweep_spared hmark] at h
          apply (before_spared hmark).mp (ih h _)
          by_cases hqh : q = hand
          · simp [hqh]
          · simpa [Function.update_of_ne hqh] using hq
      | claimable =>
          rw [sweep_claimable hmark] at h
          cases h
          cases hqmark : marks q with
          | barred => exact absurd hqmark hq
          | spared => exact Or.inl ⟨hmark, hqmark⟩
          | claimable =>
              exact Or.inr ⟨hmark.trans hqmark.symm, by simpa using gap_pos (Ne.symm hne)⟩

/-! ## Many sweeps -/

/-- What is left of the order after sweeps that took the places of `taken`, and after some
of the other places have been barred: those not barred keep their order, and come after
those taken. -/
structure Since (hand₀ : Fin m) (marks₀ : Fin m → Mark) (taken : Finset (Fin m)) (hand : Fin m)
    (marks : Fin m → Mark) : Prop where
  live : ∀ p, p ∉ taken → marks p ≠ .barred → marks₀ p ≠ .barred
  before : ∀ p q, p ∉ taken → q ∉ taken → marks p ≠ .barred → marks q ≠ .barred →
    (Before hand marks p q ↔ Before hand₀ marks₀ p q)
  first : ∀ p q, p ∈ taken → q ∉ taken → marks q ≠ .barred → Before hand₀ marks₀ p q

namespace Since

variable {hand₀ : Fin m} {marks₀ marks' : Fin m → Mark} {taken : Finset (Fin m)}

theorem refl (hand : Fin m) (marks : Fin m → Mark) : Since hand marks ∅ hand marks :=
  ⟨fun _ _ hp => hp, fun _ _ _ _ _ _ => Iff.rfl, fun _ _ hp => by simp at hp⟩

/-- Places outside `taken` are barred, or keep their marks. -/
theorem bar (h : Since hand₀ marks₀ taken hand marks)
    (hmarks : ∀ p, p ∉ taken → marks' p ≠ .barred → marks' p = marks p) :
    Since hand₀ marks₀ taken hand marks' where
  live := fun p hp hlive => h.live p hp (hmarks p hp hlive ▸ hlive)
  before := fun p q hp hq hplive hqlive => by
    have hpmark := hmarks p hp hplive
    have hqmark := hmarks q hq hqlive
    rw [← h.before p q hp hq (hpmark ▸ hplive) (hqmark ▸ hqlive)]
    simp only [Before, hpmark, hqmark]
  first := fun p q hp hq hqlive => h.first p q hp hq (hmarks q hq hqlive ▸ hqlive)

/-- A sweep, and whatever becomes of the place it took. -/
theorem sweep (h : Since hand₀ marks₀ taken hand marks)
    (hmarks : ∀ p, (Clock.sweep steps hand marks).taken ≠ some p →
      marks' p = (Clock.sweep steps hand marks).marks p) :
    Since hand₀ marks₀ (taken ∪ (Clock.sweep steps hand marks).taken.toFinset)
      (Clock.sweep steps hand marks).hand marks' := by
  have hlive : ∀ {p}, (Clock.sweep steps hand marks).taken ≠ some p → marks' p ≠ .barred →
      marks p ≠ .barred := fun {p} hkept hp => by
    rw [hmarks p hkept] at hp
    rcases sweep_marks steps hand marks p with hsame | ⟨hspared, -⟩
    · rwa [hsame] at hp
    · simp [hspared]
  have hleft : ∀ {p}, p ∉ taken ∪ (Clock.sweep steps hand marks).taken.toFinset →
      p ∉ taken ∧ (Clock.sweep steps hand marks).taken ≠ some p := fun {p} hp => by
    simpa using hp
  refine ⟨fun p hp hplive => ?_, fun p q hp hq hplive hqlive => ?_, fun p q hp hq hqlive => ?_⟩
  · exact h.live p (hleft hp).1 (hlive (hleft hp).2 hplive)
  · replace hp := hleft hp
    replace hq := hleft hq
    have hplive' := hlive hp.2 hplive
    have hqlive' := hlive hq.2 hqlive
    rw [← h.before p q hp.1 hq.1 hplive' hqlive', ← sweep_before hplive' hqlive' hp.2 hq.2]
    simp only [Before, hmarks p hp.2, hmarks q hq.2]
  · replace hq := hleft hq
    have hqlive' := hlive hq.2 hqlive
    by_cases hold : p ∈ taken
    · exact h.first p q hold hq.1 hqlive'
    · have htaken : (Clock.sweep steps hand marks).taken = some p := by simpa [hold] using hp
      apply (h.before p q hold hq.1 (sweep_not_barred htaken) hqlive').mp
      apply sweep_first htaken hqlive'
      rintro rfl
      exact hq.2 htaken

end Since

end TieredCache.Math.Clock
