/-
# Counting places of a function

The number of places at which a function has a property, for functions that have it
at finitely many places, and how the number moves when one place is rewritten.
-/

import Mathlib.Algebra.BigOperators.Group.Finset.Basic
import Mathlib.Data.Fintype.Option
import Mathlib.Data.Set.Card

namespace TieredCache.Math.Tally

universe u v w
variable {ι : Type u} {β : Type v} {p q : β → Prop} {f g : ι → β}

/-- At how many places the function has the property. -/
noncomputable def tally (p : β → Prop) (f : ι → β) : ℕ := Set.ncard {i | p (f i)}

/-- Two functions that have their properties at the same places. -/
theorem tally_congr (h : ∀ i, p (f i) ↔ q (g i)) : tally p f = tally q g :=
  congrArg Set.ncard (Set.ext h)

/-- A property the function has nowhere. -/
theorem tally_eq_zero (h : ∀ i, ¬ p (f i)) : tally p f = 0 := by
  have hempty : {i | p (f i)} = ∅ := Set.eq_empty_of_forall_notMem h
  rw [tally, hempty, Set.ncard_empty]

/-- A place with the property counts. -/
theorem tally_pos (hfin : {i | p (f i)}.Finite) {i : ι} (h : p (f i)) : 0 < tally p f :=
  (Set.ncard_pos hfin).mpr ⟨i, h⟩

/-- No more places than there are. -/
theorem tally_le_card [Fintype ι] (p : β → Prop) (f : ι → β) : tally p f ≤ Fintype.card ι := by
  have h := Set.ncard_le_ncard (Set.subset_univ {i | p (f i)}) Set.finite_univ
  rwa [Set.ncard_univ, Nat.card_eq_fintype_card] at h

/-- Places counted by two properties that exclude each other. -/
theorem tally_split {r : β → Prop} (hq : {i | q (f i)}.Finite) (hr : {i | r (f i)}.Finite)
    (h : ∀ i, p (f i) ↔ q (f i) ∨ r (f i)) (hapart : ∀ i, q (f i) → ¬ r (f i)) :
    tally p f = tally q f + tally r f := by
  have hset : {i | p (f i)} = {i | q (f i)} ∪ {i | r (f i)} := Set.ext h
  have hdisjoint : Disjoint {i | q (f i)} {i | r (f i)} := Set.disjoint_left.mpr hapart
  rw [tally, hset, Set.ncard_union_eq hdisjoint hq hr, tally, tally]

section Update

variable [DecidableEq ι] {i : ι} {b : β}

/-- Rewriting one place keeps the set of places finite. -/
theorem finite_update (hfin : {i | p (f i)}.Finite) (i : ι) (b : β) :
    {j | p (Function.update f i b j)}.Finite := by
  refine (hfin.insert i).subset fun j hj => ?_
  by_cases hji : j = i
  · exact Or.inl hji
  · refine Or.inr ?_
    rw [Set.mem_ofPred_eq, Function.update_of_ne hji] at hj
    exact hj

/-- The place gains the property. -/
theorem tally_update_gain (hfin : {i | p (f i)}.Finite) (hold : ¬ p (f i)) (hnew : p b) :
    tally p (Function.update f i b) = tally p f + 1 := by
  have hset : {j | p (Function.update f i b j)} = insert i {j | p (f j)} := by
    ext j
    by_cases hji : j = i
    · subst hji
      simp [hnew]
    · simp [hji]
  have hnot : i ∉ {j | p (f j)} := hold
  rw [tally, hset, Set.ncard_insert_of_notMem hnot hfin, tally]

/-- The place loses the property. -/
theorem tally_update_loss (hfin : {i | p (f i)}.Finite) (hold : p (f i)) (hnew : ¬ p b) :
    tally p (Function.update f i b) + 1 = tally p f := by
  have hback : Function.update (Function.update f i b) i (f i) = f := by
    rw [Function.update_idem, Function.update_eq_self]
  have hgain := tally_update_gain (i := i) (b := f i) (finite_update hfin i b)
    (by rwa [Function.update_self]) hold
  rw [hback] at hgain
  exact hgain.symm

/-- The place keeps the property, or keeps not having it. -/
theorem tally_update_same (h : p b ↔ p (f i)) : tally p (Function.update f i b) = tally p f := by
  apply tally_congr
  intro j
  by_cases hji : j = i
  · subst hji
    rw [Function.update_self, h]
  · rw [Function.update_of_ne hji]

/-- Rewriting one place moves the count by what is lost and gained there. -/
theorem tally_update [DecidablePred p] (hfin : {i | p (f i)}.Finite) (i : ι) (b : β) :
    tally p (Function.update f i b) + (if p (f i) then 1 else 0) =
      tally p f + if p b then 1 else 0 := by
  by_cases hold : p (f i) <;> by_cases hnew : p b
  · simp [hold, hnew, tally_update_same (iff_of_true hnew hold)]
  · simp [hold, hnew, tally_update_loss hfin hold hnew]
  · simp [hold, hnew, tally_update_gain hfin hold hnew]
  · simp [hold, hnew, tally_update_same (iff_of_false hnew hold)]

end Update

/-- Counting along a list of all places. -/
theorem countP_finRange {n : ℕ} {f : Fin n → β} (p : β → Prop) [DecidablePred p] :
    (List.finRange n).countP (fun i => p (f i)) = tally p f := by
  have hset : {i | p (f i)} = ↑(Finset.univ.filter fun i => p (f i)) := by
    ext i
    simp
  rw [tally, hset, Set.ncard_coe_finset, List.countP_eq_length_filter]
  rfl

/-- Counting by key: the places with a key are counted key by key. -/
theorem sum_tally {κ : Type w} [Fintype κ] [DecidableEq κ] (key : β → Option κ)
    (hfin : {i | (key (f i)).isSome}.Finite) :
    ∑ k, tally (fun b => key b = some k) f = tally (fun b => (key b).isSome) f := by
  classical
  have hsub : ∀ k, {i | key (f i) = some k} = ↑(hfin.toFinset.filter fun i => key (f i) = some k) := by
    intro k
    ext i
    simp only [Set.mem_ofPred_eq, Finset.coe_filter, Set.Finite.mem_toFinset]
    refine ⟨fun h => ⟨by rw [h]; rfl, h⟩, fun h => h.2⟩
  have hmaps : ∀ i ∈ hfin.toFinset, key (f i) ∈ Finset.univ.map Function.Embedding.some := by
    intro i hi
    obtain ⟨k, hk⟩ := Option.isSome_iff_exists.mp (hfin.mem_toFinset.mp hi)
    simp [hk]
  calc ∑ k, tally (fun b => key b = some k) f
      = ∑ k, (hfin.toFinset.filter fun i => key (f i) = some k).card := by
        refine Finset.sum_congr rfl fun k _ => ?_
        rw [tally, hsub k, Set.ncard_coe_finset]
    _ = hfin.toFinset.card := by
        rw [Finset.card_eq_sum_card_fiberwise hmaps, Finset.sum_map]
        rfl
    _ = tally (fun b => (key b).isSome) f := (Set.ncard_eq_toFinset_card _ hfin).symm

end TieredCache.Math.Tally
