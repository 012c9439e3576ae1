/-
# Numbering classes

Items are put into classes.  The classes are numbered as they are met, then again by increasing
key, and the items of a class in the order in which they come.  Both renumberings are inverted by
writing each number at the position it stands for.
-/

import Mathlib.Data.List.Nodup
import Mathlib.Data.List.Perm.Basic
import Mathlib.Data.List.Sort

namespace TieredCache.Math.Numbering

universe u v
variable {α : Type u} {κ : Type v}

/-! ## Writing at positions -/

/-- Write values at positions, one after another. -/
def scatter (values : List α) (writes : List (ℕ × α)) : List α :=
  writes.foldl (fun values write => values.set write.1 write.2) values

variable {l : List α} {writes : List (ℕ × α)} {i : ℕ} {a : α}

theorem length_scatter : (scatter l writes).length = l.length := by
  induction writes generalizing l with
  | nil => rfl
  | cons write writes ih =>
      have h := ih (l := l.set write.1 write.2)
      rwa [List.length_set] at h

/-- Writes leave the other positions alone. -/
theorem getElem?_scatter_of_notMem (h : i ∉ writes.map Prod.fst) :
    (scatter l writes)[i]? = l[i]? := by
  induction writes generalizing l with
  | nil => rfl
  | cons write writes ih =>
      rw [List.map_cons, List.mem_cons, not_or] at h
      have hrest := ih (l := l.set write.1 write.2) h.2
      rw [List.getElem?_set_ne (Ne.symm h.1)] at hrest
      exact hrest

/-- What is written at a position once is there. -/
theorem getElem?_scatter (hnodup : (writes.map Prod.fst).Nodup) (hmem : (i, a) ∈ writes)
    (hi : i < l.length) : (scatter l writes)[i]? = some a := by
  induction writes generalizing l with
  | nil => cases hmem
  | cons write writes ih =>
      rw [List.map_cons, List.nodup_cons] at hnodup
      have hlength : i < (l.set write.1 write.2).length := by rwa [List.length_set]
      rcases List.mem_cons.mp hmem with rfl | hmem
      · have hfirst := getElem?_scatter_of_notMem (l := l.set i a) hnodup.1
        rw [List.getElem?_set_self hi] at hfirst
        exact hfirst
      · exact ih hnodup.2 hmem hlength

/-! ## Ranks -/

/-- The first `n` numbers by increasing key. -/
def order [LinearOrder κ] (key : ℕ → κ) (n : ℕ) : List ℕ :=
  (List.range n).insertionSort fun i j => key i ≤ key j

/-- Where each of the first `n` numbers stands in an order. -/
def ranks (order : List ℕ) (n : ℕ) : List ℕ := scatter (List.replicate n 0) order.zipIdx

variable {values : List α} {numbers : List ℕ} {n r c : ℕ}

theorem order_perm [LinearOrder κ] (key : ℕ → κ) (n : ℕ) : (order key n).Perm (List.range n) :=
  List.perm_insertionSort ..

/-- Different keys stand in strictly increasing order. -/
theorem order_increasing [LinearOrder κ] {key : ℕ → κ}
    (hkey : ∀ i < n, ∀ j < n, key i = key j → i = j) :
    ((order key n).map key).Pairwise (· < ·) := by
  have : Std.Total fun i j => key i ≤ key j := ⟨fun i j => le_total (key i) (key j)⟩
  have : IsTrans ℕ fun i j => key i ≤ key j := ⟨fun i j k => le_trans⟩
  have hsorted : (order key n).Pairwise fun i j => key i ≤ key j := List.pairwise_insertionSort ..
  have hnodup : (order key n).Nodup := (order_perm key n).nodup_iff.mpr List.nodup_range
  rw [List.pairwise_map]
  have hboth := hsorted.and hnodup
  refine hboth.imp_of_mem fun {i j} hi hj hij => ?_
  have hin := List.mem_range.mp ((order_perm key n).mem_iff.mp hi)
  have hjn := List.mem_range.mp ((order_perm key n).mem_iff.mp hj)
  exact lt_of_le_of_ne hij.1 fun heq => hij.2 (hkey i hin j hjn heq)

theorem length_ranks : (ranks numbers n).length = n := by
  rw [ranks, length_scatter, List.length_replicate]

/-- A number stands where its rank says. -/
theorem ranks_eq (hperm : numbers.Perm (List.range n)) (hr : numbers[r]? = some c) :
    (ranks numbers n)[c]? = some r := by
  have hc : c < n := List.mem_range.mp (hperm.mem_iff.mp (List.mem_of_getElem? hr))
  refine getElem?_scatter ?_ (List.mem_zipIdx_iff_getElem?.mpr hr) ?_
  · rw [List.zipIdx_map_fst]
    exact hperm.nodup_iff.mpr List.nodup_range
  · rwa [List.length_replicate]

/-- Every number has a rank, and stands there. -/
theorem exists_ranks (hperm : numbers.Perm (List.range n)) (hc : c < n) :
    ∃ r, (ranks numbers n)[c]? = some r ∧ numbers[r]? = some c := by
  obtain ⟨r, hr⟩ := List.mem_iff_getElem?.mp (hperm.mem_iff.mpr (List.mem_range.mpr hc))
  exact ⟨r, ranks_eq hperm hr, hr⟩

theorem ranks_lt (hperm : numbers.Perm (List.range n)) (hr : (ranks numbers n)[c]? = some r) :
    r < n := by
  have hc : c < n := by
    obtain ⟨hc, -⟩ := List.getElem?_eq_some_iff.mp hr
    rwa [length_ranks] at hc
  obtain ⟨r', hr', hnumber⟩ := exists_ranks hperm hc
  rw [hr] at hr'
  cases hr'
  obtain ⟨hlt, -⟩ := List.getElem?_eq_some_iff.mp hnumber
  rwa [hperm.length_eq, List.length_range] at hlt

theorem ranks_nodup (hperm : numbers.Perm (List.range n)) : (ranks numbers n).Nodup := by
  rw [List.nodup_iff_getElem?_ne_getElem?]
  intro i j hij hj heq
  rw [length_ranks] at hj
  obtain ⟨r, hr, hi⟩ := exists_ranks hperm (hij.trans hj)
  obtain ⟨r', hr', hj⟩ := exists_ranks hperm hj
  rw [hr, hr'] at heq
  cases heq
  rw [hi] at hj
  cases hj
  exact Nat.lt_irrefl _ hij

/-- Writing each value at the rank of its position puts the values in order. -/
theorem scatter_ranks (hperm : numbers.Perm (List.range values.length)) (d : α)
    (hr : numbers[r]? = some c) :
    (scatter (List.replicate values.length d) ((ranks numbers values.length).zip values))[r]? =
      values[c]? := by
  have hc : c < values.length := List.mem_range.mp (hperm.mem_iff.mp (List.mem_of_getElem? hr))
  have hrank := ranks_eq hperm hr
  rw [List.getElem?_eq_getElem hc]
  refine getElem?_scatter ?_ ?_ ?_
  · rw [List.map_fst_zip (by rw [length_ranks])]
    exact ranks_nodup hperm
  · apply List.mem_of_getElem? (i := c)
    rw [List.getElem?_zip_eq_some]
    exact ⟨hrank, List.getElem?_eq_getElem hc⟩
  · rw [List.length_replicate]
    exact ranks_lt hperm hrank

/-! ## Classes in the order they are met -/

/-- An entry of a list with one more at the end. -/
theorem getElem?_snoc_eq_some {l : List α} {x y : α} {i : ℕ} :
    (l ++ [x])[i]? = some y ↔ l[i]? = some y ∨ i = l.length ∧ x = y := by
  rcases Nat.lt_trichotomy i l.length with hi | rfl | hi
  · rw [List.getElem?_append_left hi]
    exact ⟨Or.inl, fun h => h.resolve_right fun h => absurd h.1 (Nat.ne_of_lt hi)⟩
  · rw [List.getElem?_concat_length, List.getElem?_eq_none (Nat.le_refl _)]
    simp
  · rw [List.getElem?_eq_none (by rw [List.length_append, List.length_singleton]; omega),
      List.getElem?_eq_none (Nat.le_of_lt hi)]
    simp only [reduceCtorEq, false_or, false_iff, not_and]
    omega

/-- Classes numbered by the keys of items: no key has two numbers, and the number of an item is
that of its key. -/
structure Met (key : α → Option κ) (items : List α) (keys : List κ) (classOf : List ℕ) : Prop where
  nodup : keys.Nodup
  length : classOf.length = items.length
  keyed : ∀ (i : ℕ) x, items[i]? = some x →
    ∃ (c : ℕ) (k : κ), classOf[i]? = some c ∧ keys[c]? = some k ∧ key x = some k

variable {key : α → Option κ} {items : List α} {keys : List κ} {classOf localOf : List ℕ}

theorem met_nil : Met key [] [] [] where
  nodup := List.nodup_nil
  length := rfl
  keyed := fun i x h => by cases h

/-- One more item, of a key that has a number. -/
theorem Met.snoc (h : Met key items keys classOf) {x : α} {k : κ} (hkey : key x = some k)
    (hc : keys[c]? = some k) : Met key (items ++ [x]) keys (classOf ++ [c]) where
  nodup := h.nodup
  length := by rw [List.length_append, List.length_append, h.length]; rfl
  keyed := fun i y hy => by
    rcases getElem?_snoc_eq_some.mp hy with hy | ⟨rfl, rfl⟩
    · obtain ⟨c', k', hc', hk', hkey'⟩ := h.keyed i y hy
      exact ⟨c', k', getElem?_snoc_eq_some.mpr (Or.inl hc'), hk', hkey'⟩
    · exact ⟨c, k, getElem?_snoc_eq_some.mpr (Or.inr ⟨h.length.symm, rfl⟩), hc, hkey⟩

/-- A key that has no number gets the next. -/
theorem Met.extend (h : Met key items keys classOf) {k : κ} (hnew : k ∉ keys) :
    Met key items (keys ++ [k]) classOf where
  nodup := List.Nodup.append h.nodup (List.nodup_singleton k) fun a ha hk => by
    rw [List.mem_singleton] at hk
    exact hnew (hk ▸ ha)
  length := h.length
  keyed := fun i x hx => by
    obtain ⟨c, k', hc, hk', hkey⟩ := h.keyed i x hx
    exact ⟨c, k', hc, getElem?_snoc_eq_some.mpr (Or.inl hk'), hkey⟩

/-! ## Items by class -/

/-- Items in groups: the class of an item is its group, and its local number where it stands
there; everything in a group is an item of that class and number, and comes as the items do. -/
structure Grouped (items : List α) (classOf localOf : List ℕ) (groups : List (List α)) : Prop where
  classes : classOf.length = items.length
  locals : localOf.length = items.length
  placed : ∀ (i : ℕ) x, items[i]? = some x → ∃ (c l : ℕ) (group : List α), classOf[i]? = some c ∧
    localOf[i]? = some l ∧ groups[c]? = some group ∧ group[l]? = some x
  found : ∀ (c l : ℕ) (group : List α) x, groups[c]? = some group → group[l]? = some x →
    ∃ i : ℕ, items[i]? = some x ∧ classOf[i]? = some c ∧ localOf[i]? = some l
  ordered : ∀ group ∈ groups, group.Sublist items

variable {groups : List (List α)} {group : List α}

/-- Empty groups. -/
theorem grouped_nil (n : ℕ) : Grouped ([] : List α) [] [] (List.replicate n []) where
  classes := rfl
  locals := rfl
  placed := fun i x h => by cases h
  found := fun c l group x hgroup hx => by
    rw [List.getElem?_replicate] at hgroup
    split_ifs at hgroup
    cases hgroup
    cases hx
  ordered := fun group hgroup => by
    rw [List.eq_of_mem_replicate hgroup]

/-- One more item goes to the end of its group. -/
theorem Grouped.snoc (h : Grouped items classOf localOf groups) (x : α)
    (hc : groups[c]? = some group) :
    Grouped (items ++ [x]) (classOf ++ [c]) (localOf ++ [group.length])
      (groups.set c (group ++ [x])) := by
  have hset : (groups.set c (group ++ [x]))[c]? = some (group ++ [x]) :=
    List.getElem?_set_self (List.getElem?_eq_some_iff.mp hc).1
  have hothers : ∀ c', c' ≠ c → (groups.set c (group ++ [x]))[c']? = groups[c']? :=
    fun c' hne => List.getElem?_set_ne (Ne.symm hne)
  refine ⟨?_, ?_, fun i y hy => ?_, fun c' l group' y hgroup hy => ?_, fun group' hgroup => ?_⟩
  · rw [List.length_append, List.length_append, h.classes]
    rfl
  · rw [List.length_append, List.length_append, h.locals]
    rfl
  · rcases getElem?_snoc_eq_some.mp hy with hy | ⟨rfl, rfl⟩
    · obtain ⟨c', l, group', hc', hl, hgroup, hplace⟩ := h.placed i y hy
      have hclass := getElem?_snoc_eq_some (x := c) |>.mpr (Or.inl hc')
      have hlocal := getElem?_snoc_eq_some (x := group.length) |>.mpr (Or.inl hl)
      by_cases heq : c' = c
      · subst heq
        rw [hc] at hgroup
        cases hgroup
        exact ⟨c', l, group ++ [x], hclass, hlocal, hset,
          getElem?_snoc_eq_some.mpr (Or.inl hplace)⟩
      · exact ⟨c', l, group', hclass, hlocal, (hothers c' heq).trans hgroup, hplace⟩
    · exact ⟨c, group.length, group ++ [x],
        getElem?_snoc_eq_some.mpr (Or.inr ⟨h.classes.symm, rfl⟩),
        getElem?_snoc_eq_some.mpr (Or.inr ⟨h.locals.symm, rfl⟩), hset,
        getElem?_snoc_eq_some.mpr (Or.inr ⟨rfl, rfl⟩)⟩
  · have hkept : (∃ i : ℕ, items[i]? = some y ∧ classOf[i]? = some c' ∧ localOf[i]? = some l) →
        ∃ i : ℕ, (items ++ [x])[i]? = some y ∧ (classOf ++ [c])[i]? = some c' ∧
          (localOf ++ [group.length])[i]? = some l := by
      rintro ⟨i, hi, hclass, hlocal⟩
      exact ⟨i, getElem?_snoc_eq_some.mpr (Or.inl hi), getElem?_snoc_eq_some.mpr (Or.inl hclass),
        getElem?_snoc_eq_some.mpr (Or.inl hlocal)⟩
    by_cases heq : c' = c
    · subst heq
      rw [hset] at hgroup
      cases hgroup
      rcases getElem?_snoc_eq_some.mp hy with hy | ⟨rfl, rfl⟩
      · exact hkept (h.found c' l group y hc hy)
      · exact ⟨items.length, getElem?_snoc_eq_some.mpr (Or.inr ⟨rfl, rfl⟩),
          getElem?_snoc_eq_some.mpr (Or.inr ⟨h.classes.symm, rfl⟩),
          getElem?_snoc_eq_some.mpr (Or.inr ⟨h.locals.symm, rfl⟩)⟩
    · rw [hothers c' heq] at hgroup
      exact hkept (h.found c' l group' y hgroup hy)
  · rcases List.mem_or_eq_of_mem_set hgroup with hmem | rfl
    · exact (h.ordered group' hmem).trans (List.sublist_append_left ..)
    · exact (h.ordered group (List.mem_of_getElem? hc)).append (List.Sublist.refl _)

/-- The place of an item of which there is one. -/
theorem Grouped.unique (h : Grouped items classOf localOf groups) (hitems : items.Nodup) {i l : ℕ}
    {x : α} (hx : items[i]? = some x) (hgroup : groups[c]? = some group)
    (hl : group[l]? = some x) : classOf[i]? = some c ∧ localOf[i]? = some l := by
  obtain ⟨j, hj, hclass, hlocal⟩ := h.found c l group x hgroup hl
  have hij : i = j := by
    have hi := (List.getElem?_eq_some_iff.mp hx).1
    exact (List.getElem?_inj hi hitems).mp (hx.trans hj.symm)
  rw [hij]
  exact ⟨hclass, hlocal⟩

/-- A group holds no more than there are items. -/
theorem Grouped.length_le (h : Grouped items classOf localOf groups) (hitems : items.Nodup)
    (hgroup : groups[c]? = some group) : group.length ≤ items.length := by
  have hnodup : group.Nodup := by
    rw [List.nodup_iff_getElem?_ne_getElem?]
    intro l l' hlt hl' heq
    obtain ⟨i, hi, -, hlocal⟩ :=
      h.found c l' group _ hgroup (List.getElem?_eq_getElem hl')
    have hplace := (h.unique hitems hi hgroup (heq.trans (List.getElem?_eq_getElem hl'))).2
    rw [hlocal] at hplace
    cases hplace
    exact Nat.lt_irrefl _ hlt
  apply (List.subperm_of_subset hnodup ?_).length_le
  intro x hx
  obtain ⟨l, hl⟩ := List.mem_iff_getElem?.mp hx
  obtain ⟨i, hi, -, -⟩ := h.found c l group x hgroup hl
  exact List.mem_of_getElem? hi

/-! ## Increasing numbers -/

variable {numbers : List ℕ} {l n m : ℕ}

/-- What stands before a number of an increasing list is what is smaller. -/
theorem mem_take_iff (h : numbers.Pairwise (· < ·)) (hl : numbers[l]? = some n) :
    m ∈ numbers.take l ↔ m ∈ numbers ∧ m < n := by
  obtain ⟨hlt, rfl⟩ := List.getElem?_eq_some_iff.mp hl
  rw [List.pairwise_iff_getElem] at h
  constructor
  · intro hm
    refine ⟨List.mem_of_mem_take hm, ?_⟩
    obtain ⟨i, hi, rfl⟩ := List.mem_take_iff_getElem.mp hm
    exact h i l (by omega) hlt (by omega)
  · rintro ⟨hm, hless⟩
    obtain ⟨i, hi, rfl⟩ := List.mem_iff_getElem.mp hm
    have hil : i < l := by
      by_contra hle
      rcases Nat.eq_or_lt_of_le (Nat.le_of_not_lt hle) with rfl | hli
      · exact absurd hless (Nat.lt_irrefl _)
      · exact absurd (h l i hlt hi hli) (Nat.lt_asymm hless)
    exact List.mem_take_iff_getElem.mpr ⟨i, by omega, rfl⟩

/-- A number of an increasing list stands at its own place if and only if no smaller one is
missing. -/
theorem place_eq_iff (h : numbers.Pairwise (· < ·)) (hl : numbers[l]? = some n) :
    l = n ↔ ∀ m < n, m ∈ numbers := by
  have hlength : (numbers.take l).length = l := by
    rw [List.length_take]
    exact Nat.min_eq_left (Nat.le_of_lt (List.getElem?_eq_some_iff.mp hl).1)
  have hnodup : (numbers.take l).Nodup :=
    (h.sublist (List.take_sublist l numbers)).imp fun hlt => Nat.ne_of_lt hlt
  have hbelow : (numbers.take l).Subperm (List.range n) :=
    List.subperm_of_subset hnodup fun m hm =>
      List.mem_range.mpr ((mem_take_iff h hl).mp hm).2
  constructor
  · intro heq m hm
    have hall : (List.range n).Subperm (numbers.take l) :=
      (hbelow.perm_of_length_le (by rw [hlength, List.length_range, heq])).symm.subperm
    exact ((mem_take_iff h hl).mp (hall.subset (List.mem_range.mpr hm))).1
  · intro hall
    have habove : (List.range n).Subperm (numbers.take l) :=
      List.subperm_of_subset List.nodup_range fun m hm =>
        (mem_take_iff h hl).mpr ⟨hall m (List.mem_range.mp hm), List.mem_range.mp hm⟩
    have hle := hbelow.length_le
    have hge := habove.length_le
    rw [hlength, List.length_range] at hle hge
    exact Nat.le_antisymm hle hge

end TieredCache.Math.Numbering
