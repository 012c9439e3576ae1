/-
# Ring buffers

A queue in a fixed number of cells, with the index of its first item and the number of items.
Pushing and popping are those of the list of its items.
-/

import Mathlib.Data.List.Basic
import Mathlib.Data.Nat.ModEq
import Mathlib.Logic.Function.Basic

namespace TieredCache.Math

universe u

/-- The cells of a ring, where its items begin and how many they are. -/
structure Ring (α : Type u) (capacity : ℕ) where
  cells : Fin capacity → α
  head : Fin capacity
  size : ℕ
  size_le : size ≤ capacity

namespace Ring

variable {α : Type u} {capacity : ℕ} {r r' : Ring α capacity} {x : α}

/-- The cell of an item. -/
def cell (head : Fin capacity) (i : ℕ) : Fin capacity :=
  ⟨(head.val + i) % capacity, Nat.mod_lt _ head.pos⟩

/-- No items, in cells that hold some value. -/
def empty (h : 0 < capacity) (x : α) : Ring α capacity where
  cells := fun _ => x
  head := ⟨0, h⟩
  size := 0
  size_le := Nat.zero_le _

/-- Put an item behind the others, if there is room. -/
def push (r : Ring α capacity) (x : α) : Option (Ring α capacity) :=
  if h : r.size = capacity then none
  else
    some
      { cells := Function.update r.cells (cell r.head r.size) x
        head := r.head
        size := r.size + 1
        size_le := Nat.lt_of_le_of_ne r.size_le h }

/-- Take the first item away, if there is one. -/
def pop (r : Ring α capacity) : Option (α × Ring α capacity) :=
  if r.size = 0 then none
  else
    some (r.cells r.head,
      { cells := r.cells
        head := cell r.head 1
        size := r.size - 1
        size_le := Nat.le_trans (Nat.sub_le _ _) r.size_le })

/-- Take items away, at most so many. -/
def popAll : ℕ → Ring α capacity → List α × Ring α capacity
  | 0, r => ([], r)
  | n + 1, r =>
      match r.pop with
      | none => ([], r)
      | some (x, r) =>
          let (xs, r) := popAll n r
          (x :: xs, r)

/-- The items, first to last. -/
def items (r : Ring α capacity) : List α :=
  (List.range r.size).map fun i => r.cells (cell r.head i)

@[simp]
theorem length_items (r : Ring α capacity) : r.items.length = r.size := by
  simp [items]

theorem items_eq_nil_iff : r.items = [] ↔ r.size = 0 := by
  rw [← List.length_eq_zero_iff, length_items]

/-- Items in different places of the ring are in different cells. -/
theorem cell_injOn {head : Fin capacity} {i j : ℕ} (hi : i < capacity) (hj : j < capacity)
    (h : cell head i = cell head j) : i = j := by
  have hmod : Nat.ModEq capacity (head.val + i) (head.val + j) := Fin.mk.inj h
  exact (Nat.ModEq.add_left_cancel' head.val hmod).eq_of_lt_of_lt hi hj

theorem cell_zero (head : Fin capacity) : cell head 0 = head := by
  ext
  simp [cell, Nat.mod_eq_of_lt head.isLt]

theorem cell_cell (head : Fin capacity) (i j : ℕ) : cell (cell head i) j = cell head (i + j) := by
  ext
  simp [cell, Nat.add_assoc]

/-- A push puts the item behind the others. -/
theorem items_push (h : r.push x = some r') : r'.items = r.items ++ [x] := by
  unfold push at h
  split_ifs at h with hfull
  cases h
  have hroom : r.size < capacity := Nat.lt_of_le_of_ne r.size_le hfull
  simp only [items, List.range_succ, List.map_append, List.map_singleton, Function.update_self]
  congr 1
  apply List.map_congr_left
  intro i hi
  have hlt : i < r.size := List.mem_range.mp hi
  apply Function.update_of_ne
  intro heq
  exact absurd (cell_injOn (lt_trans hlt hroom) hroom heq) (Nat.ne_of_lt hlt)

theorem pop_eq_none_iff : r.pop = none ↔ r.size = 0 := by
  simp [pop]

/-- A pop takes the first item. -/
theorem items_pop (h : r.pop = some (x, r')) : r.items = x :: r'.items := by
  unfold pop at h
  split_ifs at h with hempty
  cases h
  obtain ⟨n, hn⟩ := Nat.exists_eq_succ_of_ne_zero hempty
  simp only [items, hn, Nat.succ_sub_one, List.range_succ_eq_map, List.map_cons, List.map_map,
    cell_zero]
  congr 1
  apply List.map_congr_left
  intro i _
  simp only [Function.comp_apply, cell_cell, Nat.succ_eq_add_one, Nat.add_comm]

/-- Popping as often as there are items takes all of them. -/
theorem popAll_eq {n : ℕ} (hn : r.size ≤ n) :
    (popAll n r).1 = r.items ∧ (popAll n r).2.size = 0 := by
  induction n generalizing r with
  | zero =>
      have hempty : r.size = 0 := Nat.le_zero.mp hn
      exact ⟨(items_eq_nil_iff.mpr hempty).symm, hempty⟩
  | succ n ih =>
      unfold popAll
      cases hpop : r.pop with
      | none =>
          have hempty := pop_eq_none_iff.mp hpop
          exact ⟨(items_eq_nil_iff.mpr hempty).symm, hempty⟩
      | some taken =>
          have hitems := items_pop hpop
          have hsize := congrArg List.length hitems
          rw [length_items, List.length_cons, length_items] at hsize
          obtain ⟨hall, hnone⟩ := ih (r := taken.2) (by omega)
          exact ⟨by rw [hitems, ← hall], hnone⟩

end Ring

end TieredCache.Math
