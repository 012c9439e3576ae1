/-
# Slices of lists

Parts of a list and lists written over a part of another one, as buffers are read and
filled piece by piece.
-/

import Mathlib.Data.List.Basic

namespace TieredCache.Math.Slices

universe u
variable {α : Type u} {xs ys dest bytes : List α} {start length start' length' off n : ℕ}

/-- `length` elements from `start` on. -/
def slice (xs : List α) (start length : ℕ) : List α := (xs.drop start).take length

/-- Write over the elements from `off` on. -/
def overwrite (dest : List α) (off : ℕ) (bytes : List α) : List α :=
  dest.take off ++ (bytes ++ dest.drop (off + bytes.length))

theorem length_slice (h : start + length ≤ xs.length) : (slice xs start length).length = length := by
  rw [slice, List.length_take, List.length_drop]
  omega

theorem slice_zero (xs : List α) (start : ℕ) : slice xs start 0 = [] := List.take_zero

/-- Neighbouring slices make one. -/
theorem slice_append (xs : List α) (start length length' : ℕ) :
    slice xs start length ++ slice xs (start + length) length' =
      slice xs start (length + length') := by
  rw [slice, slice, slice, List.take_add, List.drop_drop]

/-- A slice of a slice. -/
theorem slice_slice (h : start' + length' ≤ length) :
    slice (slice xs start length) start' length' = slice xs (start + start') length' := by
  rw [slice, slice, slice, List.drop_take, List.take_take, List.drop_drop]
  congr 1
  omega

/-- A slice does not look behind its end. -/
theorem slice_of_take (h : start + length ≤ n) (heq : xs.take n = ys.take n) :
    slice xs start length = slice ys start length := by
  have hxs : slice (xs.take n) start length = slice xs start length := by
    rw [slice, List.drop_take, List.take_take, slice]
    congr 1
    omega
  have hys : slice (ys.take n) start length = slice ys start length := by
    rw [slice, List.drop_take, List.take_take, slice]
    congr 1
    omega
  rw [← hxs, heq, hys]

/-- A piece of a buffer that holds a slice of a source. -/
theorem slice_of_take_eq (h : ys.take length = slice xs start length) (hlo : start ≤ start')
    (hhi : start' + length' ≤ start + length) :
    slice ys (start' - start) length' = slice xs start' length' := by
  have hself : (slice xs start length).take length = slice xs start length := by
    rw [slice, List.take_take, Nat.min_self]
  have hfits : start' - start + length' ≤ length := by omega
  rw [slice_of_take hfits (h.trans hself.symm), slice_slice hfits]
  congr 1
  omega

/-- A beginning that is read in two pieces. -/
theorem take_append_take_drop (xs : List α) (n length : ℕ) :
    (xs.take n).take length ++ (xs.drop n).take (length - ((xs.take n).take length).length) =
      xs.take length := by
  have hsecond : (xs.drop n).take (length - ((xs.take n).take length).length) =
      (xs.take length).drop n := by
    rw [List.drop_take, List.length_take, List.length_take]
    rcases Nat.le_total n xs.length with hle | hge
    · congr 1
      omega
    · rw [List.drop_of_length_le hge, List.take_nil, List.take_nil]
  rw [hsecond, List.take_take, Nat.min_comm, ← List.take_take, List.take_append_drop]

theorem length_overwrite (h : off + bytes.length ≤ dest.length) :
    (overwrite dest off bytes).length = dest.length := by
  rw [overwrite, List.length_append, List.length_append, List.length_take, List.length_drop]
  omega

/-- What stands before the end of what has been written. -/
theorem take_overwrite (h : off ≤ dest.length) :
    (overwrite dest off bytes).take (off + bytes.length) = dest.take off ++ bytes := by
  rw [overwrite, ← List.append_assoc]
  apply List.take_left'
  rw [List.length_append, List.length_take, Nat.min_eq_left h]

/-- What stands behind what has been written. -/
theorem drop_overwrite (h : off ≤ dest.length) :
    (overwrite dest off bytes).drop (off + bytes.length) = dest.drop (off + bytes.length) := by
  rw [overwrite, ← List.append_assoc]
  apply List.drop_left'
  rw [List.length_append, List.length_take, Nat.min_eq_left h]

/-- Two neighbouring pieces are one. -/
theorem overwrite_append (h : off ≤ dest.length) (more : List α) :
    overwrite (overwrite dest off bytes) (off + bytes.length) more =
      overwrite dest off (bytes ++ more) := by
  have hbehind : (overwrite dest off bytes).drop (off + bytes.length + more.length) =
      dest.drop (off + bytes.length + more.length) := by
    rw [← List.drop_drop, drop_overwrite h, List.drop_drop]
  rw [overwrite, take_overwrite h, hbehind, overwrite, List.length_append, Nat.add_assoc,
    List.append_assoc, List.append_assoc]

theorem overwrite_nil (dest : List α) (off : ℕ) : overwrite dest off [] = dest := by
  rw [overwrite, List.nil_append, List.length_nil, Nat.add_zero, List.take_append_drop]

/-- A buffer that is filled from its start. -/
theorem overwrite_all (h : dest.length = bytes.length) : overwrite dest 0 bytes = bytes := by
  rw [overwrite, List.take_zero, List.nil_append, Nat.zero_add, ← h, List.drop_length,
    List.append_nil]

end TieredCache.Math.Slices
