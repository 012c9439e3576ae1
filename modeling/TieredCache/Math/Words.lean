/-
# Counting in machine words

Sums and differences of machine words that do not wrap are those of the numbers they
stand for.
-/

import Mathlib.Algebra.Order.Group.Nat

namespace TieredCache.Math.Words

/-- A counter below its limit counts up. -/
theorem toNat_succ {x : UInt32} (h : x.toNat + 1 < 2 ^ 32) : (x + 1).toNat = x.toNat + 1 := by
  rw [UInt32.toNat_add]
  exact Nat.mod_eq_of_lt h

/-- A counter above zero counts down. -/
theorem toNat_pred {x : UInt32} (h : 0 < x.toNat) : (x - 1).toNat = x.toNat - 1 :=
  UInt32.toNat_sub_of_le _ _ (UInt32.le_iff_toNat_le.mpr h)

/-- The smaller of two words. -/
theorem toNat_min (x y : UInt64) : (min x y).toNat = min x.toNat y.toNat := by
  change (if x ≤ y then x else y).toNat = _
  by_cases h : x ≤ y
  · rw [if_pos h]
    exact (Nat.min_eq_left (UInt64.le_iff_toNat_le.mp h)).symm
  · rw [if_neg h]
    exact (Nat.min_eq_right (Nat.le_of_lt (UInt64.lt_iff_toNat_lt.mp (UInt64.not_le.mp h)))).symm

/-- The smaller of two 32-bit words. -/
theorem toNat_min_word32 (x y : UInt32) : (min x y).toNat = min x.toNat y.toNat := by
  change (if x ≤ y then x else y).toNat = _
  by_cases h : x ≤ y
  · rw [if_pos h]
    exact (Nat.min_eq_left (UInt32.le_iff_toNat_le.mp h)).symm
  · rw [if_neg h]
    exact (Nat.min_eq_right (Nat.le_of_lt (UInt32.lt_iff_toNat_lt.mp (UInt32.not_le.mp h)))).symm

/-- The larger of two words. -/
theorem toNat_max (x y : UInt64) : (max x y).toNat = max x.toNat y.toNat := by
  change (if x ≤ y then y else x).toNat = _
  by_cases h : x ≤ y
  · rw [if_pos h]
    exact (Nat.max_eq_right (UInt64.le_iff_toNat_le.mp h)).symm
  · rw [if_neg h]
    exact (Nat.max_eq_left (Nat.le_of_lt (UInt64.lt_iff_toNat_lt.mp (UInt64.not_le.mp h)))).symm

/-- A product that fits is exact. -/
theorem toNat_mul {x y : UInt64} (h : x.toNat * y.toNat < 2 ^ 64) :
    (x * y).toNat = x.toNat * y.toNat := by
  rw [UInt64.toNat_mul]
  exact Nat.mod_eq_of_lt h

/-- A sum that fits is exact. -/
theorem toNat_add {x y : UInt64} (h : x.toNat + y.toNat < 2 ^ 64) :
    (x + y).toNat = x.toNat + y.toNat := by
  rw [UInt64.toNat_add]
  exact Nat.mod_eq_of_lt h

end TieredCache.Math.Words
