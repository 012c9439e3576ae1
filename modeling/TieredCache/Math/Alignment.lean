/-
# Rounding to a block size

Rounding a byte position down and up to a multiple of a block size, as integer
division does it, and how wide the block-aligned window around a range can get.
-/

import Mathlib.Algebra.Order.Group.Nat
import Mathlib.Tactic.Ring

namespace TieredCache.Math.Alignment

variable {a n m : ℕ}

/-- The last multiple of `a` not above `n`. -/
def floor (a n : ℕ) : ℕ := n / a * a

/-- The first multiple of `a` not below `n`. -/
def ceil (a n : ℕ) : ℕ := (n + a - 1) / a * a

theorem dvd_floor (a n : ℕ) : a ∣ floor a n := Nat.dvd_mul_left a _

theorem dvd_ceil (a n : ℕ) : a ∣ ceil a n := Nat.dvd_mul_left a _

theorem floor_le (a n : ℕ) : floor a n ≤ n := Nat.div_mul_le_self n a

theorem lt_floor_add (ha : 0 < a) (n : ℕ) : n < floor a n + a := Nat.lt_div_mul_add ha

theorem floor_eq_zero (h : n < a) : floor a n = 0 := by
  simp [floor, Nat.div_eq_of_lt h]

theorem ceil_le (a n : ℕ) : ceil a n ≤ n + a - 1 := Nat.div_mul_le_self _ _

theorem le_ceil (ha : 0 < a) (n : ℕ) : n ≤ ceil a n := by
  have h := lt_floor_add ha (n + a - 1)
  unfold floor at h
  unfold ceil
  omega

/-- A multiple not above `n` is not above the floor of `n`. -/
theorem le_floor (hm : a ∣ m) (h : m ≤ n) : m ≤ floor a n := by
  obtain ⟨k, rfl⟩ := hm
  rcases Nat.eq_zero_or_pos a with rfl | ha
  · simp
  · have hk : k ≤ n / a := (Nat.le_div_iff_mul_le ha).mpr (by rwa [Nat.mul_comm])
    calc a * k = k * a := Nat.mul_comm a k
      _ ≤ n / a * a := Nat.mul_le_mul_right a hk

/-- The widest window a range of `len` bytes can need: from the block its first byte is
in to any multiple of the block size less than a block past its end. -/
theorem window_le (off len : ℕ) (ha : 0 < a) (hm : a ∣ m) (h : m ≤ off + len + a - 1) :
    m - floor a off ≤ floor a (len + 2 * a - 2) := by
  apply le_floor (Nat.dvd_sub hm (dvd_floor a off))
  have := lt_floor_add ha off
  omega

/-- A quotient survives the wrap of its dividend only if there is no wrap. -/
theorem mod_div_eq_iff (ha : 0 < a) (hle : a ≤ m) : n % m / a = n / a ↔ n < m := by
  constructor
  · intro heq
    by_contra hwrap
    have hmod := Nat.mod_add_div n m
    have hturns : m ≤ m * (n / m) :=
      Nat.le_mul_of_pos_right m (Nat.div_pos (Nat.le_of_not_lt hwrap) (by omega))
    have hnext : (n % m + a) / a ≤ n / a := Nat.div_le_div_right (by omega)
    rw [Nat.add_div_right _ ha] at hnext
    omega
  · intro hlt
    rw [Nat.mod_eq_of_lt hlt]

/-- Rounding down survives a wrap only if there is no wrap. -/
theorem floor_mod_eq_iff (ha : 0 < a) (hle : a ≤ m) : floor a (n % m) = floor a n ↔ n < m := by
  rw [← mod_div_eq_iff (n := n) ha hle]
  exact Nat.mul_left_inj (Nat.ne_of_gt ha)

end TieredCache.Math.Alignment
