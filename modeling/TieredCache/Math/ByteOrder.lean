/-
# Words in memory

Numbers as fixed counts of bytes, least significant byte first or last, and back.
-/

import Mathlib.Data.Nat.Digits.Defs
import Mathlib.Tactic.Ring

namespace TieredCache.Math

/-- The byte order of a machine. -/
inductive ByteOrder
  | little
  | big
  deriving DecidableEq, Repr

namespace ByteOrder

/-- The low bytes of a number, least significant first. -/
def lowBytes : ℕ → ℕ → List UInt8
  | 0, _ => []
  | count + 1, n => UInt8.ofNat n :: lowBytes count (n / 256)

/-- The number whose bytes these are, least significant first. -/
def ofLowBytes (bytes : List UInt8) : ℕ := Nat.ofDigits 256 (bytes.map UInt8.toNat)

variable (order : ByteOrder) {count n : ℕ} {bytes : List UInt8}

/-- How memory holds the low bytes of a number. -/
def store (count n : ℕ) : List UInt8 :=
  match order with
  | .little => lowBytes count n
  | .big => (lowBytes count n).reverse

/-- The number some bytes of memory hold. -/
def load (bytes : List UInt8) : ℕ :=
  match order with
  | .little => ofLowBytes bytes
  | .big => ofLowBytes bytes.reverse

@[simp]
theorem length_lowBytes (count n : ℕ) : (lowBytes count n).length = count := by
  induction count generalizing n with
  | zero => rfl
  | succ count ih => rw [lowBytes, List.length_cons, ih]

@[simp]
theorem length_store (count n : ℕ) : (order.store count n).length = count := by
  cases order <;> simp [store]

@[simp]
theorem ofLowBytes_cons (b : UInt8) (bytes : List UInt8) :
    ofLowBytes (b :: bytes) = b.toNat + 256 * ofLowBytes bytes := by
  simp [ofLowBytes, Nat.ofDigits_cons]

theorem ofLowBytes_lowBytes (count n : ℕ) : ofLowBytes (lowBytes count n) = n % 256 ^ count := by
  induction count generalizing n with
  | zero => simp [lowBytes, ofLowBytes, Nat.mod_one]
  | succ count ih =>
      rw [lowBytes, ofLowBytes_cons, ih, UInt8.toNat_ofNat', Nat.pow_succ' (m := 256)]
      exact (Nat.mod_mul (a := 256)).symm

/-- What is stored is loaded back, as far as the bytes go. -/
theorem load_store (count n : ℕ) : order.load (order.store count n) = n % 256 ^ count := by
  cases order with
  | little => exact ofLowBytes_lowBytes count n
  | big =>
      rw [load, store, List.reverse_reverse]
      exact ofLowBytes_lowBytes count n

/-- Whole bytes below a number are zero bytes on its low side. -/
theorem lowBytes_shift (low count n : ℕ) :
    lowBytes (low + count) (256 ^ low * n) = List.replicate low 0 ++ lowBytes count n := by
  induction low with
  | zero => simp
  | succ low ih =>
      have hpow : 256 ^ (low + 1) * n = 256 * (256 ^ low * n) := by ring
      have hzero : UInt8.ofNat (256 * (256 ^ low * n)) = 0 := by
        apply UInt8.toNat_inj.mp
        rw [UInt8.toNat_ofNat', Nat.mul_mod_right]
        rfl
      rw [Nat.add_right_comm, lowBytes, hpow, hzero, Nat.mul_div_cancel_left _ (by decide), ih,
        List.replicate_succ, List.cons_append]

end ByteOrder

end TieredCache.Math
