/-
# Bytes of a memory

A memory gives a byte at every position; ranges of it are lists of bytes.
-/

import Mathlib.Data.List.Basic

namespace TieredCache.Math.Memory

/-- The bytes of a memory from `start` on. -/
def bytes (m : ℕ → UInt8) (start length : ℕ) : List UInt8 :=
  (List.range length).map fun k => m (start + k)

variable {m m' : ℕ → UInt8} {start start' length : ℕ}

@[simp]
theorem length_bytes (m : ℕ → UInt8) (start length : ℕ) : (bytes m start length).length = length := by
  simp [bytes]

@[simp]
theorem getElem_bytes (m : ℕ → UInt8) (start : ℕ) {k : ℕ} (hk : k < (bytes m start length).length) :
    (bytes m start length)[k] = m (start + k) := by
  simp [bytes]

/-- Ranges that agree position by position hold the same bytes. -/
theorem bytes_congr (h : ∀ k < length, m (start + k) = m' (start' + k)) :
    bytes m start length = bytes m' start' length := by
  apply List.map_congr_left
  intro k hk
  exact h k (List.mem_range.mp hk)

end TieredCache.Math.Memory
