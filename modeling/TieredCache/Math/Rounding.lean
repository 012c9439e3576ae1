/-
# Rounding to floating-point numbers

A rounding moves a number by a small part of itself, as long as the number is zero or well inside
the range of the format.  The bounds are those of 64-bit floating-point numbers, with 53 significant
bits, in any direction of rounding.  An amount that is split in proportion to weights, every
operation rounded, goes to parts whose sum is less than twice the amount.
-/

import Mathlib.Algebra.BigOperators.Ring.List
import Mathlib.Algebra.Order.BigOperators.Group.List
import Mathlib.Algebra.Order.Field.Basic
import Mathlib.Algebra.Order.Ring.Pow
import Mathlib.Data.Int.Log
import Mathlib.Data.Rat.Floor
import Mathlib.Tactic.Linarith
import Mathlib.Tactic.NormNum
import Mathlib.Tactic.Positivity
import Mathlib.Tactic.Ring

namespace TieredCache.Math.Rounding

/-- The distance of two neighbouring numbers, as a part of the smaller. -/
def ulp : ℚ := 1 / 2 ^ 52

/-- Zero, and the numbers that are neither too small nor too large to have all their bits. -/
def Normal (x : ℚ) : Prop := x = 0 ∨ 1 / 2 ^ 200 ≤ x ∧ x ≤ 2 ^ 200

/-- A rounding moves a number by at most the distance to a neighbour. -/
structure Rounds (round : ℚ → ℚ) : Prop where
  near : ∀ x, Normal x → |round x - x| ≤ x * ulp

variable {round : ℚ → ℚ} {x : ℚ}

theorem Rounds.le (h : Rounds round) (hx : Normal x) : round x ≤ (1 + ulp) * x := by
  have hnear := (abs_le.mp (h.near x hx)).2
  linarith

theorem Rounds.ge (h : Rounds round) (hx : Normal x) : (1 - ulp) * x ≤ round x := by
  have hnear := (abs_le.mp (h.near x hx)).1
  linarith

theorem Normal.nonneg (hx : Normal x) : 0 ≤ x := by
  rcases hx with rfl | ⟨hleast, -⟩
  · exact le_rfl
  · exact le_trans (by positivity) hleast

/-- Zero, and what is at least one but not too large. -/
theorem normal_of_range (h : x = 0 ∨ 1 ≤ x ∧ x ≤ 2 ^ 64) : Normal x := by
  rcases h with rfl | ⟨hleast, hmost⟩
  · exact Or.inl rfl
  · exact Or.inr ⟨le_trans (by norm_num) hleast, hmost.trans (by norm_num)⟩

/-! ## Many roundings -/

theorem ulp_pos : 0 < ulp := by norm_num [ulp]

/-- Fewer than `2 ^ 33` roundings lose little. -/
theorem pow_down {n : ℕ} (hn : n ≤ 2 ^ 33) : 15 / 16 ≤ (1 - ulp) ^ n := by
  have hn : (n : ℚ) ≤ 2 ^ 33 := by exact_mod_cast hn
  have hbernoulli : 1 + n * -ulp ≤ (1 + -ulp) ^ n :=
    one_add_mul_le_pow (by norm_num [ulp]) n
  rw [← sub_eq_add_neg] at hbernoulli
  have hlost : n * ulp ≤ 2 ^ 33 * ulp := mul_le_mul_of_nonneg_right hn ulp_pos.le
  have hsmall : (2 ^ 33 * ulp : ℚ) ≤ 1 / 16 := by norm_num [ulp]
  linarith

/-- Nor do they gain much. -/
theorem pow_up {n : ℕ} (hn : n ≤ 2 ^ 33) : (1 + ulp) ^ n ≤ 16 / 15 := by
  have hdown := pow_down hn
  have hboth : (1 + ulp) ^ n * (1 - ulp) ^ n ≤ 1 := by
    rw [← mul_pow]
    exact pow_le_one₀ (by norm_num [ulp]) (by norm_num [ulp])
  have hpos : 0 ≤ (1 + ulp) ^ n := by
    have := ulp_pos
    positivity
  have hmul : (1 + ulp) ^ n * (15 / 16) ≤ (1 + ulp) ^ n * (1 - ulp) ^ n :=
    mul_le_mul_of_nonneg_left hdown hpos
  linarith

/-- A number that is off by that many roundings is little off. -/
theorem loose_of_pow {n : ℕ} (hn : n ≤ 2 ^ 33) {y : ℚ} (hx : 0 ≤ x)
    (h : (1 - ulp) ^ n * x ≤ y ∧ y ≤ (1 + ulp) ^ n * x) : 15 / 16 * x ≤ y ∧ y ≤ 16 / 15 * x := by
  constructor
  · exact (mul_le_mul_of_nonneg_right (pow_down hn) hx).trans h.1
  · exact h.2.trans (mul_le_mul_of_nonneg_right (pow_up hn) hx)

theorem Rounds.le_loose (h : Rounds round) (hx : Normal x) : round x ≤ 16 / 15 * x :=
  (h.le hx).trans (mul_le_mul_of_nonneg_right (by norm_num [ulp]) hx.nonneg)

theorem Rounds.ge_loose (h : Rounds round) (hx : Normal x) : 15 / 16 * x ≤ round x :=
  (mul_le_mul_of_nonneg_right (by norm_num [ulp]) hx.nonneg).trans (h.ge hx)

theorem Rounds.nonneg (h : Rounds round) (hx : Normal x) : 0 ≤ round x :=
  (mul_nonneg (by norm_num) hx.nonneg).trans (h.ge_loose hx)

/-- The sum of a list from the left, every addition rounded. -/
def roundedSum (round : ℚ → ℚ) (xs : List ℚ) : ℚ := xs.foldl (fun total x => round (total + x)) 0

/-- A list of weights: not too many, and none too small or too large. -/
structure Weights (ws : List ℚ) : Prop where
  few : ws.length ≤ 2 ^ 32
  sized : ∀ w ∈ ws, 1 / 2 ≤ w ∧ w ≤ 2 ^ 130

variable {ws : List ℚ} {w amount : ℚ}

theorem Weights.sum_nonneg (h : Weights ws) : 0 ≤ ws.sum :=
  List.sum_nonneg fun w hw => by linarith [(h.sized w hw).1]

theorem Weights.sum_le (h : Weights ws) : ws.sum ≤ 2 ^ 162 := by
  have hsum : ws.sum ≤ ws.length • (2 ^ 130 : ℚ) :=
    List.sum_le_card_nsmul ws _ fun w hw => (h.sized w hw).2
  have hfew : (ws.length : ℚ) ≤ 2 ^ 32 := by exact_mod_cast h.few
  calc ws.sum
      ≤ ws.length * (2 ^ 130 : ℚ) := by rwa [nsmul_eq_mul] at hsum
    _ ≤ 2 ^ 32 * 2 ^ 130 := mul_le_mul_of_nonneg_right hfew (by positivity)
    _ = 2 ^ 162 := by norm_num

theorem Weights.le_sum (h : Weights ws) (hw : w ∈ ws) : w ≤ ws.sum :=
  List.single_le_sum (fun v hv => by linarith [(h.sized v hv).1]) w hw

/-- Rounding a sum multiplies each addition's error. -/
theorem roundedSum_bounds (hround : Rounds round) (h : Weights ws) :
    (1 - ulp) ^ ws.length * ws.sum ≤ roundedSum round ws ∧
      roundedSum round ws ≤ (1 + ulp) ^ ws.length * ws.sum := by
  induction ws using List.reverseRecOn with
  | nil => simp [roundedSum]
  | append_singleton ws w ih =>
      have hless : Weights ws := by
        refine ⟨?_, fun v hv => h.sized v (List.mem_append_left _ hv)⟩
        have hfew := h.few
        rw [List.length_append] at hfew
        omega
      obtain ⟨hdown, hup⟩ := ih hless
      obtain ⟨hleast, -⟩ := h.sized w (List.mem_append_right _ List.mem_cons_self)
      have hsum : (ws ++ [w]).sum = ws.sum + w := by rw [List.sum_append, List.sum_singleton]
      have hnonneg := hless.sum_nonneg
      have hmost := h.sum_le
      rw [hsum] at hmost
      have hfew := hless.few
      obtain ⟨hlow, hhigh⟩ := loose_of_pow (by omega) hnonneg ⟨hdown, hup⟩
      have hone : (1 - ulp) ^ ws.length ≤ 1 := pow_le_one₀ (by norm_num [ulp]) (by norm_num [ulp])
      have hless_one : 1 ≤ (1 + ulp) ^ ws.length := one_le_pow₀ (by norm_num [ulp])
      have hnormal : Normal (roundedSum round ws + w) := by
        right
        constructor
        · have : (1 : ℚ) / 2 ^ 200 ≤ 1 / 2 := by norm_num
          linarith
        · have : (2 : ℚ) * 2 ^ 162 ≤ 2 ^ 200 := by norm_num
          linarith
      have hnext : roundedSum round (ws ++ [w]) = round (roundedSum round ws + w) := by
        rw [roundedSum, List.foldl_append]
        rfl
      rw [hnext, hsum, List.length_append, List.length_singleton, pow_succ', pow_succ']
      constructor
      · calc (1 - ulp) * (1 - ulp) ^ ws.length * (ws.sum + w)
            = (1 - ulp) * ((1 - ulp) ^ ws.length * ws.sum + (1 - ulp) ^ ws.length * w) := by ring
          _ ≤ (1 - ulp) * (roundedSum round ws + w) := by
              apply mul_le_mul_of_nonneg_left _ (by norm_num [ulp])
              exact add_le_add hdown (mul_le_of_le_one_left (by linarith) hone)
          _ ≤ round (roundedSum round ws + w) := hround.ge hnormal
      · calc round (roundedSum round ws + w)
            ≤ (1 + ulp) * (roundedSum round ws + w) := hround.le hnormal
          _ ≤ (1 + ulp) * ((1 + ulp) ^ ws.length * ws.sum + (1 + ulp) ^ ws.length * w) := by
              apply mul_le_mul_of_nonneg_left _ (by norm_num [ulp])
              exact add_le_add hup (le_mul_of_one_le_left (by linarith) hless_one)
          _ = (1 + ulp) * (1 + ulp) ^ ws.length * (ws.sum + w) := by ring

/-! ## Proportional parts -/

/-- The part of an amount that goes to a weight out of a total. -/
def part (round : ℚ → ℚ) (total amount w : ℚ) : ℚ :=
  round (round (w / total) * round amount)

/-- The share of a weight out of the rounded total. -/
theorem share_bounds (hround : Rounds round) (h : Weights ws) (hw : w ∈ ws) :
    1 / 2 ^ 164 ≤ w / roundedSum round ws ∧
      w / roundedSum round ws ≤ 16 / 15 * (w / ws.sum) := by
  obtain ⟨hleast, -⟩ := h.sized w hw
  have hfew := h.few
  have hsum := h.le_sum hw
  have hmany := h.sum_le
  obtain ⟨hlow, hhigh⟩ :=
    loose_of_pow (by omega) h.sum_nonneg (roundedSum_bounds hround h)
  have hsums : 0 < ws.sum := by linarith
  have htotal : 0 < roundedSum round ws := by linarith
  constructor
  · rw [div_le_div_iff₀ (by positivity) htotal]
    have : (16 / 15 * 2 ^ 162 : ℚ) ≤ 1 / 2 * 2 ^ 164 := by norm_num
    linarith
  · rw [mul_div_assoc', div_le_div_iff₀ htotal hsums]
    have hmul := mul_le_mul_of_nonneg_left hlow (show 0 ≤ 16 / 15 * w by linarith)
    linarith

/-- A rounded share times a rounded amount. -/
theorem normal_product (hround : Rounds round) {share : ℚ} (hlow : 1 / 2 ^ 164 ≤ share)
    (hhigh : share ≤ 2) (hamount : amount = 0 ∨ 1 ≤ amount ∧ amount ≤ 2 ^ 64) :
    Normal (round share * round amount) := by
  have hshare : Normal share :=
    Or.inr ⟨le_trans (by norm_num) hlow, hhigh.trans (by norm_num)⟩
  have hshareDown := hround.ge_loose hshare
  have hshareUp := hround.le_loose hshare
  have hshareNonneg := hround.nonneg hshare
  have hamountDown := hround.ge_loose (normal_of_range hamount)
  have hamountUp := hround.le_loose (normal_of_range hamount)
  have hamountNonneg := hround.nonneg (normal_of_range hamount)
  rcases hamount with rfl | ⟨hleast, hmost⟩
  · left
    rw [mul_zero] at hamountUp
    rw [le_antisymm hamountUp hamountNonneg, mul_zero]
  · right
    constructor
    · calc (1 : ℚ) / 2 ^ 200
          ≤ 15 / 16 * (1 / 2 ^ 164) * (15 / 16 * 1) := by norm_num
        _ ≤ round share * round amount :=
            mul_le_mul (by linarith) (by linarith) (by norm_num) hshareNonneg
    · calc round share * round amount
          ≤ 16 / 15 * 2 * (16 / 15 * 2 ^ 64) :=
            mul_le_mul (by linarith) (by linarith) hamountNonneg (by norm_num)
        _ ≤ 2 ^ 200 := by norm_num

/-- A part is little more than its share of the amount. -/
theorem part_bounds (hround : Rounds round) (h : Weights ws) (hw : w ∈ ws)
    (hamount : amount = 0 ∨ 1 ≤ amount ∧ amount ≤ 2 ^ 64) :
    0 ≤ part round (roundedSum round ws) amount w ∧
      part round (roundedSum round ws) amount w ≤ 3 / 2 * (w / ws.sum) * amount := by
  obtain ⟨hleast, -⟩ := h.sized w hw
  obtain ⟨hlow, hhigh⟩ := share_bounds hround h hw
  have hone : w / ws.sum ≤ 1 := div_le_one_of_le₀ (h.le_sum hw) h.sum_nonneg
  have hpos : 0 ≤ w / ws.sum := div_nonneg (by linarith) h.sum_nonneg
  rw [part]
  generalize w / roundedSum round ws = share at hlow hhigh ⊢
  have htwo : share ≤ 2 := by linarith
  have hshare : Normal share :=
    Or.inr ⟨le_trans (by norm_num) hlow, htwo.trans (by norm_num)⟩
  have hamountNormal := normal_of_range hamount
  have hnormal := normal_product hround hlow htwo hamount
  have hshareUp : round share ≤ 16 / 15 * (16 / 15 * (w / ws.sum)) := by
    have hup := hround.le_loose hshare
    linarith
  have hproduct : round share * round amount ≤
      16 / 15 * (16 / 15 * (w / ws.sum)) * (16 / 15 * amount) :=
    mul_le_mul hshareUp (hround.le_loose hamountNormal) (hround.nonneg hamountNormal)
      (by positivity)
  constructor
  · exact hround.nonneg hnormal
  · calc round (round share * round amount)
        ≤ 16 / 15 * (round share * round amount) := hround.le_loose hnormal
      _ ≤ 16 / 15 * (16 / 15 * (16 / 15 * (w / ws.sum)) * (16 / 15 * amount)) :=
          mul_le_mul_of_nonneg_left hproduct (by norm_num)
      _ = (16 / 15) ^ 4 * (w / ws.sum * amount) := by ring
      _ ≤ 3 / 2 * (w / ws.sum * amount) :=
          mul_le_mul_of_nonneg_right (by norm_num) (mul_nonneg hpos hamountNormal.nonneg)
      _ = 3 / 2 * (w / ws.sum) * amount := by ring

/-- The parts of an amount are together less than twice the amount. -/
theorem sum_parts_le (hround : Rounds round) (h : Weights ws)
    (hamount : amount = 0 ∨ 1 ≤ amount ∧ amount ≤ 2 ^ 64) :
    (ws.map (part round (roundedSum round ws) amount)).sum ≤ 3 / 2 * amount := by
  have hparts : (ws.map (part round (roundedSum round ws) amount)).sum ≤
      (ws.map fun w => 3 / 2 * amount / ws.sum * w).sum := by
    apply List.sum_le_sum
    intro w hw
    calc part round (roundedSum round ws) amount w
        ≤ 3 / 2 * (w / ws.sum) * amount := (part_bounds hround h hw hamount).2
      _ = 3 / 2 * amount / ws.sum * w := by ring
  apply hparts.trans
  rw [List.sum_map_mul_left, List.map_id']
  rcases h.sum_nonneg.eq_or_lt with hzero | hpos
  · rw [← hzero, mul_zero]
    rcases hamount with rfl | ⟨hleast, -⟩ <;> linarith
  · rw [div_mul_cancel₀ _ hpos.ne']

/-! ## To the nearest -/

/-- The nearest integer, of two the even one. -/
def nearestEven (x : ℚ) : ℤ :=
  if Int.fract x = 1 / 2 then ⌊x⌋ + ⌊x⌋ % 2 else ⌊x + 1 / 2⌋

/-- The nearest number of 53 significant bits, of two the even one. -/
def nearest (x : ℚ) : ℚ :=
  let unit : ℚ := 2 ^ (Int.log 2 x - 52)
  nearestEven (x / unit) * unit

theorem nearestEven_near (x : ℚ) : |(nearestEven x : ℚ) - x| ≤ 1 / 2 := by
  unfold nearestEven
  split_ifs with h
  · have hx := Int.floor_add_fract x
    rw [h] at hx
    rcases Int.emod_two_eq_zero_or_one ⌊x⌋ with heven | hodd
    · rw [heven, add_zero, abs_le]
      constructor <;> linarith
    · rw [hodd, Int.cast_add, Int.cast_one, abs_le]
      constructor <;> linarith
  · have hfloor := Int.floor_le (x + 1 / 2)
    have hnext := Int.lt_floor_add_one (x + 1 / 2)
    rw [abs_le]
    constructor <;> linarith

theorem nearest_rounds : Rounds nearest where
  near := fun x hx => by
    rcases hx with rfl | ⟨hleast, -⟩
    · norm_num [nearest, nearestEven]
    · have hpos : 0 < x := lt_of_lt_of_le (by positivity) hleast
      have hlog : (2 : ℚ) ^ Int.log 2 x ≤ x := Int.zpow_log_le_self (by decide) hpos
      dsimp only [nearest]
      rw [zpow_sub₀ two_ne_zero]
      generalize hunit : (2 : ℚ) ^ Int.log 2 x / 2 ^ (52 : ℤ) = unit
      have hunitPos : 0 < unit := by
        rw [← hunit]
        exact div_pos (zpow_pos two_pos _) (zpow_pos two_pos _)
      calc |nearestEven (x / unit) * unit - x|
          = |(nearestEven (x / unit) : ℚ) - x / unit| * unit := by
            rw [← abs_of_pos hunitPos, ← abs_mul, abs_of_pos hunitPos, sub_mul,
              div_mul_cancel₀ _ hunitPos.ne']
        _ ≤ 1 / 2 * unit := mul_le_mul_of_nonneg_right (nearestEven_near _) hunitPos.le
        _ ≤ x * ulp := by
            rw [← hunit, ulp]
            norm_num
            linarith

end TieredCache.Math.Rounding
