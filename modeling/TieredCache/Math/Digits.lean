/-
# Written numbers

Numbers written in a base, at a fixed width or as short as possible, most significant
digit first, and fields that are told apart by a separator.
-/

import Mathlib.Data.List.Basic
import Mathlib.Algebra.Order.Group.Nat

namespace TieredCache.Math.Digits

universe u
variable {α : Type u} {base width m n : ℕ} {digits : List ℕ}

/-- The last `width` digits of a number. -/
def fixedWidth (base : ℕ) : ℕ → ℕ → List ℕ
  | 0, _ => []
  | width + 1, n => fixedWidth base width (n / base) ++ [n % base]

/-- The number some digits write. -/
def value (base : ℕ) (digits : List ℕ) : ℕ := digits.foldl (fun v digit => v * base + digit) 0

/-- A number without leading zeros, written from at most `width` digits. -/
def shortest (base width n : ℕ) : List ℕ :=
  match (fixedWidth base width n).dropWhile (· == 0) with
  | [] => [0]
  | digit :: digits => digit :: digits

@[simp]
theorem length_fixedWidth (base width n : ℕ) : (fixedWidth base width n).length = width := by
  induction width generalizing n with
  | zero => rfl
  | succ width ih => simp [fixedWidth, ih]

theorem value_append (base : ℕ) (digits : List ℕ) (digit : ℕ) :
    value base (digits ++ [digit]) = value base digits * base + digit := by
  simp [value]

/-- Enough digits write the number. -/
theorem value_fixedWidth (h : n < base ^ width) : value base (fixedWidth base width n) = n := by
  induction width generalizing n with
  | zero =>
      rw [Nat.pow_zero, Nat.lt_one_iff] at h
      rw [h]
      rfl
  | succ width ih =>
      have hdiv : n / base < base ^ width := by
        apply Nat.div_lt_of_lt_mul
        rwa [Nat.mul_comm, ← Nat.pow_succ]
      rw [fixedWidth, value_append, ih hdiv, Nat.mul_comm]
      exact Nat.div_add_mod n base

theorem lt_of_mem_fixedWidth (hbase : 0 < base) {digit : ℕ}
    (h : digit ∈ fixedWidth base width n) : digit < base := by
  induction width generalizing n with
  | zero => cases h
  | succ width ih =>
      rcases List.mem_append.mp h with h | h
      · exact ih h
      · rw [List.mem_singleton.mp h]
        exact Nat.mod_lt _ hbase

/-- Numbers of at most `width` digits are told apart by them. -/
theorem fixedWidth_inj (hm : m < base ^ width) (hn : n < base ^ width)
    (h : fixedWidth base width m = fixedWidth base width n) : m = n := by
  rw [← value_fixedWidth hm, h, value_fixedWidth hn]

/-- Leading zeros write nothing. -/
theorem value_dropWhile (base : ℕ) (digits : List ℕ) :
    value base (digits.dropWhile (· == 0)) = value base digits := by
  induction digits with
  | nil => rfl
  | cons digit digits ih =>
      by_cases hzero : digit = 0
      · subst hzero
        rw [List.dropWhile_cons_of_pos (by rfl), ih]
        simp [value]
      · rw [List.dropWhile_cons_of_neg (by simpa using hzero)]

theorem value_shortest (h : n < base ^ width) : value base (shortest base width n) = n := by
  have hvalue := value_dropWhile base (fixedWidth base width n)
  rw [value_fixedWidth h] at hvalue
  unfold shortest
  split <;> rename_i hdigits <;> rw [hdigits] at hvalue
  · simpa [value] using hvalue
  · exact hvalue

theorem lt_of_mem_shortest (hbase : 0 < base) {digit : ℕ}
    (h : digit ∈ shortest base width n) : digit < base := by
  unfold shortest at h
  split at h
  · rwa [List.mem_singleton.mp h]
  · rename_i head tail hdigits
    rw [← hdigits] at h
    exact lt_of_mem_fixedWidth hbase ((List.dropWhile_sublist _).subset h)

theorem shortest_inj (hm : m < base ^ width) (hn : n < base ^ width)
    (h : shortest base width m = shortest base width n) : m = n := by
  rw [← value_shortest hm, h, value_shortest hn]

/-! ## Separators -/

/-- Fields without the separator are told apart by it. -/
theorem append_separator_inj {separator : α} {left right left' right' : List α}
    (hleft : separator ∉ left) (hleft' : separator ∉ left')
    (h : left ++ separator :: right = left' ++ separator :: right') :
    left = left' ∧ right = right' := by
  induction left generalizing left' with
  | nil =>
      cases left' with
      | nil => exact ⟨rfl, List.tail_eq_of_cons_eq h⟩
      | cons head tail =>
          rw [List.nil_append, List.cons_append] at h
          exact absurd (List.head_eq_of_cons_eq h) fun heq => hleft' (heq ▸ List.mem_cons_self)
  | cons head tail ih =>
      cases left' with
      | nil =>
          rw [List.nil_append, List.cons_append] at h
          exact absurd (List.head_eq_of_cons_eq h) fun heq => hleft (heq ▸ List.mem_cons_self)
      | cons head' tail' =>
          rw [List.cons_append, List.cons_append] at h
          obtain ⟨hhead, htail⟩ := List.cons_eq_cons.mp h
          obtain ⟨htails, hrights⟩ := ih (fun hmem => hleft (List.mem_cons_of_mem _ hmem))
            (fun hmem => hleft' (List.mem_cons_of_mem _ hmem)) htail
          exact ⟨by rw [hhead, htails], hrights⟩

/-- A separator that does not overlap itself: no proper end of it is a beginning of it. -/
def Unbordered (separator : List α) : Prop :=
  ∀ left right, separator = left ++ right → right <+: separator → left = [] ∨ right = []

/-- Two splits at a separator, the first one not later. -/
theorem append_unbordered_of_prefix {separator left right left' right' : List α}
    (hseparator : Unbordered separator) (hbegins : left <+: left')
    (h : left ++ (separator ++ right) = left' ++ (separator ++ right')) :
    left' = left ∧ right' = right ∨
      ∃ middle, left' = left ++ (separator ++ middle) ∧ right = middle ++ (separator ++ right') := by
  obtain ⟨between, rfl⟩ := hbegins
  rw [List.append_assoc] at h
  have h := List.append_cancel_left h
  by_cases hlong : separator.length ≤ between.length
  · obtain ⟨middle, rfl⟩ : separator <+: between :=
      List.prefix_of_prefix_length_le ⟨right, h⟩ (List.prefix_append _ _) hlong
    rw [List.append_assoc] at h
    exact Or.inr ⟨middle, rfl, List.append_cancel_left h⟩
  · obtain ⟨rest, hrest⟩ : between <+: separator :=
      List.prefix_of_prefix_length_le ⟨_, h.symm⟩ (List.prefix_append _ _)
        (Nat.le_of_not_le hlong)
    have hborder : rest <+: separator := by
      rw [← hrest, List.append_assoc] at h
      have htail := List.append_cancel_left h
      rw [hrest] at htail
      refine List.prefix_of_prefix_length_le ⟨right, htail⟩ (List.prefix_append _ _) ?_
      rw [← hrest, List.length_append]
      exact Nat.le_add_left _ _
    rcases hseparator between rest hrest.symm hborder with rfl | rfl
    · refine Or.inl ⟨List.append_nil _, ?_⟩
      exact (List.append_cancel_left h).symm
    · rw [List.append_nil] at hrest
      rw [hrest] at hlong
      exact absurd le_rfl hlong

/-- Two splits at a separator that does not overlap itself are the same, or what one of them
has on one side of the separator contains the separator. -/
theorem append_unbordered {separator left right left' right' : List α}
    (hseparator : Unbordered separator)
    (h : left ++ (separator ++ right) = left' ++ (separator ++ right')) :
    left' = left ∧ right' = right ∨
      (∃ middle, left' = left ++ (separator ++ middle) ∧
        right = middle ++ (separator ++ right')) ∨
      ∃ middle, left = left' ++ (separator ++ middle) ∧
        right' = middle ++ (separator ++ right) := by
  rcases Nat.le_total left.length left'.length with hle | hle
  · have hbegins : left <+: left' :=
      List.prefix_of_prefix_length_le ⟨_, h⟩ (List.prefix_append _ _) hle
    rcases append_unbordered_of_prefix hseparator hbegins h with hsame | hmiddle
    · exact Or.inl hsame
    · exact Or.inr (Or.inl hmiddle)
  · have hbegins : left' <+: left :=
      List.prefix_of_prefix_length_le ⟨_, h.symm⟩ (List.prefix_append _ _) hle
    rcases append_unbordered_of_prefix hseparator hbegins h.symm with ⟨rfl, rfl⟩ | hmiddle
    · exact Or.inl ⟨rfl, rfl⟩
    · exact Or.inr (Or.inr hmiddle)

end TieredCache.Math.Digits
