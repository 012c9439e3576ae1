/-
# Searching and splitting text

The first occurrence of a word in a list, and a list cut at every occurrence of a pair of
elements, as line endings cut a text into lines.
-/

import Mathlib.Data.List.Basic

namespace TieredCache.Math.Text

universe u
variable {α : Type u} [DecidableEq α] {a b c : α} {needle left right line rest : List α}

/-- Where a word first occurs. -/
def find (needle : List α) : List α → Option ℕ
  | [] => if needle = [] then some 0 else none
  | x :: xs => if needle <+: x :: xs then some 0 else (find needle xs).map (· + 1)

/-- The pieces between the pairs `a`, `b`. -/
def lines (a b : α) : List α → List (List α)
  | [] => [[]]
  | [x] => [[x]]
  | x :: y :: rest =>
      if x = a ∧ y = b then [] :: lines a b rest
      else
        match lines a b (y :: rest) with
        | [] => [[x]]
        | line :: others => (x :: line) :: others

/-- A word that starts here is found here. -/
theorem find_of_prefix (h : needle <+: left) : find needle left = some 0 := by
  cases left with
  | nil => rw [find, if_pos (List.prefix_nil.mp h)]
  | cons x xs => rw [find, if_pos h]

theorem find_cons_of_not_prefix (h : ¬ needle <+: a :: left) :
    find needle (a :: left) = (find needle left).map (· + 1) := by
  rw [find, if_neg h]

/-- A word does not start in a part without its first element. -/
theorem find_append_of_not_mem (h : a ∉ left) :
    find (a :: needle) (left ++ right) = (find (a :: needle) right).map (· + left.length) := by
  induction left with
  | nil => simp
  | cons x xs ih =>
      obtain ⟨hx, hxs⟩ := List.ne_and_not_mem_of_not_mem_cons h
      have hnot : ¬ a :: needle <+: x :: (xs ++ right) := fun hbegins =>
        hx (List.cons_prefix_cons.mp hbegins).1
      rw [List.cons_append, find_cons_of_not_prefix hnot, ih hxs, Option.map_map]
      congr 1

/-- The first occurrence of an element. -/
theorem find_singleton (h : a ∉ left) : find [a] (left ++ a :: right) = some left.length := by
  have hhere : find [a] (a :: right) = some 0 := find_of_prefix (List.prefix_append [a] right)
  rw [find_append_of_not_mem h, hhere]
  simp

/-- An element is found at the end of the part without it. -/
theorem find_singleton_eq_some {start : ℕ} :
    find [a] left = some start ↔ ∃ before after, left = before ++ a :: after ∧ a ∉ before ∧
      start = before.length := by
  constructor
  · intro h
    induction left generalizing start with
    | nil => simp [find] at h
    | cons x xs ih =>
        rw [find] at h
        split_ifs at h with hbegins
        · cases h
          obtain rfl := (List.cons_prefix_cons.mp hbegins).1
          exact ⟨[], xs, rfl, List.not_mem_nil, rfl⟩
        · obtain ⟨n, hn, rfl⟩ := Option.map_eq_some_iff.mp h
          obtain ⟨before, after, rfl, hbefore, rfl⟩ := ih hn
          have hx : a ≠ x := fun heq => hbegins (by simp [heq])
          exact ⟨x :: before, after, rfl, List.not_mem_cons_of_ne_of_not_mem hx hbefore, rfl⟩
  · rintro ⟨before, after, rfl, hbefore, rfl⟩
    exact find_singleton hbefore

/-- A word lies inside the text it is found in. -/
theorem find_bound {start : ℕ} (h : find needle left = some start) :
    start + needle.length ≤ left.length := by
  induction left generalizing start with
  | nil =>
      rw [find] at h
      split_ifs at h with hneedle
      cases h
      simp [hneedle]
  | cons x xs ih =>
      rw [find] at h
      split_ifs at h with hbegins
      · cases h
        simpa using hbegins.length_le
      · obtain ⟨before, hbefore, rfl⟩ := Option.map_eq_some_iff.mp h
        have := ih hbefore
        rw [List.length_cons]
        omega

/-- Where a word is found depends on the text up to its end only. -/
theorem find_take {start length : ℕ} (h : find needle left = some start)
    (hlength : start + needle.length ≤ length) : find needle (left.take length) = some start := by
  induction left generalizing start length with
  | nil => rwa [List.take_nil]
  | cons x xs ih =>
      rw [find] at h
      split_ifs at h with hbegins
      · cases h
        apply find_of_prefix
        rw [List.prefix_take_iff]
        exact ⟨hbegins, by omega⟩
      · obtain ⟨before, hbefore, rfl⟩ := Option.map_eq_some_iff.mp h
        obtain ⟨length, rfl⟩ : ∃ rest, length = rest + 1 := ⟨length - 1, by omega⟩
        have hnot : ¬ needle <+: x :: xs.take length := by
          intro htake
          exact hbegins (htake.trans (by simpa using List.take_prefix (length + 1) (x :: xs)))
        rw [List.take_succ_cons, find_cons_of_not_prefix hnot, ih hbefore (by omega)]
        rfl

/-- What is found in a beginning is found in the whole. -/
theorem find_append {start : ℕ} (h : find needle left = some start) (right : List α) :
    find needle (left ++ right) = some start := by
  induction left generalizing start with
  | nil =>
      rw [find] at h
      split_ifs at h with hneedle
      cases h
      exact find_of_prefix (by simp [hneedle])
  | cons x xs ih =>
      rw [find] at h
      split_ifs at h with hbegins
      · cases h
        exact find_of_prefix (hbegins.trans (List.prefix_append _ _))
      · obtain ⟨before, hbefore, rfl⟩ := Option.map_eq_some_iff.mp h
        have hlength := find_bound hbefore
        have hnot : ¬ needle <+: x :: (xs ++ right) := fun hlong =>
          hbegins (List.prefix_of_prefix_length_le hlong (List.prefix_append _ _)
            (by rw [List.length_cons]; omega))
        rw [List.cons_append, find_cons_of_not_prefix hnot, ih hbefore]
        rfl

/-- Nothing is found in a part that ends before the word does. -/
theorem find_take_eq_none {start length : ℕ} (h : find needle left = some start)
    (hlength : length < start + needle.length) : find needle (left.take length) = none := by
  cases hfound : find needle (left.take length) with
  | none => rfl
  | some early =>
      have hwhole := find_append hfound (left.drop length)
      rw [List.take_append_drop, h] at hwhole
      cases hwhole
      have hbound := find_bound hfound
      rw [List.length_take] at hbound
      omega

/-- A text without the first element of the pair is one line. -/
theorem lines_of_not_mem (h : a ∉ line) : lines a b line = [line] := by
  induction line with
  | nil => rfl
  | cons x xs ih =>
      obtain ⟨hx, hxs⟩ := List.ne_and_not_mem_of_not_mem_cons h
      cases xs with
      | nil => rfl
      | cons y ys =>
          have hne : ¬ (x = a ∧ y = b) := fun heq => hx heq.1.symm
          rw [lines, if_neg hne, ih hxs]

/-- The first line ends at the first pair. -/
theorem lines_append (h : a ∉ line) : lines a b (line ++ a :: b :: rest) = line :: lines a b rest := by
  induction line with
  | nil => rw [List.nil_append, lines, if_pos ⟨rfl, rfl⟩]
  | cons x xs ih =>
      obtain ⟨hx, hxs⟩ := List.ne_and_not_mem_of_not_mem_cons h
      cases xs with
      | nil =>
          have hne : ¬ (x = a ∧ a = b) := fun heq => hx heq.1.symm
          rw [List.cons_append, List.nil_append, lines, if_neg hne]
          rw [List.nil_append] at ih
          rw [ih hxs]
      | cons y ys =>
          have hne : ¬ (x = a ∧ y = b) := fun heq => hx heq.1.symm
          rw [List.cons_append, List.cons_append, lines, if_neg hne, ← List.cons_append, ih hxs]

end TieredCache.Math.Text
