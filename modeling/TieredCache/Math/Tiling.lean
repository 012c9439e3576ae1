/-
# Ranges that tile an interval

Lists of ranges, each a start and a length, that follow one another without gap from
one end of an interval to the other.
-/

import Mathlib.Order.Interval.Set.Basic

namespace TieredCache.Math.Tiling

/-- The pieces follow one another from `lo` to `hi`, and none is empty. -/
def Tiles : ℕ → List (ℕ × ℕ) → ℕ → Prop
  | lo, [], hi => lo = hi
  | lo, piece :: rest, hi => piece.1 = lo ∧ 0 < piece.2 ∧ Tiles (lo + piece.2) rest hi

variable {lo hi i : ℕ} {piece : ℕ × ℕ} {pieces : List (ℕ × ℕ)}

@[simp]
theorem tiles_nil : Tiles lo [] hi ↔ lo = hi := Iff.rfl

@[simp]
theorem tiles_cons :
    Tiles lo (piece :: pieces) hi ↔
      piece.1 = lo ∧ 0 < piece.2 ∧ Tiles (lo + piece.2) pieces hi := Iff.rfl

namespace Tiles

theorem le (h : Tiles lo pieces hi) : lo ≤ hi := by
  induction pieces generalizing lo with
  | nil => exact Nat.le_of_eq h
  | cons piece rest ih =>
      obtain ⟨-, -, hrest⟩ := h
      exact le_trans (Nat.le_add_right lo piece.2) (ih hrest)

/-- Every piece lies inside the interval. -/
theorem inside (h : Tiles lo pieces hi) (hmem : piece ∈ pieces) :
    lo ≤ piece.1 ∧ piece.1 + piece.2 ≤ hi := by
  induction pieces generalizing lo with
  | nil => cases hmem
  | cons first rest ih =>
      obtain ⟨hstart, hpos, hrest⟩ := h
      rcases List.mem_cons.mp hmem with rfl | hmem
      · rw [hstart]
        exact ⟨le_rfl, hrest.le⟩
      · have hin := ih hrest hmem
        exact ⟨by omega, hin.2⟩

/-- Earlier pieces end before later ones start. -/
theorem pairwise (h : Tiles lo pieces hi) :
    pieces.Pairwise fun piece later => piece.1 + piece.2 ≤ later.1 := by
  induction pieces generalizing lo with
  | nil => exact List.Pairwise.nil
  | cons first rest ih =>
      obtain ⟨hstart, -, hrest⟩ := h
      refine List.Pairwise.cons (fun later hlater => ?_) (ih hrest)
      rw [hstart]
      exact (hrest.inside hlater).1

/-- Every position of the interval is in a piece. -/
theorem covers (h : Tiles lo pieces hi) (hlo : lo ≤ i) (hhi : i < hi) :
    ∃ piece ∈ pieces, piece.1 ≤ i ∧ i < piece.1 + piece.2 := by
  induction pieces generalizing lo with
  | nil =>
      rw [tiles_nil] at h
      omega
  | cons first rest ih =>
      obtain ⟨hstart, -, hrest⟩ := h
      by_cases hi : i < lo + first.2
      · exact ⟨first, List.mem_cons_self, by omega, by omega⟩
      · obtain ⟨piece, hmem, hin⟩ := ih hrest (Nat.le_of_not_lt hi)
        exact ⟨piece, List.mem_cons_of_mem _ hmem, hin⟩

end Tiles

end TieredCache.Math.Tiling
