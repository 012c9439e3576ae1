/-
# What a backend reports of a read

A read that stops short is reported as a success with its number of bytes.  That number is
smaller than what was asked for, so it is never taken for a complete fill.
-/

import TieredCache.Remote.MirrorBackend
import TieredCache.Remote.ReadFills

namespace TieredCache.Remote

universe u
variable {σ : Type u} {ensure : UInt32 → UInt64 → Bytes → σ → Status × Bytes × σ} {size : UInt64}
  {read : Bytes → Option (ReadOutcome × Bytes × σ)} {outcome : ReadOutcome} {bytes : Bytes} {s : σ}

/-- What is reported is the outcome of the read: complete if and only if it is ok, short if it is
truncated, and otherwise a failure. -/
structure Reports (size : UInt64) (outcome : ReadOutcome) (completion : Completion) : Prop where
  complete : completion.status = .ok ∧ completion.bytes = size ↔ outcome.status = .ok
  truncated : outcome.status = .truncated → completion.status = .ok ∧ completion.bytes < size
  failed : outcome.status ≠ .ok → outcome.status ≠ .truncated →
    completion.status ≠ .ok ∧ completion.bytes = 0

/-- The number of bytes tells a truncated read from a complete one. -/
theorem ReadWrites.reports (h : ReadWrites size read outcome bytes s) :
    Reports size outcome outcome.reported where
  complete := by
    unfold ReadOutcome.reported
    by_cases hok : outcome.status = .ok
    · simp [hok, (h.ok hok).1]
    · by_cases htruncated : outcome.status = .truncated
      · have hshort := h.truncated htruncated
        simp [htruncated, UInt64.ne_of_lt hshort]
      · simp [hok, htruncated]
  truncated := fun htruncated => by
    have hshort := h.truncated htruncated
    simpa [ReadOutcome.reported, htruncated] using hshort
  failed := fun hok htruncated => by
    simp [ReadOutcome.reported, hok, htruncated]

/-- Whatever happens while chunks are made local, a request over a registered, valid mirror is
reported as complete if and only if the read was ok, and then every byte of the destination was
written. -/
theorem perform_reports {m : Mirror} (hvalid : m.valid = true) (hkeeps : KeepsBuffer ensure)
    {item : WorkItem} (hknown : item.sourceKnown = true) (s : σ) :
    ∃ outcome bytes s', (∀ dest : Bytes, dest.length = item.request.destinationSize.toNat →
        m.readWith ensure item.request.sourceOffset item.request.destinationSize dest s =
          some (outcome, bytes ++ dest.drop bytes.length, s')) ∧
      Reports item.request.destinationSize outcome (item.performed outcome) ∧
      (outcome.status = .ok → bytes.length = item.request.destinationSize.toNat) := by
  obtain ⟨outcome, bytes, s', hwrites⟩ := readWith_writes hvalid hkeeps item.request.sourceOffset
    item.request.destinationSize s
  have hperformed : item.performed outcome = outcome.reported := by
    simp [WorkItem.performed, hknown]
  refine ⟨outcome, bytes, s', fun dest hdest => hwrites.reads dest hdest.ge, ?_, fun hok => ?_⟩
  · rw [hperformed]
    exact hwrites.reports
  · rw [hwrites.count, (hwrites.ok hok).1]

/-- The second chunk of three bytes is cut off. -/
theorem perform_reports_cut :
    ∃ outcome bytes s', (∀ dest : Bytes, dest.length = 3 →
        Mirror.readWith ⟨⟨[], ⟨[], [], 4⟩⟩, 2, true, 0⟩
          (fun index _ buffer (s : Unit) => (if index = 0 then .ok else .truncated, buffer, s))
          1 3 dest () = some (outcome, bytes ++ dest.drop bytes.length, s')) ∧
      Reports 3 outcome
        (WorkItem.performed ⟨⟨0, 1, 3, 0, 0⟩, some 0, true, 0⟩ outcome) ∧
      (outcome.status = .ok → bytes.length = 3) :=
  @perform_reports _ _ _ (by decide) (fun _ _ _ _ => rfl)
    ⟨⟨0, 1, 3, 0, 0⟩, some 0, true, 0⟩ rfl ()

end TieredCache.Remote
