/-
# What a read writes

A read overwrites the destination from its start, with bytes that do not depend on what was
there, and counts them.  It has written the whole range when it is ok and less when a chunk
could not be made local, however chunks are made local and whatever they hold.
-/

import TieredCache.Remote.MirrorReads

namespace TieredCache.Remote

open Math Math.Slices Math.Words

universe u
variable {σ : Type u} {ensure : UInt32 → UInt64 → Bytes → σ → Status × Bytes × σ}
  {offset length total written copied : UInt64} {chunkSize index last : UInt32}

/-- Making a chunk local leaves the size of the chunk buffer alone. -/
def KeepsBuffer (ensure : UInt32 → UInt64 → Bytes → σ → Status × Bytes × σ) : Prop :=
  ∀ index length buffer s, (ensure index length buffer s).2.1.length = buffer.length

/-- A read writes these bytes behind those written so far, whatever else is in the destination,
and counts all of them. -/
structure Writes (length : UInt64) (done : ℕ) (read : Bytes → Option (ReadOutcome × Bytes × σ))
    (outcome : ReadOutcome) (bytes : Bytes) (s : σ) : Prop where
  count : done + bytes.length = outcome.bytes.toNat
  ok : outcome.status = .ok → outcome.bytes = length
  failed : outcome.status ≠ .ok → outcome.bytes < length
  reads : ∀ front rest : Bytes, front.length = done → length.toNat ≤ (front ++ rest).length →
    read (front ++ rest) = some (outcome, front ++ (bytes ++ rest.drop bytes.length), s)

/-- A piece written behind what is there. -/
theorem overwrite_behind (front rest piece : Bytes) :
    overwrite (front ++ rest) front.length piece =
      (front ++ piece) ++ rest.drop piece.length := by
  rw [overwrite, List.take_left' rfl, ← List.drop_drop, List.drop_left' rfl, List.append_assoc]

/-- The loop ends: there is nothing left to write. -/
theorem Writes.done {s : σ} {outcome : ReadOutcome} (hcount : written = outcome.bytes)
    (hok : outcome.status = .ok → outcome.bytes = length)
    (hfailed : outcome.status ≠ .ok → outcome.bytes < length) :
    Writes length written.toNat (fun dest => some (outcome, dest, s)) outcome [] s where
  count := by rw [hcount, List.length_nil, Nat.add_zero]
  ok := hok
  failed := hfailed
  reads := fun front rest _ _ => by simp

/-- The loop copies a piece and goes on. -/
theorem Writes.copy {s : σ} {outcome : ReadOutcome} {piece bytes : Bytes}
    {read : Bytes → Option (ReadOutcome × Bytes × σ)} (hpiece : piece.length = copied.toNat)
    (hcount : (written + copied).toNat = written.toNat + copied.toNat)
    (h : Writes length (written + copied).toNat read outcome bytes s) :
    Writes length written.toNat (fun dest => read (overwrite dest written.toNat piece)) outcome
      (piece ++ bytes) s where
  count := by
    rw [← h.count, hcount, List.length_append, hpiece, Nat.add_assoc]
  ok := h.ok
  failed := h.failed
  reads := fun front rest hfront hroom => by
    have hsize : length.toNat ≤ ((front ++ piece) ++ rest.drop piece.length).length := by
      rw [List.length_append] at hroom
      rw [List.length_append, List.length_append, List.length_drop]
      omega
    have hlater := h.reads (front ++ piece) (rest.drop piece.length)
      (by rw [List.length_append, hfront, hpiece, hcount]) hsize
    rw [← hfront, overwrite_behind, hlater, List.length_append, ← List.drop_drop]
    simp only [List.append_assoc]

/-- The loop from a chunk on, by induction on the steps left. -/
theorem readLoop_writes (h : Covered offset length total chunkSize) (hkeeps : KeepsBuffer ensure)
    (hlast : last.toNat = (offset.toNat + length.toNat - 1) / chunkSize.toNat) (steps : ℕ)
    (written : UInt64) (buffer : Bytes) (s : σ)
    (hfirst : offset.toNat / chunkSize.toNat ≤ index.toNat) (hnext : index.toNat ≤ last.toNat + 1)
    (hsteps : last.toNat + 1 - index.toNat < steps) (hbuffer : buffer.length = chunkSize.toNat)
    (hwritten : written.toNat = progress offset length chunkSize index.toNat) :
    ∃ outcome bytes s', Writes length written.toNat
      (fun dest => readLoop ensure offset length total chunkSize last steps index written buffer
        dest s) outcome bytes s' := by
  induction steps generalizing index written buffer s with
  | zero => exact absurd hsteps (Nat.not_lt_zero _)
  | succ steps ih =>
      unfold readLoop
      by_cases hdone : last < index
      · simp only [if_pos hdone]
        have hindex : index.toNat = last.toNat + 1 :=
          Nat.le_antisymm hnext (UInt32.lt_iff_toNat_lt.mp hdone)
        refine ⟨_, _, _, .done rfl (fun _ => ?_) fun hne => absurd rfl hne⟩
        apply UInt64.toNat_inj.mp
        rw [hwritten, hindex, h.progress_done hlast]
      · simp only [if_neg hdone]
        have hindex : index.toNat ≤ last.toNat := UInt32.le_iff_toNat_le.mp (UInt32.not_lt.mp hdone)
        have hchunk : index.toNat ≤ (offset.toNat + length.toNat - 1) / chunkSize.toNat :=
          hlast ▸ hindex
        have hturn := h.turn hfirst hchunk hwritten
        have hbuffer' := (hkeeps index (chunkLen total chunkSize index) buffer s).trans hbuffer
        generalize ensure index (chunkLen total chunkSize index) buffer s = ensured at *
        by_cases hstatus : ensured.1 ≠ .ok
        · simp only [if_pos hstatus]
          exact ⟨_, _, _, .done rfl (fun hok => absurd hok hstatus) fun _ => hturn.before_end⟩
        · simp only [if_neg hstatus, if_pos (h.rangeStart_lt hfirst hchunk), hturn.target]
          have hsucc := h.toNat_next hchunk
          obtain ⟨outcome, bytes, s', hwrites⟩ := ih _ ensured.2.1 ensured.2.2 (by omega) (by omega)
            (by omega) hbuffer' hturn.later
          refine ⟨outcome, _, s', .copy (length_slice ?_) hturn.count hwrites⟩
          rw [hbuffer']
          exact hturn.in_chunk.trans hturn.chunk_le

/-- What a read writes: so many bytes from the start of the destination, the same whatever was
there, all of the range if and only if it is ok, and not all of it if it is truncated. -/
structure ReadWrites (length : UInt64) (read : Bytes → Option (ReadOutcome × Bytes × σ))
    (outcome : ReadOutcome) (bytes : Bytes) (s : σ) : Prop where
  count : bytes.length = outcome.bytes.toNat
  ok : outcome.status = .ok → outcome.bytes = length ∧ 0 < length
  truncated : outcome.status = .truncated → outcome.bytes < length
  reads : ∀ dest : Bytes, length.toNat ≤ dest.length →
    read dest = some (outcome, bytes ++ dest.drop bytes.length, s)

/-- A read that is refused writes nothing. -/
theorem ReadWrites.refused (status : Status) {s : σ}
    {read : Bytes → Option (ReadOutcome × Bytes × σ)}
    (hok : status ≠ .ok) (htruncated : status ≠ .truncated)
    (h : ∀ dest : Bytes, length.toNat ≤ dest.length → read dest = some (⟨status, 0⟩, dest, s)) :
    ReadWrites length read ⟨status, 0⟩ [] s where
  count := rfl
  ok := fun heq => absurd heq hok
  truncated := fun heq => absurd heq htruncated
  reads := h

/-- What a read of a valid mirror writes. -/
theorem readWith_writes {m : Mirror} (hvalid : m.valid = true) (hkeeps : KeepsBuffer ensure)
    (offset length : UInt64) (s : σ) :
    ∃ outcome bytes s', ReadWrites length
      (fun dest => m.readWith ensure offset length dest s) outcome bytes s' := by
  have hsized : ∀ dest : Bytes, length.toNat ≤ dest.length →
      ¬ ((!m.valid) = true ∨ dest.length < length.toNat) := by
    intro dest hdest
    rw [hvalid]
    simpa using hdest
  by_cases hlength : length = 0
  · refine ⟨_, _, s, .refused .invalidArgument (by decide) (by decide) ?_⟩
    intro dest hdest
    simp only [Mirror.readWith, if_neg (hsized dest hdest), if_pos hlength]
  by_cases hrange : m.source.validator.totalSize < offset ∨
      m.source.validator.totalSize - offset < length
  · refine ⟨_, _, s, .refused .outOfRange (by decide) (by decide) ?_⟩
    intro dest hdest
    simp only [Mirror.readWith, if_neg (hsized dest hdest), if_neg hlength, if_pos hrange]
  have h := covered_of_valid hvalid hlength hrange
  have hlast := h.toNat_last
  have hfirst := h.toNat_first
  have hle : offset.toNat / m.chunkSize.toNat ≤
      (offset.toNat + length.toNat - 1) / m.chunkSize.toNat := by
    apply Nat.div_le_div_right
    have hpos := h.length_pos
    omega
  have hstart : (offset.toNat / m.chunkSize.toNat) * m.chunkSize.toNat ≤ offset.toNat :=
    Nat.div_mul_le_self _ _
  have hzero : (0 : UInt64).toNat =
      progress offset length m.chunkSize (offset / m.chunkSize.toUInt64).toUInt32.toNat := by
    rw [hfirst, progress, UInt64.toNat_zero]
    omega
  obtain ⟨outcome, bytes, s', hwrites⟩ := readLoop_writes h hkeeps hlast
    (((offset + length - 1) / m.chunkSize.toUInt64).toUInt32.toNat -
      (offset / m.chunkSize.toUInt64).toUInt32.toNat + 2) 0
    (List.replicate m.chunkSize.toNat 0) s (le_of_eq hfirst.symm) (by omega) (by omega)
    List.length_replicate hzero
  refine ⟨outcome, bytes, s', ?_, fun hok => ⟨hwrites.ok hok, ?_⟩, fun htruncated => ?_, ?_⟩
  · rw [← hwrites.count, UInt64.toNat_zero, Nat.zero_add]
  · exact UInt64.lt_iff_toNat_lt.mpr h.length_pos
  · apply hwrites.failed
    rw [htruncated]
    decide
  · intro dest hdest
    rw [readWith_eq (hsized dest hdest) hlength hrange]
    exact hwrites.reads [] dest rfl hdest

end TieredCache.Remote
