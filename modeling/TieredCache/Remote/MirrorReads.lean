/-
# What a mirror reads

The loop over the chunks covers a range piece by piece, without a sum or an index that
wraps.  If every chunk made local is the source's, what has been read is a slice of the
source.
-/

import TieredCache.Math.Words
import TieredCache.Remote.Mirror

namespace TieredCache.Remote

open Math Math.Files Math.Slices Math.Words

universe u
variable {σ : Type u} {ensure : UInt32 → UInt64 → Bytes → σ → Status × Bytes × σ}
  {offset length total : UInt64} {chunkSize index : UInt32} {S : Bytes}

/-! ## The arithmetic of one iteration -/

/-- A range of a source, cut into chunks that 32 bits can number. -/
structure Covered (offset length total : UInt64) (chunkSize : UInt32) : Prop where
  chunk_pos : 0 < chunkSize.toNat
  length_pos : 0 < length.toNat
  inside : offset.toNat + length.toNat ≤ total.toNat
  indices : total.toNat / chunkSize.toNat < 2 ^ 32 - 1

namespace Covered

variable (h : Covered offset length total chunkSize)
include h

/-- The last byte of the range. -/
theorem last_lt_total : offset.toNat + length.toNat - 1 < total.toNat := by
  have hpos := h.length_pos
  have hinside := h.inside
  omega

theorem toNat_first :
    (offset / chunkSize.toUInt64).toUInt32.toNat = offset.toNat / chunkSize.toNat := by
  have hle : offset.toNat / chunkSize.toNat ≤ total.toNat / chunkSize.toNat :=
    Nat.div_le_div_right (le_trans (Nat.le_add_right _ _) h.inside)
  have hindices := h.indices
  rw [UInt64.toNat_toUInt32, UInt64.toNat_div, UInt32.toNat_toUInt64]
  exact Nat.mod_eq_of_lt (by omega)

theorem toNat_last :
    ((offset + length - 1) / chunkSize.toUInt64).toUInt32.toNat =
      (offset.toNat + length.toNat - 1) / chunkSize.toNat := by
  have hsum : (offset + length).toNat = offset.toNat + length.toNat :=
    toNat_add (lt_of_le_of_lt h.inside total.toNat_lt)
  have hone : (1 : UInt64) ≤ offset + length := by
    rw [UInt64.le_iff_toNat_le, hsum]
    exact le_trans h.length_pos (Nat.le_add_left _ _)
  have hle : (offset.toNat + length.toNat - 1) / chunkSize.toNat ≤
      total.toNat / chunkSize.toNat :=
    Nat.div_le_div_right (le_of_lt h.last_lt_total)
  have hindices := h.indices
  rw [UInt64.toNat_toUInt32, UInt64.toNat_div, UInt32.toNat_toUInt64,
    UInt64.toNat_sub_of_le _ _ hone, hsum]
  exact Nat.mod_eq_of_lt (by
    have hnat : (1 : UInt64).toNat = 1 := rfl
    rw [hnat]
    omega)

/-- A chunk of the range starts before its last byte. -/
theorem start_le (hlast : index.toNat ≤ (offset.toNat + length.toNat - 1) / chunkSize.toNat) :
    index.toNat * chunkSize.toNat ≤ offset.toNat + length.toNat - 1 :=
  (Nat.le_div_iff_mul_le h.chunk_pos).mp hlast

theorem toNat_chunkStart
    (hlast : index.toNat ≤ (offset.toNat + length.toNat - 1) / chunkSize.toNat) :
    (chunkStart chunkSize index).toNat = index.toNat * chunkSize.toNat := by
  have hstart := h.start_le hlast
  have hlast' := h.last_lt_total
  have htotal := total.toNat_lt
  rw [chunkStart, toNat_mul, UInt32.toNat_toUInt64, UInt32.toNat_toUInt64]
  rw [UInt32.toNat_toUInt64, UInt32.toNat_toUInt64]
  omega

theorem toNat_chunkLen
    (hlast : index.toNat ≤ (offset.toNat + length.toNat - 1) / chunkSize.toNat) :
    (chunkLen total chunkSize index).toNat =
      min chunkSize.toNat (total.toNat - index.toNat * chunkSize.toNat) := by
  have hstart := h.start_le hlast
  have hlast' := h.last_lt_total
  have hle : chunkStart chunkSize index ≤ total := by
    rw [UInt64.le_iff_toNat_le, h.toNat_chunkStart hlast]
    omega
  rw [chunkLen, toNat_min, UInt64.toNat_sub_of_le _ _ hle, h.toNat_chunkStart hlast,
    UInt32.toNat_toUInt64]

theorem toNat_rangeStart
    (hlast : index.toNat ≤ (offset.toNat + length.toNat - 1) / chunkSize.toNat) :
    (rangeStart offset chunkSize index).toNat =
      max offset.toNat (index.toNat * chunkSize.toNat) := by
  rw [rangeStart, toNat_max, h.toNat_chunkStart hlast]

theorem toNat_rangeEnd
    (hlast : index.toNat ≤ (offset.toNat + length.toNat - 1) / chunkSize.toNat) :
    (rangeEnd offset length total chunkSize index).toNat =
      min (offset.toNat + length.toNat) ((index.toNat + 1) * chunkSize.toNat) := by
  have hstart := h.start_le hlast
  have hlast' := h.last_lt_total
  have hinside := h.inside
  have htotal := total.toNat_lt
  have hsum : (offset + length).toNat = offset.toNat + length.toNat :=
    toNat_add (by omega)
  have hend : (chunkStart chunkSize index + chunkLen total chunkSize index).toNat =
      index.toNat * chunkSize.toNat +
        min chunkSize.toNat (total.toNat - index.toNat * chunkSize.toNat) := by
    rw [toNat_add, h.toNat_chunkStart hlast, h.toNat_chunkLen hlast]
    rw [h.toNat_chunkStart hlast, h.toNat_chunkLen hlast]
    omega
  rw [rangeEnd, toNat_min, hsum, hend, Nat.succ_mul]
  omega

/-- Every chunk of the range has bytes of it. -/
theorem rangeStart_lt (hfirst : offset.toNat / chunkSize.toNat ≤ index.toNat)
    (hlast : index.toNat ≤ (offset.toNat + length.toNat - 1) / chunkSize.toNat) :
    rangeStart offset chunkSize index < rangeEnd offset length total chunkSize index := by
  have hstart := h.start_le hlast
  have hpos := h.chunk_pos
  have hlen := h.length_pos
  have hbehind : offset.toNat < (index.toNat + 1) * chunkSize.toNat :=
    (Nat.div_lt_iff_lt_mul hpos).mp (Nat.lt_succ_of_le hfirst)
  rw [UInt64.lt_iff_toNat_lt, h.toNat_rangeStart hlast, h.toNat_rangeEnd hlast]
  rw [Nat.succ_mul] at hbehind ⊢
  omega

end Covered

/-! ## The loop -/

/-- How far the loop has come when it turns to a chunk. -/
def progress (offset length : UInt64) (chunkSize : UInt32) (index : ℕ) : ℕ :=
  min (offset.toNat + length.toNat) (max offset.toNat (index * chunkSize.toNat)) - offset.toNat

/-- The next index does not wrap. -/
theorem Covered.toNat_next (h : Covered offset length total chunkSize)
    (hchunk : index.toNat ≤ (offset.toNat + length.toNat - 1) / chunkSize.toNat) :
    (index + 1).toNat = index.toNat + 1 := by
  have hindices := h.indices
  have hle : (offset.toNat + length.toNat - 1) / chunkSize.toNat ≤ total.toNat / chunkSize.toNat :=
    Nat.div_le_div_right (le_of_lt h.last_lt_total)
  exact toNat_succ (by omega)

/-- One turn of the loop: where the bytes of a chunk are copied from and to. -/
structure Turn (offset length total : UInt64) (chunkSize index : UInt32) (written copied : UInt64) :
    Prop where
  before_end : written < length
  /-- They go behind those copied so far. -/
  target : (rangeStart offset chunkSize index - offset).toNat = written.toNat
  source : index.toNat * chunkSize.toNat +
    (rangeStart offset chunkSize index - chunkStart chunkSize index).toNat =
      offset.toNat + written.toNat
  starts : index.toNat * chunkSize.toNat ≤ offset.toNat + written.toNat
  in_chunk : (rangeStart offset chunkSize index - chunkStart chunkSize index).toNat +
    copied.toNat ≤ (chunkLen total chunkSize index).toNat
  chunk_le : (chunkLen total chunkSize index).toNat ≤ chunkSize.toNat
  inside : written.toNat + copied.toNat ≤ length.toNat
  count : (written + copied).toNat = written.toNat + copied.toNat
  later : (written + copied).toNat = progress offset length chunkSize (index + 1).toNat

/-- Every chunk of the range has its turn. -/
theorem Covered.turn (h : Covered offset length total chunkSize) {written : UInt64}
    (hfirst : offset.toNat / chunkSize.toNat ≤ index.toNat)
    (hchunk : index.toNat ≤ (offset.toNat + length.toNat - 1) / chunkSize.toNat)
    (hwritten : written.toNat = progress offset length chunkSize index.toNat) :
    Turn offset length total chunkSize index written
      (rangeEnd offset length total chunkSize index - rangeStart offset chunkSize index) := by
  have hlen := h.length_pos
  have hinside := h.inside
  have hstart := h.start_le hchunk
  have hchunkLen := h.toNat_chunkLen hchunk
  have hhere : written.toNat =
      max offset.toNat (index.toNat * chunkSize.toNat) - offset.toNat := by
    rw [hwritten, progress]
    omega
  have hlo := h.toNat_rangeStart hchunk
  have hhi := h.toNat_rangeEnd hchunk
  have hrange := h.rangeStart_lt hfirst hchunk
  have hcopy := UInt64.toNat_sub_of_le _ _ (UInt64.le_of_lt hrange)
  have hlt := UInt64.lt_iff_toNat_lt.mp hrange
  have hnextChunk : (index.toNat + 1) * chunkSize.toNat =
      index.toNat * chunkSize.toNat + chunkSize.toNat := Nat.succ_mul _ _
  have htarget : (rangeStart offset chunkSize index - offset).toNat = written.toNat := by
    rw [UInt64.toNat_sub_of_le, hlo, hhere]
    rw [UInt64.le_iff_toNat_le, hlo]
    exact Nat.le_max_left _ _
  have hsource : (rangeStart offset chunkSize index - chunkStart chunkSize index).toNat =
      (rangeStart offset chunkSize index).toNat - index.toNat * chunkSize.toNat := by
    rw [UInt64.toNat_sub_of_le, h.toNat_chunkStart hchunk]
    rw [UInt64.le_iff_toNat_le, hlo, h.toNat_chunkStart hchunk]
    exact Nat.le_max_right _ _
  generalize rangeEnd offset length total chunkSize index - rangeStart offset chunkSize index =
    copied at *
  have hfits : written.toNat + copied.toNat ≤ length.toNat := by omega
  have hcount : (written + copied).toNat = written.toNat + copied.toNat :=
    toNat_add (lt_of_le_of_lt hfits length.toNat_lt)
  refine ⟨?_, htarget, ?_, ?_, ?_, ?_, hfits, hcount, ?_⟩
  · rw [UInt64.lt_iff_toNat_lt, hhere]
    omega
  · rw [hsource, hlo, hhere]
    omega
  · rw [hhere]
    omega
  · rw [hsource, hcopy, hlo, hhi, hchunkLen]
    omega
  · rw [hchunkLen]
    exact Nat.min_le_left _ _
  · rw [hcount, hcopy, hlo, hhi, h.toNat_next hchunk, progress, hhere]
    omega

/-- Behind the last chunk everything has been copied. -/
theorem Covered.progress_done (h : Covered offset length total chunkSize) {last : ℕ}
    (hlast : last = (offset.toNat + length.toNat - 1) / chunkSize.toNat) :
    progress offset length chunkSize (last + 1) = length.toNat := by
  have hend := Nat.lt_mul_div_succ (offset.toNat + length.toNat - 1) h.chunk_pos
  have hlen := h.length_pos
  rw [progress, hlast, Nat.mul_comm]
  omega

/-- The bytes read so far are the source's, and nothing behind them has changed. -/
structure ReadsSource (S : Bytes) (offset : UInt64) (before after : Bytes) (count : ℕ) : Prop where
  take : after.take count = slice S offset.toNat count
  drop : after.drop count = before.drop count

/-- Making a chunk local keeps what holds of the state and leaves the source's chunk in the
buffer when it succeeds. -/
def Ensures (good : σ → Prop) (S : Bytes) (chunkSize : UInt32) (total : UInt64)
    (ensure : UInt32 → UInt64 → Bytes → σ → Status × Bytes × σ) (first last : ℕ) : Prop :=
  ∀ (index : UInt32) (buffer : Bytes) (s : σ), first ≤ index.toNat → index.toNat ≤ last →
    good s → buffer.length = chunkSize.toNat →
    good (ensure index (chunkLen total chunkSize index) buffer s).2.2 ∧
      (ensure index (chunkLen total chunkSize index) buffer s).2.1.length = chunkSize.toNat ∧
      ((ensure index (chunkLen total chunkSize index) buffer s).1 = .ok →
        (ensure index (chunkLen total chunkSize index) buffer s).2.1.take
            (chunkLen total chunkSize index).toNat =
          slice S (index.toNat * chunkSize.toNat) (chunkLen total chunkSize index).toNat)

/-- What the loop leaves behind. -/
structure LoopDone (good : σ → Prop) (S : Bytes) (offset length : UInt64) (before : Bytes)
    (result : ReadOutcome × Bytes × σ) : Prop where
  good : good result.2.2
  size : result.2.1.length = before.length
  reads : ReadsSource S offset before result.2.1 result.1.bytes.toNat
  ok : result.1.status = .ok → result.1.bytes = length
  failed : result.1.status ≠ .ok → result.1.bytes < length

/-- The bytes of one more chunk. -/
theorem ReadsSource.extend {before after : Bytes} {count n : ℕ} {piece : Bytes}
    (h : ReadsSource S offset before after count) (hcount : count ≤ after.length)
    (hpiece : piece = slice S (offset.toNat + count) n) (hn : piece.length = n) :
    ReadsSource S offset before (overwrite after count piece) (count + n) := by
  have htake : (overwrite after count piece).take (count + piece.length) = _ := take_overwrite hcount
  have hdrop : (overwrite after count piece).drop (count + piece.length) = _ := drop_overwrite hcount
  rw [hn] at htake hdrop
  refine ⟨?_, ?_⟩
  · rw [htake, h.take, hpiece, slice_append]
  · rw [hdrop, ← List.drop_drop, h.drop, List.drop_drop]

/-- The loop from a chunk on, by induction on the steps left. -/
theorem readLoop_done (h : Covered offset length total chunkSize) {good : σ → Prop}
    (hS : total.toNat = S.length) {last : UInt32}
    (hlast : last.toNat = (offset.toNat + length.toNat - 1) / chunkSize.toNat)
    (hensure : Ensures good S chunkSize total ensure (offset.toNat / chunkSize.toNat) last.toNat)
    {before : Bytes} (hdest : length.toNat ≤ before.length) (steps : ℕ) (written : UInt64)
    (buffer dest : Bytes) (s : σ) (hfirst : offset.toNat / chunkSize.toNat ≤ index.toNat)
    (hnext : index.toNat ≤ last.toNat + 1) (hsteps : last.toNat + 1 - index.toNat < steps)
    (hgood : good s) (hbuffer : buffer.length = chunkSize.toNat)
    (hwritten : written.toNat = progress offset length chunkSize index.toNat)
    (hsize : dest.length = before.length)
    (hreads : ReadsSource S offset before dest written.toNat) :
    ∃ result, readLoop ensure offset length total chunkSize last steps index written buffer dest s =
      some result ∧ LoopDone good S offset length before result := by
  induction steps generalizing index written buffer dest s with
  | zero => exact absurd hsteps (Nat.not_lt_zero _)
  | succ steps ih =>
      unfold readLoop
      by_cases hdone : last < index
      · rw [if_pos hdone]
        refine ⟨_, rfl, hgood, hsize, hreads, fun _ => ?_, fun hne => absurd rfl hne⟩
        have hindex : index.toNat = last.toNat + 1 :=
          Nat.le_antisymm hnext (UInt32.lt_iff_toNat_lt.mp hdone)
        apply UInt64.toNat_inj.mp
        rw [hwritten, hindex, h.progress_done hlast]
      · rw [if_neg hdone]
        have hindex : index.toNat ≤ last.toNat := UInt32.le_iff_toNat_le.mp (UInt32.not_lt.mp hdone)
        have hchunk : index.toNat ≤ (offset.toNat + length.toNat - 1) / chunkSize.toNat :=
          hlast ▸ hindex
        have hturn := h.turn hfirst hchunk hwritten
        obtain ⟨hgood', hbuffer', htake⟩ := hensure index buffer s hfirst hindex hgood hbuffer
        dsimp only
        by_cases hstatus : (ensure index (chunkLen total chunkSize index) buffer s).1 ≠ .ok
        · rw [if_pos hstatus]
          exact ⟨_, rfl, hgood', hsize, hreads, fun hok => absurd hok hstatus,
            fun _ => hturn.before_end⟩
        · -- The chunk has bytes of the range: they are copied behind those read so far.
          rw [if_neg hstatus, if_pos (h.rangeStart_lt hfirst hchunk), hturn.target]
          generalize rangeEnd offset length total chunkSize index -
            rangeStart offset chunkSize index = copied at *
          have hpiece : slice (ensure index (chunkLen total chunkSize index) buffer s).2.1
              (rangeStart offset chunkSize index - chunkStart chunkSize index).toNat copied.toNat =
              slice S (offset.toNat + written.toNat) copied.toNat := by
            have hsource := hturn.source
            have hfits := hturn.in_chunk
            have hat : (rangeStart offset chunkSize index - chunkStart chunkSize index).toNat =
                offset.toNat + written.toNat - index.toNat * chunkSize.toNat := by omega
            rw [hat]
            exact slice_of_take_eq (htake (not_not.mp hstatus)) hturn.starts (by omega)
          have hinside := hturn.inside
          have hpieceLength := (congrArg List.length hpiece).trans (length_slice (by
            have hend := h.inside
            omega))
          have hroom : written.toNat + copied.toNat ≤ dest.length :=
            hinside.trans (hdest.trans hsize.ge)
          have hsucc := h.toNat_next hchunk
          refine ih _ _ _ _ (by omega) (by omega) (by omega) hgood' hbuffer' hturn.later ?_ ?_
          · rw [length_overwrite (by rw [hpieceLength]; exact hroom), hsize]
          · rw [hturn.count]
            exact hreads.extend (le_trans (Nat.le_add_right _ _) hroom) hpiece hpieceLength

/-- A range that `Mirror::read` does not refuse. -/
theorem covered_of_valid {m : Mirror} (hvalid : m.valid = true) (hlength : length ≠ 0)
    (hrange : ¬ (m.source.validator.totalSize < offset ∨
      m.source.validator.totalSize - offset < length)) :
    Covered offset length m.source.validator.totalSize m.chunkSize := by
  unfold Mirror.valid at hvalid
  rw [Bool.and_eq_true, Bool.and_eq_true, decide_eq_true_eq, decide_eq_true_eq] at hvalid
  obtain ⟨⟨-, hchunk⟩, hindices⟩ := hvalid
  rw [not_or, UInt64.not_lt, UInt64.not_lt] at hrange
  obtain ⟨hoffset, hlen⟩ := hrange
  rw [UInt64.le_iff_toNat_le, UInt64.toNat_sub_of_le _ _ hoffset] at hlen
  rw [UInt64.le_iff_toNat_le] at hoffset
  rw [UInt64.lt_iff_toNat_lt, UInt64.toNat_div, UInt32.toNat_toUInt64] at hindices
  refine ⟨UInt32.lt_iff_toNat_lt.mp hchunk, Nat.pos_of_ne_zero fun hzero => ?_, by omega, hindices⟩
  exact hlength (UInt64.toNat_inj.mp hzero)

/-- A range that is not refused is read by the loop. -/
theorem readWith_eq {m : Mirror} {dest : Bytes} {s : σ}
    (hinvalid : ¬ ((!m.valid) = true ∨ dest.length < length.toNat)) (hlength : length ≠ 0)
    (hrange : ¬ (m.source.validator.totalSize < offset ∨
      m.source.validator.totalSize - offset < length)) :
    m.readWith ensure offset length dest s =
      readLoop ensure offset length m.source.validator.totalSize m.chunkSize
        ((offset + length - 1) / m.chunkSize.toUInt64).toUInt32
        (((offset + length - 1) / m.chunkSize.toUInt64).toUInt32.toNat -
          (offset / m.chunkSize.toUInt64).toUInt32.toNat + 2)
        (offset / m.chunkSize.toUInt64).toUInt32 0 (List.replicate m.chunkSize.toNat 0) dest s := by
  unfold Mirror.readWith
  dsimp only
  rw [if_neg hinvalid, if_neg hlength, if_neg hrange]

/-- A read of such a range answers, and what it has read is the source's. -/
theorem readWith_loopDone {m : Mirror} {good : σ → Prop} {dest : Bytes} {s : σ}
    (hS : m.source.validator.totalSize.toNat = S.length)
    (hinvalid : ¬ ((!m.valid) = true ∨ dest.length < length.toNat)) (hlength : length ≠ 0)
    (hrange : ¬ (m.source.validator.totalSize < offset ∨
      m.source.validator.totalSize - offset < length))
    (hensure : Ensures good S m.chunkSize m.source.validator.totalSize ensure
      (offset.toNat / m.chunkSize.toNat) ((offset.toNat + length.toNat - 1) / m.chunkSize.toNat))
    (hgood : good s) :
    ∃ result, m.readWith ensure offset length dest s = some result ∧
      LoopDone good S offset length dest result := by
  rw [readWith_eq hinvalid hlength hrange]
  rw [not_or, Bool.not_eq_true', Bool.not_eq_false, not_lt] at hinvalid
  have h := covered_of_valid hinvalid.1 hlength hrange
  have hlast := h.toNat_last
  have hfirst := h.toNat_first
  rw [← hlast] at hensure
  have hstart : (offset.toNat / m.chunkSize.toNat) * m.chunkSize.toNat ≤ offset.toNat :=
    Nat.div_mul_le_self _ _
  have hle : offset.toNat / m.chunkSize.toNat ≤
      (offset.toNat + length.toNat - 1) / m.chunkSize.toNat := by
    apply Nat.div_le_div_right
    have hpos := h.length_pos
    omega
  exact readLoop_done h hS hlast hensure hinvalid.2 _ 0 (List.replicate m.chunkSize.toNat 0) dest s
    (le_of_eq hfirst.symm) (by omega) (by omega) hgood (List.length_replicate ..)
    (by rw [hfirst, progress]; simp; omega) rfl
    ⟨by rw [UInt64.toNat_zero, slice_zero]; rfl, rfl⟩

/-- A read answers, and what it has read is the source's. -/
theorem readWith_done {m : Mirror} {good : σ → Prop} (dest : Bytes) {s : σ}
    (hS : m.source.validator.totalSize.toNat = S.length)
    (hensure : Covered offset length m.source.validator.totalSize m.chunkSize →
      Ensures good S m.chunkSize m.source.validator.totalSize ensure
        (offset.toNat / m.chunkSize.toNat)
        ((offset.toNat + length.toNat - 1) / m.chunkSize.toNat))
    (hgood : good s) :
    ∃ result, m.readWith ensure offset length dest s = some result ∧ good result.2.2 ∧
      (result.1.status = .ok → result.1.bytes = length ∧
        ReadsSource S offset dest result.2.1 length.toNat) := by
  by_cases hinvalid : (!m.valid) = true ∨ dest.length < length.toNat
  · unfold Mirror.readWith
    dsimp only
    rw [if_pos hinvalid]
    exact ⟨_, rfl, hgood, nofun⟩
  by_cases hlength : length = 0
  · unfold Mirror.readWith
    dsimp only
    rw [if_neg hinvalid, if_pos hlength]
    exact ⟨_, rfl, hgood, nofun⟩
  by_cases hrange : m.source.validator.totalSize < offset ∨
      m.source.validator.totalSize - offset < length
  · unfold Mirror.readWith
    dsimp only
    rw [if_neg hinvalid, if_neg hlength, if_pos hrange]
    exact ⟨_, rfl, hgood, nofun⟩
  have hvalid : m.valid = true := by
    rw [not_or, Bool.not_eq_true', Bool.not_eq_false] at hinvalid
    exact hinvalid.1
  have h := covered_of_valid hvalid hlength hrange
  obtain ⟨result, hresult, hdone⟩ := readWith_loopDone hS hinvalid hlength hrange (hensure h) hgood
  refine ⟨result, hresult, hdone.good, fun hok => ?_⟩
  have hbytes := hdone.ok hok
  have hreads := hdone.reads
  rw [hbytes] at hreads
  exact ⟨hbytes, hreads⟩

end TieredCache.Remote
