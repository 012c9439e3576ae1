/-
# The chunks a read asks for

`Mirror::read` asks for the chunks of a range one after the other, each with its length, and
stops at the first that cannot be made local.
-/

import TieredCache.Remote.MirrorReads

namespace TieredCache.Remote

open Math Math.Slices Math.Words

universe u
variable {σ : Type u} {ensure : UInt32 → UInt64 → Bytes → σ → Status × Bytes × σ}
  {offset length total : UInt64} {chunkSize index last : UInt32}

/-- One chunk asked for: its index, its length and the status. -/
structure Asked where
  index : UInt32
  length : UInt64
  status : Status

/-- Make chunks local, and keep a list of those asked for. -/
def logged (ensure : UInt32 → UInt64 → Bytes → σ → Status × Bytes × σ) (index : UInt32)
    (length : UInt64) (buffer : Bytes) (s : σ × List Asked) : Status × Bytes × σ × List Asked :=
  let ensured := ensure index length buffer s.1
  (ensured.1, ensured.2.1, ensured.2.2, s.2 ++ [⟨index, length, ensured.1⟩])

/-- The chunks that overlap a range, with their lengths. -/
def overlapping (offset length total chunkSize : ℕ) : List (ℕ × ℕ) :=
  (List.range' (offset / chunkSize) ((offset + length - 1) / chunkSize + 1 - offset / chunkSize)).map
    fun k => (k, min chunkSize (total - k * chunkSize))

/-- A chunk is listed, with its length, if and only if it has a byte of the range. -/
theorem mem_overlapping {offset length total chunkSize k n : ℕ} (hchunk : 0 < chunkSize)
    (hlength : 0 < length) :
    (k, n) ∈ overlapping offset length total chunkSize ↔
      n = min chunkSize (total - k * chunkSize) ∧
        max offset (k * chunkSize) < min (offset + length) ((k + 1) * chunkSize) := by
  have hfirst : offset / chunkSize ≤ k ↔ offset < (k + 1) * chunkSize := by
    rw [← Nat.lt_succ_iff, Nat.div_lt_iff_lt_mul hchunk]
  have hlast : k ≤ (offset + length - 1) / chunkSize ↔ k * chunkSize ≤ offset + length - 1 :=
    Nat.le_div_iff_mul_le hchunk
  have hnext : (k + 1) * chunkSize = k * chunkSize + chunkSize := Nat.succ_mul _ _
  simp only [overlapping, List.mem_map, List.mem_range'_1, Prod.mk.injEq]
  constructor
  · rintro ⟨k, ⟨hge, hlt⟩, rfl, rfl⟩
    exact ⟨rfl, by omega⟩
  · rintro ⟨rfl, hoverlap⟩
    exact ⟨k, ⟨by omega, by omega⟩, rfl, rfl⟩

/-- The chunks asked for, in exact numbers. -/
def requests (log : List Asked) : List (ℕ × ℕ) :=
  log.map fun asked => (asked.index.toNat, asked.length.toNat)

/-- What the loop has asked for when it ends: the chunks from one on, each once, up to the last
one or the first that fails. -/
structure LoopAsks (chunkSize total index last : ℕ) (status : Status) (log : List Asked) : Prop where
  requests : requests log =
    ((List.range' index (last + 1 - index)).map fun k =>
      (k, min chunkSize (total - k * chunkSize))).take log.length
  ok : status = .ok → log.length = last + 1 - index ∧ ∀ asked ∈ log, asked.status = .ok
  failed : status ≠ .ok → ∃ before failing, log = before ++ [failing] ∧ failing.status = status ∧
    ∀ asked ∈ before, asked.status = .ok

namespace LoopAsks

variable {c t i l : ℕ} {status : Status} {log : List Asked} {asked : Asked}

/-- Nothing is left to ask for. -/
theorem done (h : l < i) : LoopAsks c t i l .ok [] :=
  ⟨rfl, fun _ => ⟨by rw [List.length_nil]; omega, nofun⟩, fun hne => absurd rfl hne⟩

/-- The chunks from one on are the one and those behind it. -/
theorem requests_cons (h : i ≤ l) (hindex : asked.index.toNat = i)
    (hlength : asked.length.toNat = min c (t - i * c))
    (hlater : Remote.requests log =
      ((List.range' (i + 1) (l + 1 - (i + 1))).map fun k => (k, min c (t - k * c))).take log.length) :
    Remote.requests (asked :: log) =
      ((List.range' i (l + 1 - i)).map fun k => (k, min c (t - k * c))).take
        (asked :: log).length := by
  have hcount : l + 1 - i = (l + 1 - (i + 1)) + 1 := by omega
  rw [hcount, List.range'_succ, List.map_cons, List.length_cons, List.take_succ_cons, ← hlater,
    ← hindex, hindex, ← hlength]
  show (asked.index.toNat, asked.length.toNat) :: _ = _
  rw [hindex]
  rfl

/-- The chunk cannot be made local. -/
theorem fails (h : i ≤ l) (hindex : asked.index.toNat = i)
    (hlength : asked.length.toNat = min c (t - i * c)) (hfailed : asked.status ≠ .ok) :
    LoopAsks c t i l asked.status [asked] :=
  ⟨requests_cons h hindex hlength rfl, fun hok => absurd hok hfailed,
    fun _ => ⟨[], asked, rfl, rfl, nofun⟩⟩

/-- The chunk is made local, and the loop goes on. -/
theorem cons (h : i ≤ l) (hindex : asked.index.toNat = i)
    (hlength : asked.length.toNat = min c (t - i * c)) (hok : asked.status = .ok)
    (hlater : LoopAsks c t (i + 1) l status log) : LoopAsks c t i l status (asked :: log) := by
  refine ⟨requests_cons h hindex hlength hlater.requests, fun hstatus => ?_, fun hstatus => ?_⟩
  · obtain ⟨hcount, hall⟩ := hlater.ok hstatus
    refine ⟨by rw [List.length_cons]; omega, fun a ha => ?_⟩
    rcases List.mem_cons.mp ha with rfl | ha
    · exact hok
    · exact hall a ha
  · obtain ⟨before, failing, rfl, hfailing, hall⟩ := hlater.failed hstatus
    refine ⟨asked :: before, failing, rfl, hfailing, fun a ha => ?_⟩
    rcases List.mem_cons.mp ha with rfl | ha
    · exact hok
    · exact hall a ha

end LoopAsks

/-- The loop from a chunk on, by induction on the steps left. -/
theorem readLoop_asks (h : Covered offset length total chunkSize)
    (hlast : last.toNat = (offset.toNat + length.toNat - 1) / chunkSize.toNat) (steps : ℕ)
    (written : UInt64) (buffer dest : Bytes) (s : σ) (log : List Asked)
    (hfirst : offset.toNat / chunkSize.toNat ≤ index.toNat)
    {outcome : ReadOutcome} {dest' : Bytes} {s' : σ} {log' : List Asked}
    (hloop : readLoop (logged ensure) offset length total chunkSize last steps index written buffer
      dest (s, log) = some (outcome, dest', s', log')) :
    ∃ later, log' = log ++ later ∧
      LoopAsks chunkSize.toNat total.toNat index.toNat last.toNat outcome.status later := by
  induction steps generalizing index written buffer dest s log with
  | zero => cases hloop
  | succ steps ih =>
      unfold readLoop at hloop
      by_cases hdone : last < index
      · rw [if_pos hdone] at hloop
        cases hloop
        exact ⟨[], (List.append_nil _).symm, .done (UInt32.lt_iff_toNat_lt.mp hdone)⟩
      · rw [if_neg hdone] at hloop
        have hindex : index.toNat ≤ last.toNat := UInt32.le_iff_toNat_le.mp (UInt32.not_lt.mp hdone)
        have hchunk : index.toNat ≤ (offset.toNat + length.toNat - 1) / chunkSize.toNat :=
          hlast ▸ hindex
        have hlength := h.toNat_chunkLen hchunk
        generalize hasked : (⟨index, chunkLen total chunkSize index,
          (ensure index (chunkLen total chunkSize index) buffer s).1⟩ : Asked) = asked
        have hindex' : asked.index.toNat = index.toNat := by rw [← hasked]
        have hlength' : asked.length.toNat =
            min chunkSize.toNat (total.toNat - index.toNat * chunkSize.toNat) := by
          rw [← hasked]
          exact hlength
        have hstatus : asked.status = (ensure index (chunkLen total chunkSize index) buffer s).1 := by
          rw [← hasked]
        dsimp only [logged] at hloop
        rw [hasked, ← hstatus] at hloop
        by_cases hfailed : asked.status ≠ .ok
        · rw [if_pos hfailed] at hloop
          cases hloop
          exact ⟨[asked], rfl, .fails hindex hindex' hlength' hfailed⟩
        · rw [if_neg hfailed, if_pos (h.rangeStart_lt hfirst hchunk)] at hloop
          have hnext := h.toNat_next hchunk
          obtain ⟨later, hlog, hasks⟩ := ih _ _ _ _ _ (by omega) hloop
          rw [hnext] at hasks
          refine ⟨asked :: later, ?_, .cons hindex hindex' hlength' (not_not.mp hfailed) hasks⟩
          rw [hlog, List.append_assoc, List.singleton_append]

/-! ## A read -/

/-- Keeping the list changes nothing else. -/
theorem readLoop_logged (ensure : UInt32 → UInt64 → Bytes → σ → Status × Bytes × σ) (steps : ℕ)
    (written : UInt64) (buffer dest : Bytes) (s : σ) (log : List Asked) :
    (readLoop (logged ensure) offset length total chunkSize last steps index written buffer dest
        (s, log)).map (fun result => (result.1, result.2.1, result.2.2.1)) =
      readLoop ensure offset length total chunkSize last steps index written buffer dest s := by
  induction steps generalizing index written buffer dest s log with
  | zero => rfl
  | succ steps ih =>
      unfold readLoop
      dsimp only [logged]
      split_ifs
      · rfl
      · rfl
      · exact ih _ _ _ _ _
      · exact ih _ _ _ _ _

theorem readWith_logged (m : Mirror)
    (ensure : UInt32 → UInt64 → Bytes → σ → Status × Bytes × σ) (dest : Bytes) (s : σ) :
    (m.readWith (logged ensure) offset length dest (s, [])).map
        (fun result => (result.1, result.2.1, result.2.2.1)) =
      m.readWith ensure offset length dest s := by
  unfold Mirror.readWith
  dsimp only
  split_ifs
  · rfl
  · rfl
  · rfl
  · exact readLoop_logged ..

/-- No sum, product or index of the loop wraps at a chunk. -/
structure NoWrap (offset length total : UInt64) (chunkSize index : UInt32) : Prop where
  stop : (offset + length).toNat = offset.toNat + length.toNat
  start : (chunkStart chunkSize index).toNat = index.toNat * chunkSize.toNat
  chunk : (chunkStart chunkSize index + chunkLen total chunkSize index).toNat =
    index.toNat * chunkSize.toNat + (chunkLen total chunkSize index).toNat
  next : (index + 1).toNat = index.toNat + 1

theorem Covered.noWrap (h : Covered offset length total chunkSize)
    (hchunk : index.toNat ≤ (offset.toNat + length.toNat - 1) / chunkSize.toNat) :
    NoWrap offset length total chunkSize index := by
  have hstart := h.start_le hchunk
  have hlast := h.last_lt_total
  have hinside := h.inside
  have htotal := total.toNat_lt
  refine ⟨toNat_add (by omega), h.toNat_chunkStart hchunk, ?_, h.toNat_next hchunk⟩
  have hfits : (chunkStart chunkSize index).toNat + (chunkLen total chunkSize index).toNat < 2 ^ 64 := by
    rw [h.toNat_chunkStart hchunk, h.toNat_chunkLen hchunk]
    omega
  rw [toNat_add hfits, h.toNat_chunkStart hchunk]

/-- The test of a range, without a sum that could wrap. -/
theorem refused_iff :
    total < offset ∨ total - offset < length ↔ total.toNat < offset.toNat + length.toNat := by
  rw [UInt64.lt_iff_toNat_lt, UInt64.lt_iff_toNat_lt]
  by_cases hle : offset ≤ total
  · have hle' := UInt64.le_iff_toNat_le.mp hle
    rw [UInt64.toNat_sub_of_le _ _ hle]
    omega
  · have hlt := UInt64.lt_iff_toNat_lt.mp (UInt64.not_le.mp hle)
    exact iff_of_true (Or.inl hlt) (by omega)

/-- A read refuses an empty range and a destination that is too short, then a range outside the
source; otherwise it asks for every chunk that overlaps the range, in order, until one fails.  What
it has copied is the source's, and the rest of the destination is as it was. -/
theorem readWith_exact (m : Mirror) (hvalid : m.valid = true) (S : Bytes)
    (hS : m.source.validator.totalSize.toNat = S.length)
    (ensure : UInt32 → UInt64 → Bytes → σ → Status × Bytes × σ) (good : σ → Prop)
    (offset length : UInt64) (dest : Bytes) (s : σ)
    (hensure : Ensures good S m.chunkSize m.source.validator.totalSize ensure
      (offset.toNat / m.chunkSize.toNat) ((offset.toNat + length.toNat - 1) / m.chunkSize.toNat))
    (hgood : good s) :
    (length = 0 ∨ dest.length < length.toNat →
      m.readWith (logged ensure) offset length dest (s, []) =
        some (⟨.invalidArgument, 0⟩, dest, s, [])) ∧
    (length ≠ 0 → length.toNat ≤ dest.length →
      m.source.validator.totalSize.toNat < offset.toNat + length.toNat →
      m.readWith (logged ensure) offset length dest (s, []) =
        some (⟨.outOfRange, 0⟩, dest, s, [])) ∧
    (length ≠ 0 → length.toNat ≤ dest.length →
      offset.toNat + length.toNat ≤ m.source.validator.totalSize.toNat →
      ∃ outcome dest' s' log,
        m.readWith (logged ensure) offset length dest (s, []) = some (outcome, dest', s', log) ∧
        requests log = (overlapping offset.toNat length.toNat m.source.validator.totalSize.toNat
          m.chunkSize.toNat).take log.length ∧
        (∀ asked ∈ log,
          NoWrap offset length m.source.validator.totalSize m.chunkSize asked.index) ∧
        ((∀ asked ∈ log, asked.status = .ok) →
          outcome.status = .ok ∧ outcome.bytes = length ∧
          requests log = overlapping offset.toNat length.toNat
            m.source.validator.totalSize.toNat m.chunkSize.toNat ∧
          dest'.take length.toNat = slice S offset.toNat length.toNat ∧
          dest'.drop length.toNat = dest.drop length.toNat) ∧
        (∀ before failing after, log = before ++ failing :: after → failing.status ≠ .ok →
          after = [] ∧ (∀ asked ∈ before, asked.status = .ok) ∧
          outcome.status = failing.status ∧ outcome.bytes < length ∧
          dest'.take outcome.bytes.toNat = slice S offset.toNat outcome.bytes.toNat ∧
          dest'.drop outcome.bytes.toNat = dest.drop outcome.bytes.toNat)) := by
  have hinvalid : length.toNat ≤ dest.length →
      ¬ ((!m.valid) = true ∨ dest.length < length.toNat) := by
    intro hdest
    rw [hvalid]
    simpa using hdest
  refine ⟨?_, ?_, ?_⟩
  · intro hrefused
    unfold Mirror.readWith
    dsimp only
    split_ifs with hshort hzero
    · rfl
    · rfl
    · exact absurd hrefused (not_or.mpr ⟨hzero, fun hless => hshort (Or.inr hless)⟩)
    · exact absurd hrefused (not_or.mpr ⟨hzero, fun hless => hshort (Or.inr hless)⟩)
  · intro hlength hdest houtside
    unfold Mirror.readWith
    dsimp only
    rw [if_neg (hinvalid hdest), if_neg hlength, if_pos (refused_iff.mpr houtside)]
  · intro hlength hdest hinside
    have hrange : ¬ (m.source.validator.totalSize < offset ∨
        m.source.validator.totalSize - offset < length) := fun h =>
      absurd (refused_iff.mp h) (not_lt.mpr hinside)
    have h := covered_of_valid hvalid hlength hrange
    have hlogged : Ensures (fun s : σ × List Asked => good s.1) S m.chunkSize
        m.source.validator.totalSize (logged ensure) (offset.toNat / m.chunkSize.toNat)
        ((offset.toNat + length.toNat - 1) / m.chunkSize.toNat) :=
      fun index buffer s => hensure index buffer s.1
    obtain ⟨⟨outcome, dest', s', log⟩, hread, hdone⟩ :=
      @readWith_loopDone _ (logged ensure) offset length S m (fun s => good s.1) dest (s, []) hS
        (hinvalid hdest) hlength hrange hlogged hgood
    have hloop := hread
    rw [readWith_eq (hinvalid hdest) hlength hrange] at hloop
    obtain ⟨later, hlater, hasks⟩ := readLoop_asks h h.toNat_last _ _ _ _ _ _
      (le_of_eq h.toNat_first.symm) hloop
    rw [List.nil_append] at hlater
    subst hlater
    rw [h.toNat_first, h.toNat_last] at hasks
    refine ⟨outcome, dest', s', log, hread, hasks.requests, fun asked hasked => ?_, fun hall => ?_,
      fun before failing after hlog hfailed => ?_⟩
    · have hmem : (asked.index.toNat, asked.length.toNat) ∈ requests log := List.mem_map_of_mem hasked
      rw [hasks.requests] at hmem
      obtain ⟨k, hk, hpair⟩ := List.mem_map.mp (List.mem_of_mem_take hmem)
      have hindex : k = asked.index.toNat := congrArg Prod.fst hpair
      rw [List.mem_range'_1, hindex] at hk
      exact h.noWrap (by omega)
    · have hok : outcome.status = .ok := by
        by_contra hne
        obtain ⟨before, failing, rfl, hstatus, -⟩ := hasks.failed hne
        exact hne (hstatus.symm.trans (hall failing (by simp)))
      have hbytes : outcome.bytes = length := hdone.ok hok
      have hreads := hdone.reads
      rw [hbytes] at hreads
      refine ⟨hok, hbytes, ?_, hreads.take, hreads.drop⟩
      rw [hasks.requests]
      exact List.take_of_length_le (by simp [(hasks.ok hok).1])
    · have hne : outcome.status ≠ .ok := fun hok =>
        hfailed ((hasks.ok hok).2 failing (by simp [hlog]))
      obtain ⟨before', failing', hlog', hstatus, hbefore⟩ := hasks.failed hne
      rw [hlog] at hlog'
      rcases List.eq_nil_or_concat after with rfl | ⟨init, final, rfl⟩
      · obtain ⟨rfl, hlast⟩ := List.append_inj' hlog' rfl
        cases hlast
        exact ⟨rfl, hbefore, hstatus.symm, hdone.failed hne, hdone.reads.take, hdone.reads.drop⟩
      · rw [List.concat_eq_append, ← List.cons_append, ← List.append_assoc] at hlog'
        obtain ⟨rfl, -⟩ := List.append_inj' hlog' rfl
        exact absurd (hbefore failing (by simp)) hfailed

/-- Two bytes of four, read across two chunks from a buffer that is always filled. -/
theorem readWith_exact_pairs :
    ∃ outcome dest' s' log,
      Mirror.readWith ⟨⟨[], ⟨[], [], 4⟩⟩, 2, true, 0⟩
          (logged fun index length _ s =>
            (Status.ok, slice [1, 2, 3, 4] (index.toNat * 2) length.toNat, s)) 1 2 [0, 0, 0]
          ((), []) = some (outcome, dest', s', log) ∧
        requests log = (overlapping 1 2 4 2).take log.length := by
  have hensure : Ensures (fun _ : Unit => True) [1, 2, 3, 4] 2 4
      (fun index length _ s => (Status.ok, slice [1, 2, 3, 4] (index.toNat * 2) length.toNat, s))
      0 1 := by
    intro index buffer s _ hlast _ _
    have hindex : index = 0 ∨ index = 1 := by
      rcases Nat.le_one_iff_eq_zero_or_eq_one.mp hlast with hzero | hone
      · exact Or.inl (UInt32.toNat_inj.mp hzero)
      · exact Or.inr (UInt32.toNat_inj.mp hone)
    have hpieces : ∀ k : UInt32, k = 0 ∨ k = 1 →
        (slice ([1, 2, 3, 4] : Bytes) (k.toNat * 2) (chunkLen 4 2 k).toNat).length = 2 ∧
          (slice ([1, 2, 3, 4] : Bytes) (k.toNat * 2) (chunkLen 4 2 k).toNat).take
              (chunkLen 4 2 k).toNat =
            slice ([1, 2, 3, 4] : Bytes) (k.toNat * 2) (chunkLen 4 2 k).toNat := by
      rintro k (rfl | rfl) <;> decide
    obtain ⟨hsize, htake⟩ := hpieces index hindex
    exact ⟨trivial, hsize, fun _ => htake⟩
  obtain ⟨outcome, dest', s', log, hread, hrequests, -⟩ :=
    (readWith_exact ⟨⟨[], ⟨[], [], 4⟩⟩, 2, true, 0⟩ (by decide) [1, 2, 3, 4] rfl _ _ 1 2 [0, 0, 0]
      () hensure trivial).2.2 (by decide) (by decide) (by decide)
  exact ⟨outcome, dest', s', log, hread, hrequests⟩

end TieredCache.Remote
