/-
# The reads of one fill

With sizes below `2 ^ 63` nothing wraps: the window of a row starts and ends where exact
arithmetic puts it, and the reads of an identity fill tile the window and copy it to the
start of the slot, every one aligned if the table is.
-/

import TieredCache.Math.Memory
import TieredCache.Math.Tiling
import TieredCache.Table.FillBounds

namespace TieredCache

open Math.Alignment Math.Memory Math.Tiling Math.Words

/-- The source bytes a read asks for, in exact arithmetic. -/
def Read.piece (read : Read) : ℕ × ℕ := (read.source.offset.toNat, read.source.length.toNat)

/-- The end of a byte range. -/
def ByteRange.stop (range : ByteRange) : ℕ := range.offset.toNat + range.length.toNat

/-! ## Chunks -/

section Chunks

variable {chunk base pos : UInt64} {fill : ByteRange} {steps : ℕ} {read : Read}

/-- What one turn of the chunk loop reads, in exact arithmetic. -/
theorem toNat_chunk (chunk : UInt64) (hstop : fill.stop < 2 ^ 64) (hbase : base.toNat + fill.length.toNat < 2 ^ 64)
    (hpos : pos < fill.length) :
    (fill.offset + pos).toNat = fill.offset.toNat + pos.toNat ∧
      (base + pos).toNat = base.toNat + pos.toNat ∧
      (min chunk (fill.length - pos)).toNat =
        min chunk.toNat (fill.length.toNat - pos.toNat) := by
  have hlt := UInt64.lt_iff_toNat_lt.mp hpos
  unfold ByteRange.stop at hstop
  refine ⟨?_, ?_, ?_⟩
  · rw [UInt64.toNat_add, Nat.mod_eq_of_lt (by omega)]
  · rw [UInt64.toNat_add, Nat.mod_eq_of_lt (by omega)]
  · rw [toNat_min, UInt64.toNat_sub_of_le _ _ (UInt64.le_iff_toNat_le.mpr hlt.le)]

/-- Past the end of the fill nothing is read. -/
theorem chunkReads_eq_nil (hpos : fill.length.toNat ≤ pos.toNat) :
    chunkReads chunk fill base steps pos = [] := by
  cases steps with
  | zero => rfl
  | succ steps => rw [chunkReads, if_neg (UInt64.not_lt.mpr (UInt64.le_iff_toNat_le.mpr hpos))]

/-- The chunks tile the fill. -/
theorem chunkReads_tiles (hchunk : chunk ≠ 0) (hstop : fill.stop < 2 ^ 64)
    (hbase : base.toNat + fill.length.toNat < 2 ^ 64)
    (hroom : fill.length.toNat + chunk.toNat < 2 ^ 64)
    (hsteps : fill.length.toNat ≤ pos.toNat + steps * chunk.toNat)
    (hle : pos.toNat ≤ fill.length.toNat) :
    Tiles (fill.offset.toNat + pos.toNat)
      ((chunkReads chunk fill base steps pos).map Read.piece) fill.stop := by
  have hchunk' : 0 < chunk.toNat := Nat.pos_of_ne_zero fun h => hchunk (UInt64.toNat_inj.mp h)
  induction steps generalizing pos with
  | zero =>
      rw [chunkReads, List.map_nil, tiles_nil, ByteRange.stop]
      omega
  | succ steps ih =>
      by_cases hpos : pos < fill.length
      · obtain ⟨hsource, -, hlength⟩ := toNat_chunk chunk hstop hbase hpos
        have hlt := UInt64.lt_iff_toNat_lt.mp hpos
        have hnext : (pos + chunk).toNat = pos.toNat + chunk.toNat := by
          rw [UInt64.toNat_add, Nat.mod_eq_of_lt (by omega)]
        rw [chunkReads, if_pos hpos, List.map_cons, tiles_cons, Read.piece]
        dsimp only
        rw [hsource, hlength]
        refine ⟨rfl, lt_min hchunk' (by omega), ?_⟩
        rcases Nat.lt_or_ge chunk.toNat (fill.length.toNat - pos.toNat) with hmore | hlast
        · -- Another chunk follows.
          rw [Nat.min_eq_left hmore.le, Nat.add_assoc, ← hnext]
          apply ih
          · rw [hnext]
            rw [Nat.add_mul, Nat.one_mul] at hsteps
            omega
          · rw [hnext]
            omega
        · -- This was the last one.
          rw [Nat.min_eq_right hlast, chunkReads_eq_nil (by omega), List.map_nil, tiles_nil,
            ByteRange.stop]
          omega
      · have hend : fill.length.toNat ≤ pos.toNat :=
          UInt64.le_iff_toNat_le.mp (UInt64.not_lt.mp hpos)
        rw [chunkReads_eq_nil hend, List.map_nil, tiles_nil, ByteRange.stop]
        omega

/-- Every chunk goes to its place in the slot, starts a whole number of chunks into the
fill, and is a whole chunk unless it ends the fill. -/
theorem chunkReads_place (hstop : fill.stop < 2 ^ 64)
    (hbase : base.toNat + fill.length.toNat < 2 ^ 64)
    (hroom : fill.length.toNat + chunk.toNat < 2 ^ 64)
    (hmem : read ∈ chunkReads chunk fill base steps pos) :
    ∃ k, read.source.offset.toNat = fill.offset.toNat + pos.toNat + k * chunk.toNat ∧
      read.destination.toNat + fill.offset.toNat = base.toNat + read.source.offset.toNat ∧
      (read.source.length = chunk ∨ read.source.stop = fill.stop) := by
  induction steps generalizing pos with
  | zero => cases hmem
  | succ steps ih =>
      by_cases hpos : pos < fill.length
      · obtain ⟨hsource, hdest, hlength⟩ := toNat_chunk chunk hstop hbase hpos
        have hlt := UInt64.lt_iff_toNat_lt.mp hpos
        rw [chunkReads, if_pos hpos] at hmem
        rcases List.mem_cons.mp hmem with rfl | hmem
        · refine ⟨0, by rw [hsource]; omega, by rw [hsource, hdest]; omega, ?_⟩
          rcases Nat.lt_or_ge chunk.toNat (fill.length.toNat - pos.toNat) with hmore | hlast
          · exact Or.inl (UInt64.toNat_inj.mp (by rw [hlength, Nat.min_eq_left hmore.le]))
          · refine Or.inr ?_
            unfold ByteRange.stop
            dsimp only
            rw [hsource, hlength, Nat.min_eq_right hlast]
            omega
        · obtain ⟨k, hoffset, hrest⟩ := ih hmem
          refine ⟨k + 1, ?_, hrest⟩
          rw [hoffset, UInt64.toNat_add, Nat.mod_eq_of_lt (by omega), Nat.add_mul, Nat.one_mul]
          omega
      · rw [chunkReads, if_neg hpos] at hmem
        cases hmem

end Chunks

/-! ## Windows -/

/-- The window of a row is exact: the row lies in it `head` bytes in, it lies in the
shard, and an aligned one starts on a block and ends on one or at the shard's end. -/
structure FillWindow.Exact (window : FillWindow) (alignment : UInt64) (row : ByteRange)
    (shard : ShardSource) : Prop where
  head : window.fill.offset.toNat + window.head.toNat = row.offset.toNat
  covers : row.stop ≤ window.fill.stop
  inside : window.fill.stop ≤ shard.bytes.toNat
  start_dvd : alignment ≠ 0 → alignment.toNat ∣ window.fill.offset.toNat
  stop_dvd : alignment ≠ 0 →
    alignment.toNat ∣ window.fill.stop ∨ window.fill.stop = shard.bytes.toNat

namespace TableConfig

variable {cfg : TableConfig} {slot : cfg.SlotId} {row : ByteRange} {shard : ShardSource}

/-- A located row's window is exact if block size and shard are below `2 ^ 63`. -/
theorem Located.window_exact (hrow : cfg.Located row shard) {alignment : UInt64}
    (halign : alignment.toNat < 2 ^ 63) (hshard : shard.bytes.toNat < 2 ^ 63) :
    (fillWindow alignment shard.bytes row).Exact alignment row shard := by
  have hend := hrow.end_le
  by_cases hne : alignment ≠ 0
  · have hpos : 0 < alignment.toNat := Nat.pos_of_ne_zero fun h => hne (UInt64.toNat_inj.mp h)
    have hstart := toNat_windowStart alignment row.offset
    have hstop := toNat_windowStop hne (lt_of_le_of_lt hend shard.bytes.toNat_lt)
    rw [if_pos (by omega)] at hstop
    have hfloor := floor_le alignment.toNat row.offset.toNat
    have hceil := le_ceil hpos (row.offset.toNat + row.length.toNat)
    rw [fillWindow, if_pos hne]
    dsimp only
    generalize row.offset / alignment * alignment = start at hstart
    generalize (row.offset + row.length + alignment - 1) / alignment * alignment = stop at hstop
    have hclip := toNat_min stop shard.bytes
    rw [hstop] at hclip
    generalize min stop shard.bytes = clipped at hclip
    have hhead : (row.offset - start).toNat = row.offset.toNat - start.toNat :=
      UInt64.toNat_sub_of_le _ _ (UInt64.le_iff_toNat_le.mpr (by omega))
    have hlength : (clipped - start).toNat = clipped.toNat - start.toNat :=
      UInt64.toNat_sub_of_le _ _ (UInt64.le_iff_toNat_le.mpr (by omega))
    have hwindow : ByteRange.stop ⟨start, clipped - start⟩ = clipped.toNat := by
      unfold ByteRange.stop
      dsimp only
      rw [hlength]
      omega
    refine ⟨?_, ?_, ?_, fun _ => ?_, fun _ => ?_⟩
    · dsimp only
      rw [hhead]
      omega
    · dsimp only
      rw [hwindow, ByteRange.stop]
      omega
    · rw [hwindow]
      omega
    · rw [hstart]
      exact dvd_floor _ _
    · rw [hwindow, hclip]
      rcases Nat.le_total (ceil alignment.toNat (row.offset.toNat + row.length.toNat))
        shard.bytes.toNat with hle | hle
      · rw [Nat.min_eq_left hle]
        exact Or.inl (dvd_ceil _ _)
      · exact Or.inr (Nat.min_eq_right hle)
  · rw [fillWindow, if_neg hne]
    refine ⟨rfl, le_rfl, hend, fun h => absurd h hne, fun h => absurd h hne⟩

/-! ## Sizes below `2 ^ 63` -/

/-- Sizes and extents are below `2 ^ 63`, and there are fewer than `2 ^ 32` chunks a row. -/
structure SizesBelow (cfg : TableConfig) : Prop where
  source : cfg.sourceRowBytes.toNat < 2 ^ 63
  output : cfg.outputRowBytes.toNat < 2 ^ 63
  chunk : cfg.fillChunkBytes.toNat < 2 ^ 63
  alignment : cfg.fillAlignment.toNat < 2 ^ 63
  chunks : cfg.fillChunkBytes ≠ 0 →
    (cfg.fillBytes.toNat + cfg.fillChunkBytes.toNat - 1) / cfg.fillChunkBytes.toNat < 2 ^ 32
  shards : ∀ shard ∈ cfg.sources, shard.bytes.toNat < 2 ^ 63

instance (cfg : TableConfig) : Decidable cfg.SizesBelow :=
  decidable_of_iff (cfg.sourceRowBytes.toNat < 2 ^ 63 ∧ cfg.outputRowBytes.toNat < 2 ^ 63 ∧
      cfg.fillChunkBytes.toNat < 2 ^ 63 ∧ cfg.fillAlignment.toNat < 2 ^ 63 ∧
      (cfg.fillChunkBytes ≠ 0 → (cfg.fillBytes.toNat + cfg.fillChunkBytes.toNat - 1) /
        cfg.fillChunkBytes.toNat < 2 ^ 32) ∧
      ∀ shard ∈ cfg.sources, shard.bytes.toNat < 2 ^ 63)
    ⟨fun ⟨hs, ho, hc, ha, hn, hshards⟩ => ⟨hs, ho, hc, ha, hn, hshards⟩,
      fun h => ⟨h.source, h.output, h.chunk, h.alignment, h.chunks, h.shards⟩⟩

namespace SizesBelow

theorem fillBytes_lt (h : cfg.SizesBelow) : cfg.fillBytes.toNat < 2 ^ 63 := by
  unfold fillBytes
  split_ifs
  · exact h.output
  · exact h.source

/-- Such sizes are exact. -/
theorem exact (h : cfg.SizesBelow) (hchecked : cfg.Checked) : cfg.SizesExact where
  aligned := fun hne _ => by
    obtain ⟨k, hk⟩ := hchecked.alignment_pow hne
    have halign := h.alignment
    have hsource := h.source
    rw [hk] at halign ⊢
    have hle : 2 ^ k ≤ 2 ^ 62 :=
      Nat.pow_le_pow_right (by decide)
        (Nat.le_of_lt_succ ((Nat.pow_lt_pow_iff_right (by decide)).mp halign))
    omega
  chunks := fun hchunked => by
    obtain ⟨hne, hroom⟩ := chunked_spec hchunked
    have hpos : 0 < cfg.fillChunkBytes.toNat :=
      Nat.pos_of_ne_zero fun h => hne (UInt64.toNat_inj.mp h)
    unfold chunked at hchunked
    simp only [Bool.and_eq_true, decide_eq_true_eq] at hchunked
    have hmany := hchunked.2
    unfold chunksPerRow at hmany ⊢
    split_ifs at hmany ⊢
    · have hfill := h.fillBytes_lt
      have hchunk := h.chunk
      have hcount : ((cfg.fillBytes + cfg.fillChunkBytes - 1) / cfg.fillChunkBytes).toNat =
          (cfg.fillBytes.toNat + cfg.fillChunkBytes.toNat - 1) / cfg.fillChunkBytes.toNat := by
        rw [UInt64.toNat_div, UInt64.toNat_sub, UInt64.toNat_add]
        simp only [UInt64.reduceToNat]
        congr 1
        omega
      rw [UInt64.toNat_toUInt32, hcount, Nat.mod_eq_of_lt (h.chunks hne)]
      have hcover := Nat.lt_div_mul_add hpos (a := cfg.fillBytes.toNat + cfg.fillChunkBytes.toNat - 1)
      omega
    · exact absurd hmany (by decide)

end SizesBelow

/-! ## The plan of a fill -/

/-- The reads of a fill are exact: their sources follow one another over the window of
the row, and each goes to its place in the slot. -/
structure ExactReads (cfg : TableConfig) (slot : cfg.SlotId) (row : ByteRange)
    (shard : ShardSource) (reads : List Read) : Prop where
  window : (fillWindow cfg.fillAlignment shard.bytes row).Exact cfg.fillAlignment row shard
  fits : (fillWindow cfg.fillAlignment shard.bytes row).fill.length.toNat ≤
    cfg.outputRowBytes.toNat
  tiles : Tiles (fillWindow cfg.fillAlignment shard.bytes row).fill.offset.toNat
    (reads.map Read.piece) (fillWindow cfg.fillAlignment shard.bytes row).fill.stop
  place : ∀ read ∈ reads,
    read.destination.toNat + (fillWindow cfg.fillAlignment shard.bytes row).fill.offset.toNat =
      slot.val * cfg.outputRowBytes.toNat + read.source.offset.toNat
  whole : cfg.fillAlignment ≠ 0 → ∀ read ∈ reads,
    cfg.fillAlignment.toNat ∣ read.source.offset.toNat ∧
      (cfg.fillAlignment.toNat ∣ read.source.length.toNat ∨
        read.source.stop = shard.bytes.toNat)

/-- A located row is not empty. -/
theorem Located.length_pos (hrow : cfg.Located row shard) (hchecked : cfg.Checked) :
    0 < row.length.toNat := by
  apply Nat.pos_of_ne_zero
  intro hzero
  have hzero : row.length = 0 := UInt64.toNat_inj.mp hzero
  have hlength := hrow.length_ok
  unfold lengthOk at hlength
  split at hlength
  · simp [hzero] at hlength
  · rw [hzero] at hlength
    exact hchecked.sourceRowBytes_ne (beq_iff_eq.mp hlength).symm

/-- The reads of an identity fill are exact. -/
theorem SizesBelow.exactReads (h : cfg.SizesBelow) (hchecked : cfg.Checked)
    (hid : cfg.converting = false) (hrow : cfg.Located row shard)
    (hshard : shard.bytes.toNat < 2 ^ 63) :
    cfg.ExactReads slot row shard
      (cfg.outputReads slot (fillWindow cfg.fillAlignment shard.bytes row).fill) := by
  have hwindow := hrow.window_exact h.alignment hshard
  have hfits := (h.exact hchecked).fill_le hchecked hid hrow
  have hbase := hchecked.toNat_slotBase slot
  have hend := hchecked.slot_end_le slot
  have hinside := hwindow.inside
  have hlength := hrow.length_pos hchecked
  have hcovers := hwindow.covers
  have hhead := hwindow.head
  rw [Nat.add_mul, Nat.one_mul] at hend
  unfold ByteRange.stop at hcovers
  generalize hfill : (fillWindow cfg.fillAlignment shard.bytes row).fill = fill at *
  have hstop : fill.stop < 2 ^ 64 := by omega
  have hroom : (cfg.slotBase slot).toNat + fill.length.toNat < 2 ^ 64 := by omega
  have hpos : 0 < fill.length.toNat := by omega
  have hlen : fill.length.toNat = fill.stop - fill.offset.toNat := by
    unfold ByteRange.stop
    omega
  unfold outputReads
  split_ifs with hchunked
  · obtain ⟨hne, -⟩ := chunked_spec hchunked
    have hchunk : 0 < cfg.fillChunkBytes.toNat :=
      Nat.pos_of_ne_zero fun h => hne (UInt64.toNat_inj.mp h)
    have hsum : fill.length.toNat + cfg.fillChunkBytes.toNat < 2 ^ 64 := by
      have := h.chunk
      have := h.output
      omega
    have hplace : ∀ read ∈ cfg.chunkPlan slot fill, _ := fun read hread =>
      chunkReads_place hstop hroom hsum hread
    refine ⟨hwindow, by rw [hfill]; exact hfits, ?_, ?_, ?_⟩
    · have hsteps : fill.length.toNat ≤ UInt64.toNat 0 +
          (fill.length.toNat / cfg.fillChunkBytes.toNat + 2) * cfg.fillChunkBytes.toNat := by
        rw [UInt64.toNat_zero, Nat.zero_add, Nat.add_mul]
        have := Nat.lt_div_mul_add hchunk (a := fill.length.toNat)
        omega
      rw [hfill]
      exact chunkReads_tiles hne hstop hroom hsum hsteps (Nat.zero_le _)
    · intro read hread
      obtain ⟨k, -, hdest, -⟩ := hplace read hread
      rw [hfill, ← hbase]
      exact hdest
    · intro halign read hread
      obtain ⟨k, hoffset, -, hshape⟩ := hplace read hread
      rw [UInt64.toNat_zero, Nat.add_zero] at hoffset
      have hstart := hwindow.start_dvd halign
      rw [hfill] at hstart
      have hmultiple : cfg.fillAlignment.toNat ∣ cfg.fillChunkBytes.toNat := by
        have hmod := congrArg UInt64.toNat (hchecked.chunk_aligned halign)
        rw [UInt64.toNat_mod, UInt64.toNat_zero] at hmod
        exact Nat.dvd_of_mod_eq_zero hmod
      have hdvd : cfg.fillAlignment.toNat ∣ read.source.offset.toNat := by
        rw [hoffset]
        exact Nat.dvd_add hstart (Dvd.dvd.mul_left hmultiple k)
      refine ⟨hdvd, ?_⟩
      rcases hshape with hwhole | hlast
      · rw [hwhole]
        exact Or.inl hmultiple
      · rw [hlast]
        have hends := hwindow.stop_dvd halign
        rw [hfill] at hends
        refine hends.imp_left fun hends => ?_
        rw [← hlast, ByteRange.stop] at hends
        exact (Nat.dvd_add_right hdvd).mp hends
  · refine ⟨hwindow, by rw [hfill]; exact hfits, ?_, ?_, ?_⟩
    · rw [hfill]
      exact ⟨rfl, hpos, rfl⟩
    · intro read hread
      rw [List.mem_singleton.mp hread, hfill, hbase]
    · intro halign read hread
      have hstart := hwindow.start_dvd halign
      have hends := hwindow.stop_dvd halign
      rw [hfill] at hstart hends
      rw [List.mem_singleton.mp hread]
      exact ⟨hstart, hends.imp_left fun hends => (Nat.dvd_add_right hstart).mp hends⟩

namespace ExactReads

variable {reads : List Read}

/-- The reads write to ranges of the slot that do not overlap. -/
theorem destinations (h : cfg.ExactReads slot row shard reads) :
    (reads.Pairwise fun read later =>
      read.destination.toNat + read.source.length.toNat ≤ later.destination.toNat) ∧
    ∀ read ∈ reads, read.Within (slot.val * cfg.outputRowBytes.toNat)
      ((slot.val + 1) * cfg.outputRowBytes.toNat) := by
  have hfits := h.fits
  refine ⟨?_, fun read hread => ?_⟩
  · have hpairs := List.pairwise_map.mp h.tiles.pairwise
    refine hpairs.imp_of_mem fun {read later} hread hlater hbefore => ?_
    have hplace := h.place read hread
    have hplace' := h.place later hlater
    simp only [Read.piece] at hbefore
    omega
  · have hin := h.tiles.inside (List.mem_map_of_mem hread)
    have hplace := h.place read hread
    simp only [Read.piece, ByteRange.stop] at hin
    rw [Nat.add_mul, Nat.one_mul]
    unfold Read.Within
    omega

/-- The sources of the reads follow one another over the row inside its shard. -/
theorem sources (h : cfg.ExactReads slot row shard reads) :
    ∃ lo hi, Tiles lo (reads.map Read.piece) hi ∧ lo ≤ row.offset.toNat ∧ row.stop ≤ hi ∧
      hi ≤ shard.bytes.toNat := by
  refine ⟨_, _, h.tiles, ?_, h.window.covers, h.window.inside⟩
  rw [← h.window.head]
  exact Nat.le_add_right _ _

/-- On an aligned table each read starts on a block of the source and of the slot, and is
a whole number of blocks unless it ends the shard. -/
theorem aligned (h : cfg.ExactReads slot row shard reads) (halign : cfg.fillAlignment ≠ 0)
    {read : Read} (hread : read ∈ reads) :
    cfg.fillAlignment.toNat ∣ read.source.offset.toNat ∧
      cfg.fillAlignment.toNat ∣ read.destination.toNat - slot.val * cfg.outputRowBytes.toNat ∧
      (cfg.fillAlignment.toNat ∣ read.source.length.toNat ∨
        read.source.stop = shard.bytes.toNat) := by
  obtain ⟨hoffset, hlength⟩ := h.whole halign read hread
  refine ⟨hoffset, ?_, hlength⟩
  have hplace := h.place read hread
  have hstart := h.window.start_dvd halign
  have hrelative : read.destination.toNat - slot.val * cfg.outputRowBytes.toNat =
      read.source.offset.toNat -
        (fillWindow cfg.fillAlignment shard.bytes row).fill.offset.toNat := by
    omega
  rw [hrelative]
  exact Nat.dvd_sub hoffset hstart

/-- Once every read has copied its source, the row is in the slot from `head` on. -/
theorem copied (h : cfg.ExactReads slot row shard reads) {source output : ℕ → UInt8}
    (hcopied : ∀ read ∈ reads, ∀ k < read.source.length.toNat,
      output (read.destination.toNat + k) = source (read.source.offset.toNat + k)) :
    bytes output (slot.val * cfg.outputRowBytes.toNat +
        (fillWindow cfg.fillAlignment shard.bytes row).head.toNat) row.length.toNat =
      bytes source row.offset.toNat row.length.toNat := by
  apply bytes_congr
  intro k hk
  have hhead := h.window.head
  have hcovers := h.window.covers
  rw [ByteRange.stop] at hcovers
  obtain ⟨piece, hpiece, hlo, hhi⟩ := h.tiles.covers (i := row.offset.toNat + k)
    (by omega) (by omega)
  obtain ⟨read, hread, rfl⟩ := List.mem_map.mp hpiece
  have hplace := h.place read hread
  simp only [Read.piece] at hlo hhi
  have hbyte := hcopied read hread (row.offset.toNat + k - read.source.offset.toNat) (by omega)
  rw [Nat.add_sub_cancel' hlo] at hbyte
  rw [← hbyte]
  congr 1
  omega

end ExactReads

end TableConfig

end TieredCache
