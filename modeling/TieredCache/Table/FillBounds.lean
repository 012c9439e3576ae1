/-
# Fills stay in their slots

Every read of an identity fill writes into its own slot.  The one exception is an
aligned table of bounded rows whose registered slot width wrapped: its slots are one
block wide, and a row that crosses a block boundary does not fit.
-/

import TieredCache.Math.Alignment
import TieredCache.Math.Words
import TieredCache.Table.FillPlan

namespace TieredCache

open Math.Alignment Math.Words

/-- Byte `i` of the output storage belongs to the slot. -/
def TableConfig.InSlot (cfg : TableConfig) (slot : cfg.SlotId) (i : ℕ) : Prop :=
  slot.val * cfg.outputRowBytes.toNat ≤ i ∧ i < (slot.val + 1) * cfg.outputRowBytes.toNat

/-- The read writes only bytes from `lo` on and before `hi`. -/
def Read.Within (read : Read) (lo hi : ℕ) : Prop :=
  lo ≤ read.destination.toNat ∧ read.destination.toNat + read.source.length.toNat ≤ hi

/-- Chunks write where the one read would. -/
theorem chunkReads_within {chunk base : UInt64} {fill : ByteRange} {steps : ℕ} {pos : UInt64}
    {read : Read} (hwrap : base.toNat + fill.length.toNat < 2 ^ 64)
    (h : read ∈ chunkReads chunk fill base steps pos) :
    read.Within base.toNat (base.toNat + fill.length.toNat) := by
  induction steps generalizing pos with
  | zero => cases h
  | succ steps ih =>
      rw [chunkReads] at h
      split_ifs at h with hpos
      · rcases List.mem_cons.mp h with rfl | h
        · have hpos : pos.toNat < fill.length.toNat := UInt64.lt_iff_toNat_lt.mp hpos
          have hrest : (fill.length - pos).toNat = fill.length.toNat - pos.toNat :=
            UInt64.toNat_sub_of_le _ _ (UInt64.le_iff_toNat_le.mpr hpos.le)
          have hdest : (base + pos).toNat = base.toNat + pos.toNat := by
            rw [UInt64.toNat_add, Nat.mod_eq_of_lt]
            omega
          have hlength := toNat_min chunk (fill.length - pos)
          unfold Read.Within
          dsimp only
          omega
        · exact ih h
      · cases h

namespace TableConfig

variable {cfg : TableConfig} {slot slot' : cfg.SlotId} {row : ByteRange} {shard : ShardSource}

/-- No byte belongs to two slots. -/
theorem InSlot.unique {i : ℕ} (h : cfg.InSlot slot i) (h' : cfg.InSlot slot' i) :
    slot = slot' := by
  have hle : ∀ {s s' : cfg.SlotId}, cfg.InSlot s i → cfg.InSlot s' i → s.val ≤ s'.val := by
    intro s s' hs hs'
    by_contra hlt
    have hnext := Nat.mul_le_mul_right cfg.outputRowBytes.toNat (Nat.lt_of_not_le hlt)
    have := hs.1
    have := hs'.2
    simp only [Nat.succ_eq_add_one] at hnext
    omega
  exact Fin.ext (Nat.le_antisymm (hle h h') (hle h' h))

/-- The output storage does not wrap. -/
theorem Checked.slot_end_le (h : cfg.Checked) (slot : cfg.SlotId) :
    (slot.val + 1) * cfg.outputRowBytes.toNat ≤ 2 ^ 64 - 1 := by
  have hpos : 0 < cfg.budgetRows.toNat := slot.pos
  have hstorage := UInt64.le_iff_toNat_le.mp h.storage
  rw [UInt64.toNat_div, UInt32.toNat_toUInt64, Nat.le_div_iff_mul_le hpos] at hstorage
  calc (slot.val + 1) * cfg.outputRowBytes.toNat
      ≤ cfg.budgetRows.toNat * cfg.outputRowBytes.toNat :=
        Nat.mul_le_mul_right _ slot.isLt
    _ = cfg.outputRowBytes.toNat * cfg.budgetRows.toNat := Nat.mul_comm _ _
    _ ≤ 2 ^ 64 - 1 := hstorage

/-- A slot starts where exact arithmetic puts it. -/
theorem Checked.toNat_slotBase (h : cfg.Checked) (slot : cfg.SlotId) :
    (cfg.slotBase slot).toNat = slot.val * cfg.outputRowBytes.toNat := by
  have hend := h.slot_end_le slot
  have hslot : slot.val.toUInt64.toNat = slot.val :=
    UInt64.toNat_ofNat_of_lt' (lt_trans slot.isLt (lt_trans (UInt32.toNat_lt _) (by decide)))
  rw [slotBase, UInt64.toNat_mul, hslot, Nat.mod_eq_of_lt]
  rw [Nat.add_mul] at hend
  omega

/-- The width a table registers for identity slots. -/
theorem Checked.outputRowBytes_eq (h : cfg.Checked) (hid : cfg.converting = false) :
    cfg.outputRowBytes =
      if cfg.fillAlignment ≠ 0 then alignedSlotBytes cfg.sourceRowBytes cfg.fillAlignment
      else cfg.sourceRowBytes := by
  have hrepr := h.representation
  unfold representationStatus at hrepr
  have hidentity : cfg.representation = .identity := by simpa [converting] using hid
  rw [hidentity] at hrepr
  by_contra hne
  rw [if_pos hne] at hrepr
  cases hrepr

/-- The registered width of aligned slots, before the rounding wraps or after. -/
theorem toNat_alignedSlotBytes {src alignment : UInt64} (hsrc : src ≠ 0)
    (hne : alignment ≠ 0) :
    (alignedSlotBytes src alignment).toNat =
      floor alignment.toNat ((src.toNat + 2 * alignment.toNat - 2) % 2 ^ 64) := by
  have hpos : 0 < alignment.toNat := Nat.pos_of_ne_zero fun h => hne (UInt64.toNat_inj.mp h)
  have hspos : 0 < src.toNat := Nat.pos_of_ne_zero fun h => hsrc (UInt64.toNat_inj.mp h)
  have hsum : (src + 2 * alignment - 2).toNat =
      (src.toNat + 2 * alignment.toNat - 2) % 2 ^ 64 := by
    rw [UInt64.toNat_sub, UInt64.toNat_add, UInt64.toNat_mul]
    simp only [UInt64.reduceToNat]
    omega
  have hle := floor_le alignment.toNat ((src.toNat + 2 * alignment.toNat - 2) % 2 ^ 64)
  unfold floor at hle ⊢
  rw [alignedSlotBytes, UInt64.toNat_mul, UInt64.toNat_div, hsum, Nat.mod_eq_of_lt]
  omega

/-- A located row lies inside its shard. -/
theorem Located.end_le (h : cfg.Located row shard) :
    row.offset.toNat + row.length.toNat ≤ shard.bytes.toNat := by
  have hoffset := UInt64.le_iff_toNat_le.mp h.offset_le
  have hlength := UInt64.le_iff_toNat_le.mp h.length_le
  rw [UInt64.toNat_sub_of_le _ _ h.offset_le] at hlength
  omega

/-- A located row is no longer than the registered width. -/
theorem Located.length_le_source (h : cfg.Located row shard) :
    row.length.toNat ≤ cfg.sourceRowBytes.toNat := by
  have hlength := h.length_ok
  unfold lengthOk at hlength
  split at hlength
  · simp only [Bool.and_eq_true, decide_eq_true_eq] at hlength
    exact UInt64.le_iff_toNat_le.mp hlength.2
  · exact Nat.le_of_eq (congrArg UInt64.toNat (beq_iff_eq.mp hlength))

/-- A power of two that fits a word divides the number of words. -/
theorem dvd_word {a : ℕ} (hpow : a.isPowerOfTwo) (hlt : a < 2 ^ 64) : a ∣ 2 ^ 64 := by
  obtain ⟨k, rfl⟩ := hpow
  exact Nat.pow_dvd_pow 2 (Nat.le_of_lt ((Nat.pow_lt_pow_iff_right (by decide)).mp hlt))

/-- The end of an aligned window, before the clip: rounded up, or zero if the sum wrapped. -/
theorem toNat_windowStop {alignment offset length : UInt64} (hne : alignment ≠ 0)
    (hrow : offset.toNat + length.toNat < 2 ^ 64) :
    ((offset + length + alignment - 1) / alignment * alignment).toNat =
      if offset.toNat + length.toNat + alignment.toNat - 1 < 2 ^ 64 then
        ceil alignment.toNat (offset.toNat + length.toNat)
      else 0 := by
  have hpos : 0 < alignment.toNat := Nat.pos_of_ne_zero fun h => hne (UInt64.toNat_inj.mp h)
  have halign := alignment.toNat_lt
  have hsum : (offset + length + alignment - 1).toNat =
      (offset.toNat + length.toNat + alignment.toNat - 1) % 2 ^ 64 := by
    rw [UInt64.toNat_sub, UInt64.toNat_add, UInt64.toNat_add]
    simp only [UInt64.reduceToNat]
    omega
  rw [UInt64.toNat_mul, UInt64.toNat_div, hsum]
  split_ifs with hwrap
  · have hle := ceil_le alignment.toNat (offset.toNat + length.toNat)
    unfold ceil at hle ⊢
    rw [Nat.mod_eq_of_lt hwrap, Nat.mod_eq_of_lt (lt_of_le_of_lt hle hwrap)]
  · rw [Nat.div_eq_of_lt (by omega), Nat.zero_mul, Nat.zero_mod]

/-- The start of an aligned window. -/
theorem toNat_windowStart (alignment offset : UInt64) :
    (offset / alignment * alignment).toNat = floor alignment.toNat offset.toNat := by
  have hle := floor_le alignment.toNat offset.toNat
  unfold floor at hle ⊢
  rw [UInt64.toNat_mul, UInt64.toNat_div,
    Nat.mod_eq_of_lt (lt_of_le_of_lt hle offset.toNat_lt)]

/-- An aligned window is no wider than the blocks a row of its length can touch, whether
or not its end wrapped. -/
theorem alignedWindow_length_le {alignment : UInt64} (hpow : alignment.toNat.isPowerOfTwo)
    (hne : alignment ≠ 0) (hrow : cfg.Located row shard) :
    (fillWindow alignment shard.bytes row).fill.length.toNat ≤
      floor alignment.toNat (row.length.toNat + 2 * alignment.toNat - 2) := by
  have hpos : 0 < alignment.toNat := Nat.pos_of_ne_zero fun h => hne (UInt64.toNat_inj.mp h)
  have hend := hrow.end_le
  have hshard := shard.bytes.toNat_lt
  have hstart := floor_le alignment.toNat row.offset.toNat
  have hstop := toNat_windowStop hne (lt_of_le_of_lt hend hshard)
  rw [fillWindow, if_pos hne]
  dsimp only
  rw [UInt64.toNat_sub, toNat_min, toNat_windowStart, hstop]
  split_ifs with hwrap
  · have hup := le_ceil hpos (row.offset.toNat + row.length.toNat)
    have hwide := window_le row.offset.toNat row.length.toNat hpos
      (dvd_ceil alignment.toNat (row.offset.toNat + row.length.toNat)) (ceil_le _ _)
    omega
  · have hwide := window_le row.offset.toNat row.length.toNat hpos
      (dvd_word hpow alignment.toNat_lt) (Nat.le_of_not_lt hwrap)
    omega

/-- The sizes a fill depends on did not wrap: the slot width of aligned bounded rows,
and the number of chunk claims a slot has room for. -/
structure SizesExact (cfg : TableConfig) : Prop where
  aligned : cfg.fillAlignment ≠ 0 → cfg.rowExtent = .bounded →
    cfg.sourceRowBytes.toNat + 2 * cfg.fillAlignment.toNat - 2 < 2 ^ 64
  chunks : cfg.chunked = true →
    cfg.fillBytes.toNat ≤ cfg.chunksPerRow.toNat * cfg.fillChunkBytes.toNat

instance (cfg : TableConfig) : Decidable cfg.SizesExact :=
  decidable_of_iff _ ⟨fun h => ⟨h.1, h.2⟩, fun h => And.intro h.aligned h.chunks⟩

/-- If the slot width of exact rows wrapped, the window of every row wraps to nothing. -/
theorem wrappedWindow_length {alignment : UInt64} (hne : alignment ≠ 0)
    (hlen : row.length ≠ 0) (hrow : cfg.Located row shard) (hout : alignedSlotBytes row.length alignment ≠ 0)
    (hwrap : 2 ^ 64 ≤ row.length.toNat + 2 * alignment.toNat - 2) :
    (fillWindow alignment shard.bytes row).fill.length = 0 := by
  have hpos : 0 < alignment.toNat := Nat.pos_of_ne_zero fun h => hne (UInt64.toNat_inj.mp h)
  have halign := alignment.toNat_lt
  have hend := hrow.end_le
  have hshard := shard.bytes.toNat_lt
  have hlength := row.length.toNat_lt
  -- A slot of at least one block leaves room for no row start past the first block.
  have hblock : alignment.toNat ≤ row.length.toNat + 2 * alignment.toNat - 2 - 2 ^ 64 := by
    by_contra hsmall
    apply hout
    apply UInt64.toNat_inj.mp
    rw [toNat_alignedSlotBytes hlen hne, floor_eq_zero]
    · rfl
    · omega
  have hstop := toNat_windowStop hne (lt_of_le_of_lt hend hshard)
  rw [if_neg (by omega)] at hstop
  apply UInt64.toNat_inj.mp
  rw [fillWindow, if_pos hne]
  dsimp only
  rw [UInt64.toNat_sub, toNat_min, toNat_windowStart, hstop, floor_eq_zero (by omega)]
  simp

/-- What a fill reads fits its slot. -/
theorem SizesExact.fill_le (hsizes : cfg.SizesExact) (h : cfg.Checked)
    (hid : cfg.converting = false) (hrow : cfg.Located row shard) :
    (fillWindow cfg.fillAlignment shard.bytes row).fill.length.toNat ≤
      cfg.outputRowBytes.toNat := by
  have hsource := hrow.length_le_source
  have hout := h.outputRowBytes_eq hid
  by_cases hne : cfg.fillAlignment ≠ 0
  · rw [if_pos hne] at hout
    have hwide := alignedWindow_length_le (h.alignment_pow hne) hne hrow
    have hslot := toNat_alignedSlotBytes h.sourceRowBytes_ne hne
    by_cases hwrap :
        cfg.sourceRowBytes.toNat + 2 * cfg.fillAlignment.toNat - 2 < 2 ^ 64
    · rw [hout, hslot, Nat.mod_eq_of_lt hwrap]
      refine hwide.trans (Nat.mul_le_mul_right _ (Nat.div_le_div_right ?_))
      omega
    · -- Only exact rows are left, and their windows wrap along with the slot width.
      have hexact : row.length = cfg.sourceRowBytes := by
        have hlength := hrow.length_ok
        unfold lengthOk at hlength
        split at hlength
        · rename_i hbounded
          exact absurd (hsizes.aligned hne hbounded) hwrap
        · exact beq_iff_eq.mp hlength
      rw [wrappedWindow_length hne (by rw [hexact]; exact h.sourceRowBytes_ne) hrow]
      · exact Nat.zero_le _
      · rw [hexact, ← hout]
        exact h.outputRowBytes_ne
      · rw [hexact]
        exact Nat.le_of_not_lt hwrap
  · rw [if_neg hne] at hout
    rw [fillWindow, if_neg hne, hout]
    exact hsource

/-- Every read of an identity fill writes into the slot being filled. -/
theorem SizesExact.outputReads_within (hsizes : cfg.SizesExact) (h : cfg.Checked)
    (hid : cfg.converting = false) (hrow : cfg.Located row shard) {read : Read}
    (hread : read ∈ cfg.outputReads slot (fillWindow cfg.fillAlignment shard.bytes row).fill) :
    read.Within (slot.val * cfg.outputRowBytes.toNat)
      ((slot.val + 1) * cfg.outputRowBytes.toNat) := by
  have hfill := hsizes.fill_le h hid hrow
  have hbase := h.toNat_slotBase slot
  have hend := h.slot_end_le slot
  have hwithin : read.Within (cfg.slotBase slot).toNat ((cfg.slotBase slot).toNat +
      (fillWindow cfg.fillAlignment shard.bytes row).fill.length.toNat) := by
    unfold outputReads at hread
    split_ifs at hread
    · exact chunkReads_within (by rw [hbase]; rw [Nat.add_mul] at hend; omega) hread
    · rw [List.mem_singleton] at hread
      rw [hread]
      exact ⟨le_rfl, le_rfl⟩
  rw [hbase] at hwithin
  rw [Nat.add_mul, Nat.one_mul]
  exact ⟨hwithin.1, hwithin.2.trans (Nat.add_le_add_left hfill _)⟩

/-- Every request of a fill that targets the output storage targets its own slot. -/
theorem Planned.inSlot (h : cfg.Checked) (hsizes : cfg.SizesExact) {read : Read}
    (hplanned : cfg.Planned slot .output read) {i : ℕ} (hlo : read.destination.toNat ≤ i)
    (hhi : i < read.destination.toNat + read.source.length.toNat) : cfg.InSlot slot i := by
  obtain ⟨row, shard, hrow, hid, hread⟩ := hplanned
  obtain ⟨hstart, hend⟩ := hsizes.outputReads_within h hid hrow hread
  exact ⟨hstart.trans hlo, lt_of_lt_of_le hhi hend⟩

/-! ## Room for the chunk claims -/

/-- A fill is split only where the number of chunks did not wrap on the way. -/
theorem chunked_spec (h : cfg.chunked = true) :
    cfg.fillChunkBytes ≠ 0 ∧ cfg.fillBytes.toNat + cfg.fillChunkBytes.toNat - 1 < 2 ^ 64 := by
  unfold chunked at h
  simp only [Bool.and_eq_true, decide_eq_true_eq] at h
  have hcount := UInt32.lt_iff_toNat_lt.mp h.2
  unfold chunksPerRow at hcount
  split_ifs at hcount with hsplit
  · obtain ⟨hne, hless⟩ := hsplit
    refine ⟨hne, ?_⟩
    by_contra hwrap
    have hpos : 0 < cfg.fillChunkBytes.toNat :=
      Nat.pos_of_ne_zero fun h => hne (UInt64.toNat_inj.mp h)
    have hbytes := cfg.fillBytes.toNat_lt
    have hchunk := cfg.fillChunkBytes.toNat_lt
    have hzero : ((cfg.fillBytes + cfg.fillChunkBytes - 1) / cfg.fillChunkBytes).toNat = 0 := by
      rw [UInt64.toNat_div, UInt64.toNat_sub, UInt64.toNat_add]
      simp only [UInt64.reduceToNat]
      exact Nat.div_eq_of_lt (by omega)
    rw [UInt64.toNat_toUInt32, hzero] at hcount
    simp at hcount
  · simp at hcount

/-- As many chunks as it takes to cover the fill. -/
theorem chunkReads_length_le {chunk base : UInt64} {fill : ByteRange} {steps count : ℕ}
    {pos : UInt64} (hwrap : fill.length.toNat + chunk.toNat ≤ 2 ^ 64)
    (hcover : fill.length.toNat ≤ pos.toNat + count * chunk.toNat) :
    (chunkReads chunk fill base steps pos).length ≤ count := by
  induction steps generalizing pos count with
  | zero => exact Nat.zero_le _
  | succ steps ih =>
      rw [chunkReads]
      split_ifs with hpos
      · have hpos := UInt64.lt_iff_toNat_lt.mp hpos
        cases count with
        | zero => omega
        | succ count =>
            apply Nat.succ_le_succ
            apply ih
            rw [UInt64.toNat_add, Nat.mod_eq_of_lt (by omega)]
            rw [Nat.add_mul, Nat.one_mul] at hcover
            omega
      · exact Nat.zero_le _

/-- A fill has no more chunks than its slot has room for claims. -/
theorem SizesExact.chunkPlan_length_le (hsizes : cfg.SizesExact) (h : cfg.Checked)
    (hchunked : cfg.chunked = true) (hrow : cfg.Located row shard) :
    (cfg.chunkPlan slot (fillWindow cfg.fillAlignment shard.bytes row).fill).length ≤
      cfg.chunksPerRow.toNat := by
  obtain ⟨hne, hroom⟩ := chunked_spec hchunked
  have hid : cfg.converting = false := h.chunk_identity hne
  have hfits : (fillWindow cfg.fillAlignment shard.bytes row).fill.length.toNat ≤
      cfg.fillBytes.toNat := by
    by_cases halign : cfg.fillAlignment ≠ 0
    · rw [fillBytes, if_pos halign]
      exact hsizes.fill_le h hid hrow
    · rw [fillBytes, if_neg halign, fillWindow, if_neg halign]
      exact hrow.length_le_source
  have hcover := hsizes.chunks hchunked
  apply chunkReads_length_le
  · omega
  · rw [UInt64.toNat_zero, Nat.zero_add]
    omega

/-- No fill has more chunks than its slot has entries for their claims, which are written without
a check. -/
def ClaimsFit (cfg : TableConfig) : Prop :=
  cfg.chunked = true → ∀ slot row shard, cfg.Located row shard →
    (cfg.chunkPlan slot (fillWindow cfg.fillAlignment shard.bytes row).fill).length ≤
      cfg.chunksPerRow.toNat

theorem SizesExact.claimsFit (hsizes : cfg.SizesExact) (h : cfg.Checked) : cfg.ClaimsFit :=
  fun hchunked _ _ _ hrow => hsizes.chunkPlan_length_le h hchunked hrow

end TableConfig

end TieredCache
