/-
# The sizes of a fill

Registration and admission compute sizes in 32- and 64-bit words: the width of an aligned
slot, the number of chunks of a row, the number of claims to register for a shard and the
end of an aligned window.  Where none of them wraps, every fill stays within the room that
was made for it.
-/

import Mathlib.Algebra.Group.Action.Defs
import Mathlib.Algebra.Order.BigOperators.Group.Finset
import TieredCache.Table.FilledRows
import TieredCache.Table.Victims

namespace TieredCache

open Math.Alignment Math.Runs Math.Words

variable {cfg : TableConfig} {row : ByteRange} {shard : ShardSource}

namespace TableConfig

variable (cfg)

/-- `max_claims`: how many claims `make_binding` registers for a shard. -/
def maxClaims : UInt32 := cfg.budgetRows * cfg.chunksPerRow

/-- How many claims each slot has room for. -/
def chunkClaimsSize : ℕ :=
  if cfg.fillChunkBytes ≠ 0 ∧ cfg.fillChunkBytes < cfg.fillBytes then cfg.chunksPerRow.toNat else 0

/-- The number of chunks of the widest fill, in exact arithmetic. -/
def exactChunks : ℕ :=
  if cfg.fillChunkBytes ≠ 0 ∧ cfg.fillChunkBytes < cfg.fillBytes then
    (cfg.fillBytes.toNat + cfg.fillChunkBytes.toNat - 1) / cfg.fillChunkBytes.toNat
  else 1

end TableConfig

/-- The end of an aligned window, clipped at the shard's end. -/
def windowEnd (alignment shardBytes : UInt64) (row : ByteRange) : UInt64 :=
  min ((row.offset + row.length + alignment - 1) / alignment * alignment) shardBytes

/-- The window of a fill is what lies between the aligned start and `windowEnd`. -/
theorem fillWindow_eq {alignment shardBytes : UInt64} (h : alignment ≠ 0) :
    fillWindow alignment shardBytes row =
      ⟨⟨row.offset / alignment * alignment,
        windowEnd alignment shardBytes row - row.offset / alignment * alignment⟩,
        row.offset - row.offset / alignment * alignment⟩ :=
  if_pos h

namespace TableConfig

/-- Every size of the table and of the fill of a row is what exact arithmetic gives. -/
structure SizingExact (cfg : TableConfig) (row : ByteRange) (shard : ShardSource) : Prop where
  slotBytes : cfg.fillAlignment ≠ 0 →
    (alignedSlotBytes cfg.sourceRowBytes cfg.fillAlignment).toNat =
      floor cfg.fillAlignment.toNat (cfg.sourceRowBytes.toNat + 2 * cfg.fillAlignment.toNat - 2)
  chunks : cfg.chunksPerRow.toNat = cfg.exactChunks
  claims : cfg.maxClaims.toNat = cfg.budgetRows.toNat * cfg.exactChunks
  windowEnd : cfg.fillAlignment ≠ 0 →
    (windowEnd cfg.fillAlignment shard.bytes row).toNat =
      min (ceil cfg.fillAlignment.toNat (row.offset.toNat + row.length.toNat)) shard.bytes.toNat

/-- No size is too large for the word it is computed in. -/
structure NoWrap (cfg : TableConfig) (row : ByteRange) : Prop where
  slotBytes : cfg.fillAlignment ≠ 0 →
    cfg.sourceRowBytes.toNat + 2 * cfg.fillAlignment.toNat - 2 < 2 ^ 64
  chunks : cfg.fillChunkBytes ≠ 0 → cfg.fillChunkBytes < cfg.fillBytes →
    cfg.fillBytes.toNat + cfg.fillChunkBytes.toNat - 1 < 2 ^ 64
  claims : cfg.budgetRows.toNat * cfg.exactChunks < 2 ^ 32
  windowEnd : cfg.fillAlignment ≠ 0 →
    row.offset.toNat + row.length.toNat + cfg.fillAlignment.toNat - 1 < 2 ^ 64

/-! ## Exact sizes -/

theorem toNat_pos {x : UInt64} (h : x ≠ 0) : 0 < x.toNat :=
  Nat.pos_of_ne_zero fun hzero => h (UInt64.toNat_inj.mp hzero)

/-- The number of chunks as the code computes it: a 64-bit quotient, cut to 32 bits. -/
theorem toNat_chunksPerRow (hne : cfg.fillChunkBytes ≠ 0) (hlt : cfg.fillChunkBytes < cfg.fillBytes) :
    cfg.chunksPerRow.toNat =
      (cfg.fillBytes.toNat + cfg.fillChunkBytes.toNat - 1) % 2 ^ 64 / cfg.fillChunkBytes.toNat %
        2 ^ 32 := by
  have hpos := toNat_pos hne
  have hbytes := cfg.fillBytes.toNat_lt
  have hchunk := cfg.fillChunkBytes.toNat_lt
  have hsum : (cfg.fillBytes + cfg.fillChunkBytes - 1).toNat =
      (cfg.fillBytes.toNat + cfg.fillChunkBytes.toNat - 1) % 2 ^ 64 := by
    rw [UInt64.toNat_sub, UInt64.toNat_add]
    simp only [UInt64.reduceToNat]
    omega
  rw [chunksPerRow, if_pos ⟨hne, hlt⟩, UInt64.toNat_toUInt32, UInt64.toNat_div, hsum]

/-- The number of chunks is exact if it fits and the sum it comes from does. -/
theorem chunksPerRow_exact_iff :
    cfg.chunksPerRow.toNat = cfg.exactChunks ↔
      (cfg.fillChunkBytes ≠ 0 → cfg.fillChunkBytes < cfg.fillBytes →
        cfg.fillBytes.toNat + cfg.fillChunkBytes.toNat - 1 < 2 ^ 64) ∧ cfg.exactChunks < 2 ^ 32 := by
  by_cases hsplit : cfg.fillChunkBytes ≠ 0 ∧ cfg.fillChunkBytes < cfg.fillBytes
  · have hpos := toNat_pos hsplit.1
    have hchunk := cfg.fillChunkBytes.toNat_lt
    have hwrap := mod_div_eq_iff (n := cfg.fillBytes.toNat + cfg.fillChunkBytes.toNat - 1) hpos
      (Nat.le_of_lt hchunk)
    have hle : ∀ n : ℕ, n % 2 ^ 64 / cfg.fillChunkBytes.toNat ≤ n / cfg.fillChunkBytes.toNat :=
      fun n => Nat.div_le_div_right (Nat.mod_le n _)
    have hcount := toNat_chunksPerRow hsplit.1 hsplit.2
    have hlt := cfg.chunksPerRow.toNat_lt
    rw [exactChunks, if_pos hsplit]
    constructor
    · intro hexact
      refine ⟨fun _ _ => hwrap.mp ?_, hexact ▸ hlt⟩
      have hmod := Nat.mod_le ((cfg.fillBytes.toNat + cfg.fillChunkBytes.toNat - 1) % 2 ^ 64 /
        cfg.fillChunkBytes.toNat) (2 ^ 32)
      exact Nat.le_antisymm (hle _) (by rw [← hexact, hcount]; exact hmod)
    · rintro ⟨hsum, hfits⟩
      rw [hcount, hwrap.mpr (hsum hsplit.1 hsplit.2), Nat.mod_eq_of_lt hfits]
  · rw [exactChunks, if_neg hsplit, chunksPerRow, if_neg hsplit]
    exact iff_of_true rfl ⟨fun hne hlt => absurd ⟨hne, hlt⟩ hsplit, by decide⟩

/-- Where the number of chunks is exact, the number of claims is if it fits. -/
theorem maxClaims_exact_iff (hchunks : cfg.chunksPerRow.toNat = cfg.exactChunks) :
    cfg.maxClaims.toNat = cfg.budgetRows.toNat * cfg.exactChunks ↔
      cfg.budgetRows.toNat * cfg.exactChunks < 2 ^ 32 := by
  rw [maxClaims, UInt32.toNat_mul, hchunks]
  exact Nat.mod_eq_iff_lt (by decide)

/-- The registered width is exact if the sum it is rounded from fits. -/
theorem Checked.slotBytes_exact_iff (h : cfg.Checked) (hne : cfg.fillAlignment ≠ 0) :
    (alignedSlotBytes cfg.sourceRowBytes cfg.fillAlignment).toNat =
        floor cfg.fillAlignment.toNat (cfg.sourceRowBytes.toNat + 2 * cfg.fillAlignment.toNat - 2) ↔
      cfg.sourceRowBytes.toNat + 2 * cfg.fillAlignment.toNat - 2 < 2 ^ 64 := by
  rw [toNat_alignedSlotBytes h.sourceRowBytes_ne hne]
  exact floor_mod_eq_iff (toNat_pos hne) (Nat.le_of_lt cfg.fillAlignment.toNat_lt)

/-- Located rows are not empty. -/
theorem Located.length_ne (hrow : cfg.Located row shard) (h : cfg.Checked) : row.length ≠ 0 := by
  have hlength := hrow.length_ok
  unfold lengthOk at hlength
  split at hlength
  · simp only [Bool.and_eq_true, bne_iff_ne] at hlength
    exact hlength.1
  · rw [beq_iff_eq.mp hlength]
    exact h.sourceRowBytes_ne

/-- The end of the window is exact if the sum it is rounded from fits; it is zero
otherwise, and no window ends there. -/
theorem Located.windowEnd_exact_iff (hrow : cfg.Located row shard) (h : cfg.Checked)
    (hne : cfg.fillAlignment ≠ 0) :
    (TieredCache.windowEnd cfg.fillAlignment shard.bytes row).toNat =
        min (ceil cfg.fillAlignment.toNat (row.offset.toNat + row.length.toNat)) shard.bytes.toNat ↔
      row.offset.toNat + row.length.toNat + cfg.fillAlignment.toNat - 1 < 2 ^ 64 := by
  have hpos := toNat_pos (hrow.length_ne h)
  have hend := hrow.end_le
  have hshard := shard.bytes.toNat_lt
  have hceil := le_ceil (toNat_pos hne) (row.offset.toNat + row.length.toNat)
  rw [TieredCache.windowEnd, toNat_min, toNat_windowStop hne (lt_of_le_of_lt hend hshard)]
  split_ifs with hfits
  · exact iff_of_true rfl hfits
  · refine iff_of_false (fun hzero => ?_) hfits
    omega

/-- The sizes are exact if and only if nothing wraps. -/
theorem sizingExact_iff (h : cfg.Checked) (hrow : cfg.Located row shard) :
    cfg.SizingExact row shard ↔ cfg.NoWrap row := by
  constructor
  · intro hexact
    obtain ⟨hchunks, -⟩ := chunksPerRow_exact_iff.mp hexact.chunks
    exact {
      slotBytes := fun hne => (h.slotBytes_exact_iff hne).mp (hexact.slotBytes hne)
      chunks := hchunks
      claims := (maxClaims_exact_iff hexact.chunks).mp hexact.claims
      windowEnd := fun hne => (hrow.windowEnd_exact_iff h hne).mp (hexact.windowEnd hne) }
  · intro hfits
    have hbudget : 0 < cfg.budgetRows.toNat :=
      Nat.pos_of_ne_zero fun hzero => h.budgetRows_ne (UInt32.toNat_inj.mp hzero)
    have hchunks := chunksPerRow_exact_iff.mpr
      ⟨hfits.chunks, lt_of_le_of_lt (Nat.le_mul_of_pos_left _ hbudget) hfits.claims⟩
    exact {
      slotBytes := fun hne => (h.slotBytes_exact_iff hne).mpr (hfits.slotBytes hne)
      chunks := hchunks
      claims := (maxClaims_exact_iff hchunks).mpr hfits.claims
      windowEnd := fun hne => (hrow.windowEnd_exact_iff h hne).mpr (hfits.windowEnd hne) }

/-! ## Room for every fill -/

theorem exactChunks_pos (cfg : TableConfig) : 0 < cfg.exactChunks := by
  unfold exactChunks
  split_ifs with hsplit
  · have hpos := toNat_pos hsplit.1
    have hlt := UInt64.lt_iff_toNat_lt.mp hsplit.2
    exact Nat.div_pos (by omega) hpos
  · exact Nat.one_pos

/-- Fills are split only if they are wider than a chunk. -/
theorem split_of_chunked (h : cfg.chunked = true) :
    cfg.fillChunkBytes ≠ 0 ∧ cfg.fillChunkBytes < cfg.fillBytes := by
  by_contra hsplit
  simp [chunked, chunksPerRow, hsplit] at h

/-- What the bounds on fills rest on. -/
theorem NoWrap.sizesExact (h : cfg.NoWrap row)
    (hchunks : cfg.chunksPerRow.toNat = cfg.exactChunks) : cfg.SizesExact where
  aligned := fun hne _ => h.slotBytes hne
  chunks := fun hchunked => by
    have hpos := toNat_pos (chunked_spec hchunked).1
    rw [hchunks, exactChunks, if_pos (split_of_chunked hchunked)]
    exact le_ceil hpos cfg.fillBytes.toNat

/-- No fill makes more reads than the row has chunks. -/
theorem SizesExact.fillReads_length_le (hsizes : cfg.SizesExact) (h : cfg.Checked)
    (hrow : cfg.Located row shard) (hpos : 0 < cfg.chunksPerRow.toNat) (slot : cfg.SlotId)
    (scratch : Option cfg.ScratchId) :
    (cfg.fillReads slot scratch row shard).length ≤ cfg.chunksPerRow.toNat := by
  unfold fillReads outputReads
  split_ifs with hconverting hchunked
  · cases scratch with
    | none => exact Nat.zero_le _
    | some index => exact hpos
  · exact hsizes.chunkPlan_length_le h hchunked hrow
  · exact hpos

end TableConfig

namespace Table

/-- How many claims the slots hold, this one left out. -/
def claimsBesides (t : Table cfg) (slot : cfg.SlotId) : ℕ :=
  ∑ s ∈ Finset.univ.erase slot, (t.slots s).claims.length

/-- No slot holds more claims than a row has chunks. -/
theorem RowsInv.claims_length_le {t : Table cfg} (hrows : t.RowsInv) (hclaims : t.ClaimInv)
    (h : cfg.Checked) (hsizes : cfg.SizesExact) (hpos : 0 < cfg.chunksPerRow.toNat)
    (s : cfg.SlotId) : (t.slots s).claims.length ≤ cfg.chunksPerRow.toNat := by
  by_cases hfilling : (t.slots s).state = .filling
  · obtain ⟨ids, scratch, location, source, hfrom, hids, -⟩ := hrows s (Or.inl hfilling)
    have hlength := congrArg List.length hfrom.submitted.reads
    rw [List.length_map, hids hfilling] at hlength
    rw [hlength]
    exact hsizes.fillReads_length_le h (cfg.locate_eq_ok hfrom.located).2.2 hpos s scratch
  · rw [hclaims.claims_eq_nil hfilling]
    exact Nat.zero_le _

/-- The other slots leave one slot's share of the claims. -/
theorem claimsBesides_le {t : Table cfg} {n : ℕ} (h : ∀ s, (t.slots s).claims.length ≤ n)
    (slot : cfg.SlotId) : t.claimsBesides slot + n ≤ cfg.budgetRows.toNat * n := by
  have hsum := Finset.sum_le_card_nsmul (Finset.univ.erase slot)
    (fun s => (t.slots s).claims.length) n fun s _ => h s
  rw [Finset.card_erase_of_mem (Finset.mem_univ slot), Finset.card_univ, Fintype.card_fin,
    smul_eq_mul] at hsum
  have hbudget : 0 < cfg.budgetRows.toNat := slot.pos
  calc t.claimsBesides slot + n ≤ (cfg.budgetRows.toNat - 1) * n + n := Nat.add_le_add_right hsum n
    _ = cfg.budgetRows.toNat * n := by
      rw [← Nat.succ_mul, Nat.succ_eq_add_one, Nat.sub_add_cancel hbudget]

end Table

/-- The fills of a row stay within their room: the slot's claims, the slot's bytes, and,
whenever a section admits a row into a slot, the claims registered for a shard. -/
structure TableConfig.FillsFit (cfg : TableConfig) (h : cfg.Accepted) (row : ByteRange)
    (shard : ShardSource) : Prop where
  room : cfg.chunked = true → ∀ slot,
    (cfg.chunkPlan slot (fillWindow cfg.fillAlignment shard.bytes row).fill).length ≤
      cfg.chunkClaimsSize
  within : cfg.converting = false → ∀ slot,
    ∀ read ∈ cfg.outputReads slot (fillWindow cfg.fillAlignment shard.bytes row).fill,
      read.Within (slot.val * cfg.outputRowBytes.toNat) ((slot.val + 1) * cfg.outputRowBytes.toNat)
  claims : ∀ w t u slot scratch, Reachable World.step (World.start cfg h) w → w.Searches t →
    t.claimVictim = (some slot, u) →
      u.claimsBesides slot + (cfg.fillReads slot scratch row shard).length ≤ cfg.maxClaims.toNat

/-- Where nothing wraps, every fill has its room. -/
theorem TableConfig.NoWrap.fillsFit (hfits : cfg.NoWrap row) (h : cfg.Accepted)
    (hrow : cfg.Located row shard) : cfg.FillsFit h row shard := by
  have hchecked := h.checked
  have hexact := (sizingExact_iff hchecked hrow).mpr hfits
  have hsizes := hfits.sizesExact hexact.chunks
  have hpos : 0 < cfg.chunksPerRow.toNat := hexact.chunks ▸ cfg.exactChunks_pos
  refine ⟨fun hchunked slot => ?_, fun hid slot read hread => ?_, ?_⟩
  · rw [chunkClaimsSize, if_pos (split_of_chunked hchunked)]
    exact hsizes.chunkPlan_length_le hchecked hchunked hrow
  · exact hsizes.outputReads_within hchecked hid hrow hread
  · intro w t u slot scratch hw ht hvictim
    have hfill := World.fillInv_of_reachable hw
    have hsweeps := t.claimVictim_spec.1
    rw [hvictim] at hsweeps
    have hedits : Table.Edits w.table u :=
      (ht.edits hfill.index).trans (Table.Quiets.edits hsweeps.quiets)
    have hclaims := (World.claimsInv_of_reachable hw).claims
    have hrows := (World.rowsInv_of_reachable hw).edits hclaims (World.bookInv_of_reachable hw)
      (World.pastBindings_of_reachable hw) hedits
    have hheld := hrows.claims_length_le (hedits.claims hclaims).1 hchecked hsizes hpos
    rw [hexact.claims, ← hexact.chunks]
    exact (Nat.add_le_add_left (hsizes.fillReads_length_le hchecked hrow hpos slot scratch) _).trans
      (Table.claimsBesides_le hheld slot)

/-- The sizes of a table and of the fill of a row it admits are exact, and every fill has
its room, if and only if no size is too large for its word. -/
theorem fill_sizing_exact_iff (h : cfg.Accepted) (hrow : cfg.Located row shard) :
    (cfg.SizingExact row shard ∧ cfg.FillsFit h row shard) ↔ cfg.NoWrap row := by
  rw [TableConfig.sizingExact_iff h.checked hrow]
  exact ⟨fun hboth => hboth.1, fun hfits => ⟨hfits, hfits.fillsFit h hrow⟩⟩

/-- The sizes of a small table of two chunks a row. -/
theorem fill_sizing_exact_bytes :
    twoShards.SizingExact ⟨0, 2⟩ ⟨0, 2⟩ ∧ twoShards.FillsFit twoShards_accepted ⟨0, 2⟩ ⟨0, 2⟩ := by
  apply (fill_sizing_exact_iff twoShards_accepted ⟨by decide, by decide, by decide⟩).mpr
  refine ⟨fun hne => absurd rfl hne, fun _ _ => ?_, ?_, fun hne => absurd rfl hne⟩ <;> decide

/-- The one row, at the start of the one shard. -/
def wideRowResolver : RowExtentResolver where
  resolve := fun _ => .ok ⟨0, ⟨0, 0x10000⟩⟩
  failure_ne_ok := fun _ h => by cases h

/-- `2 ^ 16 + 1` slots of `2 ^ 16` bytes, read byte by byte. -/
def manyChunks : TableConfig where
  rowCount := 1
  sourceRowBytes := 0x10000
  fillChunkBytes := 1
  outputRowBytes := 0x10000
  sources := [⟨0, 0x10000⟩]
  resolveExtent := some wideRowResolver
  outputStorage := ⟨0, 0x100010000⟩
  budgetRows := 0x10001
  maxTickets := 1
  maxBatchRows := 1

/-- The claims registered for the shard of such a table are those of one slot. -/
theorem max_claims_wrap :
    manyChunks.Accepted ∧ manyChunks.Located ⟨0, 0x10000⟩ ⟨0, 0x10000⟩ ∧
      manyChunks.maxClaims = 0x10000 ∧
      manyChunks.budgetRows.toNat * manyChunks.exactChunks = 0x10001 * 0x10000 ∧
      ¬ manyChunks.SizingExact ⟨0, 0x10000⟩ ⟨0, 0x10000⟩ := by
  have hexact : manyChunks.budgetRows.toNat * manyChunks.exactChunks = 0x10001 * 0x10000 := by
    decide +kernel
  have hregistered : manyChunks.maxClaims = 0x10000 := by decide +kernel
  refine ⟨by decide +kernel, ⟨by decide, by decide, by decide⟩, hregistered, hexact, fun h => ?_⟩
  have hclaims := h.claims
  rw [hregistered, hexact] at hclaims
  revert hclaims
  decide

end TieredCache
