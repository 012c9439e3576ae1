/-
# Flat files

Rows in row-major files of one stride, so many to a shard.  The address of a row is computed in
64-bit words that may wrap, and the table checks only what comes out.  A row is read from
where it is unless its address wraps into its shard.
-/

import TieredCache.Math.Words
import TieredCache.Table.FillsExact

namespace TieredCache

open Math.Runs

/-- `FlatFileResolver`. -/
structure FlatFileResolver where
  rowCount : UInt64
  rowsPerShard : UInt64
  rowStride : UInt64
  rowWidth : UInt64
  baseOffset : UInt64 := 0
  deriving DecidableEq, Repr

variable {cfg : TableConfig}

namespace FlatFileResolver

variable (f : FlatFileResolver)

/-- `FlatFileResolver::resolve_extent`. -/
def resolveExtent (row : UInt64) : Except Status RowLocation :=
  if f.rowCount ≤ row ∨ f.rowsPerShard = 0 then .error .outOfRange
  else
    let shard := row / f.rowsPerShard
    let localRow := row % f.rowsPerShard
    if 0xFFFFFFFF < shard then .error .outOfRange
    else .ok ⟨shard.toUInt32, ⟨f.baseOffset + localRow * f.rowStride, f.rowWidth⟩⟩

/-- The resolver as a table takes it. -/
def resolver : RowExtentResolver where
  resolve := f.resolveExtent
  failure_ne_ok := fun row h => by
    unfold resolveExtent at h
    dsimp only at h
    split_ifs at h <;> cases h

/-! ## Where a row is -/

/-- The shard of a row. -/
def shardOf (row : UInt64) : ℕ := row.toNat / f.rowsPerShard.toNat

/-- Where a row begins in its shard. -/
def offsetOf (row : UInt64) : ℕ :=
  f.baseOffset.toNat + row.toNat % f.rowsPerShard.toNat * f.rowStride.toNat

/-- The row is among those of the files, and its bytes are among those of its shard. -/
def ExtentInside (sources : List ShardSource) (row : UInt64) : Prop :=
  row < f.rowCount ∧ f.rowsPerShard ≠ 0 ∧
    ∃ source, sources[f.shardOf row]? = some source ∧
      f.offsetOf row + f.rowWidth.toNat ≤ source.bytes.toNat

/-- A location is that of the row, in its shard. -/
structure Exact (sources : List ShardSource) (row : UInt64) (location : RowLocation)
    (source : ShardSource) : Prop where
  shard : location.shard.toNat = f.shardOf row
  registered : sources[f.shardOf row]? = some source
  offset : location.range.offset.toNat = f.offsetOf row
  length : location.range.length = f.rowWidth
  inside : f.offsetOf row + f.rowWidth.toNat ≤ source.bytes.toNat

/-- The address of the row wraps, to one in its shard at which the table takes a row of this
width. -/
def Misplaces (cfg : TableConfig) (sources : List ShardSource) (row : UInt64) : Prop :=
  2 ^ 64 ≤ f.offsetOf row ∧ row < f.rowCount ∧ f.rowsPerShard ≠ 0 ∧ f.shardOf row < 2 ^ 32 ∧
    cfg.lengthOk f.rowWidth ∧ ∃ source, sources[f.shardOf row]? = some source ∧
      f.offsetOf row % 2 ^ 64 + f.rowWidth.toNat ≤ source.bytes.toNat

variable {f} {sources : List ShardSource} {row : UInt64} {location : RowLocation}
  {source : ShardSource}

/-! ## What the resolver answers -/

theorem toNat_offset : (f.baseOffset + row % f.rowsPerShard * f.rowStride).toNat =
    f.offsetOf row % 2 ^ 64 := by
  simp [offsetOf, UInt64.toNat_add, UInt64.toNat_mul, UInt64.toNat_mod]

theorem toNat_shard (h : f.shardOf row < 2 ^ 32) :
    (row / f.rowsPerShard).toUInt32.toNat = f.shardOf row := by
  rw [UInt64.toNat_toUInt32, UInt64.toNat_div]
  exact Nat.mod_eq_of_lt h

/-- The resolver answers for the rows of its files whose shard has a number. -/
theorem resolveExtent_eq_ok_iff : f.resolveExtent row = .ok location ↔
    row < f.rowCount ∧ f.rowsPerShard ≠ 0 ∧ f.shardOf row < 2 ^ 32 ∧
      location = ⟨(row / f.rowsPerShard).toUInt32,
        ⟨f.baseOffset + row % f.rowsPerShard * f.rowStride, f.rowWidth⟩⟩ := by
  have hshard : ¬ (0xFFFFFFFF : UInt64) < row / f.rowsPerShard ↔ f.shardOf row < 2 ^ 32 := by
    rw [UInt64.lt_iff_toNat_lt, UInt64.toNat_div, not_lt, shardOf]
    exact Nat.lt_succ_iff.symm
  rw [← hshard, ← UInt64.not_le]
  unfold resolveExtent
  dsimp only
  split_ifs with hrow hlarge
  · constructor
    · intro h
      cases h
    · rintro ⟨hcount, hper, -⟩
      exact absurd hrow (not_or.mpr ⟨hcount, hper⟩)
  · constructor
    · intro h
      cases h
    · rintro ⟨-, -, hsmall, -⟩
      exact absurd hlarge hsmall
  · obtain ⟨hcount, hper⟩ := not_or.mp hrow
    simp only [hcount, hper, hlarge, not_false_eq_true, ne_eq, true_and, Except.ok.injEq]
    exact eq_comm

/-- What the table takes a row of flat files from. -/
theorem locate_eq_ok_iff : cfg.locate sources f.resolver row = .ok (location, source) ↔
    (row < f.rowCount ∧ f.rowsPerShard ≠ 0 ∧ f.shardOf row < 2 ^ 32 ∧
      cfg.lengthOk f.rowWidth ∧ sources[f.shardOf row]? = some source ∧
      f.offsetOf row % 2 ^ 64 + f.rowWidth.toNat ≤ source.bytes.toNat) ∧
    location = ⟨(row / f.rowsPerShard).toUInt32,
      ⟨f.baseOffset + row % f.rowsPerShard * f.rowStride, f.rowWidth⟩⟩ := by
  constructor
  · intro h
    obtain ⟨hresolve, hsource, hlength, hoffset, hend⟩ := cfg.locate_eq_ok h
    obtain ⟨hcount, hper, hshard, rfl⟩ := resolveExtent_eq_ok_iff.mp hresolve
    rw [toNat_shard hshard] at hsource
    rw [UInt64.le_iff_toNat_le] at hoffset hend
    rw [UInt64.toNat_sub_of_le _ _ (UInt64.le_iff_toNat_le.mpr hoffset)] at hend
    rw [toNat_offset] at hoffset hend
    dsimp only at hend
    exact ⟨⟨hcount, hper, hshard, hlength, hsource, by omega⟩, rfl⟩
  · rintro ⟨⟨hcount, hper, hshard, hlength, hsource, hend⟩, rfl⟩
    have hresolve : f.resolver.resolve row = _ :=
      resolveExtent_eq_ok_iff.mpr ⟨hcount, hper, hshard, rfl⟩
    have hinside : ¬ (source.bytes < f.baseOffset + row % f.rowsPerShard * f.rowStride ∨
        source.bytes - (f.baseOffset + row % f.rowsPerShard * f.rowStride) < f.rowWidth) := by
      have hoffset : f.baseOffset + row % f.rowsPerShard * f.rowStride ≤ source.bytes := by
        rw [UInt64.le_iff_toNat_le, toNat_offset]
        omega
      rw [not_or, UInt64.not_lt, UInt64.not_lt, UInt64.le_iff_toNat_le (a := f.rowWidth),
        UInt64.toNat_sub_of_le _ _ hoffset, toNat_offset]
      exact ⟨hoffset, by omega⟩
    simp only [TableConfig.locate, hresolve, toNat_shard hshard, hsource, hlength, Bool.not_true,
      Bool.false_eq_true, if_false, if_neg hinside]

/-- A row is located where it is, unless its address wraps. -/
theorem exact_iff (h : cfg.locate sources f.resolver row = .ok (location, source)) :
    f.Exact sources row location source ↔ f.offsetOf row < 2 ^ 64 := by
  obtain ⟨⟨hcount, hper, hshard, hlength, hsource, hend⟩, rfl⟩ := locate_eq_ok_iff.mp h
  constructor
  · intro hexact
    exact lt_of_le_of_lt (Nat.le_trans (Nat.le_add_right _ _) hexact.inside) source.bytes.toNat_lt
  · intro hsmall
    rw [Nat.mod_eq_of_lt hsmall] at hend
    exact ⟨toNat_shard hshard, hsource, by rw [toNat_offset, Nat.mod_eq_of_lt hsmall], rfl, hend⟩

/-- Only a wrapped address is taken for a row that is not there. -/
theorem misplaces_iff : f.Misplaces cfg sources row ↔ 2 ^ 64 ≤ f.offsetOf row ∧
    ∃ location source, cfg.locate sources f.resolver row = .ok (location, source) := by
  simp only [locate_eq_ok_iff, Misplaces]
  constructor
  · rintro ⟨hwraps, hcount, hper, hshard, hlength, source, hsource, hend⟩
    exact ⟨hwraps, _, source, ⟨hcount, hper, hshard, hlength, hsource, hend⟩, rfl⟩
  · rintro ⟨hwraps, -, source, ⟨hcount, hper, hshard, hlength, hsource, hend⟩, -⟩
    exact ⟨hwraps, hcount, hper, hshard, hlength, source, hsource, hend⟩

/-- A row that is not misplaced is located where it is. -/
theorem exact_of_locate (hplace : ¬ f.Misplaces cfg sources row)
    (h : cfg.locate sources f.resolver row = .ok (location, source)) :
    f.Exact sources row location source := by
  apply (exact_iff h).mpr
  by_contra hwraps
  exact hplace (misplaces_iff.mpr ⟨not_lt.mp hwraps, location, source, h⟩)

/-- A row that is located where it is has its extent there. -/
theorem Exact.extentInside (hexact : f.Exact sources row location source)
    (h : cfg.locate sources f.resolver row = .ok (location, source)) :
    f.ExtentInside sources row := by
  obtain ⟨⟨hcount, hper, -⟩, -⟩ := locate_eq_ok_iff.mp h
  exact ⟨hcount, hper, source, hexact.registered, hexact.inside⟩

/-- A row that is not misplaced and not inside its shard is refused. -/
theorem locate_refused (hplace : ¬ f.Misplaces cfg sources row)
    (houtside : ¬ f.ExtentInside sources row) :
    ∃ status, cfg.locate sources f.resolver row = .error status := by
  cases hlocate : cfg.locate sources f.resolver row with
  | error status => exact ⟨status, rfl⟩
  | ok found =>
      exact absurd ((exact_of_locate hplace hlocate).extentInside hlocate) houtside

end FlatFileResolver

/-! ## Tables over flat files -/

namespace Table

variable {t : Table cfg} {slot : cfg.SlotId} {row : UInt64} {status : Status}

/-- A row that is not located is not read. -/
theorem startFillLocked_unlocated
    (h : cfg.locate (t.origin t.currentBinding).1 (t.origin t.currentBinding).2 row =
      .error status) (answers : Answers) (slot : cfg.SlotId) :
    t.startFillLocked answers slot row =
      (status, (t.beginAdmission slot row).failFill slot status) := by
  have hlocate : cfg.locate (t.bindings t.currentBinding).sources
      (t.bindings t.currentBinding).resolver row = .error status := h
  simp only [startFillLocked, hlocate]

/-- The table takes this row of the flat files, registered in one binding, from where it is, or
refuses it. -/
structure Addresses (t : Table cfg) (f : FlatFileResolver) (b : BindingId) (row : UInt64) :
    Prop where
  admitted : ∀ s, (t.slots s).Occupied → (t.slots s).filledThrough = b →
    (t.slots s).rowIndex = row → ∃ ids location source, t.RequestsFor s ids location source ∧
      f.Exact (t.origin b).1 row location source
  refused : ¬ f.ExtentInside (t.origin b).1 row →
    ∃ status, cfg.locate (t.origin b).1 (t.origin b).2 row = .error status
  /-- What is refused is not read. -/
  unread : ¬ f.ExtentInside (t.origin b).1 row → b = t.currentBinding →
    ∀ answers slot, (t.startFillLocked answers slot row).1 ≠ .ok ∧
      (t.startFillLocked answers slot row).2.requests = t.requests ∧
      (t.startFillLocked answers slot row).2.requestCount = t.requestCount

end Table

/-- In every reachable state, a row of the flat files of a binding is taken from where it is, or
refused, if and only if its address does not wrap into its shard. -/
theorem flat_rows_exact_iff {h : cfg.Accepted} {w : World cfg} {f : FlatFileResolver}
    {b : BindingId} (hw : Reachable World.step (World.start cfg h) w)
    (hflat : (w.table.origin b).2 = f.resolver) (row : UInt64) :
    w.table.Addresses f b row ↔ ¬ f.Misplaces cfg (w.table.origin b).1 row := by
  constructor
  · intro haddresses hplaced
    obtain ⟨hwraps, location, source, hlocate⟩ := FlatFileResolver.misplaces_iff.mp hplaced
    have houtside : ¬ f.ExtentInside (w.table.origin b).1 row := by
      rintro ⟨-, -, source', -, hinside⟩
      have hsmall := source'.bytes.toNat_lt
      omega
    obtain ⟨status, hrefused⟩ := haddresses.refused houtside
    rw [hflat, hlocate] at hrefused
    cases hrefused
  · intro hplace
    refine ⟨fun s hs hthrough hrow => ?_, fun houtside => ?_, fun houtside hcurrent answers slot => ?_⟩
    · obtain ⟨ids, scratch, location, source, hfrom, hclaims, hland⟩ :=
        World.rowsInv_of_reachable hw s hs
      have hlocate := hfrom.located
      rw [hthrough, hrow, hflat] at hlocate
      exact ⟨ids, location, source, hfrom.requestsFor hclaims hland,
        FlatFileResolver.exact_of_locate hplace hlocate⟩
    · rw [hflat]
      exact FlatFileResolver.locate_refused hplace houtside
    · obtain ⟨status, hlocate⟩ := FlatFileResolver.locate_refused hplace houtside
      have hne : status ≠ .ok := fun heq => cfg.locate_ne_error_ok _ _ _ (heq ▸ hlocate)
      rw [← hflat, hcurrent] at hlocate
      rw [Table.startFillLocked_unlocated hlocate]
      exact ⟨hne, rfl, rfl⟩

/-! ## A stride of four bytes -/

/-- Six rows of two bytes in two files, after a byte of header and four bytes apart. -/
def spacedRows : FlatFileResolver where
  rowCount := 6
  rowsPerShard := 3
  rowStride := 4
  rowWidth := 2
  baseOffset := 1

/-- Two files of three rows. -/
def twoFiles : TableConfig where
  rowCount := 6
  sourceRowBytes := 2
  outputRowBytes := 2
  sources := [⟨0, 11⟩, ⟨1, 11⟩]
  resolveExtent := some spacedRows.resolver
  outputStorage := ⟨0, 2⟩
  budgetRows := 1
  maxTickets := 1
  maxBatchRows := 1

theorem twoFiles_accepted : twoFiles.Accepted := by decide +kernel

/-- The middle row of the second file is read from where it is. -/
theorem flat_rows_exact_middle :
    ∃ w, exec World.step [.prefetch [4] 0 fun _ => {}]
        (World.start twoFiles twoFiles_accepted) = some w ∧
      (w.table.slots ⟨0, by decide⟩).rowIndex = 4 ∧ (w.table.requests 0).shard = 1 ∧
      (w.table.requests 0).read.source = ⟨5, 2⟩ ∧ w.table.Addresses spacedRows 0 4 := by
  have hrun : (exec World.step [.prefetch [4] 0 fun _ => {}]
      (World.start twoFiles twoFiles_accepted)).any fun w =>
        (w.table.slots ⟨0, by decide⟩).rowIndex = 4 ∧ (w.table.requests 0).shard = 1 ∧
          (w.table.requests 0).read.source = ⟨5, 2⟩ := by
    decide +kernel
  obtain ⟨w, hw, hfacts⟩ := (Option.any_eq_true _ _).mp hrun
  obtain ⟨hrow, hshard, hread⟩ := of_decide_eq_true hfacts
  have hreached : Reachable World.step (World.start twoFiles twoFiles_accepted) w :=
    reachable_of_exec .start hw
  have hstep : (World.start twoFiles twoFiles_accepted).step (.prefetch [4] 0 fun _ => {}) =
      some w := by
    simpa [exec] using hw
  have horigin := (World.step_bindings (World.fillInv_of_reachable .start) hstep id).origin
  have hplace : ¬ spacedRows.Misplaces twoFiles (w.table.origin 0).1 4 := fun hmisplaces =>
    absurd (FlatFileResolver.misplaces_iff.mp hmisplaces).1 (by decide)
  exact ⟨w, hw, hrow, hshard, hread,
    (flat_rows_exact_iff hreached (by rw [horigin]; rfl) 4).mpr hplace⟩

/-! ## A stride of half the address space -/

/-- Three rows of two bytes, far apart. -/
def farRows : FlatFileResolver where
  rowCount := 3
  rowsPerShard := 3
  rowStride := 0x8000000000000000
  rowWidth := 2

/-- The file ends after the first row. -/
def firstRowOnly : TableConfig where
  rowCount := 3
  sourceRowBytes := 2
  outputRowBytes := 2
  sources := [⟨0, 2⟩]
  resolveExtent := some farRows.resolver
  outputStorage := ⟨0, 2⟩
  budgetRows := 1
  maxTickets := 1
  maxBatchRows := 1

theorem firstRowOnly_accepted : firstRowOnly.Accepted := by decide +kernel

/-- The third row's address wraps to that of the first, and the table reads that one. -/
theorem wrapped_row_read :
    ∃ w, Reachable World.step (World.start firstRowOnly firstRowOnly_accepted) w ∧
      (w.table.slots ⟨0, by decide⟩).Occupied ∧ (w.table.slots ⟨0, by decide⟩).rowIndex = 2 ∧
      (w.table.requests 0).read.source = ⟨0, 2⟩ ∧ ¬ w.table.Addresses farRows 0 2 := by
  have hrun : (exec World.step [.prefetch [2] 0 fun _ => {}]
      (World.start firstRowOnly firstRowOnly_accepted)).any fun w =>
        (w.table.slots ⟨0, by decide⟩).state = .filling ∧
        (w.table.slots ⟨0, by decide⟩).filledThrough = 0 ∧
        (w.table.slots ⟨0, by decide⟩).rowIndex = 2 ∧
        (w.table.requests 0).read.source = ⟨0, 2⟩ := by
    decide +kernel
  obtain ⟨w, hw, hfacts⟩ := (Option.any_eq_true _ _).mp hrun
  obtain ⟨hfilling, hthrough, hrow, hread⟩ := of_decide_eq_true hfacts
  refine ⟨w, reachable_of_exec .start hw, Or.inl hfilling, hrow, hread, fun haddresses => ?_⟩
  obtain ⟨_, location, _, -, hexact⟩ :=
    haddresses.admitted _ (Or.inl hfilling) hthrough hrow
  have hoffset := hexact.offset
  have hfar : farRows.offsetOf 2 = 2 ^ 64 := by decide
  have hsmall := location.range.offset.toNat_lt
  omega

end TieredCache
