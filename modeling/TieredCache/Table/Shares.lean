/-
# The storage of a table of a few row sizes

The shares of the classes are in proportion to the bytes of their rows, computed in floating point.
In all they are less than twice the storage, so that the sum of the slots they pay for is not cut
off at 64 bits: the slices of the classes are inside the storage, and no two of them share a byte.
-/

import TieredCache.Math.Rounding
import TieredCache.Table.Partition

namespace TieredCache

open Math.Rounding Math.Tiling Math.Words

/-! ## The sum of the shares -/

/-- A class with rows of some bytes. -/
def SizeClass.Filled (cls : SizeClass) : Prop := 0 < cls.rows.toNat ∧ 0 < cls.slotBytes.toNat

variable {round : ℚ → ℚ} {classes : List SizeClass} {size : UInt64}

theorem toNat_range (x : UInt64) :
    (x.toNat : ℚ) = 0 ∨ 1 ≤ (x.toNat : ℚ) ∧ (x.toNat : ℚ) ≤ 2 ^ 64 := by
  have hx : (x.toNat : ℚ) ≤ 2 ^ 64 := by exact_mod_cast Nat.le_of_lt x.toNat_lt
  rcases Nat.eq_zero_or_pos x.toNat with hzero | hpos
  · left
    rw [hzero, Nat.cast_zero]
  · right
    exact ⟨by exact_mod_cast hpos, hx⟩

theorem normal_toNat (x : UInt64) : Normal (x.toNat : ℚ) := normal_of_range (toNat_range x)

/-- A word in floating point. -/
theorem round_toNat (hround : Rounds round) {x : UInt64} (hx : 0 < x.toNat) :
    15 / 16 ≤ round x.toNat ∧ round x.toNat ≤ 16 / 15 * 2 ^ 64 := by
  have hle : (x.toNat : ℚ) ≤ 2 ^ 64 := by exact_mod_cast Nat.le_of_lt x.toNat_lt
  have hone : (1 : ℚ) ≤ x.toNat := by exact_mod_cast hx
  have hup := hround.le_loose (normal_toNat x)
  have hdown := hround.ge_loose (normal_toNat x)
  constructor <;> linarith

/-- The bytes of a class's rows in floating point. -/
theorem SizeClass.Filled.rowBytes (hround : Rounds round) {cls : SizeClass} (h : cls.Filled) :
    1 / 2 ≤ cls.rowBytes round ∧ cls.rowBytes round ≤ 2 ^ 130 := by
  obtain ⟨hrowsDown, hrowsUp⟩ := round_toNat hround h.1
  obtain ⟨hslotDown, hslotUp⟩ := round_toNat hround h.2
  have hdown : 15 / 16 * (15 / 16) ≤ round cls.rows.toNat * round cls.slotBytes.toNat :=
    mul_le_mul hrowsDown hslotDown (by norm_num) (by linarith)
  have hup : round cls.rows.toNat * round cls.slotBytes.toNat ≤
      16 / 15 * 2 ^ 64 * (16 / 15 * 2 ^ 64) :=
    mul_le_mul hrowsUp hslotUp (by linarith) (by norm_num)
  have hnormal : Normal (round cls.rows.toNat * round cls.slotBytes.toNat) :=
    Or.inr ⟨le_trans (by norm_num) hdown, hup.trans (by norm_num)⟩
  have hlow := hround.ge_loose hnormal
  have hhigh := hround.le_loose hnormal
  unfold SizeClass.rowBytes
  constructor
  · linarith
  · calc round (round cls.rows.toNat * round cls.slotBytes.toNat)
        ≤ 16 / 15 * (16 / 15 * 2 ^ 64 * (16 / 15 * 2 ^ 64)) := by linarith
      _ ≤ 2 ^ 130 := by norm_num

/-- The bytes of the classes are the weights by which the storage is split. -/
theorem weights_rowBytes (hround : Rounds round) (hfew : classes.length ≤ 2 ^ 32)
    (hfilled : ∀ cls ∈ classes, cls.Filled) :
    Weights (classes.map (SizeClass.rowBytes round)) where
  few := by rwa [List.length_map]
  sized := fun w hw => by
    obtain ⟨cls, hmem, rfl⟩ := List.mem_map.mp hw
    exact (hfilled cls hmem).rowBytes hround

theorem totalBytes_eq :
    totalBytes round classes = roundedSum round (classes.map (SizeClass.rowBytes round)) := by
  rw [totalBytes, roundedSum, List.foldl_map]

/-- A class gets no more than its part of the storage. -/
theorem shareBytes_le (hround : Rounds round) (hfew : classes.length ≤ 2 ^ 32)
    (hfilled : ∀ cls ∈ classes, cls.Filled) {cls : SizeClass} (hmem : cls ∈ classes) :
    ((cls.shareBytes round (totalBytes round classes) size).toNat : ℚ) ≤
      part round (totalBytes round classes) size.toNat (cls.rowBytes round) := by
  have hpart := (part_bounds hround (weights_rowBytes hround hfew hfilled)
    (List.mem_map_of_mem hmem) (toNat_range size)).1
  rw [← totalBytes_eq] at hpart
  have hfloor : (cls.shareBytes round (totalBytes round classes) size).toNat ≤
      ⌊part round (totalBytes round classes) size.toNat (cls.rowBytes round)⌋₊ := by
    rw [SizeClass.shareBytes, UInt64.toNat_ofNat']
    exact Nat.mod_le _ _
  calc ((cls.shareBytes round (totalBytes round classes) size).toNat : ℚ)
      ≤ ⌊part round (totalBytes round classes) size.toNat (cls.rowBytes round)⌋₊ := by
        exact_mod_cast hfloor
    _ ≤ part round (totalBytes round classes) size.toNat (cls.rowBytes round) :=
        Nat.floor_le hpart

/-- The shares are in all less than twice the storage. -/
theorem sum_shareBytes_le (size : UInt64) (hround : Rounds round) (hfew : classes.length ≤ 2 ^ 32)
    (hfilled : ∀ cls ∈ classes, cls.Filled) :
    (((classes.map fun cls =>
      (cls.shareBytes round (totalBytes round classes) size).toNat).sum : ℕ) : ℚ) ≤
        3 / 2 * size.toNat := by
  have hparts := sum_parts_le hround (weights_rowBytes hround hfew hfilled) (toNat_range size)
  rw [← totalBytes_eq, List.map_map] at hparts
  apply le_trans _ hparts
  rw [Nat.cast_list_sum, List.map_map]
  apply List.sum_le_sum
  intro cls hmem
  exact shareBytes_le hround hfew hfilled hmem

/-- The share of each class in turn. -/
theorem map_shareBytes :
    (List.range' 0 classes.length).map (fun c => (shareBytes round size classes c).toNat) =
      classes.map fun cls => (cls.shareBytes round (totalBytes round classes) size).toNat := by
  apply List.ext_getElem
  · rw [List.length_map, List.length_range', List.length_map]
  · intro c hc hc'
    rw [List.length_map] at hc'
    rw [List.getElem_map, List.getElem_range', List.getElem_map, shareBytes, Nat.zero_add,
      Nat.one_mul, List.getElem?_map, List.getElem?_eq_getElem hc', Option.map_some,
      Option.getD_some]

/-! ## The slices -/

namespace SizeClassedTable

variable {cfg : SizeClassedTableConfig} {share : List SizeClass → ℕ → UInt64}
  {t : SizeClassedTable} {resolver : RowExtentResolver}

/-- Every class of a registered table has rows, and every row a slot of some bytes. -/
theorem Partitions.filled (hparts : t.Partitions resolver) {cls : SizeClass}
    (hmem : cls ∈ t.classes) : cls.Filled ∧ 0 < cls.budgetRows.toNat := by
  obtain ⟨c, hclass⟩ := List.mem_iff_getElem?.mp hmem
  have hlt := (List.getElem?_eq_some_iff.mp hclass).1
  have hgroup : c < t.globalOf.length := by rwa [hparts.groups]
  have htable : c < t.tables.length := by rwa [hparts.tables]
  obtain ⟨hconfig, -, haccepted⟩ := hparts.registered c _ _ _ hclass
    (List.getElem?_eq_getElem hgroup) (List.getElem?_eq_getElem htable)
  have hchecked := haccepted.checked
  rw [hconfig] at hchecked
  have hbudget : cls.budgetRows ≠ 0 := hchecked.budgetRows_ne
  have hslot : cls.slotBytes ≠ 0 := hchecked.outputRowBytes_ne
  have hpos : 0 < cls.budgetRows.toNat :=
    Nat.pos_of_ne_zero fun h => hbudget (UInt32.toNat_inj.mp h)
  exact ⟨⟨Nat.lt_of_lt_of_le hpos (hparts.budgets cls hmem).2,
    Nat.pos_of_ne_zero fun h => hslot (UInt64.toNat_inj.mp h)⟩, hpos⟩

/-- While the sum of the slots is not cut off, the slices are inside the storage and apart. -/
theorem slices_of_create (h : cfg.create share = .ok t) (hparts : t.Partitions resolver)
    (hsum : budgetTotal t.classes < 2 ^ 64) : t.SlicesInside ∧ t.SlicesApart := by
  obtain ⟨resolver', met, metOf, plain, used, -, -, -, hplain, hsplit, hused, htables, rfl, -⟩ :=
    SizeClassedTableConfig.create_eq_ok h
  obtain ⟨hbudgeted, htotal, -⟩ := SizeClassedTableConfig.split_budgeted hsplit
  rw [← hplain] at hbudgeted
  have hfirst : (t.classes.zip t.globalOf).map Prod.fst = t.classes :=
    List.map_fst_zip (Nat.le_of_eq hparts.groups.symm)
  have hpos : ∀ pair ∈ t.classes.zip t.globalOf, 0 < pair.1.budgetBytes.toNat := by
    intro pair hmem
    have hclass : pair.1 ∈ t.classes := (List.of_mem_zip hmem).1
    obtain ⟨c, hc⟩ := List.mem_iff_getElem?.mp hclass
    obtain ⟨width, group, -, -, hcls⟩ := class_budgeted hbudgeted hc
    obtain ⟨hfilled, hbudget⟩ := hparts.filled hclass
    rw [hcls.bytes]
    exact Nat.mul_pos hbudget hfilled.2
  have htiles : Tiles 0 (t.tables.map ClassTable.place) (budgetTotal t.classes) := by
    have htiles := SizeClassedTableConfig.createTables_tiles hpos
      (by rw [hfirst, UInt64.toNat_zero, Nat.zero_add]; exact hsum) htables
    rwa [hfirst, UInt64.toNat_zero, Nat.zero_add] at htiles
  constructor
  · intro table hmem
    have hend := (htiles.inside (List.mem_map_of_mem hmem)).2
    rw [UInt64.toNat_zero, Nat.zero_add, Nat.mod_eq_of_lt hsum] at htotal
    have hle : used.toNat ≤ t.config.outputStorage.size.toNat := UInt64.le_iff_toNat_le.mp hused
    omega
  · have hpairs := htiles.pairwise
    rw [List.pairwise_map] at hpairs
    exact hpairs.imp Or.inl

/-- The shares that the code computes do not pay for `2 ^ 64` bytes of slots. -/
theorem budgetTotal_lt {round : ℚ → ℚ} (hround : Rounds round)
    (h : cfg.create (shareBytes round cfg.outputStorage.size) = .ok t)
    (hparts : t.Partitions resolver) (hsize : cfg.outputStorage.size.toNat < 2 ^ 63) :
    budgetTotal t.classes < 2 ^ 64 := by
  obtain ⟨resolver', met, metOf, plain, used, -, -, -, -, hsplit, -, -, rfl, -⟩ :=
    SizeClassedTableConfig.create_eq_ok h
  obtain ⟨hbudgeted, -, hshares⟩ := SizeClassedTableConfig.split_budgeted hsplit
  have hfew : plain.length ≤ 2 ^ 32 := by
    rw [hbudgeted.length_eq]
    exact hparts.count.trans (Nat.le_of_lt (UInt32.toNat_lt _))
  have hfilled : ∀ cls ∈ plain, cls.Filled := by
    intro cls hmem
    obtain ⟨c, hc⟩ := List.mem_iff_getElem?.mp hmem
    have hlt : c < t.classes.length := by
      rw [← hbudgeted.length_eq]
      exact (List.getElem?_eq_some_iff.mp hc).1
    have hcls := forall₂_getElem? hbudgeted hc (List.getElem?_eq_getElem hlt)
    have hrows := (hparts.filled (List.getElem_mem hlt)).1
    rw [SizeClass.Filled, hcls.rows, hcls.slotBytes] at hrows
    exact hrows
  have hsum := sum_shareBytes_le t.config.outputStorage.size hround hfew hfilled
  rw [← map_shareBytes] at hsum
  have hsmall : (t.config.outputStorage.size.toNat : ℚ) < 2 ^ 63 := by exact_mod_cast hsize
  have hlt : (((List.range' 0 plain.length).map fun c =>
      (shareBytes round t.config.outputStorage.size plain c).toNat).sum : ℚ) < 2 ^ 64 := by
    linarith
  have hlt : ((List.range' 0 plain.length).map fun c =>
      (shareBytes round t.config.outputStorage.size plain c).toNat).sum < 2 ^ 64 := by
    exact_mod_cast hlt
  exact Nat.lt_of_le_of_lt hshares hlt

end SizeClassedTable

/-- Whatever the shares of the storage, a table that is registered partitions its rows into classes,
routes each row to itself and keeps the alignment.  With the shares that the code computes, however
its floating-point operations round, the slices of the classes are inside the storage and no two
share a byte.  The storage is an object, smaller than `2 ^ 63` bytes as all of them are. -/
theorem create_partitions {cfg : SizeClassedTableConfig} {share : List SizeClass → ℕ → UInt64}
    {t : SizeClassedTable} (h : cfg.create share = .ok t) :
    t.config = cfg ∧ ∃ resolver, cfg.resolveExtent = some resolver ∧ t.Partitions resolver ∧
      t.Routes resolver ∧ t.Aligned ∧
      ∀ round, Rounds round → share = shareBytes round cfg.outputStorage.size →
        cfg.outputStorage.size.toNat < 2 ^ 63 → t.SlicesInside ∧ t.SlicesApart := by
  obtain ⟨hconfig, resolver, hresolver, hparts⟩ := SizeClassedTable.partitions_of_create h
  refine ⟨hconfig, resolver, hresolver, hparts, hparts.routes, hparts.aligned, ?_⟩
  rintro round hround rfl hsize
  exact SizeClassedTable.slices_of_create h hparts
    (SizeClassedTable.budgetTotal_lt hround h hparts hsize)

theorem eq_ok_of_toOption {α β : Type} {x : Except α β} {y : β} (h : x.toOption = some y) :
    x = .ok y := by
  cases x with
  | error failure => cases h
  | ok value =>
      cases h
      rfl

/-- Even rows of eight bytes, odd rows of twelve. -/
def twoWidthResolver : RowExtentResolver where
  resolve := fun row => .ok ⟨0, row * 12, if row % 2 = 0 then 8 else 12⟩
  failure_ne_ok := fun row h => by cases h

/-- Six rows of two widths, read in blocks of four bytes. -/
def twoWidths : SizeClassedTableConfig where
  rowCount := 6
  sources := [⟨0, 72⟩]
  resolveExtent := some twoWidthResolver
  outputStorage := ⟨0, 84⟩
  maxTickets := 1
  maxBatchRows := 2
  fillAlignment := 4

/-- Three sevenths of the storage go to the narrow rows and four sevenths to the wide ones, to the
nearest double: three slots of twelve bytes, and three of sixteen. -/
theorem create_partitions_two :
    ∃ t, twoWidths.create (shareBytes nearest 84) = .ok t ∧ t.Partitions twoWidthResolver ∧
      t.Routes twoWidthResolver ∧ t.Aligned ∧ t.SlicesInside ∧ t.SlicesApart := by
  have hrun : (twoWidths.create (shareBytes nearest 84)).toOption.isSome := by
    decide +kernel
  obtain ⟨t, ht⟩ := Option.isSome_iff_exists.mp hrun
  have hcreate := eq_ok_of_toOption ht
  obtain ⟨-, resolver, hresolver, hparts, hroutes, haligned, hslices⟩ :=
    create_partitions hcreate
  cases hresolver
  exact ⟨t, hcreate, hparts, hroutes, haligned,
    hslices nearest nearest_rounds rfl (by decide +kernel)⟩

end TieredCache
