/-
# Registration of a table of a few row sizes

`SizeClassedTable::create` walks every row, puts the rows of one length into a class, numbers the
classes by increasing width, splits the storage between them and registers one exact-width table for
each.  The shares of the storage are computed in floating point.  Registration takes them from any
function of the classes: `shareBytes` is the code's, for each rounding of its operations.
-/

import Mathlib.Data.Rat.Floor
import TieredCache.Math.Numbering
import TieredCache.Table.Config

namespace TieredCache

open Math.Numbering

/-- Registration parameters of a table of a few row sizes. -/
structure SizeClassedTableConfig where
  rowCount : UInt64
  sources : List ShardSource
  generation : UInt64 := 0
  resolveExtent : Option RowExtentResolver
  outputStorage : Span
  maxTickets : UInt32
  maxBatchRows : UInt32
  fillChunkBytes : UInt64 := 0
  fillAlignment : UInt64 := 0
  maxClasses : UInt32 := 8

/-- One row-length class and its share of the storage. -/
structure SizeClass where
  width : UInt64
  slotBytes : UInt64
  rows : UInt64
  budgetRows : UInt32 := 0
  deriving DecidableEq, Repr

/-- The bytes of a class's slots. -/
def SizeClass.budgetBytes (cls : SizeClass) : UInt64 :=
  cls.budgetRows.toUInt64 * cls.slotBytes

/-- The bytes of a class's rows, multiplied in floating point. -/
def SizeClass.rowBytes (round : ℚ → ℚ) (cls : SizeClass) : ℚ :=
  round (round cls.rows.toNat * round cls.slotBytes.toNat)

/-- `total_bytes`: those of all classes, added up in floating point. -/
def totalBytes (round : ℚ → ℚ) (classes : List SizeClass) : ℚ :=
  classes.foldl (fun total cls => round (total + cls.rowBytes round)) 0

/-- The bytes of the storage that a class gets, in proportion to the bytes of its rows. -/
def SizeClass.shareBytes (round : ℚ → ℚ) (total : ℚ) (size : UInt64) (cls : SizeClass) : UInt64 :=
  let share := round (cls.rowBytes round / total)
  UInt64.ofNat ⌊round (share * round size.toNat)⌋₊

/-- What every class gets of the storage. -/
def shareBytes (round : ℚ → ℚ) (size : UInt64) (classes : List SizeClass) (c : ℕ) : UInt64 :=
  ((classes.map (SizeClass.shareBytes round (totalBytes round classes) size))[c]?).getD 0

/-- The part of the storage that `subspan` cuts out. -/
structure StorageSlice where
  offset : UInt64
  size : UInt64
  deriving DecidableEq, Repr

/-- The span of a slice. -/
def Span.subspan (storage : Span) (slice : StorageSlice) : Span :=
  ⟨storage.data + slice.offset, slice.size⟩

/-- The table of one class, by its parameters and its slice of the storage. -/
structure ClassTable where
  config : TableConfig
  slice : StorageSlice

/-- A registered table of a few row sizes.  Class numbers and local row numbers are 32-bit words in
the code, which cuts nothing off: there are fewer rows than that. -/
structure SizeClassedTable where
  config : SizeClassedTableConfig
  classes : List SizeClass
  classOf : List ℕ
  localOf : List ℕ
  globalOf : List (List UInt64)
  tables : List ClassTable

/-- Why there is no table: registration refuses, or it divides by a slot size of zero. -/
inductive CreateFailure
  | refused (status : Status)
  | trapped
  deriving DecidableEq, Repr

namespace SizeClassedTableConfig

variable (cfg : SizeClassedTableConfig)

/-- The rows, in the order of every loop over them. -/
def rowList : List UInt64 := (List.range cfg.rowCount.toNat).map UInt64.ofNat

/-! ## Classes -/

/-- Discover the classes: the widths met so far, and the number of each row's width among them. -/
def discover (resolver : RowExtentResolver) :
    List UInt64 → List UInt64 → List ℕ → Except CreateFailure (List UInt64 × List ℕ)
  | [], widths, classOf => .ok (widths, classOf)
  | row :: rows, widths, classOf =>
      match resolver.resolve row with
      | .error status => .error (.refused status)
      | .ok location =>
          let width := location.range.length
          let it := widths.idxOf width
          if width = 0 then .error (.refused .invalidArgument)
          else if it ≠ widths.length then discover resolver rows widths (classOf ++ [it])
          else if widths.length = cfg.maxClasses.toNat then .error (.refused .invalidArgument)
          else discover resolver rows (widths ++ [width]) (classOf ++ [widths.length])

end SizeClassedTableConfig

/-- The classes of all rows, and the rows of all classes. -/
structure RowNumbers where
  classOf : List ℕ
  localOf : List ℕ
  globalOf : List (List UInt64)
  deriving DecidableEq, Repr

/-- The loop body that gives a row its class by width and its number in there. -/
def RowNumbers.push (rank : List ℕ) (numbers : RowNumbers) (met : UInt64 × ℕ) : RowNumbers :=
  let cls := rank.getD met.2 0
  let group := numbers.globalOf.getD cls []
  ⟨numbers.classOf ++ [cls], numbers.localOf ++ [group.length],
    numbers.globalOf.set cls (group ++ [met.1])⟩

/-- Renumber the classes by increasing width: the widths in that order, and the rows under their
new numbers. -/
def renumber (rows : List UInt64) (widths : List UInt64) (met : List ℕ) :
    List UInt64 × RowNumbers :=
  let rank := ranks (order (fun c => (widths.getD c 0).toNat) widths.length) widths.length
  (scatter (List.replicate widths.length 0) (rank.zip widths),
    (rows.zip met).foldl (RowNumbers.push rank)
      ⟨[], [], List.replicate widths.length []⟩)

/-- `ClassResolver`: it resolves a row of a class through the caller's resolver. -/
def classResolver (resolver : RowExtentResolver) (group : List UInt64) : RowExtentResolver where
  resolve := fun localRow => resolver.resolve (group.getD localRow.toNat 0)
  failure_ne_ok := fun _ => resolver.failure_ne_ok _

namespace SizeClassedTableConfig

variable (cfg : SizeClassedTableConfig)

/-- Storage for one resident row of a class. -/
def slotBytes (width : UInt64) : UInt64 :=
  if cfg.fillAlignment ≠ 0 then alignedSlotBytes width cfg.fillAlignment else width

/-- The classes before the storage is split. -/
def sizeClasses (widths : List UInt64) (globalOf : List (List UInt64)) : List SizeClass :=
  List.zipWith (fun width group => ⟨width, cfg.slotBytes width, UInt64.ofNat group.length, 0⟩)
    widths globalOf

/-! ## Storage -/

/-- Split the storage.  `share` is what the floating-point computation makes of it, in bytes, for
each class; the `used` bytes are a 64-bit sum. -/
def split (share : ℕ → UInt64) :
    ℕ → List SizeClass → UInt64 → Except CreateFailure (List SizeClass × UInt64)
  | _, [], used => .ok ([], used)
  | c, cls :: rest, used =>
      if cls.slotBytes = 0 then .error .trapped
      else
        let rows := min (share c / cls.slotBytes) cls.rows
        if rows < min (2 * cfg.maxBatchRows.toUInt64) cls.rows ∨ 0xFFFFFFFF ≤ rows then
          .error (.refused .invalidArgument)
        else
          (split share (c + 1) rest (used + rows * cls.slotBytes)).map fun (classes, used) =>
            ({ cls with budgetRows := rows.toUInt32 } :: classes, used)

/-- The registration of one class's table. -/
def tableConfig (resolver : RowExtentResolver) (group : List UInt64) (cls : SizeClass)
    (slice : StorageSlice) : TableConfig where
  rowCount := cls.rows
  sourceRowBytes := cls.width
  outputRowBytes := cls.slotBytes
  rowExtent := .exact
  representation := .identity
  sources := cfg.sources
  generation := cfg.generation
  resolveExtent := some (classResolver resolver group)
  outputStorage := cfg.outputStorage.subspan slice
  budgetRows := cls.budgetRows
  maxTickets := cfg.maxTickets
  maxBatchRows := cfg.maxBatchRows
  fillChunkBytes := cfg.fillChunkBytes
  fillAlignment := cfg.fillAlignment

/-- Register one table for each class, over its own slice of the storage. -/
def createTables (resolver : RowExtentResolver) :
    List (SizeClass × List UInt64) → UInt64 → Except CreateFailure (List ClassTable)
  | [], _ => .ok []
  | (cls, group) :: rest, start =>
      let slice : StorageSlice := ⟨start, cls.budgetBytes⟩
      let config := cfg.tableConfig resolver group cls slice
      if config.createStatus ≠ .ok then .error (.refused config.createStatus)
      else (createTables resolver rest (start + cls.budgetBytes)).map (⟨config, slice⟩ :: ·)

/-- `SizeClassedTable::create`, with any shares. -/
def create (share : List SizeClass → ℕ → UInt64) : Except CreateFailure SizeClassedTable :=
  match cfg.resolveExtent with
  | none => .error (.refused .invalidArgument)
  | some resolver =>
      if cfg.rowCount = 0 ∨ 0xFFFFFFFF ≤ cfg.rowCount ∨ cfg.maxBatchRows = 0 ∨
          cfg.maxClasses = 0 then .error (.refused .invalidArgument)
      else
        (cfg.discover resolver cfg.rowList [] []).bind fun (met, metOf) =>
          let (widths, numbers) := renumber cfg.rowList met metOf
          let classes := cfg.sizeClasses widths numbers.globalOf
          (cfg.split (share classes) 0 classes 0).bind fun (classes, used) =>
            if cfg.outputStorage.size < used then .error (.refused .invalidArgument)
            else
              (cfg.createTables resolver (classes.zip numbers.globalOf) 0).map fun tables =>
                ⟨cfg, classes, numbers.classOf, numbers.localOf, numbers.globalOf, tables⟩

end SizeClassedTableConfig

end TieredCache
