/-
# Registration of a table

The parameters of one row table, the checks registration makes on them and the
sizes it derives: how wide a slot must be when rows are read as aligned windows,
into how many reads one fill is split, and how large the row index is.  All byte
counts are 64-bit words and wrap as the code's do.
-/

import Mathlib.Algebra.Order.Group.Nat
import Mathlib.Data.Nat.Log
import TieredCache.Status

namespace TieredCache

/-- How a table's output row relates to its source row. -/
inductive Representation
  | identity
  | bf16ToF32
  | custom
  deriving DecidableEq, Repr

/-- Whether every resolved row has the registered width or may be shorter. -/
inductive RowExtent
  | exact
  | bounded
  deriving DecidableEq, Repr

/-- A byte range of one source. -/
structure ByteRange where
  offset : UInt64
  length : UInt64
  deriving DecidableEq, Repr

/-- One registered shard: the transport's opaque source id and its extent. -/
structure ShardSource where
  source : ℕ
  bytes : UInt64
  deriving DecidableEq, Repr

/-- Where one row's encoded bytes live. -/
structure RowLocation where
  shard : UInt32
  range : ByteRange
  deriving DecidableEq, Repr

/-- The caller's row-to-location adapter.  It is pure address arithmetic, and an
adapter that refuses a row names a failure. -/
structure RowExtentResolver where
  resolve : UInt64 → Except Status RowLocation
  failure_ne_ok : ∀ row, resolve row ≠ .error .ok

/-- A caller-owned byte span: its address and its size. -/
structure Span where
  data : UInt64
  size : UInt64
  deriving DecidableEq, Repr

/-- A caller-registered codec: the output row for one encoded row, or failure. -/
abbrev Codec := List UInt8 → Option (List UInt8)

/-- Registration parameters of one table.  A resolver or codec that is `none` is
the code's null reference. -/
structure TableConfig where
  rowCount : UInt64
  sourceRowBytes : UInt64
  rowExtent : RowExtent := .exact
  fillChunkBytes : UInt64 := 0
  fillAlignment : UInt64 := 0
  outputRowBytes : UInt64
  representation : Representation := .identity
  codec : Option Codec := none
  sources : List ShardSource
  generation : UInt64 := 0
  resolveExtent : Option RowExtentResolver
  outputStorage : Span
  budgetRows : UInt32
  scratchStorage : Span := ⟨0, 0⟩
  scratchRows : UInt32 := 0
  maxTickets : UInt32
  maxBatchRows : UInt32

/-- The slot width an aligned table must register: the widest window a row of
`rowBytes` can need. -/
def alignedSlotBytes (rowBytes alignment : UInt64) : UInt64 :=
  (rowBytes + 2 * alignment - 2) / alignment * alignment

namespace TableConfig

variable (cfg : TableConfig)

/-- Whether the table runs a codec. -/
def converting : Bool := cfg.representation != .identity

/-- The checks of the representation switch in `create`. -/
def representationStatus : Status :=
  match cfg.representation with
  | .identity =>
      if cfg.outputRowBytes ≠
          (if cfg.fillAlignment ≠ 0 then
            alignedSlotBytes cfg.sourceRowBytes cfg.fillAlignment
          else cfg.sourceRowBytes) then .unsupportedConversion
      else .ok
  | .bf16ToF32 =>
      if cfg.sourceRowBytes % 2 ≠ 0 ∨ cfg.outputRowBytes ≠ cfg.sourceRowBytes * 2 then
        .unsupportedConversion
      else .ok
  | .custom => if cfg.codec.isNone then .invalidArgument else .ok

/-- What `create` reports for these parameters, before it builds the table.  The
checks stand in the code's order. -/
def createStatus : Status :=
  if cfg.rowCount = 0 ∨ cfg.sourceRowBytes = 0 ∨ cfg.outputRowBytes = 0 ∨
      cfg.sources = [] ∨ cfg.budgetRows = 0 ∨ cfg.maxTickets = 0 ∨ cfg.maxBatchRows = 0 ∨
      0xFFFFFFFF ≤ cfg.budgetRows ∨ 0xFFFFFFFF ≤ cfg.maxTickets ∨
      cfg.resolveExtent.isNone then .invalidArgument
  else if cfg.sources.any (·.bytes == 0) then .invalidArgument
  else if 0xFFFFFFFFFFFFFFFF / cfg.maxTickets.toUInt64 < cfg.maxBatchRows.toUInt64 ∨
      0xFFFFFFFF ≤ cfg.maxBatchRows.toUInt64 * cfg.maxTickets.toUInt64 then .invalidArgument
  else if cfg.representationStatus ≠ .ok then cfg.representationStatus
  else if 0xFFFFFFFFFFFFFFFF / cfg.budgetRows.toUInt64 < cfg.outputRowBytes ∨
      cfg.outputStorage.size ≠ cfg.outputRowBytes * cfg.budgetRows.toUInt64 then
    .invalidArgument
  else if cfg.rowExtent = .bounded ∧ cfg.converting then .unsupportedConversion
  else if cfg.fillChunkBytes ≠ 0 ∧ cfg.converting then .unsupportedConversion
  else if cfg.fillAlignment ≠ 0 ∧ cfg.converting then .unsupportedConversion
  else if cfg.fillAlignment ≠ 0 ∧
      (¬ cfg.fillAlignment.toNat.isPowerOfTwo ∨
        cfg.outputStorage.data % cfg.fillAlignment ≠ 0 ∨
        cfg.fillChunkBytes % cfg.fillAlignment ≠ 0) then .invalidArgument
  else if cfg.converting ∧
      (cfg.scratchRows = 0 ∨
        0xFFFFFFFFFFFFFFFF / cfg.scratchRows.toUInt64 < cfg.sourceRowBytes ∨
        cfg.scratchStorage.size ≠ cfg.sourceRowBytes * cfg.scratchRows.toUInt64) then
    .invalidArgument
  else .ok

/-- `create` accepts the parameters. -/
def Accepted : Prop := cfg.createStatus = .ok

instance : Decidable cfg.Accepted := inferInstanceAs (Decidable (_ = _))

/-- What registration has established about accepted parameters. -/
structure Checked : Prop where
  sourceRowBytes_ne : cfg.sourceRowBytes ≠ 0
  outputRowBytes_ne : cfg.outputRowBytes ≠ 0
  budgetRows_ne : cfg.budgetRows ≠ 0
  maxBatchRows_ne : cfg.maxBatchRows ≠ 0
  budgetRows_lt : cfg.budgetRows < 0xFFFFFFFF
  resolver : cfg.resolveExtent.isSome
  representation : cfg.representationStatus = .ok
  storage : cfg.outputRowBytes ≤ 0xFFFFFFFFFFFFFFFF / cfg.budgetRows.toUInt64
  bounded_identity : cfg.rowExtent = .bounded → cfg.converting = false
  chunk_identity : cfg.fillChunkBytes ≠ 0 → cfg.converting = false
  alignment_identity : cfg.fillAlignment ≠ 0 → cfg.converting = false
  alignment_pow : cfg.fillAlignment ≠ 0 → cfg.fillAlignment.toNat.isPowerOfTwo
  chunk_aligned : cfg.fillAlignment ≠ 0 → cfg.fillChunkBytes % cfg.fillAlignment = 0
  scratchRows_ne : cfg.converting = true → cfg.scratchRows ≠ 0
  scratch : cfg.converting = true →
    cfg.sourceRowBytes ≤ 0xFFFFFFFFFFFFFFFF / cfg.scratchRows.toUInt64

/-- A check whose failure is not the answer has passed, and the checks after it answer. -/
theorem passed_of_ite {p : Prop} [Decidable p] {failure rest answer : Status}
    (h : (if p then failure else rest) = answer) (hne : p → failure ≠ answer) :
    ¬ p ∧ rest = answer := by
  by_cases hp : p
  · rw [if_pos hp] at h
    exact absurd h (hne hp)
  · rw [if_neg hp] at h
    exact ⟨hp, h⟩

variable {cfg} in
/-- The checks of `create`, read back from its answer. -/
theorem Accepted.checked (h : cfg.Accepted) : cfg.Checked := by
  obtain ⟨hargs, h⟩ := passed_of_ite h nofun
  obtain ⟨-, h⟩ := passed_of_ite h nofun
  obtain ⟨-, h⟩ := passed_of_ite h nofun
  obtain ⟨hrepr, h⟩ := passed_of_ite h id
  obtain ⟨hstorage, h⟩ := passed_of_ite h nofun
  obtain ⟨hbounded, h⟩ := passed_of_ite h nofun
  obtain ⟨hchunk, h⟩ := passed_of_ite h nofun
  obtain ⟨halign, h⟩ := passed_of_ite h nofun
  obtain ⟨hpow, h⟩ := passed_of_ite h nofun
  obtain ⟨hscratch, -⟩ := passed_of_ite h nofun
  rw [not_or] at hstorage
  push Not at hargs hrepr hbounded hchunk halign hpow hscratch
  exact {
    sourceRowBytes_ne := hargs.2.1
    outputRowBytes_ne := hargs.2.2.1
    budgetRows_ne := hargs.2.2.2.2.1
    maxBatchRows_ne := hargs.2.2.2.2.2.2.1
    budgetRows_lt := UInt32.not_le.mp hargs.2.2.2.2.2.2.2.1
    resolver := Option.isSome_iff_ne_none.mpr (by simpa using hargs.2.2.2.2.2.2.2.2.2)
    representation := hrepr
    storage := UInt64.not_lt.mp hstorage.1
    bounded_identity := fun hb => by simpa using hbounded hb
    chunk_identity := fun hc => by simpa using hchunk hc
    alignment_identity := fun ha => by simpa using halign ha
    alignment_pow := fun ha => (hpow ha).1
    chunk_aligned := fun ha => (hpow ha).2.2
    scratchRows_ne := fun hc => (hscratch hc).1
    scratch := fun hc => UInt64.not_lt.mp (hscratch hc).2.1 }

/-- The widest single fill: a whole slot when rows are read as aligned windows. -/
def fillBytes : UInt64 :=
  if cfg.fillAlignment ≠ 0 then cfg.outputRowBytes else cfg.sourceRowBytes

/-- Into how many reads a fill may be split, cast to 32 bits as the code does. -/
def chunksPerRow : UInt32 :=
  if cfg.fillChunkBytes ≠ 0 ∧ cfg.fillChunkBytes < cfg.fillBytes then
    ((cfg.fillBytes + cfg.fillChunkBytes - 1) / cfg.fillChunkBytes).toUInt32
  else 1

/-- Slots are numbered from zero up to the row budget. -/
abbrev SlotId := Fin cfg.budgetRows.toNat

/-- Scratch rows of a converting table. -/
abbrev ScratchId := Fin cfg.scratchRows.toNat

/-- Ticket records. -/
abbrev RecordId := Fin cfg.maxTickets.toNat

end TableConfig

/-- The smallest power of two not below `n`. -/
def bitCeil (n : ℕ) : ℕ := if n ≤ 1 then 1 else 2 ^ (Nat.log2 (n - 1) + 1)

/-- The size of the row index of a table with this budget. -/
def indexSize (budgetRows : UInt32) : ℕ := bitCeil (budgetRows.toNat * 2)

theorem bitCeil_isPowerOfTwo (n : ℕ) : ∃ k, bitCeil n = 2 ^ k := by
  unfold bitCeil
  split_ifs
  · exact ⟨0, rfl⟩
  · exact ⟨_, rfl⟩

theorem le_bitCeil (n : ℕ) : n ≤ bitCeil n := by
  unfold bitCeil
  split_ifs with h
  · exact h
  · have := Nat.lt_log2_self (n := n - 1)
    omega

end TieredCache
