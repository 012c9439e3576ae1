/-
# What one fill reads

A fill reads the row itself, or with `fill_alignment` the aligned window of the
shard around the row, clipped at the shard's end; the row then starts `head` bytes
into its slot.  A window wider than `fill_chunk_bytes` is read in chunks.  This
module states that arithmetic as the code does it, in 64-bit words.
-/

import TieredCache.Table.Config

namespace TieredCache

/-- The range read into a slot, and where in the slot the row starts. -/
structure FillWindow where
  fill : ByteRange
  head : UInt64
  deriving DecidableEq, Repr

/-- The window of one row.  The sum and the rounding may wrap; the clip at the
shard's end comes last. -/
def fillWindow (alignment shardBytes : UInt64) (row : ByteRange) : FillWindow :=
  if alignment ≠ 0 then
    let start := row.offset / alignment * alignment
    let stop := min ((row.offset + row.length + alignment - 1) / alignment * alignment)
      shardBytes
    ⟨⟨start, stop - start⟩, row.offset - start⟩
  else ⟨row, 0⟩

/-- One transport read: the source range and the destination it is copied to,
relative to the start of the destination storage. -/
structure Read where
  source : ByteRange
  destination : UInt64
  deriving DecidableEq, Repr

/-- The chunk loop from `pos` on.  It runs at most once past the end of the fill,
when `pos` wraps, because the transport refuses the read that starts over. -/
def chunkReads (chunk : UInt64) (fill : ByteRange) (base : UInt64) : ℕ → UInt64 → List Read
  | 0, _ => []
  | steps + 1, pos =>
      if pos < fill.length then
        ⟨⟨fill.offset + pos, min chunk (fill.length - pos)⟩, base + pos⟩ ::
          chunkReads chunk fill base steps (pos + chunk)
      else []

/-- Which storage a read goes to. -/
inductive Region
  | output
  | scratch
  deriving DecidableEq, Repr

namespace TableConfig

variable (cfg : TableConfig)

/-- Where a slot starts in the output storage. -/
def slotBase (slot : cfg.SlotId) : UInt64 := slot.val.toUInt64 * cfg.outputRowBytes

/-- Where a scratch row starts in the scratch storage. -/
def scratchBase (scratch : cfg.ScratchId) : UInt64 :=
  scratch.val.toUInt64 * cfg.sourceRowBytes

/-- Whether fills are split: identity rows whose widest fill exceeds one chunk. -/
def chunked : Bool := !cfg.converting && 1 < cfg.chunksPerRow

/-- The reads of a chunked fill. -/
def chunkPlan (slot : cfg.SlotId) (fill : ByteRange) : List Read :=
  chunkReads cfg.fillChunkBytes fill (cfg.slotBase slot)
    (fill.length.toNat / cfg.fillChunkBytes.toNat + 2) 0

/-- The reads of an identity fill: its chunks, or the one read. -/
def outputReads (slot : cfg.SlotId) (fill : ByteRange) : List Read :=
  if cfg.chunked then cfg.chunkPlan slot fill else [⟨fill, cfg.slotBase slot⟩]

/-- Whether a resolved row has a length the table admits. -/
def lengthOk (length : UInt64) : Bool :=
  match cfg.rowExtent with
  | .bounded => length != 0 && length ≤ cfg.sourceRowBytes
  | .exact => length == cfg.sourceRowBytes

/-- The checks a fill makes on the resolver's answer: a registered shard, a length
the table admits and a range inside the shard. -/
def locate (sources : List ShardSource) (resolver : RowExtentResolver) (row : UInt64) :
    Except Status (RowLocation × ShardSource) :=
  match resolver.resolve row with
  | .error status => .error status
  | .ok location =>
      match sources[location.shard.toNat]? with
      | none => .error .outOfRange
      | some shard =>
          if !cfg.lengthOk location.range.length then .error .invalidArgument
          else if shard.bytes < location.range.offset ∨
              shard.bytes - location.range.offset < location.range.length then
            .error .outOfRange
          else .ok (location, shard)

/-- A row range that passed the checks against its shard. -/
structure Located (row : ByteRange) (shard : ShardSource) : Prop where
  length_ok : cfg.lengthOk row.length
  offset_le : row.offset ≤ shard.bytes
  length_le : row.length ≤ shard.bytes - row.offset

theorem locate_eq_ok {sources : List ShardSource} {resolver : RowExtentResolver}
    {row : UInt64} {location : RowLocation} {shard : ShardSource}
    (h : cfg.locate sources resolver row = .ok (location, shard)) :
    resolver.resolve row = .ok location ∧ sources[location.shard.toNat]? = some shard ∧
      cfg.Located location.range shard := by
  unfold locate at h
  split at h
  · cases h
  · rename_i found hfound
    split at h
    · cases h
    · rename_i named hnamed
      split_ifs at h with hlength hrange
      cases h
      rw [not_or, UInt64.not_lt, UInt64.not_lt] at hrange
      exact ⟨hfound, hnamed, by simpa using hlength, hrange.1, hrange.2⟩

/-- The region a read goes to and the read itself are among those a fill of the slot
submits for some row that passed the checks. -/
def Planned (slot : cfg.SlotId) (region : Region) (read : Read) : Prop :=
  ∃ row shard, cfg.Located row shard ∧
    match region with
    | .output => cfg.converting = false ∧
        read ∈ cfg.outputReads slot (fillWindow cfg.fillAlignment shard.bytes row).fill
    | .scratch => ∃ scratch, read = ⟨row, cfg.scratchBase scratch⟩

/-- The location checks never fail with success. -/
theorem locate_ne_error_ok (sources : List ShardSource) (resolver : RowExtentResolver)
    (row : UInt64) : cfg.locate sources resolver row ≠ .error .ok := by
  unfold locate
  split
  · rename_i status hfail
    intro h
    cases h
    exact resolver.failure_ne_ok row hfail
  · split
    · simp
    · split_ifs <;> simp

end TableConfig

end TieredCache
