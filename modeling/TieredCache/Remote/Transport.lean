/-
# The transport seam

What a mirror asks of a transport and what it is told.  A transport writes into the
destination it is given, whatever it reports.
-/

import TieredCache.Remote.ChunkFile

namespace TieredCache.Remote

/-- `RangeFetchRequest`: the destination is given by its contents. -/
structure RangeFetchRequest where
  offset : UInt64
  length : UInt64
  destination : Bytes
  expected : SourceValidator

/-- `FetchRangeResult`. -/
structure FetchRangeResult where
  status : Status := .ok
  bytes : UInt64 := 0
  observed : SourceValidator := {}
  retries : UInt32 := 0
  deriving DecidableEq, Repr

/-- One call of `fetch_range`: the result, and the destination afterwards. -/
abbrev RangeTransport := RangeFetchRequest → FetchRangeResult × Bytes

end TieredCache.Remote
