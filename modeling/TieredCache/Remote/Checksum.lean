/-
# FNV-1a

The hash behind chunk file names and payload checksums.
-/

namespace TieredCache.Remote

/-- `fnv1a32`. -/
def fnv1a32 (data : List UInt8) : UInt32 :=
  data.foldl (fun hash b => (hash ^^^ b.toUInt32) * 0x01000193) 0x811c9dc5

/-- `fnv1a64`. -/
def fnv1a64 (data : List UInt8) : UInt64 :=
  data.foldl (fun hash b => (hash ^^^ b.toUInt64) * 0x100000001b3) 0xcbf29ce484222325

example : fnv1a32 [] = 0x811c9dc5 := by decide

end TieredCache.Remote
