/-
# The mirror

`Mirror::read` over the chunk store and a transport, as one caller runs it.  The loop over
the chunks is stated for any way to make a chunk local.
-/

import TieredCache.Math.Slices
import TieredCache.Remote.ChunkStore
import TieredCache.Remote.Transport

namespace TieredCache.Remote

open Math Math.Files Math.Slices

universe u

/-- `Mirror::Stats`. -/
structure MirrorStats where
  hits : UInt64 := 0
  misses : UInt64 := 0
  fetches : UInt64 := 0
  bytesFetched : UInt64 := 0
  retries : UInt64 := 0
  validatorMismatches : UInt64 := 0
  corruptEntriesSkipped : UInt64 := 0
  publishFailures : UInt64 := 0
  coalesced : UInt64 := 0
  deriving DecidableEq, Repr

namespace MirrorStats

variable (stats : MirrorStats)

def recordHit : MirrorStats := { stats with hits := stats.hits + 1 }

def recordMiss : MirrorStats := { stats with misses := stats.misses + 1 }

def recordCorrupt : MirrorStats :=
  { stats with
    misses := stats.misses + 1
    corruptEntriesSkipped := stats.corruptEntriesSkipped + 1 }

def recordCoalesced : MirrorStats := { stats with coalesced := stats.coalesced + 1 }

/-- What `fetch_and_publish` counts for one fetch. -/
def recordFetch (result : FetchRangeResult) : MirrorStats :=
  let stats :=
    { stats with
      fetches := stats.fetches + 1
      retries := stats.retries + result.retries.toUInt64 }
  match result.status with
  | .ok => { stats with bytesFetched := stats.bytesFetched + result.bytes }
  | .sourceChanged => { stats with validatorMismatches := stats.validatorMismatches + 1 }
  | _ => stats

def recordPublishFailure : MirrorStats :=
  { stats with publishFailures := stats.publishFailures + 1 }

end MirrorStats

/-- What is fixed for the life of one mirror; `storeValid` tells that the directory could be
made. -/
structure Mirror where
  source : SourceIdentity
  chunkSize : UInt32
  storeValid : Bool
  nonce : UInt64
  deriving DecidableEq, Repr

/-- What a mirror changes: its directory, the counter of its temporary files, its counters. -/
structure MirrorState where
  directory : Directory
  counter : UInt64 := 0
  stats : MirrorStats := {}

/-- How the world answers while one chunk is made local. -/
structure Surroundings where
  transport : RangeTransport
  io : PublishIo

/-- `Mirror::ReadOutcome`. -/
structure ReadOutcome where
  status : Status := .ok
  bytes : UInt64 := 0
  deriving DecidableEq, Repr

/-! ## The loop over the chunks -/

/-- `chunk_start`. -/
def chunkStart (chunkSize index : UInt32) : UInt64 := index.toUInt64 * chunkSize.toUInt64

/-- `chunk_len`: the last chunk of a source may be short. -/
def chunkLen (total : UInt64) (chunkSize index : UInt32) : UInt64 :=
  min chunkSize.toUInt64 (total - chunkStart chunkSize index)

/-- `range_start`: where the bytes of a chunk that belong to the range begin. -/
def rangeStart (offset : UInt64) (chunkSize index : UInt32) : UInt64 :=
  max offset (chunkStart chunkSize index)

/-- `range_end`. -/
def rangeEnd (offset length total : UInt64) (chunkSize index : UInt32) : UInt64 :=
  min (offset + length) (chunkStart chunkSize index + chunkLen total chunkSize index)

/-- The loop of `Mirror::read` from a chunk on: `ensure` makes a chunk local and copies it to
the chunk buffer.  `none` once the steps are used up. -/
def readLoop {σ : Type u} (ensure : UInt32 → UInt64 → Bytes → σ → Status × Bytes × σ)
    (offset length total : UInt64) (chunkSize last : UInt32) :
    ℕ → UInt32 → UInt64 → Bytes → Bytes → σ → Option (ReadOutcome × Bytes × σ)
  | 0, _, _, _, _, _ => none
  | steps + 1, index, written, buffer, dest, s =>
      if last < index then some (⟨.ok, written⟩, dest, s)
      else
        let ensured := ensure index (chunkLen total chunkSize index) buffer s
        if ensured.1 ≠ .ok then some (⟨ensured.1, written⟩, dest, ensured.2.2)
        else
          let first := rangeStart offset chunkSize index
          let copyLen := rangeEnd offset length total chunkSize index - first
          let piece := slice ensured.2.1 (first - chunkStart chunkSize index).toNat copyLen.toNat
          if first < rangeEnd offset length total chunkSize index then
            readLoop ensure offset length total chunkSize last steps (index + 1)
              (written + copyLen) ensured.2.1 (overwrite dest (first - offset).toNat piece)
              ensured.2.2
          else
            readLoop ensure offset length total chunkSize last steps (index + 1) written
              ensured.2.1 dest ensured.2.2

namespace Mirror

variable (m : Mirror)

/-- `Mirror::valid`. -/
def valid : Bool :=
  m.storeValid && 0 < m.chunkSize &&
    m.source.validator.totalSize / m.chunkSize.toUInt64 < 0xFFFFFFFF

/-- `Mirror::read` over some way to make a chunk local. -/
def readWith {σ : Type u} (ensure : UInt32 → UInt64 → Bytes → σ → Status × Bytes × σ)
    (offset length : UInt64) (dest : Bytes) (s : σ) : Option (ReadOutcome × Bytes × σ) :=
  let total := m.source.validator.totalSize
  if !m.valid ∨ dest.length < length.toNat then some (⟨.invalidArgument, 0⟩, dest, s)
  else if length = 0 then some (⟨.invalidArgument, 0⟩, dest, s)
  else if total < offset ∨ total - offset < length then some (⟨.outOfRange, 0⟩, dest, s)
  else
    let first := (offset / m.chunkSize.toUInt64).toUInt32
    let last := ((offset + length - 1) / m.chunkSize.toUInt64).toUInt32
    readLoop ensure offset length total m.chunkSize last (last.toNat - first.toNat + 2) first 0
      (List.replicate m.chunkSize.toNat 0) dest s

/-! ## Making a chunk local -/

/-- The request of `fetch_and_publish`. -/
def fetchRequest (index : UInt32) (chunkLen : UInt64) : RangeFetchRequest where
  offset := chunkStart m.chunkSize index
  length := chunkLen
  destination := List.replicate chunkLen.toNat 0
  expected := m.source.validator

/-- The status of a fetch, as far as the chunk is concerned. -/
def fetchStatus (chunkLen : UInt64) (result : FetchRangeResult) : Status :=
  if result.status ≠ .ok then result.status
  else if result.bytes ≠ chunkLen then .truncated
  else .ok

/-- The call of `publish_chunk` for a fetched chunk. -/
def publishCall (index : UInt32) (payload : Bytes) (s : MirrorState) : PublishCall where
  source := m.source
  index := index
  payload := payload
  nonce := m.nonce
  counter := s.counter

/-- Publish a fetched chunk. -/
def publish (order : ByteOrder) (io : PublishIo) (index : UInt32) (payload : Bytes)
    (s : MirrorState) : Status × MirrorState :=
  let result := publishChunk order m.chunkSize (m.publishCall index payload s) io s.directory
  (result.1,
    { directory := result.2
      counter := if m.chunkSize.toNat < payload.length then s.counter else s.counter + 1
      stats := if result.1 = .ok then s.stats else s.stats.recordPublishFailure })

/-- `fetch_and_publish`. -/
def fetchAndPublish (order : ByteOrder) (around : Surroundings) (index : UInt32)
    (chunkLen : UInt64) (s : MirrorState) : Status × MirrorState :=
  let fetched := around.transport (m.fetchRequest index chunkLen)
  let s := { s with stats := s.stats.recordFetch fetched.1 }
  if fetchStatus chunkLen fetched.1 ≠ .ok then (fetchStatus chunkLen fetched.1, s)
  else m.publish order around.io index fetched.2 s

/-- Count a first look at the local chunk. -/
def countLocal (status : Status) (s : MirrorState) : MirrorState :=
  match status with
  | .ok => { s with stats := s.stats.recordHit }
  | .corrupt => { s with stats := s.stats.recordCorrupt }
  | _ => { s with stats := s.stats.recordMiss }

/-- The status of reading a published chunk back. -/
def readBackStatus (status : Status) : Status :=
  match status with
  | .ok => .ok
  | .corrupt => .corrupt
  | _ => .notFound

/-- `ensure_chunk_local` with no other caller at work: the chunk is never in flight, so the
caller fetches it. -/
def ensureChunkLocal (order : ByteOrder) (around : UInt32 → Surroundings) (index : UInt32)
    (chunkLen : UInt64) (buffer : Bytes) (s : MirrorState) : Status × Bytes × MirrorState :=
  let first := readChunk order m.chunkSize s.directory m.source index buffer
  let s := countLocal first.1.status s
  if first.1.status = .ok then (.ok, first.2, s)
  else
    let second := readChunk order m.chunkSize s.directory m.source index first.2
    let fetched :=
      if second.1.status = .ok then (Status.ok, s)
      else m.fetchAndPublish order (around index) index chunkLen s
    if fetched.1 ≠ .ok then (fetched.1, second.2, fetched.2)
    else
      let back := readChunk order m.chunkSize fetched.2.directory m.source index second.2
      (readBackStatus back.1.status, back.2, fetched.2)

theorem directory_countLocal (status : Status) (s : MirrorState) :
    (countLocal status s).directory = s.directory := by
  cases status <;> rfl

theorem readBackStatus_eq_ok_iff {status : Status} : readBackStatus status = .ok ↔ status = .ok := by
  cases status <;> simp [readBackStatus]

/-- A chunk made local has been read from the directory as it is now. -/
theorem ensureChunkLocal_ok {order : ByteOrder} {around : UInt32 → Surroundings} {index : UInt32}
    {chunkLen : UInt64} {buffer : Bytes} {s : MirrorState}
    (h : (m.ensureChunkLocal order around index chunkLen buffer s).1 = .ok) :
    ∃ buffer', (readChunk order m.chunkSize
        (m.ensureChunkLocal order around index chunkLen buffer s).2.2.directory m.source index
        buffer').1.status = .ok ∧
      (m.ensureChunkLocal order around index chunkLen buffer s).2.1 =
        (readChunk order m.chunkSize
          (m.ensureChunkLocal order around index chunkLen buffer s).2.2.directory m.source index
          buffer').2 := by
  unfold ensureChunkLocal at h ⊢
  dsimp only at h ⊢
  split_ifs at h ⊢ with hfirst hsecond hfetched hfetched
  · exact ⟨buffer, by rwa [directory_countLocal], by rw [directory_countLocal]⟩
  · exact absurd rfl hfetched
  · exact ⟨_, readBackStatus_eq_ok_iff.mp h, rfl⟩
  · exact absurd h hfetched
  · exact ⟨_, readBackStatus_eq_ok_iff.mp h, rfl⟩

theorem length_ensureChunkLocal (order : ByteOrder) (around : UInt32 → Surroundings)
    (index : UInt32) (chunkLen : UInt64) (buffer : Bytes) (s : MirrorState) :
    (m.ensureChunkLocal order around index chunkLen buffer s).2.1.length = buffer.length := by
  unfold ensureChunkLocal
  dsimp only
  split_ifs <;> simp only [length_readChunk]

/-- `Mirror::read`. -/
def read (order : ByteOrder) (around : UInt32 → Surroundings) (offset length : UInt64)
    (dest : Bytes) (s : MirrorState) : Option (ReadOutcome × Bytes × MirrorState) :=
  m.readWith (m.ensureChunkLocal order around) offset length dest s

end Mirror

end TieredCache.Remote
