/-
# Chunk files round-trip

What has been published durably is read back, through any store of the same chunk size,
whatever happens in the directory to files of other names.  The length of a validator is
stored in 32 bits; a longer one is not read back.
-/

import TieredCache.Remote.Publication

namespace TieredCache.Remote

open Math Math.Files

variable {order : ByteOrder} {chunkSize index : UInt32} {source : SourceIdentity} {d : Directory}
  {dest : Bytes}

/-! ## What happens in a directory -/

/-- A publish of some store, however it ends, or a new store with the names its constructor
finds. -/
inductive StoreEvent
  | published (chunkSize : UInt32) (call : PublishCall) (io : PublishIo)
  | opened (names : List FileName)

/-- The directory after an event. -/
def StoreEvent.after (order : ByteOrder) (d : Directory) : StoreEvent → Directory
  | .published chunkSize call io => (publishChunk order chunkSize call io d).2
  | .opened names => cleanup names d

/-- No publish to a chunk file. -/
def StoreEvent.Spares (source : SourceIdentity) (index : UInt32) : StoreEvent → Prop
  | .published _ call _ => call.final ≠ chunkFileName source index
  | .opened _ => True

/-- An event leaves the other chunk files alone. -/
theorem StoreEvent.read_after {e : StoreEvent} (h : e.Spares source index) :
    (e.after order d).read (chunkFileName source index) = d.read (chunkFileName source index) := by
  cases e with
  | published chunkSize call io =>
      have htemp := chunkFileName_ne_temp source index call
      show (publishChunk order chunkSize call io d).2.read _ = _
      by_cases hok : (publishChunk order chunkSize call io d).1 = .ok
      · obtain ⟨-, -, -, -, hothers⟩ := publishChunk_ok (Prod.ext hok rfl)
        exact hothers _ htemp (Ne.symm h)
      · exact (publishChunk_failed rfl hok).1 _ htemp
  | opened names => exact read_cleanup (not_isTemp_chunkFileName source index) names d

theorem read_events {events : List StoreEvent} (h : ∀ e ∈ events, e.Spares source index) :
    (events.foldl (StoreEvent.after order) d).read (chunkFileName source index) =
      d.read (chunkFileName source index) := by
  induction events generalizing d with
  | nil => rfl
  | cons e events ih =>
      rw [List.foldl_cons, ih fun e he => h e (List.mem_cons_of_mem _ he),
        StoreEvent.read_after (h e List.mem_cons_self)]

/-! ## The round trip -/

/-- A chunk that has been published, with all its bytes written, is read back under its
identity until the next publish to its file. -/
theorem chunk_round_trip {call : PublishCall} {io : PublishIo} {d' : Directory}
    {events : List StoreEvent}
    (hshort : (canonicalValidator call.source.validator).length < 2 ^ 32)
    (hok : publishChunk order chunkSize call io d = (.ok, d')) (hdurable : ¬ io.Leaves call)
    (hspares : ∀ e ∈ events, e.Spares call.source call.index)
    (hdest : call.payload.length ≤ dest.length) :
    ∃ result, readChunk order chunkSize (events.foldl (StoreEvent.after order) d') call.source
        call.index dest = (result, call.payload ++ dest.drop call.payload.length) ∧
      result.status = .ok ∧ result.bytes.toNat = call.payload.length := by
  obtain ⟨hsize, -, ⟨file, hread, -, hwhole⟩, -, -⟩ := publishChunk_ok hok
  rw [hwhole.mpr hdurable, PublishCall.final, ← read_events hspares] at hread
  refine ⟨⟨.ok, UInt32.ofNat call.payload.length⟩, ?_, rfl,
    UInt32.toNat_ofNat_of_lt (lt_of_le_of_lt hsize chunkSize.toNat_lt)⟩
  rw [readChunk_of_read hread]
  exact readFile_chunkFile ⟨rfl, rfl, rfl, rfl⟩ hshort hsize hdest

/-- A byte published, then a new store over the directory and a publish of another chunk. -/
theorem chunk_round_trip_byte : ∃ result,
    readChunk .little 1 ([StoreEvent.opened [oneByte.temp],
        .published 1 { oneByte with index := 1 } {}].foldl (StoreEvent.after .little)
          (publishChunk .little 1 oneByte {} (Disk.empty _)).2) oneByte.source 0 [0] =
        (result, oneByte.payload ++ [0].drop oneByte.payload.length) ∧
      result.status = .ok ∧ result.bytes.toNat = oneByte.payload.length := by
  refine @chunk_round_trip .little 1 (Disk.empty _) [0] oneByte {} _ _ (by decide)
    (Prod.ext (publishChunk_undisturbed .little _ (by decide)).1 rfl) (by decide) ?_ (by decide)
  intro e he
  rcases List.mem_cons.mp he with rfl | he
  · trivial
  · rw [List.mem_singleton.mp he]
    show chunkFileName _ 1 ≠ chunkFileName _ 0
    intro heq
    exact absurd (chunkFileName_eq_iff.mp heq).2.2 (by decide)

/-! ## Validators of 2^32 bytes -/

/-- A chunk file with a longer validator is never read back. -/
theorem not_read_long {payload : Bytes}
    (hlong : 2 ^ 32 ≤ (canonicalValidator source.validator).length)
    (hread : d.read (chunkFileName source index) = some (chunkFile order source index payload)) :
    (readChunk order chunkSize d source index dest).1.status ≠ .ok := by
  intro hok
  rw [readChunk_of_read hread] at hok
  obtain ⟨header, found, -, -, -, -, -, -, -, hlength, -⟩ := readFile_ok hok
  have hlt := header.validatorLength.toNat_lt
  omega

/-- A text of some length. -/
def longText (n : ℕ) : Bytes := List.replicate n 0x61

theorem length_longText (n : ℕ) : (longText n).length = n := List.length_replicate

/-- An empty chunk under two long texts is published, and not read back. -/
theorem long_not_read {etag lastModified : Bytes} (hlong : 2 ^ 32 ≤ etag.length + lastModified.length + 5) :
    ∃ io d', publishChunk .little 1 ⟨⟨[], ⟨etag, lastModified, 0⟩⟩, 0, [], 0, 0⟩ io
        (Disk.empty _) = (.ok, d') ∧
      ¬ io.Leaves ⟨⟨[], ⟨etag, lastModified, 0⟩⟩, 0, [], 0, 0⟩ ∧
      (readChunk .little 1 d' ⟨[], ⟨etag, lastModified, 0⟩⟩ 0 []).1.status ≠ .ok := by
  have hlength : (canonicalValidator ⟨etag, lastModified, 0⟩).length =
      etag.length + lastModified.length + 5 := by
    have hfirst : (ascii "E:").length = 2 := by decide
    have hsecond : (ascii "|L:").length = 3 := by decide
    simp only [canonicalValidator, List.length_append, hfirst, hsecond]
    omega
  obtain ⟨hok, hread⟩ := @publishChunk_undisturbed 1
    ⟨⟨[], ⟨etag, lastModified, 0⟩⟩, 0, [], 0, 0⟩ .little (Disk.empty _) (Nat.zero_le _)
  exact ⟨{}, _, Prod.ext hok rfl, fun hleaves => Nat.lt_irrefl 0 hleaves.2.1,
    not_read_long (hlong.trans_eq hlength.symm) hread⟩

/-- Two texts of 2^31 - 1 bytes make a validator of more than 2^32 bytes. -/
theorem long_validator_lost :
    (longText (2 ^ 31 - 1)).length < 2 ^ 31 ∧
      ∃ io d', publishChunk .little 1
          ⟨⟨[], ⟨longText (2 ^ 31 - 1), longText (2 ^ 31 - 1), 0⟩⟩, 0, [], 0, 0⟩ io
          (Disk.empty _) = (.ok, d') ∧
        ¬ io.Leaves ⟨⟨[], ⟨longText (2 ^ 31 - 1), longText (2 ^ 31 - 1), 0⟩⟩, 0, [], 0, 0⟩ ∧
        (readChunk .little 1 d' ⟨[], ⟨longText (2 ^ 31 - 1), longText (2 ^ 31 - 1), 0⟩⟩ 0
          []).1.status ≠ .ok := by
  have hlength := length_longText (2 ^ 31 - 1)
  generalize longText (2 ^ 31 - 1) = text at *
  exact ⟨by omega, long_not_read (by omega)⟩

end TieredCache.Remote
