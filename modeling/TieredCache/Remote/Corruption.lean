/-
# Damaged chunk files

One changed byte of the payload changes its checksum: a step of the hash multiplies by an odd
number and merges no two states.  A reader therefore reports a published file with such a byte
as corrupt, as far as the header holds the length of the validator, which is what tells the
payload from it.
-/

import TieredCache.Math.Folds
import TieredCache.Remote.Generations
import TieredCache.Remote.RoundTrip

namespace TieredCache.Remote

open Math Math.Files Math.Folds

variable {order : ByteOrder} {chunkSize index : UInt32} {source : SourceIdentity}
  {payload tail dest : Bytes}

/-! ## The hash -/

/-- The number the hash multiplies by has an inverse. -/
theorem fnv1a32_prime_inverse : (0x01000193 : UInt32) * 0x359c449b = 1 := by decide

/-- A step of the hash merges no two states. -/
theorem fnv1a32_step_injective (b : UInt8) :
    Function.Injective fun hash : UInt32 => (hash ^^^ b.toUInt32) * 0x01000193 := by
  apply Function.LeftInverse.injective (g := fun hash => hash * 0x359c449b ^^^ b.toUInt32)
  intro hash
  simp only [UInt32.mul_assoc, fnv1a32_prime_inverse, UInt32.mul_one, UInt32.xor_assoc,
    UInt32.xor_self, UInt32.xor_zero]

/-- A step of the hash tells any two bytes apart. -/
theorem fnv1a32_byte_injective (hash : UInt32) :
    Function.Injective fun b : UInt8 => (hash ^^^ b.toUInt32) * 0x01000193 := by
  intro b c heq
  have hxor := congrArg (· * (0x359c449b : UInt32)) heq
  simp only [UInt32.mul_assoc, fnv1a32_prime_inverse, UInt32.mul_one, UInt32.xor_right_inj] at hxor
  exact UInt8.toUInt32_inj.mp hxor

/-- Strings that differ in one byte have different hashes. -/
theorem fnv1a32_ne {first second : Bytes} (h : DifferOnce first second) :
    fnv1a32 first ≠ fnv1a32 second :=
  h.foldl_ne fnv1a32_step_injective fnv1a32_byte_injective _

/-! ## Reading a damaged file -/

/-- Where the payload begins in a chunk file. -/
def payloadStart (source : SourceIdentity) : ℕ :=
  ChunkFileHeader.size + (canonicalValidator source.validator).length

/-- A file whose payload is short, or has another hash, is corrupt. -/
theorem readFile_damaged (hshort : (canonicalValidator source.validator).length < 2 ^ 32)
    (hpayload : payload.length < 2 ^ 32)
    (htail : tail.length < payload.length ∨
      tail.length = payload.length ∧ fnv1a32 tail ≠ fnv1a32 payload) :
    (readFile order chunkSize source index ((publishedHeader source index payload).bytes order ++
      (canonicalValidator source.validator ++ tail)) dest).1.status = .corrupt := by
  have hlong : ¬ ((publishedHeader source index payload).bytes order ++
      (canonicalValidator source.validator ++ tail)).length < ChunkFileHeader.size := by
    rw [List.length_append, ChunkFileHeader.length_bytes]
    omega
  have hversion : ¬ ((publishedHeader source index payload).magic ≠ chunkMagic ∨
      (publishedHeader source index payload).formatVersion ≠ chunkFormatVersion) := by
    simp [publishedHeader]
  have hidentity : ¬ ((publishedHeader source index payload).sourceIdHash ≠ fnv1a64 source.url ∨
      (publishedHeader source index payload).totalSize ≠ source.validator.totalSize ∨
      (publishedHeader source index payload).chunkIndex ≠ index) := by
    simp [publishedHeader]
  have hsum : (publishedHeader source index payload).payloadChecksum = fnv1a32 payload := rfl
  have htake : tail.take payload.length = tail :=
    List.take_of_length_le (htail.elim Nat.le_of_lt fun h => h.1.le)
  have hdrop : ((publishedHeader source index payload).bytes order ++
      (canonicalValidator source.validator ++ tail)).drop ChunkFileHeader.size =
        canonicalValidator source.validator ++ tail :=
    List.drop_left' (ChunkFileHeader.length_bytes order (publishedHeader source index payload))
  simp only [readFile, if_neg hlong, ChunkFileHeader.ofBytes_bytes, if_neg hversion,
    if_neg hidentity, publishedHeader_validatorLength index payload hshort,
    publishedHeader_payloadLength source index hpayload, hdrop, List.take_left, List.drop_left,
    htake, hsum, ne_eq, not_true_eq_false, if_false]
  split_ifs with hlengths hcount hhash
  · rfl
  · exact absurd hhash (htail.resolve_left fun hlt => Nat.ne_of_lt hlt hcount).2
  · rfl
  · rfl

/-- Under a validator whose length the header does not hold, a file is taken for that of another
generation, whatever its payload. -/
theorem readFile_overlong (hlong : 2 ^ 32 ≤ (canonicalValidator source.validator).length)
    (hsize : payload.length ≤ chunkSize.toNat) (hdest : payload.length ≤ dest.length) :
    (readFile order chunkSize source index ((publishedHeader source index payload).bytes order ++
      (canonicalValidator source.validator ++ tail)) dest).1.status = .notFound := by
  have hwhole : ¬ ((publishedHeader source index payload).bytes order ++
      (canonicalValidator source.validator ++ tail)).length < ChunkFileHeader.size := by
    rw [List.length_append, ChunkFileHeader.length_bytes]
    omega
  have hversion : ¬ ((publishedHeader source index payload).magic ≠ chunkMagic ∨
      (publishedHeader source index payload).formatVersion ≠ chunkFormatVersion) := by
    simp [publishedHeader]
  have hidentity : ¬ ((publishedHeader source index payload).sourceIdHash ≠ fnv1a64 source.url ∨
      (publishedHeader source index payload).totalSize ≠ source.validator.totalSize ∨
      (publishedHeader source index payload).chunkIndex ≠ index) := by
    simp [publishedHeader]
  have hcount := publishedHeader_payloadLength source index
    (lt_of_le_of_lt hsize chunkSize.toNat_lt)
  have hlengths : ¬ (chunkSize < (publishedHeader source index payload).payloadLength ∨
      dest.length < payload.length) := by
    rw [not_or, UInt32.lt_iff_toNat_lt, hcount]
    exact ⟨not_lt.mpr hsize, not_lt.mpr hdest⟩
  have hdrop : ((publishedHeader source index payload).bytes order ++
      (canonicalValidator source.validator ++ tail)).drop ChunkFileHeader.size =
        canonicalValidator source.validator ++ tail :=
    List.drop_left' (ChunkFileHeader.length_bytes order (publishedHeader source index payload))
  -- The stored length is too small, so that only a part of the validator is read.
  have hcut : (publishedHeader source index payload).validatorLength.toNat <
      (canonicalValidator source.validator).length :=
    lt_of_lt_of_le (UInt32.toNat_lt _) hlong
  have htake : ((canonicalValidator source.validator ++ tail).take
      (publishedHeader source index payload).validatorLength.toNat).length =
        (publishedHeader source index payload).validatorLength.toNat := by
    rw [List.length_take, List.length_append]
    omega
  have hother : (canonicalValidator source.validator ++ tail).take
      (publishedHeader source index payload).validatorLength.toNat ≠
        canonicalValidator source.validator := by
    intro heq
    rw [heq] at htake
    omega
  simp only [readFile, if_neg hwhole, ChunkFileHeader.ofBytes_bytes, if_neg hversion,
    if_neg hidentity, hcount, if_neg hlengths, hdrop, htake, ne_eq, not_true_eq_false, if_false,
    hother, not_false_eq_true, if_true]

/-- What a changed byte of the payload leaves of a written part of a chunk file. -/
theorem set_payload {file : Bytes} {i : ℕ} {b : UInt8}
    (hfile : file <+: chunkFile order source index payload)
    (hi : payloadStart source + i < file.length) :
    ∃ tail, tail <+: payload ∧ i < tail.length ∧
      file[payloadStart source + i]? = tail[i]? ∧
      file.set (payloadStart source + i) b = (publishedHeader source index payload).bytes order ++
        (canonicalValidator source.validator ++ tail.set i b) := by
  have hhead := ChunkFileHeader.length_bytes order (publishedHeader source index payload)
  have hstart : payloadStart source =
      ((publishedHeader source index payload).bytes order ++
        canonicalValidator source.validator).length := by
    rw [List.length_append, hhead, payloadStart]
  rw [chunkFile, ← List.append_assoc] at hfile
  obtain ⟨tail, rfl⟩ : (publishedHeader source index payload).bytes order ++
      canonicalValidator source.validator <+: file := by
    apply List.prefix_of_prefix_length_le (List.prefix_append _ _) hfile
    omega
  have hlt : i < tail.length := by
    simpa [hstart, Nat.add_assoc] using hi
  refine ⟨tail, (List.prefix_append_right_inj _).mp hfile, hlt, ?_, ?_⟩
  · rw [hstart, List.getElem?_append_right (Nat.le_add_right _ _), Nat.add_sub_cancel_left]
  · rw [hstart, List.set_append_right _ _ (Nat.le_add_right _ _), Nat.add_sub_cancel_left,
      List.append_assoc]

/-! ## Detection -/

/-- Every changed byte of a published payload is detected, by a store of any chunk size and into
any destination. -/
theorem corruption_detected {chunkSize chunkSize' : UInt32} {call : PublishCall} {io : PublishIo}
    {d d' damaged : Directory} {file : Bytes} {i : ℕ} {b : UInt8}
    (hshort : (canonicalValidator call.source.validator).length < 2 ^ 32)
    (hok : publishChunk order chunkSize call io d = (.ok, d'))
    (hread : d'.read call.final = some file)
    (hi : payloadStart call.source + i < file.length)
    (hb : file[payloadStart call.source + i]? ≠ some b)
    (hdamaged : damaged.read call.final = some (file.set (payloadStart call.source + i) b)) :
    (readChunk order chunkSize' damaged call.source call.index dest).1.status = .corrupt ∧
      ∀ first second : Bytes, DifferOnce first second → fnv1a32 first ≠ fnv1a32 second := by
  obtain ⟨hsize, -, ⟨written, hwritten, hprefix, -⟩, -, -⟩ := publishChunk_ok hok
  rw [hread, Option.some_inj] at hwritten
  subst hwritten
  obtain ⟨tail, htail, hlt, hbyte, hset⟩ := set_payload (b := b) hprefix hi
  have hpayload : call.payload.length < 2 ^ 32 := lt_of_le_of_lt hsize chunkSize.toNat_lt
  refine ⟨?_, fun first second => fnv1a32_ne⟩
  rw [hset] at hdamaged
  rw [readChunk_of_read hdamaged]
  apply readFile_damaged hshort hpayload
  rw [List.length_set]
  rcases Nat.lt_or_eq_of_le htail.length_le with hpart | hall
  · exact Or.inl hpart
  · have heq : tail = call.payload := htail.eq_of_length hall
    subst heq
    rw [hbyte] at hb
    exact Or.inr ⟨rfl, (fnv1a32_ne (differOnce_set hlt hb)).symm⟩

/-- One file under one name. -/
def fileAt (name : FileName) (bytes : Bytes) : Directory :=
  (emptyFileAt name).append ((Disk.empty FileName).create name).1 bytes

theorem read_fileAt (name : FileName) (bytes : Bytes) :
    (fileAt name bytes).read name = some bytes := by
  obtain ⟨hlink, hcontents⟩ := (Disk.empty FileName).create_links name
  rw [fileAt, emptyFileAt, Disk.read_append_self hlink, hcontents, List.nil_append]

/-- The byte of a published chunk is changed from 7 to 8. -/
theorem corruption_detected_byte :
    (readChunk .little 1 (fileAt oneByte.final ((oneByte.whole .little).set
        (payloadStart oneByte.source + 0) 8)) oneByte.source oneByte.index [0]).1.status = .corrupt ∧
      ∀ first second : Bytes, DifferOnce first second → fnv1a32 first ≠ fnv1a32 second := by
  have hpublished : (publishChunk .little 1 oneByte {} (Disk.empty _)).1 = .ok ∧
      (publishChunk .little 1 oneByte {} (Disk.empty _)).2.read oneByte.final =
        some (oneByte.whole .little) :=
    publishChunk_undisturbed .little (Disk.empty _) (by decide)
  obtain ⟨hok, hread⟩ := hpublished
  exact corruption_detected (by decide) (Prod.ext hok rfl) hread (by decide +kernel)
    (by decide +kernel) (read_fileAt _ _)

/-- One byte under a long etag. -/
def longCall (etag : Bytes) : PublishCall := { oneByte with source := ⟨[], ⟨etag, [], 0⟩⟩ }

/-- A changed byte under a long etag is not reported. -/
theorem changed_unreported {etag : Bytes} (hlong : 2 ^ 32 ≤ etag.length) :
    ∃ d' file, publishChunk .little 1 (longCall etag) {} (Disk.empty _) = (.ok, d') ∧
      d'.read (longCall etag).final = some file ∧
      payloadStart (longCall etag).source + 0 < file.length ∧
      file[payloadStart (longCall etag).source + 0]? ≠ some 8 ∧
      (readChunk .little 1 (fileAt (longCall etag).final
        (file.set (payloadStart (longCall etag).source + 0) 8)) (longCall etag).source
          (longCall etag).index [0]).1.status ≠ .corrupt := by
  have hvalidator : 2 ^ 32 ≤ (canonicalValidator (longCall etag).source.validator).length := by
    refine hlong.trans ?_
    simp only [canonicalValidator, longCall, List.length_append]
    omega
  have hpublished : (publishChunk .little 1 (longCall etag) {} (Disk.empty _)).1 = .ok ∧
      (publishChunk .little 1 (longCall etag) {} (Disk.empty _)).2.read (longCall etag).final =
        some ((longCall etag).whole .little) :=
    publishChunk_undisturbed .little (Disk.empty _) (Nat.le_refl 1)
  obtain ⟨hok, hread⟩ := hpublished
  simp only [PublishCall.whole, PublishCall.final] at hread ⊢
  have hlt : payloadStart (longCall etag).source + 0 < (chunkFile .little (longCall etag).source
      (longCall etag).index (longCall etag).payload).length := by
    rw [chunkFile, List.length_append, List.length_append, ChunkFileHeader.length_bytes,
      payloadStart]
    have hone : (longCall etag).payload.length = 1 := rfl
    omega
  obtain ⟨tail, htail, hi, hbyte, hset⟩ := set_payload (b := 8) (List.prefix_refl _) hlt
  refine ⟨_, _, Prod.ext hok rfl, hread, hlt, ?_, ?_⟩
  · have heq : tail = [7] := htail.eq_of_length (Nat.le_antisymm htail.length_le hi)
    rw [hbyte, heq]
    decide
  · have hsize : (longCall etag).payload.length ≤ (1 : UInt32).toNat := Nat.le_refl 1
    have hdest : (longCall etag).payload.length ≤ [(0 : UInt8)].length := Nat.le_refl 1
    rw [readChunk_of_read (read_fileAt _ _), hset, readFile_overlong hvalidator hsize hdest]
    decide

/-- The validator of an etag of 2^32 bytes. -/
theorem corruption_unreported :
    ∃ d' file, publishChunk .little 1 (longCall (longText (2 ^ 32))) {} (Disk.empty _) = (.ok, d') ∧
      d'.read (longCall (longText (2 ^ 32))).final = some file ∧
      payloadStart (longCall (longText (2 ^ 32))).source + 0 < file.length ∧
      file[payloadStart (longCall (longText (2 ^ 32))).source + 0]? ≠ some 8 ∧
      (readChunk .little 1 (fileAt (longCall (longText (2 ^ 32))).final
        (file.set (payloadStart (longCall (longText (2 ^ 32))).source + 0) 8))
          (longCall (longText (2 ^ 32))).source
          (longCall (longText (2 ^ 32))).index [0]).1.status ≠ .corrupt := by
  have hlength := length_longText (2 ^ 32)
  generalize longText (2 ^ 32) = text at *
  exact changed_unreported hlength.ge

end TieredCache.Remote
