/-
# Chunk files

The identity of a source, the format of the file that holds one of its chunks, and the
names such files have in a cache directory.  Strings are byte strings.
-/

import TieredCache.Math.ByteOrder
import TieredCache.Math.Digits
import TieredCache.Remote.Checksum
import TieredCache.Remote.Status

namespace TieredCache.Remote

open Math Math.Digits

/-- A byte string. -/
abbrev Bytes := List UInt8

/-- The bytes of a text constant. -/
def ascii (text : String) : Bytes := text.toList.map fun c => UInt8.ofNat c.toNat

/-- What tells one version of a source from another. -/
@[ext]
structure SourceValidator where
  etag : Bytes := []
  lastModified : Bytes := []
  totalSize : UInt64 := 0
  deriving DecidableEq, Repr

/-- `has_identity`. -/
def SourceValidator.hasIdentity (v : SourceValidator) : Bool :=
  v.etag ≠ [] ∨ v.lastModified ≠ []

/-- A source, and the version of it that is registered. -/
structure SourceIdentity where
  url : Bytes
  validator : SourceValidator
  deriving DecidableEq, Repr

/-- `canonical_validator`. -/
def canonicalValidator (v : SourceValidator) : Bytes :=
  ascii "E:" ++ (v.etag ++ (ascii "|L:" ++ v.lastModified))

/-! ## The format -/

def chunkMagic : UInt32 := 0x31435453

def chunkFormatVersion : UInt32 := 1

/-- `ChunkFileHeader`, a packed record. -/
structure ChunkFileHeader where
  magic : UInt32 := chunkMagic
  formatVersion : UInt32 := chunkFormatVersion
  sourceIdHash : UInt64 := 0
  totalSize : UInt64 := 0
  chunkIndex : UInt32 := 0
  payloadLength : UInt32 := 0
  validatorLength : UInt32 := 0
  payloadChecksum : UInt32 := 0
  deriving DecidableEq, Repr

namespace ChunkFileHeader

/-- `sizeof(ChunkFileHeader)`. -/
def size : ℕ := 40

/-- The header in memory, on a machine of some byte order. -/
def bytes (order : ByteOrder) (h : ChunkFileHeader) : Bytes :=
  order.store 4 h.magic.toNat ++ (order.store 4 h.formatVersion.toNat ++
    (order.store 8 h.sourceIdHash.toNat ++ (order.store 8 h.totalSize.toNat ++
      (order.store 4 h.chunkIndex.toNat ++ (order.store 4 h.payloadLength.toNat ++
        (order.store 4 h.validatorLength.toNat ++ order.store 4 h.payloadChecksum.toNat))))))

/-- The 32-bit field at the start of some memory. -/
def word32 (order : ByteOrder) (memory : Bytes) : UInt32 := UInt32.ofNat (order.load (memory.take 4))

/-- The 64-bit field at the start of some memory. -/
def word64 (order : ByteOrder) (memory : Bytes) : UInt64 := UInt64.ofNat (order.load (memory.take 8))

/-- The header that memory holds, field after field. -/
def ofBytes (order : ByteOrder) (memory : Bytes) : ChunkFileHeader :=
  let version := memory.drop 4
  let source := version.drop 4
  let total := source.drop 8
  let index := total.drop 8
  let payload := index.drop 4
  let validator := payload.drop 4
  { magic := word32 order memory
    formatVersion := word32 order version
    sourceIdHash := word64 order source
    totalSize := word64 order total
    chunkIndex := word32 order index
    payloadLength := word32 order payload
    validatorLength := word32 order validator
    payloadChecksum := word32 order (validator.drop 4) }

variable (order : ByteOrder)

@[simp]
theorem length_bytes (h : ChunkFileHeader) : (h.bytes order).length = size := by
  simp [bytes, size]

/-- Memory behind a field. -/
theorem drop_store (count n : ℕ) (after : Bytes) :
    (order.store count n ++ after).drop count = after :=
  List.drop_left' (order.length_store count n)

/-- A stored field is read back. -/
theorem word32_store (word : UInt32) (after : Bytes) :
    word32 order (order.store 4 word.toNat ++ after) = word := by
  rw [word32, List.take_left' (order.length_store 4 word.toNat), order.load_store]
  apply UInt32.toNat_inj.mp
  rw [UInt32.toNat_ofNat', Nat.mod_mod_of_dvd _ (by decide)]
  exact Nat.mod_eq_of_lt word.toNat_lt

theorem word64_store (word : UInt64) (after : Bytes) :
    word64 order (order.store 8 word.toNat ++ after) = word := by
  rw [word64, List.take_left' (order.length_store 8 word.toNat), order.load_store]
  apply UInt64.toNat_inj.mp
  rw [UInt64.toNat_ofNat', Nat.mod_mod_of_dvd _ (by decide)]
  exact Nat.mod_eq_of_lt word.toNat_lt

/-- A header written to memory is read back, whatever follows it. -/
theorem ofBytes_bytes (h : ChunkFileHeader) (after : Bytes) :
    ofBytes order (h.bytes order ++ after) = h := by
  simp only [ofBytes, bytes, List.append_assoc, drop_store, word32_store, word64_store]

end ChunkFileHeader

/-- The header `publish_chunk` writes; lengths are cast to 32 bits. -/
def publishedHeader (source : SourceIdentity) (index : UInt32) (payload : Bytes) :
    ChunkFileHeader where
  sourceIdHash := fnv1a64 source.url
  totalSize := source.validator.totalSize
  chunkIndex := index
  payloadLength := UInt32.ofNat payload.length
  validatorLength := UInt32.ofNat (canonicalValidator source.validator).length
  payloadChecksum := fnv1a32 payload

/-- A whole chunk file: header, validator, payload. -/
def chunkFile (order : ByteOrder) (source : SourceIdentity) (index : UInt32) (payload : Bytes) :
    Bytes :=
  (publishedHeader source index payload).bytes order ++
    (canonicalValidator source.validator ++ payload)

/-! ## Reading -/

/-- `ReadResult`. -/
structure ReadResult where
  status : Status := .notFound
  bytes : UInt32 := 0
  deriving DecidableEq, Repr

/-- The body of `read_chunk` on the bytes of the file it has opened: the result, and the
destination afterwards. -/
def readFile (order : ByteOrder) (chunkSize : UInt32) (source : SourceIdentity) (index : UInt32)
    (file dest : Bytes) : ReadResult × Bytes :=
  if file.length < ChunkFileHeader.size then (⟨.corrupt, 0⟩, dest)
  else
    let header := ChunkFileHeader.ofBytes order file
    if header.magic ≠ chunkMagic ∨ header.formatVersion ≠ chunkFormatVersion then
      (⟨.corrupt, 0⟩, dest)
    else if header.sourceIdHash ≠ fnv1a64 source.url ∨
        header.totalSize ≠ source.validator.totalSize ∨ header.chunkIndex ≠ index then
      (⟨.notFound, 0⟩, dest)
    else if chunkSize < header.payloadLength ∨ dest.length < header.payloadLength.toNat then
      (⟨.corrupt, 0⟩, dest)
    else
      let rest := file.drop ChunkFileHeader.size
      let validatorBytes := rest.take header.validatorLength.toNat
      if validatorBytes.length ≠ header.validatorLength.toNat then (⟨.corrupt, 0⟩, dest)
      else if validatorBytes ≠ canonicalValidator source.validator then (⟨.notFound, 0⟩, dest)
      else
        let payload := (rest.drop header.validatorLength.toNat).take header.payloadLength.toNat
        let dest := payload ++ dest.drop payload.length
        if payload.length ≠ header.payloadLength.toNat then (⟨.corrupt, 0⟩, dest)
        else if fnv1a32 payload ≠ header.payloadChecksum then (⟨.corrupt, 0⟩, dest)
        else (⟨.ok, header.payloadLength⟩, dest)

/-! ## Names -/

/-- The name of a file in the cache directory. -/
abbrev FileName := Bytes

/-- The character of a digit. -/
def digitByte (digit : ℕ) : UInt8 :=
  if digit < 10 then UInt8.ofNat (0x30 + digit) else UInt8.ofNat (0x61 + (digit - 10))

/-- `%016llx`. -/
def hex16 (word : UInt64) : Bytes := (fixedWidth 16 16 word.toNat).map digitByte

/-- `%010u`. -/
def dec10 (word : UInt32) : Bytes := (fixedWidth 10 10 word.toNat).map digitByte

/-- `std::to_string` of a 64-bit word. -/
def decimal (word : UInt64) : Bytes := (shortest 10 20 word.toNat).map digitByte

/-- `chunk_file_name`. -/
def chunkFileName (source : SourceIdentity) (index : UInt32) : FileName :=
  hex16 (fnv1a64 source.url) ++ (ascii "_" ++
    (hex16 (fnv1a64 (canonicalValidator source.validator)) ++ (ascii "_" ++
      (dec10 index ++ ascii ".stc1chunk"))))

/-- `kTempPrefix`. -/
def tempPrefix : Bytes := ascii ".stc1tmp-"

/-- The name of the temporary file of a publish. -/
def tempName (nonce counter : UInt64) : FileName :=
  tempPrefix ++ (decimal nonce ++ (ascii "-" ++ decimal counter))

/-- The name starts with the prefix of temporary files. -/
def IsTemp (name : FileName) : Prop := tempPrefix <+: name

instance : DecidablePred IsTemp := fun name => inferInstanceAs (Decidable (tempPrefix <+: name))

theorem digitByte_inj : ∀ a < 16, ∀ b < 16, digitByte a = digitByte b → a = b := by decide

theorem map_digitByte_inj {xs ys : List ℕ} (hxs : ∀ d ∈ xs, d < 16) (hys : ∀ d ∈ ys, d < 16)
    (h : xs.map digitByte = ys.map digitByte) : xs = ys := by
  induction xs generalizing ys with
  | nil => exact (List.map_eq_nil_iff.mp h.symm).symm
  | cons x xs ih =>
      cases ys with
      | nil => cases h
      | cons y ys =>
          obtain ⟨hhead, htail⟩ := List.cons_eq_cons.mp h
          rw [digitByte_inj x (hxs x List.mem_cons_self) y (hys y List.mem_cons_self) hhead,
            ih (fun d hd => hxs d (List.mem_cons_of_mem _ hd))
              (fun d hd => hys d (List.mem_cons_of_mem _ hd)) htail]

@[simp]
theorem length_hex16 (word : UInt64) : (hex16 word).length = 16 := by simp [hex16]

@[simp]
theorem length_dec10 (word : UInt32) : (dec10 word).length = 10 := by simp [dec10]

theorem hex16_inj {a b : UInt64} (h : hex16 a = hex16 b) : a = b := by
  have hlt : ∀ word : UInt64, word.toNat < 16 ^ 16 := fun word =>
    lt_of_lt_of_eq word.toNat_lt (by decide)
  unfold hex16 at h
  have hdigits := map_digitByte_inj (fun _ hd => lt_of_mem_fixedWidth (by decide) hd)
    (fun _ hd => lt_of_mem_fixedWidth (by decide) hd) h
  exact UInt64.toNat_inj.mp (fixedWidth_inj (hlt a) (hlt b) hdigits)

theorem dec10_inj {a b : UInt32} (h : dec10 a = dec10 b) : a = b := by
  have hlt : ∀ word : UInt32, word.toNat < 10 ^ 10 := fun word =>
    lt_trans word.toNat_lt (by decide)
  unfold dec10 at h
  have hdigits := map_digitByte_inj
    (fun _ hd => lt_trans (lt_of_mem_fixedWidth (by decide) hd) (by decide))
    (fun _ hd => lt_trans (lt_of_mem_fixedWidth (by decide) hd) (by decide)) h
  exact UInt32.toNat_inj.mp (fixedWidth_inj (hlt a) (hlt b) hdigits)

theorem decimal_inj {a b : UInt64} (h : decimal a = decimal b) : a = b := by
  have hlt : ∀ word : UInt64, word.toNat < 10 ^ 20 := fun word =>
    lt_trans word.toNat_lt (by decide)
  unfold decimal at h
  have hdigits := map_digitByte_inj
    (fun _ hd => lt_trans (lt_of_mem_shortest (by decide) hd) (by decide))
    (fun _ hd => lt_trans (lt_of_mem_shortest (by decide) hd) (by decide)) h
  exact UInt64.toNat_inj.mp (shortest_inj (hlt a) (hlt b) hdigits)

/-- Chunk files have one name only if URLs and validators have one hash and the indices are
equal. -/
theorem chunkFileName_eq_iff {source source' : SourceIdentity} {index index' : UInt32} :
    chunkFileName source index = chunkFileName source' index' ↔
      fnv1a64 source.url = fnv1a64 source'.url ∧
        fnv1a64 (canonicalValidator source.validator) =
          fnv1a64 (canonicalValidator source'.validator) ∧ index = index' := by
  constructor
  · intro h
    obtain ⟨hurl, h⟩ := List.append_inj h (by simp)
    obtain ⟨hvalidator, h⟩ := List.append_inj (List.append_cancel_left h) (by simp)
    obtain ⟨hindex, -⟩ := List.append_inj (List.append_cancel_left h) (by simp)
    exact ⟨hex16_inj hurl, hex16_inj hvalidator, dec10_inj hindex⟩
  · rintro ⟨hurl, hvalidator, rfl⟩
    rw [chunkFileName, chunkFileName, hurl, hvalidator]

/-- No digit is the separator of a temporary name. -/
theorem separator_not_mem_decimal (word : UInt64) : 0x2D ∉ decimal word := by
  have hdigit : ∀ d < 10, digitByte d ≠ 0x2D := by decide
  intro h
  obtain ⟨d, hd, heq⟩ := List.mem_map.mp h
  exact hdigit d (lt_of_mem_shortest (by decide) hd) heq

/-- Temporary names tell nonce and counter apart. -/
theorem tempName_inj {nonce nonce' counter counter' : UInt64}
    (h : tempName nonce counter = tempName nonce' counter') :
    nonce = nonce' ∧ counter = counter' := by
  have hseparator : ascii "-" = [0x2D] := by decide
  unfold tempName at h
  rw [hseparator, List.singleton_append, List.singleton_append] at h
  have hfields := List.append_cancel_left h
  obtain ⟨hnonce, hcounter⟩ := append_separator_inj (separator_not_mem_decimal nonce)
    (separator_not_mem_decimal nonce') hfields
  exact ⟨decimal_inj hnonce, decimal_inj hcounter⟩

theorem isTemp_tempName (nonce counter : UInt64) : IsTemp (tempName nonce counter) :=
  List.prefix_append ..

/-- A chunk file is no temporary file. -/
theorem not_isTemp_chunkFileName (source : SourceIdentity) (index : UInt32) :
    ¬ IsTemp (chunkFileName source index) := by
  have hdigit : ∀ d < 16, digitByte d ≠ 0x2E := by decide
  intro h
  have hhead : ∃ d tail, d < 16 ∧ chunkFileName source index = digitByte d :: tail := by
    have hlength := length_hex16 (fnv1a64 source.url)
    unfold chunkFileName
    cases hhex : hex16 (fnv1a64 source.url) with
    | nil =>
        rw [hhex] at hlength
        cases hlength
    | cons b tail =>
        have hmem : b ∈ hex16 (fnv1a64 source.url) := by
          rw [hhex]
          exact List.mem_cons_self
        obtain ⟨d, hd, rfl⟩ := List.mem_map.mp hmem
        exact ⟨d, _, lt_of_mem_fixedWidth (by decide) hd, List.cons_append⟩
  obtain ⟨d, tail, hd, hname⟩ := hhead
  rw [IsTemp, hname] at h
  have hfirst : tempPrefix = 0x2E :: ascii "stc1tmp-" := by rfl
  rw [hfirst] at h
  exact hdigit d hd (List.cons_prefix_cons.mp h).1.symm

/-! ## What is read from a published file -/

section Published

variable {order : ByteOrder} {chunkSize index index' : UInt32} {source source' : SourceIdentity}
  {payload file dest : Bytes}

/-- The checks an accepted file has passed. -/
theorem readFile_ok (h : (readFile order chunkSize source index file dest).1.status = .ok) :
    ∃ header payload, ChunkFileHeader.ofBytes order file = header ∧
      ChunkFileHeader.size ≤ file.length ∧ header.sourceIdHash = fnv1a64 source.url ∧
      header.totalSize = source.validator.totalSize ∧ header.chunkIndex = index ∧
      header.payloadLength ≤ chunkSize ∧ header.payloadLength.toNat ≤ dest.length ∧
      (canonicalValidator source.validator).length = header.validatorLength.toNat ∧
      (file.drop ChunkFileHeader.size).take header.validatorLength.toNat =
        canonicalValidator source.validator ∧
      ((file.drop ChunkFileHeader.size).drop header.validatorLength.toNat).take
        header.payloadLength.toNat = payload ∧
      payload.length = header.payloadLength.toNat ∧
      ∀ dest', dest'.length = dest.length →
        readFile order chunkSize source index file dest' =
          (⟨.ok, header.payloadLength⟩, payload ++ dest'.drop payload.length) := by
  unfold readFile at h
  dsimp only at h
  split_ifs at h with hsize hversion hidentity hlengths hvalidator hcanonical hpayload hsum
  have hidentity' := not_or.mp hidentity
  have hlengths' := not_or.mp hlengths
  refine ⟨_, _, rfl, not_lt.mp hsize, not_not.mp hidentity'.1,
    not_not.mp (not_or.mp hidentity'.2).1, not_not.mp (not_or.mp hidentity'.2).2,
    UInt32.not_lt.mp hlengths'.1, not_lt.mp hlengths'.2, ?_, not_not.mp hcanonical, rfl,
    not_not.mp hpayload, fun dest' hdest => ?_⟩
  · rw [← not_not.mp hcanonical]
    exact not_not.mp hvalidator
  · unfold readFile
    dsimp only
    rw [hdest, if_neg hsize, if_neg hversion, if_neg hidentity, if_neg hlengths, if_neg hvalidator,
      if_neg hcanonical, if_neg hpayload, if_neg hsum]

/-- Reading changes no more of the destination than its bytes. -/
theorem length_readFile (order : ByteOrder) (chunkSize : UInt32) (source : SourceIdentity)
    (index : UInt32) (file dest : Bytes) :
    (readFile order chunkSize source index file dest).2.length = dest.length := by
  unfold readFile
  dsimp only
  split_ifs with hsize hversion hidentity hlengths hvalidator hcanonical hpayload hsum
  all_goals first
    | rfl
    | have hfits := not_lt.mp (not_or.mp hlengths).2
      rw [List.length_append, List.length_drop, List.length_take]
      omega

theorem publishedHeader_validatorLength (index : UInt32) (payload : Bytes)
    (h : (canonicalValidator source.validator).length < 2 ^ 32) :
    (publishedHeader source index payload).validatorLength.toNat =
      (canonicalValidator source.validator).length :=
  UInt32.toNat_ofNat_of_lt h

theorem publishedHeader_payloadLength (source : SourceIdentity) (index : UInt32)
    (h : payload.length < 2 ^ 32) :
    (publishedHeader source index payload).payloadLength.toNat = payload.length :=
  UInt32.toNat_ofNat_of_lt h

/-- The identity of a reader that accepts what was published under another. -/
structure Matches (source source' : SourceIdentity) (index index' : UInt32) : Prop where
  url : fnv1a64 source.url = fnv1a64 source'.url
  totalSize : source.validator.totalSize = source'.validator.totalSize
  index : index = index'
  validator : canonicalValidator source.validator = canonicalValidator source'.validator

/-- A reader that accepts a published file, or the part of it that was written, has a matching
identity and finds the payload. -/
theorem readFile_prefix (hfile : file <+: chunkFile order source' index' payload)
    (hpayload : payload.length < 2 ^ 32)
    (hshort : (canonicalValidator source'.validator).length < 2 ^ 32)
    (h : (readFile order chunkSize source index file dest).1.status = .ok) :
    Matches source source' index index' ∧ payload.length ≤ chunkSize.toNat ∧
      payload.length ≤ dest.length ∧
      readFile order chunkSize source index file dest =
        (⟨.ok, UInt32.ofNat payload.length⟩, payload ++ dest.drop payload.length) := by
  obtain ⟨header, found, hheader, hsize, hurl, htotal, hindex, hchunk, hdest, hlength, hcanonical,
    hfound, hcount, hread⟩ := readFile_ok h
  obtain ⟨rest, rfl⟩ : (publishedHeader source' index' payload).bytes order <+: file := by
    apply List.prefix_of_prefix_length_le (List.prefix_append _ _) hfile
    rwa [ChunkFileHeader.length_bytes]
  have hrest : rest <+: canonicalValidator source'.validator ++ payload :=
    (List.prefix_append_right_inj _).mp hfile
  rw [ChunkFileHeader.ofBytes_bytes] at hheader
  subst hheader
  have hdrop : ((publishedHeader source' index' payload).bytes order ++ rest).drop
      ChunkFileHeader.size = rest :=
    List.drop_left' (ChunkFileHeader.length_bytes order _)
  rw [publishedHeader_validatorLength index' payload hshort] at hlength hcanonical hfound
  rw [publishedHeader_payloadLength source' index' hpayload] at hdest hfound hcount
  rw [hdrop] at hcanonical hfound
  -- The validator was written whole, and then the payload.
  have hwhole : (canonicalValidator source'.validator).length ≤ rest.length := by
    have htake := congrArg List.length hcanonical
    rw [List.length_take, hlength] at htake
    omega
  obtain ⟨tail, rfl⟩ : canonicalValidator source'.validator <+: rest :=
    List.prefix_of_prefix_length_le (List.prefix_append _ _) hrest hwhole
  rw [List.take_left' rfl] at hcanonical
  rw [List.drop_left' rfl] at hfound
  have htail : tail <+: payload := (List.prefix_append_right_inj _).mp hrest
  have hall : found = payload := by
    have hbegins : found <+: payload := by
      rw [← hfound]
      exact (List.take_prefix _ _).trans htail
    exact hbegins.eq_of_length hcount
  have hread := hread dest rfl
  rw [hall] at hread
  refine ⟨⟨hurl.symm, htotal.symm, hindex.symm, hcanonical.symm⟩, ?_, hdest, hread⟩
  rw [UInt32.le_iff_toNat_le, publishedHeader_payloadLength source' index' hpayload] at hchunk
  exact hchunk

/-- A published file is read back under every matching identity. -/
theorem readFile_chunkFile (hmatch : Matches source source' index index')
    (hshort : (canonicalValidator source'.validator).length < 2 ^ 32)
    (hsize : payload.length ≤ chunkSize.toNat) (hdest : payload.length ≤ dest.length) :
    readFile order chunkSize source index (chunkFile order source' index' payload) dest =
      (⟨.ok, UInt32.ofNat payload.length⟩, payload ++ dest.drop payload.length) := by
  have hpayload : payload.length < 2 ^ 32 := lt_of_le_of_lt hsize chunkSize.toNat_lt
  have hvalidatorLength := publishedHeader_validatorLength index' payload hshort
  have hpayloadLength := publishedHeader_payloadLength source' index' hpayload
  have hdrop : (chunkFile order source' index' payload).drop ChunkFileHeader.size =
      canonicalValidator source'.validator ++ payload :=
    List.drop_left' (ChunkFileHeader.length_bytes order _)
  have hheader : ChunkFileHeader.ofBytes order (chunkFile order source' index' payload) =
      publishedHeader source' index' payload :=
    ChunkFileHeader.ofBytes_bytes ..
  have hlong : ¬ (chunkFile order source' index' payload).length < ChunkFileHeader.size := by
    rw [chunkFile, List.length_append, ChunkFileHeader.length_bytes]
    omega
  have hlengths : ¬ (chunkSize < (publishedHeader source' index' payload).payloadLength ∨
      dest.length < payload.length) := by
    rw [not_or, UInt32.lt_iff_toNat_lt, hpayloadLength]
    exact ⟨not_lt.mpr hsize, not_lt.mpr hdest⟩
  have hidentity : ¬ ((publishedHeader source' index' payload).sourceIdHash ≠ fnv1a64 source.url ∨
      (publishedHeader source' index' payload).totalSize ≠ source.validator.totalSize ∨
      (publishedHeader source' index' payload).chunkIndex ≠ index) := by
    rw [not_or, not_or, not_not, not_not, not_not]
    exact ⟨hmatch.url.symm, hmatch.totalSize.symm, hmatch.index.symm⟩
  have hversion : ¬ ((publishedHeader source' index' payload).magic ≠ chunkMagic ∨
      (publishedHeader source' index' payload).formatVersion ≠ chunkFormatVersion) := by
    simp [publishedHeader]
  have hsum : fnv1a32 payload = (publishedHeader source' index' payload).payloadChecksum := rfl
  unfold readFile
  rw [if_neg hlong]
  dsimp only
  rw [hheader, if_neg hversion, if_neg hidentity, hpayloadLength, if_neg hlengths, hdrop,
    hvalidatorLength, List.take_left' rfl, List.drop_left' rfl, List.take_length, hmatch.validator,
    if_neg (not_not.mpr rfl), if_neg (not_not.mpr rfl), if_neg (not_not.mpr rfl),
    if_neg (not_not.mpr hsum)]
  rfl

end Published

end TieredCache.Remote
