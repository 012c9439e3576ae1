/-
# Generations of one source in one directory

Files of different identities of a URL do not disturb each other when their names differ,
and a reader is served only its own identity's chunks when validators have only one
canonical form.  The name leaves the total size out, and the canonical form can be split
in two ways.
-/

import TieredCache.Math.Runs
import TieredCache.Remote.Publication

namespace TieredCache.Remote

open Math Math.Digits Math.Files Math.Runs

variable {order : ByteOrder} {chunkSize : UInt32} {source source' : SourceIdentity}
  {index index' : UInt32} {payload dest : Bytes} {d d' : Directory} {call : PublishCall}
  {io : PublishIo}

/-! ## Coexistence -/

/-- Publishing under one identity and index leaves the file of another alone, and what is
read from it. -/
structure Coexist (source source' : SourceIdentity) (index index' : UInt32) : Prop where
  file : ∀ order chunkSize call io (d : Directory), call.source = source' → call.index = index' →
    (publishChunk order chunkSize call io d).2.read (chunkFileName source index) =
      d.read (chunkFileName source index)
  read : ∀ order chunkSize readSize call io (d : Directory) dest, call.source = source' →
    call.index = index' →
    readChunk order readSize (publishChunk order chunkSize call io d).2 source index dest =
      readChunk order readSize d source index dest

/-- A publish changes no name but its temporary and its final one. -/
theorem publishChunk_read_other {name : FileName} (htemp : name ≠ call.temp)
    (hfinal : name ≠ call.final) :
    (publishChunk order chunkSize call io d).2.read name = d.read name := by
  by_cases hok : (publishChunk order chunkSize call io d).1 = .ok
  · exact (publishChunk_ok (Prod.ext hok rfl)).2.2.2.2 name htemp hfinal
  · exact (publishChunk_failed rfl hok).1 name htemp

/-- Files with different names coexist. -/
theorem coexist_of_names (h : chunkFileName source index ≠ chunkFileName source' index') :
    Coexist source source' index index' := by
  have hfile : ∀ order chunkSize call io (d : Directory), call.source = source' →
      call.index = index' →
      (publishChunk order chunkSize call io d).2.read (chunkFileName source index) =
        d.read (chunkFileName source index) := by
    rintro order chunkSize call io d rfl rfl
    exact publishChunk_read_other (chunkFileName_ne_temp source index call) h
  refine ⟨hfile, fun order chunkSize readSize call io d dest hsource hindex => ?_⟩
  rw [readChunk, readChunk, hfile order chunkSize call io d hsource hindex]

/-- A complete file is not corrupt to a reader with its canonical validator: it is either
accepted or another version's. -/
theorem readFile_chunkFile_ne_corrupt (hurl : source.url = source'.url)
    (hvalidator : canonicalValidator source.validator = canonicalValidator source'.validator)
    (hsize : payload.length ≤ chunkSize.toNat) (hdest : payload.length ≤ dest.length) :
    (readFile order chunkSize source index (chunkFile order source' index payload) dest).1.status ≠
      .corrupt := by
  have hpayloadLength := publishedHeader_payloadLength source' index
    (lt_of_le_of_lt hsize chunkSize.toNat_lt)
  have hheader : ChunkFileHeader.ofBytes order (chunkFile order source' index payload) =
      publishedHeader source' index payload :=
    ChunkFileHeader.ofBytes_bytes ..
  have hdrop : (chunkFile order source' index payload).drop ChunkFileHeader.size =
      canonicalValidator source'.validator ++ payload :=
    List.drop_left' (ChunkFileHeader.length_bytes order _)
  have hlong : ¬ (chunkFile order source' index payload).length < ChunkFileHeader.size := by
    rw [chunkFile, List.length_append, ChunkFileHeader.length_bytes]
    omega
  have hversion : ¬ ((publishedHeader source' index payload).magic ≠ chunkMagic ∨
      (publishedHeader source' index payload).formatVersion ≠ chunkFormatVersion) := by
    simp [publishedHeader]
  have hlengths : ¬ (chunkSize < (publishedHeader source' index payload).payloadLength ∨
      dest.length < payload.length) := by
    rw [not_or, UInt32.lt_iff_toNat_lt, hpayloadLength]
    exact ⟨not_lt.mpr hsize, not_lt.mpr hdest⟩
  by_cases hshort : (canonicalValidator source'.validator).length < 2 ^ 32
  · by_cases htotal : source.validator.totalSize = source'.validator.totalSize
    · rw [readFile_chunkFile ⟨by rw [hurl], htotal, rfl, hvalidator⟩ hshort hsize hdest]
      simp
    · have hidentity : (publishedHeader source' index payload).sourceIdHash ≠ fnv1a64 source.url ∨
          (publishedHeader source' index payload).totalSize ≠ source.validator.totalSize ∨
          (publishedHeader source' index payload).chunkIndex ≠ index :=
        Or.inr (Or.inl (Ne.symm htotal))
      unfold readFile
      dsimp only
      rw [if_neg hlong, hheader, if_neg hversion, if_pos hidentity]
      simp
  · -- The stored length of the validator is too small, so that another one is read.
    have hcut : (publishedHeader source' index payload).validatorLength.toNat <
        (canonicalValidator source'.validator).length :=
      lt_of_lt_of_le (UInt32.toNat_lt _) (not_lt.mp hshort)
    have htake : ((canonicalValidator source'.validator ++ payload).take
        (publishedHeader source' index payload).validatorLength.toNat).length =
          (publishedHeader source' index payload).validatorLength.toNat := by
      rw [List.length_take, List.length_append]
      omega
    have hother : (canonicalValidator source'.validator ++ payload).take
        (publishedHeader source' index payload).validatorLength.toNat ≠
          canonicalValidator source.validator := by
      intro heq
      rw [heq, hvalidator] at htake
      omega
    unfold readFile
    dsimp only
    rw [if_neg hlong, hheader, if_neg hversion, hpayloadLength, if_neg hlengths, hdrop,
      if_neg (not_not.mpr htake), if_pos hother]
    split_ifs <;> simp

/-! ## When generations coexist -/

/-- An empty file under one name. -/
def emptyFileAt (name : FileName) : Directory := ((Disk.empty FileName).create name).2

theorem read_emptyFileAt (name : FileName) : (emptyFileAt name).read name = some [] := by
  obtain ⟨hlink, hcontents⟩ := (Disk.empty FileName).create_links name
  rw [emptyFileAt, Disk.read_of_links hlink, hcontents]

/-- Identities with one file name and one canonical validator disturb each other: an empty file
is corrupt, and the complete one that replaces it is not. -/
theorem not_coexist (hurl : source.url = source'.url)
    (hvalidator : canonicalValidator source.validator = canonicalValidator source'.validator) :
    ¬ Coexist source source' index index := by
  intro h
  have hname : chunkFileName source index = chunkFileName source' index := by
    rw [chunkFileName_eq_iff, hurl, hvalidator]
    exact ⟨rfl, rfl, rfl⟩
  obtain ⟨call, rfl, rfl, hpayload⟩ : ∃ call : PublishCall,
      call.source = source' ∧ call.index = index ∧ call.payload = [] :=
    ⟨⟨source', index, [], 0, 0⟩, rfl, rfl, rfl⟩
  have hsame := h.read .little 1 1 call {} (emptyFileAt (chunkFileName source call.index)) [] rfl rfl
  have hfits : call.payload.length ≤ (1 : UInt32).toNat := by
    rw [hpayload]
    exact Nat.zero_le _
  have hdest : call.payload.length ≤ ([] : Bytes).length := by
    rw [hpayload]
  have hread : (publishChunk .little 1 call {}
      (emptyFileAt (chunkFileName source call.index))).2.read (chunkFileName source call.index) =
        some (call.whole .little) := by
    rw [hname]
    exact (publishChunk_undisturbed .little _ hfits).2
  rw [readChunk_of_read hread, readChunk_of_read (read_emptyFileAt _)] at hsame
  have hempty : readFile .little 1 source call.index [] [] = (⟨.corrupt, 0⟩, []) := rfl
  apply readFile_chunkFile_ne_corrupt hurl hvalidator hfits hdest
  show (readFile .little 1 source call.index (call.whole .little) []).1.status = .corrupt
  rw [hsame, hempty]

/-- Two identities coexist exactly if their canonical validators or the indices differ, as long as
different canonical validators have different hashes.  At one index they are of one URL. -/
theorem generations_coexist_iff (hurl : index = index' → source.url = source'.url)
    (hhash : index = index' →
      canonicalValidator source.validator ≠ canonicalValidator source'.validator →
        fnv1a64 (canonicalValidator source.validator) ≠
          fnv1a64 (canonicalValidator source'.validator)) :
    Coexist source source' index index' ↔
      canonicalValidator source.validator ≠ canonicalValidator source'.validator ∨
        index ≠ index' := by
  constructor
  · intro h
    rw [ne_eq, ne_eq, ← not_and_or]
    rintro ⟨hvalidator, rfl⟩
    exact not_coexist (hurl rfl) hvalidator h
  · intro h
    apply coexist_of_names
    rw [ne_eq, chunkFileName_eq_iff, not_and_or, not_and_or]
    by_cases hindex : index = index'
    · exact Or.inr (Or.inl (hhash hindex (h.resolve_right (not_not.mpr hindex))))
    · exact Or.inr (Or.inr hindex)

/-- A source that has grown by a byte. -/
def grown (totalSize : UInt64) : SourceIdentity := ⟨ascii "u", ⟨ascii "x", [], totalSize⟩⟩

/-- A source with an entity tag. -/
def tagged (etag : Bytes) : SourceIdentity := ⟨ascii "u", ⟨etag, [], 1⟩⟩

/-- Chunks of two versions with different entity tags, and two chunks of one version. -/
theorem generations_coexist_tags :
    Coexist (tagged (ascii "x")) (tagged (ascii "y")) 0 0 ∧
      Coexist (tagged (ascii "x")) (tagged (ascii "x")) 0 1 := by
  have hhash : fnv1a64 (canonicalValidator (tagged (ascii "x")).validator) ≠
      fnv1a64 (canonicalValidator (tagged (ascii "y")).validator) := by
    decide
  have hiff : Coexist (tagged (ascii "x")) (tagged (ascii "y")) 0 0 ↔ _ :=
    generations_coexist_iff (fun _ => rfl) fun _ _ => hhash
  have hne : (0 : UInt32) ≠ 1 := by decide
  have hindices : Coexist (tagged (ascii "x")) (tagged (ascii "x")) 0 1 ↔ _ :=
    generations_coexist_iff (fun heq => absurd heq hne) fun heq => absurd heq hne
  exact ⟨hiff.mpr (Or.inl (by decide)), hindices.mpr (Or.inr hne)⟩

/-- Two versions of different size that overwrite each other's chunks. -/
theorem generations_overwrite :
    (grown 1).validator ≠ (grown 2).validator ∧
      canonicalValidator (grown 1).validator = canonicalValidator (grown 2).validator ∧
      ¬ Coexist (grown 1) (grown 2) 0 0 :=
  ⟨by decide, rfl, not_coexist rfl rfl⟩

end TieredCache.Remote
