/-
# Where served chunks come from

Runs of publishes under any identities of one URL.  What a reader is served was published
under its own validator, as long as the validators that publish are not mistaken for
others: the canonical form can be split in two ways when a field contains the separator,
and its length is stored in 32 bits.
-/

import TieredCache.Math.Runs
import TieredCache.Remote.Publication

namespace TieredCache.Remote

open Math Math.Digits Math.Files Math.Runs

variable {order : ByteOrder} {chunkSize index index' : UInt32} {source source' : SourceIdentity}
  {payload file dest url : Bytes} {d : Directory} {call : PublishCall} {io : PublishIo}
  {v w : SourceValidator}

/-! ## Validators that are not mistaken -/

/-- What stands between the fields of a canonical validator. -/
def fieldSeparator : Bytes := ascii "|L:"

theorem unbordered_fieldSeparator : Unbordered fieldSeparator := by
  have hchars : fieldSeparator = [0x7C, 0x4C, 0x3A] := by rfl
  rw [hchars]
  intro left right hsplit hborder
  match left, hsplit with
  | [], _ => exact Or.inl rfl
  | [a], h =>
      cases h
      exact absurd (List.cons_prefix_cons.mp hborder).1 (by decide)
  | [a, b], h =>
      cases h
      exact absurd (List.cons_prefix_cons.mp hborder).1 (by decide)
  | a :: b :: c :: tail, h =>
      simp only [List.cons_append, List.cons.injEq, List.nil_eq, List.append_eq_nil_iff] at h
      exact Or.inr h.2.2.2.2

namespace SourceValidator

/-- No field contains the separator. -/
structure Plain (v : SourceValidator) : Prop where
  etag : ¬ fieldSeparator <:+: v.etag
  lastModified : ¬ fieldSeparator <:+: v.lastModified

theorem canonicalValidator_eq_iff :
    canonicalValidator v = canonicalValidator w ↔
      v.etag ++ (fieldSeparator ++ v.lastModified) = w.etag ++ (fieldSeparator ++ w.lastModified) :=
  List.append_right_inj _

/-- The canonical form of a plain validator has no other fields. -/
theorem Plain.fields_eq (hv : v.Plain) (h : canonicalValidator v = canonicalValidator w) :
    w.etag = v.etag ∧ w.lastModified = v.lastModified := by
  rcases append_unbordered unbordered_fieldSeparator (canonicalValidator_eq_iff.mp h) with
    hsame | ⟨middle, -, hlast⟩ | ⟨middle, hetag, -⟩
  · exact hsame
  · exact absurd ⟨middle, w.lastModified, by rw [hlast, List.append_assoc]⟩ hv.lastModified
  · exact absurd ⟨w.etag, middle, by rw [hetag, List.append_assoc]⟩ hv.etag

/-- A validator is plain exactly if no other fields have its canonical form. -/
theorem plain_iff :
    v.Plain ↔ ∀ w, canonicalValidator v = canonicalValidator w →
      w.etag = v.etag ∧ w.lastModified = v.lastModified := by
  refine ⟨fun hv w => hv.fields_eq, fun h => ⟨?_, ?_⟩⟩
  · rintro ⟨left, right, hetag⟩
    have hother : canonicalValidator v =
        canonicalValidator ⟨left, right ++ (fieldSeparator ++ v.lastModified), v.totalSize⟩ := by
      rw [canonicalValidator_eq_iff, ← hetag]
      simp only [List.append_assoc]
    have hlength := congrArg List.length (h _ hother).1
    rw [← hetag, List.length_append, List.length_append] at hlength
    have hpos : 0 < fieldSeparator.length := by decide
    dsimp only at hlength
    omega
  · rintro ⟨left, right, hlast⟩
    have hother : canonicalValidator v =
        canonicalValidator ⟨v.etag ++ (fieldSeparator ++ left), right, v.totalSize⟩ := by
      rw [canonicalValidator_eq_iff, ← hlast]
      simp only [List.append_assoc]
    have hlength := congrArg List.length (h _ hother).2
    rw [← hlast, List.length_append, List.length_append] at hlength
    have hpos : 0 < fieldSeparator.length := by decide
    dsimp only at hlength
    omega

/-- A validator whose files no reader with another validator accepts.  A canonical form of
2^32 bytes or more is stored with too small a length, so that its beginning is compared. -/
structure Unmistakable (v : SourceValidator) : Prop where
  plain : (canonicalValidator v).length < 2 ^ 32 → v.Plain
  cut : 2 ^ 32 ≤ (canonicalValidator v).length → ∀ w, w.totalSize = v.totalSize →
    canonicalValidator w =
      (canonicalValidator v).take ((canonicalValidator v).length % 2 ^ 32) →
    fnv1a64 (canonicalValidator w) ≠ fnv1a64 (canonicalValidator v)

end SourceValidator

/-! ## What a reader accepts -/

/-- A reader that accepts a published file, or the part of it that was written, has the
beginning of its canonical validator. -/
theorem readFile_prefix_validator (hfile : file <+: chunkFile order source' index' payload)
    (h : (readFile order chunkSize source index file dest).1.status = .ok) :
    source.validator.totalSize = source'.validator.totalSize ∧
      canonicalValidator source.validator = (canonicalValidator source'.validator).take
        ((canonicalValidator source'.validator).length % 2 ^ 32) := by
  obtain ⟨header, found, hheader, hsize, -, htotal, -, -, -, hlength, hcanonical, -⟩ := readFile_ok h
  obtain ⟨rest, rfl⟩ : (publishedHeader source' index' payload).bytes order <+: file := by
    apply List.prefix_of_prefix_length_le (List.prefix_append _ _) hfile
    rwa [ChunkFileHeader.length_bytes]
  obtain ⟨after, hrest⟩ : rest <+: canonicalValidator source'.validator ++ payload :=
    (List.prefix_append_right_inj _).mp hfile
  rw [ChunkFileHeader.ofBytes_bytes] at hheader
  subst hheader
  have hdrop : ((publishedHeader source' index' payload).bytes order ++ rest).drop
      ChunkFileHeader.size = rest :=
    List.drop_left' (ChunkFileHeader.length_bytes order _)
  have hstored : (publishedHeader source' index' payload).validatorLength.toNat =
      (canonicalValidator source'.validator).length % 2 ^ 32 :=
    UInt32.toNat_ofNat'
  rw [hdrop, hstored] at hcanonical
  rw [hstored] at hlength
  have hcut : (canonicalValidator source'.validator).length % 2 ^ 32 ≤
      (canonicalValidator source'.validator).length :=
    Nat.mod_le _ _
  have hcount : (canonicalValidator source'.validator).length % 2 ^ 32 ≤ rest.length := by
    have htake := congrArg List.length hcanonical
    rw [List.length_take, hlength] at htake
    omega
  refine ⟨htotal.symm, ?_⟩
  rw [← hcanonical, ← @List.take_append_of_le_length _ _ after _ hcount, hrest,
    List.take_append_of_le_length hcut]

/-- A reader accepts a file of an unmistakable validator only with that validator. -/
theorem readFile_unmistakable (hfile : file <+: chunkFile order source' index' payload)
    (hname : chunkFileName source index = chunkFileName source' index')
    (hpayload : payload.length < 2 ^ 32) (hun : source'.validator.Unmistakable)
    (h : (readFile order chunkSize source index file dest).1.status = .ok) :
    source'.validator = source.validator ∧ index' = index ∧
      readFile order chunkSize source index file dest =
        (⟨.ok, UInt32.ofNat payload.length⟩, payload ++ dest.drop payload.length) := by
  obtain ⟨htotal, hcut⟩ := readFile_prefix_validator hfile h
  by_cases hshort : (canonicalValidator source'.validator).length < 2 ^ 32
  · obtain ⟨hmatch, -, -, hread⟩ := readFile_prefix hfile hpayload hshort h
    obtain ⟨hetag, hlast⟩ := (hun.plain hshort).fields_eq hmatch.validator.symm
    exact ⟨SourceValidator.ext hetag.symm hlast.symm htotal.symm, hmatch.index.symm, hread⟩
  · have hhash := (chunkFileName_eq_iff.mp hname).2.1
    exact absurd hhash (hun.cut (not_lt.mp hshort) _ htotal hcut)

/-! ## Runs of publishes -/

/-- The cache directory and the publishes that have succeeded in it. -/
structure Cache where
  directory : Directory
  history : List PublishCall

/-- One publish into the directory. -/
def Cache.publish (order : ByteOrder) (chunkSize : UInt32) (cache : Cache)
    (a : PublishCall × PublishIo) : Option Cache :=
  let result := publishChunk order chunkSize a.1 a.2 cache.directory
  some ⟨result.2, if result.1 = .ok then a.1 :: cache.history else cache.history⟩

/-- A publish for some URL, under a validator that is not mistaken. -/
structure Certain (url : Bytes) (a : PublishCall × PublishIo) : Prop where
  url : a.1.source.url = url
  unmistakable : a.1.source.validator.Unmistakable

/-- Every chunk file of the URL is one that a publish has written, or the part of it that
reached the disk. -/
def Recorded (order : ByteOrder) (chunkSize : UInt32) (url : Bytes) (cache : Cache) : Prop :=
  ∀ source index file, source.url = url →
    cache.directory.read (chunkFileName source index) = some file →
    ∃ call ∈ cache.history, call.source.validator.Unmistakable ∧
      call.payload.length ≤ chunkSize.toNat ∧ chunkFileName source index = call.final ∧
      file <+: call.whole order

theorem Recorded.step {cache cache' : Cache} {a : PublishCall × PublishIo}
    (h : Recorded order chunkSize url cache) (ha : Certain url a)
    (hstep : cache.publish order chunkSize a = some cache') :
    Recorded order chunkSize url cache' := by
  have hcache := Option.some.inj hstep
  intro source index file hurl hread
  have htemp : chunkFileName source index ≠ a.1.temp := chunkFileName_ne_temp source index a.1
  by_cases hok : (publishChunk order chunkSize a.1 a.2 cache.directory).1 = .ok
  · rw [if_pos hok] at hcache
    obtain ⟨hsize, -, ⟨written, hwritten, hbegins, -⟩, -, hothers⟩ :=
      publishChunk_ok (Prod.ext hok rfl)
    rw [← hcache] at hread ⊢
    by_cases hfinal : chunkFileName source index = a.1.final
    · have hfile : written = file := by
        rw [hfinal] at hread
        exact Option.some.inj (hwritten.symm.trans hread)
      rw [hfile] at hbegins
      exact ⟨a.1, List.mem_cons_self, ha.unmistakable, hsize, hfinal, hbegins⟩
    · have hread : cache.directory.read (chunkFileName source index) = some file :=
        (hothers _ htemp hfinal).symm.trans hread
      obtain ⟨call, hmem, hcall⟩ := h source index file hurl hread
      exact ⟨call, List.mem_cons_of_mem _ hmem, hcall⟩
  · rw [if_neg hok] at hcache
    rw [← hcache] at hread ⊢
    have hread : cache.directory.read (chunkFileName source index) = some file :=
      ((publishChunk_failed rfl hok).1 _ htemp).symm.trans hread
    exact h source index file hurl hread

/-- What a reader is served was published under its validator and index. -/
theorem served_provenance {start : Directory}
    (hstart : ∀ source index, source.url = url → start.read (chunkFileName source index) = none)
    {cache : Cache}
    (hs : Reaches (Cache.publish order chunkSize) (fun _ a => Certain url a) ⟨start, []⟩ cache)
    (hurl : source.url = url)
    (hok : (readChunk order chunkSize cache.directory source index dest).1.status = .ok) :
    ∃ call ∈ cache.history, call.source.validator = source.validator ∧ call.index = index ∧
      readChunk order chunkSize cache.directory source index dest =
        (⟨.ok, UInt32.ofNat call.payload.length⟩, call.payload ++ dest.drop call.payload.length) := by
  have hrecorded : Recorded order chunkSize url cache := by
    refine hs.invariant ?_ fun _ _ _ hinv ha hstep => hinv.step ha hstep
    intro source index file hurl hread
    rw [hstart source index hurl] at hread
    cases hread
  cases hread : cache.directory.read (chunkFileName source index) with
  | none =>
      rw [readChunk, hread] at hok
      cases hok
  | some file =>
      rw [readChunk_of_read hread] at hok ⊢
      obtain ⟨call, hmem, hun, hsize, hname, hbegins⟩ := hrecorded source index file hurl hread
      exact ⟨call, hmem,
        readFile_unmistakable hbegins hname (lt_of_le_of_lt hsize chunkSize.toNat_lt) hun hok⟩

/-! ## Two validators with one canonical form -/

/-- What has just been published is served under every matching identity. -/
theorem readChunk_published (order : ByteOrder) (chunkSize : UInt32) (cache : Cache)
    (call : PublishCall) (source : SourceIdentity) (dest : Bytes)
    (hmatch : Matches source call.source index call.index)
    (hshort : (canonicalValidator call.source.validator).length < 2 ^ 32)
    (hsize : call.payload.length ≤ chunkSize.toNat) (hdest : call.payload.length ≤ dest.length) :
    ∃ cache', cache.publish order chunkSize (call, {}) = some cache' ∧
      cache'.history = call :: cache.history ∧
      readChunk order chunkSize cache'.directory source index dest =
        (⟨.ok, UInt32.ofNat call.payload.length⟩, call.payload ++ dest.drop call.payload.length) := by
  obtain ⟨hok, hread⟩ := publishChunk_undisturbed order cache.directory hsize
  have hname : chunkFileName source index = call.final := by
    rw [PublishCall.final, chunkFileName_eq_iff, hmatch.validator]
    exact ⟨hmatch.url, rfl, hmatch.index⟩
  rw [← hname] at hread
  refine ⟨_, rfl, if_pos hok, ?_⟩
  rw [readChunk_of_read hread]
  exact readFile_chunkFile hmatch hshort hsize hdest

/-- One byte published under some entity tag and modification date. -/
def taggedByte (etag lastModified : Bytes) : PublishCall where
  source := ⟨ascii "u", ⟨etag, lastModified, 1⟩⟩
  index := 0
  payload := [7]
  nonce := 0
  counter := 0

/-- A byte published under a plain validator is served with that validator. -/
theorem served_provenance_plain : ∃ cache : Cache,
    Reaches (Cache.publish .little 1) (fun _ a => Certain (ascii "u") a) ⟨Disk.empty _, []⟩ cache ∧
      ∃ call ∈ cache.history, call.source.validator = (taggedByte (ascii "x") []).source.validator ∧
        call.index = 0 ∧
        readChunk .little 1 cache.directory (taggedByte (ascii "x") []).source 0 [0] =
          (⟨.ok, UInt32.ofNat call.payload.length⟩, call.payload ++ [0].drop call.payload.length) := by
  obtain ⟨cache, hstep, -, hread⟩ := readChunk_published .little 1 ⟨Disk.empty _, []⟩
    (taggedByte (ascii "x") []) (taggedByte (ascii "x") []).source [0] ⟨rfl, rfl, rfl, rfl⟩
    (by decide) (by decide) (by decide)
  have hs : Reaches (Cache.publish .little 1) (fun _ a => Certain (ascii "u") a)
      ⟨Disk.empty _, []⟩ cache :=
    .step .start ⟨rfl, fun _ => ⟨by decide, by decide⟩, fun hlong => absurd hlong (by decide)⟩ hstep
  exact ⟨cache, hs, served_provenance (fun _ _ _ => rfl) hs rfl (congrArg (fun r => r.1.status) hread)⟩

/-- A byte published under one validator and served under another. -/
theorem served_other_validator : ∃ cache : Cache,
    Reaches (Cache.publish .little 1) (fun _ a => a.1.source.url = ascii "u")
        ⟨Disk.empty _, []⟩ cache ∧
      (readChunk .little 1 cache.directory (taggedByte (ascii "x|L:y") (ascii "z")).source 0
        [0]).1.status = .ok ∧
      ∀ call ∈ cache.history,
        call.source.validator ≠ (taggedByte (ascii "x|L:y") (ascii "z")).source.validator := by
  obtain ⟨cache, hstep, hhistory, hread⟩ := readChunk_published .little 1 ⟨Disk.empty _, []⟩
    (taggedByte (ascii "x") (ascii "y|L:z")) (taggedByte (ascii "x|L:y") (ascii "z")).source [0]
    ⟨rfl, rfl, rfl, by decide⟩ (by decide) (by decide) (by decide)
  refine ⟨cache, .step .start rfl hstep, congrArg (fun r => r.1.status) hread, fun call hmem => ?_⟩
  rw [hhistory, List.mem_singleton] at hmem
  rw [hmem]
  decide

end TieredCache.Remote
