/-
# Validated bytes

What a mirror publishes over HTTP: the body of one response, whose version has passed the
tests of `fetch_once`.  Those tests are skipped for an identity without an etag and a
modification time.
-/

import TieredCache.Remote.MirrorReads
import TieredCache.Remote.Packets

namespace TieredCache.Remote

open Math Math.Slices Math.Words

variable {m : Mirror} {http : Http1RangeTransport} {attempts : ℕ → Attempt} {index : UInt32}
  {payload dest : Bytes} {request : RangeFetchRequest} {left retries : ℕ}

/-! ## What is published -/

/-- The bytes a mirror publishes for a chunk, where it publishes any. -/
def Mirror.toPublish (m : Mirror) (transport : RangeTransport) (index : UInt32) : Option Bytes :=
  let length := chunkLen m.source.validator.totalSize m.chunkSize index
  let fetched := transport (m.fetchRequest index length)
  if Mirror.fetchStatus length fetched.1 = .ok then some fetched.2 else none

/-- A chunk is published with these bytes, or not at all. -/
theorem fetchAndPublish_eq (order : ByteOrder) (around : Surroundings) (index : UInt32)
    (s : MirrorState) :
    ∃ stats, m.fetchAndPublish order around index
        (chunkLen m.source.validator.totalSize m.chunkSize index) s =
      match m.toPublish around.transport index with
      | some payload => m.publish order around.io index payload { s with stats := stats }
      | none =>
          (Mirror.fetchStatus (chunkLen m.source.validator.totalSize m.chunkSize index)
            (around.transport (m.fetchRequest index
              (chunkLen m.source.validator.totalSize m.chunkSize index))).1,
            { s with stats := stats }) := by
  refine ⟨s.stats.recordFetch (around.transport (m.fetchRequest index
    (chunkLen m.source.validator.totalSize m.chunkSize index))).1, ?_⟩
  unfold Mirror.fetchAndPublish Mirror.toPublish
  dsimp only
  by_cases hok : Mirror.fetchStatus (chunkLen m.source.validator.totalSize m.chunkSize index)
      (around.transport (m.fetchRequest index
        (chunkLen m.source.validator.totalSize m.chunkSize index))).1 = .ok
  · rw [if_neg (not_not.mpr hok), if_pos hok]
  · rw [if_pos hok, if_neg hok]

/-! ## Where the bytes come from -/

/-- A response: the version its head tells of, and bytes of its body. -/
def Attempt.Carries (attempt : Attempt) (observed : SourceValidator) (payload : Bytes) : Prop :=
  ∃ stop first last, Text.find headEnd attempt.stream = some stop ∧
    parseContentRange (parseResponseHead attempt.stream).1.contentRange =
      some (first, last, observed.totalSize) ∧
    observed.etag = (parseResponseHead attempt.stream).1.etag ∧
    observed.lastModified = (parseResponseHead attempt.stream).1.lastModified ∧
    payload = (attempt.stream.drop (stop + 4)).take payload.length

/-- A version meets an identity: the sizes agree, and the etags, or without an etag the times
of modification. -/
def Meets (identity observed : SourceValidator) : Prop :=
  observed.totalSize = identity.totalSize ∧
    (identity.etag ≠ [] ∧ observed.etag = identity.etag ∨
      identity.etag = [] ∧ identity.lastModified ≠ [] ∧
        observed.lastModified = identity.lastModified)

/-- Every chunk published was received whole in a response that meets the identity. -/
def OnlyValidated (m : Mirror) (http : Http1RangeTransport) : Prop :=
  ∀ (attempts : ℕ → Attempt) (index : UInt32) (payload : Bytes),
    index.toNat * m.chunkSize.toNat < m.source.validator.totalSize.toNat →
    m.toPublish (http.fetchRange attempts) index = some payload →
    let length := chunkLen m.source.validator.totalSize m.chunkSize index
    let reported := (http.fetchRange attempts (m.fetchRequest index length)).1
    (payload.length = length.toNat ∧ reported.status = .ok ∧ reported.bytes = length) ∧
      ∃ n observed, (attempts n).Carries observed payload ∧ Meets m.source.validator observed

/-! ## Retries -/

/-- One attempt of a fetch, and the others. -/
theorem fetchLoop_eq (attempts : ℕ → Attempt) (request : RangeFetchRequest) (left retries : ℕ)
    (dest : Bytes) :
    fetchLoop attempts request left retries dest =
      let once := fetchOnce (attempts retries) { request with destination := dest }
      let result := { once.1 with retries := UInt32.ofNat retries }
      if once.1.status = .ok ∨ !once.1.status.isTransient then (result, once.2)
      else
        match left with
        | 0 =>
            (if 0 < retries then { result with status := .retriesExhausted } else result, once.2)
        | left + 1 => fetchLoop attempts request left (retries + 1) once.2 := by
  cases left <;> rfl

/-- A fetch that is ok ends with an attempt that is. -/
theorem fetchLoop_ok (hdest : dest.length = request.length.toNat)
    (hok : (fetchLoop attempts request left retries dest).1.status = .ok) :
    ∃ n dest', dest'.length = request.length.toNat ∧
      (fetchOnce (attempts n) { request with destination := dest' }).1.status = .ok ∧
      (fetchLoop attempts request left retries dest).1.bytes =
        (fetchOnce (attempts n) { request with destination := dest' }).1.bytes ∧
      (fetchLoop attempts request left retries dest).2 =
        (fetchOnce (attempts n) { request with destination := dest' }).2 := by
  induction left generalizing retries dest with
  | zero =>
      rw [fetchLoop_eq] at hok ⊢
      dsimp only at hok ⊢
      split_ifs at hok ⊢ with hstop hretried
      · exact ⟨retries, dest, hdest, hok, rfl, rfl⟩
      · exact absurd (Or.inl hok) hstop
  | succ left ih =>
      rw [fetchLoop_eq] at hok ⊢
      dsimp only at hok ⊢
      split_ifs at hok ⊢ with hstop
      · exact ⟨retries, dest, hdest, hok, rfl, rfl⟩
      · exact ih (length_fetchOnce (attempts retries) hdest) hok

theorem fetchStatus_eq_ok {length : UInt64} {result : FetchRangeResult} :
    Mirror.fetchStatus length result = .ok ↔ result.status = .ok ∧ result.bytes = length := by
  unfold Mirror.fetchStatus
  split_ifs with hstatus hbytes
  · exact ⟨fun hok => absurd hok hstatus, fun hok => absurd hok.1 hstatus⟩
  · exact ⟨nofun, fun hok => absurd hok.2 hbytes⟩
  · exact ⟨fun _ => ⟨not_not.mp hstatus, not_not.mp hbytes⟩, fun _ => rfl⟩

/-- The bytes published are the body of one response whose version passes the tests. -/
theorem toPublish_carried (h : m.toPublish (http.fetchRange attempts) index = some payload) :
    (payload.length = (chunkLen m.source.validator.totalSize m.chunkSize index).toNat ∧
      (http.fetchRange attempts (m.fetchRequest index
        (chunkLen m.source.validator.totalSize m.chunkSize index))).1.status = .ok ∧
      (http.fetchRange attempts (m.fetchRequest index
        (chunkLen m.source.validator.totalSize m.chunkSize index))).1.bytes =
          chunkLen m.source.validator.totalSize m.chunkSize index) ∧
      ∃ n observed, (attempts n).Carries observed payload ∧
        Passes m.source.validator observed := by
  unfold Mirror.toPublish at h
  dsimp only at h
  split_ifs at h with hok
  obtain ⟨hstatus, hbytes⟩ := fetchStatus_eq_ok.mp hok
  cases h
  generalize hrequest : m.fetchRequest index
    (chunkLen m.source.validator.totalSize m.chunkSize index) = request at *
  have hlength : request.length = chunkLen m.source.validator.totalSize m.chunkSize index := by
    rw [← hrequest]
    rfl
  have hexpected : request.expected = m.source.validator := by
    rw [← hrequest]
    rfl
  have hdest : request.destination.length = request.length.toNat := by
    rw [← hrequest]
    exact List.length_replicate
  unfold Http1RangeTransport.fetchRange at hstatus hbytes ⊢
  split_ifs at hstatus hbytes ⊢
  obtain ⟨n, dest, hkept, honce, hcount, hsame⟩ := fetchLoop_ok hdest hstatus
  obtain ⟨stop, observed, hfind, hcheck, -, -, hbody, hdest'⟩ := fetchOnce_ok hkept honce
  obtain ⟨-, total, hparse, hobserved, hpasses⟩ := checkHead_eq_ok.mp hcheck
  have hpayload : (((attempts n).stream.drop (stop + 4)).take request.length.toNat).length =
      request.length.toNat := by
    rw [List.length_take]
    exact Nat.min_eq_left hbody
  rw [hsame, hdest']
  refine ⟨⟨hpayload.trans (by rw [hlength]), hstatus, hbytes⟩, n, observed, ?_, hexpected ▸ hpasses⟩
  rw [hobserved]
  exact ⟨stop, _, _, hfind, hparse, rfl, rfl, by rw [hpayload]⟩

/-- A version that passes the tests meets an identity there is. -/
theorem Passes.meets {identity observed : SourceValidator} (h : Passes identity observed)
    (hidentity : identity.hasIdentity = true) (hsize : identity.totalSize ≠ 0) :
    Meets identity observed := by
  refine ⟨h.1.resolve_left hsize, (h.2 hidentity).imp (fun hetag => ⟨hetag.1, hetag.2.symm⟩)
    fun hmodified => ⟨hmodified.1, hmodified.2.1, hmodified.2.2.symm⟩⟩

/-! ## An identity that nothing tells apart -/

/-- A server that answers a request for the first bytes of a source of some size. -/
def zeros (total length : UInt64) : Bytes :=
  writeHead (rangeLines 0 (0 + length - 1) total length) ++ List.replicate length.toNat 0

/-- Every attempt meets that server. -/
def zeroAttempts (total length : UInt64) : ℕ → Attempt := fun _ =>
  { stream := zeros total length, cuts := List.replicate (zeros total length).length 1 }

theorem handedOut_replicate (n : ℕ) : handedOut (List.replicate n 1) = n := by
  simp [handedOut, recvSize]

theorem length_rangeHead_le (first last total length : UInt64) :
    (writeHead (rangeLines first last total length)).length ≤ 2 ^ 10 := by
  have hfirst := length_decimal_le first
  have hlast := length_decimal_le last
  have htotal := length_decimal_le total
  have hlength := length_decimal_le length
  have hunit : (ascii "bytes ").length = 6 := by decide
  have hstatus : (ascii "HTTP/1.1 206 Partial Content").length = 28 := by decide
  have hrange : (ascii "Content-Range").length = 13 := by decide
  have hcount : (ascii "Content-Length").length = 14 := by decide
  simp only [rangeLines, writeHead, rangeValue, headEnd, List.length_append, List.length_cons,
    List.length_nil]
  omega

/-- An attempt that meets the server receives the bytes asked for. -/
theorem fetchOnce_zeros {total length : UInt64} {n : ℕ} (hoffset : request.offset = 0)
    (hlength : request.length = length) (hdest : request.destination.length = request.length.toNat)
    (hsmall : length.toNat < 2 ^ 63) (hpasses : Passes request.expected ⟨[], [], total⟩) :
    (fetchOnce (zeroAttempts total length n) request).1.status = .ok ∧
      (fetchOnce (zeroAttempts total length n) request).1.bytes = request.length := by
  obtain ⟨hfind, hparse⟩ := parseResponseHead_rangeLines 0 (0 + length - 1) total length hsmall
    (List.replicate length.toNat 0)
  have hhead := length_rangeHead_le 0 (0 + length - 1) total length
  generalize hlines : writeHead (rangeLines 0 (0 + length - 1) total length) = head at *
  have hlong : 4 ≤ head.length := by
    have hstart := (parseResponseHead_take hfind le_rfl).2
    rw [hparse] at hstart
    dsimp only at hstart
    omega
  have hdelivers : (zeroAttempts total length n).Delivers (head ++ List.replicate length.toNat 0) := by
    refine ⟨rfl, rfl, ?_, rfl, ?_⟩
    · rw [zeroAttempts, zeros, hlines]
    · rw [zeroAttempts, zeros, hlines, handedOut_replicate]
  have hcheck : checkHead request (parseResponseHead (head ++ List.replicate length.toNat 0)).1 =
      .ok ⟨[], [], total⟩ := by
    rw [hparse]
    refine checkHead_eq_ok.mpr ⟨⟨rfl, rfl, rfl, ?_, ?_⟩, total, ?_, rfl, hpasses⟩
    · exact List.append_ne_nil_of_left_ne_nil (by decide) _
    · have hlt := length.toNat_lt
      have hmod : ((length.toNat : ℤ) % 2 ^ 64).toNat = length.toNat := by omega
      rw [hlength, UInt64.ofInt, hmod, UInt64.ofNat_toNat]
    · rw [hoffset, hlength]
      exact parseContentRange_rangeValue ..
  have hbody : ((head ++ List.replicate length.toNat 0).drop (head.length - 4 + 4)).take
      request.length.toNat = List.replicate length.toNat 0 := by
    rw [Nat.sub_add_cancel hlong, List.drop_left, hlength, List.take_of_length_le (by simp)]
  rw [fetchOnce_delivered hdelivers hfind (by omega) hdest, wholeResponse, hcheck]
  dsimp only
  rw [hbody, List.length_replicate, hlength, if_neg (Nat.lt_irrefl _), UInt64.ofNat_toNat]
  exact ⟨rfl, rfl⟩

/-- Without an identity the bytes of such a response are published. -/
theorem toPublish_zeros (hvalid : m.valid = true) (hhttp : http.url.valid = true)
    (hidentity : m.source.validator.hasIdentity = false)
    (hsize : m.source.validator.totalSize ≠ 0) :
    ∃ payload, m.toPublish (http.fetchRange (zeroAttempts m.source.validator.totalSize
      (chunkLen m.source.validator.totalSize m.chunkSize 0))) 0 = some payload := by
  have hstart : chunkStart m.chunkSize 0 = 0 := UInt64.zero_mul
  have hlength : (chunkLen m.source.validator.totalSize m.chunkSize 0).toNat =
      min m.chunkSize.toNat m.source.validator.totalSize.toNat := by
    rw [chunkLen, hstart, UInt64.sub_zero, toNat_min, UInt32.toNat_toUInt64]
  have hpos : 0 < m.chunkSize.toNat := by
    unfold Mirror.valid at hvalid
    rw [Bool.and_eq_true, Bool.and_eq_true, decide_eq_true_eq] at hvalid
    exact UInt32.lt_iff_toNat_lt.mp hvalid.1.2
  have hsize' : 0 < m.source.validator.totalSize.toNat :=
    Nat.pos_of_ne_zero fun hzero => hsize (UInt64.toNat.inj hzero)
  have hsmall := m.chunkSize.toNat_lt
  obtain ⟨hstatus, hbytes⟩ := @fetchOnce_zeros (m.fetchRequest 0
    (chunkLen m.source.validator.totalSize m.chunkSize 0)) m.source.validator.totalSize
    (chunkLen m.source.validator.totalSize m.chunkSize 0) 0 hstart rfl List.length_replicate
    (by omega) ⟨Or.inr rfl, by simp [Mirror.fetchRequest, hidentity]⟩
  have hne : chunkLen m.source.validator.totalSize m.chunkSize 0 ≠ 0 := by
    intro hzero
    rw [hzero, UInt64.toNat_zero] at hlength
    omega
  unfold Mirror.toPublish
  generalize zeroAttempts m.source.validator.totalSize
    (chunkLen m.source.validator.totalSize m.chunkSize 0) = attempts at *
  have hdest : (m.fetchRequest 0 (chunkLen m.source.validator.totalSize m.chunkSize 0)).destination.length
      = (m.fetchRequest 0 (chunkLen m.source.validator.totalSize m.chunkSize 0)).length.toNat :=
    List.length_replicate
  have hcount : (m.fetchRequest 0 (chunkLen m.source.validator.totalSize m.chunkSize 0)).length =
      chunkLen m.source.validator.totalSize m.chunkSize 0 := rfl
  dsimp only
  generalize m.fetchRequest 0 (chunkLen m.source.validator.totalSize m.chunkSize 0) = request at *
  have hfetch : (http.fetchRange attempts request).1.status = .ok ∧
      (http.fetchRange attempts request).1.bytes =
        chunkLen m.source.validator.totalSize m.chunkSize 0 := by
    unfold Http1RangeTransport.fetchRange
    rw [hhttp, if_neg (by simp), if_neg (by rw [hcount]; exact not_or.mpr ⟨hne, not_not.mpr (hcount ▸ hdest)⟩),
      fetchLoop_eq]
    dsimp only
    rw [if_pos (Or.inl hstatus)]
    exact ⟨hstatus, hbytes.trans hcount⟩
  rw [if_pos (fetchStatus_eq_ok.mpr hfetch)]
  exact ⟨_, rfl⟩

/-- Bytes that meet no identity are published. -/
theorem not_onlyValidated (hvalid : m.valid = true) (hhttp : http.url.valid = true)
    (hidentity : m.source.validator.hasIdentity = false)
    (hsize : m.source.validator.totalSize ≠ 0) : ¬ OnlyValidated m http := by
  intro honly
  obtain ⟨payload, hpublish⟩ := toPublish_zeros hvalid hhttp hidentity hsize
  have hinside : (0 : UInt32).toNat * m.chunkSize.toNat < m.source.validator.totalSize.toNat := by
    rw [UInt32.toNat_zero, Nat.zero_mul]
    exact Nat.pos_of_ne_zero fun hzero => hsize (UInt64.toNat.inj hzero)
  obtain ⟨-, n, observed, -, hmeets⟩ := honly _ 0 payload hinside hpublish
  have hempty : m.source.validator.etag = [] ∧ m.source.validator.lastModified = [] := by
    simpa [SourceValidator.hasIdentity] using hidentity
  rcases hmeets.2 with hetag | hmodified
  · exact hetag.1 hempty.1
  · exact hmodified.2.1 hempty.2

/-- A mirror publishes only what has been validated, if and only if its identity has an etag
or a modification time, or nothing can be fetched. -/
theorem only_validated_iff (m : Mirror) (http : Http1RangeTransport) (hvalid : m.valid = true) :
    OnlyValidated m http ↔ m.source.validator.hasIdentity = true ∨
      m.source.validator.totalSize = 0 ∨ http.url.valid = false := by
  constructor
  · intro honly
    by_contra hnone
    obtain ⟨hidentity, hsize, hhttp⟩ : m.source.validator.hasIdentity = false ∧
        m.source.validator.totalSize ≠ 0 ∧ http.url.valid = true := by simpa using hnone
    exact not_onlyValidated hvalid hhttp hidentity hsize honly
  · rintro hcases attempts index payload hinside hpublish
    obtain ⟨hreported, n, observed, hcarries, hpasses⟩ := toPublish_carried hpublish
    refine ⟨hreported, n, observed, hcarries, ?_⟩
    have hsize : m.source.validator.totalSize ≠ 0 := by
      intro hzero
      rw [hzero] at hinside
      exact absurd hinside (Nat.not_lt_zero _)
    rcases hcases with hidentity | hzero | hhttp
    · exact hpasses.meets hidentity hsize
    · exact absurd hzero hsize
    · have hstatus := hreported.2.1
      unfold Http1RangeTransport.fetchRange at hstatus
      rw [hhttp, if_pos (by simp)] at hstatus
      cases hstatus

/-- A mirror of one byte, registered under some etag. -/
def oneByteMirror (etag : Bytes) : Mirror :=
  ⟨⟨ascii "http://h/a", ⟨etag, [], 1⟩⟩, 1, true, 0⟩

theorem only_validated_tagged :
    OnlyValidated (oneByteMirror (ascii "x")) ⟨parseHttpUrl (ascii "http://h/a"), 3⟩ :=
  (only_validated_iff (oneByteMirror (ascii "x")) _ (by decide)).mpr (Or.inl (by decide))

/-- Without an etag and a modification time the byte is published unvalidated. -/
theorem unvalidated_published :
    ¬ OnlyValidated (oneByteMirror []) ⟨parseHttpUrl (ascii "http://h/a"), 3⟩ :=
  not_onlyValidated (by decide) (by decide) (by decide) (by decide)

end TieredCache.Remote
