/-
# The grammar of range responses

What `parse_content_range` and the checks of a head accept, beside what they are there to
accept: numbers are read from the start of a text, and what follows them is not looked at.
-/

import TieredCache.Remote.HttpText

namespace TieredCache.Remote

open Math Math.Digits Math.Slices

variable {text part value : Bytes} {first last total word : UInt64} {request : RangeFetchRequest}
  {lines : List Bytes} {out : ParsedHeaders}

/-! ## Numbers -/

/-- A text of decimal digits. -/
def DigitString (text : Bytes) : Prop := text ≠ [] ∧ ∀ b ∈ text, digitValue b ≠ none

instance (text : Bytes) : Decidable (DigitString text) := inferInstanceAs (Decidable (_ ∧ _))

/-- The number written in the digits a text starts with. -/
def numberOf (text : Bytes) : ℕ := Digits.value 10 (leadingDigits text)

theorem leadingNumber_eq_some {limit n : ℕ} :
    leadingNumber limit text = some n ↔
      leadingDigits text ≠ [] ∧ numberOf text < limit ∧ numberOf text = n := by
  unfold leadingNumber numberOf
  cases leadingDigits text with
  | nil => simp
  | cons digit digits => simp

theorem DigitString.leadingDigits_ne (h : DigitString text) : leadingDigits text ≠ [] := by
  obtain ⟨b, rest, rfl⟩ := List.exists_cons_of_ne_nil h.1
  obtain ⟨digit, hdigit⟩ := Option.ne_none_iff_exists'.mp (h.2 b List.mem_cons_self)
  rw [leadingDigits, hdigit]
  exact List.cons_ne_nil _ _

theorem fromCharsU64_eq_some :
    fromCharsU64 text = some word ↔ leadingDigits text ≠ [] ∧ numberOf text = word.toNat := by
  rw [fromCharsU64, Option.map_eq_some_iff]
  constructor
  · rintro ⟨n, hn, rfl⟩
    obtain ⟨hdigits, hlt, rfl⟩ := leadingNumber_eq_some.mp hn
    exact ⟨hdigits, (UInt64.toNat_ofNat_of_lt hlt).symm⟩
  · rintro ⟨hdigits, hvalue⟩
    exact ⟨word.toNat, leadingNumber_eq_some.mpr ⟨hdigits, hvalue ▸ word.toNat_lt, hvalue⟩,
      UInt64.ofNat_toNat⟩

/-- A digit string is read as the number it writes. -/
theorem DigitString.fromCharsU64_iff (h : DigitString text) :
    fromCharsU64 text = some word ↔ numberOf text = word.toNat := by
  rw [fromCharsU64_eq_some, and_iff_right h.leadingDigits_ne]

theorem DigitString.not_mem (h : DigitString text) {b : UInt8} (hb : digitValue b = none) :
    b ∉ text := fun hmem => h.2 b hmem hb

/-! ## Content-Range -/

/-- Three parts of a text after the unit: up to the first dash, up to the slash, the rest. -/
def Parts (text start stop size : Bytes) : Prop :=
  text = ascii "bytes " ++ (start ++ 0x2D :: (stop ++ 0x2F :: size)) ∧
    0x2D ∉ start ∧ 0x2F ∉ start ∧ 0x2F ∉ stop

/-- The one form of a Content-Range: `bytes first-last/total`. -/
def RangeGrammar (text : Bytes) (first last total : UInt64) : Prop :=
  ∃ start stop size, text = ascii "bytes " ++ (start ++ 0x2D :: (stop ++ 0x2F :: size)) ∧
    (DigitString start ∧ numberOf start = first.toNat) ∧
    (DigitString stop ∧ numberOf stop = last.toNat) ∧
    DigitString size ∧ numberOf size = total.toNat

/-- Whenever three numbers can be read from the parts of a text, they are all there is. -/
def NothingAfterNumbers (text : Bytes) : Prop :=
  ∀ start stop size, Parts text start stop size → (fromCharsU64 start).isSome →
    (fromCharsU64 stop).isSome → (fromCharsU64 size).isSome →
    DigitString start ∧ DigitString stop ∧ DigitString size

theorem Parts.unique {start stop size start' stop' size' : Bytes} (h : Parts text start stop size)
    (h' : Parts text start' stop' size') : start = start' ∧ stop = stop' ∧ size = size' := by
  obtain ⟨rfl, hstart, -, hstop⟩ := h
  obtain ⟨heq, hstart', -, hstop'⟩ := h'
  obtain ⟨rfl, hrest⟩ := append_separator_inj hstart hstart' (List.append_cancel_left heq)
  obtain ⟨rfl, rfl⟩ := append_separator_inj hstop hstop' hrest
  exact ⟨rfl, rfl, rfl⟩

/-- The parser takes the three parts apart and reads a number from the start of each. -/
theorem parseContentRange_eq_some :
    parseContentRange text = some (first, last, total) ↔
      ∃ start stop size, Parts text start stop size ∧ fromCharsU64 start = some first ∧
        fromCharsU64 stop = some last ∧ fromCharsU64 size = some total := by
  constructor
  · intro h
    have hunit : ∃ rest, text = ascii "bytes " ++ rest := by
      unfold parseContentRange at h
      dsimp only at h
      split_ifs at h with hunit
      exact ⟨text.drop (ascii "bytes ").length, by
        conv_lhs => rw [← List.take_append_drop (ascii "bytes ").length text, not_not.mp hunit]⟩
    obtain ⟨rest, rfl⟩ := hunit
    have hparts : ∃ start stop size, Parts (ascii "bytes " ++ rest) start stop size := by
      unfold parseContentRange at h
      dsimp only at h
      rw [List.take_left' rfl, if_neg (not_not.mpr rfl), List.drop_left' rfl] at h
      split at h
      · rename_i dash slash hdash hslash
        split_ifs at h with hlt
        obtain ⟨start, after, rfl, hstart, rfl⟩ := Text.find_singleton_eq_some.mp hdash
        obtain ⟨before, size, heq, hbefore, rfl⟩ := Text.find_singleton_eq_some.mp hslash
        rcases List.append_eq_append_iff.mp heq with ⟨middle, rfl, hmiddle⟩ | ⟨middle, rfl, hmiddle⟩
        · cases middle with
          | nil => exact absurd (List.head_eq_of_cons_eq hmiddle) (by decide)
          | cons b stop =>
              rw [List.cons_append] at hmiddle
              obtain ⟨rfl, rfl⟩ := List.cons_eq_cons.mp hmiddle
              rw [List.mem_append, List.mem_cons, not_or, not_or] at hbefore
              exact ⟨start, stop, size, rfl, hstart, hbefore.1, hbefore.2.2⟩
        · cases middle with
          | nil => exact absurd (List.head_eq_of_cons_eq hmiddle) (by decide)
          | cons b rest => simp at hlt
      · cases h
    obtain ⟨start, stop, size, hsplit⟩ := hparts
    refine ⟨start, stop, size, hsplit, ?_⟩
    obtain ⟨heq, hdash, hslash, hstop⟩ := hsplit
    rw [heq, parseContentRange_append hdash hslash hstop] at h
    obtain ⟨first', hfirst, h⟩ := Option.bind_eq_some_iff.mp h
    obtain ⟨last', hlast, h⟩ := Option.bind_eq_some_iff.mp h
    obtain ⟨total', htotal, h⟩ := Option.bind_eq_some_iff.mp h
    cases h
    exact ⟨hfirst, hlast, htotal⟩
  · rintro ⟨start, stop, size, ⟨rfl, hdash, hslash, hstop⟩, hfirst, hlast, htotal⟩
    rw [parseContentRange_append hdash hslash hstop, hfirst, hlast, htotal]
    rfl

theorem RangeGrammar.parts (h : RangeGrammar text first last total) :
    ∃ start stop size, Parts text start stop size ∧
      (DigitString start ∧ numberOf start = first.toNat) ∧
      (DigitString stop ∧ numberOf stop = last.toNat) ∧
      DigitString size ∧ numberOf size = total.toNat := by
  obtain ⟨start, stop, size, heq, hstart, hstop, hsize⟩ := h
  exact ⟨start, stop, size, ⟨heq, hstart.1.not_mem (by decide), hstart.1.not_mem (by decide),
    hstop.1.not_mem (by decide)⟩, hstart, hstop, hsize⟩

/-- What has the form is parsed to the numbers in it. -/
theorem RangeGrammar.parse (h : RangeGrammar text first last total) :
    parseContentRange text = some (first, last, total) := by
  obtain ⟨start, stop, size, hparts, hstart, hstop, hsize⟩ := h.parts
  exact parseContentRange_eq_some.mpr ⟨start, stop, size, hparts,
    hstart.1.fromCharsU64_iff.mpr hstart.2, hstop.1.fromCharsU64_iff.mpr hstop.2,
    hsize.1.fromCharsU64_iff.mpr hsize.2⟩

/-- What is parsed has the form, when nothing follows its numbers. -/
theorem NothingAfterNumbers.grammar (h : NothingAfterNumbers text)
    (hparse : parseContentRange text = some (first, last, total)) :
    RangeGrammar text first last total := by
  obtain ⟨start, stop, size, hparts, hfirst, hlast, htotal⟩ := parseContentRange_eq_some.mp hparse
  obtain ⟨hstart, hstop, hsize⟩ := h start stop size hparts (by rw [hfirst]; rfl)
    (by rw [hlast]; rfl) (by rw [htotal]; rfl)
  exact ⟨start, stop, size, hparts.1, ⟨hstart, hstart.fromCharsU64_iff.mp hfirst⟩,
    ⟨hstop, hstop.fromCharsU64_iff.mp hlast⟩, hsize, hsize.fromCharsU64_iff.mp htotal⟩

/-- In what has the form nothing follows the numbers. -/
theorem RangeGrammar.nothingAfter (h : RangeGrammar text first last total) :
    NothingAfterNumbers text := by
  intro start stop size hparts _ _ _
  obtain ⟨start', stop', size', hparts', hstart', hstop', hsize'⟩ := h.parts
  obtain ⟨rfl, rfl, rfl⟩ := hparts.unique hparts'
  exact ⟨hstart'.1, hstop'.1, hsize'.1⟩

theorem nothingAfterNumbers_of_grammar
    (h : ∀ first last total, parseContentRange text = some (first, last, total) →
      RangeGrammar text first last total) : NothingAfterNumbers text := by
  intro start stop size hparts hstart hstop hsize
  obtain ⟨first, hfirst⟩ := Option.isSome_iff_exists.mp hstart
  obtain ⟨last, hlast⟩ := Option.isSome_iff_exists.mp hstop
  obtain ⟨total, htotal⟩ := Option.isSome_iff_exists.mp hsize
  have hgrammar := h first last total
    (parseContentRange_eq_some.mpr ⟨start, stop, size, hparts, hfirst, hlast, htotal⟩)
  exact hgrammar.nothingAfter start stop size hparts hstart hstop hsize

/-! ## Heads -/

/-- The lines of a response head. -/
def headLines (text : Bytes) : List Bytes :=
  Text.lines 0x0D 0x0A (text.take ((Text.find headEnd text).getD text.length))

/-- The code in a status line: what stands between the first two blanks. -/
def statusToken (line : Bytes) : Option Bytes :=
  (Text.find (ascii " ") line).map fun sp1 =>
    (line.drop (sp1 + 1)).take
      ((Text.find (ascii " ") (line.drop (sp1 + 1))).getD (line.drop (sp1 + 1)).length)

/-- The value of a header line with some name. -/
def headerValue (name line : Bytes) : Option Bytes :=
  (Text.find (ascii ":") line).bind fun colon =>
    if headerNameIs (line.take colon) name then some (trim (line.drop (colon + 1))) else none

/-- The values of the header lines with some name. -/
def headerValues (name : Bytes) (lines : List Bytes) : List Bytes :=
  lines.filterMap (headerValue name)

/-- The lengths read from header lines. -/
def contentLengths (lines : List Bytes) : List ℤ :=
  (headerValues (ascii "Content-Length") lines).filterMap (fromCharsSigned (2 ^ 63))

/-- The last value there is, or what was there before. -/
def lastOr {α : Type} (values : List α) (before : α) : α := values.getLast?.getD before

theorem lastOr_append {α : Type} (values more : List α) (before : α) :
    lastOr (values ++ more) before = lastOr more (lastOr values before) := by
  unfold lastOr
  rw [List.getLast?_append]
  cases more.getLast? <;> rfl

theorem headerValues_cons (name line : Bytes) (lines : List Bytes) :
    headerValues name (line :: lines) = headerValues name [line] ++ headerValues name lines := by
  unfold headerValues
  rw [← List.filterMap_append, List.singleton_append]

theorem contentLengths_cons (line : Bytes) (lines : List Bytes) :
    contentLengths (line :: lines) = contentLengths [line] ++ contentLengths lines := by
  unfold contentLengths
  rw [headerValues_cons, List.filterMap_append]

/-- What header lines make of the fields: the last value of each name, and the last length
that could be read. -/
def applyLines (out : ParsedHeaders) (lines : List Bytes) : ParsedHeaders where
  statusCode := out.statusCode
  contentRange := lastOr (headerValues (ascii "Content-Range") lines) out.contentRange
  etag := lastOr (headerValues (ascii "ETag") lines) out.etag
  lastModified := lastOr (headerValues (ascii "Last-Modified") lines) out.lastModified
  transferEncoding := lastOr (headerValues (ascii "Transfer-Encoding") lines) out.transferEncoding
  contentLength := lastOr (contentLengths lines) out.contentLength
  hasContentLength := out.hasContentLength || !(contentLengths lines).isEmpty

/-- A name is for one field. -/
theorem headerNameIs_ne {name first second : Bytes} (h : headerNameIs name first = true)
    (hne : headerNameIs first second = false) : headerNameIs name second = false := by
  rw [← hne]
  unfold headerNameIs at *
  rw [of_decide_eq_true h]

/-- The value of a line with some name. -/
theorem headerValues_singleton {line name : Bytes} {colon : ℕ}
    (hcolon : Text.find (ascii ":") line = some colon) :
    headerValues name [line] =
      if headerNameIs (line.take colon) name then [trim (line.drop (colon + 1))] else [] := by
  rw [headerValues, List.filterMap_cons, headerValue, hcolon, Option.bind_some]
  split_ifs <;> rfl

theorem applyLines_singleton (out : ParsedHeaders) (line : Bytes) :
    applyLines out [line] = headerLine out line := by
  unfold headerLine
  cases hcolon : Text.find (ascii ":") line with
  | none => simp [applyLines, contentLengths, headerValues, headerValue, hcolon, lastOr]
  | some colon =>
      dsimp only
      rw [applyLines, contentLengths]
      simp only [headerValues_singleton hcolon]
      generalize line.take colon = name
      generalize trim (line.drop (colon + 1)) = value
      generalize 2 ^ 63 = magnitude
      cases hrange : headerNameIs name (ascii "Content-Range") with
      | true =>
          have hetag : headerNameIs name (ascii "ETag") = false :=
            headerNameIs_ne hrange (by decide)
          have hmodified : headerNameIs name (ascii "Last-Modified") = false :=
            headerNameIs_ne hrange (by decide)
          have hencoding : headerNameIs name (ascii "Transfer-Encoding") = false :=
            headerNameIs_ne hrange (by decide)
          have hlength : headerNameIs name (ascii "Content-Length") = false :=
            headerNameIs_ne hrange (by decide)
          simp [lastOr, hetag, hmodified, hencoding, hlength]
      | false =>
          cases hetag : headerNameIs name (ascii "ETag") with
          | true =>
              have hmodified : headerNameIs name (ascii "Last-Modified") = false :=
                headerNameIs_ne hetag (by decide)
              have hencoding : headerNameIs name (ascii "Transfer-Encoding") = false :=
                headerNameIs_ne hetag (by decide)
              have hlength : headerNameIs name (ascii "Content-Length") = false :=
                headerNameIs_ne hetag (by decide)
              simp [lastOr, hmodified, hencoding, hlength]
          | false =>
              cases hmodified : headerNameIs name (ascii "Last-Modified") with
              | true =>
                  have hencoding : headerNameIs name (ascii "Transfer-Encoding") = false :=
                    headerNameIs_ne hmodified (by decide)
                  have hlength : headerNameIs name (ascii "Content-Length") = false :=
                    headerNameIs_ne hmodified (by decide)
                  simp [lastOr, hencoding, hlength]
              | false =>
                  cases hencoding : headerNameIs name (ascii "Transfer-Encoding") with
                  | true =>
                      have hlength : headerNameIs name (ascii "Content-Length") = false :=
                        headerNameIs_ne hencoding (by decide)
                      simp [lastOr, hlength]
                  | false =>
                      cases hlength : headerNameIs name (ascii "Content-Length") with
                      | true =>
                          cases hvalue : fromCharsSigned magnitude value <;> simp [lastOr, hvalue]
                      | false =>
                          simp [lastOr]

/-- The fields of a head by the values of its lines. -/
theorem foldl_headerLine (out : ParsedHeaders) (lines : List Bytes) :
    lines.foldl headerLine out = applyLines out lines := by
  induction lines generalizing out with
  | nil => simp [applyLines, contentLengths, headerValues, lastOr]
  | cons line lines ih =>
      rw [List.foldl_cons, ih, ← applyLines_singleton]
      simp only [applyLines]
      simp only [contentLengths_cons line lines, headerValues_cons _ line lines, lastOr_append]
      cases contentLengths [line] <;> simp

/-- The headers of a response head, field by field. -/
theorem parseResponseHead_eq (text : Bytes) :
    (parseResponseHead text).1 =
      applyLines { statusCode := ((((headLines text).head?.bind statusToken).bind
        (fromCharsSigned (2 ^ 31))).getD 0) } (headLines text).tail := by
  unfold parseResponseHead headLines
  dsimp only
  cases Text.lines 0x0D 0x0A (text.take ((Text.find headEnd text).getD text.length)) with
  | nil => simp [applyLines, contentLengths, headerValues, lastOr]
  | cons line lines =>
      dsimp only [List.head?_cons, Option.bind_some, List.tail_cons]
      rw [foldl_headerLine]
      congr 1
      unfold statusLine statusToken
      cases Text.find (ascii " ") line <;> rfl

/-! ## What is accepted -/

/-- `fetch_once` goes on from a head to the body. -/
def Accepts (request : RangeFetchRequest) (head : Bytes) : Prop :=
  ∃ observed, checkHead request (parseResponseHead head).1 = .ok observed

/-- The values of every line of a head with some name. -/
def fieldValues (name head : Bytes) : List Bytes := headerValues name (headLines head).tail

/-- The fields of a head are what a response to a request has to say, and a field that has several
lines says it in each of them. -/
structure AnswersRequest (request : RangeFetchRequest) (head : Bytes) : Prop where
  status : (headLines head).head?.bind statusToken = some (ascii "206")
  encoding : ∀ value ∈ fieldValues (ascii "Transfer-Encoding") head, value = []
  length : fieldValues (ascii "Content-Length") head ≠ [] ∧
    ∀ value ∈ fieldValues (ascii "Content-Length") head,
      DigitString value ∧ numberOf value = request.length.toNat
  range : fieldValues (ascii "Content-Range") head ≠ [] ∧
    ∃ total, ∀ value ∈ fieldValues (ascii "Content-Range") head,
      RangeGrammar value request.offset (request.offset + request.length - 1) total

/-- The numbers at the start of the fields of a head are those of a request, and there is no
transfer encoding. -/
def NumbersMatch (request : RangeFetchRequest) (head : Bytes) : Prop :=
  ((headLines head).head?.bind statusToken).bind (fromCharsSigned (2 ^ 31)) = some 206 ∧
    lastOr (headerValues (ascii "Transfer-Encoding") (headLines head).tail) [] = [] ∧
    (∃ length, (contentLengths (headLines head).tail).getLast? = some length ∧
      UInt64.ofInt length = request.length) ∧
    ∃ value total, (headerValues (ascii "Content-Range") (headLines head).tail).getLast? =
      some value ∧ parseContentRange value =
        some (request.offset, request.offset + request.length - 1, total)

/-- The fields of a head hold the numbers read from them and nothing else, and no line of a field
says anything else than its last. -/
structure NumbersOnly (head : Bytes) : Prop where
  status : (headLines head).head?.bind statusToken = some (ascii "206")
  encoding : ∀ value ∈ fieldValues (ascii "Transfer-Encoding") head, value = []
  length : ∃ length, (contentLengths (headLines head).tail).getLast? = some length ∧
    ∀ value ∈ fieldValues (ascii "Content-Length") head,
      DigitString value ∧ numberOf value = (UInt64.ofInt length).toNat
  range : ∃ last, (fieldValues (ascii "Content-Range") head).getLast? = some last ∧
    ∀ value ∈ fieldValues (ascii "Content-Range") head,
      NothingAfterNumbers value ∧ parseContentRange value = parseContentRange last

theorem headers_fields (head : Bytes) :
    (parseResponseHead head).1.contentRange =
        lastOr (headerValues (ascii "Content-Range") (headLines head).tail) [] ∧
      (parseResponseHead head).1.transferEncoding =
        lastOr (headerValues (ascii "Transfer-Encoding") (headLines head).tail) [] ∧
      (parseResponseHead head).1.contentLength = lastOr (contentLengths (headLines head).tail) (-1) ∧
      (parseResponseHead head).1.hasContentLength = !(contentLengths (headLines head).tail).isEmpty ∧
      (parseResponseHead head).1.statusCode = (((headLines head).head?.bind statusToken).bind
        (fromCharsSigned (2 ^ 31))).getD 0 := by
  rw [parseResponseHead_eq]
  exact ⟨rfl, rfl, rfl, rfl, rfl⟩

/-- A head is accepted, whatever version is expected, by the numbers its fields start with. -/
theorem numbersMatch_of_accepts {head : Bytes} (h : Accepts request head) :
    NumbersMatch request head := by
  obtain ⟨observed, h⟩ := h
  obtain ⟨hrange, hencoding, hlength, hhas, hstatus⟩ := headers_fields head
  obtain ⟨⟨h206, hnone, hread, hvalue, hcount⟩, total, hparse, -, -⟩ := checkHead_eq_ok.mp h
  rw [hstatus] at h206
  rw [hencoding] at hnone
  rw [hhas] at hread
  rw [hrange] at hvalue hparse
  rw [hlength] at hcount
  refine ⟨?_, hnone, ?_, ?_⟩
  · cases hcode : ((headLines head).head?.bind statusToken).bind (fromCharsSigned (2 ^ 31)) with
    | none =>
        rw [hcode] at h206
        cases h206
    | some code =>
        rw [hcode] at h206
        exact congrArg some h206
  · cases hlast : (contentLengths (headLines head).tail).getLast? with
    | none =>
        rw [List.getLast?_eq_none_iff.mp hlast] at hread
        cases hread
    | some length =>
        rw [lastOr, hlast] at hcount
        exact ⟨length, rfl, hcount⟩
  · cases hlast : (headerValues (ascii "Content-Range") (headLines head).tail).getLast? with
    | none =>
        rw [lastOr, hlast] at hvalue
        exact absurd rfl hvalue
    | some value =>
        rw [lastOr, hlast] at hparse
        exact ⟨value, total, rfl, hparse⟩

theorem accepts_of_numbersMatch {head : Bytes} (h : NumbersMatch request head) :
    Accepts { request with expected := {} } head := by
  obtain ⟨hrange, hencoding, hlength, hhas, hstatus⟩ := headers_fields head
  obtain ⟨h206, hnone, ⟨length, hlast, hcount⟩, value, total, hvalue, hparse⟩ := h
  have hne : value ≠ [] := by
    rintro rfl
    rw [show parseContentRange [] = none by decide] at hparse
    cases hparse
  have hread : (contentLengths (headLines head).tail).isEmpty = false := by
    cases hempty : contentLengths (headLines head).tail with
    | nil =>
        rw [hempty] at hlast
        cases hlast
    | cons first others => rfl
  refine ⟨_, checkHead_eq_ok.mpr ⟨⟨?_, ?_, ?_, ?_, ?_⟩, total, ?_, rfl, Or.inl rfl, nofun⟩⟩
  · rw [hstatus, h206]
    rfl
  · rw [hencoding, hnone]
  · rw [hhas, hread]
    rfl
  · rw [hrange, lastOr, hvalue]
    exact hne
  · rw [hlength, lastOr, hlast]
    exact hcount
  · rw [hrange, lastOr, hvalue]
    exact hparse

/-- A length is read from one of the lines. -/
theorem fieldValues_length_ne {head : Bytes} {length : ℤ}
    (h : (contentLengths (headLines head).tail).getLast? = some length) :
    fieldValues (ascii "Content-Length") head ≠ [] := by
  intro hnone
  rw [contentLengths, show headerValues (ascii "Content-Length") (headLines head).tail = [] from
    hnone] at h
  cases h

/-- Numbers that match and stand alone answer the request. -/
theorem answersRequest_of_only {head : Bytes} (hmatch : NumbersMatch request head)
    (honly : NumbersOnly head) : AnswersRequest request head := by
  obtain ⟨-, -, ⟨length, hlast, hcount⟩, range, total, hrange, hparse⟩ := hmatch
  obtain ⟨length', hlast', hlengths⟩ := honly.length
  obtain ⟨range', hrange', hranges⟩ := honly.range
  rw [hlast] at hlast'
  cases hlast'
  have hsame : range' = range := Option.some.inj (hrange'.symm.trans hrange)
  subst hsame
  refine ⟨honly.status, honly.encoding, ⟨fieldValues_length_ne hlast, fun value hvalue => ?_⟩,
    List.ne_nil_of_mem (List.mem_of_getLast? hrange'), total, fun value hvalue => ?_⟩
  · obtain ⟨hdigits, hnumber⟩ := hlengths value hvalue
    exact ⟨hdigits, hnumber.trans (congrArg _ hcount)⟩
  · obtain ⟨hnothing, hsame⟩ := hranges value hvalue
    exact hnothing.grammar (hsame.trans hparse)

/-- What answers a request holds its numbers only. -/
theorem numbersOnly_of_answers {head : Bytes} (hmatch : NumbersMatch request head)
    (h : AnswersRequest request head) : NumbersOnly head := by
  obtain ⟨-, -, ⟨length, hlast, hcount⟩, range, total, hrange, hparse⟩ := hmatch
  obtain ⟨total', hranges⟩ := h.range.2
  refine ⟨h.status, h.encoding, ⟨length, hlast, fun value hvalue => ?_⟩, range, hrange,
    fun value hvalue => ?_⟩
  · obtain ⟨hdigits, hnumber⟩ := h.length.2 value hvalue
    exact ⟨hdigits, hnumber.trans (congrArg _ hcount.symm)⟩
  · have hgrammar := hranges value hvalue
    have hlastGrammar := hranges range (List.mem_of_getLast? hrange)
    exact ⟨hgrammar.nothingAfter, hgrammar.parse.trans hlastGrammar.parse.symm⟩

/-- The parser and the checks of a head accept exactly the documented grammar where, and only
where, nothing follows the numbers they read and no line of a field says another thing than the
line they read. -/
theorem range_grammar_iff (text : Bytes) (request : RangeFetchRequest) (head : Bytes) :
    ((∀ first last total, parseContentRange text = some (first, last, total) ↔
        RangeGrammar text first last total) ↔ NothingAfterNumbers text) ∧
      ((∀ expected, Accepts { request with expected := expected } head →
          AnswersRequest request head) ↔
        (NumbersMatch request head → NumbersOnly head)) := by
  constructor
  · constructor
    · intro h
      exact nothingAfterNumbers_of_grammar fun first last total => (h first last total).mp
    · intro h first last total
      exact ⟨h.grammar, RangeGrammar.parse⟩
  · constructor
    · intro h hmatch
      exact numbersOnly_of_answers hmatch (h {} (accepts_of_numbersMatch hmatch))
    · intro h expected haccepts
      have hmatch : NumbersMatch { request with expected := expected } head :=
        numbersMatch_of_accepts haccepts
      exact answersRequest_of_only hmatch (h hmatch)

/-- The text after the total is not looked at. -/
theorem trailing_text_accepted :
    parseContentRange (ascii "bytes 0-1/2 bytes") = some (0, 1, 2) ∧
      ¬ RangeGrammar (ascii "bytes 0-1/2 bytes") 0 1 2 := by
  refine ⟨by decide +kernel, fun h => ?_⟩
  obtain ⟨start, stop, size, hparts, -, -, hsize, -⟩ := h.parts
  have hshape : Parts (ascii "bytes 0-1/2 bytes") (ascii "0") (ascii "1") (ascii "2 bytes") :=
    ⟨by decide, by decide, by decide, by decide⟩
  obtain ⟨-, -, rfl⟩ := hparts.unique hshape
  exact absurd hsize (by decide)

/-- A head with a transfer encoding, and an empty line for it after that. -/
def repeatedHead : Bytes :=
  ascii "HTTP/1.1 206 OK\r\nTransfer-Encoding: chunked\r\nTransfer-Encoding:\r\n" ++
    ascii "Content-Length: 2\r\nContent-Range: bytes 0-1/2\r\n\r\n"

/-- The lines of a field before its last are not looked at either. -/
example : Accepts ⟨0, 2, [], {}⟩ repeatedHead ∧ ¬ NumbersOnly repeatedHead :=
  ⟨⟨⟨[], [], 2⟩, by decide +kernel⟩, fun h => absurd h.encoding (by decide +kernel)⟩

end TieredCache.Remote
