/-
# Responses that are understood

The grammar of numbers and header lines, run on a well-formed response: it is parsed to the
numbers written in it.
-/

import TieredCache.Remote.Http

namespace TieredCache.Remote

open Math Math.Digits Math.Slices

variable {rest text : Bytes}

/-! ## Numbers -/

theorem digitValue_digitByte : ∀ d < 10, digitValue (digitByte d) = some d := by decide

theorem digitByte_ne : ∀ d < 10, ∀ b, digitValue b = none → digitByte d ≠ b := by
  intro d hd b hb heq
  rw [← heq, digitValue_digitByte d hd] at hb
  cases hb

/-- Written digits are read up to the first byte that is none. -/
theorem leadingDigits_append {digits : List ℕ} (hdigits : ∀ d ∈ digits, d < 10)
    (hrest : ∀ b ∈ rest.head?, digitValue b = none) :
    leadingDigits (digits.map digitByte ++ rest) = digits := by
  induction digits with
  | nil =>
      cases rest with
      | nil => rfl
      | cons b rest =>
          rw [List.map_nil, List.nil_append, leadingDigits, hrest b rfl]
  | cons d digits ih =>
      rw [List.map_cons, List.cons_append, leadingDigits,
        digitValue_digitByte d (hdigits d List.mem_cons_self)]
      exact congrArg (d :: ·) (ih fun d hd => hdigits d (List.mem_cons_of_mem _ hd))

theorem mem_shortest_lt {n : ℕ} {d : ℕ} (h : d ∈ shortest 10 20 n) : d < 10 :=
  lt_of_mem_shortest (by decide) h

/-- A written word is read back. -/
theorem leadingNumber_decimal (word : UInt64) {limit : ℕ} (hlimit : word.toNat < limit)
    (hrest : ∀ b ∈ rest.head?, digitValue b = none) :
    leadingNumber limit (decimal word ++ rest) = some word.toNat := by
  have hdigits : leadingDigits (decimal word ++ rest) = shortest 10 20 word.toNat :=
    leadingDigits_append (fun _ => mem_shortest_lt) hrest
  have hvalue : value 10 (shortest 10 20 word.toNat) = word.toNat :=
    value_shortest (lt_trans word.toNat_lt (by decide))
  unfold leadingNumber
  rw [hdigits]
  cases hcase : shortest 10 20 word.toNat with
  | nil =>
      unfold shortest at hcase
      split at hcase <;> cases hcase
  | cons digit digits =>
      rw [hcase] at hvalue
      dsimp only
      rw [hvalue, if_pos hlimit]

theorem fromCharsU64_decimal (word : UInt64) (hrest : ∀ b ∈ rest.head?, digitValue b = none) :
    fromCharsU64 (decimal word ++ rest) = some word := by
  rw [fromCharsU64, leadingNumber_decimal word word.toNat_lt hrest, Option.map_some,
    UInt64.ofNat_toNat]

/-- No byte of a written word is a separator. -/
theorem not_mem_decimal {b : UInt8} (hb : digitValue b = none) (word : UInt64) :
    b ∉ decimal word := by
  intro h
  obtain ⟨d, hd, heq⟩ := List.mem_map.mp h
  exact digitByte_ne d (mem_shortest_lt hd) b hb heq

theorem decimal_ne_nil (word : UInt64) : decimal word ≠ [] := by
  unfold decimal shortest
  split <;> nofun

theorem length_decimal_le (word : UInt64) : (decimal word).length ≤ 20 := by
  unfold decimal shortest
  split
  · simp
  · rename_i digit digits hdigits
    have hle := (List.dropWhile_sublist (· == 0) (l := fixedWidth 10 20 word.toNat)).length_le
    rw [hdigits, length_fixedWidth] at hle
    rwa [List.length_map]

theorem fromCharsSigned_decimal (word : UInt64) {magnitude : ℕ} (h : word.toNat < magnitude) :
    fromCharsSigned magnitude (decimal word) = some (word.toNat : ℤ) := by
  have hread := @leadingNumber_decimal [] word magnitude h nofun
  rw [List.append_nil] at hread
  cases hword : decimal word with
  | nil => exact absurd hword (decimal_ne_nil word)
  | cons b digits =>
      have hb : b ≠ 0x2D := by
        rintro rfl
        apply not_mem_decimal (by decide : digitValue 0x2D = none) word
        rw [hword]
        exact List.mem_cons_self
      rw [hword] at hread
      rw [fromCharsSigned, if_neg hb, hread]
      rfl

/-! ## Header lines -/

/-- One blank before a text without blanks at its ends. -/
theorem trim_blank (hhead : ∀ b ∈ text.head?, ¬ (b = 0x20 ∨ b = 0x09))
    (hlast : ∀ b ∈ text.getLast?, ¬ (b = 0x20 ∨ b = 0x09 ∨ b = 0x0D)) : trim (0x20 :: text) = text := by
  have hfront : (0x20 :: text).dropWhile (fun b => decide (b = 0x20 ∨ b = 0x09)) = text := by
    rw [List.dropWhile_cons_of_pos (by decide)]
    cases text with
    | nil => rfl
    | cons b rest => exact List.dropWhile_cons_of_neg (by simpa using hhead b rfl)
  have hback : text.reverse.dropWhile (fun b => decide (b = 0x20 ∨ b = 0x09 ∨ b = 0x0D)) =
      text.reverse := by
    cases hreverse : text.reverse with
    | nil => rfl
    | cons b rest =>
        have hb := hlast b (by rw [← List.head?_reverse, hreverse]; rfl)
        exact List.dropWhile_cons_of_neg (by simpa using hb)
  rw [trim, hfront, hback, List.reverse_reverse]

/-- The first line that ends before the end of the head. -/
theorem find_headEnd_line {line : Bytes} (hline : 0x0D ∉ line) (hrest : rest.head? ≠ some 0x0D) :
    Text.find headEnd (line ++ 0x0D :: 0x0A :: rest) =
      (Text.find headEnd rest).map (· + (line.length + 2)) := by
  have hfirst : ¬ headEnd <+: 0x0D :: 0x0A :: rest := by
    intro hbegins
    cases rest with
    | nil => simp [headEnd] at hbegins
    | cons b rest =>
        simp only [headEnd, List.cons_prefix_cons] at hbegins
        exact hrest (congrArg some hbegins.2.2.1.symm)
  have hsecond : ¬ headEnd <+: 0x0A :: rest := by
    intro hbegins
    exact absurd (List.cons_prefix_cons.mp hbegins).1 (by decide)
  rw [headEnd, Text.find_append_of_not_mem hline, ← headEnd, Text.find_cons_of_not_prefix hfirst,
    Text.find_cons_of_not_prefix hsecond, Option.map_map, Option.map_map]
  congr 1
  funext n
  simp only [Function.comp_apply]
  omega

/-! ## A well-formed response -/

/-- The parser takes a value apart at the first dash and the first slash. -/
theorem parseContentRange_append {start stop size : Bytes} (hdash : 0x2D ∉ start)
    (hslash : 0x2F ∉ start) (hstop : 0x2F ∉ stop) :
    parseContentRange (ascii "bytes " ++ (start ++ 0x2D :: (stop ++ 0x2F :: size))) =
      (fromCharsU64 start).bind fun first =>
        (fromCharsU64 stop).bind fun last =>
          (fromCharsU64 size).bind fun total => some (first, last, total) := by
  have hbefore : 0x2F ∉ start ++ 0x2D :: stop := by
    rw [List.mem_append, List.mem_cons, not_or, not_or]
    exact ⟨hslash, by decide, hstop⟩
  have hfindSlash : Text.find (ascii "/") (start ++ 0x2D :: (stop ++ 0x2F :: size)) =
      some (start ++ 0x2D :: stop).length := by
    have hfind := @Text.find_singleton _ _ 0x2F _ size hbefore
    rwa [List.append_assoc, List.cons_append] at hfind
  have hfindDash : Text.find (ascii "-") (start ++ 0x2D :: (stop ++ 0x2F :: size)) =
      some start.length := Text.find_singleton hdash
  have hmiddle : ((start ++ 0x2D :: (stop ++ 0x2F :: size)).drop (start.length + 1)).take
      ((start ++ 0x2D :: stop).length - start.length - 1) = stop := by
    have hdrop : (start ++ 0x2D :: (stop ++ 0x2F :: size)).drop (start.length + 1) =
        stop ++ 0x2F :: size := by
      rw [← List.singleton_append, ← List.append_assoc]
      exact List.drop_left' (by simp)
    rw [hdrop]
    exact List.take_left' (by simp)
  have hrest : (start ++ 0x2D :: (stop ++ 0x2F :: size)).drop ((start ++ 0x2D :: stop).length + 1) =
      size := by
    have hsplit : start ++ 0x2D :: (stop ++ 0x2F :: size) =
        (start ++ 0x2D :: stop ++ [0x2F]) ++ size := by simp
    rw [hsplit]
    exact List.drop_left' (by simp; omega)
  have hnot : ¬ (start ++ 0x2D :: stop).length < start.length := by simp
  unfold parseContentRange
  dsimp only
  rw [List.take_left' rfl, if_neg (not_not.mpr rfl), List.drop_left' rfl, hfindDash, hfindSlash]
  dsimp only
  rw [if_neg hnot, hmiddle, hrest, List.take_left' rfl]
  rfl

/-- The value of a Content-Range header. -/
def rangeValue (first last total : UInt64) : Bytes :=
  ascii "bytes " ++ (decimal first ++ 0x2D :: (decimal last ++ 0x2F :: decimal total))

theorem parseContentRange_rangeValue (first last total : UInt64) :
    parseContentRange (rangeValue first last total) = some (first, last, total) := by
  have hread : ∀ word : UInt64, fromCharsU64 (decimal word) = some word := by
    intro word
    have hword := @fromCharsU64_decimal [] word nofun
    rwa [List.append_nil] at hword
  have hslash : digitValue 0x2F = none := by decide
  rw [rangeValue, parseContentRange_append (not_mem_decimal (by decide) first)
    (not_mem_decimal hslash first) (not_mem_decimal hslash last), hread, hread, hread]
  rfl

/-- A colon and a blank separate the name of a header from its value. -/
theorem headerLine_named (out : ParsedHeaders) {name value : Bytes} (hname : 0x3A ∉ name)
    (hhead : ∀ b ∈ value.head?, ¬ (b = 0x20 ∨ b = 0x09))
    (hlast : ∀ b ∈ value.getLast?, ¬ (b = 0x20 ∨ b = 0x09 ∨ b = 0x0D)) :
    headerLine out (name ++ 0x3A :: 0x20 :: value) =
      if headerNameIs name (ascii "Content-Range") then { out with contentRange := value }
      else if headerNameIs name (ascii "ETag") then { out with etag := value }
      else if headerNameIs name (ascii "Last-Modified") then { out with lastModified := value }
      else if headerNameIs name (ascii "Transfer-Encoding") then
        { out with transferEncoding := value }
      else if headerNameIs name (ascii "Content-Length") then
        match fromCharsSigned (2 ^ 63) value with
        | some length => { out with contentLength := length, hasContentLength := true }
        | none => out
      else out := by
  have hfind : Text.find (ascii ":") (name ++ 0x3A :: 0x20 :: value) = some name.length :=
    Text.find_singleton hname
  have hvalue : (name ++ 0x3A :: 0x20 :: value).drop (name.length + 1) = 0x20 :: value := by
    rw [← List.singleton_append, ← List.append_assoc]
    exact List.drop_left' (by simp)
  cases hlength : fromCharsSigned (2 ^ 63) value <;>
    simp only [headerLine, hfind, List.take_left' rfl, hvalue, trim_blank hhead hlast, hlength]

/-- Lines, and the end of a head. -/
def writeHead : List Bytes → Bytes
  | [] => []
  | [line] => line ++ headEnd
  | line :: next :: others => line ++ 0x0D :: 0x0A :: writeHead (next :: others)

/-- Written lines that hold no line ending are the lines read. -/
theorem parse_writeHead {lines : List Bytes} (body : Bytes) (hne : lines ≠ [])
    (hlines : ∀ line ∈ lines, line ≠ [] ∧ 0x0D ∉ line) :
    ∃ stop, Text.find headEnd (writeHead lines ++ body) = some stop ∧
      stop + 4 = (writeHead lines).length ∧
      Text.lines 0x0D 0x0A ((writeHead lines ++ body).take stop) = lines := by
  induction lines with
  | nil => exact absurd rfl hne
  | cons line others ih =>
      obtain ⟨hline, hcr⟩ := hlines line List.mem_cons_self
      cases others with
      | nil =>
          refine ⟨line.length, ?_, ?_, ?_⟩
          · have hend : Text.find headEnd (headEnd ++ body) = some 0 :=
              Text.find_of_prefix (List.prefix_append headEnd body)
            rw [writeHead, List.append_assoc, headEnd, Text.find_append_of_not_mem hcr, ← headEnd,
              hend, Option.map_some, Nat.zero_add]
          · rw [writeHead, List.length_append]
            rfl
          · rw [writeHead, List.append_assoc, List.take_left' rfl, Text.lines_of_not_mem hcr]
      | cons next others =>
          obtain ⟨stop, hfind, hlength, hread⟩ := ih nofun fun l hl =>
            hlines l (List.mem_cons_of_mem _ hl)
          have hnext : (writeHead (next :: others) ++ body).head? ≠ some 0x0D := by
            obtain ⟨hnext, hfree⟩ := hlines next (List.mem_cons_of_mem _ List.mem_cons_self)
            obtain ⟨b, rest, rfl⟩ := List.exists_cons_of_ne_nil hnext
            have hb := (List.ne_and_not_mem_of_not_mem_cons hfree).1
            cases others <;> exact fun heq => hb (Option.some.inj heq).symm
          have hwrite : writeHead (line :: next :: others) ++ body =
              line ++ 0x0D :: 0x0A :: (writeHead (next :: others) ++ body) := by
            rw [writeHead, List.append_assoc]
            rfl
          have htake : (line ++ 0x0D :: 0x0A :: (writeHead (next :: others) ++ body)).take
              (line.length + (stop + 2)) =
                line ++ 0x0D :: 0x0A :: (writeHead (next :: others) ++ body).take stop :=
            List.take_length_add_append (stop + 2)
          refine ⟨line.length + (stop + 2), ?_, ?_, ?_⟩
          · rw [hwrite, find_headEnd_line hcr hnext, hfind, Option.map_some]
            congr 1
            omega
          · rw [writeHead, List.length_append, List.length_cons, List.length_cons]
            omega
          · rw [hwrite, htake, Text.lines_append hcr, hread]

/-- The lines of the head of a response to a range request. -/
def rangeLines (first last total length : UInt64) : List Bytes :=
  [ascii "HTTP/1.1 206 Partial Content",
    ascii "Content-Range" ++ 0x3A :: 0x20 :: rangeValue first last total,
    ascii "Content-Length" ++ 0x3A :: 0x20 :: decimal length]

/-- The bytes of a Content-Range value. -/
theorem not_mem_rangeValue {b : UInt8} (hb : digitValue b = none)
    (hother : b ∉ ascii "bytes -/") (first last total : UInt64) :
    b ∉ rangeValue first last total := by
  have hsplit : ascii "bytes -/" = ascii "bytes " ++ [0x2D, 0x2F] := by decide
  rw [hsplit] at hother
  simp only [List.mem_append, List.mem_cons, List.not_mem_nil, or_false, not_or] at hother
  simp only [rangeValue, List.mem_append, List.mem_cons, not_or]
  exact ⟨hother.1, not_mem_decimal hb first, hother.2.1, not_mem_decimal hb last, hother.2.2,
    not_mem_decimal hb total⟩

theorem rangeLines_clean {first last total length : UInt64} :
    ∀ line ∈ rangeLines first last total length, line ≠ [] ∧ 0x0D ∉ line := by
  intro line hline
  simp only [rangeLines, List.mem_cons, List.not_mem_nil, or_false] at hline
  rcases hline with rfl | rfl | rfl
  · decide
  · refine ⟨List.append_ne_nil_of_right_ne_nil _ nofun, ?_⟩
    simp only [List.mem_append, List.mem_cons, not_or]
    exact ⟨by decide, by decide, by decide,
      not_mem_rangeValue (b := 0x0D) (by decide) (by decide) first last total⟩
  · refine ⟨List.append_ne_nil_of_right_ne_nil _ nofun, ?_⟩
    simp only [List.mem_append, List.mem_cons, not_or]
    exact ⟨by decide, by decide, by decide, not_mem_decimal (by decide) length⟩

/-- A written number has digits at its ends. -/
theorem decimal_ends (word : UInt64) :
    (∀ b ∈ (decimal word).head?, ¬ (b = 0x20 ∨ b = 0x09)) ∧
      ∀ b ∈ (decimal word).getLast?, ¬ (b = 0x20 ∨ b = 0x09 ∨ b = 0x0D) := by
  constructor
  · rintro b hb (rfl | rfl)
    · exact not_mem_decimal (by decide) word (List.mem_of_mem_head? hb)
    · exact not_mem_decimal (by decide) word (List.mem_of_mem_head? hb)
  · rintro b hb (rfl | rfl | rfl)
    · exact not_mem_decimal (by decide) word (List.mem_of_mem_getLast? hb)
    · exact not_mem_decimal (by decide) word (List.mem_of_mem_getLast? hb)
    · exact not_mem_decimal (by decide) word (List.mem_of_mem_getLast? hb)

/-- The headers of a response to a range request. -/
theorem headers_rangeLines (first last total length : UInt64) (hlength : length.toNat < 2 ^ 63) :
    (rangeLines first last total length).tail.foldl headerLine
        (statusLine (ascii "HTTP/1.1 206 Partial Content") {}) =
      { statusCode := 206, contentRange := rangeValue first last total,
        contentLength := length.toNat, hasContentLength := true } := by
  have hstatus : statusLine (ascii "HTTP/1.1 206 Partial Content") {} = { statusCode := 206 } := by
    decide
  have hlast : ∀ b ∈ (rangeValue first last total).getLast?, b ∈ (decimal total).getLast? := by
    intro b hb
    rw [rangeValue, List.getLast?_append_of_ne_nil _ (by simp),
      List.getLast?_append_of_ne_nil _ (by simp), ← List.singleton_append,
      List.getLast?_append_of_ne_nil _ (by simp), List.getLast?_append_of_ne_nil _ (by simp),
      ← List.singleton_append, List.getLast?_append_of_ne_nil _ (decimal_ne_nil total)] at hb
    exact hb
  have hrange : ∀ out : ParsedHeaders, headerLine out
      (ascii "Content-Range" ++ 0x3A :: 0x20 :: rangeValue first last total) =
        { out with contentRange := rangeValue first last total } := by
    intro out
    rw [headerLine_named out (by decide) (by rintro b ⟨⟩; decide)
      (fun b hb => (decimal_ends total).2 b (hlast b hb)), if_pos (by decide)]
  have hlen : ∀ out : ParsedHeaders, headerLine out
      (ascii "Content-Length" ++ 0x3A :: 0x20 :: decimal length) =
        { out with contentLength := length.toNat, hasContentLength := true } := by
    intro out
    rw [headerLine_named out (by decide) (decimal_ends length).1 (decimal_ends length).2,
      if_neg (by decide), if_neg (by decide), if_neg (by decide), if_neg (by decide),
      if_pos (by decide), fromCharsSigned_decimal length hlength]
  rw [hstatus, rangeLines, List.tail_cons, List.foldl_cons, List.foldl_cons, List.foldl_nil, hrange,
    hlen]

/-- A response to a range request is understood. -/
theorem parseResponseHead_rangeLines (first last total length : UInt64) (hlength : length.toNat < 2 ^ 63)
    (body : Bytes) :
    Text.find headEnd (writeHead (rangeLines first last total length) ++ body) =
        some ((writeHead (rangeLines first last total length)).length - 4) ∧
      parseResponseHead (writeHead (rangeLines first last total length) ++ body) =
        ({ statusCode := 206, contentRange := rangeValue first last total,
           contentLength := length.toNat, hasContentLength := true },
          (writeHead (rangeLines first last total length)).length) := by
  have hheaders := headers_rangeLines first last total length hlength
  have hclean := @rangeLines_clean first last total length
  have hshape : ∃ others, rangeLines first last total length =
      ascii "HTTP/1.1 206 Partial Content" :: others := ⟨_, rfl⟩
  generalize rangeLines first last total length = lines at hheaders hclean hshape ⊢
  obtain ⟨others, rfl⟩ := hshape
  obtain ⟨stop, hfind, hstop, hread⟩ := parse_writeHead body (List.cons_ne_nil _ _) hclean
  generalize writeHead (ascii "HTTP/1.1 206 Partial Content" :: others) = head at hfind hstop hread ⊢
  have hstop' : head.length - 4 = stop := by omega
  rw [hstop']
  refine ⟨hfind, ?_⟩
  unfold parseResponseHead
  rw [hfind]
  dsimp only [Option.getD_some]
  rw [hread, hstop]
  exact congrArg (·, head.length) hheaders

/-! ## The checks of a head -/

/-- The tests of a version against the one expected, as `fetch_once` makes them. -/
def Passes (expected observed : SourceValidator) : Prop :=
  (expected.totalSize = 0 ∨ observed.totalSize = expected.totalSize) ∧
    (expected.hasIdentity →
      (expected.etag ≠ [] ∧ expected.etag = observed.etag) ∨
      (expected.etag = [] ∧ expected.lastModified ≠ [] ∧
        expected.lastModified = observed.lastModified))

/-- A head that is accepted, and the version observed in it. -/
theorem checkHead_eq_ok {request : RangeFetchRequest} {headers : ParsedHeaders}
    {observed : SourceValidator} :
    checkHead request headers = .ok observed ↔
      (headers.statusCode = 206 ∧ headers.transferEncoding = [] ∧ headers.hasContentLength ∧
        headers.contentRange ≠ [] ∧ UInt64.ofInt headers.contentLength = request.length) ∧
      ∃ total, parseContentRange headers.contentRange =
          some (request.offset, request.offset + request.length - 1, total) ∧
        observed = ⟨headers.etag, headers.lastModified, total⟩ ∧
        Passes request.expected observed := by
  constructor
  · intro h
    unfold checkHead at h
    split at h
    · cases h
    split at h
    · cases h
    split at h
    · cases h
    split at h
    · cases h
    split at h
    · cases h
    rename_i _ hstatus hencoding hlength hrange
    split at h
    · cases h
    · rename_i first last total hparse
      dsimp only at h
      split at h
      · cases h
      split at h
      · cases h
      split at h
      · cases h
      split at h
      · cases h
      · rename_i hfirst hcount hsize hidentity
        cases h
        obtain ⟨rfl, rfl⟩ := not_or.mp hfirst |>.imp not_not.mp not_not.mp
        refine ⟨⟨not_not.mp hstatus, not_not.mp hencoding, by simpa using hlength, hrange,
          not_not.mp hcount⟩, total, hparse, rfl, ?_, ?_⟩
        · exact or_iff_not_imp_left.mpr fun hne => not_not.mp fun hother => hsize ⟨hne, hother⟩
        · intro hhas
          by_contra hnone
          exact hidentity ⟨hhas, not_or.mp hnone⟩
  · rintro ⟨⟨hstatus, hencoding, hlength, hrange, hcount⟩, total, hparse, rfl, hsize, hidentity⟩
    unfold checkHead
    rw [if_neg (by omega), if_neg (not_not.mpr hstatus), if_neg (not_not.mpr hencoding),
      if_neg (by simpa using hlength), if_neg hrange, hparse]
    dsimp only
    rw [if_neg (by simp), if_neg (not_not.mpr hcount)]
    rw [if_neg (fun hboth => hboth.2 (hsize.resolve_left hboth.1)), if_neg]
    rintro ⟨hhas, hetag, hmodified⟩
    exact (hidentity hhas).elim hetag hmodified

end TieredCache.Remote
