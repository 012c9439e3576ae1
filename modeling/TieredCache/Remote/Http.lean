/-
# The range client

`Http1RangeTransport`: the text of a URL and of a response head, one attempt over a
connection, and the retries.  What the network does is data: whether there is a connection,
the bytes the server sends, the sizes `recv` hands them out in, and how the connection ends.
-/

import TieredCache.Math.Slices
import TieredCache.Math.Text
import TieredCache.Remote.Transport

namespace TieredCache.Remote

open Math Math.Digits Math.Slices

/-! ## Text -/

/-- `ParsedUrl`. -/
structure ParsedUrl where
  host : Bytes := []
  port : Bytes := ascii "80"
  path : Bytes := ascii "/"
  valid : Bool := false
  deriving DecidableEq, Repr

/-- `authority.rfind(':')` and the text on both sides. -/
def splitLastColon (authority : Bytes) : Option (Bytes × Bytes) :=
  (Text.find (ascii ":") authority.reverse).map fun after =>
    (authority.take (authority.length - after - 1), authority.drop (authority.length - after))

/-- `parse_http_url`. -/
def parseHttpUrl (url : Bytes) : ParsedUrl :=
  let scheme := ascii "http://"
  if url.take scheme.length ≠ scheme then {}
  else
    let rest := url.drop scheme.length
    let slash := Text.find (ascii "/") rest
    let authority := rest.take (slash.getD rest.length)
    if authority = [] then {}
    else
      let path := (slash.map rest.drop).getD (ascii "/")
      match splitLastColon authority with
      | some (host, port) => ⟨host, port, path, port ≠ [] ∧ host ≠ []⟩
      | none => { host := authority, path := path, valid := authority ≠ [] }

/-- `std::tolower` of a byte. -/
def lower (b : UInt8) : UInt8 := if 0x41 ≤ b ∧ b ≤ 0x5A then b + 0x20 else b

/-- `header_name_is`. -/
def headerNameIs (line name : Bytes) : Bool := line.map lower = name.map lower

/-- `trim`. -/
def trim (s : Bytes) : Bytes :=
  ((s.dropWhile fun b => b = 0x20 ∨ b = 0x09).reverse.dropWhile
    fun b => b = 0x20 ∨ b = 0x09 ∨ b = 0x0D).reverse

/-- The value of a decimal digit. -/
def digitValue (b : UInt8) : Option ℕ :=
  if 0x30 ≤ b ∧ b ≤ 0x39 then some (b.toNat - 0x30) else none

/-- The decimal digits a text starts with. -/
def leadingDigits : Bytes → List ℕ
  | [] => []
  | b :: rest =>
      match digitValue b with
      | some digit => digit :: leadingDigits rest
      | none => []

/-- The number a text starts with, if there is one below the limit; what follows it is not
looked at. -/
def leadingNumber (limit : ℕ) (text : Bytes) : Option ℕ :=
  match leadingDigits text with
  | [] => none
  | digit :: digits =>
      if value 10 (digit :: digits) < limit then some (value 10 (digit :: digits)) else none

/-- `std::from_chars` for a `uint64_t`. -/
def fromCharsU64 (text : Bytes) : Option UInt64 := (leadingNumber (2 ^ 64) text).map UInt64.ofNat

/-- `std::from_chars` for a signed type of some magnitude, which takes a minus sign. -/
def fromCharsSigned (magnitude : ℕ) : Bytes → Option ℤ
  | [] => none
  | b :: rest =>
      if b = 0x2D then (leadingNumber (magnitude + 1) rest).map fun n => -(n : ℤ)
      else (leadingNumber magnitude (b :: rest)).map fun n => (n : ℤ)

/-- `ParsedHeaders`. -/
structure ParsedHeaders where
  statusCode : ℤ := 0
  contentRange : Bytes := []
  etag : Bytes := []
  lastModified : Bytes := []
  transferEncoding : Bytes := []
  contentLength : ℤ := -1
  hasContentLength : Bool := false
  deriving DecidableEq, Repr

/-- The status line: the code is what stands between the first two blanks. -/
def statusLine (line : Bytes) (out : ParsedHeaders) : ParsedHeaders :=
  match Text.find (ascii " ") line with
  | none => out
  | some sp1 =>
      let rest := line.drop (sp1 + 1)
      let code := rest.take ((Text.find (ascii " ") rest).getD rest.length)
      { out with statusCode := (fromCharsSigned (2 ^ 31) code).getD 0 }

/-- One header line. -/
def headerLine (out : ParsedHeaders) (line : Bytes) : ParsedHeaders :=
  match Text.find (ascii ":") line with
  | none => out
  | some colon =>
      let name := line.take colon
      let value := trim (line.drop (colon + 1))
      if headerNameIs name (ascii "Content-Range") then { out with contentRange := value }
      else if headerNameIs name (ascii "ETag") then { out with etag := value }
      else if headerNameIs name (ascii "Last-Modified") then { out with lastModified := value }
      else if headerNameIs name (ascii "Transfer-Encoding") then
        { out with transferEncoding := value }
      else if headerNameIs name (ascii "Content-Length") then
        match fromCharsSigned (2 ^ 63) value with
        | some length => { out with contentLength := length, hasContentLength := true }
        | none => out
      else out

/-- The end of a response head. -/
def headEnd : Bytes := [0x0D, 0x0A, 0x0D, 0x0A]

/-- `parse_response_head`: the headers, and where the body starts. -/
def parseResponseHead (text : Bytes) : ParsedHeaders × ℕ :=
  let stop := (Text.find headEnd text).getD text.length
  let headers :=
    match Text.lines 0x0D 0x0A (text.take stop) with
    | [] => {}
    | first :: others => others.foldl headerLine (statusLine first {})
  (headers, stop + 4)

/-- `parse_content_range`: start, end and total. -/
def parseContentRange (text : Bytes) : Option (UInt64 × UInt64 × UInt64) :=
  let start := ascii "bytes "
  if text.take start.length ≠ start then none
  else
    let rest := text.drop start.length
    match Text.find (ascii "-") rest, Text.find (ascii "/") rest with
    | some dash, some slash =>
        if slash < dash then none
        else do
          let first ← fromCharsU64 (rest.take dash)
          let last ← fromCharsU64 ((rest.drop (dash + 1)).take (slash - dash - 1))
          let total ← fromCharsU64 (rest.drop (slash + 1))
          some (first, last, total)
    | _, _ => none

/-! ## One attempt -/

/-- How a connection ends once `recv` has handed out what it will. -/
inductive Ending
  | closed
  | timedOut
  | reset
  deriving DecidableEq, Repr

/-- The status of the end of a connection. -/
def Ending.status : Ending → Status
  | .timedOut => .timeout
  | _ => .truncated

/-- What the network does in one attempt: how far it comes, the bytes the server sends, the
sizes `recv` hands them out in, and the end. -/
structure Attempt where
  connected : Bool := true
  sent : Bool := true
  stream : Bytes := []
  cuts : List ℕ := []
  ending : Ending := .closed
  deriving DecidableEq, Repr

/-- How many bytes `recv` hands out: at least one, at most what is wanted. -/
def recvSize (cut want : ℕ) : ℕ := min (max 1 cut) want

/-- Read until the end of the head has been seen: the buffer, and what is left of the stream
and of the sizes. -/
def readHead (ending : Ending) : List ℕ → Bytes → Bytes → Except Status (Bytes × Bytes × List ℕ)
  | [], _, _ => .error ending.status
  | cut :: cuts, stream, buffer =>
      if stream = [] then .error ending.status
      else
        let n := recvSize cut 4096
        let buffer := buffer ++ stream.take n
        if (Text.find headEnd buffer).isSome then .ok (buffer, stream.drop n, cuts)
        else if 2 ^ 20 < buffer.length then .error .unexpectedStatus
        else readHead ending cuts (stream.drop n) buffer

/-- Read the rest of the body: the status, how many bytes there are and the destination. -/
def readBody (ending : Ending) (length : ℕ) : List ℕ → Bytes → Bytes → ℕ → Status × ℕ × Bytes
  | [], _, dest, received =>
      if received < length then (ending.status, received, dest) else (.ok, received, dest)
  | cut :: cuts, stream, dest, received =>
      if received < length then
        if stream = [] then (ending.status, received, dest)
        else
          let n := recvSize cut (min 4096 (length - received))
          let piece := stream.take n
          readBody ending length cuts (stream.drop n) (overwrite dest received piece)
            (received + piece.length)
      else (.ok, received, dest)

/-- The checks of a parsed head against the request: the validator observed, or the status. -/
def checkHead (request : RangeFetchRequest) (headers : ParsedHeaders) :
    Except FetchRangeResult SourceValidator :=
  if 500 ≤ headers.statusCode ∧ headers.statusCode < 600 then .error ⟨.serverError, 0, {}, 0⟩
  else if headers.statusCode ≠ 206 then .error ⟨.unexpectedStatus, 0, {}, 0⟩
  else if headers.transferEncoding ≠ [] then .error ⟨.unsupportedResponse, 0, {}, 0⟩
  else if !headers.hasContentLength then .error ⟨.badContentRange, 0, {}, 0⟩
  else if headers.contentRange = [] then .error ⟨.badContentRange, 0, {}, 0⟩
  else
    match parseContentRange headers.contentRange with
    | none => .error ⟨.badContentRange, 0, {}, 0⟩
    | some (first, last, total) =>
        if first ≠ request.offset ∨ last ≠ request.offset + request.length - 1 then
          .error ⟨.badContentRange, 0, {}, 0⟩
        else if UInt64.ofInt headers.contentLength ≠ request.length then
          .error ⟨.badContentRange, 0, {}, 0⟩
        else
          let observed : SourceValidator := ⟨headers.etag, headers.lastModified, total⟩
          let expected := request.expected
          if expected.totalSize ≠ 0 ∧ total ≠ expected.totalSize then
            .error ⟨.sizeMismatch, 0, observed, 0⟩
          else if expected.hasIdentity ∧
              ¬ (expected.etag ≠ [] ∧ expected.etag = observed.etag) ∧
              ¬ (expected.etag = [] ∧ expected.lastModified ≠ [] ∧
                expected.lastModified = observed.lastModified) then
            .error ⟨.sourceChanged, 0, observed, 0⟩
          else .ok observed

/-- `fetch_once`: the result, and the destination afterwards. -/
def fetchOnce (attempt : Attempt) (request : RangeFetchRequest) : FetchRangeResult × Bytes :=
  if !attempt.connected then (⟨.connectFailed, 0, {}, 0⟩, request.destination)
  else if !attempt.sent then (⟨.sendFailed, 0, {}, 0⟩, request.destination)
  else
    match readHead attempt.ending attempt.cuts attempt.stream [] with
    | .error status => (⟨status, 0, {}, 0⟩, request.destination)
    | .ok (buffer, stream, cuts) =>
        let (headers, bodyStart) := parseResponseHead buffer
        match checkHead request headers with
        | .error result => (result, request.destination)
        | .ok observed =>
            let already := (buffer.drop bodyStart).take request.length.toNat
            let (status, received, dest) := readBody attempt.ending request.length.toNat cuts stream
              (overwrite request.destination 0 already) already.length
            (⟨status, UInt64.ofNat received, observed, 0⟩, dest)

/-! ## Retries -/

/-- `Http1RangeTransport`, as far as its options matter. -/
structure Http1RangeTransport where
  url : ParsedUrl
  maxRetries : UInt32 := 3

/-- The attempts from one on, with some retries left. -/
def fetchLoop (attempts : ℕ → Attempt) (request : RangeFetchRequest) :
    ℕ → ℕ → Bytes → FetchRangeResult × Bytes
  | left, retries, dest =>
      let (result, dest) := fetchOnce (attempts retries) { request with destination := dest }
      let result := { result with retries := UInt32.ofNat retries }
      if result.status = .ok ∨ !result.status.isTransient then (result, dest)
      else
        match left with
        | 0 => (if 0 < retries then { result with status := .retriesExhausted } else result, dest)
        | left + 1 => fetchLoop attempts request left (retries + 1) dest

/-- `fetch_range`, for the attempts the network makes of it. -/
def Http1RangeTransport.fetchRange (http : Http1RangeTransport) (attempts : ℕ → Attempt) :
    RangeTransport := fun request =>
  if !http.url.valid then (⟨.invalidArgument, 0, {}, 0⟩, request.destination)
  else if request.length = 0 ∨ request.destination.length ≠ request.length.toNat then
    (⟨.invalidArgument, 0, {}, 0⟩, request.destination)
  else fetchLoop attempts request http.maxRetries.toNat 0 request.destination

end TieredCache.Remote
