/-
# Packet boundaries

A response that arrives whole is handled the same way however `recv` cuts it: the head is
read up to its end, the bytes behind the end are the body, and the body goes to the
destination in order.
-/

import TieredCache.Remote.HttpText

namespace TieredCache.Remote

open Math Math.Slices

variable {request : RangeFetchRequest} {whole stream dest : Bytes} {cuts : List ℕ}
  {ending : Ending} {stop length received taken : ℕ}

/-- How many bytes some calls of `recv` hand out. -/
def handedOut (cuts : List ℕ) : ℕ := (cuts.map fun cut => recvSize cut 4096).sum

/-- The request is sent, and the whole stream is handed out before the server closes. -/
structure Attempt.Delivers (attempt : Attempt) (whole : Bytes) : Prop where
  connected : attempt.connected
  sent : attempt.sent
  stream : attempt.stream = whole
  closed : attempt.ending = .closed
  handed : whole.length ≤ handedOut attempt.cuts

theorem handedOut_cons (cut : ℕ) (cuts : List ℕ) :
    handedOut (cut :: cuts) = recvSize cut 4096 + handedOut cuts := by
  rw [handedOut, List.map_cons, List.sum_cons, handedOut]

/-! ## The head -/

/-- The head is read to its end, and what has been read beyond belongs to the body. -/
theorem readHead_delivered (hfind : Text.find headEnd whole = some stop)
    (hsize : stop + 4 ≤ 2 ^ 20) (htaken : taken < stop + 4)
    (hhanded : whole.length - taken ≤ handedOut cuts) :
    ∃ read rest, readHead ending cuts (whole.drop taken) (whole.take taken) =
        .ok (whole.take read, whole.drop read, rest) ∧
      stop + 4 ≤ read ∧ read ≤ whole.length ∧ whole.length - read ≤ handedOut rest := by
  have hbound : stop + 4 ≤ whole.length := Text.find_bound hfind
  induction cuts generalizing taken with
  | nil =>
      rw [handedOut, List.map_nil, List.sum_nil] at hhanded
      omega
  | cons cut cuts ih =>
      have hne : whole.drop taken ≠ [] := by
        rw [Ne, List.drop_eq_nil_iff]
        omega
      have hbuffer : whole.take taken ++ (whole.drop taken).take (recvSize cut 4096) =
          whole.take (taken + recvSize cut 4096) := by
        rw [List.take_add]
      rw [handedOut_cons] at hhanded
      rw [readHead, if_neg hne]
      dsimp only
      rw [hbuffer, List.drop_drop]
      by_cases hmore : stop + 4 ≤ taken + recvSize cut 4096
      · refine ⟨min (taken + recvSize cut 4096) whole.length, cuts, ?_, by omega, min_le_right _ _,
          by omega⟩
        rw [if_pos (by rw [Text.find_take hfind hmore]; rfl)]
        rcases Nat.le_total (taken + recvSize cut 4096) whole.length with hle | hge
        · rw [Nat.min_eq_left hle]
        · rw [Nat.min_eq_right hge, List.take_of_length_le hge, List.take_length,
            List.drop_of_length_le hge, List.drop_length]
      · have hshort : (whole.take (taken + recvSize cut 4096)).length < stop + 4 := by
          rw [List.length_take]
          omega
        rw [Text.find_take_eq_none hfind (not_le.mp hmore), if_neg nofun, if_neg (by omega)]
        exact ih (not_le.mp hmore) (by omega)

/-- A head that has been read is a beginning of the stream. -/
theorem readHead_ok {buffer : Bytes} {rest : List ℕ}
    (h : readHead ending cuts (whole.drop taken) (whole.take taken) = .ok (buffer, stream, rest)) :
    ∃ read stop, buffer = whole.take read ∧ stream = whole.drop read ∧
      Text.find headEnd (whole.take read) = some stop := by
  induction cuts generalizing taken with
  | nil => cases h
  | cons cut cuts ih =>
      have hbuffer : whole.take taken ++ (whole.drop taken).take (recvSize cut 4096) =
          whole.take (taken + recvSize cut 4096) := by
        rw [List.take_add]
      rw [readHead] at h
      dsimp only at h
      rw [hbuffer, List.drop_drop] at h
      split_ifs at h with hempty hfound hlarge
      · obtain ⟨stop, hstop⟩ := Option.isSome_iff_exists.mp hfound
        cases h
        exact ⟨_, stop, rfl, rfl, hstop⟩
      · exact ih h

/-! ## The body -/

/-- The bytes of the stream go to the destination in order, and the status tells whether they
are as many as asked for; where enough is handed out, nothing of the stream is left. -/
theorem readBody_spec (ending : Ending) (length : ℕ) (cuts : List ℕ) (stream dest : Bytes)
    (received : ℕ) (hreceived : received ≤ length) (hdest : dest.length = length) :
    ∃ n, n ≤ length - received ∧ n ≤ stream.length ∧
      (min (length - received) stream.length ≤ handedOut cuts →
        n = min (length - received) stream.length) ∧
      readBody ending length cuts stream dest received =
        (if received + n < length then ending.status else .ok, received + n,
          overwrite dest received (stream.take n)) := by
  induction cuts generalizing stream dest received with
  | nil =>
      refine ⟨0, Nat.zero_le _, Nat.zero_le _, fun hhanded => (Nat.le_zero.mp hhanded).symm, ?_⟩
      rw [readBody, List.take_zero, overwrite_nil, Nat.add_zero]
      split_ifs <;> rfl
  | cons cut cuts ih =>
      rw [handedOut_cons, readBody]
      by_cases hmore : received < length
      · by_cases hempty : stream = []
        · subst hempty
          refine ⟨0, Nat.zero_le _, Nat.zero_le _, fun _ => (Nat.min_zero _).symm, ?_⟩
          rw [if_pos hmore, if_pos rfl, List.take_zero, overwrite_nil, Nat.add_zero, if_pos hmore]
        · rw [if_pos hmore, if_neg hempty]
          dsimp only
          have hsize : recvSize cut (min 4096 (length - received)) =
              min (recvSize cut 4096) (length - received) := by
            unfold recvSize
            omega
          generalize recvSize cut (min 4096 (length - received)) = size at hsize ⊢
          have hpiece : (stream.take size).length = min size stream.length := List.length_take
          have hfits : received + (stream.take size).length ≤ dest.length := by omega
          obtain ⟨n, hlength, hstream, hall, hread⟩ := ih (stream.drop size)
            (overwrite dest received (stream.take size)) (received + (stream.take size).length)
            (by omega) ((length_overwrite hfits).trans hdest)
          rw [List.length_drop] at hstream hall
          have htake : stream.take size ++ (stream.drop size).take n =
              stream.take ((stream.take size).length + n) := by
            rw [hpiece]
            rcases Nat.le_total size stream.length with hle | hge
            · rw [Nat.min_eq_left hle, List.take_add]
            · rw [List.drop_of_length_le hge, List.take_nil, List.append_nil,
                List.take_of_length_le hge, List.take_of_length_le (by omega)]
          refine ⟨(stream.take size).length + n, by omega, by omega, fun hhanded => ?_, ?_⟩
          · have := hall (by omega)
            omega
          · rw [hread, overwrite_append (by omega), htake, Nat.add_assoc]
      · refine ⟨0, Nat.zero_le _, Nat.zero_le _, fun _ => by omega, ?_⟩
        rw [if_neg hmore, List.take_zero, overwrite_nil, Nat.add_zero, if_neg hmore]

/-- Where enough is handed out, the body is as much of the stream as asked for. -/
theorem readBody_delivered (hhanded : min (length - received) stream.length ≤ handedOut cuts)
    (hreceived : received ≤ length) (hdest : dest.length = length) :
    readBody ending length cuts stream dest received =
      (if received + stream.length < length then ending.status else .ok,
        received + (stream.take (length - received)).length,
        overwrite dest received (stream.take (length - received))) := by
  obtain ⟨n, -, -, hall, hread⟩ := readBody_spec ending length cuts stream dest received hreceived hdest
  have hn := hall hhanded
  have hcond : received + n < length ↔ received + stream.length < length := by omega
  have htake : stream.take n = stream.take (length - received) := by
    rw [List.take_eq_take_iff]
    omega
  rw [hread, List.length_take, ← hn, htake]
  simp only [hcond]

/-! ## The response -/

/-- A head that is not accepted is a failure. -/
theorem checkHead_error {headers : ParsedHeaders} {result : FetchRangeResult}
    (h : checkHead request headers = .error result) : result.status ≠ .ok := by
  unfold checkHead at h
  iterate 5
    split at h
    · cases h
      nofun
  split at h
  · cases h
    nofun
  · dsimp only at h
    split_ifs at h <;> cases h <;> nofun

/-- What `fetch_once` makes of a response that ends its head at some point, as one text. -/
def wholeResponse (request : RangeFetchRequest) (whole : Bytes) (stop : ℕ) :
    FetchRangeResult × Bytes :=
  match checkHead request (parseResponseHead whole).1 with
  | .error result => (result, request.destination)
  | .ok observed =>
      let body := (whole.drop (stop + 4)).take request.length.toNat
      (⟨if body.length < request.length.toNat then .truncated else .ok,
          UInt64.ofNat body.length, observed, 0⟩,
        overwrite request.destination 0 body)

/-- The headers are those of the text up to the end of the head. -/
theorem parseResponseHead_take (hfind : Text.find headEnd whole = some stop)
    (htaken : stop + 4 ≤ taken) :
    parseResponseHead (whole.take taken) = parseResponseHead whole ∧
      (parseResponseHead whole).2 = stop + 4 := by
  unfold parseResponseHead
  rw [Text.find_take hfind htaken, hfind]
  dsimp only [Option.getD_some]
  rw [List.take_take, Nat.min_eq_left (by omega)]
  exact ⟨rfl, rfl⟩

/-- An attempt that reads a head, by what the head is checked to be. -/
theorem fetchOnce_of_readHead {attempt : Attempt} {buffer : Bytes} {rest : List ℕ}
    (hconnected : attempt.connected) (hsent : attempt.sent)
    (hread : readHead attempt.ending attempt.cuts attempt.stream [] = .ok (buffer, stream, rest)) :
    fetchOnce attempt request =
      match checkHead request (parseResponseHead buffer).1 with
      | .error result => (result, request.destination)
      | .ok observed =>
          let already := (buffer.drop (parseResponseHead buffer).2).take request.length.toNat
          let body := readBody attempt.ending request.length.toNat rest stream
            (overwrite request.destination 0 already) already.length
          (⟨body.1, UInt64.ofNat body.2.1, observed, 0⟩, body.2.2) := by
  unfold fetchOnce
  rw [hconnected, hsent, hread]
  rfl

/-- The body is what came with the head, then what is read after it. -/
theorem body_pieces (whole : Bytes) {bodyStart read : ℕ} (h : bodyStart ≤ read) (length : ℕ) :
    ((whole.take read).drop bodyStart).take length ++
        (whole.drop read).take (length - (((whole.take read).drop bodyStart).take length).length) =
      (whole.drop bodyStart).take length := by
  have hsecond : whole.drop read = (whole.drop bodyStart).drop (read - bodyStart) := by
    rw [List.drop_drop, Nat.add_sub_cancel' h]
  rw [List.drop_take, hsecond]
  exact take_append_take_drop (whole.drop bodyStart) (read - bodyStart) length

/-- A response that is delivered is handled as one text. -/
theorem fetchOnce_delivered {attempt : Attempt} (hattempt : attempt.Delivers whole)
    (hfind : Text.find headEnd whole = some stop) (hsize : stop + 4 ≤ 2 ^ 20)
    (hdest : request.destination.length = request.length.toNat) :
    fetchOnce attempt request = wholeResponse request whole stop := by
  obtain ⟨read, rest, hread, hstop, hwhole, hhanded⟩ :=
    @readHead_delivered whole attempt.cuts attempt.ending stop 0 hfind hsize (by omega)
      (by simpa using hattempt.handed)
  rw [List.drop_zero, List.take_zero] at hread
  obtain ⟨hparse, hbody⟩ := parseResponseHead_take hfind hstop
  rw [fetchOnce_of_readHead hattempt.connected hattempt.sent (by rw [hattempt.stream, hread]),
    wholeResponse, hparse, hbody, hattempt.closed]
  cases checkHead request (parseResponseHead whole).1 with
  | error result => rfl
  | ok observed =>
      dsimp only
      have hpieces := body_pieces whole hstop request.length.toNat
      have halready : (((whole.take read).drop (stop + 4)).take request.length.toNat).length ≤
          request.length.toNat := List.length_take_le ..
      have hlater : (whole.drop read).length ≤ handedOut rest := by
        rw [List.length_drop]
        exact hhanded
      generalize ((whole.take read).drop (stop + 4)).take request.length.toNat = already at *
      generalize whole.drop read = later at hpieces hlater ⊢
      have hfits : 0 + already.length ≤ request.destination.length := by omega
      have hcount : already.length + later.length < request.length.toNat ↔
          ((whole.drop (stop + 4)).take request.length.toNat).length < request.length.toNat := by
        rw [← hpieces, List.length_append, List.length_take]
        omega
      rw [readBody_delivered (by omega) halready ((length_overwrite hfits).trans hdest)]
      simp only [hcount]
      rw [← hpieces, List.length_append, ← overwrite_append (Nat.zero_le _), Nat.zero_add]
      rfl

theorem Ending.status_ne_ok (ending : Ending) : ending.status ≠ .ok := by
  cases ending <;> nofun

theorem readHead_error {buffer : Bytes} {status : Status}
    (h : readHead ending cuts stream buffer = .error status) : status ≠ .ok := by
  induction cuts generalizing stream buffer with
  | nil =>
      cases h
      exact ending.status_ne_ok
  | cons cut cuts ih =>
      rw [readHead] at h
      dsimp only at h
      split_ifs at h
      · cases h
        exact ending.status_ne_ok
      · cases h
        nofun
      · exact ih h

/-- An attempt fails and leaves the destination alone, or it goes on from a head that is
accepted to the body. -/
theorem fetchOnce_cases (attempt : Attempt) (request : RangeFetchRequest) :
    ((fetchOnce attempt request).1.status ≠ .ok ∧
      (fetchOnce attempt request).2 = request.destination) ∨
    ∃ read stop rest observed, stop + 4 ≤ read ∧
      Text.find headEnd attempt.stream = some stop ∧
      checkHead request (parseResponseHead attempt.stream).1 = .ok observed ∧
      fetchOnce attempt request =
        let already := ((attempt.stream.take read).drop (stop + 4)).take request.length.toNat
        let body := readBody attempt.ending request.length.toNat rest (attempt.stream.drop read)
          (overwrite request.destination 0 already) already.length
        (⟨body.1, UInt64.ofNat body.2.1, observed, 0⟩, body.2.2) := by
  cases hconnected : attempt.connected with
  | false =>
      rw [fetchOnce, hconnected]
      exact Or.inl ⟨nofun, rfl⟩
  | true =>
  cases hsent : attempt.sent with
  | false =>
      rw [fetchOnce, hconnected, hsent]
      exact Or.inl ⟨nofun, rfl⟩
  | true =>
  cases hread : readHead attempt.ending attempt.cuts attempt.stream [] with
  | error status =>
      rw [fetchOnce, hconnected, hsent, hread]
      exact Or.inl ⟨readHead_error hread, rfl⟩
  | ok result =>
  obtain ⟨buffer, later, rest⟩ := result
  obtain ⟨read, stop, rfl, rfl, hfound⟩ :=
    @readHead_ok attempt.stream later attempt.cuts attempt.ending 0 buffer rest (by simpa using hread)
  have hstop : stop + 4 ≤ read := by
    have hbound := Text.find_bound hfound
    rw [List.length_take] at hbound
    exact hbound.trans (min_le_left _ _)
  have hfind : Text.find headEnd attempt.stream = some stop := by
    have hwhole := Text.find_append hfound (attempt.stream.drop read)
    rwa [List.take_append_drop] at hwhole
  obtain ⟨hparse, hbody⟩ := parseResponseHead_take hfind hstop
  rw [fetchOnce_of_readHead hconnected hsent hread, hparse, hbody]
  cases hcheck : checkHead request (parseResponseHead attempt.stream).1 with
  | error result => exact Or.inl ⟨checkHead_error hcheck, rfl⟩
  | ok observed => exact Or.inr ⟨read, stop, rest, observed, hstop, hfind, rfl, rfl⟩

/-- The destination keeps its length through an attempt. -/
theorem length_fetchOnce (attempt : Attempt)
    (hdest : request.destination.length = request.length.toNat) :
    (fetchOnce attempt request).2.length = request.length.toNat := by
  rcases fetchOnce_cases attempt request with ⟨-, hsame⟩ | ⟨read, stop, rest, observed, -, -, -, hfetch⟩
  · rw [hsame, hdest]
  · have halready : (((attempt.stream.take read).drop (stop + 4)).take request.length.toNat).length ≤
        request.length.toNat := List.length_take_le ..
    rw [hfetch]
    dsimp only
    generalize ((attempt.stream.take read).drop (stop + 4)).take request.length.toNat = already at *
    have hfits : 0 + already.length ≤ request.destination.length := by omega
    have hlength := (length_overwrite hfits).trans hdest
    obtain ⟨n, hn, hlater, -, hbody⟩ := readBody_spec attempt.ending request.length.toNat rest
      (attempt.stream.drop read) (overwrite request.destination 0 already) already.length halready
      hlength
    rw [hbody]
    dsimp only
    rw [length_overwrite (by rw [List.length_take]; omega), hlength]

/-- An attempt that is ok has read a head that is accepted, and the whole body behind it. -/
theorem fetchOnce_ok {attempt : Attempt} (hdest : request.destination.length = request.length.toNat)
    (hok : (fetchOnce attempt request).1.status = .ok) :
    ∃ stop observed, Text.find headEnd attempt.stream = some stop ∧
      checkHead request (parseResponseHead attempt.stream).1 = .ok observed ∧
      (fetchOnce attempt request).1.observed = observed ∧
      (fetchOnce attempt request).1.bytes = request.length ∧
      request.length.toNat ≤ (attempt.stream.drop (stop + 4)).length ∧
      (fetchOnce attempt request).2 =
        (attempt.stream.drop (stop + 4)).take request.length.toNat := by
  rcases fetchOnce_cases attempt request with
    ⟨hfailed, -⟩ | ⟨read, stop, rest, observed, hstop, hfind, hcheck, hfetch⟩
  · exact absurd hok hfailed
  rw [hfetch] at hok ⊢
  dsimp only at hok ⊢
  have hpieces := body_pieces attempt.stream hstop request.length.toNat
  have halready : (((attempt.stream.take read).drop (stop + 4)).take request.length.toNat).length ≤
      request.length.toNat := List.length_take_le ..
  generalize ((attempt.stream.take read).drop (stop + 4)).take request.length.toNat = already at *
  have hfits : 0 + already.length ≤ request.destination.length := by omega
  obtain ⟨n, hn, hlater, -, hbody⟩ := readBody_spec attempt.ending request.length.toNat rest
    (attempt.stream.drop read) (overwrite request.destination 0 already) already.length halready
    ((length_overwrite hfits).trans hdest)
  rw [hbody] at hok ⊢
  have hfull : already.length + n = request.length.toNat := by
    by_contra hne
    rw [if_pos (by omega)] at hok
    exact attempt.ending.status_ne_ok hok
  have hwhole : ((attempt.stream.drop (stop + 4)).take request.length.toNat).length =
      request.length.toNat := by
    have hpiece := congrArg List.length hpieces
    rw [List.length_append, List.length_take] at hpiece
    omega
  refine ⟨stop, observed, hfind, hcheck, rfl, ?_, ?_, ?_⟩
  · rw [hfull]
    exact UInt64.ofNat_toNat
  · rw [List.length_take] at hwhole
    omega
  · dsimp only
    have hoverwrite := @overwrite_append _ request.destination already 0 (Nat.zero_le _)
      ((attempt.stream.drop read).take n)
    rw [Nat.zero_add] at hoverwrite
    have hn : n = request.length.toNat - already.length := by omega
    rw [hoverwrite, hn, hpieces]
    exact overwrite_all (hdest.trans hwhole.symm)

/-- However a response with a head of at most 2^20 bytes is cut, the attempt has one result;
it is ok only with the bytes behind the head in the destination, and truncated with their
number where an acceptable head is followed by fewer of them than asked for. -/
theorem fetchOnce_of_packets (request : RangeFetchRequest) (whole : Bytes) (stop : ℕ)
    (hfind : Text.find headEnd whole = some stop) (hsize : stop + 4 ≤ 2 ^ 20)
    (hdest : request.destination.length = request.length.toNat) :
    (∀ first second : Attempt, first.Delivers whole → second.Delivers whole →
      fetchOnce first request = fetchOnce second request) ∧
    ∀ attempt : Attempt, attempt.Delivers whole →
      ((fetchOnce attempt request).1.status = .ok →
        (fetchOnce attempt request).1.bytes = request.length ∧
        request.length.toNat ≤ (whole.drop (stop + 4)).length ∧
        (fetchOnce attempt request).2 = (whole.drop (stop + 4)).take request.length.toNat) ∧
      (∀ observed, checkHead request (parseResponseHead whole).1 = .ok observed →
        (whole.drop (stop + 4)).length < request.length.toNat →
        (fetchOnce attempt request).1.status = .truncated ∧
        (fetchOnce attempt request).1.bytes.toNat = (whole.drop (stop + 4)).length) := by
  refine ⟨fun first second hfirst hsecond => ?_, fun attempt hattempt => ?_⟩
  · rw [fetchOnce_delivered hfirst hfind hsize hdest, fetchOnce_delivered hsecond hfind hsize hdest]
  rw [fetchOnce_delivered hattempt hfind hsize hdest, wholeResponse]
  have hlength : ((whole.drop (stop + 4)).take request.length.toNat).length =
      min request.length.toNat (whole.drop (stop + 4)).length := List.length_take
  cases hcheck : checkHead request (parseResponseHead whole).1 with
  | error result =>
      exact ⟨fun hok => absurd hok (checkHead_error hcheck), nofun⟩
  | ok observed =>
      dsimp only
      constructor
      · intro hok
        split_ifs at hok with hshort
        have hfull : ((whole.drop (stop + 4)).take request.length.toNat).length =
            request.length.toNat := by omega
        rw [hfull, UInt64.ofNat_toNat]
        exact ⟨rfl, by omega, overwrite_all (hdest.trans hfull.symm)⟩
      · intro _ _ hshort
        rw [if_pos (by omega), List.take_of_length_le hshort.le]
        exact ⟨rfl, Nat.mod_eq_of_lt (lt_trans hshort request.length.toNat_lt)⟩

/-- A response of two bytes. -/
def greeting : Bytes := writeHead (rangeLines 0 1 2 2) ++ ascii "hi"

/-- The response in one packet, and byte for byte. -/
theorem fetchOnce_of_packets_greeting :
    fetchOnce { stream := greeting, cuts := [greeting.length] } ⟨0, 2, [0, 0], {}⟩ =
      fetchOnce { stream := greeting, cuts := List.replicate greeting.length 1 }
        ⟨0, 2, [0, 0], {}⟩ :=
  (fetchOnce_of_packets ⟨0, 2, [0, 0], {}⟩ greeting _
    (parseResponseHead_rangeLines 0 1 2 2 (by decide) (ascii "hi")).1 (by decide) rfl).1 _ _
    ⟨rfl, rfl, rfl, rfl, by decide⟩ ⟨rfl, rfl, rfl, rfl, by decide⟩

end TieredCache.Remote
