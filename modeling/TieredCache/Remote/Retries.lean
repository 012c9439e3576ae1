/-
# The law of retries

`fetch_range` makes attempts until one is ok or fails for good, as far as its retries go.  What
it returns is the outcome of the last one, under another status if there were retries and none
was left.
-/

import TieredCache.Math.Retry
import TieredCache.Remote.Validation

namespace TieredCache.Remote

open Math Math.Retry Math.Slices

/-- What ends the attempts of a fetch: success, or a failure that is not transient. -/
def FetchRangeResult.Final (result : FetchRangeResult) : Prop :=
  result.status = .ok ∨ !result.status.isTransient

instance : DecidablePred FetchRangeResult.Final := fun result =>
  inferInstanceAs (Decidable (result.status = .ok ∨ !result.status.isTransient))

/-- One attempt of a fetch, into the destination the attempt before it left. -/
def attemptOn (attempts : ℕ → Attempt) (request : RangeFetchRequest) (n : ℕ) (dest : Bytes) :
    FetchRangeResult × Bytes :=
  fetchOnce (attempts n) { request with destination := dest }

/-- What a fetch returns for the outcome of its last attempt. -/
def concluded (retries : ℕ) (outcome : FetchRangeResult) : FetchRangeResult :=
  let result := { outcome with retries := UInt32.ofNat retries }
  if outcome.Final then result
  else if 0 < retries then { result with status := .retriesExhausted } else result

variable {http : Http1RangeTransport} {attempts : ℕ → Attempt} {request : RangeFetchRequest}

/-- The loop of `fetch_range` is the loop of retries. -/
theorem fetchLoop_eq_run (left retries : ℕ) (dest : Bytes) :
    fetchLoop attempts request left retries dest =
      let made := run (attemptOn attempts request) FetchRangeResult.Final left retries dest
      (concluded (retries + made.earlier.length) made.last, made.state) := by
  induction left generalizing retries dest with
  | zero =>
      rw [fetchLoop_eq, run_eq_turn]
      by_cases hfinal : (attemptOn attempts request retries dest).1.Final
      · rw [if_pos hfinal]
        simp only [concluded, List.length_nil, Nat.add_zero, if_pos hfinal]
        exact if_pos hfinal
      · rw [if_neg hfinal]
        simp only [concluded, List.length_nil, Nat.add_zero, if_neg hfinal]
        exact if_neg hfinal
  | succ left ih =>
      rw [fetchLoop_eq, run_eq_turn]
      by_cases hfinal : (attemptOn attempts request retries dest).1.Final
      · rw [if_pos hfinal]
        simp only [concluded, List.length_nil, Nat.add_zero, if_pos hfinal]
        exact if_pos hfinal
      · rw [if_neg hfinal]
        refine (if_neg hfinal).trans ((ih (retries + 1) _).trans ?_)
        dsimp only
        rw [List.length_cons, Nat.add_assoc, Nat.add_comm 1]
        rfl

namespace Http1RangeTransport

/-- The attempts a well-formed fetch makes. -/
def attemptsMade (http : Http1RangeTransport) (attempts : ℕ → Attempt)
    (request : RangeFetchRequest) : Made FetchRangeResult Bytes :=
  run (attemptOn attempts request) FetchRangeResult.Final http.maxRetries.toNat 0
    request.destination

/-- The outcome of an attempt, were all those before it made. -/
def outcome (attempts : ℕ → Attempt) (request : RangeFetchRequest) (n : ℕ) : FetchRangeResult :=
  outcomeAt (attemptOn attempts request) request.destination n

/-- The first attempt that is ok or fails for good. -/
noncomputable def decided (attempts : ℕ → Attempt) (request : RangeFetchRequest) : ℕ∞ :=
  first fun n => (outcome attempts request n).Final

/-- A request that is looked at: the url was understood, and the destination has the length asked
for, which is not zero. -/
structure WellFormed (http : Http1RangeTransport) (request : RangeFetchRequest) : Prop where
  url : http.url.valid = true
  length : request.length ≠ 0
  destination : request.destination.length = request.length.toNat

/-- A well-formed fetch returns what it concludes from its last attempt. -/
theorem fetchRange_eq_concluded (attempts : ℕ → Attempt) (h : http.WellFormed request) :
    http.fetchRange attempts request =
      (concluded (http.attemptsMade attempts request).earlier.length
          (http.attemptsMade attempts request).last,
        (http.attemptsMade attempts request).state) := by
  have hshape : ¬ (request.length = 0 ∨ request.destination.length ≠ request.length.toNat) :=
    not_or.mpr ⟨h.length, not_not.mpr h.destination⟩
  simp only [fetchRange, h.url, Bool.not_true, Bool.false_eq_true, if_false, if_neg hshape,
    fetchLoop_eq_run, Nat.zero_add]
  rfl

/-- Attempts keep the size of the destination. -/
theorem length_stateAt (h : http.WellFormed request) (n : ℕ) :
    (stateAt (attemptOn attempts request) request.destination n).length =
      request.length.toNat := by
  induction n with
  | zero => exact h.destination
  | succ n ih => exact length_fetchOnce (attempts n) ih

end Http1RangeTransport

/-- The law of a fetch: how many attempts it makes, what it returns and what it leaves in the
destination. -/
structure RetryLaw (http : Http1RangeTransport) (attempts : ℕ → Attempt)
    (request : RangeFetchRequest) : Prop where
  /-- The result is that of the attempts made, and these are so many. -/
  result : http.fetchRange attempts request =
    (concluded (http.attemptsMade attempts request).earlier.length
        (http.attemptsMade attempts request).last,
      (http.attemptsMade attempts request).state)
  count : ((http.attemptsMade attempts request).count : ℕ∞) =
    min (Http1RangeTransport.decided attempts request) http.maxRetries.toNat + 1
  /-- An attempt that decides the fetch is what it returns. -/
  decided : ∀ k : ℕ, Http1RangeTransport.decided attempts request = k → k ≤ http.maxRetries.toNat →
    (http.fetchRange attempts request).1 =
      { Http1RangeTransport.outcome attempts request k with retries := UInt32.ofNat k }
  exhausted : (http.maxRetries.toNat : ℕ∞) < Http1RangeTransport.decided attempts request →
    (http.fetchRange attempts request).1.retries = http.maxRetries ∧
      (http.fetchRange attempts request).1.status =
        if 0 < http.maxRetries then .retriesExhausted
        else (Http1RangeTransport.outcome attempts request 0).status
  /-- Success leaves nothing but bytes of the attempt that succeeded. -/
  destination : (http.fetchRange attempts request).1.status = .ok →
    ∃ k start : ℕ, Http1RangeTransport.decided attempts request = k ∧
      (http.fetchRange attempts request).2 = slice (attempts k).stream start request.length.toNat ∧
      start + request.length.toNat ≤ (attempts k).stream.length

/-- Every well-formed fetch follows the law of retries. -/
theorem retries_follow_law (http : Http1RangeTransport) (attempts : ℕ → Attempt)
    (request : RangeFetchRequest) (h : http.WellFormed request) :
    RetryLaw http attempts request := by
  have hresult := Http1RangeTransport.fetchRange_eq_concluded attempts h
  obtain ⟨m, hm, hmade⟩ := run_law (attemptOn attempts request) FetchRangeResult.Final
    http.maxRetries.toNat request.destination
  have hmade : http.attemptsMade attempts request = _ := hmade
  have hm : (m : ℕ∞) = min (Http1RangeTransport.decided attempts request) http.maxRetries.toNat := hm
  have hreturned : http.fetchRange attempts request =
      (concluded m (Http1RangeTransport.outcome attempts request m),
        stateAt (attemptOn attempts request) request.destination (m + 1)) := by
    rw [hresult, hmade]
    dsimp only
    rw [List.length_map, List.length_range]
    rfl
  have hnot : (http.maxRetries.toNat : ℕ∞) < Http1RangeTransport.decided attempts request →
      m = http.maxRetries.toNat ∧ ¬ (Http1RangeTransport.outcome attempts request m).Final := by
    intro hlt
    have hall : m = http.maxRetries.toNat := Nat.cast_inj.mp (hm.trans (min_eq_right hlt.le))
    rw [← hall] at hlt
    exact ⟨hall, not_of_lt_first hlt⟩
  refine ⟨hresult, ?_, fun k hk hle => ?_, fun hlt => ?_, fun hok => ?_⟩
  · rw [← hm, hmade, Made.count, List.length_map, List.length_range, Nat.cast_succ]
  · have hmk : m = k := by
      rw [hk, min_eq_left (Nat.cast_le.mpr hle)] at hm
      exact Nat.cast_inj.mp hm
    have hfinal : (Http1RangeTransport.outcome attempts request k).Final :=
      (first_eq_coe_iff.mp hk).1
    rw [hreturned, hmk]
    exact if_pos hfinal
  · obtain ⟨hall, hgoes⟩ := hnot hlt
    rw [hreturned, hall]
    rw [hall] at hgoes
    have hpos : 0 < http.maxRetries ↔ 0 < http.maxRetries.toNat := UInt32.lt_iff_toNat_lt
    simp only [concluded, if_neg hgoes, hpos]
    split_ifs with hsome
    · exact ⟨UInt32.ofNat_toNat, rfl⟩
    · rw [Nat.eq_zero_of_not_pos hsome]
      exact ⟨(UInt32.toNat_inj.mp (Nat.eq_zero_of_not_pos hsome)).symm, rfl⟩
  · rw [hreturned] at hok ⊢
    have hstatus : (Http1RangeTransport.outcome attempts request m).status = .ok := by
      simp only [concluded] at hok
      split_ifs at hok with hfinal hretried
      · exact hok
      · exact hok
    have hfinal : (Http1RangeTransport.outcome attempts request m).Final := Or.inl hstatus
    have hdecided : Http1RangeTransport.decided attempts request = m := by
      rcases min_choice (Http1RangeTransport.decided attempts request)
        (http.maxRetries.toNat : ℕ∞) with hmin | hmin
      · exact hmin.symm.trans hm.symm
      · by_contra hne
        have hle : (m : ℕ∞) ≤ Http1RangeTransport.decided attempts request :=
          hm.le.trans (min_le_left _ _)
        exact not_of_lt_first (lt_of_le_of_ne hle (Ne.symm hne)) hfinal
    have hattempt : (fetchOnce (attempts m) { request with
        destination := stateAt (attemptOn attempts request) request.destination m }).1.status =
      .ok := hstatus
    obtain ⟨stop, observed, -, -, -, -, hwhole, hdest⟩ :=
      fetchOnce_ok (Http1RangeTransport.length_stateAt h m) hattempt
    have hpos : 0 < request.length.toNat := Nat.pos_of_ne_zero fun hzero =>
      h.length (UInt64.toNat_inj.mp hzero)
    refine ⟨m, stop + 4, hdecided, hdest, ?_⟩
    rw [List.length_drop] at hwhole
    dsimp only at hwhole
    omega

/-- A server that is not there at first. -/
def lateServer : ℕ → Attempt
  | 0 => { connected := false }
  | n + 1 => zeroAttempts 1 1 n

/-- The first byte of a source. -/
def firstByte : RangeFetchRequest where
  offset := 0
  length := 1
  destination := [7]
  expected := {}

/-- The second attempt succeeds. -/
theorem retries_follow_law_second :
    RetryLaw ⟨{ valid := true }, 1⟩ lateServer firstByte ∧
      (Http1RangeTransport.fetchRange ⟨{ valid := true }, 1⟩ lateServer firstByte) =
        (⟨.ok, 1, { totalSize := 1 }, 1⟩, [0]) :=
  ⟨retries_follow_law _ _ _ ⟨rfl, by decide, rfl⟩, by decide +kernel⟩

end TieredCache.Remote
