/-
# What `wait` reports

`wait` passes a verdict on every entry of its batch, in order, from what the entry's slot
looks like when its turn ends.  A history keeps the verdicts beside the machine, and the
outcome is their tally.
-/

import TieredCache.Table.CallSteps
import TieredCache.Table.Motions

namespace TieredCache

open Math.Runs

variable {cfg : TableConfig}

/-! ## Verdicts and their tally -/

/-- What became of an entry. -/
inductive Verdict
  | filled
  | failed (failure : Status)
  | pending
  | evicted
  deriving DecidableEq, Repr

/-- The failure of a failed row. -/
def Verdict.failure : Verdict → Option Status
  | .failed failure => some failure
  | _ => none

/-- Whether a row failed. -/
def Verdict.isFailed : Verdict → Bool
  | .failed _ => true
  | _ => false

/-- The verdict on an entry, as its slot stands. -/
def Table.verdict (t : Table cfg) (entry : WaiterEntry cfg) : Verdict :=
  match entry.slot with
  | none => .evicted
  | some slot =>
      let s := t.slots slot
      if s.epoch ≠ entry.epoch then .evicted
      else
        match s.state with
        | .ready => .filled
        | .filling => .pending
        | _ => .failed s.failure

namespace WaitOutcome

/-- Count one verdict. -/
def note (outcome : WaitOutcome) : Verdict → WaitOutcome
  | .filled => { outcome with filled := outcome.filled + 1 }
  | .failed failure =>
      { outcome with
        failed := outcome.failed + 1
        status := if outcome.status = .ok then failure else outcome.status }
  | .pending => { outcome with pending := outcome.pending + 1, status := .timeout }
  | .evicted => { outcome with evicted := outcome.evicted + 1 }

/-- The outcome of these verdicts. -/
def tallyOf (verdicts : List Verdict) : WaitOutcome := verdicts.foldl note {}

@[simp]
theorem tallyOf_nil : tallyOf [] = {} := rfl

@[simp]
theorem tallyOf_append (verdicts : List Verdict) (v : Verdict) :
    tallyOf (verdicts ++ [v]) = (tallyOf verdicts).note v := by
  simp [tallyOf]

/-- The failure of the first failed row, in the order of the batch. -/
def firstFailure (verdicts : List Verdict) : Option Status := verdicts.findSome? Verdict.failure

/-- The counts of the outcome, before they wrap. -/
structure Counts (outcome : WaitOutcome) (verdicts : List Verdict) : Prop where
  filled : outcome.filled.toNat = verdicts.count .filled
  failed : outcome.failed.toNat = verdicts.countP Verdict.isFailed
  pending : outcome.pending.toNat = verdicts.count .pending
  evicted : outcome.evicted.toNat = verdicts.count .evicted

/-- The four counts make up the batch. -/
theorem counts_sum (verdicts : List Verdict) :
    verdicts.count .filled + verdicts.countP Verdict.isFailed + verdicts.count .pending +
      verdicts.count .evicted = verdicts.length := by
  induction verdicts with
  | nil => rfl
  | cons v verdicts ih =>
      cases v <;> simp [List.countP_cons, Verdict.isFailed] <;> omega

theorem tallyOf_counts {verdicts : List Verdict} (h : verdicts.length < 2 ^ 32) :
    (tallyOf verdicts).Counts verdicts := by
  induction verdicts using List.reverseRecOn with
  | nil => exact ⟨rfl, rfl, rfl, rfl⟩
  | append_singleton verdicts v ih =>
      rw [List.length_append, List.length_singleton] at h
      obtain ⟨hfilled, hfailed, hpending, hevicted⟩ := ih (by omega)
      have hsum := counts_sum verdicts
      rw [tallyOf_append]
      cases v <;> refine ⟨?_, ?_, ?_, ?_⟩ <;> simp [note, Verdict.isFailed, *]
      all_goals omega

/-- The status of the outcome: a timeout if any row is pending, else the first failure. -/
theorem tallyOf_status {verdicts : List Verdict} (h : ∀ failure, .failed failure ∈ verdicts → failure ≠ .ok) :
    (tallyOf verdicts).status =
      if .pending ∈ verdicts then .timeout else (firstFailure verdicts).getD .ok := by
  induction verdicts using List.reverseRecOn with
  | nil => rfl
  | append_singleton verdicts v ih =>
      have ih := ih fun failure hfailure => h failure (List.mem_append_left _ hfailure)
      rw [tallyOf_append]
      unfold firstFailure at ih ⊢
      rw [List.findSome?_append]
      cases v with
      | filled => simp [note, ih, Verdict.failure]
      | pending => simp [note]
      | evicted => simp [note, ih, Verdict.failure]
      | failed failure =>
          simp only [note, ih, List.mem_append, List.mem_singleton]
          by_cases hpending : Verdict.pending ∈ verdicts
          · simp [hpending]
          · cases hfirst : verdicts.findSome? Verdict.failure with
            | none => simp [hpending, Verdict.failure]
            | some first =>
                obtain ⟨v, hv, hfailure⟩ := List.exists_of_findSome?_eq_some hfirst
                have hne : first ≠ .ok := by
                  cases v <;> cases hfailure
                  exact h first (List.mem_append_left _ hv)
                simp [hpending, hne]

/-- The outcome of a batch tells the truth about these verdicts. -/
structure Truthful (outcome : WaitOutcome) (verdicts : List Verdict) (count : ℕ) : Prop where
  /-- Every row is counted once. -/
  total : outcome.filled.toNat + outcome.failed.toNat + outcome.pending.toNat +
    outcome.evicted.toNat = count
  /-- Success means that every row was filled. -/
  ok : outcome.status = .ok → outcome.filled.toNat = count
  /-- A pending row is a timeout. -/
  timeout : outcome.pending ≠ 0 → outcome.status = .timeout
  /-- Otherwise the first failure is reported. -/
  failure : outcome.pending = 0 → ∀ failure, firstFailure verdicts = some failure →
    outcome.status = failure

/-- Some rows were evicted and all others filled: `wait` reports success. -/
def OnlyEvicted (verdicts : List Verdict) : Prop :=
  .evicted ∈ verdicts ∧ ∀ v ∈ verdicts, v = .filled ∨ v = .evicted

theorem firstFailure_eq_none_iff {verdicts : List Verdict} :
    firstFailure verdicts = none ↔ ∀ failure, .failed failure ∉ verdicts := by
  simp only [firstFailure, List.findSome?_eq_none_iff]
  constructor
  · intro h failure hmem
    cases h _ hmem
  · intro h v hv
    cases v with
    | failed failure => exact absurd hv (h failure)
    | _ => rfl

/-- The outcome tells the truth but for batches of which rows were evicted and nothing
worse happened. -/
theorem tallyOf_truthful_iff {verdicts : List Verdict} (hlength : verdicts.length < 2 ^ 32)
    (hfail : ∀ failure, .failed failure ∈ verdicts → failure ≠ .ok) :
    (tallyOf verdicts).Truthful verdicts verdicts.length ↔ ¬ OnlyEvicted verdicts := by
  obtain ⟨hfilled, hfailed, hpending, hevicted⟩ := tallyOf_counts hlength
  have hsum := counts_sum verdicts
  have hstatus := tallyOf_status hfail
  have hzero : (tallyOf verdicts).pending = 0 ↔ .pending ∉ verdicts := by
    rw [← UInt32.toNat_inj, hpending]
    exact List.count_eq_zero
  constructor
  · rintro htruthful ⟨hmem, honly⟩
    have hnone : firstFailure verdicts = none := by
      refine firstFailure_eq_none_iff.mpr fun failure hfailure => ?_
      rcases honly _ hfailure with h | h <;> cases h
    have hnot : Verdict.pending ∉ verdicts := fun hp => by
      rcases honly _ hp with h | h <;> cases h
    rw [if_neg hnot, hnone] at hstatus
    have hall := htruthful.ok hstatus
    have hpos := List.count_pos_iff.mpr hmem
    omega
  · intro hnot
    refine ⟨by omega, fun hok => ?_, fun hne => ?_, fun hnone failure hfirst => ?_⟩
    · rw [hstatus] at hok
      split_ifs at hok with hp
      have hnone : firstFailure verdicts = none := by
        cases hfirst : firstFailure verdicts with
        | none => rfl
        | some failure =>
            rw [hfirst] at hok
            obtain ⟨v, hv, hfailure⟩ := List.exists_of_findSome?_eq_some hfirst
            cases v <;> cases hfailure
            exact absurd hok (hfail failure hv)
      have hfailures := firstFailure_eq_none_iff.mp hnone
      -- Nothing is pending and nothing failed, so nothing can have been evicted.
      have hclean : Verdict.evicted ∉ verdicts := by
        refine fun hmem => hnot ⟨hmem, fun v hv => ?_⟩
        cases v with
        | filled => exact Or.inl rfl
        | failed failure => exact absurd hv (hfailures failure)
        | pending => exact absurd hv hp
        | evicted => exact Or.inr rfl
      rw [hfilled]
      refine List.count_eq_length.mpr fun v hv => ?_
      cases v with
      | filled => rfl
      | failed failure => exact absurd hv (hfailures failure)
      | pending => exact absurd hv hp
      | evicted => exact absurd hv hclean
    · have hmem := not_not.mp (mt hzero.mpr hne)
      rw [hstatus, if_pos hmem]
    · rw [hstatus, if_neg (hzero.mp hnone), hfirst]
      rfl

end WaitOutcome

/-! ## One step of `wait` -/

/-- The entry a waiting call is at. -/
def WaitPc.position (count : ℕ) : WaitPc cfg → ℕ
  | .entry i => i
  | .finishing i _ _ => i
  | .settle i => i
  | .asleep i _ => i
  | .returned => count

/-- A waiting call has entries left while it is busy with one. -/
def WaitPc.Within (count : ℕ) : WaitPc cfg → Prop
  | .entry i => i ≤ count
  | .finishing i _ _ => i < count
  | .settle i => i < count
  | .asleep i _ => i < count
  | .returned => True

namespace World

variable {w w' u : World cfg} {action : Action cfg} {thread : ThreadId} {choice : Choice}
  {call : WaitCall cfg} {outcome outcome' : WaitOutcome} {pc pc' : WaitPc cfg}

/-- The end of a turn notes the verdict on the entry. -/
theorem settleEntry_eq {i : ℕ} {slot : cfg.SlotId}
    (hslot : (w.table.waiters call.record i).slot = some slot) :
    w.settleEntry outcome i slot (w.table.waiters call.record i).epoch =
      (outcome.note (w.table.verdict (w.table.waiters call.record i)), .entry (i + 1), w) := by
  by_cases hepoch : (w.table.slots slot).epoch = (w.table.waiters call.record i).epoch
  · cases hstate : (w.table.slots slot).state <;>
      simp [settleEntry, Table.verdict, WaitOutcome.note, hslot, hepoch, hstate]
  · simp [settleEntry, Table.verdict, WaitOutcome.note, hslot, hepoch]

/-- What a step of `wait` can do: it stays at its entry, it notes the verdict on the entry
and goes to the next, or it returns after the last. -/
inductive WaitMove (w : World cfg) (call : WaitCall cfg) (outcome : WaitOutcome) (pc : WaitPc cfg) :
    WaitOutcome → WaitPc cfg → Prop
  | stays {pc' : WaitPc cfg} (hposition : pc'.position call.count = pc.position call.count)
      (hwithin : pc'.Within call.count) (hentry : ∀ i, pc' ≠ .entry i) :
      WaitMove w call outcome pc outcome pc'
  | noted (hlt : pc.position call.count < call.count) :
      WaitMove w call outcome pc
        (outcome.note (w.table.verdict (w.table.waiters call.record (pc.position call.count))))
        (.entry (pc.position call.count + 1))
  | returned (hdone : pc.position call.count = call.count) :
      WaitMove w call outcome pc outcome .returned

theorem waitStep_outcome (hwithin : pc.Within call.count)
    (h : w.waitStep call outcome choice pc = some (outcome', pc', u)) :
    WaitMove w call outcome pc outcome' pc' := by
  have hnoted : ∀ {i : ℕ}, pc.position call.count = i → i < call.count →
      outcome' = outcome.note (w.table.verdict (w.table.waiters call.record i)) →
      pc' = .entry (i + 1) → WaitMove w call outcome pc outcome' pc' := by
    rintro i rfl hlt rfl rfl
    exact .noted hlt
  have hsettled : ∀ {i : ℕ} {slot : cfg.SlotId}, pc.position call.count = i → i < call.count →
      (w.table.waiters call.record i).slot = some slot →
      w.settleEntry outcome i slot (w.table.waiters call.record i).epoch = (outcome', pc', u) →
      WaitMove w call outcome pc outcome' pc' := by
    intro i slot hposition hlt hslot hsettle
    rw [settleEntry_eq hslot] at hsettle
    cases hsettle
    exact hnoted hposition hlt rfl rfl
  cases pc with
  | entry i =>
      simp only [waitStep] at h
      split_ifs at h with hi
      · split at h
        · rename_i hnone
          cases h
          exact hnoted rfl hi (by simp [Table.verdict, WaitPc.position, hnone, WaitOutcome.note]) rfl
        · rename_i slot hslot
          split_ifs at h with hepoch hfilling hfinishing
          · cases h
            exact hnoted rfl hi (by simp [Table.verdict, WaitPc.position, hslot, hepoch, WaitOutcome.note]) rfl
          · cases h
            exact .stays rfl hi fun _ hpc => by cases hpc
          · cases h
            exact .stays rfl hi fun _ hpc => by cases hpc
          · exact hsettled rfl hi hslot (Option.some.inj h)
      · cases h
        exact .returned (Nat.le_antisymm hwithin (Nat.le_of_not_lt hi))
  | finishing i slot fpc =>
      simp only [waitStep] at h
      split at h <;> cases h <;> exact .stays rfl hwithin fun _ hpc => by cases hpc
  | settle i =>
      simp only [waitStep] at h
      split at h
      · cases h
      · rename_i slot hslot
        exact hsettled rfl hwithin hslot (Option.some.inj h)
  | asleep i since =>
      simp only [waitStep] at h
      split_ifs at h
      all_goals split at h
      all_goals try cases h
      all_goals rename_i slot hslot
      all_goals split_ifs at h with hdone
      · exact hsettled rfl hwithin hslot (Option.some.inj h)
      · cases h
        rw [not_or, not_not, not_not] at hdone
        exact hnoted rfl hwithin
          (by simp [Table.verdict, WaitPc.position, hslot, hdone.1, hdone.2, WaitOutcome.note]) rfl
      · exact hsettled rfl hwithin hslot (Option.some.inj h)
      · cases h
        exact .stays rfl hwithin fun _ hpc => by cases hpc
  | returned => cases h

end World

end TieredCache
