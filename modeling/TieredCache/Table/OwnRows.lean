/-
# Batches and their own rows

A batch admits its missing rows one by one, and the clock hand that makes room for them
knows nothing of the rest of the batch.  Whether a batch keeps the rows it found resident
is decided by the order in which the hand would take the slots at its start: a resident
row is safe as long as enough other slots are ahead of it.
-/

import TieredCache.Table.Victims

namespace TieredCache

open Math.Runs Math.Clock

variable {cfg : TableConfig}

/-- Of a slot, at most the second-chance bit and the pins have changed. -/
def Slot.Kept (s s' : Slot cfg) : Prop :=
  ∃ referenced pins, s' = { s with referenced := referenced, pins := pins }

namespace Slot

variable {s s' s'' : Slot cfg}

theorem Kept.refl (s : Slot cfg) : s.Kept s := ⟨s.referenced, s.pins, rfl⟩

theorem Kept.trans (h : s.Kept s') (h' : s'.Kept s'') : s.Kept s'' := by
  obtain ⟨r, n, rfl⟩ := h
  obtain ⟨r', n', rfl⟩ := h'
  exact ⟨r', n', rfl⟩

theorem Kept.state (h : s.Kept s') : s'.state = s.state := by
  obtain ⟨r, n, rfl⟩ := h
  rfl

theorem Kept.key (h : s.Kept s') : s'.key = s.key := by
  obtain ⟨r, n, rfl⟩ := h
  rfl

theorem Kept.indexed (h : s.Kept s') : s'.indexed = s.indexed := by
  obtain ⟨r, n, rfl⟩ := h
  rfl

end Slot

namespace Table

variable {t t' t₀ : Table cfg} {slot : cfg.SlotId} {row : UInt64}

theorem SameSlot.kept {s s' : Slot cfg} (h : SameSlot s s') : s.Kept s' := by
  obtain ⟨r, rfl⟩ := h
  exact ⟨r, s.pins, rfl⟩

theorem pin_kept (t : Table cfg) (slot s : cfg.SlotId) :
    (t.slots s).Kept ((t.pin slot).slots s) := by
  by_cases hs : s = slot
  · subst hs
    exact ⟨_, _, Function.update_self ..⟩
  · rw [show (t.pin slot).slots s = t.slots s from Function.update_of_ne hs ..]
    exact .refl _

/-! ## What a batch owns and what it lacks -/

/-- The slot is ready with a row of the batch, on the current generation. -/
def Own (t : Table cfg) (rows : List UInt64) (slot : cfg.SlotId) : Prop :=
  (t.slots slot).state = .ready ∧ (t.slots slot).rowGeneration = t.currentGeneration ∧
    (t.slots slot).rowIndex ∈ rows

instance (t : Table cfg) (rows : List UInt64) (slot : cfg.SlotId) : Decidable (t.Own rows slot) :=
  inferInstanceAs (Decidable (_ ∧ _ ∧ _))

/-- The rows of the batch that no slot holds. -/
def missing (t : Table cfg) (rows : List UInt64) : List UInt64 :=
  rows.filter fun row => (t.indexFind (row, t.currentGeneration)).isNone

/-- The slots without a row of the batch that the clock hand takes before `slot`. -/
def ahead (t : Table cfg) (rows : List UInt64) (slot : cfg.SlotId) : Finset cfg.SlotId :=
  Finset.univ.filter fun s => ¬ t.Own rows s ∧ Before t.clockHand t.marks s slot

/-- No slot is pinned or filling. -/
def AtRest (t : Table cfg) : Prop := ∀ s, ¬ (t.slots s).Barred

/-- The rows of the batch that were resident still are, and none was fetched again. -/
structure Undisturbed (t t' : Table cfg) (rows : List UInt64) : Prop where
  kept : ∀ slot, t.Own rows slot → (t.slots slot).Kept (t'.slots slot)
  fetched : ∃ keys, t'.fetchLog = keys ++ t.fetchLog ∧ ∀ key ∈ keys, t.indexFind key = none

variable {rows done : List UInt64}

@[simp]
theorem own_nil : ¬ t.Own [] slot := fun h => by simpa using h.2.2

theorem own_append : t.Own (done ++ [row]) slot ↔ t.Own done slot ∨ t.Own [row] slot := by
  simp only [Own, List.mem_append]
  tauto

theorem Own.mono (h : t.Own done slot) (hsub : ∀ row ∈ done, row ∈ rows) : t.Own rows slot :=
  ⟨h.1, h.2.1, hsub _ h.2.2⟩

theorem missing_append (t : Table cfg) (done : List UInt64) (row : UInt64) :
    t.missing (done ++ [row]) =
      t.missing done ++ if t.indexFind (row, t.currentGeneration) = none then [row] else [] := by
  simp only [missing, List.filter_append, List.filter_cons, List.filter_nil, Option.isNone_iff_eq_none]

theorem mem_missing_append {row' : UInt64} :
    row' ∈ t.missing (done ++ [row]) ↔
      row' ∈ t.missing done ∨ row' = row ∧ t.indexFind (row, t.currentGeneration) = none := by
  rw [missing_append, List.mem_append]
  split_ifs with hnone <;> simp [hnone]

/-- The slot a resident row of a table at rest is found in is its own. -/
theorem own_of_indexFind (hindex : t.IndexInv) (hatRest : t.AtRest)
    (h : t.indexFind (row, t.currentGeneration) = some slot) : t.Own [row] slot := by
  obtain ⟨hindexed, hkey⟩ := hindex.indexFind_eq_some_iff.mp h
  rw [Slot.key, Prod.mk.injEq] at hkey
  have hready := ((hindex.occupied slot).mp hindexed).resolve_left fun hfilling =>
    hatRest slot (Or.inr hfilling)
  exact ⟨hready, hkey.2, by simp [hkey.1]⟩

/-- A row a slot owns is found there. -/
theorem Own.indexFind (hindex : t.IndexInv) (h : t.Own [row] slot) :
    t.indexFind (row, t.currentGeneration) = some slot := by
  apply hindex.indexFind_eq_some_iff.mpr
  refine ⟨(hindex.occupied slot).mpr (Or.inr h.1), ?_⟩
  rw [Slot.key, h.2.1, List.mem_singleton.mp h.2.2]

/-! ## One row -/

/-- The sweep `claim_victim` makes. -/
def victimSweep (t : Table cfg) : Swept cfg.budgetRows.toNat :=
  sweep (2 * cfg.budgetRows).toNat t.clockHand t.marks

theorem swept_marks (t : Table cfg) (s : cfg.SlotId) :
    (t.swept t.victimSweep).marks s = t.victimSweep.marks s := by
  have hmarks := sweep_marks (2 * cfg.budgetRows).toNat t.clockHand t.marks s
  by_cases hsame : t.victimSweep.marks s = t.marks s
  · have hslot : (t.swept t.victimSweep).slots s = t.slots s := if_pos hsame
    rw [hsame, marks, hslot, marks]
  · obtain ⟨hspared, hclaimable⟩ := hmarks.resolve_left hsame
    have hslot : (t.swept t.victimSweep).slots s = { t.slots s with referenced := false } :=
      if_neg hsame
    rw [marks, hslot, Slot.mark_cleared hspared]
    exact hclaimable.symm

@[simp]
theorem take_clockHand (t : Table cfg) (slot : cfg.SlotId) :
    (t.take slot).clockHand = t.clockHand := by
  unfold take
  split <;> rfl

theorem claimVictim_of_none (h : t.victimSweep.taken = none) :
    t.claimVictim = (none, t.swept t.victimSweep) := by
  rw [claimVictim_eq, ← victimSweep, h]

theorem claimVictim_of_some (h : t.victimSweep.taken = some slot) :
    t.claimVictim = (some slot, (t.swept t.victimSweep).take slot) := by
  rw [claimVictim_eq, ← victimSweep, h]

/-- What a search for a victim leaves of the hand, the marks and the slots. -/
theorem claimVictim_marks (t : Table cfg) :
    t.claimVictim.1 = t.victimSweep.taken ∧ t.claimVictim.2.clockHand = t.victimSweep.hand ∧
      ∀ s, t.victimSweep.taken ≠ some s →
        t.claimVictim.2.marks s = t.victimSweep.marks s ∧
          SameSlot (t.slots s) (t.claimVictim.2.slots s) := by
  cases htaken : t.victimSweep.taken with
  | none =>
      rw [claimVictim_of_none htaken]
      exact ⟨rfl, rfl, fun s _ => ⟨t.swept_marks s, t.swept_slots _ s⟩⟩
  | some victim =>
      rw [claimVictim_of_some htaken]
      refine ⟨rfl, take_clockHand _ _, fun s hs => ?_⟩
      have hne : s ≠ victim := by
        rintro rfl
        exact hs rfl
      rw [marks, (take_spec _ victim).1 s hne]
      exact ⟨t.swept_marks s, t.swept_slots _ s⟩

/-- What admitting a row that no slot holds does to the hand, the slots and the log of
fetches: what one sweep does, and at most one fetch. -/
structure Searched (t : Table cfg) (row : UInt64) (t' : Table cfg) : Prop where
  hand : t'.clockHand = t.victimSweep.hand
  marks : ∀ s, t.victimSweep.taken ≠ some s → t'.marks s = t.victimSweep.marks s
  slots : ∀ s, t.victimSweep.taken ≠ some s → SameSlot (t.slots s) (t'.slots s)
  taken : ∀ s, t.victimSweep.taken = some s → (t'.slots s).state ≠ .ready
  log : t'.fetchLog = t.fetchLog ∨ t'.fetchLog = (row, t.currentGeneration) :: t.fetchLog

/-- What admitting a row does: nothing to speak of if the row is found. -/
structure RowStep (t : Table cfg) (row : UInt64) (t' : Table cfg) : Prop where
  found : ∀ slot, t.indexFind (row, t.currentGeneration) = some slot →
    t'.clockHand = t.clockHand ∧ t'.slots = t.slots ∧ t'.fetchLog = t.fetchLog
  searched : t.indexFind (row, t.currentGeneration) = none → t.Searched row t'

@[simp]
theorem startFillLocked_clockHand (t : Table cfg) (answers : Answers) (slot : cfg.SlotId)
    (row : UInt64) : (t.startFillLocked answers slot row).2.clockHand = t.clockHand := by
  obtain ⟨u, hu, hstart⟩ := t.startFillLocked_cases answers slot row
  cases hu with
  | mk =>
      rcases hstart with ⟨length, head, hstart⟩ | ⟨status, -, hstart⟩ <;> rw [hstart] <;> rfl

theorem startFillLocked_outcome (t : Table cfg) (answers : Answers) (slot : cfg.SlotId)
    (row : UInt64) :
    ((t.startFillLocked answers slot row).2.slots slot).state ≠ .ready ∧
      ((t.startFillLocked answers slot row).2.fetchLog = t.fetchLog ∨
        (t.startFillLocked answers slot row).2.fetchLog =
          (row, t.currentGeneration) :: t.fetchLog) := by
  rcases hstart : t.startFillLocked answers slot row with ⟨status, u⟩
  by_cases hok : status = .ok
  · subst hok
    obtain ⟨hstate, -, -, -, hlog⟩ := startFillLocked_ok hstart
    exact ⟨by simp [hstate], Or.inr hlog⟩
  · obtain ⟨hstate, hlog⟩ := startFillLocked_refused hstart hok
    exact ⟨by simp [hstate], Or.inl hlog⟩

/-- A search and nothing more. -/
theorem searched_alone (t : Table cfg) (row : UInt64) : t.Searched row t.claimVictim.2 where
  hand := t.claimVictim_marks.2.1
  marks := fun s hs => (t.claimVictim_marks.2.2 s hs).1
  slots := fun s hs => (t.claimVictim_marks.2.2 s hs).2
  taken := fun s hs => by
    have hfree := t.claimVictim_spec.2 s (t.claimVictim_marks.1.trans hs)
    simp [hfree]
  log := Or.inl t.claimVictim_spec.1.fetchLog

/-- A search, and a fill in the slot it found. -/
theorem searched_some (answers : Answers) (row : UInt64) (h : t.claimVictim.1 = some slot) :
    t.Searched row (t.claimVictim.2.startFillLocked answers slot row).2 := by
  obtain ⟨htaken, hhand, hslots⟩ := t.claimVictim_marks
  have hsweeps := t.claimVictim_spec.1
  have hother : ∀ s, t.victimSweep.taken ≠ some s → s ≠ slot := by
    rintro s hs rfl
    exact hs (htaken.symm.trans h)
  have hframe := (startFillLocked_frame t.claimVictim.2 answers slot row).2
  have hstarted := startFillLocked_outcome t.claimVictim.2 answers slot row
  refine ⟨by rw [startFillLocked_clockHand, hhand], fun s hs => ?_, fun s hs => ?_,
    fun s hs => ?_, ?_⟩
  · rw [Table.marks, hframe s (hother s hs)]
    exact (hslots s hs).1
  · rw [hframe s (hother s hs)]
    exact (hslots s hs).2
  · rw [← htaken, h] at hs
    cases hs
    exact hstarted.1
  · rw [← hsweeps.fetchLog, ← hsweeps.quiets.frame.1.currentGeneration]
    exact hstarted.2

theorem findOrFetch_rowStep (t : Table cfg) (answers : Answers) (row : UInt64) :
    t.RowStep row (t.findOrFetch answers row).2 := by
  refine ⟨fun slot hfind => ?_, fun hnone => ?_⟩
  · simp only [findOrFetch, hfind]
    split <;> exact ⟨rfl, rfl, rfl⟩
  · simp only [findOrFetch, hnone]
    rcases hclaim : t.claimVictim with ⟨victim, u⟩
    cases victim with
    | none =>
        have hsearched := t.searched_alone row
        rwa [hclaim] at hsearched
    | some slot =>
        have hsearched := searched_some answers row (congrArg Prod.fst hclaim)
        rw [hclaim] at hsearched
        dsimp only at hsearched ⊢
        rcases hstart : u.startFillLocked answers slot row with ⟨status, u'⟩
        rw [hstart] at hsearched
        cases status <;> exact hsearched

/-- `prefetch` admits a row as `resolve_into` does, but for the counters, and notes where. -/
theorem prefetchRow_eq (t : Table cfg) (answers : Answers) (record : cfg.RecordId) (i : ℕ)
    (row : UInt64) : ∃ counters waiters, t.prefetchRow answers record i row =
      { (t.findOrFetch answers row).2 with counters := counters, waiters := waiters } := by
  cases hfind : t.indexFind (row, t.currentGeneration) with
  | none =>
      rcases hclaim : t.claimVictim with ⟨victim, u⟩
      simp only [prefetchRow, findOrFetch, hfind, hclaim]
      cases victim with
      | none => exact ⟨_, _, rfl⟩
      | some slot =>
          dsimp only
          rcases u.startFillLocked answers slot row with ⟨status, u'⟩
          cases status <;> exact ⟨_, _, rfl⟩
  | some slot =>
      simp only [prefetchRow, findOrFetch, hfind]
      cases (t.slots slot).state <;> exact ⟨_, _, rfl⟩

theorem prefetchRow_rowStep (t : Table cfg) (answers : Answers) (record : cfg.RecordId) (i : ℕ)
    (row : UInt64) : t.RowStep row (t.prefetchRow answers record i row) := by
  obtain ⟨counters, waiters, heq⟩ := t.prefetchRow_eq answers record i row
  have hstep := t.findOrFetch_rowStep answers row
  rw [heq]
  refine ⟨hstep.found, fun hnone => ?_⟩
  obtain ⟨hhand, hmarks, hslots, htaken, hlog⟩ := hstep.searched hnone
  exact ⟨hhand, hmarks, hslots, htaken, hlog⟩

/-! ## The course of a batch -/

/-- What admitting a row takes. -/
def takes (t : Table cfg) (row : UInt64) : Finset cfg.SlotId :=
  if t.indexFind (row, t.currentGeneration) = none then t.victimSweep.taken.toFinset else ∅

/-- The table in the course of a batch that began in `t₀`, has taken the slots of `taken` and
pinned the slots of `sheltered`. -/
structure Course (t₀ : Table cfg) (sheltered : List UInt64) (taken : Finset cfg.SlotId)
    (t : Table cfg) : Prop where
  index : t.IndexInv
  generation : t.currentGeneration = t₀.currentGeneration
  since : Since t₀.clockHand t₀.marks taken t.clockHand t.marks
  kept : ∀ s, s ∉ taken → (t₀.slots s).Kept (t.slots s)
  pins : ∀ s, s ∉ taken → ((t.slots s).pins ≠ 0 ↔ t₀.Own sheltered s)
  bound : ∀ s, s ∉ taken → (t.slots s).pins.toNat ≤ sheltered.length
  lost : ∀ s ∈ taken, (t.slots s).state ≠ .ready

/-- None of the slots that were taken held a row of the batch. -/
def Spares (t₀ : Table cfg) (rows : List UInt64) (taken : Finset cfg.SlotId) : Prop :=
  ∀ s ∈ taken, ¬ t₀.Own rows s

namespace Course

variable {sheltered : List UInt64} {taken : Finset cfg.SlotId}

theorem start (hatRest : t₀.AtRest) (hindex : t.IndexInv)
    (hgeneration : t.currentGeneration = t₀.currentGeneration)
    (hhand : t.clockHand = t₀.clockHand) (hslots : t.slots = t₀.slots) :
    Course t₀ [] ∅ t where
  index := hindex
  generation := hgeneration
  since := by
    have hmarks : t.marks = t₀.marks := by
      ext s : 1
      rw [marks, marks, hslots]
    rw [hhand, hmarks]
    exact .refl ..
  kept := fun s _ => by
    rw [hslots]
    exact .refl _
  pins := fun s _ => by
    rw [hslots]
    simpa using fun hpins => hatRest s (Or.inl hpins)
  bound := fun s _ => by
    rw [hslots]
    have hpins : (t₀.slots s).pins = 0 := not_not.mp fun hne => hatRest s (Or.inl hne)
    simp [hpins]
  lost := fun s hs => by simp at hs

/-- What the batch has not taken is there to be found. -/
theorem indexFind (h : Course t₀ sheltered taken t) (hindex : t₀.IndexInv) (hs : slot ∉ taken)
    (hfind : t₀.indexFind (row, t₀.currentGeneration) = some slot) :
    t.indexFind (row, t.currentGeneration) = some slot := by
  rw [hindex.indexFind_eq_some_iff] at hfind
  rw [h.index.indexFind_eq_some_iff, h.generation, (h.kept slot hs).indexed, (h.kept slot hs).key]
  exact hfind

/-- What is found in a slot the batch has not taken was there before. -/
theorem indexFind_back (h : Course t₀ sheltered taken t) (hindex : t₀.IndexInv) (hs : slot ∉ taken)
    (hfind : t.indexFind (row, t.currentGeneration) = some slot) :
    t₀.indexFind (row, t₀.currentGeneration) = some slot := by
  rw [h.index.indexFind_eq_some_iff, h.generation, (h.kept slot hs).indexed,
    (h.kept slot hs).key] at hfind
  exact hindex.indexFind_eq_some_iff.mpr hfind

/-- A row of the batch that is not found was not resident. -/
theorem absent (h : Course t₀ sheltered taken t) (hindex : t₀.IndexInv) (hatRest : t₀.AtRest)
    (hspares : t₀.Spares rows taken) (hrow : row ∈ rows)
    (hnone : t.indexFind (row, t.currentGeneration) = none) :
    t₀.indexFind (row, t₀.currentGeneration) = none := by
  cases hfind : t₀.indexFind (row, t₀.currentGeneration) with
  | none => rfl
  | some slot =>
      have hown := own_of_indexFind hindex hatRest hfind
      have hs : slot ∉ taken := fun htaken =>
        hspares slot htaken (hown.mono (by simpa using hrow))
      rw [h.indexFind hindex hs hfind] at hnone
      cases hnone

/-- A slot that is neither taken nor sheltered can be taken next. -/
theorem live (h : Course t₀ sheltered taken t) (hatRest : t₀.AtRest) (hs : slot ∉ taken)
    (hown : ¬ t₀.Own sheltered slot) : t.marks slot ≠ .barred := by
  have hpins : (t.slots slot).pins = 0 := not_not.mp fun hne => hown ((h.pins slot hs).mp hne)
  have hfilling : (t.slots slot).state ≠ .filling := by
    rw [(h.kept slot hs).state]
    exact fun hfilling => hatRest slot (Or.inr hfilling)
  simp only [marks, Slot.mark, hpins, hfilling]
  split_ifs <;> simp_all

/-- The next row. -/
theorem step (h : Course t₀ sheltered taken t) (hstep : t.RowStep row t') (hindex : t'.IndexInv)
    (hgeneration : t'.currentGeneration = t.currentGeneration) :
    Course t₀ sheltered (taken ∪ t.takes row) t' := by
  cases hfind : t.indexFind (row, t.currentGeneration) with
  | some slot =>
      obtain ⟨hhand, hslots, -⟩ := hstep.found slot hfind
      have htakes : t.takes row = ∅ := by simp [takes, hfind]
      have hmarks : t'.marks = t.marks := by
        ext s : 1
        rw [marks, marks, hslots]
      rw [htakes, Finset.union_empty]
      exact ⟨hindex, hgeneration.trans h.generation, by rw [hhand, hmarks]; exact h.since,
        fun s hs => by rw [hslots]; exact h.kept s hs, fun s hs => by rw [hslots]; exact h.pins s hs,
        fun s hs => by rw [hslots]; exact h.bound s hs,
        fun s hs => by rw [hslots]; exact h.lost s hs⟩
  | none =>
      obtain ⟨hhand, hmarks, hslots, htaken, -⟩ := hstep.searched hfind
      have htakes : t.takes row = t.victimSweep.taken.toFinset := if_pos hfind
      have hleft : ∀ s, s ∉ taken ∪ t.takes row → s ∉ taken ∧ t.victimSweep.taken ≠ some s := by
        intro s hs
        simpa [htakes] using hs
      refine ⟨hindex, hgeneration.trans h.generation, ?_, fun s hs => ?_, fun s hs => ?_,
        fun s hs => ?_, fun s hs => ?_⟩
      · rw [hhand, htakes]
        exact h.since.sweep hmarks
      · exact (h.kept s (hleft s hs).1).trans (SameSlot.kept (hslots s (hleft s hs).2))
      · obtain ⟨r, hr⟩ := hslots s (hleft s hs).2
        rw [hr]
        exact h.pins s (hleft s hs).1
      · obtain ⟨r, hr⟩ := hslots s (hleft s hs).2
        rw [hr]
        exact h.bound s (hleft s hs).1
      · by_cases hvictim : t.victimSweep.taken = some s
        · exact htaken s hvictim
        · obtain ⟨r, hr⟩ := hslots s hvictim
          rw [hr]
          exact h.lost s (by simpa [htakes, hvictim] using hs)

/-- The slot a row was found in is pinned. -/
theorem pin (h : Course t₀ sheltered taken t) (hindex : t₀.IndexInv) (hatRest : t₀.AtRest)
    (hfind : t.indexFind (row, t.currentGeneration) = some slot)
    (hroom : sheltered.length + 1 < 2 ^ 32) :
    Course t₀ (sheltered ++ [row]) taken (t.pin slot) := by
  have hself : (t.pin slot).slots slot =
      { t.slots slot with pins := (t.slots slot).pins + 1, referenced := true } :=
    Function.update_self ..
  have hother : ∀ s, s ≠ slot → (t.pin slot).slots s = t.slots s := fun s hs =>
    Function.update_of_ne hs ..
  have hcount : slot ∉ taken →
      ((t.slots slot).pins + 1).toNat = (t.slots slot).pins.toNat + 1 := fun hs => by
    have hbound := h.bound slot hs
    rw [UInt32.toNat_add]
    exact Nat.mod_eq_of_lt (by simpa using by omega)
  have hmine : slot ∉ taken → t₀.Own [row] slot := fun hs =>
    own_of_indexFind hindex hatRest (h.indexFind_back hindex hs hfind)
  have hothers : ∀ s, s ∉ taken → s ≠ slot → ¬ t₀.Own [row] s := fun s hs hne hown => by
    have hfound := h.indexFind hindex hs (hown.indexFind hindex)
    rw [hfind] at hfound
    cases hfound
    exact hne rfl
  have hpins : slot ∉ taken → (t.slots slot).pins + 1 ≠ 0 := fun hs hzero => by
    have := hcount hs
    rw [hzero] at this
    simp at this
  refine ⟨h.index.pin slot, h.generation, h.since.bar ?_, fun s hs => ?_, fun s hs => ?_,
    fun s hs => ?_, fun s hs => ?_⟩
  · intro s hs hlive
    by_cases hne : s = slot
    · subst hne
      have hready := (h.kept s hs).state.trans (hmine hs).1
      refine absurd ?_ hlive
      simp [marks, Slot.mark, hself, hready, hpins hs]
    · rw [marks, marks, hother s hne]
  · exact (h.kept s hs).trans (t.pin_kept slot s)
  · rw [own_append]
    by_cases hne : s = slot
    · subst hne
      rw [hself]
      exact iff_of_true (hpins hs) (Or.inr (hmine hs))
    · rw [hother s hne, h.pins s hs, or_iff_left (hothers s hs hne)]
  · rw [List.length_append, List.length_singleton]
    by_cases hne : s = slot
    · subst hne
      rw [hself]
      exact (hcount hs).le.trans (Nat.succ_le_succ (h.bound s hs))
    · rw [hother s hne]
      exact (h.bound s hs).trans (Nat.le_succ _)
  · rw [(t.pin_kept slot s).state]
    exact h.lost s hs

/-- Every slot ahead of one that has been taken has been taken, or holds a row of the batch. -/
theorem ahead_subset (h : Course t₀ sheltered taken t) (hatRest : t₀.AtRest)
    (hsub : ∀ row ∈ sheltered, row ∈ rows) (hs : slot ∈ taken) : t₀.ahead rows slot ⊆ taken := by
  intro q hq
  by_contra hleft
  simp only [ahead, Finset.mem_filter, Finset.mem_univ, true_and] at hq
  have hlive := h.live hatRest hleft fun hown => hq.1 (hown.mono hsub)
  exact (h.since.first slot q hs hleft hlive).asymm hq.2

/-- While too few slots have been taken to reach it, a row of the batch is not taken. -/
theorem spares (h : Course t₀ sheltered taken t) (hnext : Course t₀ sheltered (taken ∪ t.takes row) t')
    (hatRest : t₀.AtRest) (hsub : ∀ row ∈ sheltered, row ∈ rows) (hspares : t₀.Spares rows taken)
    (hfew : t.indexFind (row, t.currentGeneration) = none → ∀ s, t₀.Own rows s →
      ¬ t₀.Own sheltered s → taken.card < (t₀.ahead rows s).card) :
    t₀.Spares rows (taken ∪ t.takes row) := by
  intro s hs hown
  rcases Finset.mem_union.mp hs with hold | hnew
  · exact hspares s hold hown
  · have hfind : t.indexFind (row, t.currentGeneration) = none := by
      by_contra hne
      simp [takes, hne] at hnew
    have htaken : t.victimSweep.taken = some s := by simpa [takes, hfind] using hnew
    have hleft : s ∉ taken := fun hold => hspares s hold hown
    have hfree : ¬ t₀.Own sheltered s := fun hsheltered => by
      refine sweep_not_barred htaken ?_
      have hready := (h.kept s hleft).state.trans hown.1
      simp [marks, Slot.mark, hready, (h.pins s hleft).mpr hsheltered]
    obtain ⟨q, hq, hqleft⟩ := Finset.exists_mem_notMem_of_card_lt_card (hfew hfind s hown hfree)
    have hqtaken := hnext.ahead_subset hatRest hsub hs hq
    have hqs : q = s := by
      have hqnew := (Finset.mem_union.mp hqtaken).resolve_left hqleft
      have : t.victimSweep.taken = some q := by simpa [takes, hfind] using hqnew
      rw [htaken] at this
      cases this
      rfl
    subst hqs
    simp only [ahead, Finset.mem_filter, Finset.mem_univ, true_and] at hq
    exact hq.1 hown

end Course

end Table

end TieredCache
