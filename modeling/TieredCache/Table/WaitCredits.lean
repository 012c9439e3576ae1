/-
# `wait` credits an entry with its own fill

An entry names a slot and the slot's epoch at the time, a 32-bit word.  While the slot has not been
admitted a multiple of `2 ^ 32` times since, what `wait` says of the entry is what became of the
fill that was prefetched for it.
-/

import TieredCache.Table.Ages
import TieredCache.Table.FlatFile
import TieredCache.Table.Histories

namespace TieredCache

open Math.Runs

variable {cfg : TableConfig}

/-! ## Entries and their fills -/

namespace Table

variable {t t' : Table cfg} {slot : cfg.SlotId} {entry : WaiterEntry cfg} {key : RowKey}

/-- The slot still has the very admission of the entry. -/
def Holds (t : Table cfg) (slot : cfg.SlotId) (entry : WaiterEntry cfg) : Prop :=
  entry.slot = some slot ∧ (t.slots slot).admission = entry.admission

/-- The slot has the epoch of the entry, by another admission. -/
def Recycled (t : Table cfg) (entry : WaiterEntry cfg) : Prop :=
  ∃ slot, entry.slot = some slot ∧ (t.slots slot).epoch = entry.epoch ∧
    (t.slots slot).admission ≠ entry.admission

/-- A verdict on an entry that was recorded for this row and generation is about the entry's own
fill. -/
structure Credits (t : Table cfg) (entry : WaiterEntry cfg) (key : RowKey) (verdict : Verdict) :
    Prop where
  filled : verdict = .filled → ∃ slot, t.Holds slot entry ∧ (t.slots slot).state = .ready ∧
    (t.slots slot).key = key
  failed : ∀ failure, verdict = .failed failure → ∃ slot, t.Holds slot entry ∧
    (t.slots slot).state = .failed ∧ (t.slots slot).key = key ∧ (t.slots slot).failure = failure
  pending : verdict = .pending → ∃ slot, t.Holds slot entry ∧ (t.slots slot).state = .filling ∧
    (t.slots slot).key = key
  evicted : verdict = .evicted ↔ ∀ slot, ¬ t.Holds slot entry

/-- What may have become of an entry's slot: it has the admission, the epoch and the key of the
entry, or it has been admitted again, some number of times. -/
def Since (t : Table cfg) (entry : WaiterEntry cfg) (key : RowKey) : Prop :=
  ∀ slot, entry.slot = some slot → entry.admission < t.admissions ∧
    ((t.slots slot).epoch = entry.epoch ∧ (t.slots slot).admission = entry.admission ∧
        (t.slots slot).key = key ∨
      ∃ d, 0 < d ∧ (t.slots slot).epoch = entry.epoch + UInt32.ofNat d ∧
        entry.admission + d ≤ (t.slots slot).admission ∧
        (t.slots slot).admission < t.admissions)

theorem Since.ages (h : t.Since entry key) (hages : Ages t t') : t'.Since entry key := by
  intro slot hslot
  have hle := hages.admissions
  obtain ⟨hpast, hsame | ⟨d, hd, hepoch, hsince, hbound⟩⟩ := h slot hslot
  · obtain ⟨hepoch, hadmission, hkey⟩ := hsame
    refine ⟨by omega, ?_⟩
    cases hages.slots slot with
    | kept hepoch' hadmission' hkey' hfilling hfree =>
        exact Or.inl ⟨hepoch'.trans hepoch, hadmission'.trans hadmission, hkey'.trans hkey⟩
    | readmitted d hd hepoch' hsince hbound =>
        exact Or.inr ⟨d, hd, by rw [hepoch', hepoch], by omega, hbound⟩
  · refine ⟨by omega, Or.inr ?_⟩
    cases hages.slots slot with
    | kept hepoch' hadmission' hkey' hfilling hfree =>
        exact ⟨d, hd, hepoch'.trans hepoch, by omega, by omega⟩
    | readmitted d' hd' hepoch' hsince' hbound' =>
        refine ⟨d + d', by omega, ?_, by omega, hbound'⟩
        rw [hepoch', hepoch, UInt32.ofNat_add, UInt32.add_assoc]

/-- An epoch comes round after `2 ^ 32` admissions. -/
theorem Since.recycled (h : t.Since entry key) (hrecycled : t.Recycled entry) :
    entry.admission + 2 ^ 32 < t.admissions := by
  obtain ⟨slot, hslot, hepoch, hadmission⟩ := hrecycled
  obtain ⟨-, ⟨-, hsame, -⟩ | ⟨d, hd, hmoved, hsince, hbound⟩⟩ := h slot hslot
  · exact absurd hsame hadmission
  · have hzero : UInt32.ofNat d = 0 := by
      rw [hepoch] at hmoved
      exact (UInt32.add_eq_left.mp hmoved.symm)
    have hmod := congrArg UInt32.toNat hzero
    rw [UInt32.toNat_ofNat', UInt32.toNat_zero] at hmod
    have hfar := Nat.le_of_dvd hd (Nat.dvd_of_mod_eq_zero hmod)
    omega

/-- An entry whose fill is not there any more is evicted. -/
theorem credits_evicted (h : ∀ slot, ¬ t.Holds slot entry) : t.Credits entry key .evicted where
  filled := by simp
  failed := by simp
  pending := by simp
  evicted := iff_of_true rfl h

/-- An entry whose fill is there is what that fill is. -/
theorem Holds.credits (h : t.Holds slot entry) (hkey : (t.slots slot).key = key)
    (hepoch : (t.slots slot).epoch = entry.epoch) (hused : (t.slots slot).state ≠ .free) :
    t.Credits entry key (t.verdict entry) := by
  have hheld : ¬ ∀ s, ¬ t.Holds s entry := fun hnone => hnone slot h
  cases hstate : (t.slots slot).state with
  | free => exact absurd hstate hused
  | filling =>
      have hverdict : t.verdict entry = .pending := by simp [verdict, h.1, hepoch, hstate]
      rw [hverdict]
      exact ⟨by simp, by simp, fun _ => ⟨slot, h, hstate, hkey⟩, iff_of_false (by simp) hheld⟩
  | ready =>
      have hverdict : t.verdict entry = .filled := by simp [verdict, h.1, hepoch, hstate]
      rw [hverdict]
      exact ⟨fun _ => ⟨slot, h, hstate, hkey⟩, by simp, by simp, iff_of_false (by simp) hheld⟩
  | failed =>
      have hverdict : t.verdict entry = .failed (t.slots slot).failure := by
        simp [verdict, h.1, hepoch, hstate]
      rw [hverdict]
      refine ⟨by simp, fun failure heq => ?_, by simp, iff_of_false (by simp) hheld⟩
      cases heq
      exact ⟨slot, h, hstate, hkey, rfl⟩

/-- `wait` credits an entry with its own fill unless the epoch of the slot has come round. -/
theorem Since.credits_iff (h : t.Since entry key)
    (hused : ∀ slot, entry.slot = some slot → (t.slots slot).state ≠ .free) :
    t.Credits entry key (t.verdict entry) ↔ ¬ t.Recycled entry := by
  constructor
  · rintro hcredits ⟨slot, hslot, hepoch, hadmission⟩
    have hnot : ∀ s, ¬ t.Holds s entry := by
      rintro s ⟨hs, hheld⟩
      rw [hslot] at hs
      cases hs
      exact hadmission hheld
    have hevicted := hcredits.evicted.mpr hnot
    cases hstate : (t.slots slot).state <;> simp [verdict, hslot, hepoch, hstate] at hevicted
  · intro hfresh
    cases hslot : entry.slot with
    | none =>
        have hverdict : t.verdict entry = .evicted := by simp [verdict, hslot]
        rw [hverdict]
        apply credits_evicted
        rintro s ⟨hs, -⟩
        rw [hslot] at hs
        cases hs
    | some slot =>
        obtain ⟨-, hsince⟩ := h slot hslot
        by_cases hepoch : (t.slots slot).epoch = entry.epoch
        · have hadmission : (t.slots slot).admission = entry.admission := by
            by_contra hne
            exact hfresh ⟨slot, hslot, hepoch, hne⟩
          have hkey : (t.slots slot).key = key := by
            rcases hsince with ⟨-, -, hkey⟩ | ⟨d, hd, -, hsince, -⟩
            · exact hkey
            · omega
          exact Holds.credits ⟨hslot, hadmission⟩ hkey hepoch (hused slot hslot)
        · have hverdict : t.verdict entry = .evicted := by simp [verdict, hslot, hepoch]
          rw [hverdict]
          apply credits_evicted
          rintro s ⟨hs, hheld⟩
          rw [hslot] at hs
          cases hs
          rcases hsince with ⟨hsame, -, -⟩ | ⟨d, hd, -, hsince, -⟩
          · exact hepoch hsame
          · omega

/-! ## Entries are recorded under their fills -/

/-- An entry made of a slot that holds the row. -/
theorem since_self (hnumber : (t.slots slot).admission < t.admissions)
    (hkey : (t.slots slot).key = key) :
    t.Since ⟨some slot, (t.slots slot).epoch, (t.slots slot).admission⟩ key := by
  rintro s ⟨⟩
  exact ⟨hnumber, Or.inl ⟨rfl, rfl, hkey⟩⟩

theorem since_none {epoch : UInt32} {admission : ℕ} : t.Since ⟨none, epoch, admission⟩ key :=
  fun slot hslot => by cases hslot

/-- Writing the waiter table leaves the slots and the count of admissions alone. -/
theorem Since.setWaiter (h : t.Since entry key) (record : cfg.RecordId) (i : ℕ)
    (other : WaiterEntry cfg) : (t.setWaiter record i other).Since entry key := h

theorem waiters_setWaiter (t : Table cfg) (record : cfg.RecordId) (i : ℕ) (e : WaiterEntry cfg) :
    (t.setWaiter record i e).waiters record i = e ∧
      ∀ j, j ≠ i → (t.setWaiter record i e).waiters record j = t.waiters record j := by
  unfold Table.setWaiter
  refine ⟨by simp, fun j hj => ?_⟩
  simp only [Function.update_self, Function.update_of_ne hj]

variable {answers : Answers} {record : cfg.RecordId} {row : UInt64} {rows : List UInt64} {i : ℕ}

/-- A row of a batch is noted with its own fill, and the other entries of the record stay. -/
theorem prefetchRow_since (answers : Answers) (record : cfg.RecordId) (i : ℕ) (row : UInt64)
    (hindex : t.IndexInv) (hnumbered : t.Numbered) :
    (t.prefetchRow answers record i row).Since
        ((t.prefetchRow answers record i row).waiters record i) (row, t.currentGeneration) ∧
      ∀ j, j ≠ i →
        (t.prefetchRow answers record i row).waiters record j = t.waiters record j := by
  unfold prefetchRow
  split
  · rename_i hnone
    have hvictim := claimVictimLoop_records (2 * cfg.budgetRows).toNat t
    have hsweeps := (t.claimVictim_spec).1
    split <;> rename_i hclaim <;> unfold claimVictim at hclaim <;>
      rw [claimVictim, hclaim] at hsweeps <;> rw [hclaim] at hvictim
    · rename_i u
      obtain ⟨hself, hother⟩ := u.waiters_setWaiter record i {}
      rw [hself]
      exact ⟨since_none.setWaiter record i {}, fun j hj => by rw [hother j hj, hvictim.waiters]⟩
    · rename_i slot u
      have hrecords := u.startFillLocked_records answers slot row
      obtain ⟨hadmissions, -, hadmission, hkey⟩ := u.startFillLocked_admitted answers slot row
      have hgeneration : u.currentGeneration = t.currentGeneration :=
        hsweeps.quiets.frame.1.currentGeneration
      rw [hgeneration] at hkey
      generalize (u.startFillLocked answers slot row).2 = v at *
      obtain ⟨hself, hother⟩ := v.waiters_setWaiter record i
        ⟨some slot, (v.slots slot).epoch, (v.slots slot).admission⟩
      unfold noteWaiter
      rw [hself]
      refine ⟨Since.setWaiter (since_self (by omega) hkey) record i _, fun j hj => ?_⟩
      rw [hother j hj, hrecords.waiters, hvictim.waiters]
  · rename_i slot hfind
    obtain ⟨hindexed, hkey⟩ := hindex.indexFind_eq_some_iff.mp hfind
    have hused : (t.slots slot).state ≠ .free := by
      rcases (hindex.occupied slot).mp hindexed with hs | hs <;> rw [hs] <;> decide
    have hnumber := hnumbered slot hused
    have hnoted : ∀ u : Table cfg, u.slots = t.slots → u.admissions = t.admissions →
        u.waiters = t.waiters →
        (u.noteWaiter record i slot).Since ((u.noteWaiter record i slot).waiters record i)
            (row, t.currentGeneration) ∧
          ∀ j, j ≠ i → (u.noteWaiter record i slot).waiters record j = t.waiters record j := by
      intro u hslots hadmissions hwaiters
      obtain ⟨hself, hother⟩ := u.waiters_setWaiter record i
        ⟨some slot, (u.slots slot).epoch, (u.slots slot).admission⟩
      unfold noteWaiter
      rw [hself]
      rw [← hslots] at hkey hnumber
      rw [← hadmissions] at hnumber
      exact ⟨Since.setWaiter (since_self hnumber hkey) record i _,
        fun j hj => by rw [hother j hj, hwaiters]⟩
    split <;> exact hnoted _ rfl rfl rfl

/-- Each row of a batch is noted with its own fill. -/
theorem prefetchRows_since (answers : Answers) (record : cfg.RecordId) (i : ℕ)
    (rows : List UInt64) (hindex : t.IndexInv) (hnumbered : t.Numbered) :
    (∀ j row, rows[j]? = some row → (prefetchRows answers record i rows t).Since
        ((prefetchRows answers record i rows t).waiters record (i + j))
        (row, t.currentGeneration)) ∧
      ∀ k < i, (prefetchRows answers record i rows t).waiters record k = t.waiters record k := by
  induction rows generalizing t i with
  | nil =>
      refine ⟨fun j row hrow => ?_, fun _ _ => rfl⟩
      simp at hrow
  | cons row rows ih =>
      have hquiets := t.prefetchRow_quiets hindex answers record i row
      obtain ⟨hfirst, hothers⟩ := prefetchRow_since answers record i row hindex hnumbered
      obtain ⟨hrest, hbefore⟩ := ih (t := t.prefetchRow answers record i row) (i := i + 1)
        (hindex.quiets hquiets) (hnumbered.ages hquiets.ages)
      rw [hquiets.frame.1.currentGeneration] at hrest
      have hages : Ages (t.prefetchRow answers record i row)
          (prefetchRows answers record i (row :: rows) t) :=
        (prefetchRows_quiets answers record rows (hindex.quiets hquiets) (i + 1)).ages
      refine ⟨fun j other hother => ?_, fun k hk => ?_⟩
      · cases j with
        | zero =>
            cases hother
            have hsame := hbefore i (Nat.lt_succ_self i)
            rw [Nat.add_zero, prefetchRows, hsame]
            exact hfirst.ages hages
        | succ j =>
            have hj := hrest j other hother
            rw [Nat.add_assoc, Nat.add_comm 1 j] at hj
            exact hj
      · rw [prefetchRows, hbefore k (Nat.lt_succ_of_lt hk), hothers k (Nat.ne_of_lt hk)]

/-- Each row of an accepted batch is noted in the record with its own fill. -/
theorem prefetch_since (hindex : t.IndexInv) (hnumbered : t.Numbered) {ticket : Ticket cfg}
    (h : t.prefetch answers rows = (.ok ticket, t')) {row : UInt64} (hrow : rows[i]? = some row) :
    t'.Since (t'.waiters ticket.record i) (row, t.currentGeneration) := by
  unfold prefetch at h
  split_ifs at h
  · cases h
  · cases h
  · split at h
    · cases h
    · rename_i record hfree
      have hopened : (t.openRecord record rows.length).IndexInv :=
        hindex.bookkeeping (.of_records t _ t.waiters t.clockHand _ t.counters)
      have hnoted := (prefetchRows_since answers record 0 rows hopened hnumbered).1 i row hrow
      rw [Nat.zero_add] at hnoted
      cases h
      exact hnoted

end Table

/-! ## The machine with the generations of its batches -/

/-- The machine with its history, and the generation that was current when the batch of each
ticket variable was prefetched. -/
structure Prefetches (cfg : TableConfig) where
  history : History cfg
  generations : TicketVar → UInt64

namespace Prefetches

/-- No batch yet. -/
def start (cfg : TableConfig) (h : cfg.Accepted) : Prefetches cfg where
  history := History.start cfg h
  generations := fun _ => 0

/-- The generations of the batches once an action has been taken. -/
def generationsAfter (s : Prefetches cfg) : Action cfg → TicketVar → UInt64
  | .prefetch _ v _ =>
      Function.update s.generations v s.history.world.table.currentGeneration
  | .moveTicket source target =>
      Function.update s.generations target (s.generations source)
  | _ => s.generations

/-- The machine takes a step and the generations are noted. -/
def step (s : Prefetches cfg) (action : Action cfg) : Option (Prefetches cfg) :=
  (s.history.step action).map fun next => ⟨next, s.generationsAfter action⟩

/-- The generations add nothing to what the machine does. -/
theorem step_world (s : Prefetches cfg) (action : Action cfg) :
    (s.step action).map (fun next => next.history.world) = s.history.world.step action := by
  rw [step, Option.map_map, ← s.history.step_world]
  rfl

variable {s s' : Prefetches cfg} {action : Action cfg} {h : cfg.Accepted}

theorem reachable_history (hs : Reachable step (start cfg h) s) :
    Reachable History.step (History.start cfg h) s.history := by
  induction hs with
  | start => exact .start
  | @step u u' action hs ha hstep ih =>
      obtain ⟨next, hnext, rfl⟩ := Option.map_eq_some_iff.mp hstep
      exact ih.step trivial hnext

theorem reachable_world (hs : Reachable step (start cfg h) s) :
    Reachable World.step (World.start cfg h) s.history.world :=
  History.reachable_world (reachable_history hs)

/-- The entries of a held ticket, and what has become of the fills of its rows. -/
def EntriesSince (s : Prefetches cfg) : Prop :=
  ∀ v ticket, (s.history.world.tickets v).ticket = some ticket →
    ∀ i row, (s.history.batches v)[i]? = some row →
      s.history.world.table.Since (s.history.world.table.waiters ticket.record i)
        (row, s.generations v)

theorem EntriesSince.step (hinv : s.EntriesSince) (hfill : s.history.world.FillInv)
    (htickets : s.history.world.TicketInv) (hnumbered : s.history.world.table.Numbered)
    (hstep : s.step action = some s') : s'.EntriesSince := by
  obtain ⟨next, hnext, rfl⟩ := Option.map_eq_some_iff.mp hstep
  obtain ⟨w', hworld, rfl⟩ := Option.map_eq_some_iff.mp hnext
  have hages := World.step_ages hfill hworld
  intro v ticket hv i row hrow
  by_cases hhandles : action.HandlesTickets
  · unfold World.step at hworld
    split_ifs at hworld
    cases action with
    | prefetch rows target answers =>
        have hworld : s.history.world.prefetch rows target answers = some w' := hworld
        unfold World.prefetch at hworld
        split_ifs at hworld with hguard
        rw [not_or, not_not] at hguard
        split at hworld <;> rename_i hprefetch <;> cases hworld
        · have hne : v ≠ target := by
            rintro rfl
            exact hguard.2 (by rw [hv]; rfl)
          have hkept := Table.prefetch_records_error hprefetch
          dsimp only [History.batchesAfter, generationsAfter] at hv hrow ⊢
          rw [Function.update_of_ne hne] at hrow ⊢
          rw [hkept.waiters]
          exact (hinv v ticket hv i row hrow).ages hages
        · rename_i opened t
          by_cases hvt : v = target
          · rw [hvt] at hv hrow ⊢
            simp only [World.setTicket, History.batchesAfter, generationsAfter,
              Function.update_self, Option.some.injEq] at hv hrow ⊢
            rw [← hv]
            exact Table.prefetch_since hfill.index hnumbered hprefetch hrow
          · simp only [World.setTicket, History.batchesAfter, generationsAfter,
              Function.update_of_ne hvt] at hv hrow ⊢
            obtain ⟨hfree, -, hothers⟩ := Table.prefetch_records_ok hprefetch
            have hne : ticket.record ≠ opened.record := by
              intro heq
              have hused := htickets.inUse v ticket hv
              rw [heq, hfree] at hused
              cases hused
            rw [(hothers ticket.record hne).2]
            exact (hinv v ticket hv i row hrow).ages hages
    | dropTicket target =>
        have hworld : (if (s.history.world.tickets target).users ≠ 0 then none
          else some (s.history.world.resetTicket target)) = some w' := hworld
        split_ifs at hworld
        cases hworld
        obtain ⟨-, hold⟩ := s.history.world.resetTicket_counts target
        dsimp only at hv ⊢
        rw [s.history.world.resetTicket_waiters target]
        exact (hinv v ticket (hold v ticket hv) i row hrow).ages hages
    | moveTicket source target =>
        have hworld : (if (s.history.world.tickets source).users ≠ 0 ∨
          (s.history.world.tickets target).users ≠ 0 then none
          else some (s.history.world.moveTicket source target)) = some w' := hworld
        split_ifs at hworld
        cases hworld
        obtain ⟨-, hold⟩ := s.history.world.resetTicket_counts target
        have hwaiters := s.history.world.resetTicket_waiters target
        unfold World.moveTicket at hv hages ⊢
        dsimp only [History.batchesAfter, generationsAfter] at hv hrow ⊢
        split_ifs at hv hages ⊢ with hsame
        · rw [hsame, Function.update_eq_self] at hrow
          rw [hsame, Function.update_eq_self]
          exact hinv v ticket hv i row hrow
        · simp only [World.setTicket] at hv hages ⊢
          rw [hwaiters]
          by_cases hsource : v = source
          · rw [hsource, Function.update_self] at hv
            cases hv
          · rw [Function.update_of_ne hsource] at hv
            by_cases htarget : v = target
            · rw [htarget, Function.update_self] at hv hrow ⊢
              exact (hinv source ticket (hold source ticket hv) i row hrow).ages hages
            · rw [Function.update_of_ne htarget] at hv hrow ⊢
              exact (hinv v ticket (hold v ticket hv) i row hrow).ages hages
    | _ => exact hhandles.elim
  · obtain ⟨hrecords, hsame⟩ := World.step_records hworld hhandles
    dsimp only at hv
    rw [hsame v] at hv
    have hbatches : s.history.batchesAfter action = s.history.batches := by
      cases action <;> first | rfl | exact absurd trivial hhandles
    have hgenerations : s.generationsAfter action = s.generations := by
      cases action <;> first | rfl | exact absurd trivial hhandles
    dsimp only at hrow ⊢
    rw [hbatches] at hrow
    rw [hrecords.waiters, hgenerations]
    exact (hinv v ticket hv i row hrow).ages hages

theorem entriesSince_of_reachable (hs : Reachable step (start cfg h) s) : s.EntriesSince := by
  have hstart : (start cfg h).EntriesSince := fun v ticket hv => by cases hv
  refine hs.invariant_of (fun _ hu => reachable_world hu) hstart
    fun u action u' hworld hinv _ hstep => ?_
  exact hinv.step (World.fillInv_of_reachable hworld) (World.ticketInv_of_reachable hworld)
    (World.numbered_of_reachable hworld) hstep

end Prefetches

/-- When a step of `wait` passes a verdict, it is the next row of the batch that the verdict is on,
and the verdict is about the fill that was prefetched for it, if and only if the epoch of the slot
has not come round under another admission.  That takes more than `2 ^ 32` admissions. -/
theorem wait_credits_iff {h : cfg.Accepted} {s s' : Prefetches cfg}
    (hs : Reachable Prefetches.step (Prefetches.start cfg h) s) {thread : ThreadId}
    {call : WaitCall cfg} {outcome : WaitOutcome} {pc : WaitPc cfg} {choice : Choice}
    {verdict : Verdict} (hpc : s.history.world.threads thread = .waiting call outcome pc)
    (hstep : s.step (.advance thread choice) = some s')
    (hpassed : s'.history.verdicts thread = s.history.verdicts thread ++ [verdict]) :
    ∃ i row entry, i = (s.history.verdicts thread).length ∧
      (s.history.batches call.ticket)[i]? = some row ∧
      entry = s.history.world.table.waiters call.record i ∧
      s'.history.world.threads thread = .waiting call (outcome.note verdict) (.entry (i + 1)) ∧
      (s.history.world.table.Credits entry (row, s.generations call.ticket) verdict ↔
        ¬ s.history.world.table.Recycled entry) ∧
      (s.history.world.table.Recycled entry →
        entry.admission + 2 ^ 32 < s.history.world.table.admissions) := by
  have hhistory := Prefetches.reachable_history hs
  have hworld := Prefetches.reachable_world hs
  have htallied := (History.historyInv_of_reachable hhistory).calls thread call outcome pc hpc
  obtain ⟨ticket, hticket, hrecord⟩ :=
    (World.ticketInv_of_reachable hworld).record thread call outcome pc hpc
  obtain ⟨next, hnext, rfl⟩ := Option.map_eq_some_iff.mp hstep
  obtain ⟨w', hadvance, rfl⟩ := Option.map_eq_some_iff.mp hnext
  unfold World.step at hadvance
  split_ifs at hadvance
  have hadvance : s.history.world.advance thread choice = some w' := hadvance
  unfold World.advance at hadvance
  rw [hpc] at hadvance
  obtain ⟨⟨outcome', pc', u⟩, hwait, rfl⟩ := Option.map_eq_some_iff.mp hadvance
  have hafter : (u.setThread thread (.waiting call outcome' pc')).threads thread =
    .waiting call outcome' pc' := Function.update_self ..
  have hgrown : (s.history.verdicts thread ++ History.passed s.history.world.table
      (.waiting call outcome pc) (.waiting call outcome' pc')) =
      s.history.verdicts thread ++ [verdict] := by
    rw [← hpassed]
    dsimp only [History.verdictsAfter]
    rw [Function.update_self, hpc, hafter]
  have hverdict := List.append_cancel_left hgrown
  cases World.waitStep_outcome htallied.within hwait with
  | stays hsame hstays hentry =>
      cases pc' with
      | entry i => exact absurd rfl (hentry i)
      | _ => cases hverdict
  | returned hdone => cases hverdict
  | noted hlt =>
      have hposition : pc.position call.count = (s.history.verdicts thread).length :=
        htallied.position.symm
      rw [hposition] at hlt
      have hverdict : s.history.world.table.verdict (s.history.world.table.waiters call.record
          (s.history.verdicts thread).length) = verdict := by
        rw [← hposition]
        exact (List.cons.inj hverdict).1
      rw [htallied.count] at hlt
      have hrow := List.getElem?_eq_getElem hlt
      have hsince := Prefetches.entriesSince_of_reachable hs call.ticket ticket hticket _ _ hrow
      rw [hrecord] at hsince
      refine ⟨_, _, _, rfl, hrow, rfl, ?_, ?_, hsince.recycled⟩
      · rw [← hverdict, ← hposition]
        exact hafter
      · rw [← hverdict]
        exact hsince.credits_iff fun slot hslot =>
          World.entriesInv_of_reachable hworld call.record _ slot hslot


/-! ## An epoch that comes round -/

/-- The file holds the first row only. -/
def firstRow : FlatFileResolver where
  rowCount := 1
  rowsPerShard := 1
  rowStride := 2
  rowWidth := 2

/-- Two rows, of which the second is not in the file, and one slot. -/
def oneSlot : TableConfig where
  rowCount := 2
  sourceRowBytes := 2
  outputRowBytes := 2
  sources := [⟨0, 2⟩]
  resolveExtent := some firstRow.resolver
  outputStorage := ⟨0, 2⟩
  budgetRows := 1
  maxTickets := 2
  maxBatchRows := 1

theorem oneSlot_accepted : oneSlot.Accepted := by decide +kernel

namespace oneSlot

/-- The one slot. -/
def slot : oneSlot.SlotId := ⟨0, by decide⟩

/-- The records of the two tickets. -/
def held : oneSlot.RecordId := ⟨0, by decide⟩

def spare : oneSlot.RecordId := ⟨1, by decide⟩

/-- A call of `wait` on the first ticket. -/
def call : WaitCall oneSlot := ⟨0, held, 1, false⟩

theorem eq_slot (s : oneSlot.SlotId) : s = slot :=
  Fin.ext (Nat.lt_one_iff.mp (show s.val < 1 from s.isLt))

end oneSlot

/-- The first row is prefetched and fetched, and thread 0 waits for it. -/
def creditedRun : List (Action oneSlot) :=
  [.prefetch [0] 0 fun _ => {}, .deliver 0 .ok, .wait 0 0 false, .advance 0 {}, .advance 0 {},
    .advance 0 {}, .advance 0 {}, .advance 0 {}]

theorem wait_credits_first :
    ∃ s s' : Prefetches oneSlot,
      exec Prefetches.step creditedRun (Prefetches.start oneSlot oneSlot_accepted) = some s ∧
      s.step (.advance 0 {}) = some s' ∧ s'.history.verdicts 0 = [.filled] ∧
      ∃ entry, s.history.world.table.Credits entry (0, 0) .filled := by
  have hrun : (exec Prefetches.step creditedRun (Prefetches.start oneSlot oneSlot_accepted)).any
      fun s => s.history.world.threads 0 = .waiting oneSlot.call {} (.settle 0) ∧
        s.history.verdicts 0 = [] ∧ s.history.batches 0 = [0] ∧ s.generations 0 = 0 ∧
        s.history.world.table.admissions = 1 ∧
        (s.step (.advance 0 {})).any fun s' => s'.history.verdicts 0 = [.filled] := by
    decide +kernel
  obtain ⟨s, hs, hfacts⟩ := (Option.any_eq_true _ _).mp hrun
  obtain ⟨hpc, hverdicts, hbatch, hgeneration, hcount, hstep⟩ := of_decide_eq_true hfacts
  obtain ⟨s', hstep, hfilled⟩ := (Option.any_eq_true _ _).mp hstep
  have hfilled := of_decide_eq_true hfilled
  obtain ⟨i, row, entry, hi, hrow, hentry, -, hcredits, hfar⟩ :=
    wait_credits_iff (reachable_of_exec .start hs) hpc hstep
      (show s'.history.verdicts 0 = s.history.verdicts 0 ++ [.filled] by
        rw [hfilled, hverdicts, List.nil_append])
  rw [hverdicts] at hi
  subst hi
  rw [show s.history.batches oneSlot.call.ticket = [0] from hbatch] at hrow
  cases hrow
  rw [show s.generations oneSlot.call.ticket = 0 from hgeneration] at hcredits
  refine ⟨s, s', hs, hstep, hfilled, entry, hcredits.mpr fun hrecycled => ?_⟩
  have hmany := hfar hrecycled
  omega

namespace Table

variable {t : Table oneSlot}

/-- A slot that is claimed from a failed fill keeps its pins and its epoch. -/
theorem claimVictim_failed (hstate : (t.slots oneSlot.slot).state = .failed)
    (hpins : (t.slots oneSlot.slot).pins = 0) :
    ∃ u : Table oneSlot, t.claimVictim = (some oneSlot.slot, u) ∧
      (u.slots oneSlot.slot).pins = 0 ∧
      (u.slots oneSlot.slot).epoch = (t.slots oneSlot.slot).epoch ∧
      u.admissions = t.admissions ∧ u.origin = t.origin ∧
      u.currentBinding = t.currentBinding := by
  have hhand := oneSlot.eq_slot t.clockHand
  have hsteps : (2 * oneSlot.budgetRows).toNat = 2 := rfl
  refine ⟨({ t with clockHand := nextHand t.clockHand } : Table oneSlot).makeFree oneSlot.slot,
    ?_, ?_, ?_, rfl, rfl, rfl⟩
  · rw [claimVictim, hsteps, claimVictimLoop]
    dsimp only
    rw [hhand, hstate, hpins, if_neg (by decide), if_neg (by decide), if_pos rfl]
  · dsimp only [makeFree]
    rw [Function.update_self]
    exact hpins
  · dsimp only [makeFree]
    rw [Function.update_self]

/-- The second row takes the slot from a fill that failed, and fails too. -/
theorem prefetchRow_refused (habsent : t.indexFind (1, t.currentGeneration) = none)
    (hstate : (t.slots oneSlot.slot).state = .failed) (hpins : (t.slots oneSlot.slot).pins = 0)
    (hlocate : oneSlot.locate (t.origin t.currentBinding).1 (t.origin t.currentBinding).2 1 =
      .error .outOfRange) (answers : Answers) (record : oneSlot.RecordId) (i : ℕ) :
    let t' := t.prefetchRow answers record i 1
    (t'.slots oneSlot.slot).state = .failed ∧ (t'.slots oneSlot.slot).pins = 0 ∧
      (t'.slots oneSlot.slot).failure = .outOfRange ∧
      (t'.slots oneSlot.slot).epoch = (t.slots oneSlot.slot).epoch + 1 ∧
      (t'.slots oneSlot.slot).admission = t.admissions ∧ t'.admissions = t.admissions + 1 ∧
      t'.origin = t.origin ∧ t'.currentBinding = t.currentBinding := by
  obtain ⟨u, hclaim, hpins, hepoch, hadmissions, horigin, hcurrent⟩ :=
    claimVictim_failed hstate hpins
  unfold prefetchRow
  rw [habsent, hclaim]
  dsimp only
  rw [← horigin, ← hcurrent] at hlocate
  rw [startFillLocked_unlocated hlocate]
  dsimp only [noteWaiter, setWaiter, failFill, beginAdmission]
  rw [Function.update_self, Function.update_self, hepoch, hadmissions]
  exact ⟨rfl, hpins, rfl, rfl, rfl, rfl, horigin, hcurrent⟩

theorem freeRecord_spare (hheld : (t.tickets oneSlot.held).inUse = true)
    (hspare : (t.tickets oneSlot.spare).inUse = false) : t.freeRecord = some oneSlot.spare := by
  have hrecords : List.finRange oneSlot.maxTickets.toNat = [oneSlot.held, oneSlot.spare] := rfl
  rw [freeRecord, hrecords, List.find?_cons_of_neg (by simp [hheld]),
    List.find?_cons_of_pos (by simp [hspare])]

end Table

namespace World

variable {w : World oneSlot}

/-- The table while the second row is prefetched with the second ticket. -/
def refusing (w : World oneSlot) : Table oneSlot :=
  (w.table.openRecord oneSlot.spare 1).prefetchRow (fun _ => {}) oneSlot.spare 0 1

theorem refusing_records (w : World oneSlot) :
    w.refusing.tickets = (w.table.openRecord oneSlot.spare 1).tickets ∧
      w.refusing.waiters oneSlot.held = w.table.waiters oneSlot.held := by
  obtain ⟨htickets, hwaiters⟩ := Table.prefetchRows_records (fun _ => {}) oneSlot.spare [1] 0
    (w.table.openRecord oneSlot.spare 1)
  exact ⟨htickets, hwaiters oneSlot.held (by decide)⟩

/-- The world once the second ticket has been dropped again. -/
def refused (w : World oneSlot) : World oneSlot :=
  { w with
    table :=
      { w.refusing with
        tickets := Function.update w.refusing.tickets oneSlot.spare
          { w.refusing.tickets oneSlot.spare with held := false, inUse := false }
        ticketsHeld := w.refusing.ticketsHeld - 1 }
    tickets := Function.update w.tickets 1 {} }

/-- The second row is prefetched with the second ticket, which is dropped. -/
theorem step_refused (hcrashed : w.crashed = false)
    (hvacant : (w.tickets 1).ticket = none ∧ (w.tickets 1).users = 0)
    (hheld : (w.table.tickets oneSlot.held).inUse = true)
    (hspare : (w.table.tickets oneSlot.spare).inUse = false) :
    exec step [.prefetch [1] 1 fun _ => {}, .dropTicket 1] w = some w.refused := by
  have hbatch : Table.batchStatus oneSlot [1] = .ok := by decide
  have hrange : Table.anyOutOfRange oneSlot [1] = false := by decide
  obtain ⟨htickets, -⟩ := w.refusing_records
  have hprefetch : w.table.prefetch (fun _ => {}) [1] =
      (.ok ⟨oneSlot.spare, (w.refusing.tickets oneSlot.spare).generation⟩, w.refusing) := by
    unfold Table.prefetch
    rw [if_neg (not_not.mpr hbatch), hrange, if_neg Bool.false_ne_true,
      Table.freeRecord_spare hheld hspare]
    rfl
  have hrecord : (w.refusing.tickets oneSlot.spare).held = true := by
    rw [htickets]
    dsimp only [Table.openRecord]
    rw [Function.update_self]
  have hdiscard : w.refusing.discardTicket
      ⟨oneSlot.spare, (w.refusing.tickets oneSlot.spare).generation⟩ = some w.refused.table := by
    unfold Table.discardTicket
    dsimp only
    rw [if_neg (by simp [hrecord])]
    rfl
  simp only [exec, step, act, hcrashed, Bool.false_eq_true, if_false, World.prefetch, hvacant.1,
    hvacant.2, hprefetch, setTicket, resetTicket, Function.update_self, Option.bind_some,
    hdiscard, ne_eq, not_true_eq_false, Option.isSome_none, or_self, Function.update_idem]
  rw [← hcrashed]
  rfl

end World

/-- The first batch is held and its row was fetched, and the one slot has failed to take the second
row that many times since. -/
structure Stale (n : ℕ) (s : Prefetches oneSlot) : Prop where
  reachable : Reachable Prefetches.step (Prefetches.start oneSlot oneSlot_accepted) s
  alive : s.history.world.crashed = false
  idle : s.history.world.threads 0 = .idle
  ticket : ∃ ticket, (s.history.world.tickets 0).ticket = some ticket ∧
    ticket.record = oneSlot.held
  vacant : (s.history.world.tickets 1).ticket = none ∧ (s.history.world.tickets 1).users = 0
  held : (s.history.world.table.tickets oneSlot.held).inUse = true ∧
    (s.history.world.table.tickets oneSlot.held).count = 1
  spare : (s.history.world.table.tickets oneSlot.spare).inUse = false
  entry : s.history.world.table.waiters oneSlot.held 0 = ⟨some oneSlot.slot, 1, 0⟩
  state : (s.history.world.table.slots oneSlot.slot).state = .failed
  pins : (s.history.world.table.slots oneSlot.slot).pins = 0
  failure : (s.history.world.table.slots oneSlot.slot).failure = .outOfRange
  epoch : (s.history.world.table.slots oneSlot.slot).epoch = 2 + UInt32.ofNat n
  admission : (s.history.world.table.slots oneSlot.slot).admission ≠ 0
  admissions : s.history.world.table.admissions ≠ 0
  refused : oneSlot.locate
      (s.history.world.table.origin s.history.world.table.currentBinding).1
      (s.history.world.table.origin s.history.world.table.currentBinding).2 1 =
    .error .outOfRange

namespace Stale

variable {n : ℕ} {s : Prefetches oneSlot}

/-- The slot fails once more, for a batch that is dropped at once. -/
theorem again (h : Stale n s) : ∃ s', Stale (n + 1) s' := by
  have hindex := (World.fillInv_of_reachable (Prefetches.reachable_world h.reachable)).index
  have hopened : (s.history.world.table.openRecord oneSlot.spare 1).IndexInv :=
    hindex.bookkeeping (.of_records _ _ _ _ _ _)
  have habsent : (s.history.world.table.openRecord oneSlot.spare 1).indexFind
      (1, s.history.world.table.currentGeneration) = none := by
    rw [Option.eq_none_iff_forall_ne_some]
    intro slot hfind
    have hindexed := (hopened.indexFind_eq_some_iff.mp hfind).1
    rw [oneSlot.eq_slot slot] at hindexed
    rcases (hopened.occupied _).mp hindexed with hs | hs <;>
      exact absurd (h.state.symm.trans hs) (by decide)
  obtain ⟨hstate, hpins, hfailure, hepoch, hadmission, hadmissions, horigin, hcurrent⟩ :=
    Table.prefetchRow_refused habsent h.state h.pins h.refused (fun _ => {}) oneSlot.spare 0
  obtain ⟨htickets, hwaiters⟩ := s.history.world.refusing_records
  have hrun := World.step_refused h.alive h.vacant h.held.1 h.spare
  rw [← exec_map Prefetches.step_world] at hrun
  obtain ⟨s', hs', hworld⟩ := Option.map_eq_some_iff.mp hrun
  have hnext : s'.history.world = s.history.world.refused := hworld
  refine ⟨s', reachable_of_exec h.reachable hs', ?_, ?_, ?_, ?_, ?_, ?_, ?_, ?_, ?_, ?_, ?_, ?_,
    ?_, ?_⟩ <;> rw [hnext]
  · exact h.alive
  · exact h.idle
  · exact h.ticket
  · exact ⟨rfl, rfl⟩
  · dsimp only [World.refused]
    rw [Function.update_of_ne (by decide), htickets]
    exact h.held
  · dsimp only [World.refused]
    rw [Function.update_self]
  · exact (congrFun hwaiters 0).trans h.entry
  · exact hstate
  · exact hpins
  · exact hfailure
  · refine hepoch.trans ?_
    have hold : ((s.history.world.table.openRecord oneSlot.spare 1).slots oneSlot.slot).epoch =
      2 + UInt32.ofNat n := h.epoch
    rw [hold, UInt32.ofNat_add, UInt32.add_assoc]
    rfl
  · exact ne_of_eq_of_ne hadmission h.admissions
  · exact ne_of_eq_of_ne hadmissions (Nat.succ_ne_zero _)
  · have hsame : s.history.world.refused.table.origin = s.history.world.table.origin := horigin
    have hbinding : s.history.world.refused.table.currentBinding =
      s.history.world.table.currentBinding := hcurrent
    rw [hsame, hbinding]
    exact h.refused

/-- The first row is fetched and evicted, by a row that is not in the file. -/
def evictedRun : List (Action oneSlot) :=
  creditedRun ++ [.advance 0 {}, .advance 0 {}, .leave 0, .prefetch [1] 1 fun _ => {},
    .dropTicket 1]

theorem first : ∃ s, Stale 0 s := by
  have hrun : (exec Prefetches.step evictedRun
      (Prefetches.start oneSlot oneSlot_accepted)).any fun s =>
        s.history.world.crashed = false ∧ s.history.world.threads 0 = .idle ∧
        ((s.history.world.tickets 0).ticket.any fun ticket => ticket.record = oneSlot.held) ∧
        ((s.history.world.tickets 1).ticket = none ∧ (s.history.world.tickets 1).users = 0) ∧
        ((s.history.world.table.tickets oneSlot.held).inUse = true ∧
          (s.history.world.table.tickets oneSlot.held).count = 1) ∧
        (s.history.world.table.tickets oneSlot.spare).inUse = false ∧
        s.history.world.table.waiters oneSlot.held 0 = ⟨some oneSlot.slot, 1, 0⟩ ∧
        (s.history.world.table.slots oneSlot.slot).state = .failed ∧
        (s.history.world.table.slots oneSlot.slot).pins = 0 ∧
        (s.history.world.table.slots oneSlot.slot).failure = .outOfRange ∧
        (s.history.world.table.slots oneSlot.slot).epoch = 2 + UInt32.ofNat 0 ∧
        (s.history.world.table.slots oneSlot.slot).admission ≠ 0 ∧
        s.history.world.table.admissions ≠ 0 ∧
        oneSlot.locate (s.history.world.table.origin s.history.world.table.currentBinding).1
          (s.history.world.table.origin s.history.world.table.currentBinding).2 1 =
            .error .outOfRange := by
    decide +kernel
  obtain ⟨s, hs, hfacts⟩ := (Option.any_eq_true _ _).mp hrun
  obtain ⟨halive, hidle, hticket, hvacant, hheld, hspare, hentry, hstate, hpins, hfailure, hepoch,
    hadmission, hadmissions, hrefused⟩ := of_decide_eq_true hfacts
  obtain ⟨ticket, hticket, hrecord⟩ := (Option.any_eq_true _ _).mp hticket
  exact ⟨s, reachable_of_exec .start hs, halive, hidle, ⟨ticket, hticket, of_decide_eq_true hrecord⟩,
    hvacant, hheld, hspare, hentry, hstate, hpins, hfailure, hepoch, hadmission, hadmissions,
    hrefused⟩

theorem exists_stale (n : ℕ) : ∃ s, Stale n s := by
  induction n with
  | zero => exact first
  | succ n ih =>
      obtain ⟨s, hs⟩ := ih
      exact hs.again

/-- A call of `wait` on the first ticket is at its entry. -/
theorem called (h : Stale n s) :
    ∃ u, s.step (.wait 0 0 false) = some u ∧ u.history.world.table = s.history.world.table ∧
      u.history.world.crashed = false ∧
      u.history.world.threads 0 = .waiting oneSlot.call {} (.entry 0) := by
  obtain ⟨ticket, hticket, hrecord⟩ := h.ticket
  have hcount : (s.history.world.table.tickets oneSlot.held).count = 1 := h.held.2
  have hcall : s.history.world.step (.wait 0 0 false) =
      some ((s.history.world.setTicket 0 { s.history.world.tickets 0 with
        users := (s.history.world.tickets 0).users + 1 }).setThread 0
          (.waiting oneSlot.call {} (.entry 0))) := by
    simp only [World.step, World.act, World.callWait, h.alive, h.idle, hticket, hrecord, hcount,
      Bool.false_eq_true, if_false, oneSlot.call]
  rw [← Prefetches.step_world] at hcall
  obtain ⟨u, hu, hworld⟩ := Option.map_eq_some_iff.mp hcall
  refine ⟨u, hu, ?_, ?_, ?_⟩ <;> rw [hworld]
  · rfl
  · exact h.alive
  · simp only [World.setThread, Function.update_self]

/-- The epoch of the slot has come round to that of the entry. -/
theorem epoch_round (h : Stale (2 ^ 32 - 1) s) :
    (s.history.world.table.slots oneSlot.slot).epoch = 1 := by
  rw [h.epoch]
  rfl

end Stale

/-- A call of `wait` notes the failure of the slot's fill. -/
theorem World.advance_failed {w : World oneSlot} (hcrashed : w.crashed = false)
    (hpc : w.threads 0 = .waiting oneSlot.call {} (.entry 0))
    (hentry : w.table.waiters oneSlot.held 0 = ⟨some oneSlot.slot, 1, 0⟩)
    (hepoch : (w.table.slots oneSlot.slot).epoch = 1)
    (hstate : (w.table.slots oneSlot.slot).state = .failed) :
    ∃ outcome, w.step (.advance 0 {}) =
      some (w.setThread 0 (.waiting oneSlot.call outcome (.entry 1))) := by
  have hslot : (w.table.waiters oneSlot.call.record 0).slot = some oneSlot.slot :=
    congrArg WaiterEntry.slot hentry
  have hentry' : (w.table.waiters oneSlot.call.record 0).epoch = 1 :=
    congrArg WaiterEntry.epoch hentry
  have hsettle : w.settleEntry {} 0 oneSlot.slot _ = _ := World.settleEntry_eq hslot
  rw [hentry'] at hsettle
  refine ⟨WaitOutcome.note {} (w.table.verdict (w.table.waiters oneSlot.call.record 0)), ?_⟩
  have hstep : w.waitStep oneSlot.call {} {} (.entry 0) = some (WaitOutcome.note {}
      (w.table.verdict (w.table.waiters oneSlot.call.record 0)), .entry 1, w) := by
    rw [← hsettle]
    have hcount : 0 < oneSlot.call.count := Nat.one_pos
    simp [World.waitStep, hcount, hslot, hentry', hepoch, hstate]
  simp only [World.step, World.act, World.advance, hcrashed, hpc, hstep, Bool.false_eq_true,
    if_false, Option.map_some]

/-- The first row was fetched and evicted, and `wait` reports that its fill failed. -/
theorem wait_credits_another_fill :
    ∃ s s' : Prefetches oneSlot,
      Reachable Prefetches.step (Prefetches.start oneSlot oneSlot_accepted) s ∧
      s.history.world.threads 0 = .waiting oneSlot.call {} (.entry 0) ∧
      s.step (.advance 0 {}) = some s' ∧
      s'.history.verdicts 0 = s.history.verdicts 0 ++ [.failed .outOfRange] ∧
      ∀ key, ¬ s.history.world.table.Credits
        (s.history.world.table.waiters oneSlot.held 0) key (.failed .outOfRange) := by
  obtain ⟨s, hs⟩ := Stale.exists_stale (2 ^ 32 - 1)
  obtain ⟨u, hcall, htable, halive, hpc⟩ := hs.called
  have hentry : u.history.world.table.waiters oneSlot.held 0 = ⟨some oneSlot.slot, 1, 0⟩ := by
    rw [htable]
    exact hs.entry
  have hepoch : (u.history.world.table.slots oneSlot.slot).epoch = 1 := by
    rw [htable]
    exact hs.epoch_round
  have hstate : (u.history.world.table.slots oneSlot.slot).state = .failed := by
    rw [htable]
    exact hs.state
  have hfailure : (u.history.world.table.slots oneSlot.slot).failure = .outOfRange := by
    rw [htable]
    exact hs.failure
  have hverdict : u.history.world.table.verdict (u.history.world.table.waiters oneSlot.held 0) =
      .failed .outOfRange := by
    rw [hentry]
    simp [Table.verdict, hepoch, hstate, hfailure]
  obtain ⟨outcome, hadvance⟩ := World.advance_failed halive hpc hentry hepoch hstate
  have hnext : u.history.step (.advance 0 {}) = some
      ⟨u.history.world.setThread 0 (.waiting oneSlot.call outcome (.entry 1)),
        Function.update u.history.verdicts 0 (u.history.verdicts 0 ++ [.failed .outOfRange]),
        u.history.batches⟩ := by
    rw [History.step, hadvance, ← hverdict]
    simp only [Option.map_some, History.verdictsAfter, hpc, World.setThread, Function.update_self]
    rfl
  refine ⟨u, ⟨_, u.generations⟩, hs.reachable.step trivial hcall, hpc,
    Option.map_eq_some_iff.mpr ⟨_, hnext, rfl⟩, ?_, fun key hcredits => ?_⟩
  · dsimp only
    rw [Function.update_self]
  obtain ⟨slot, ⟨-, hadmission⟩, -⟩ := hcredits.failed _ rfl
  rw [hentry, htable, oneSlot.eq_slot slot] at hadmission
  exact hs.admission hadmission

end TieredCache
