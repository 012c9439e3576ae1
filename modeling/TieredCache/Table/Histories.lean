/-
# `wait` tells the truth, up to eviction

The machine with a history: the verdicts of each waiting call and the rows of each held
ticket's batch.  When a call of `wait` returns, its outcome is the tally of its verdicts, one
for each row of the batch.
-/

import TieredCache.Table.Outcomes
import TieredCache.Table.Records

namespace TieredCache

open Math.Runs

variable {cfg : TableConfig}

/-! ## Entries name slots in use -/

namespace Table

variable {t t' : Table cfg} {slot s : cfg.SlotId}

/-- A slot in use stays in use. -/
theorem Motion.not_free (h : Motion t t') (hs : (t.slots s).state ≠ .free) :
    (t'.slots s).state ≠ .free := by
  have hupdate : ∀ (slot : cfg.SlotId) (s' : Slot cfg), (s = slot → s'.state ≠ .free) →
      ((Function.update t.slots slot s') s).state ≠ .free := by
    intro slot s' hs'
    by_cases hss : s = slot
    · rw [hss, Function.update_self]
      exact hs' hss
    · rwa [Function.update_of_ne hss]
  cases h with
  | aside h => rwa [h.state]
  | admitted answers slot row hv =>
      rename_i u
      by_cases hss : s = slot
      · rw [hss]
        exact u.startFillLocked_not_free answers slot row
      · rw [(u.startFillLocked_frame answers slot row).2 s hss]
        cases hv with
        | free hstate => exact hs
        | failed hpins hstate => exact hupdate slot _ fun h => absurd h hss
        | evicted hpins hstate => exact hupdate slot _ fun h => absurd h hss
  | pinned slot hstate => exact hupdate slot _ fun _ => hstate
  | unpinned slot hpins => exact hupdate slot _ fun h => h ▸ hs
  | published slot result hstate =>
      refine hupdate slot _ fun _ => ?_
      dsimp only
      split_ifs <;> decide

theorem Motions.not_free (h : Motions t t') (hs : (t.slots s).state ≠ .free) :
    (t'.slots s).state ≠ .free :=
  Motions.invariant h (fun _ _ hu hm => Motion.not_free hm hu) hs

/-- The slots named by waiter entries are in use. -/
def EntriesInv (t : Table cfg) : Prop :=
  ∀ record i slot, (t.waiters record i).slot = some slot → (t.slots slot).state ≠ .free

namespace EntriesInv

theorem motions (h : t.EntriesInv) (hm : Motions t t') (hwaiters : t'.waiters = t.waiters) :
    t'.EntriesInv := by
  intro record i slot hslot
  rw [hwaiters] at hslot
  exact Motions.not_free hm (h record i slot hslot)

/-- An entry is written for a slot in use, or for none. -/
theorem setWaiter (h : t.EntriesInv) (record : cfg.RecordId) (i : ℕ) {entry : WaiterEntry cfg}
    (hentry : ∀ slot, entry.slot = some slot → (t.slots slot).state ≠ .free) :
    (t.setWaiter record i entry).EntriesInv := by
  intro r j slot hslot
  unfold Table.setWaiter at hslot
  by_cases hr : r = record
  · subst hr
    by_cases hj : j = i
    · subst hj
      simp only [Function.update_self] at hslot
      exact hentry slot hslot
    · simp only [Function.update_self, Function.update_of_ne hj] at hslot
      exact h r j slot hslot
  · simp only [Function.update_of_ne hr] at hslot
    exact h r j slot hslot

/-- A row is noted with the slot it was found or admitted in. -/
theorem prefetchRow (h : t.EntriesInv) (hindex : t.IndexInv) (answers : Answers)
    (record : cfg.RecordId) (i : ℕ) (row : UInt64) :
    (t.prefetchRow answers record i row).EntriesInv := by
  unfold Table.prefetchRow
  split
  · have hvictim := claimVictimLoop_records (2 * cfg.budgetRows).toNat t
    obtain ⟨u, hu, hclaim | ⟨slot, v, hv, hclaim⟩⟩ := t.claimVictim_motions
    · rw [← claimVictim, hclaim] at hvictim
      rw [hclaim]
      exact (h.motions hu.motions hvictim.waiters).setWaiter record i fun slot hslot => by cases hslot
    · rw [← claimVictim, hclaim] at hvictim
      rw [hclaim]
      have hstart := hvictim.trans (v.startFillLocked_records answers slot row)
      refine EntriesInv.setWaiter (h.motions (hu.motions.tail (.admitted answers slot row hv)) hstart.waiters)
        record i ?_
      rintro slot' ⟨⟩
      exact v.startFillLocked_not_free answers slot row
  · rename_i slot hfind
    have hstate : (t.slots slot).state ≠ .free := by
      rcases (hindex.occupied slot).mp (hindex.indexFind_eq_some_iff.mp hfind).1 with hs | hs <;>
        rw [hs] <;> decide
    have hnoted : ∀ u : Table cfg, Aside t u → u.waiters = t.waiters →
        (u.noteWaiter record i slot).EntriesInv := by
      intro u hu hwaiters
      refine EntriesInv.setWaiter (h.motions hu.motions hwaiters) record i ?_
      rintro slot' ⟨⟩
      rwa [hu.state]
    split
    · exact hnoted _ ⟨fun _ => rfl, fun _ => rfl, rfl, rfl, rfl, rfl, rfl, rfl, rfl⟩ rfl
    · exact hnoted _ ⟨fun _ => rfl, fun _ => rfl, rfl, rfl, rfl, rfl, rfl, rfl, rfl⟩ rfl

theorem prefetchRows (hindex : t.IndexInv) (h : t.EntriesInv) (answers : Answers)
    (record : cfg.RecordId) (rows : List UInt64) (i : ℕ) :
    (Table.prefetchRows answers record i rows t).EntriesInv := by
  induction rows generalizing t i with
  | nil => exact h
  | cons row rows ih =>
      exact ih (hindex.quiets (t.prefetchRow_quiets hindex answers record i row))
        (h.prefetchRow hindex answers record i row) (i + 1)

theorem prefetch (h : t.EntriesInv) (hindex : t.IndexInv) (answers : Answers) (rows : List UInt64) :
    (t.prefetch answers rows).2.EntriesInv := by
  unfold Table.prefetch
  split_ifs
  · exact h
  · exact h
  · split
    · exact h
    · rename_i record hrecord
      exact prefetchRows
        (hindex.bookkeeping (.of_records t _ t.waiters t.clockHand _ t.counters))
        (h.motions (t.openRecord_aside record rows.length).motions rfl) answers record rows 0

end EntriesInv

end Table

/-- The action hands out a ticket, drops one or moves one. -/
def Action.HandlesTickets : Action cfg → Prop
  | .prefetch _ _ _ => True
  | .dropTicket _ => True
  | .moveTicket _ _ => True
  | _ => False

namespace World

variable {w w' u : World cfg} {action : Action cfg} {thread : ThreadId} {choice : Choice}

/-- Steps that handle no tickets leave records, entries and tickets alone. -/
theorem step_records (hstep : w.step action = some w') (h : ¬ action.HandlesTickets) :
    Table.SameRecords w.table w'.table ∧ ∀ v, (w'.tickets v).ticket = (w.tickets v).ticket := by
  have hcell : ∀ (v : TicketVar) (cell : TicketCell cfg), cell.ticket = (w.tickets v).ticket →
      ∀ v', ((Function.update w.tickets v cell) v').ticket = (w.tickets v').ticket :=
    fun v cell hcell => proj_update TicketCell.ticket w.tickets hcell
  unfold step at hstep
  split_ifs at hstep
  cases action with
  | resolveInto thread rows out outSize =>
      have hstep : w.callResolve thread rows out outSize = some w' := hstep
      unfold callResolve at hstep
      split at hstep
      · split_ifs at hstep <;> cases hstep <;> exact ⟨.refl _, fun _ => rfl⟩
      · cases hstep
  | wait thread v deadline =>
      have hstep : w.callWait thread v deadline = some w' := hstep
      unfold callWait at hstep
      split at hstep
      · split at hstep <;> cases hstep
        · exact ⟨.refl _, fun _ => rfl⟩
        · exact ⟨.refl _, hcell v _ rfl⟩
      · cases hstep
  | drain thread deadline =>
      have hstep : w.callDrain thread deadline = some w' := hstep
      unfold callDrain at hstep
      split at hstep <;> cases hstep
      exact ⟨.refl _, fun _ => rfl⟩
  | advance thread choice =>
      have hstep : w.advance thread choice = some w' := hstep
      unfold World.advance at hstep
      split at hstep
      · obtain ⟨⟨call', pc', u⟩, hresolve, rfl⟩ := Option.map_eq_some_iff.mp hstep
        obtain ⟨hrecords, htickets⟩ := resolveStep_records hresolve
        exact ⟨hrecords, fun v => congrArg (fun tickets => (tickets v).ticket) htickets⟩
      · obtain ⟨⟨outcome', pc', u⟩, hwait, rfl⟩ := Option.map_eq_some_iff.mp hstep
        obtain ⟨hrecords, htickets⟩ := waitStep_records hwait
        exact ⟨hrecords, fun v => congrArg (fun tickets => (tickets v).ticket) htickets⟩
      · obtain ⟨pc', hdrain, rfl⟩ := Option.map_eq_some_iff.mp hstep
        exact ⟨.refl _, fun _ => rfl⟩
      · cases hstep
  | leave thread =>
      have hstep : w.leave thread = some w' := hstep
      unfold leave at hstep
      split at hstep
      case h_3 call outcome hpc =>
        cases hstep
        exact ⟨.refl _, hcell call.ticket _ rfl⟩
      case h_5 => cases hstep
      all_goals
        cases hstep
        exact ⟨.refl _, fun _ => rfl⟩
  | work choice =>
      obtain ⟨⟨pc, t⟩, hwork, rfl⟩ := Option.map_eq_some_iff.mp hstep
      exact ⟨workerStep_records hwork, fun _ => rfl⟩
  | tryGet row v =>
      have hrecords := w.table.findReady_records row
      have hstep : w.tryGet row v = some w' := hstep
      unfold tryGet at hstep
      split_ifs at hstep
      · cases hstep
        exact ⟨.refl _, fun _ => rfl⟩
      · split at hstep <;> cases hstep <;> rename_i hfind <;> rw [hfind] at hrecords
        · exact ⟨hrecords, fun _ => rfl⟩
        · exact ⟨⟨hrecords.tickets, hrecords.waiters⟩, fun _ => rfl⟩
  | reset v =>
      have hstep : (if w.inUse v then none else some (w.resetLease v)) = some w' := hstep
      split_ifs at hstep
      cases hstep
      obtain ⟨hrecords, htickets⟩ := w.resetLease_records v
      exact ⟨hrecords, fun v => congrArg (fun tickets => (tickets v).ticket) htickets⟩
  | move source target =>
      have hstep : (if w.inUse source ∨ w.inUse target then none
        else some (w.moveLease source target)) = some w' := hstep
      split_ifs at hstep
      cases hstep
      obtain ⟨hrecords, htickets⟩ := w.resetLease_records target
      unfold moveLease
      split_ifs
      · exact ⟨.refl _, fun _ => rfl⟩
      · exact ⟨hrecords, fun v => congrArg (fun tickets => (tickets v).ticket) htickets⟩
  | invalidate creation generation sources resolver =>
      cases hstep
      exact ⟨Table.invalidate_records .., fun _ => rfl⟩
  | deliver id status =>
      cases hstep
      exact ⟨Table.deliver_records .., fun _ => rfl⟩
  | _ => exact absurd trivial h

theorem resetTicket_waiters (w : World cfg) (v : TicketVar) :
    (w.resetTicket v).table.waiters = w.table.waiters := by
  unfold resetTicket
  split
  · rfl
  · split
    · rfl
    · rename_i hdiscard
      exact (Table.discardTicket_records hdiscard).1

/-- Every step leaves entries on slots in use. -/
theorem entriesInv_step (hfill : w.FillInv) (h : w.table.EntriesInv)
    (hstep : w.step action = some w') : w'.table.EntriesInv := by
  have hmotions := step_motions hfill hstep
  by_cases hhandles : action.HandlesTickets
  · unfold step at hstep
    split_ifs at hstep
    cases action with
    | prefetch rows v answers =>
        have hstep : w.prefetch rows v answers = some w' := hstep
        have hprefetch := h.prefetch hfill.index answers rows
        unfold World.prefetch at hstep
        split_ifs at hstep
        split at hstep <;> rename_i heq <;> rw [heq] at hprefetch <;> cases hstep <;> exact hprefetch
    | dropTicket v =>
        have hstep : (if (w.tickets v).users ≠ 0 then none else some (w.resetTicket v)) = some w' :=
          hstep
        split_ifs at hstep
        cases hstep
        exact h.motions hmotions (w.resetTicket_waiters v)
    | moveTicket source target =>
        have hstep : (if (w.tickets source).users ≠ 0 ∨ (w.tickets target).users ≠ 0 then none
          else some (w.moveTicket source target)) = some w' := hstep
        split_ifs at hstep
        cases hstep
        refine h.motions hmotions ?_
        unfold moveTicket
        split_ifs
        · rfl
        · exact w.resetTicket_waiters target
    | _ => exact hhandles.elim
  · exact h.motions hmotions (step_records hstep hhandles).1.waiters

/-- The entries name slots in use in every reachable state. -/
theorem entriesInv_of_reachable {h : cfg.Accepted}
    (hw : Reachable World.step (World.start cfg h) w) : w.table.EntriesInv :=
  hw.invariant_of (fun _ => fillInv_of_reachable) (fun _ _ _ hslot => by cases hslot)
    fun _ _ _ hfill hentries _ hstep => entriesInv_step hfill hentries hstep

/-- A row that failed has a failure to report. -/
theorem verdict_failed (hentries : w.table.EntriesInv) (hfails : w.table.FailInv)
    {record : cfg.RecordId} {i : ℕ} {failure : Status}
    (h : w.table.verdict (w.table.waiters record i) = .failed failure) : failure ≠ .ok := by
  unfold Table.verdict at h
  split at h
  · cases h
  · rename_i slot hslot
    dsimp only at h
    split_ifs at h
    split at h
    · cases h
    · cases h
    · rename_i hready hfilling
      cases h
      have hnot := hentries record i slot hslot
      apply hfails slot
      cases hstate : (w.table.slots slot).state with
      | free => exact absurd hstate hnot
      | filling => exact absurd hstate hfilling
      | ready => exact absurd hstate hready
      | failed => rfl

end World

/-! ## The machine with its history -/

/-- The state of the machine, the verdicts of each thread's last call of `wait` so far, and
the rows of the batch whose ticket is in a variable. -/
structure History (cfg : TableConfig) where
  world : World cfg
  verdicts : ThreadId → List Verdict
  batches : TicketVar → List UInt64

namespace History

/-- The history before any client has done anything. -/
def start (cfg : TableConfig) (h : cfg.Accepted) : History cfg where
  world := World.start cfg h
  verdicts := fun _ => []
  batches := fun _ => []

/-- The verdict a thread passes in a step: a waiting call that goes on to another entry passes
one on the entry it leaves. -/
def passed (t : Table cfg) : Pc cfg → Pc cfg → List Verdict
  | .waiting call _ pc, .waiting _ _ (.entry _) =>
      [t.verdict (t.waiters call.record (pc.position call.count))]
  | _, _ => []

/-- The verdicts once the machine has got to `w'`. -/
def verdictsAfter (s : History cfg) (w' : World cfg) : Action cfg → ThreadId → List Verdict
  | .wait thread _ _ => Function.update s.verdicts thread []
  | .advance thread _ =>
      Function.update s.verdicts thread
        (s.verdicts thread ++ passed s.world.table (s.world.threads thread) (w'.threads thread))
  | _ => s.verdicts

/-- The batches once an action has been taken. -/
def batchesAfter (s : History cfg) : Action cfg → TicketVar → List UInt64
  | .prefetch rows v _ => Function.update s.batches v rows
  | .moveTicket source target => Function.update s.batches target (s.batches source)
  | _ => s.batches

/-- The machine takes a step and the history goes on. -/
def step (s : History cfg) (action : Action cfg) : Option (History cfg) :=
  (s.world.step action).map fun w' => ⟨w', s.verdictsAfter w' action, s.batchesAfter action⟩

/-- The history adds nothing to what the machine does. -/
theorem step_world (s : History cfg) (action : Action cfg) :
    (s.step action).map world = s.world.step action := by
  rw [step, Option.map_map]
  exact Option.map_id_apply

variable {s s' : History cfg} {action : Action cfg} {h : cfg.Accepted}

theorem reachable_world (hs : Reachable step (start cfg h) s) :
    Reachable World.step (World.start cfg h) s.world := by
  induction hs with
  | start => exact .start
  | @step u u' action hs ha hstep ih =>
      have hworld := u.step_world action
      rw [hstep] at hworld
      exact ih.step trivial hworld.symm

/-- Every run of the machine has its history. -/
theorem exec_world (actions : List (Action cfg)) (s : History cfg) :
    (exec step actions s).map world = exec World.step actions s.world :=
  exec_map step_world actions s

/-! ### The batch of a held ticket -/

/-- The record of a held ticket is as long as its batch. -/
def BatchesInv (s : History cfg) : Prop :=
  ∀ v ticket, (s.world.tickets v).ticket = some ticket →
    (s.world.table.tickets ticket.record).count = (s.batches v).length ∧
      (s.batches v).length < 2 ^ 32

end History

/-- The record an accepted `prefetch` takes counts its rows. -/
theorem Table.prefetch_count {t t' : Table cfg} {answers : Answers} {rows : List UInt64}
    {ticket : Ticket cfg} (h : t.prefetch answers rows = (.ok ticket, t')) :
    (t'.tickets ticket.record).count = rows.length ∧ rows.length < 2 ^ 32 := by
  unfold Table.prefetch at h
  split_ifs at h with hbatch hrange
  · cases h
  · cases h
  · split at h
    · cases h
    · rename_i record hfree
      have htickets := (prefetchRows_records answers record rows 0 (t.openRecord record rows.length)).1
      cases h
      refine ⟨?_, ?_⟩
      · rw [htickets]
        show (Function.update t.tickets record _ record).count = _
        rw [Function.update_self]
      · have hlarge := cfg.maxBatchRows.toNat_lt
        unfold batchStatus at hbatch
        split_ifs at hbatch with hempty hlong
        · exact absurd (fun hok => by cases hok) hbatch
        · exact absurd (fun hok => by cases hok) hbatch
        · omega

theorem World.resetTicket_counts (w : World cfg) (v : TicketVar) :
    (∀ r, ((w.resetTicket v).table.tickets r).count = (w.table.tickets r).count) ∧
      ∀ v' ticket, ((w.resetTicket v).tickets v').ticket = some ticket →
        (w.tickets v').ticket = some ticket := by
  unfold World.resetTicket
  split
  · exact ⟨fun _ => rfl, fun _ _ hv => hv⟩
  · rename_i ticket hticket
    split
    · exact ⟨fun _ => rfl, fun _ _ hv => hv⟩
    · rename_i t hdiscard
      unfold Table.discardTicket at hdiscard
      dsimp only at hdiscard
      split_ifs at hdiscard
      cases hdiscard
      refine ⟨proj_update TicketRecord.count w.table.tickets rfl, fun v' ticket' hv => ?_⟩
      by_cases hvv : v' = v
      · rw [hvv] at hv
        simp [World.setTicket] at hv
      · simpa [World.setTicket, Function.update_of_ne hvv] using hv

namespace History

variable {s s' : History cfg} {action : Action cfg} {h : cfg.Accepted}

theorem BatchesInv.step (hinv : s.BatchesInv) (htickets : s.world.TicketInv)
    (hstep : s.step action = some s') : s'.BatchesInv := by
  obtain ⟨w', hworld, rfl⟩ := Option.map_eq_some_iff.mp hstep
  intro v ticket hv
  by_cases hhandles : action.HandlesTickets
  · unfold World.step at hworld
    split_ifs at hworld
    cases action with
    | prefetch rows target answers =>
        have hworld : s.world.prefetch rows target answers = some w' := hworld
        unfold World.prefetch at hworld
        split_ifs at hworld with hguard
        rw [not_or, not_not] at hguard
        split at hworld <;> rename_i hprefetch <;> cases hworld
        · have hne : v ≠ target := by
            rintro rfl
            exact hguard.2 (by rw [hv]; rfl)
          have hkept := Table.prefetch_records_error hprefetch
          dsimp only [batchesAfter] at hv ⊢
          rw [hkept.tickets, Function.update_of_ne hne]
          exact hinv v ticket hv
        · rename_i opened t
          by_cases hvt : v = target
          · rw [hvt] at hv ⊢
            simp only [World.setTicket, batchesAfter, Function.update_self, Option.some.injEq] at hv ⊢
            rw [← hv]
            exact Table.prefetch_count hprefetch
          · simp only [World.setTicket, batchesAfter, Function.update_of_ne hvt] at hv ⊢
            obtain ⟨hfree, -, hothers⟩ := Table.prefetch_records_ok hprefetch
            have hne : ticket.record ≠ opened.record := by
              intro heq
              have hused := htickets.inUse v ticket hv
              rw [heq, hfree] at hused
              cases hused
            rw [(hothers ticket.record hne).1]
            exact hinv v ticket hv
    | dropTicket target =>
        have hworld : (if (s.world.tickets target).users ≠ 0 then none
          else some (s.world.resetTicket target)) = some w' := hworld
        split_ifs at hworld
        cases hworld
        obtain ⟨hcounts, hold⟩ := s.world.resetTicket_counts target
        dsimp only at hv ⊢
        rw [hcounts]
        exact hinv v ticket (hold v ticket hv)
    | moveTicket source target =>
        have hworld : (if (s.world.tickets source).users ≠ 0 ∨ (s.world.tickets target).users ≠ 0
          then none else some (s.world.moveTicket source target)) = some w' := hworld
        split_ifs at hworld
        cases hworld
        obtain ⟨hcounts, hold⟩ := s.world.resetTicket_counts target
        unfold World.moveTicket at hv ⊢
        dsimp only [batchesAfter] at hv ⊢
        split_ifs at hv ⊢ with hsame
        · rw [hsame, Function.update_eq_self]
          exact hinv v ticket hv
        · simp only [World.setTicket] at hv ⊢
          rw [hcounts]
          by_cases hsource : v = source
          · rw [hsource, Function.update_self] at hv
            cases hv
          · rw [Function.update_of_ne hsource] at hv
            by_cases htarget : v = target
            · rw [htarget, Function.update_self] at hv ⊢
              exact hinv source ticket (hold source ticket hv)
            · rw [Function.update_of_ne htarget] at hv ⊢
              exact hinv v ticket (hold v ticket hv)
    | _ => exact hhandles.elim
  · obtain ⟨hrecords, hsame⟩ := World.step_records hworld hhandles
    rw [hsame v] at hv
    have hbatches : s.batchesAfter action = s.batches := by
      cases action <;> first | rfl | exact absurd trivial hhandles
    dsimp only
    rw [hrecords.tickets, hbatches]
    exact hinv v ticket hv

/-! ### The verdicts of a waiting call -/

/-- A waiting call has passed a verdict on every entry before the one it is at, and its
outcome is their tally. -/
structure Tallied (s : History cfg) (thread : ThreadId) (call : WaitCall cfg) (outcome : WaitOutcome)
    (pc : WaitPc cfg) : Prop where
  count : call.count = (s.batches call.ticket).length
  small : call.count < 2 ^ 32
  tally : outcome = .tallyOf (s.verdicts thread)
  position : (s.verdicts thread).length = pc.position call.count
  within : pc.Within call.count
  failures : ∀ failure, .failed failure ∈ s.verdicts thread → failure ≠ .ok

/-- Every waiting call is tallied. -/
def CallsTallied (s : History cfg) : Prop :=
  ∀ thread call outcome pc, s.world.threads thread = .waiting call outcome pc →
    s.Tallied thread call outcome pc

/-- A thread's verdicts are its own. -/
theorem verdictsAfter_other {w' : World cfg} {thread : ThreadId} (h : action.caller ≠ some thread) :
    s.verdictsAfter w' action thread = s.verdicts thread := by
  cases action with
  | wait k v deadline => exact Function.update_of_ne (fun heq => h (congrArg some heq.symm)) ..
  | advance k choice => exact Function.update_of_ne (fun heq => h (congrArg some heq.symm)) ..
  | _ => rfl

/-- The batch of a ticket some call uses stays. -/
theorem batchesAfter_used {w' : World cfg} {v : TicketVar} (hused : (s.world.tickets v).users ≠ 0)
    (hworld : s.world.step action = some w') : s.batchesAfter action v = s.batches v := by
  unfold World.step at hworld
  split_ifs at hworld
  cases action with
  | prefetch rows target answers =>
      have hworld : s.world.prefetch rows target answers = some w' := hworld
      unfold World.prefetch at hworld
      split_ifs at hworld with hguard
      refine Function.update_of_ne ?_ ..
      rintro rfl
      exact hguard (Or.inl hused)
  | moveTicket source target =>
      have hworld : (if (s.world.tickets source).users ≠ 0 ∨ (s.world.tickets target).users ≠ 0
        then none else some (s.world.moveTicket source target)) = some w' := hworld
      split_ifs at hworld with hguard
      refine Function.update_of_ne ?_ ..
      rintro rfl
      exact hguard (Or.inr hused)
  | _ => rfl

/-- A call of `wait` starts without verdicts on a batch as long as its record. -/
theorem callWait_tallied (hbatches : s.BatchesInv) {thread : ThreadId} {v : TicketVar}
    {deadline : Bool} {w' : World cfg} (hworld : s.world.callWait thread v deadline = some w')
    {call : WaitCall cfg} {outcome : WaitOutcome} {pc : WaitPc cfg}
    (hpc : w'.threads thread = .waiting call outcome pc) :
    Tallied ⟨w', Function.update s.verdicts thread [], s.batches⟩ thread call outcome pc := by
  unfold World.callWait at hworld
  split at hworld
  · split at hworld <;> cases hworld
    · simp [World.setThread] at hpc
    · rename_i ticket hticket
      have hpc : Function.update s.world.threads thread _ thread = .waiting call outcome pc := hpc
      rw [Function.update_self] at hpc
      cases hpc
      obtain ⟨hcount, hsmall⟩ := hbatches v ticket hticket
      exact ⟨hcount, hcount ▸ hsmall, by simp, by simp [WaitPc.position], Nat.zero_le _, by simp⟩
  · cases hworld

/-- A step of a waiting call keeps it tallied. -/
theorem advance_tallied (hinv : s.CallsTallied) (hentries : s.world.table.EntriesInv)
    (hfails : s.world.table.FailInv) {thread : ThreadId} {choice : Choice} {w' : World cfg}
    (hworld : s.world.advance thread choice = some w') {call : WaitCall cfg} {outcome : WaitOutcome}
    {pc : WaitPc cfg} (hpc : w'.threads thread = .waiting call outcome pc) :
    Tallied ⟨w', Function.update s.verdicts thread (s.verdicts thread ++
      passed s.world.table (s.world.threads thread) (w'.threads thread)), s.batches⟩
      thread call outcome pc := by
  unfold World.advance at hworld
  split at hworld
  · obtain ⟨⟨call', pc', u⟩, hresolve, rfl⟩ := Option.map_eq_some_iff.mp hworld
    simp [World.setThread] at hpc
  · rename_i call₀ outcome₀ pc₀ hbefore
    obtain ⟨⟨outcome', pc', u⟩, hwait, rfl⟩ := Option.map_eq_some_iff.mp hworld
    have hafter : (u.setThread thread (.waiting call₀ outcome' pc')).threads thread =
      .waiting call₀ outcome' pc' := Function.update_self ..
    rw [hafter] at hpc
    cases hpc
    obtain ⟨hcount, hsmall, htally, hposition, hwithin, hfailures⟩ :=
      hinv thread call outcome₀ pc₀ hbefore
    rw [hbefore, hafter]
    cases World.waitStep_outcome hwithin hwait with
    | stays hsame hstays hentry =>
        have hnone : passed s.world.table (.waiting call outcome pc₀) (.waiting call outcome pc) = [] := by
          cases pc with
          | entry i => exact absurd rfl (hentry i)
          | _ => rfl
        rw [hnone]
        exact ⟨hcount, hsmall, by simpa using htally, by simpa [hsame] using hposition, hstays,
          by simpa using hfailures⟩
    | noted hlt =>
        refine ⟨hcount, hsmall, ?_, ?_, hlt, ?_⟩
        · simp [passed, htally]
        · simp [passed, hposition, WaitPc.position]
        · intro failure hfailure
          simp only [passed, Function.update_self, List.mem_append, List.mem_singleton] at hfailure
          rcases hfailure with hfailure | hfailure
          · exact hfailures failure hfailure
          · exact World.verdict_failed hentries hfails hfailure.symm
    | returned hdone =>
        have hlength : (s.verdicts thread).length = WaitPc.position call.count (.returned : WaitPc cfg) :=
          hposition.trans hdone
        exact ⟨hcount, hsmall, by simpa [passed] using htally, by simpa [passed] using hlength, trivial,
          by simpa [passed] using hfailures⟩
  · obtain ⟨pc', hdrain, rfl⟩ := Option.map_eq_some_iff.mp hworld
    simp [World.setThread] at hpc
  · cases hworld

/-- Every step keeps every waiting call tallied. -/
theorem CallsTallied.step (hinv : s.CallsTallied) (hbatches : s.BatchesInv)
    (hspan : s.world.SpanInv) (htickets : s.world.TicketInv) (hentries : s.world.table.EntriesInv)
    (hfails : s.world.table.FailInv) (hstep : s.step action = some s') : s'.CallsTallied := by
  obtain ⟨w', hworld, rfl⟩ := Option.map_eq_some_iff.mp hstep
  intro thread call outcome pc hpc
  by_cases hcaller : action.caller = some thread
  · unfold World.step at hworld
    split_ifs at hworld
    cases action with
    | resolveInto k rows out outSize =>
        cases hcaller
        have hworld : s.world.callResolve thread rows out outSize = some w' := hworld
        unfold World.callResolve at hworld
        split at hworld
        · split_ifs at hworld <;> cases hworld <;> simp [World.setThread] at hpc
        · cases hworld
    | wait k v deadline =>
        cases hcaller
        exact callWait_tallied hbatches hworld hpc
    | drain k deadline =>
        cases hcaller
        have hworld : s.world.callDrain thread deadline = some w' := hworld
        unfold World.callDrain at hworld
        split at hworld <;> cases hworld
        simp [World.setThread] at hpc
    | advance k choice =>
        cases hcaller
        exact advance_tallied hinv hentries hfails hworld hpc
    | leave k =>
        cases hcaller
        have hworld : s.world.leave thread = some w' := hworld
        unfold World.leave at hworld
        split at hworld <;> cases hworld <;> simp [World.setThread] at hpc
    | _ => cases hcaller
  · have hsame : w'.threads thread = s.world.threads thread :=
      ((hspan.step hworld).2 thread hcaller).pc
    have hbefore := hpc
    dsimp only at hbefore
    rw [hsame] at hbefore
    have hold := hinv thread call outcome pc hbefore
    have hused : (s.world.tickets call.ticket).users ≠ 0 :=
      htickets.users_ne_zero (show (s.world.threads thread).WaitsOn call.ticket by rw [hbefore]; exact rfl)
    have hverdicts : s.verdictsAfter w' action thread = s.verdicts thread := verdictsAfter_other hcaller
    have hbatch := batchesAfter_used hused hworld
    exact ⟨hold.count.trans (congrArg List.length hbatch.symm), hold.small,
      hold.tally.trans (congrArg WaitOutcome.tallyOf hverdicts.symm),
      (congrArg List.length hverdicts).trans hold.position, hold.within,
      fun failure hfailure => hold.failures failure (hverdicts ▸ hfailure)⟩

/-- Batches are as long as their records, and waiting calls are tallied. -/
structure HistoryInv (s : History cfg) : Prop where
  batches : s.BatchesInv
  calls : s.CallsTallied

theorem historyInv_of_reachable (hs : Reachable step (start cfg h) s) : s.HistoryInv := by
  have hstart : (start cfg h).HistoryInv :=
    ⟨fun v ticket hv => (by cases hv), fun thread call outcome pc hpc => (by cases hpc)⟩
  refine hs.invariant_of (fun _ hu => reachable_world hu) hstart fun u action u' hworld hinv _ hstep => ?_
  have htickets := World.ticketInv_of_reachable hworld
  exact ⟨hinv.batches.step htickets hstep,
    hinv.calls.step hinv.batches (World.spanInv_of_reachable hworld) htickets
      (World.entriesInv_of_reachable hworld) (World.failInv_of_reachable hworld) hstep⟩

end History

/-- When a call of `wait` returns, it has passed a verdict on every row of the batch, its
outcome is their tally, and it tells the truth unless rows were evicted and nothing worse
happened. -/
theorem wait_truthful_iff {h : cfg.Accepted} {s : History cfg}
    (hs : Reachable History.step (History.start cfg h) s) {thread : ThreadId} {call : WaitCall cfg}
    {outcome : WaitOutcome} (hpc : s.world.threads thread = .waiting call outcome .returned) :
    (s.verdicts thread).length = (s.batches call.ticket).length ∧
      outcome = .tallyOf (s.verdicts thread) ∧
      (outcome.Truthful (s.verdicts thread) (s.batches call.ticket).length ↔
        ¬ WaitOutcome.OnlyEvicted (s.verdicts thread)) := by
  have htallied := (History.historyInv_of_reachable hs).calls thread call outcome .returned hpc
  have hlength : (s.verdicts thread).length = (s.batches call.ticket).length :=
    htallied.position.trans htallied.count
  refine ⟨hlength, htallied.tally, ?_⟩
  rw [← hlength, htallied.tally]
  refine WaitOutcome.tallyOf_truthful_iff ?_ htallied.failures
  rw [hlength, ← htallied.count]
  exact htallied.small

/-- Four rows of two bytes, and three slots for them. -/
def threeSlots : TableConfig where
  rowCount := 4
  sourceRowBytes := 2
  outputRowBytes := 2
  sources := [⟨0, 2⟩, ⟨1, 2⟩]
  resolveExtent := some twoShardsResolver
  outputStorage := ⟨0, 6⟩
  budgetRows := 3
  maxTickets := 1
  maxBatchRows := 4

theorem threeSlots_accepted : threeSlots.Accepted := by decide +kernel

/-- Four rows are prefetched: the first is read, the second fails, the third is not delivered and
the fourth finds no slot.  Thread 0 waits for them until its deadline. -/
def mixedWaitRun : List (Action threeSlots) :=
  [.prefetch [0, 1, 2, 3] 0 fun _ => {}, .deliver 0 .ok, .deliver 1 .ioError, .wait 0 0 true] ++
    List.replicate 18 (.advance 0 { expired := true })

/-- The outcome of a wait for one row of each kind. -/
def mixedOutcome : WaitOutcome :=
  { status := .timeout, filled := 1, failed := 1, pending := 1, evicted := 1 }

theorem wait_truthful_mixed :
    ∃ s, exec History.step mixedWaitRun (History.start threeSlots threeSlots_accepted) = some s ∧
      s.world.threads 0 = .waiting ⟨0, ⟨0, by decide⟩, 4, true⟩ mixedOutcome .returned ∧
      s.verdicts 0 = [.filled, .failed .ioError, .pending, .evicted] ∧
      mixedOutcome.Truthful (s.verdicts 0) 4 := by
  have hrun : (exec History.step mixedWaitRun (History.start threeSlots threeSlots_accepted)).any
      fun s => s.world.threads 0 = .waiting ⟨0, ⟨0, by decide⟩, 4, true⟩ mixedOutcome .returned ∧
        s.verdicts 0 = [.filled, .failed .ioError, .pending, .evicted] ∧
        s.batches 0 = [0, 1, 2, 3] := by
    decide +kernel
  obtain ⟨s, hs, hfacts⟩ := (Option.any_eq_true _ _).mp hrun
  obtain ⟨hpc, hverdicts, hbatch⟩ := of_decide_eq_true hfacts
  have hnot : ¬ WaitOutcome.OnlyEvicted (s.verdicts 0) := by
    rw [hverdicts]
    rintro ⟨-, hall⟩
    exact absurd (hall .pending (by decide)) (by decide)
  have htruthful := (wait_truthful_iff (reachable_of_exec .start hs) hpc).2.2.mpr hnot
  rw [hbatch] at htruthful
  exact ⟨s, hs, hpc, hverdicts, htruthful⟩

/-- The call the thread has made, for a batch of this many rows. -/
def onlyWait (count : ℕ) : WaitCall twoShards := ⟨0, ⟨0, by decide⟩, count, false⟩

/-- Rows 0 and 1 are prefetched into the one slot, and thread 0 waits for them. -/
def halfEvictedRun : List (Action twoShards) :=
  [.prefetch [0, 1] 0 fun _ => {}, .deliver 0 .ok, .deliver 1 .ok, .wait 0 0 false, .advance 0 {},
    .advance 0 {}, .advance 0 {}, .advance 0 {}, .advance 0 {}, .advance 0 {}, .advance 0 {},
    .advance 0 {}, .advance 0 {}]

/-- One of two rows was filled, and `wait` reports success. -/
theorem wait_ok_half_evicted :
    ∃ s, Reachable History.step (History.start twoShards twoShards_accepted) s ∧
      s.world.threads 0 = .waiting (onlyWait 2) { filled := 1, evicted := 1 } .returned ∧
      s.batches 0 = [0, 1] ∧
      ¬ WaitOutcome.Truthful { filled := 1, evicted := 1 } (s.verdicts 0) (s.batches 0).length := by
  have hrun : (exec History.step halfEvictedRun (History.start twoShards twoShards_accepted)).any
      fun s => s.world.threads 0 = .waiting (onlyWait 2) { filled := 1, evicted := 1 } .returned ∧
        s.batches 0 = [0, 1] := by
    decide +kernel
  obtain ⟨s, hs, hfacts⟩ := (Option.any_eq_true _ _).mp hrun
  obtain ⟨hpc, hbatch⟩ := of_decide_eq_true hfacts
  refine ⟨s, reachable_of_exec .start hs, hpc, hbatch, fun htruthful => ?_⟩
  have hok := htruthful.ok rfl
  rw [hbatch] at hok
  revert hok
  decide

end TieredCache
