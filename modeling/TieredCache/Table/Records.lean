/-
# Ticket records

A held ticket has its record to itself, and a record in use is not handed out again: the
waiter entries a `wait` call goes through are not rewritten under it.
-/

import TieredCache.Table.Spans

namespace TieredCache

open Math.Runs Math.Tally

variable {cfg : TableConfig}

/-- The thread waits on the ticket in the variable. -/
def Pc.WaitsOn (v : TicketVar) : Pc cfg → Prop
  | .waiting call _ _ => call.ticket = v
  | _ => False

namespace Table

variable {t t' t'' : Table cfg} {slot : cfg.SlotId}

/-- Ticket records and waiter entries are the same. -/
structure SameRecords (t t' : Table cfg) : Prop where
  tickets : t'.tickets = t.tickets
  waiters : t'.waiters = t.waiters

theorem SameRecords.refl (t : Table cfg) : SameRecords t t := ⟨rfl, rfl⟩

theorem SameRecords.trans (h : SameRecords t t') (h' : SameRecords t' t'') : SameRecords t t'' :=
  ⟨h'.tickets.trans h.tickets, h'.waiters.trans h.waiters⟩

theorem claimVictimLoop_records (steps : ℕ) (t : Table cfg) :
    SameRecords t (claimVictimLoop steps t).2 := by
  induction steps generalizing t with
  | zero => exact .refl t
  | succ steps ih =>
      unfold claimVictimLoop
      dsimp only
      split_ifs
      · exact ⟨rfl, rfl⟩
      · exact ⟨(ih _).tickets, (ih _).waiters⟩
      · exact ⟨rfl, rfl⟩
      · exact ⟨(ih _).tickets, (ih _).waiters⟩
      · exact ⟨rfl, rfl⟩

theorem startFillLocked_records (t : Table cfg) (answers : Answers) (slot : cfg.SlotId)
    (row : UInt64) : SameRecords t (t.startFillLocked answers slot row).2 := by
  obtain ⟨u, hu, hstart⟩ := t.startFillLocked_cases answers slot row
  have hsame : SameRecords t u := by
    cases hu
    exact ⟨rfl, rfl⟩
  rcases hstart with ⟨length, head, hstart⟩ | ⟨status, -, hstart⟩ <;> rw [hstart]
  · exact ⟨hsame.tickets, hsame.waiters⟩
  · exact ⟨hsame.tickets, hsame.waiters⟩

theorem findOrFetch_records (t : Table cfg) (answers : Answers) (row : UInt64) :
    SameRecords t (t.findOrFetch answers row).2 := by
  unfold findOrFetch
  split
  · dsimp only
    split <;> exact ⟨rfl, rfl⟩
  · have hvictim := claimVictimLoop_records (2 * cfg.budgetRows).toNat t
    split <;> rename_i hclaim <;> unfold claimVictim at hclaim <;> rw [hclaim] at hvictim
    · exact hvictim
    · rename_i slot u
      have hstart := hvictim.trans (u.startFillLocked_records answers slot row)
      split <;> rename_i hfill <;> rw [hfill] at hstart <;> exact hstart

theorem findReady_records (t : Table cfg) (row : UInt64) : SameRecords t (t.findReady row).2 := by
  unfold findReady
  split
  · exact ⟨rfl, rfl⟩
  · split_ifs <;> exact ⟨rfl, rfl⟩

theorem deliver_records (t : Table cfg) (id : RequestId) (status : MemStatus) :
    SameRecords t (t.deliver id status) := by
  unfold deliver
  split_ifs <;> exact ⟨rfl, rfl⟩

theorem invalidate_records (t : Table cfg) (creation : MemStatus) (generation : UInt64)
    (sources : List ShardSource) (resolver : Option RowExtentResolver) :
    SameRecords t (t.invalidate creation generation sources resolver).2 := by
  unfold invalidate
  split_ifs <;> exact ⟨rfl, rfl⟩

theorem finishStep_records {pc : FinishPc} {next : Option FinishPc} {deadline : Bool}
    {choice : Choice} (h : t.finishStep slot deadline choice pc = some (next, t')) :
    SameRecords t t' := by
  unfold finishStep at h
  split at h
  · split_ifs at h <;> cases h <;> exact ⟨rfl, rfl⟩
  · cases h
    exact ⟨rfl, rfl⟩
  · split at h
    · cases h
      exact ⟨rfl, rfl⟩
    · cases h
      exact ⟨rfl, rfl⟩
    · split_ifs at h
      cases h
      exact ⟨rfl, rfl⟩
  all_goals
    cases h
    exact ⟨rfl, rfl⟩

theorem prefetchRows_records (answers : Answers) (record : cfg.RecordId) (rows : List UInt64)
    (i : ℕ) (t : Table cfg) :
    (prefetchRows answers record i rows t).tickets = t.tickets ∧
      ∀ r, r ≠ record → (prefetchRows answers record i rows t).waiters r = t.waiters r := by
  induction rows generalizing i t with
  | nil => exact ⟨rfl, fun _ _ => rfl⟩
  | cons row rows ih =>
      have hrow : (t.prefetchRow answers record i row).tickets = t.tickets ∧
          ∀ r, r ≠ record → (t.prefetchRow answers record i row).waiters r = t.waiters r := by
        unfold prefetchRow
        split
        · have hvictim := claimVictimLoop_records (2 * cfg.budgetRows).toNat t
          split <;> rename_i hclaim <;> unfold claimVictim at hclaim <;> rw [hclaim] at hvictim
          · exact ⟨hvictim.tickets, fun r hr =>
              (Function.update_of_ne hr ..).trans (congrFun hvictim.waiters r)⟩
          · rename_i slot u
            have hstart := hvictim.trans (u.startFillLocked_records answers slot row)
            exact ⟨hstart.tickets, fun r hr =>
              (Function.update_of_ne hr ..).trans (congrFun hstart.waiters r)⟩
        · split <;> exact ⟨rfl, fun r hr => Function.update_of_ne hr ..⟩
      obtain ⟨htickets, hwaiters⟩ := ih (i + 1) (t.prefetchRow answers record i row)
      exact ⟨htickets.trans hrow.1, fun r hr => (hwaiters r hr).trans (hrow.2 r hr)⟩

/-- A refused `prefetch` leaves the records alone. -/
theorem prefetch_records_error {answers : Answers} {rows : List UInt64} {status : Status}
    (h : t.prefetch answers rows = (.error status, t')) : SameRecords t t' := by
  unfold prefetch at h
  split_ifs at h
  · cases h
    exact .refl t
  · cases h
    exact .refl t
  · split at h
    · cases h
      exact .refl t
    · cases h

/-- An accepted `prefetch` takes a record that was not in use and leaves the others alone. -/
theorem prefetch_records_ok {answers : Answers} {rows : List UInt64} {ticket : Ticket cfg}
    (h : t.prefetch answers rows = (.ok ticket, t')) :
    (t.tickets ticket.record).inUse = false ∧ (t'.tickets ticket.record).inUse = true ∧
      ∀ r, r ≠ ticket.record → t'.tickets r = t.tickets r ∧ t'.waiters r = t.waiters r := by
  unfold prefetch at h
  split_ifs at h
  · cases h
  · cases h
  · split at h
    · cases h
    · rename_i record hfree
      obtain ⟨htickets, hwaiters⟩ :=
        prefetchRows_records answers record rows 0 (t.openRecord record rows.length)
      have hunused : (t.tickets record).inUse = false := by
        unfold freeRecord at hfree
        simpa using List.find?_some hfree
      cases h
      refine ⟨hunused, ?_, fun r hr => ⟨?_, hwaiters r hr⟩⟩
      · rw [htickets]
        show (Function.update t.tickets record _ record).inUse = true
        rw [Function.update_self]
      · rw [htickets]
        exact Function.update_of_ne hr ..

theorem discardTicket_records {ticket : Ticket cfg} (h : t.discardTicket ticket = some t') :
    t'.waiters = t.waiters ∧ ∀ r, r ≠ ticket.record → t'.tickets r = t.tickets r := by
  unfold discardTicket at h
  dsimp only at h
  split_ifs at h
  cases h
  exact ⟨rfl, fun r hr => Function.update_of_ne hr ..⟩

end Table

namespace World

variable {w w' u : World cfg} {thread : ThreadId} {choice : Choice} {action : Action cfg}

/-! ## Steps that leave the records alone -/

theorem resetLease_records (w : World cfg) (v : LeaseVar) :
    Table.SameRecords w.table (w.resetLease v).table ∧ (w.resetLease v).tickets = w.tickets := by
  unfold resetLease
  split
  · exact ⟨.refl _, rfl⟩
  · split
    · exact ⟨.refl _, rfl⟩
    · rename_i t hrelease
      obtain ⟨rfl, -⟩ := Table.releaseLease_eq_some hrelease
      exact ⟨⟨rfl, rfl⟩, rfl⟩

theorem admitRows_records (answers : Answers) (out : LeaseVar) (rows : List UInt64) (i : ℕ)
    (w : World cfg) :
    Table.SameRecords w.table (admitRows answers out i rows w).2.2.table ∧
      (admitRows answers out i rows w).2.2.tickets = w.tickets := by
  induction rows generalizing i w with
  | nil => exact ⟨.refl _, rfl⟩
  | cons row rows ih =>
      have hsame := w.table.findOrFetch_records answers row
      unfold admitRows
      split <;> rename_i hfind <;> rw [hfind] at hsame
      · rename_i slot t
        obtain ⟨hrest, htickets⟩ :=
          ih (i + 1) (({ w with table := t }).grant (out + i) slot row ⟨0, 0⟩)
        exact ⟨hsame.trans ⟨hrest.tickets, hrest.waiters⟩, htickets⟩
      · exact ⟨hsame, rfl⟩

theorem settleRow_records (w : World cfg) (call : ResolveCall) (i : ℕ) (lease : Lease cfg) :
    (w.settleRow call i lease).2.table = w.table ∧
      (w.settleRow call i lease).2.tickets = w.tickets := by
  unfold settleRow
  dsimp only
  split_ifs <;> exact ⟨rfl, rfl⟩

theorem resolveStep_records {call call' : ResolveCall} {pc pc' : ResolvePc cfg}
    (h : w.resolveStep call choice pc = some (call', pc', u)) :
    Table.SameRecords w.table u.table ∧ u.tickets = w.tickets := by
  have hsettle : ∀ i lease, (call, w.settleRow call i lease) = (call', pc', u) →
      Table.SameRecords w.table u.table ∧ u.tickets = w.tickets := by
    intro i lease heq
    obtain ⟨htable, htickets⟩ := w.settleRow_records call i lease
    rw [(Prod.mk.inj heq).2] at htable htickets
    exact ⟨by rw [htable]; exact .refl _, htickets⟩
  unfold resolveStep at h
  cases pc with
  | releasing i =>
      dsimp only at h
      split_ifs at h <;> cases h
      · exact w.resetLease_records _
      · exact ⟨.refl _, rfl⟩
      · exact ⟨.refl _, rfl⟩
  | phaseA =>
      dsimp only at h
      split_ifs at h <;> cases h <;> exact admitRows_records ..
  | unwind i count failure =>
      dsimp only at h
      split_ifs at h <;> cases h
      · exact w.resetLease_records _
      · exact ⟨.refl _, rfl⟩
  | drive i =>
      dsimp only at h
      split_ifs at h
      · split at h
        · cases h
        · split_ifs at h
          · cases h
            exact ⟨.refl _, rfl⟩
          · cases h
            exact ⟨.refl _, rfl⟩
          · cases h
            exact ⟨⟨rfl, rfl⟩, rfl⟩
          · exact hsettle i _ (Option.some.inj h)
      · cases h
        exact ⟨.refl _, rfl⟩
  | finishing i slot fpc =>
      dsimp only at h
      split at h
      · cases h
      · rename_i hfinish
        cases h
        exact ⟨Table.finishStep_records hfinish, rfl⟩
      · rename_i hfinish
        cases h
        exact ⟨Table.finishStep_records hfinish, rfl⟩
  | settle i =>
      dsimp only at h
      split at h
      · cases h
      · exact hsettle i _ (Option.some.inj h)
  | asleep i since =>
      dsimp only at h
      split_ifs at h
      split at h
      · cases h
      · split_ifs at h
        · exact hsettle i _ (Option.some.inj h)
        · cases h
          exact ⟨.refl _, rfl⟩
  | returned result => cases h

theorem waitStep_records {wait : WaitCall cfg} {outcome outcome' : WaitOutcome}
    {pc pc' : WaitPc cfg} (h : w.waitStep wait outcome choice pc = some (outcome', pc', u)) :
    Table.SameRecords w.table u.table ∧ u.tickets = w.tickets := by
  unfold waitStep at h
  cases pc with
  | entry i =>
      dsimp only at h
      split_ifs at h
      · split at h
        · cases h
          exact ⟨.refl _, rfl⟩
        · split_ifs at h <;> cases h <;> exact ⟨⟨rfl, rfl⟩, rfl⟩
      · cases h
        exact ⟨.refl _, rfl⟩
  | finishing i slot fpc =>
      dsimp only at h
      split at h
      · cases h
      · rename_i hfinish
        cases h
        exact ⟨Table.finishStep_records hfinish, rfl⟩
      · rename_i hfinish
        cases h
        exact ⟨Table.finishStep_records hfinish, rfl⟩
  | settle i =>
      dsimp only at h
      split at h <;> cases h
      exact ⟨.refl _, rfl⟩
  | asleep i since =>
      dsimp only at h
      split at h
      · split at h
        · cases h
        · split_ifs at h <;> cases h <;> exact ⟨⟨rfl, rfl⟩, rfl⟩
      · cases h
  | returned => cases h

theorem workerStep_records {t t' : Table cfg} {pc pc' : WorkerPc cfg}
    (h : workerStep t choice pc = some (pc', t')) : Table.SameRecords t t' := by
  unfold workerStep at h
  cases pc with
  | scan =>
      dsimp only at h
      split at h <;> cases h <;> exact ⟨rfl, rfl⟩
  | finishing slot fpc =>
      dsimp only at h
      split at h
      · cases h
      · rename_i hfinish
        cases h
        exact Table.finishStep_records hfinish
      · rename_i hfinish
        cases h
        exact Table.finishStep_records hfinish
  | asleep since =>
      dsimp only at h
      split_ifs at h
      cases h
      exact .refl _

/-! ## Waiting calls keep their records -/

/-- Held tickets have records of their own, in use, and count the calls that use them. -/
structure TicketInv (w : World cfg) : Prop where
  inUse : ∀ v ticket, (w.tickets v).ticket = some ticket →
    (w.table.tickets ticket.record).inUse = true
  apart : ∀ v v' ticket ticket', (w.tickets v).ticket = some ticket →
    (w.tickets v').ticket = some ticket' → ticket.record = ticket'.record → v = v'
  finite : ∀ v, {thread | (w.threads thread).WaitsOn v}.Finite
  users : ∀ v, (w.tickets v).users = tally (Pc.WaitsOn v) w.threads
  record : ∀ thread call outcome pc, w.threads thread = .waiting call outcome pc →
    ∃ ticket, (w.tickets call.ticket).ticket = some ticket ∧ ticket.record = call.record

/-- The entries of every waiting call are left alone. -/
def KeepsEntries (w w' : World cfg) : Prop :=
  ∀ thread call outcome pc, w.threads thread = .waiting call outcome pc →
    w'.table.waiters call.record = w.table.waiters call.record

namespace TicketInv

theorem start (h : cfg.Accepted) : (World.start cfg h).TicketInv where
  inUse := fun v ticket hv => by cases hv
  apart := fun v v' ticket ticket' hv => by cases hv
  finite := fun v => Set.toFinite _ |>.subset (Set.subset_empty_iff.mpr
    (Set.eq_empty_of_forall_notMem fun _ hk => hk))
  users := fun v => (tally_eq_zero fun _ hk => hk).symm
  record := fun thread call outcome pc hpc => by cases hpc

/-- A variable some call waits on has users. -/
theorem users_ne_zero (h : w.TicketInv) {v : TicketVar} (hwaits : (w.threads thread).WaitsOn v) :
    (w.tickets v).users ≠ 0 := by
  rw [h.users v]
  exact (tally_pos (h.finite v) hwaits).ne'

/-- No call begins or ends to wait. -/
theorem same (h : w.TicketInv) (hrecords : Table.SameRecords w.table w'.table)
    (htickets : w'.tickets = w.tickets)
    (hwaits : ∀ k v, (w'.threads k).WaitsOn v ↔ (w.threads k).WaitsOn v)
    (hcalls : ∀ k call outcome pc, w'.threads k = .waiting call outcome pc →
      ∃ outcome₀ pc₀, w.threads k = .waiting call outcome₀ pc₀) :
    w'.TicketInv ∧ KeepsEntries w w' := by
  refine ⟨⟨?_, ?_, fun v => ?_, fun v => ?_, fun k call outcome pc hpc => ?_⟩,
    fun k call outcome pc _ => by rw [hrecords.waiters]⟩
  · rw [htickets, hrecords.tickets]
    exact h.inUse
  · rw [htickets]
    exact h.apart
  · simp only [hwaits]
    exact h.finite v
  · rw [htickets, h.users v]
    exact (tally_congr fun k => hwaits k v).symm
  · obtain ⟨outcome₀, pc₀, hold⟩ := hcalls k call outcome pc hpc
    rw [htickets]
    exact h.record k call outcome₀ pc₀ hold

/-- One thread moves without beginning or ending to wait. -/
theorem moved (h : w.TicketInv) {pc : Pc cfg} (hrecords : Table.SameRecords w.table u.table)
    (htickets : u.tickets = w.tickets) (hthreads : u.threads = w.threads)
    (hwaits : ∀ v, pc.WaitsOn v ↔ (w.threads thread).WaitsOn v)
    (hcalls : ∀ call outcome wpc, pc = .waiting call outcome wpc →
      ∃ outcome₀ pc₀, w.threads thread = .waiting call outcome₀ pc₀) :
    (u.setThread thread pc).TicketInv ∧ KeepsEntries w (u.setThread thread pc) := by
  refine h.same hrecords htickets (fun k v => ?_) fun k call outcome wpc hpc => ?_
  · show (Function.update u.threads thread pc k).WaitsOn v ↔ _
    by_cases hk : k = thread
    · rw [hk, Function.update_self, hwaits]
    · rw [Function.update_of_ne hk, hthreads]
  · have hpc : Function.update u.threads thread pc k = .waiting call outcome wpc := hpc
    by_cases hk : k = thread
    · rw [hk, Function.update_self] at hpc
      rw [hk]
      exact hcalls call outcome wpc hpc
    · rw [Function.update_of_ne hk, hthreads] at hpc
      exact ⟨outcome, wpc, hpc⟩

/-- One thread moves outside `wait`. -/
theorem plain (h : w.TicketInv) {pc : Pc cfg} (hrecords : Table.SameRecords w.table u.table)
    (htickets : u.tickets = w.tickets) (hthreads : u.threads = w.threads)
    (hbefore : ∀ v, ¬ (w.threads thread).WaitsOn v) (hafter : ∀ v, ¬ pc.WaitsOn v) :
    (u.setThread thread pc).TicketInv ∧ KeepsEntries w (u.setThread thread pc) := by
  refine h.moved hrecords htickets hthreads (fun v => iff_of_false (hafter v) (hbefore v)) ?_
  rintro call outcome wpc rfl
  exact absurd rfl (hafter call.ticket)

/-- A call begins to wait on the ticket in a variable. -/
theorem begins (h : w.TicketInv) {v : TicketVar} {ticket : Ticket cfg} {count : ℕ}
    {deadline : Bool} (hidle : w.threads thread = .idle)
    (hticket : (w.tickets v).ticket = some ticket) :
    ((w.setTicket v { w.tickets v with users := (w.tickets v).users + 1 }).setThread thread
      (.waiting ⟨v, ticket.record, count, deadline⟩ {} (.entry 0))).TicketInv := by
  have hcell : ∀ v', (Function.update w.tickets v
      { w.tickets v with users := (w.tickets v).users + 1 } v').ticket = (w.tickets v').ticket := by
    intro v'
    by_cases hv : v' = v
    · rw [hv, Function.update_self]
    · rw [Function.update_of_ne hv]
  have hnot : ∀ v', ¬ (w.threads thread).WaitsOn v' := fun v' hwaits => by
    rw [hidle] at hwaits
    exact hwaits
  refine ⟨fun v' ticket' hv => ?_, fun v₁ v₂ t₁ t₂ h₁ h₂ => ?_, fun v' => ?_, fun v' => ?_,
    fun k call outcome pc hpc => ?_⟩
  · exact h.inUse v' ticket' ((hcell v').symm.trans hv)
  · exact h.apart v₁ v₂ t₁ t₂ ((hcell v₁).symm.trans h₁) ((hcell v₂).symm.trans h₂)
  · exact finite_update (h.finite v') thread _
  · show (Function.update w.tickets v _ v').users = tally _ (Function.update w.threads thread _)
    by_cases hv : v' = v
    · subst hv
      rw [Function.update_self, h.users v']
      have hnew : Pc.WaitsOn v'
          (.waiting ⟨v', ticket.record, count, deadline⟩ {} (.entry 0) : Pc cfg) := rfl
      exact (tally_update_gain (h.finite v') (hnot v') hnew).symm
    · rw [Function.update_of_ne hv, h.users v']
      exact (tally_update_same (iff_of_false (fun hwaits => hv hwaits.symm) (hnot v'))).symm
  · have hpc : Function.update w.threads thread _ k = .waiting call outcome pc := hpc
    by_cases hk : k = thread
    · rw [hk, Function.update_self] at hpc
      cases hpc
      exact ⟨ticket, (hcell v).trans hticket, rfl⟩
    · rw [Function.update_of_ne hk] at hpc
      obtain ⟨ticket', hticket', hrecord⟩ := h.record k call outcome pc hpc
      exact ⟨ticket', (hcell call.ticket).trans hticket', hrecord⟩

/-- A call has stopped waiting. -/
theorem leaves (h : w.TicketInv) {call : WaitCall cfg} {outcome : WaitOutcome} {pc : WaitPc cfg}
    (hpc : w.threads thread = .waiting call outcome pc) :
    ((w.setTicket call.ticket
      { w.tickets call.ticket with users := (w.tickets call.ticket).users - 1 }).setThread thread
        .idle).TicketInv := by
  have hcell : ∀ v', (Function.update w.tickets call.ticket
      { w.tickets call.ticket with users := (w.tickets call.ticket).users - 1 } v').ticket =
        (w.tickets v').ticket := by
    intro v'
    by_cases hv : v' = call.ticket
    · rw [hv, Function.update_self]
    · rw [Function.update_of_ne hv]
  have hwaits : ∀ v', (w.threads thread).WaitsOn v' ↔ call.ticket = v' := fun v' => by
    rw [hpc]
    exact Iff.rfl
  refine ⟨fun v' ticket' hv => ?_, fun v₁ v₂ t₁ t₂ h₁ h₂ => ?_, fun v' => ?_, fun v' => ?_,
    fun k call' outcome' pc' hk => ?_⟩
  · exact h.inUse v' ticket' ((hcell v').symm.trans hv)
  · exact h.apart v₁ v₂ t₁ t₂ ((hcell v₁).symm.trans h₁) ((hcell v₂).symm.trans h₂)
  · exact finite_update (h.finite v') thread _
  · show (Function.update w.tickets call.ticket _ v').users =
      tally _ (Function.update w.threads thread _)
    by_cases hv : v' = call.ticket
    · subst hv
      have hloss := tally_update_loss (b := Pc.idle) (h.finite call.ticket) ((hwaits _).mpr rfl)
        (fun hidle => hidle)
      rw [Function.update_self, h.users call.ticket, ← hloss]
      rfl
    · rw [Function.update_of_ne hv, h.users v']
      refine (tally_update_same (iff_of_false (fun hidle => hidle) fun hold => ?_)).symm
      exact hv ((hwaits v').mp hold).symm
  · have hk : Function.update w.threads thread _ k = .waiting call' outcome' pc' := hk
    by_cases hkt : k = thread
    · rw [hkt, Function.update_self] at hk
      cases hk
    · rw [Function.update_of_ne hkt] at hk
      obtain ⟨ticket', hticket', hrecord⟩ := h.record k call' outcome' pc' hk
      exact ⟨ticket', (hcell call'.ticket).trans hticket', hrecord⟩

/-- Tickets move between variables no call waits on. -/
theorem rewritten (h : w.TicketInv) (hthreads : w'.threads = w.threads)
    (husers : ∀ v, (w'.tickets v).users = (w.tickets v).users)
    (hwaited : ∀ v, (w.tickets v).users ≠ 0 → (w'.tickets v).ticket = (w.tickets v).ticket)
    (hinUse : ∀ v ticket, (w'.tickets v).ticket = some ticket →
      (w'.table.tickets ticket.record).inUse = true)
    (hapart : ∀ v v' ticket ticket', (w'.tickets v).ticket = some ticket →
      (w'.tickets v').ticket = some ticket' → ticket.record = ticket'.record → v = v') :
    w'.TicketInv := by
  refine ⟨hinUse, hapart, ?_, fun v => ?_, fun k call outcome pc hpc => ?_⟩
  · rw [hthreads]
    exact h.finite
  · rw [hthreads, husers, h.users v]
  · rw [hthreads] at hpc
    have hwaits : (w.threads k).WaitsOn call.ticket := by
      rw [hpc]
      exact rfl
    have hused := h.users_ne_zero hwaits
    rw [hwaited call.ticket hused]
    exact h.record k call outcome pc hpc

theorem prefetch (h : w.TicketInv) {rows : List UInt64} {v : TicketVar} {answers : Answers}
    (hstep : w.prefetch rows v answers = some w') : w'.TicketInv ∧ KeepsEntries w w' := by
  unfold World.prefetch at hstep
  split_ifs at hstep with hguard
  rw [not_or, not_not] at hguard
  obtain ⟨hunused, hempty⟩ := hguard
  split at hstep <;> cases hstep <;> rename_i hprefetch
  · exact h.same (Table.prefetch_records_error hprefetch) rfl (fun _ _ => Iff.rfl)
      fun k call outcome pc hpc => ⟨outcome, pc, hpc⟩
  · rename_i ticket t
    obtain ⟨hfree, htaken, hothers⟩ := Table.prefetch_records_ok hprefetch
    -- No variable holds a ticket on a record that was free.
    have hnew : ∀ v' ticket', (w.tickets v').ticket = some ticket' →
        ticket'.record ≠ ticket.record := by
      intro v' ticket' hv heq
      have hused := h.inUse v' ticket' hv
      rw [heq, hfree] at hused
      cases hused
    have hcases : ∀ v' ticket', (Function.update w.tickets v { ticket := some ticket } v').ticket =
        some ticket' → (v' = v ∧ ticket' = ticket) ∨
          (v' ≠ v ∧ (w.tickets v').ticket = some ticket') := by
      intro v' ticket' hv
      by_cases hvv : v' = v
      · rw [hvv, Function.update_self] at hv
        exact Or.inl ⟨hvv, (Option.some.inj hv).symm⟩
      · rw [Function.update_of_ne hvv] at hv
        exact Or.inr ⟨hvv, hv⟩
    refine ⟨h.rewritten rfl (fun v' => ?_) (fun v' hused => ?_) (fun v' ticket' hv => ?_)
      fun v₁ v₂ t₁ t₂ h₁ h₂ heq => ?_, fun k call outcome pc hpc => ?_⟩
    · show (Function.update w.tickets v _ v').users = _
      by_cases hvv : v' = v
      · rw [hvv, Function.update_self, hunused]
      · rw [Function.update_of_ne hvv]
    · show (Function.update w.tickets v _ v').ticket = _
      rw [Function.update_of_ne]
      rintro rfl
      exact hused hunused
    · show (t.tickets ticket'.record).inUse = true
      rcases hcases v' ticket' hv with ⟨-, rfl⟩ | ⟨-, hold⟩
      · exact htaken
      · rw [(hothers ticket'.record (hnew v' ticket' hold)).1]
        exact h.inUse v' ticket' hold
    · rcases hcases v₁ t₁ h₁ with ⟨rfl, rfl⟩ | ⟨-, hold₁⟩ <;>
        rcases hcases v₂ t₂ h₂ with ⟨rfl, rfl⟩ | ⟨-, hold₂⟩
      · rfl
      · exact absurd heq.symm (hnew v₂ t₂ hold₂)
      · exact absurd heq (hnew v₁ t₁ hold₁)
      · exact h.apart v₁ v₂ t₁ t₂ hold₁ hold₂ heq
    · obtain ⟨ticket', hticket', hrecord⟩ := h.record k call outcome pc hpc
      rw [← hrecord]
      exact (hothers ticket'.record (hnew _ ticket' hticket')).2

/-- A variable no call waits on gives its ticket up, or the process ends. -/
theorem resetTicket (h : w.TicketInv) {v : TicketVar} (hunused : (w.tickets v).users = 0) :
    (w.resetTicket v).TicketInv ∧ KeepsEntries w (w.resetTicket v) := by
  unfold World.resetTicket
  split
  · exact ⟨h, fun _ _ _ _ _ => rfl⟩
  · rename_i ticket hticket
    split
    · exact ⟨⟨h.inUse, h.apart, h.finite, h.users, h.record⟩, fun _ _ _ _ _ => rfl⟩
    · rename_i t hdiscard
      obtain ⟨hwaiters, htickets⟩ := Table.discardTicket_records hdiscard
      have hcases : ∀ v' ticket', (Function.update w.tickets v
          { w.tickets v with ticket := none } v').ticket = some ticket' →
          v' ≠ v ∧ (w.tickets v').ticket = some ticket' := by
        intro v' ticket' hv
        by_cases hvv : v' = v
        · rw [hvv, Function.update_self] at hv
          cases hv
        · rw [Function.update_of_ne hvv] at hv
          exact ⟨hvv, hv⟩
      refine ⟨h.rewritten rfl (fun v' => ?_) (fun v' hused => ?_) (fun v' ticket' hv => ?_)
        fun v₁ v₂ t₁ t₂ h₁ h₂ heq => ?_, fun k call outcome pc hpc => ?_⟩
      · show (Function.update w.tickets v _ v').users = _
        by_cases hvv : v' = v
        · rw [hvv, Function.update_self]
        · rw [Function.update_of_ne hvv]
      · show (Function.update w.tickets v _ v').ticket = _
        rw [Function.update_of_ne]
        rintro rfl
        exact hused hunused
      · obtain ⟨hvv, hold⟩ := hcases v' ticket' hv
        show (t.tickets ticket'.record).inUse = true
        rw [htickets ticket'.record fun heq => hvv (h.apart v' v ticket' ticket hold hticket heq)]
        exact h.inUse v' ticket' hold
      · exact h.apart v₁ v₂ t₁ t₂ (hcases v₁ t₁ h₁).2 (hcases v₂ t₂ h₂).2 heq
      · show t.waiters call.record = _
        rw [hwaiters]

/-- The rest of a `moveTicket`, once the target has given its ticket up. -/
theorem transfer (h : w.TicketInv) {source target : TicketVar} (hne : source ≠ target)
    (hsource : (w.tickets source).users = 0) (htarget : (w.tickets target).users = 0) :
    ((w.setTicket target { w.tickets target with ticket := (w.tickets source).ticket }).setTicket
      source { w.tickets source with ticket := none }).TicketInv := by
  set cells := Function.update (Function.update w.tickets target
    { w.tickets target with ticket := (w.tickets source).ticket }) source
    { w.tickets source with ticket := none } with hcells
  have hother : ∀ v, v ≠ source → v ≠ target → cells v = w.tickets v := fun v hs ht => by
    rw [hcells, Function.update_of_ne hs, Function.update_of_ne ht]
  have hcases : ∀ v ticket, (cells v).ticket = some ticket →
      ∃ v₀, (w.tickets v₀).ticket = some ticket ∧
        ((v = target ∧ v₀ = source) ∨ (v ≠ target ∧ v ≠ source ∧ v₀ = v)) := by
    intro v ticket hv
    by_cases hs : v = source
    · rw [hs, hcells, Function.update_self] at hv
      cases hv
    · by_cases ht : v = target
      · rw [ht, hcells, Function.update_of_ne (Ne.symm hne), Function.update_self] at hv
        exact ⟨source, hv, Or.inl ⟨ht, rfl⟩⟩
      · rw [hother v hs ht] at hv
        exact ⟨v, hv, Or.inr ⟨ht, hs, rfl⟩⟩
  refine h.rewritten rfl (fun v => ?_) (fun v hused => ?_) (fun v ticket hv => ?_)
    fun v₁ v₂ t₁ t₂ h₁ h₂ heq => ?_
  · show (cells v).users = _
    by_cases hs : v = source
    · rw [hs, hcells, Function.update_self]
    · by_cases ht : v = target
      · rw [ht, hcells, Function.update_of_ne (Ne.symm hne), Function.update_self]
      · rw [hother v hs ht]
  · have hs : v ≠ source := by
      rintro rfl
      exact hused hsource
    have ht : v ≠ target := by
      rintro rfl
      exact hused htarget
    exact congrArg TicketCell.ticket (hother v hs ht)
  · obtain ⟨v₀, hold, -⟩ := hcases v ticket hv
    exact h.inUse v₀ ticket hold
  · obtain ⟨v₁₀, hold₁, hfrom₁⟩ := hcases v₁ t₁ h₁
    obtain ⟨v₂₀, hold₂, hfrom₂⟩ := hcases v₂ t₂ h₂
    have hsame := h.apart v₁₀ v₂₀ t₁ t₂ hold₁ hold₂ heq
    rcases hfrom₁ with ⟨rfl, rfl⟩ | ⟨-, hs₁, rfl⟩ <;>
      rcases hfrom₂ with ⟨rfl, rfl⟩ | ⟨-, hs₂, rfl⟩
    · rfl
    · exact absurd hsame.symm hs₂
    · exact absurd hsame hs₁
    · exact hsame

theorem moveTicket (h : w.TicketInv) {source target : TicketVar}
    (hsource : (w.tickets source).users = 0) (htarget : (w.tickets target).users = 0) :
    (w.moveTicket source target).TicketInv ∧ KeepsEntries w (w.moveTicket source target) := by
  unfold World.moveTicket
  split_ifs with hne
  · exact ⟨h, fun _ _ _ _ _ => rfl⟩
  · obtain ⟨hreset, hentries⟩ := h.resetTicket htarget
    have husers : ∀ v, ((w.resetTicket target).tickets v).users = (w.tickets v).users := fun v => by
      rw [hreset.users, h.users, (w.resetTicket_entries target).1]
    exact ⟨hreset.transfer hne ((husers source).trans hsource) ((husers target).trans htarget),
      hentries⟩

theorem advance (h : w.TicketInv) (hspan : w.SpanInv)
    (hstep : w.advance thread choice = some w') :
    w'.TicketInv ∧ KeepsEntries w w' := by
  unfold World.advance at hstep
  split at hstep
  · rename_i call pc hpc
    obtain ⟨⟨call', pc', u⟩, hresolve, rfl⟩ := Option.map_eq_some_iff.mp hstep
    obtain ⟨hrecords, htickets⟩ := resolveStep_records hresolve
    have hstays := resolveStep_stays (hspan.within thread call pc hpc) hresolve
    refine h.plain hrecords htickets hstays.threads ?_ fun v hv => hv
    intro v hv
    rw [hpc] at hv
    exact hv
  · rename_i call outcome pc hpc
    obtain ⟨⟨outcome', pc', u⟩, hwait, rfl⟩ := Option.map_eq_some_iff.mp hstep
    obtain ⟨hrecords, htickets⟩ := waitStep_records hwait
    refine h.moved hrecords htickets (waitStep_move hwait).2.1 (fun v => ?_) ?_
    · rw [hpc]
      exact Iff.rfl
    · rintro call₁ outcome₁ wpc heq
      cases heq
      exact ⟨outcome, pc, hpc⟩
  · rename_i deadline pc hpc
    obtain ⟨pc', hdrain, rfl⟩ := Option.map_eq_some_iff.mp hstep
    refine h.plain (u := w) (.refl _) rfl rfl ?_ fun v hv => hv
    intro v hv
    rw [hpc] at hv
    exact hv
  · cases hstep

/-- Every step keeps tickets in order and leaves the entries of waiting calls alone. -/
theorem step (h : w.TicketInv) (hspan : w.SpanInv) (hstep : w.step action = some w') :
    w'.TicketInv ∧ KeepsEntries w w' := by
  have hsame : ∀ u : World cfg, Table.SameRecords w.table u.table → u.tickets = w.tickets →
      u.threads = w.threads → u.TicketInv ∧ KeepsEntries w u := fun u hrecords htickets hthreads =>
    h.same hrecords htickets (fun _ _ => by rw [hthreads]) fun k call outcome pc hpc =>
      ⟨outcome, pc, by rw [← hthreads]; exact hpc⟩
  unfold World.step at hstep
  split_ifs at hstep
  cases action with
  | resolveInto thread rows out outSize =>
      have hstep : w.callResolve thread rows out outSize = some w' := hstep
      unfold callResolve at hstep
      split at hstep
      · rename_i hidle
        have hbefore : ∀ v, ¬ (w.threads thread).WaitsOn v := fun v hv => by
          rw [hidle] at hv
          exact hv
        split_ifs at hstep <;> cases hstep
        · exact h.plain (u := w) (.refl _) rfl rfl hbefore fun v hv => hv
        · exact h.plain (u := w) (.refl _) rfl rfl hbefore fun v hv => hv
        · exact h.plain (u := w.setInUse _ _ _) (.refl _) rfl rfl hbefore fun v hv => hv
      · cases hstep
  | wait thread v deadline =>
      have hstep : w.callWait thread v deadline = some w' := hstep
      unfold callWait at hstep
      split at hstep
      · rename_i hidle
        have hbefore : ∀ v, ¬ (w.threads thread).WaitsOn v := fun v hv => by
          rw [hidle] at hv
          exact hv
        split at hstep <;> cases hstep
        · exact h.plain (u := w) (.refl _) rfl rfl hbefore fun v hv => hv
        · rename_i ticket hticket
          exact ⟨h.begins hidle hticket, fun _ _ _ _ _ => rfl⟩
      · cases hstep
  | drain thread deadline =>
      have hstep : w.callDrain thread deadline = some w' := hstep
      unfold callDrain at hstep
      split at hstep
      · rename_i hidle
        cases hstep
        refine h.plain (u := w) (.refl _) rfl rfl ?_ fun v hv => hv
        intro v hv
        rw [hidle] at hv
        exact hv
      · cases hstep
  | advance thread choice => exact h.advance hspan hstep
  | leave thread =>
      have hstep : w.leave thread = some w' := hstep
      unfold leave at hstep
      split at hstep
      · rename_i status hpc
        cases hstep
        refine h.plain (u := w) (.refl _) rfl rfl ?_ fun v hv => hv
        intro v hv
        rw [hpc] at hv
        exact hv
      · rename_i call result hpc
        cases hstep
        refine h.plain (u := w.setInUse _ _ _) (.refl _) rfl rfl ?_ fun v hv => hv
        intro v hv
        rw [hpc] at hv
        exact hv
      · rename_i call outcome hpc
        cases hstep
        exact ⟨h.leaves hpc, fun _ _ _ _ _ => rfl⟩
      · rename_i deadline result hpc
        cases hstep
        refine h.plain (u := w) (.refl _) rfl rfl ?_ fun v hv => hv
        intro v hv
        rw [hpc] at hv
        exact hv
      · cases hstep
  | work choice =>
      obtain ⟨⟨pc, t⟩, hwork, rfl⟩ := Option.map_eq_some_iff.mp hstep
      exact hsame _ (workerStep_records hwork) rfl rfl
  | tryGet row v =>
      have hrecords := w.table.findReady_records row
      have hstep : w.tryGet row v = some w' := hstep
      unfold tryGet at hstep
      split_ifs at hstep
      · cases hstep
        exact hsame _ (.refl _) rfl rfl
      · split at hstep <;> cases hstep <;> rename_i hfind <;> rw [hfind] at hrecords
        · exact hsame _ hrecords rfl rfl
        · exact hsame _ ⟨hrecords.tickets, hrecords.waiters⟩ rfl rfl
  | reset v =>
      have hstep : (if w.inUse v then none else some (w.resetLease v)) = some w' := hstep
      split_ifs at hstep
      cases hstep
      obtain ⟨hrecords, htickets⟩ := w.resetLease_records v
      exact hsame _ hrecords htickets (w.resetLease_entries v).1
  | move source target =>
      have hstep : (if w.inUse source ∨ w.inUse target then none
        else some (w.moveLease source target)) = some w' := hstep
      split_ifs at hstep
      cases hstep
      obtain ⟨hrecords, htickets⟩ := w.resetLease_records target
      unfold moveLease
      split_ifs
      · exact hsame _ (.refl _) rfl rfl
      · exact hsame _ hrecords htickets (w.resetLease_entries target).1
  | prefetch rows v answers => exact h.prefetch hstep
  | dropTicket v =>
      have hstep : (if (w.tickets v).users ≠ 0 then none else some (w.resetTicket v)) = some w' :=
        hstep
      split_ifs at hstep with hunused
      cases hstep
      exact h.resetTicket (not_not.mp hunused)
  | moveTicket source target =>
      have hstep : (if (w.tickets source).users ≠ 0 ∨ (w.tickets target).users ≠ 0 then none
        else some (w.moveTicket source target)) = some w' := hstep
      split_ifs at hstep with hunused
      cases hstep
      rw [not_or, not_not, not_not] at hunused
      exact h.moveTicket hunused.1 hunused.2
  | invalidate creation generation sources resolver =>
      cases hstep
      exact hsame _ (Table.invalidate_records ..) rfl rfl
  | deliver id status =>
      cases hstep
      exact hsame _ (Table.deliver_records ..) rfl rfl

end TicketInv

/-- Tickets are in order in every reachable state. -/
theorem ticketInv_of_reachable {h : cfg.Accepted}
    (hw : Reachable World.step (World.start cfg h) w) : w.TicketInv :=
  hw.invariant_of (fun _ => spanInv_of_reachable) (.start h)
    fun _ _ _ hspan hinv _ hstep => (hinv.step hspan hstep).1

end World

end TieredCache
