/-
# Held tickets and the end of the process

`tickets_held_` counts the tickets that are held, each of which names a record of its own.  With
room for its leases no run reaches one of the checks that call `std::terminate`.
-/

import TieredCache.Table.Histories
import TieredCache.Table.LeaseStability
import TieredCache.Table.TicketBound

namespace TieredCache

open Math.Runs Math.Tally

variable {cfg : TableConfig}

/-- The variable holds a ticket. -/
def TicketCell.Holds (cell : TicketCell cfg) : Prop := cell.ticket.isSome

/-! ## Who counts tickets -/

namespace Table

variable {t t' : Table cfg} {slot : cfg.SlotId}

theorem claimVictimLoop_ticketsHeld (steps : ℕ) (t : Table cfg) :
    (claimVictimLoop steps t).2.ticketsHeld = t.ticketsHeld := by
  induction steps generalizing t with
  | zero => rfl
  | succ steps ih =>
      unfold claimVictimLoop
      dsimp only
      split_ifs
      · rfl
      · exact ih _
      · rfl
      · exact ih _
      · rfl

theorem startFillLocked_ticketsHeld (t : Table cfg) (answers : Answers) (slot : cfg.SlotId)
    (row : UInt64) : (t.startFillLocked answers slot row).2.ticketsHeld = t.ticketsHeld := by
  obtain ⟨u, hu, hstart⟩ := t.startFillLocked_cases answers slot row
  have hsame : u.ticketsHeld = t.ticketsHeld := by
    cases hu
    rfl
  rcases hstart with ⟨length, head, hstart⟩ | ⟨status, -, hstart⟩ <;> rw [hstart] <;> exact hsame

theorem findOrFetch_ticketsHeld (t : Table cfg) (answers : Answers) (row : UInt64) :
    (t.findOrFetch answers row).2.ticketsHeld = t.ticketsHeld := by
  unfold findOrFetch
  split
  · dsimp only
    split <;> rfl
  · have hvictim := claimVictimLoop_ticketsHeld (2 * cfg.budgetRows).toNat t
    split <;> rename_i hclaim <;> unfold claimVictim at hclaim <;> rw [hclaim] at hvictim
    · exact hvictim
    · rename_i slot u
      have hstart := (u.startFillLocked_ticketsHeld answers slot row).trans hvictim
      split <;> rename_i hfill <;> rw [hfill] at hstart <;> exact hstart

theorem prefetchRows_ticketsHeld (answers : Answers) (record : cfg.RecordId) (rows : List UInt64)
    (i : ℕ) (t : Table cfg) :
    (prefetchRows answers record i rows t).ticketsHeld = t.ticketsHeld := by
  induction rows generalizing i t with
  | nil => rfl
  | cons row rows ih =>
      refine (ih (i + 1) _).trans ?_
      unfold prefetchRow
      split
      · have hvictim := claimVictimLoop_ticketsHeld (2 * cfg.budgetRows).toNat t
        split <;> rename_i hclaim <;> unfold claimVictim at hclaim <;> rw [hclaim] at hvictim
        · exact hvictim
        · rename_i slot u
          exact (u.startFillLocked_ticketsHeld answers slot row).trans hvictim
      · split <;> rfl

theorem finishStep_ticketsHeld {pc : FinishPc} {next : Option FinishPc} {deadline : Bool}
    {choice : Choice} (h : t.finishStep slot deadline choice pc = some (next, t')) :
    t'.ticketsHeld = t.ticketsHeld := by
  unfold finishStep at h
  split at h
  · split_ifs at h <;> cases h <;> rfl
  · cases h
    rfl
  · split at h
    · cases h
      rfl
    · cases h
      rfl
    · split_ifs at h
      cases h
      rfl
  all_goals
    cases h
    rfl

/-- A batch that is accepted takes a free record, under the generation of its ticket. -/
theorem prefetch_ok {answers : Answers} {rows : List UInt64} {ticket : Ticket cfg}
    (h : t.prefetch answers rows = (.ok ticket, t')) :
    (t.tickets ticket.record).inUse = false ∧
      t'.tickets = Function.update t.tickets ticket.record
        ⟨ticket.generation, rows.length, true, true⟩ ∧
      t'.ticketsHeld = t.ticketsHeld + 1 := by
  have hfree := (prefetch_records_ok h).1
  unfold prefetch at h
  split_ifs at h
  · cases h
  · cases h
  · split at h
    · cases h
    · rename_i record hrecord
      have htickets := (prefetchRows_records answers record rows 0
        (t.openRecord record rows.length)).1
      have hheld := prefetchRows_ticketsHeld answers record rows 0
        (t.openRecord record rows.length)
      cases h
      refine ⟨hfree, htickets.trans ?_, hheld⟩
      rw [htickets]
      show _ = Function.update t.tickets record
        ⟨(Function.update t.tickets record _ record).generation, _, _, _⟩
      rw [Function.update_self]
      rfl

theorem prefetch_error_ticketsHeld {answers : Answers} {rows : List UInt64} {status : Status}
    (h : t.prefetch answers rows = (.error status, t')) : t'.ticketsHeld = t.ticketsHeld := by
  unfold prefetch at h
  split_ifs at h
  · cases h
    rfl
  · cases h
    rfl
  · split at h <;> cases h
    rfl

end Table

namespace World

variable {w w' u : World cfg} {thread : ThreadId} {choice : Choice} {action : Action cfg}

theorem resetLease_ticketsHeld (w : World cfg) (v : LeaseVar) :
    (w.resetLease v).table.ticketsHeld = w.table.ticketsHeld := by
  unfold resetLease
  split
  · rfl
  · split
    · rfl
    · rename_i hrelease
      obtain ⟨rfl, -⟩ := Table.releaseLease_eq_some hrelease
      rfl

theorem admitRows_ticketsHeld (answers : Answers) (out : LeaseVar) (rows : List UInt64) (i : ℕ)
    (w : World cfg) :
    (admitRows answers out i rows w).2.2.table.ticketsHeld = w.table.ticketsHeld := by
  induction rows generalizing i w with
  | nil => rfl
  | cons row rows ih =>
      have hsame := w.table.findOrFetch_ticketsHeld answers row
      unfold admitRows
      split <;> rename_i hfind <;> rw [hfind] at hsame
      · rename_i slot t
        exact (ih (i + 1) (({ w with table := t }).grant (out + i) slot row ⟨0, 0⟩)).trans hsame
      · exact hsame

theorem resolveStep_ticketsHeld {call call' : ResolveCall} {pc pc' : ResolvePc cfg}
    (h : w.resolveStep call choice pc = some (call', pc', u)) :
    u.table.ticketsHeld = w.table.ticketsHeld := by
  have hsettle : ∀ i lease, (call, w.settleRow call i lease) = (call', pc', u) →
      u.table.ticketsHeld = w.table.ticketsHeld := by
    intro i lease heq
    have htable := (w.settleRow_records call i lease).1
    rw [(Prod.mk.inj heq).2] at htable
    rw [htable]
  unfold resolveStep at h
  cases pc with
  | releasing i =>
      dsimp only at h
      split_ifs at h <;> cases h
      · exact w.resetLease_ticketsHeld _
      · rfl
      · rfl
  | phaseA =>
      dsimp only at h
      split_ifs at h <;> cases h <;> exact admitRows_ticketsHeld ..
  | unwind i count failure =>
      dsimp only at h
      split_ifs at h <;> cases h
      · exact w.resetLease_ticketsHeld _
      · rfl
  | drive i =>
      dsimp only at h
      split_ifs at h
      · split at h
        · cases h
        · split_ifs at h
          · cases h
            rfl
          · cases h
            rfl
          · cases h
            rfl
          · exact hsettle i _ (Option.some.inj h)
      · cases h
        rfl
  | finishing i slot fpc =>
      dsimp only at h
      split at h
      · cases h
      · rename_i hfinish
        cases h
        exact Table.finishStep_ticketsHeld hfinish
      · rename_i hfinish
        cases h
        exact Table.finishStep_ticketsHeld hfinish
  | settle i =>
      dsimp only at h
      split at h
      · cases h
      · exact hsettle i _ (Option.some.inj h)
  | asleep i since =>
      dsimp only at h
      split_ifs at h
      split at h
      · cases h
      · split_ifs at h
        · exact hsettle i _ (Option.some.inj h)
        · cases h
          rfl
  | returned result => cases h

theorem waitStep_ticketsHeld {wait : WaitCall cfg} {outcome outcome' : WaitOutcome}
    {pc pc' : WaitPc cfg} (h : w.waitStep wait outcome choice pc = some (outcome', pc', u)) :
    u.table.ticketsHeld = w.table.ticketsHeld := by
  unfold waitStep at h
  cases pc with
  | entry i =>
      dsimp only at h
      split_ifs at h
      · split at h
        · cases h
          rfl
        · split_ifs at h <;> cases h <;> rfl
      · cases h
        rfl
  | finishing i slot fpc =>
      dsimp only at h
      split at h
      · cases h
      · rename_i hfinish
        cases h
        exact Table.finishStep_ticketsHeld hfinish
      · rename_i hfinish
        cases h
        exact Table.finishStep_ticketsHeld hfinish
  | settle i =>
      dsimp only at h
      split at h <;> cases h
      rfl
  | asleep i since =>
      dsimp only at h
      split at h
      · split at h
        · cases h
        · split_ifs at h <;> cases h <;> rfl
      · cases h
  | returned => cases h

theorem workerStep_ticketsHeld {t t' : Table cfg} {pc pc' : WorkerPc cfg}
    (h : workerStep t choice pc = some (pc', t')) : t'.ticketsHeld = t.ticketsHeld := by
  unfold workerStep at h
  cases pc with
  | scan =>
      dsimp only at h
      split at h <;> cases h <;> rfl
  | finishing slot fpc =>
      dsimp only at h
      split at h
      · cases h
      · rename_i hfinish
        cases h
        exact Table.finishStep_ticketsHeld hfinish
      · rename_i hfinish
        cases h
        exact Table.finishStep_ticketsHeld hfinish
  | asleep since =>
      dsimp only at h
      split_ifs at h
      cases h
      rfl

/-- Steps that handle no tickets leave the count of held tickets alone. -/
theorem step_ticketsHeld (hstep : w.step action = some w') (h : ¬ action.HandlesTickets) :
    w'.table.ticketsHeld = w.table.ticketsHeld := by
  unfold step at hstep
  split_ifs at hstep
  cases action with
  | resolveInto thread rows out outSize =>
      have hstep : w.callResolve thread rows out outSize = some w' := hstep
      unfold callResolve at hstep
      split at hstep
      · split_ifs at hstep <;> cases hstep <;> rfl
      · cases hstep
  | wait thread v deadline =>
      have hstep : w.callWait thread v deadline = some w' := hstep
      unfold callWait at hstep
      split at hstep
      · split at hstep <;> cases hstep <;> rfl
      · cases hstep
  | drain thread deadline =>
      have hstep : w.callDrain thread deadline = some w' := hstep
      unfold callDrain at hstep
      split at hstep <;> cases hstep
      rfl
  | advance thread choice =>
      have hstep : w.advance thread choice = some w' := hstep
      unfold World.advance at hstep
      split at hstep
      · obtain ⟨⟨call', pc', u⟩, hresolve, rfl⟩ := Option.map_eq_some_iff.mp hstep
        have hsame := resolveStep_ticketsHeld hresolve
        exact hsame
      · obtain ⟨⟨outcome', pc', u⟩, hwait, rfl⟩ := Option.map_eq_some_iff.mp hstep
        have hsame := waitStep_ticketsHeld hwait
        exact hsame
      · obtain ⟨pc', hdrain, rfl⟩ := Option.map_eq_some_iff.mp hstep
        rfl
      · cases hstep
  | leave thread =>
      have hstep : w.leave thread = some w' := hstep
      unfold leave at hstep
      split at hstep <;> cases hstep <;> rfl
  | work choice =>
      obtain ⟨⟨pc, t⟩, hwork, rfl⟩ := Option.map_eq_some_iff.mp hstep
      exact workerStep_ticketsHeld hwork
  | tryGet row v =>
      have hfound : (w.table.findReady row).2.ticketsHeld = w.table.ticketsHeld := by
        unfold Table.findReady
        split
        · rfl
        · split_ifs <;> rfl
      have hstep : w.tryGet row v = some w' := hstep
      unfold tryGet at hstep
      split_ifs at hstep
      · cases hstep
        rfl
      · split at hstep <;> cases hstep <;> rename_i hfind <;> rw [hfind] at hfound <;> exact hfound
  | reset v =>
      have hstep : (if w.inUse v then none else some (w.resetLease v)) = some w' := hstep
      split_ifs at hstep
      cases hstep
      exact w.resetLease_ticketsHeld v
  | move source target =>
      have hstep : (if w.inUse source ∨ w.inUse target then none
        else some (w.moveLease source target)) = some w' := hstep
      split_ifs at hstep
      cases hstep
      unfold moveLease
      split_ifs
      · rfl
      · exact w.resetLease_ticketsHeld target
  | invalidate creation generation sources resolver =>
      cases hstep
      show (w.table.invalidate creation generation sources resolver).2.ticketsHeld = _
      unfold Table.invalidate
      split_ifs <;> rfl
  | deliver id status =>
      cases hstep
      show (w.table.deliver id status).ticketsHeld = _
      unfold Table.deliver
      split_ifs <;> rfl
  | _ => exact absurd trivial h

/-! ## Held tickets -/

/-- Held tickets name records that are held under their generation, no other record is in use, and
they are counted. -/
structure HeldInv (w : World cfg) : Prop where
  names : ∀ v ticket, (w.tickets v).ticket = some ticket →
    (w.table.tickets ticket.record).generation = ticket.generation ∧
      (w.table.tickets ticket.record).held = true
  owned : ∀ record, (w.table.tickets record).inUse = true →
    ∃ v ticket, (w.tickets v).ticket = some ticket ∧ ticket.record = record
  finite : {v | (w.tickets v).Holds}.Finite
  count : w.table.ticketsHeld.toNat = tally TicketCell.Holds w.tickets

namespace HeldInv

theorem start (h : cfg.Accepted) : (World.start cfg h).HeldInv where
  names := fun v ticket hv => by cases hv
  owned := fun record hused => by cases hused
  finite := Set.toFinite _ |>.subset (Set.subset_empty_iff.mpr
    (Set.eq_empty_of_forall_notMem fun _ hv => by cases hv))
  count := (tally_eq_zero fun _ hv => by cases hv).symm

/-- Records, held tickets and their count are as they were. -/
theorem congr (h : w.HeldInv) (htickets : ∀ v, (w'.tickets v).ticket = (w.tickets v).ticket)
    (hrecords : w'.table.tickets = w.table.tickets)
    (hcount : w'.table.ticketsHeld = w.table.ticketsHeld) : w'.HeldInv := by
  have hholds : ∀ v, (w'.tickets v).Holds ↔ (w.tickets v).Holds := fun v => by
    unfold TicketCell.Holds
    rw [htickets]
  refine ⟨fun v ticket hv => ?_, fun record hused => ?_, ?_, ?_⟩
  · rw [htickets] at hv
    rw [hrecords]
    exact h.names v ticket hv
  · rw [hrecords] at hused
    obtain ⟨v, ticket, hv, hrecord⟩ := h.owned record hused
    exact ⟨v, ticket, (htickets v).trans hv, hrecord⟩
  · exact h.finite.subset fun v hv => (hholds v).mp hv
  · rw [hcount, h.count, tally_congr hholds]

/-- The records in use are those of the held tickets. -/
theorem records (h : w.HeldInv) (htickets : w.TicketInv) :
    tally TicketCell.Holds w.tickets = {record | (w.table.tickets record).inUse = true}.ncard := by
  have hticket : ∀ v (hv : (w.tickets v).Holds),
      (w.tickets v).ticket = some ((w.tickets v).ticket.get hv) := fun v hv => (Option.some_get hv).symm
  refine Set.ncard_congr (fun v hv => ((w.tickets v).ticket.get hv).record) ?_ ?_ ?_
  · intro v hv
    exact htickets.inUse v _ (hticket v hv)
  · intro v v' hv hv' heq
    exact htickets.apart v v' _ _ (hticket v hv) (hticket v' hv') heq
  · intro record hused
    obtain ⟨v, ticket, hv, hrecord⟩ := h.owned record hused
    have hholds : (w.tickets v).Holds := by
      unfold TicketCell.Holds
      rw [hv]
      rfl
    refine ⟨v, hholds, ?_⟩
    rw [← hrecord]
    exact congrArg Ticket.record (Option.get_of_eq_some hholds hv)

/-- There are fewer tickets than records while a record is free. -/
theorem lt_records (h : w.HeldInv) (htickets : w.TicketInv) {record : cfg.RecordId}
    (hfree : (w.table.tickets record).inUse = false) :
    tally TicketCell.Holds w.tickets < cfg.maxTickets.toNat := by
  rw [h.records htickets]
  have hssub : {r | (w.table.tickets r).inUse = true} ⊂ Set.univ := by
    refine ⟨Set.subset_univ _, fun hall => ?_⟩
    have hused : (w.table.tickets record).inUse = true := hall (Set.mem_univ record)
    rw [hfree] at hused
    cases hused
  have hcard := Set.ncard_lt_ncard hssub Set.finite_univ
  rwa [Set.ncard_univ, Nat.card_eq_fintype_card, Fintype.card_fin] at hcard

/-- A ticket is handed out. -/
theorem prefetch (h : w.HeldInv) (htickets : w.TicketInv) {rows : List UInt64} {v : TicketVar}
    {answers : Answers} (hstep : w.prefetch rows v answers = some w') :
    w'.HeldInv ∧ w'.crashed = w.crashed := by
  unfold World.prefetch at hstep
  split_ifs at hstep with hguard
  rw [not_or, not_not] at hguard
  split at hstep
  · rename_i status t hprefetch
    cases hstep
    exact ⟨h.congr (fun _ => rfl) (Table.prefetch_records_error hprefetch).tickets
      (Table.prefetch_error_ticketsHeld hprefetch), rfl⟩
  · rename_i ticket t hprefetch
    obtain ⟨hfree, hrecords, hheld⟩ := Table.prefetch_ok hprefetch
    have hlt := h.lt_records htickets hfree
    have hempty : ¬ (w.tickets v).Holds := hguard.2
    have hholds : TicketCell.Holds (⟨some ticket, 0⟩ : TicketCell cfg) := rfl
    cases hstep
    refine ⟨⟨fun v' ticket' hv' => ?_, fun record hused => ?_, finite_update h.finite v _, ?_⟩, rfl⟩
    · have hv' : (Function.update w.tickets v _ v').ticket = some ticket' := hv'
      show (t.tickets ticket'.record).generation = _ ∧ (t.tickets ticket'.record).held = true
      rw [hrecords]
      by_cases hvv : v' = v
      · rw [hvv, Function.update_self] at hv'
        cases hv'
        rw [Function.update_self]
        exact ⟨rfl, rfl⟩
      · rw [Function.update_of_ne hvv] at hv'
        have hne : ticket'.record ≠ ticket.record := fun heq => by
          have hused := htickets.inUse v' ticket' hv'
          rw [heq, hfree] at hused
          cases hused
        rw [Function.update_of_ne hne]
        exact h.names v' ticket' hv'
    · by_cases hr : record = ticket.record
      · refine ⟨v, ticket, ?_, hr.symm⟩
        show (Function.update w.tickets v _ v).ticket = _
        rw [Function.update_self]
      · have hused : (t.tickets record).inUse = true := hused
        rw [hrecords, Function.update_of_ne hr] at hused
        obtain ⟨v', ticket', hv', hrecord⟩ := h.owned record hused
        have hne : v' ≠ v := by
          rintro rfl
          refine hempty ?_
          unfold TicketCell.Holds
          rw [hv']
          rfl
        refine ⟨v', ticket', ?_, hrecord⟩
        show (Function.update w.tickets v _ v').ticket = _
        rw [Function.update_of_ne hne]
        exact hv'
    · show t.ticketsHeld.toNat = tally TicketCell.Holds (Function.update w.tickets v _)
      have hbound := cfg.maxTickets.toNat_lt
      rw [hheld, tally_update_gain h.finite hempty hholds, UInt32.toNat_add, UInt32.toNat_one,
        h.count, Nat.mod_eq_of_lt (by omega)]

/-- A ticket is dropped, without `std::terminate`. -/
theorem resetTicket (h : w.HeldInv) (htickets : w.TicketInv) (v : TicketVar) :
    (w.resetTicket v).HeldInv ∧ (w.resetTicket v).crashed = w.crashed ∧
      ((w.resetTicket v).tickets v).ticket = none := by
  unfold World.resetTicket
  cases hv : (w.tickets v).ticket with
  | none => exact ⟨h, rfl, hv⟩
  | some ticket =>
      obtain ⟨hgeneration, hheld⟩ := h.names v ticket hv
      dsimp only
      unfold Table.discardTicket
      dsimp only
      rw [if_neg (by rw [hgeneration, hheld]; simp)]
      have hholds : (w.tickets v).Holds := by
        unfold TicketCell.Holds
        rw [hv]
        rfl
      refine ⟨⟨fun v' ticket' hv' => ?_, fun record hused => ?_, finite_update h.finite v _, ?_⟩, rfl,
        ?_⟩
      · have hv' : (Function.update w.tickets v _ v').ticket = some ticket' := hv'
        by_cases hvv : v' = v
        · rw [hvv, Function.update_self] at hv'
          cases hv'
        · rw [Function.update_of_ne hvv] at hv'
          have hne : ticket'.record ≠ ticket.record := fun heq =>
            hvv (htickets.apart v' v ticket' ticket hv' hv heq)
          show (Function.update w.table.tickets ticket.record _ ticket'.record).generation = _ ∧
            (Function.update w.table.tickets ticket.record _ ticket'.record).held = true
          rw [Function.update_of_ne hne]
          exact h.names v' ticket' hv'
      · have hused : (Function.update w.table.tickets ticket.record _ record).inUse = true := hused
        have hr : record ≠ ticket.record := by
          rintro rfl
          rw [Function.update_self] at hused
          cases hused
        rw [Function.update_of_ne hr] at hused
        obtain ⟨v', ticket', hv', hrecord⟩ := h.owned record hused
        have hne : v' ≠ v := by
          rintro rfl
          rw [hv] at hv'
          cases hv'
          exact hr hrecord.symm
        refine ⟨v', ticket', ?_, hrecord⟩
        show (Function.update w.tickets v _ v').ticket = _
        rw [Function.update_of_ne hne]
        exact hv'
      · show (w.table.ticketsHeld - 1).toNat = tally TicketCell.Holds (Function.update w.tickets v _)
        have hempty : ¬ TicketCell.Holds ({ w.tickets v with ticket := none } : TicketCell cfg) :=
          Bool.false_ne_true
        have hloss := tally_update_loss h.finite hholds hempty
        have hcount := h.count
        have hone : (1 : UInt32) ≤ w.table.ticketsHeld := by
          rw [UInt32.le_iff_toNat_le, UInt32.toNat_one]
          omega
        rw [UInt32.toNat_sub_of_le _ _ hone, UInt32.toNat_one, hcount, ← hloss]
        rfl
      · show (Function.update w.tickets v _ v).ticket = none
        rw [Function.update_self]

/-- A ticket moves; the one it replaces is dropped. -/
theorem moveTicket (h : w.HeldInv) (htickets : w.TicketInv) (source target : TicketVar) :
    (w.moveTicket source target).HeldInv ∧ (w.moveTicket source target).crashed = w.crashed := by
  unfold World.moveTicket
  split_ifs with hne
  · exact ⟨h, rfl⟩
  · obtain ⟨hreset, hcrashed, hempty⟩ := h.resetTicket htickets target
    refine ⟨?_, hcrashed⟩
    generalize w.resetTicket target = u at hreset hempty
    let moved : TicketCell cfg := { u.tickets target with ticket := (u.tickets source).ticket }
    let left : TicketCell cfg := { u.tickets source with ticket := none }
    have hleft : ¬ left.Holds := Bool.false_ne_true
    have htarget : ¬ (u.tickets target).Holds := by
      unfold TicketCell.Holds
      rw [hempty]
      exact Bool.false_ne_true
    have hcells : ∀ v ticket, (Function.update (Function.update u.tickets target moved) source left
        v).ticket = some ticket → ∃ v', (u.tickets v').ticket = some ticket := by
      intro v ticket hv
      by_cases hvs : v = source
      · rw [hvs, Function.update_self] at hv
        cases hv
      · rw [Function.update_of_ne hvs] at hv
        by_cases hvt : v = target
        · rw [hvt, Function.update_self] at hv
          exact ⟨source, hv⟩
        · rw [Function.update_of_ne hvt] at hv
          exact ⟨v, hv⟩
    have hsource : Function.update u.tickets target moved source = u.tickets source :=
      Function.update_of_ne hne ..
    have hfinite := finite_update hreset.finite target moved
    refine ⟨fun v ticket hv => ?_, fun record hused => ?_, finite_update hfinite source left, ?_⟩
    · obtain ⟨v', hv'⟩ := hcells v ticket hv
      exact hreset.names v' ticket hv'
    · obtain ⟨v, ticket, hv, hrecord⟩ := hreset.owned record hused
      have hvt : v ≠ target := by
        rintro rfl
        rw [hempty] at hv
        cases hv
      by_cases hvs : v = source
      · refine ⟨target, ticket, ?_, hrecord⟩
        show (Function.update (Function.update u.tickets target moved) source left target).ticket = _
        rw [Function.update_of_ne (Ne.symm hne), Function.update_self]
        rw [hvs] at hv
        exact hv
      · refine ⟨v, ticket, ?_, hrecord⟩
        show (Function.update (Function.update u.tickets target moved) source left v).ticket = _
        rw [Function.update_of_ne hvs, Function.update_of_ne hvt]
        exact hv
    · show u.table.ticketsHeld.toNat =
        tally TicketCell.Holds (Function.update (Function.update u.tickets target moved) source left)
      rw [hreset.count]
      by_cases hholds : (u.tickets source).Holds
      · have hgain := tally_update_gain hreset.finite htarget (show moved.Holds from hholds)
        have hloss := tally_update_loss hfinite (by rwa [hsource]) hleft
        omega
      · have hsame : ∀ v, (u.tickets v).Holds ↔ (Function.update
            (Function.update u.tickets target moved) source left v).Holds := by
          intro v
          by_cases hvs : v = source
          · rw [hvs, Function.update_self]
            exact iff_of_false hholds hleft
          · rw [Function.update_of_ne hvs]
            by_cases hvt : v = target
            · rw [hvt, Function.update_self]
              exact iff_of_false htarget hholds
            · rw [Function.update_of_ne hvt]
        exact tally_congr hsame

end HeldInv

/-! ## No check fails -/

theorem resetLease_crashed (h : w.PinInv) (v : LeaseVar) : (w.resetLease v).crashed = w.crashed := by
  cases hv : w.leases v with
  | none => rw [PinInv.resetLease_none hv]
  | some l => rw [h.resetLease_some hv]

theorem admitRows_crashed (answers : Answers) (out : LeaseVar) (rows : List UInt64) (i : ℕ)
    (w : World cfg) : (admitRows answers out i rows w).2.2.crashed = w.crashed := by
  induction rows generalizing i w with
  | nil => rfl
  | cons row rows ih =>
      unfold admitRows
      split
      · exact ih (i + 1) _
      · rfl

theorem resolveStep_crashed (h : w.PinInv) {call call' : ResolveCall} {pc pc' : ResolvePc cfg}
    (hstep : w.resolveStep call choice pc = some (call', pc', u)) : u.crashed = w.crashed := by
  have hsettle : ∀ i lease, (call, w.settleRow call i lease) = (call', pc', u) →
      u.crashed = w.crashed := by
    intro i lease heq
    have heq := (Prod.mk.inj heq).2
    unfold settleRow at heq
    dsimp only at heq
    split_ifs at heq <;> cases heq <;> rfl
  unfold resolveStep at hstep
  cases pc with
  | releasing i =>
      dsimp only at hstep
      split_ifs at hstep <;> cases hstep
      · exact resetLease_crashed h _
      · rfl
      · rfl
  | phaseA =>
      dsimp only at hstep
      split_ifs at hstep <;> cases hstep <;> exact admitRows_crashed ..
  | unwind i count failure =>
      dsimp only at hstep
      split_ifs at hstep <;> cases hstep
      · exact resetLease_crashed h _
      · rfl
  | drive i =>
      dsimp only at hstep
      split_ifs at hstep
      · split at hstep
        · cases hstep
        · split_ifs at hstep
          · cases hstep
            rfl
          · cases hstep
            rfl
          · cases hstep
            rfl
          · exact hsettle i _ (Option.some.inj hstep)
      · cases hstep
        rfl
  | finishing i slot fpc =>
      dsimp only at hstep
      split at hstep <;> cases hstep <;> rfl
  | settle i =>
      dsimp only at hstep
      split at hstep
      · cases hstep
      · exact hsettle i _ (Option.some.inj hstep)
  | asleep i since =>
      dsimp only at hstep
      split_ifs at hstep
      split at hstep
      · cases hstep
      · split_ifs at hstep
        · exact hsettle i _ (Option.some.inj hstep)
        · cases hstep
          rfl
  | returned result => cases hstep

theorem waitStep_crashed {wait : WaitCall cfg} {outcome outcome' : WaitOutcome} {pc pc' : WaitPc cfg}
    (h : w.waitStep wait outcome choice pc = some (outcome', pc', u)) : u.crashed = w.crashed := by
  unfold waitStep at h
  cases pc with
  | entry i =>
      dsimp only at h
      split_ifs at h
      · split at h
        · cases h
          rfl
        · split_ifs at h <;> cases h <;> rfl
      · cases h
        rfl
  | finishing i slot fpc =>
      dsimp only at h
      split at h <;> cases h <;> rfl
  | settle i =>
      dsimp only at h
      split at h <;> cases h
      rfl
  | asleep i since =>
      dsimp only at h
      split at h
      · split at h
        · cases h
        · split_ifs at h <;> cases h <;> rfl
      · cases h
  | returned => cases h

/-- No step finds a lease on a reused slot, or a ticket on a record that is not its own. -/
theorem step_crashed (hpins : w.PinInv) (hheld : w.HeldInv) (htickets : w.TicketInv)
    (hstep : w.step action = some w') : w'.crashed = w.crashed := by
  unfold step at hstep
  split_ifs at hstep
  cases action with
  | resolveInto thread rows out outSize =>
      have hstep : w.callResolve thread rows out outSize = some w' := hstep
      unfold callResolve at hstep
      split at hstep
      · split_ifs at hstep <;> cases hstep <;> rfl
      · cases hstep
  | wait thread v deadline =>
      have hstep : w.callWait thread v deadline = some w' := hstep
      unfold callWait at hstep
      split at hstep
      · split at hstep <;> cases hstep <;> rfl
      · cases hstep
  | drain thread deadline =>
      have hstep : w.callDrain thread deadline = some w' := hstep
      unfold callDrain at hstep
      split at hstep <;> cases hstep
      rfl
  | advance thread choice =>
      have hstep : w.advance thread choice = some w' := hstep
      unfold World.advance at hstep
      split at hstep
      · obtain ⟨⟨call', pc', u⟩, hresolve, rfl⟩ := Option.map_eq_some_iff.mp hstep
        have hsame := resolveStep_crashed hpins hresolve
        exact hsame
      · obtain ⟨⟨outcome', pc', u⟩, hwait, rfl⟩ := Option.map_eq_some_iff.mp hstep
        have hsame := waitStep_crashed hwait
        exact hsame
      · obtain ⟨pc', hdrain, rfl⟩ := Option.map_eq_some_iff.mp hstep
        rfl
      · cases hstep
  | leave thread =>
      have hstep : w.leave thread = some w' := hstep
      unfold leave at hstep
      split at hstep <;> cases hstep <;> rfl
  | work choice =>
      obtain ⟨⟨pc, t⟩, -, rfl⟩ := Option.map_eq_some_iff.mp hstep
      rfl
  | tryGet row v =>
      have hstep : w.tryGet row v = some w' := hstep
      unfold tryGet at hstep
      split_ifs at hstep
      · cases hstep
        rfl
      · split at hstep <;> cases hstep <;> rfl
  | reset v =>
      have hstep : (if w.inUse v then none else some (w.resetLease v)) = some w' := hstep
      split_ifs at hstep
      cases hstep
      exact resetLease_crashed hpins v
  | move source target =>
      have hstep : (if w.inUse source ∨ w.inUse target then none
        else some (w.moveLease source target)) = some w' := hstep
      split_ifs at hstep
      cases hstep
      unfold moveLease
      split_ifs
      · rfl
      · exact resetLease_crashed hpins target
  | prefetch rows v answers =>
      have hstep : w.prefetch rows v answers = some w' := hstep
      exact (hheld.prefetch htickets hstep).2
  | dropTicket v =>
      have hstep : (if (w.tickets v).users ≠ 0 then none else some (w.resetTicket v)) = some w' :=
        hstep
      split_ifs at hstep
      cases hstep
      exact (hheld.resetTicket htickets v).2.1
  | moveTicket source target =>
      have hstep : (if (w.tickets source).users ≠ 0 ∨ (w.tickets target).users ≠ 0 then none
        else some (w.moveTicket source target)) = some w' := hstep
      split_ifs at hstep
      cases hstep
      exact (hheld.moveTicket htickets source target).2
  | invalidate creation generation sources resolver =>
      cases hstep
      rfl
  | deliver id status =>
      cases hstep
      rfl

/-- Every step keeps tickets and their count. -/
theorem HeldInv.step (h : w.HeldInv) (htickets : w.TicketInv) (hstep : w.step action = some w') :
    w'.HeldInv := by
  by_cases hhandles : action.HandlesTickets
  · unfold World.step at hstep
    split_ifs at hstep
    cases action with
    | prefetch rows v answers =>
        have hstep : w.prefetch rows v answers = some w' := hstep
        exact (h.prefetch htickets hstep).1
    | dropTicket v =>
        have hstep : (if (w.tickets v).users ≠ 0 then none else some (w.resetTicket v)) = some w' :=
          hstep
        split_ifs at hstep
        cases hstep
        exact (h.resetTicket htickets v).1
    | moveTicket source target =>
        have hstep : (if (w.tickets source).users ≠ 0 ∨ (w.tickets target).users ≠ 0 then none
          else some (w.moveTicket source target)) = some w' := hstep
        split_ifs at hstep
        cases hstep
        exact (h.moveTicket htickets source target).1
    | _ => exact hhandles.elim
  · obtain ⟨hrecords, hsame⟩ := step_records hstep hhandles
    exact h.congr hsame hrecords.tickets (step_ticketsHeld hstep hhandles)

/-- Tickets are counted in every reachable state. -/
theorem heldInv_of_reachable {h : cfg.Accepted}
    (hw : Reachable World.step (World.start cfg h) w) : w.HeldInv :=
  hw.invariant_of (fun _ => ticketInv_of_reachable) (.start h)
    fun _ _ _ htickets hinv _ hstep => hinv.step htickets hstep

/-- With room for its leases no run calls `std::terminate`. -/
theorem lives_of_room {h : cfg.Accepted}
    (hw : Reaches World.step LeaseRoom (World.start cfg h) w) : w.crashed = false := by
  induction hw with
  | start => rfl
  | step hs _ hstep ih =>
      rw [step_crashed (callsInv_of_room hs).pins (heldInv_of_reachable hs.reachable)
        (ticketInv_of_reachable hs.reachable) hstep]
      exact ih

/-- Tickets are what the table takes them to be. -/
structure TicketsAccounted (w : World cfg) : Prop where
  /-- Neither a lease's nor a ticket's release has called `std::terminate`. -/
  lives : w.crashed = false
  /-- `tickets_held_` is the number of tickets held. -/
  count : w.table.ticketsHeld.toNat = {v | (w.tickets v).ticket.isSome}.ncard
  bounded : {v | (w.tickets v).ticket.isSome}.ncard ≤ cfg.maxTickets.toNat
  /-- Every ticket held can be dropped. -/
  drops : ∀ v ticket, (w.tickets v).ticket = some ticket → (w.table.discardTicket ticket).isSome
  /-- A batch is refused for want of a ticket exactly when all are held. -/
  exhausted : ∀ rows answers, Table.ValidBatch cfg rows →
    ((w.table.prefetch answers rows).1 = .error .ticketExhausted ↔
      {v | (w.tickets v).ticket.isSome}.ncard = cfg.maxTickets.toNat)

/-- No record is free exactly when every ticket is held. -/
theorem HeldInv.freeRecord_iff (h : w.HeldInv) (htickets : w.TicketInv) :
    w.table.freeRecord = none ↔ tally TicketCell.Holds w.tickets = cfg.maxTickets.toNat := by
  rw [h.records htickets]
  constructor
  · intro hnone
    have hall : {record | (w.table.tickets record).inUse = true} = Set.univ := by
      ext record
      have hused := List.find?_eq_none.mp hnone record (List.mem_finRange record)
      simpa using hused
    rw [hall, Set.ncard_univ, Nat.card_eq_fintype_card, Fintype.card_fin]
  · intro hfull
    unfold Table.freeRecord
    refine List.find?_eq_none.mpr fun record _ hfree => ?_
    rw [Bool.not_eq_true'] at hfree
    have hlt := h.lt_records htickets hfree
    rw [h.records htickets] at hlt
    exact hlt.ne hfull

/-- In every run with room for its leases, tickets are accounted for. -/
theorem tickets_accounted {h : cfg.Accepted}
    (hw : Reaches World.step LeaseRoom (World.start cfg h) w) : w.TicketsAccounted := by
  have hheld := heldInv_of_reachable hw.reachable
  have htickets := ticketInv_of_reachable hw.reachable
  refine ⟨lives_of_room hw, hheld.count, ?_, fun v ticket hv => ?_, fun rows answers hvalid => ?_⟩
  · have hle := tally_le_card (fun record : TicketRecord => record.inUse = true) w.table.tickets
    rw [Fintype.card_fin] at hle
    have hrecords : tally TicketCell.Holds w.tickets ≤ cfg.maxTickets.toNat := by
      rw [hheld.records htickets]
      exact hle
    exact hrecords
  · obtain ⟨hgeneration, hholds⟩ := hheld.names v ticket hv
    unfold Table.discardTicket
    dsimp only
    rw [hgeneration, hholds, if_neg (by simp)]
    rfl
  · have hfree := hheld.freeRecord_iff htickets
    rcases Table.prefetch_valid hvalid w.table answers with ⟨hnone, hrefused⟩ | ⟨record, ticket, t,
      hrecord, haccepted, -⟩
    · rw [hrefused]
      exact iff_of_true rfl (hfree.mp hnone)
    · rw [haccepted]
      refine iff_of_false (fun heq => by cases heq) fun hfull => ?_
      rw [hfree.mpr hfull] at hrecord
      cases hrecord

end World

/-- Both tickets of the small table are taken, one moves, and a third batch is refused. -/
def twoTicketsRun : List (Action twoShards) :=
  [.prefetch [0] 0 fun _ => {}, .prefetch [1] 1 fun _ => {}, .moveTicket 0 2,
    .prefetch [1, 0] 3 fun _ => {}]

/-- A run that holds every ticket there is. -/
theorem tickets_accounted_two :
    ∃ w, exec World.step twoTicketsRun (World.start twoShards twoShards_accepted) = some w ∧
      w.table.ticketsHeld = 2 ∧ w.TicketsAccounted := by
  have hrun : (exec World.step twoTicketsRun (World.start twoShards twoShards_accepted)).any
      fun w => w.table.ticketsHeld = 2 := by
    decide +kernel
  have hallowed : AllAllowed World.step World.LeaseRoom twoTicketsRun
      (World.start twoShards twoShards_accepted) := by
    decide +kernel
  obtain ⟨w, hw, hheld⟩ := (Option.any_eq_true _ _).mp hrun
  exact ⟨w, hw, of_decide_eq_true hheld,
    World.tickets_accounted (reaches_of_exec .start hallowed hw)⟩

end TieredCache
