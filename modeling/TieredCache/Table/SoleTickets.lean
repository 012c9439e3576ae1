/-
# Tickets of one caller

A table whose only caller drops each ticket before it asks for the next batch has a record for
every batch, and nobody to wait for.
-/

import TieredCache.Table.TicketBound

namespace TieredCache

open Math.Runs Math.Tally

/-- Registration refuses a table without ticket records. -/
theorem TableConfig.Accepted.maxTickets_ne {cfg : TableConfig} (h : cfg.Accepted) :
    cfg.maxTickets ≠ 0 := by
  obtain ⟨hargs, -⟩ := TableConfig.passed_of_ite h nofun
  push Not at hargs
  exact hargs.2.2.2.2.2.1

namespace World

variable {cfg : TableConfig} {u u' : World cfg} {action : Action cfg} {k : TicketVar}

/-- No ticket is held. -/
def TicketFree (u : World cfg) : Prop :=
  (∀ v, (u.tickets v).ticket = none) ∧ ∀ r, (u.table.tickets r).inUse = false

/-- The variable holds the only ticket there is. -/
def HoldsTicket (u : World cfg) (k : TicketVar) : Prop :=
  ∃ ticket, (u.tickets k).ticket = some ticket ∧ (∀ v, v ≠ k → (u.tickets v).ticket = none) ∧
    (u.table.tickets ticket.record).generation = ticket.generation ∧
    (u.table.tickets ticket.record).held = true ∧
    ∀ r, r ≠ ticket.record → (u.table.tickets r).inUse = false

theorem TicketFree.start (h : cfg.Accepted) : (World.start cfg h).TicketFree :=
  ⟨fun _ => rfl, fun _ => rfl⟩

theorem TicketFree.step (h : u.TicketFree) (hstep : u.step action = some u')
    (haction : ¬ action.HandlesTickets) : u'.TicketFree := by
  obtain ⟨hrecords, htickets⟩ := step_records hstep haction
  refine ⟨fun v => (htickets v).trans (h.1 v), fun r => ?_⟩
  rw [hrecords.tickets]
  exact h.2 r

theorem HoldsTicket.step (h : u.HoldsTicket k) (hstep : u.step action = some u')
    (haction : ¬ action.HandlesTickets) : u'.HoldsTicket k := by
  obtain ⟨hrecords, htickets⟩ := step_records hstep haction
  obtain ⟨ticket, hk, hothers, hgeneration, hheld, hfree⟩ := h
  refine ⟨ticket, (htickets k).trans hk, fun v hv => (htickets v).trans (hothers v hv), ?_⟩
  rw [hrecords.tickets]
  exact ⟨hgeneration, hheld, hfree⟩

/-- A valid batch gets the record that is free. -/
theorem prefetch_of_free {rows : List UInt64} (hvalid : Table.ValidBatch cfg rows) {t : Table cfg}
    {record : cfg.RecordId} (hrecord : t.freeRecord = some record) (answers : Answers) :
    ∃ ticket t', t.prefetch answers rows = (.ok ticket, t') ∧ ticket.record = record ∧
      t'.tickets = Function.update t.tickets record ⟨ticket.generation, rows.length, true, true⟩ := by
  have htickets := (Table.prefetchRows_records answers record rows 0
    (t.openRecord record rows.length)).1
  unfold Table.prefetch
  rw [if_neg (not_not.mpr hvalid.1), if_neg (by rw [hvalid.2]; exact Bool.false_ne_true), hrecord]
  refine ⟨_, _, rfl, rfl, htickets.trans ?_⟩
  dsimp only
  rw [htickets]
  show _ = Function.update t.tickets record
    ⟨(Function.update t.tickets record _ record).generation, _, _, _⟩
  rw [Function.update_self]
  rfl

/-- A table whose tickets are free has one for a valid batch. -/
theorem TicketFree.prefetch (h : u.TicketFree) (haccepted : cfg.Accepted) {rows : List UInt64}
    (hvalid : Table.ValidBatch cfg rows) (answers : Answers) :
    ∃ ticket, (u.table.prefetch answers rows).1 = .ok ticket ∧ ∀ u',
      u.step (.prefetch rows k answers) = some u' → u'.HoldsTicket k := by
  have hmax : 0 < cfg.maxTickets.toNat :=
    Nat.pos_of_ne_zero fun hzero => haccepted.maxTickets_ne (UInt32.toNat_inj.mp hzero)
  cases hrecord : u.table.freeRecord with
  | none =>
      have hall := List.find?_eq_none.mp hrecord ⟨0, hmax⟩ (List.mem_finRange _)
      rw [h.2] at hall
      exact absurd rfl hall
  | some record =>
      obtain ⟨ticket, t', hprefetch, rfl, htickets⟩ := prefetch_of_free hvalid hrecord answers
      refine ⟨ticket, by rw [hprefetch], fun u' hstep => ?_⟩
      unfold World.step at hstep
      split_ifs at hstep
      have hstep : u.prefetch rows k answers = some u' := hstep
      unfold World.prefetch at hstep
      split_ifs at hstep
      rw [hprefetch] at hstep
      cases hstep
      refine ⟨ticket, ?_, fun v hv => ?_, ?_⟩
      · show (Function.update u.tickets k _ k).ticket = some ticket
        rw [Function.update_self]
      · show (Function.update u.tickets k _ v).ticket = none
        rw [Function.update_of_ne hv]
        exact h.1 v
      · show (t'.tickets ticket.record).generation = _ ∧ (t'.tickets ticket.record).held = _ ∧
          ∀ r, r ≠ ticket.record → (t'.tickets r).inUse = false
        rw [htickets, Function.update_self]
        refine ⟨rfl, rfl, fun r hr => ?_⟩
        rw [Function.update_of_ne hr]
        exact h.2 r

/-- The only ticket is dropped without `std::terminate`. -/
theorem HoldsTicket.drop (h : u.HoldsTicket k) (hstep : u.step (.dropTicket k) = some u') :
    u'.TicketFree ∧ u'.crashed = u.crashed := by
  obtain ⟨ticket, hk, hothers, hgeneration, hheld, hfree⟩ := h
  unfold World.step at hstep
  split_ifs at hstep
  have hstep : (if (u.tickets k).users ≠ 0 then none else some (u.resetTicket k)) = some u' :=
    hstep
  split_ifs at hstep
  cases hstep
  unfold resetTicket
  rw [hk]
  dsimp only
  unfold Table.discardTicket
  dsimp only
  rw [if_neg (by rw [hgeneration, hheld]; simp)]
  refine ⟨⟨fun v => ?_, fun r => ?_⟩, rfl⟩
  · show (Function.update u.tickets k _ v).ticket = none
    by_cases hv : v = k
    · rw [hv, Function.update_self]
    · rw [Function.update_of_ne hv]
      exact hothers v hv
  · show (Function.update u.table.tickets ticket.record _ r).inUse = false
    by_cases hr : r = ticket.record
    · rw [hr, Function.update_self]
    · rw [Function.update_of_ne hr]
      exact hfree r hr

/-- No thread is in `wait`. -/
def NoWaits (u : World cfg) : Prop := ∀ thread v, ¬ (u.threads thread).WaitsOn v

/-- A thread comes into `wait` only by calling it. -/
theorem NoWaits.step (h : u.NoWaits) (hspan : u.SpanInv) (hstep : u.step action = some u')
    (haction : ∀ thread v deadline, action ≠ .wait thread v deadline) : u'.NoWaits := by
  intro thread v
  by_cases hcaller : action.caller = some thread
  · have hset : ∀ (u₀ : World cfg) (pc : Pc cfg), ¬ pc.WaitsOn v →
        ¬ ((u₀.setThread thread pc).threads thread).WaitsOn v := fun u₀ pc hpc => by
      show ¬ (Function.update u₀.threads thread pc thread).WaitsOn v
      rwa [Function.update_self]
    unfold World.step at hstep
    split_ifs at hstep
    cases action with
    | resolveInto k rows out outSize =>
        cases hcaller
        have hstep : u.callResolve thread rows out outSize = some u' := hstep
        unfold callResolve at hstep
        split at hstep
        · split_ifs at hstep <;> cases hstep <;> exact hset _ _ id
        · cases hstep
    | wait k ticket deadline => exact absurd rfl (haction k ticket deadline)
    | drain k deadline =>
        cases hcaller
        have hstep : u.callDrain thread deadline = some u' := hstep
        unfold callDrain at hstep
        split at hstep <;> cases hstep
        exact hset _ _ id
    | advance k choice =>
        cases hcaller
        have hstep : u.advance thread choice = some u' := hstep
        unfold World.advance at hstep
        split at hstep
        · obtain ⟨⟨call', pc', u₀⟩, -, rfl⟩ := Option.map_eq_some_iff.mp hstep
          exact hset _ _ id
        · rename_i call outcome pc hpc
          have hwaits := h thread call.ticket
          rw [hpc] at hwaits
          exact absurd rfl hwaits
        · obtain ⟨pc', -, rfl⟩ := Option.map_eq_some_iff.mp hstep
          exact hset _ _ id
        · cases hstep
    | leave k =>
        cases hcaller
        have hstep : u.leave thread = some u' := hstep
        unfold World.leave at hstep
        split at hstep <;> cases hstep <;> exact hset _ _ id
    | _ => cases hcaller
  · rw [((hspan.step hstep).2 thread hcaller).pc]
    exact h thread v

/-- Where nobody waits, no ticket has users. -/
theorem NoWaits.users (h : u.NoWaits) (htickets : u.TicketInv) (v : TicketVar) :
    (u.tickets v).users = 0 := by
  rw [htickets.users v]
  exact tally_eq_zero fun thread => h thread v

/-- A batch can be asked for when nobody waits and the variable is empty. -/
theorem NoWaits.can_prefetch (h : u.NoWaits) (htickets : u.TicketInv) (hlives : ¬ u.crashed)
    (hempty : (u.tickets k).ticket = none) (rows : List UInt64) (answers : Answers) :
    (u.step (.prefetch rows k answers)).isSome := by
  unfold World.step
  rw [if_neg hlives]
  show (u.prefetch rows k answers).isSome
  unfold World.prefetch
  rw [if_neg (by rw [h.users htickets k, hempty]; simp)]
  split <;> rfl

theorem NoWaits.can_drop (h : u.NoWaits) (htickets : u.TicketInv) (hlives : ¬ u.crashed) :
    (u.step (.dropTicket k)).isSome := by
  unfold World.step
  rw [if_neg hlives]
  show (if (u.tickets k).users ≠ 0 then none else some (u.resetTicket k)).isSome
  rw [if_neg (not_not.mpr (h.users htickets k))]
  rfl

/-- Asking for a batch does not call `std::terminate`. -/
theorem prefetch_crashed {rows : List UInt64} {answers : Answers}
    (hstep : u.step (.prefetch rows k answers) = some u') : u'.crashed = u.crashed := by
  unfold World.step at hstep
  split_ifs at hstep
  have hstep : u.prefetch rows k answers = some u' := hstep
  unfold World.prefetch at hstep
  split_ifs at hstep
  split at hstep <;> cases hstep <;> rfl

end World

end TieredCache
