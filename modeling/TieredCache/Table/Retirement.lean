/-
# The retiring binding

Nothing but `invalidate` reads which binding is retiring.  Every other operation does the
same, and answers the same, when that binding has been discarded.
-/

import TieredCache.Table.Books
import TieredCache.Table.Bindings

namespace TieredCache

open Math.Runs

variable {cfg : TableConfig}

/-! ## The table -/

namespace Table

variable {t : Table cfg}

@[simp]
theorem claimVictimLoop_dropRetiring (steps : ℕ) (t : Table cfg) :
    claimVictimLoop steps t.dropRetiring = (claimVictimLoop steps t).map id dropRetiring := by
  induction steps generalizing t with
  | zero => rfl
  | succ steps ih =>
      unfold claimVictimLoop
      simp only [show t.dropRetiring.slots = t.slots from rfl,
        show t.dropRetiring.clockHand = t.clockHand from rfl]
      split_ifs
      · rfl
      · exact ih { t with clockHand := nextHand t.clockHand }
      · rfl
      · exact ih (({ t with clockHand := nextHand t.clockHand }).modify t.clockHand fun s =>
          { s with referenced := false })
      · rfl

@[simp]
theorem claimVictim_dropRetiring (t : Table cfg) :
    t.dropRetiring.claimVictim = t.claimVictim.map id dropRetiring :=
  claimVictimLoop_dropRetiring _ t

@[simp]
theorem deliver_dropRetiring (t : Table cfg) (id : RequestId) (status : MemStatus) :
    t.dropRetiring.deliver id status = (t.deliver id status).dropRetiring := by
  simp only [deliver, show t.dropRetiring.requestCount = t.requestCount from rfl,
    show t.dropRetiring.requests = t.requests from rfl]
  split_ifs <;> rfl

@[simp]
theorem deliverAll_dropRetiring (deliveries : List (RequestId × MemStatus)) (t : Table cfg) :
    t.dropRetiring.deliverAll deliveries = (t.deliverAll deliveries).dropRetiring := by
  induction deliveries generalizing t with
  | nil => rfl
  | cons delivery rest ih =>
      unfold deliverAll at ih ⊢
      rw [List.foldl_cons, List.foldl_cons, deliver_dropRetiring, ih]

@[simp]
theorem submit_dropRetiring (t : Table cfg) (answers : Answers) (r : Request) :
    t.dropRetiring.submit answers r = (t.submit answers r).map id dropRetiring := by
  unfold submit
  simp only [show t.dropRetiring.submits = t.submits from rfl, deliverAll_dropRetiring]
  generalize t.deliverAll (answers t.submits).deliveries = u
  simp only [show u.dropRetiring.Busy r ↔ u.Busy r from Iff.rfl]
  split_ifs <;> rfl

@[simp]
theorem submitChunks_dropRetiring (answers : Answers) (slot : cfg.SlotId) (shard : ℕ)
    (reads : List Read) (t : Table cfg) :
    submitChunks answers slot shard reads t.dropRetiring =
      (submitChunks answers slot shard reads t).map id dropRetiring := by
  induction reads generalizing t with
  | nil => rfl
  | cons read rest ih =>
      unfold submitChunks
      rw [submit_dropRetiring, show t.dropRetiring.currentBinding = t.currentBinding from rfl]
      rcases t.submit answers ⟨t.currentBinding, shard, .output, read, none⟩ with ⟨status, u⟩
      cases status with
      | ok => exact ih (u.modify slot fun s => { s with chunkClaims := s.chunkClaims ++ [t.requestCount] })
      | _ => rfl

@[simp]
theorem submitFill_dropRetiring (t : Table cfg) (answers : Answers) (slot : cfg.SlotId)
    (location : RowLocation) (shard : ShardSource) :
    t.dropRetiring.submitFill answers slot location shard =
      (t.submitFill answers slot location shard).map id dropRetiring := by
  unfold submitFill
  dsimp only
  split_ifs
  · rw [submitChunks_dropRetiring]
    rfl
  · rw [submit_dropRetiring, show t.dropRetiring.currentBinding = t.currentBinding from rfl]
    rcases t.submit answers _ with ⟨status, u⟩
    cases status <;> rfl
  · rw [show t.dropRetiring.acquireScratch = t.acquireScratch from rfl]
    cases t.acquireScratch with
    | none => rfl
    | some scratch =>
        dsimp only
        rw [show t.dropRetiring.setScratch scratch true = (t.setScratch scratch true).dropRetiring from rfl,
          submit_dropRetiring, show t.dropRetiring.currentBinding = t.currentBinding from rfl]
        rcases (t.setScratch scratch true).submit answers _ with ⟨status, u⟩
        cases status <;> rfl

@[simp]
theorem startFillLocked_dropRetiring (t : Table cfg) (answers : Answers) (slot : cfg.SlotId)
    (row : UInt64) :
    t.dropRetiring.startFillLocked answers slot row =
      (t.startFillLocked answers slot row).map id dropRetiring := by
  unfold startFillLocked
  simp only [show t.dropRetiring.bindings = t.bindings from rfl,
    show t.dropRetiring.currentBinding = t.currentBinding from rfl,
    show t.dropRetiring.beginAdmission slot row = (t.beginAdmission slot row).dropRetiring from rfl,
    submitFill_dropRetiring]
  split
  · rfl
  · rename_i location shard hlocate
    rcases (t.beginAdmission slot row).submitFill answers slot location shard with ⟨status, u⟩
    cases status <;> rfl

@[simp]
theorem findOrFetch_dropRetiring (t : Table cfg) (answers : Answers) (row : UInt64) :
    t.dropRetiring.findOrFetch answers row = (t.findOrFetch answers row).map id dropRetiring := by
  unfold findOrFetch
  rw [show t.dropRetiring.indexFind (row, t.dropRetiring.currentGeneration) =
    t.indexFind (row, t.currentGeneration) from rfl, claimVictim_dropRetiring]
  cases t.indexFind (row, t.currentGeneration) with
  | some slot =>
      rw [show t.dropRetiring.slots = t.slots from rfl]
      dsimp only
      cases (t.slots slot).state <;> rfl
  | none =>
      rcases t.claimVictim with ⟨_ | slot, u⟩
      · rfl
      · simp only [Prod.map, id, startFillLocked_dropRetiring]
        rcases u.startFillLocked answers slot row with ⟨status, v⟩
        cases status <;> rfl

@[simp]
theorem findReady_dropRetiring (t : Table cfg) (row : UInt64) :
    t.dropRetiring.findReady row = (t.findReady row).map id dropRetiring := by
  unfold findReady
  rw [show t.dropRetiring.indexFind (row, t.dropRetiring.currentGeneration) =
    t.indexFind (row, t.currentGeneration) from rfl, show t.dropRetiring.slots = t.slots from rfl]
  cases t.indexFind (row, t.currentGeneration) with
  | none => rfl
  | some slot =>
      dsimp only
      split_ifs <;> rfl

@[simp]
theorem prefetchRow_dropRetiring (t : Table cfg) (answers : Answers) (record : cfg.RecordId) (i : ℕ)
    (row : UInt64) :
    t.dropRetiring.prefetchRow answers record i row =
      (t.prefetchRow answers record i row).dropRetiring := by
  unfold prefetchRow
  rw [show t.dropRetiring.indexFind (row, t.dropRetiring.currentGeneration) =
    t.indexFind (row, t.currentGeneration) from rfl, claimVictim_dropRetiring]
  cases t.indexFind (row, t.currentGeneration) with
  | some slot =>
      rw [show t.dropRetiring.slots = t.slots from rfl]
      dsimp only
      cases (t.slots slot).state <;> rfl
  | none =>
      rcases t.claimVictim with ⟨_ | slot, u⟩
      · rfl
      · simp only [Prod.map, id, startFillLocked_dropRetiring]
        rfl

@[simp]
theorem prefetchRows_dropRetiring (answers : Answers) (record : cfg.RecordId) (rows : List UInt64)
    (i : ℕ) (t : Table cfg) :
    prefetchRows answers record i rows t.dropRetiring =
      (prefetchRows answers record i rows t).dropRetiring := by
  induction rows generalizing i t with
  | nil => rfl
  | cons row rows ih =>
      unfold prefetchRows
      rw [prefetchRow_dropRetiring, ih]

@[simp]
theorem prefetch_dropRetiring (t : Table cfg) (answers : Answers) (rows : List UInt64) :
    t.dropRetiring.prefetch answers rows = (t.prefetch answers rows).map id dropRetiring := by
  unfold prefetch
  split_ifs
  · rfl
  · rfl
  · rw [show t.dropRetiring.freeRecord = t.freeRecord from rfl]
    cases t.freeRecord with
    | none => rfl
    | some record =>
        dsimp only
        rw [show t.dropRetiring.openRecord record rows.length =
          (t.openRecord record rows.length).dropRetiring from rfl, prefetchRows_dropRetiring]
        rfl

@[simp]
theorem discardTicket_dropRetiring (t : Table cfg) (ticket : Ticket cfg) :
    t.dropRetiring.discardTicket ticket = (t.discardTicket ticket).map dropRetiring := by
  simp only [discardTicket, show t.dropRetiring.tickets = t.tickets from rfl]
  split_ifs <;> rfl

@[simp]
theorem releaseLease_dropRetiring (t : Table cfg) (slot : cfg.SlotId) (epoch : UInt32) :
    t.dropRetiring.releaseLease slot epoch = (t.releaseLease slot epoch).map dropRetiring := by
  simp only [releaseLease, show t.dropRetiring.slots = t.slots from rfl]
  split_ifs <;> rfl

@[simp]
theorem finishStep_dropRetiring (t : Table cfg) (slot : cfg.SlotId) (deadline : Bool)
    (choice : Choice) (pc : FinishPc) :
    t.dropRetiring.finishStep slot deadline choice pc =
      (t.finishStep slot deadline choice pc).map (Prod.map id dropRetiring) := by
  cases pc with
  | enter =>
      simp only [finishStep, show t.dropRetiring.slots = t.slots from rfl]
      split_ifs <;> rfl
  | waiting pending =>
      cases pending with
      | nil => rfl
      | cons id rest =>
          simp only [finishStep, show t.dropRetiring.requests = t.requests from rfl]
          rcases (t.requests id).outcome with _ | status
          · dsimp only
            split_ifs <;> rfl
          · cases status <;> rfl
  | timedOut => rfl
  | convert => rfl
  | publish result => rfl

end Table

/-! ## The machine -/

namespace World

/-- Discard the retiring binding. -/
def dropRetiring (w : World cfg) : World cfg := { w with table := w.table.dropRetiring }

@[simp]
theorem dropRetiring_table (w : World cfg) : w.dropRetiring.table = w.table.dropRetiring := rfl

@[simp]
theorem dropRetiring_leases (w : World cfg) : w.dropRetiring.leases = w.leases := rfl

@[simp]
theorem dropRetiring_tickets (w : World cfg) : w.dropRetiring.tickets = w.tickets := rfl

@[simp]
theorem dropRetiring_threads (w : World cfg) : w.dropRetiring.threads = w.threads := rfl

@[simp]
theorem resetLease_dropRetiring (w : World cfg) (v : LeaseVar) :
    w.dropRetiring.resetLease v = (w.resetLease v).dropRetiring := by
  unfold resetLease
  rw [dropRetiring_leases]
  cases w.leases v with
  | none => rfl
  | some lease =>
      simp only [dropRetiring_table, Table.releaseLease_dropRetiring]
      cases w.table.releaseLease lease.slot lease.epoch <;> rfl

@[simp]
theorem moveLease_dropRetiring (w : World cfg) (source target : LeaseVar) :
    w.dropRetiring.moveLease source target = (w.moveLease source target).dropRetiring := by
  unfold moveLease
  split_ifs
  · rfl
  · rw [resetLease_dropRetiring]
    rfl

@[simp]
theorem resetTicket_dropRetiring (w : World cfg) (v : TicketVar) :
    w.dropRetiring.resetTicket v = (w.resetTicket v).dropRetiring := by
  unfold resetTicket
  rw [dropRetiring_tickets]
  cases (w.tickets v).ticket with
  | none => rfl
  | some ticket =>
      simp only [dropRetiring_table, Table.discardTicket_dropRetiring]
      cases w.table.discardTicket ticket <;> rfl

@[simp]
theorem moveTicket_dropRetiring (w : World cfg) (source target : TicketVar) :
    w.dropRetiring.moveTicket source target = (w.moveTicket source target).dropRetiring := by
  unfold moveTicket
  split_ifs
  · rfl
  · rw [resetTicket_dropRetiring]
    rfl

@[simp]
theorem admitRows_dropRetiring (answers : Answers) (out : LeaseVar) (rows : List UInt64) (i : ℕ)
    (w : World cfg) :
    admitRows answers out i rows w.dropRetiring =
      (admitRows answers out i rows w).map id (Prod.map id dropRetiring) := by
  induction rows generalizing i w with
  | nil => rfl
  | cons row rows ih =>
      unfold admitRows
      rw [dropRetiring_table, Table.findOrFetch_dropRetiring]
      rcases w.table.findOrFetch answers row with ⟨_ | slot, t⟩
      · rfl
      · exact ih (i + 1) (({ w with table := t }).grant (out + i) slot row ⟨0, 0⟩)

@[simp]
theorem settleRow_dropRetiring (w : World cfg) (call : ResolveCall) (i : ℕ) (lease : Lease cfg) :
    w.dropRetiring.settleRow call i lease = (w.settleRow call i lease).map id dropRetiring := by
  simp only [settleRow, show w.dropRetiring.table.slots = w.table.slots from rfl]
  split_ifs <;> rfl

@[simp]
theorem resolveStep_dropRetiring (w : World cfg) (call : ResolveCall) (choice : Choice)
    (pc : ResolvePc cfg) :
    w.dropRetiring.resolveStep call choice pc =
      (w.resolveStep call choice pc).map (Prod.map id (Prod.map id dropRetiring)) := by
  cases pc with
  | releasing i =>
      simp only [resolveStep, resetLease_dropRetiring]
      split_ifs <;> rfl
  | phaseA =>
      simp only [resolveStep, admitRows_dropRetiring]
      rcases admitRows choice.answers call.out 0 call.rows w with ⟨pinned, failure, u⟩
      simp only [Prod.map, id]
      split_ifs <;> rfl
  | unwind i count failure =>
      simp only [resolveStep, resetLease_dropRetiring]
      split_ifs <;> rfl
  | drive i =>
      simp only [resolveStep, dropRetiring_leases, show w.dropRetiring.table.slots = w.table.slots from rfl,
        settleRow_dropRetiring]
      split_ifs
      · cases w.leases (call.out + i) with
        | none => rfl
        | some lease =>
            dsimp only
            split_ifs <;> rfl
      · rfl
  | finishing i slot pc =>
      simp only [resolveStep, dropRetiring_table, Table.finishStep_dropRetiring]
      rcases w.table.finishStep slot false choice pc with _ | ⟨_ | next, t⟩ <;> rfl
  | settle i =>
      simp only [resolveStep, dropRetiring_leases, settleRow_dropRetiring]
      cases w.leases (call.out + i) <;> rfl
  | asleep i since =>
      simp only [resolveStep, dropRetiring_leases, show w.dropRetiring.table.slots = w.table.slots from rfl,
        show w.dropRetiring.table.notifications = w.table.notifications from rfl, settleRow_dropRetiring]
      split_ifs
      · cases w.leases (call.out + i) with
        | none => rfl
        | some lease =>
            dsimp only
            split_ifs <;> rfl
      · rfl
  | returned result => rfl

@[simp]
theorem settleEntry_dropRetiring (w : World cfg) (outcome : WaitOutcome) (i : ℕ) (slot : cfg.SlotId)
    (epoch : UInt32) :
    w.dropRetiring.settleEntry outcome i slot epoch =
      (w.settleEntry outcome i slot epoch).map id (Prod.map id dropRetiring) := rfl

@[simp]
theorem waitStep_dropRetiring (w : World cfg) (call : WaitCall cfg) (outcome : WaitOutcome)
    (choice : Choice) (pc : WaitPc cfg) :
    w.dropRetiring.waitStep call outcome choice pc =
      (w.waitStep call outcome choice pc).map (Prod.map id (Prod.map id dropRetiring)) := by
  cases pc with
  | entry i =>
      simp only [waitStep, show w.dropRetiring.table.waiters = w.table.waiters from rfl,
        show w.dropRetiring.table.slots = w.table.slots from rfl, settleEntry_dropRetiring]
      split_ifs
      · rcases (w.table.waiters call.record i).slot with _ | slot
        · rfl
        · dsimp only
          split_ifs <;> rfl
      · rfl
  | finishing i slot pc =>
      simp only [waitStep, dropRetiring_table, Table.finishStep_dropRetiring]
      rcases w.table.finishStep slot call.deadline choice pc with _ | ⟨_ | next, t⟩ <;> rfl
  | settle i =>
      simp only [waitStep, show w.dropRetiring.table.waiters = w.table.waiters from rfl,
        settleEntry_dropRetiring]
      cases (w.table.waiters call.record i).slot <;> rfl
  | asleep i since =>
      simp only [waitStep, show w.dropRetiring.table.waiters = w.table.waiters from rfl,
        show w.dropRetiring.table.slots = w.table.slots from rfl,
        show w.dropRetiring.table.notifications = w.table.notifications from rfl,
        settleEntry_dropRetiring]
      rcases (w.table.waiters call.record i).slot with _ | slot
      · split_ifs <;> rfl
      · dsimp only
        split_ifs <;> rfl
  | returned => rfl

@[simp]
theorem workerStep_dropRetiring (t : Table cfg) (choice : Choice) (pc : WorkerPc cfg) :
    workerStep t.dropRetiring choice pc =
      (workerStep t choice pc).map (Prod.map id Table.dropRetiring) := by
  cases pc with
  | scan =>
      simp only [workerStep, show t.dropRetiring.findUnclaimedFilling = t.findUnclaimedFilling from rfl]
      cases t.findUnclaimedFilling <;> rfl
  | finishing slot pc =>
      simp only [workerStep, Table.finishStep_dropRetiring]
      rcases t.finishStep slot false choice pc with _ | ⟨_ | next, u⟩ <;> rfl
  | asleep since =>
      simp only [workerStep, show t.dropRetiring.notifications = t.notifications from rfl]
      split_ifs <;> rfl

@[simp]
theorem drainStep_dropRetiring (t : Table cfg) (deadline : Bool) (choice : Choice) (pc : DrainPc) :
    drainStep t.dropRetiring deadline choice pc = drainStep t deadline choice pc := by
  cases pc <;> rfl

/-! ## Every step but `invalidate` -/

@[simp]
theorem callResolve_dropRetiring (w : World cfg) (thread : ThreadId) (rows : List UInt64)
    (out : LeaseVar) (outSize : ℕ) :
    w.dropRetiring.callResolve thread rows out outSize =
      (w.callResolve thread rows out outSize).map dropRetiring := by
  simp only [callResolve, dropRetiring_threads, show w.dropRetiring.inUse = w.inUse from rfl]
  cases w.threads thread with
  | idle =>
      dsimp only
      split_ifs <;> rfl
  | _ => rfl

@[simp]
theorem callWait_dropRetiring (w : World cfg) (thread : ThreadId) (v : TicketVar) (deadline : Bool) :
    w.dropRetiring.callWait thread v deadline = (w.callWait thread v deadline).map dropRetiring := by
  simp only [callWait, dropRetiring_threads, dropRetiring_tickets]
  cases w.threads thread with
  | idle => cases (w.tickets v).ticket <;> rfl
  | _ => rfl

@[simp]
theorem callDrain_dropRetiring (w : World cfg) (thread : ThreadId) (deadline : Bool) :
    w.dropRetiring.callDrain thread deadline = (w.callDrain thread deadline).map dropRetiring := by
  simp only [callDrain, dropRetiring_threads]
  cases w.threads thread <;> rfl

@[simp]
theorem advance_dropRetiring (w : World cfg) (thread : ThreadId) (choice : Choice) :
    w.dropRetiring.advance thread choice = (w.advance thread choice).map dropRetiring := by
  simp only [advance, dropRetiring_threads]
  cases w.threads thread with
  | resolving call pc =>
      simp only [resolveStep_dropRetiring, Option.map_map]
      rfl
  | waiting call outcome pc =>
      simp only [waitStep_dropRetiring, Option.map_map]
      rfl
  | draining deadline pc =>
      simp only [dropRetiring_table, drainStep_dropRetiring, Option.map_map]
      rfl
  | _ => rfl

@[simp]
theorem leave_dropRetiring (w : World cfg) (thread : ThreadId) :
    w.dropRetiring.leave thread = (w.leave thread).map dropRetiring := by
  simp only [leave, dropRetiring_threads]
  cases w.threads thread with
  | resolving call pc => cases pc <;> rfl
  | waiting call outcome pc => cases pc <;> rfl
  | draining deadline pc => cases pc <;> rfl
  | _ => rfl

@[simp]
theorem tryGet_dropRetiring (w : World cfg) (row : UInt64) (v : LeaseVar) :
    w.dropRetiring.tryGet row v = (w.tryGet row v).map dropRetiring := by
  simp only [tryGet, show w.dropRetiring.inUse = w.inUse from rfl, dropRetiring_leases,
    dropRetiring_table, Table.findReady_dropRetiring]
  split_ifs
  · rfl
  · rfl
  · rcases w.table.findReady row with ⟨_ | slot, t⟩ <;> rfl

@[simp]
theorem prefetch_dropRetiring (w : World cfg) (rows : List UInt64) (v : TicketVar)
    (answers : Answers) :
    w.dropRetiring.prefetch rows v answers = (w.prefetch rows v answers).map dropRetiring := by
  simp only [prefetch, dropRetiring_tickets, dropRetiring_table, Table.prefetch_dropRetiring]
  split_ifs
  · rfl
  · rcases w.table.prefetch answers rows with ⟨_ | ticket, t⟩ <;> rfl

/-- Every step but an `invalidate` goes the same way without the retiring binding. -/
theorem step_dropRetiring (w : World cfg) {action : Action cfg} (h : ¬ action.Rebinds) :
    w.dropRetiring.step action = (w.step action).map dropRetiring := by
  simp only [step, show w.dropRetiring.crashed = w.crashed from rfl]
  split_ifs
  · rfl
  · cases action with
    | invalidate creation generation sources resolver => exact absurd trivial h
    | work choice =>
        simp only [act, dropRetiring_table, workerStep_dropRetiring, Option.map_map]
        rfl
    | reset lease =>
        simp only [act, show w.dropRetiring.inUse = w.inUse from rfl, resetLease_dropRetiring]
        split_ifs <;> rfl
    | move source target =>
        simp only [act, show w.dropRetiring.inUse = w.inUse from rfl, moveLease_dropRetiring]
        split_ifs <;> rfl
    | dropTicket ticket =>
        simp only [act, dropRetiring_tickets, resetTicket_dropRetiring]
        split_ifs <;> rfl
    | moveTicket source target =>
        simp only [act, dropRetiring_tickets, moveTicket_dropRetiring]
        split_ifs <;> rfl
    | deliver id status =>
        simp only [act, dropRetiring_table, Table.deliver_dropRetiring]
        rfl
    | _ => simp only [act, callResolve_dropRetiring, callWait_dropRetiring, callDrain_dropRetiring,
        advance_dropRetiring, leave_dropRetiring, tryGet_dropRetiring, prefetch_dropRetiring]

end World

end TieredCache
