/-
# No orphaned fill, no lost wakeup

A thread that sleeps on `progress_` without a pending notification sleeps for a reason
that still holds: every change that could end it notifies.  So a filling slot is always
driven by an agent, or by a worker that has yet to look at it.
-/

import TieredCache.Table.Quiescence
import TieredCache.Table.Records

namespace TieredCache

open Math.Runs

variable {cfg : TableConfig}

namespace Table

variable {t t' t'' : Table cfg} {slot : cfg.SlotId}

/-- A step that notifies nobody ends no fill, begins none that nobody has taken over, and
gives none up. -/
structure Still (t t' : Table cfg) : Prop where
  le : t.notifications ≤ t'.notifications
  filling : t'.notifications = t.notifications → ∀ s, (t.slots s).state = .filling →
    (t'.slots s).state = .filling ∧ (t'.slots s).epoch = (t.slots s).epoch
  unclaimed : t'.notifications = t.notifications → ∀ s, (t'.slots s).state = .filling →
    (t'.slots s).finishing = false → (t.slots s).state = .filling ∧ (t.slots s).finishing = false
  inFlight : t'.notifications = t.notifications → t'.inFlight = t.inFlight

namespace Still

theorem refl (t : Table cfg) : Still t t :=
  ⟨le_rfl, fun _ _ hs => ⟨hs, rfl⟩, fun _ _ hs hfinishing => ⟨hs, hfinishing⟩, fun _ => rfl⟩

theorem trans (h : Still t t') (h' : Still t' t'') : Still t t'' := by
  have hsplit : t''.notifications = t.notifications →
      t''.notifications = t'.notifications ∧ t'.notifications = t.notifications := by
    intro heq
    have hle := h.le
    have hle' := h'.le
    omega
  refine ⟨h.le.trans h'.le, fun heq s hs => ?_, fun heq s hs hfinishing => ?_, fun heq => ?_⟩
  all_goals obtain ⟨heq', heq⟩ := hsplit heq
  · obtain ⟨hmid, hepoch⟩ := h.filling heq s hs
    obtain ⟨hend, hepoch'⟩ := h'.filling heq' s hmid
    exact ⟨hend, hepoch'.trans hepoch⟩
  · obtain ⟨hmid, hunclaimed⟩ := h'.unclaimed heq' s hs hfinishing
    exact h.unclaimed heq s hmid hunclaimed
  · exact (h'.inFlight heq').trans (h.inFlight heq)

/-- A step that notifies. -/
theorem notifies (h : t.notifications < t'.notifications) : Still t t' :=
  ⟨h.le, fun heq => absurd heq h.ne', fun heq => absurd heq h.ne', fun heq => absurd heq h.ne'⟩

/-- A step that keeps what a filling slot is, slot by slot. -/
theorem of_slots (hle : t.notifications ≤ t'.notifications) (hinFlight : t'.inFlight = t.inFlight)
    (hslots : ∀ s, ((t'.slots s).state = (t.slots s).state ∧ (t'.slots s).epoch = (t.slots s).epoch ∧
        (t'.slots s).finishing = (t.slots s).finishing) ∨
      ((t.slots s).state ≠ .filling ∧ (t'.slots s).state ≠ .filling)) : Still t t' := by
  refine ⟨hle, fun _ s hs => ?_, fun _ s hs hfinishing => ?_, fun _ => hinFlight⟩
  · rcases hslots s with ⟨hstate, hepoch, -⟩ | ⟨hnot, -⟩
    · exact ⟨hstate.trans hs, hepoch⟩
    · exact absurd hs hnot
  · rcases hslots s with ⟨hstate, -, hflag⟩ | ⟨-, hnot⟩
    · exact ⟨hstate.symm.trans hs, hflag.symm.trans hfinishing⟩
    · exact absurd hs hnot

/-- A step that rewrites one slot, and not what a filling slot is. -/
theorem of_update {s' : Slot cfg} (hle : t.notifications ≤ t'.notifications)
    (hinFlight : t'.inFlight = t.inFlight) (hslots : t'.slots = Function.update t.slots slot s')
    (hslot : (s'.state = (t.slots slot).state ∧ s'.epoch = (t.slots slot).epoch ∧
        s'.finishing = (t.slots slot).finishing) ∨
      ((t.slots slot).state ≠ .filling ∧ s'.state ≠ .filling)) : Still t t' := by
  refine of_slots hle hinFlight fun s => ?_
  rw [hslots]
  by_cases hs : s = slot
  · rw [hs, Function.update_self]
    exact hslot
  · rw [Function.update_of_ne hs]
    exact Or.inl ⟨rfl, rfl, rfl⟩

end Still

/-- A fill that starts is not taken over, and notifies; one that is refused leaves its slot
failed. -/
theorem startFillLocked_slot (t : Table cfg) (answers : Answers) (slot : cfg.SlotId)
    (row : UInt64) :
    ∃ s', (t.startFillLocked answers slot row).2.slots = Function.update t.slots slot s' ∧
      s'.finishing = false ∧
      (t.notifications < (t.startFillLocked answers slot row).2.notifications ∨
        s'.state ≠ .filling ∧
          (t.startFillLocked answers slot row).2.notifications = t.notifications ∧
          (t.startFillLocked answers slot row).2.inFlight = t.inFlight) := by
  obtain ⟨u, hu, hstart⟩ := t.startFillLocked_cases answers slot row
  have hself : (t.beginAdmission slot row).slots slot = _ := Function.update_self ..
  have hslots : ∀ s', Function.update u.slots slot s' = Function.update t.slots slot s' := by
    intro s'
    funext s
    by_cases hs : s = slot
    · rw [hs, Function.update_self, Function.update_self]
    · cases hu with
      | mk slots used requests count submits lost claim scratch chunks hother hslot =>
          rw [Function.update_of_ne hs, Function.update_of_ne hs]
          exact (hother s hs).trans (Function.update_of_ne hs ..)
  have hslot : (u.slots slot).finishing = false ∧ u.notifications = t.notifications ∧
      u.inFlight = t.inFlight := by
    cases hu with
    | mk slots used requests count submits lost claim scratch chunks hother hslot =>
        refine ⟨?_, rfl, rfl⟩
        show (slots slot).finishing = false
        rw [hslot, hself]
  rcases hstart with ⟨length, head, hstart⟩ | ⟨status, -, hstart⟩ <;> rw [hstart]
  · refine ⟨_, hslots _, hslot.1, Or.inl ?_⟩
    rw [← hslot.2.1]
    exact Nat.lt_succ_self _
  · exact ⟨_, hslots _, hslot.1, Or.inr ⟨nofun, hslot.2⟩⟩

/-- Every edit that could end a sleep notifies. -/
theorem Edit.still (h : Edit t t') : Still t t' := by
  cases h with
  | quiet h =>
      cases h with
      | sweep h =>
          cases h with
          | bookkeeping h =>
              cases h with
              | mk slots tickets waiters hand held counters notifications hslots hle =>
                  refine .of_slots hle rfl fun s => Or.inl ?_
                  obtain ⟨referenced, hs⟩ := hslots s
                  simp only [hs, and_self]
          | freed slot hpins hstate =>
              refine .of_update le_rfl rfl rfl (Or.inr ⟨?_, nofun⟩)
              rcases hstate with hstate | hstate <;> rw [hstate] <;> decide
      | deliveries h =>
          cases h with
          | mk requests h => exact .of_slots le_rfl rfl fun s => Or.inl ⟨rfl, rfl, rfl⟩
      | started answers slot row hfree habsent =>
          obtain ⟨s', hslots, -, hnotified | ⟨hstate, hsame, hinFlight⟩⟩ :=
            t.startFillLocked_slot answers slot row
          · exact .notifies hnotified
          · refine .of_update hsame.ge hinFlight hslots (Or.inr ⟨?_, hstate⟩)
            rw [hfree]
            decide
  | pinned slot => exact .of_update le_rfl rfl rfl (Or.inl ⟨rfl, rfl, rfl⟩)
  | unpinned slot => exact .of_update le_rfl rfl rfl (Or.inl ⟨rfl, rfl, rfl⟩)
  | dropped _ => exact .of_slots le_rfl rfl fun s => Or.inl ⟨rfl, rfl, rfl⟩
  | installed _ _ _ _ => exact .of_slots le_rfl rfl fun s => Or.inl ⟨rfl, rfl, rfl⟩

theorem Edits.still (h : Edits t t') : Still t t' := by
  induction h with
  | refl => exact .refl t
  | tail _ hlast ih => exact ih.trans hlast.still

/-- Taking a fill over ends no sleep: the fill goes on, with an agent. -/
theorem takeOver_still (t : Table cfg) (slot : cfg.SlotId) : Still t (t.takeOver slot) := by
  refine ⟨le_rfl, fun _ s hs => ?_, fun _ s hs hfinishing => ?_, fun _ => rfl⟩
  · by_cases hss : s = slot
    · have hself : (t.takeOver slot).slots slot = _ := Function.update_self ..
      rw [hss] at hs ⊢
      rw [hself]
      exact ⟨hs, rfl⟩
    · have hkept : (t.takeOver slot).slots s = t.slots s := Function.update_of_ne hss ..
      rw [hkept]
      exact ⟨hs, rfl⟩
  · by_cases hss : s = slot
    · have hself : (t.takeOver slot).slots slot = _ := Function.update_self ..
      rw [hss, hself] at hfinishing
      cases hfinishing
    · have hkept : (t.takeOver slot).slots s = t.slots s := Function.update_of_ne hss ..
      rw [hkept] at hs hfinishing
      exact ⟨hs, hfinishing⟩

theorem finishStep_still {pc : FinishPc} {next : Option FinishPc} {deadline : Bool}
    {choice : Choice} (hfill : (t.slots slot).state = .filling)
    (h : t.finishStep slot deadline choice pc = some (next, t')) : Still t t' := by
  cases finishStep_move hfill h with
  | stays => exact .refl t
  | relinquished hpc => exact .notifies (Nat.lt_succ_self _)
  | published result hpc => exact .notifies (Nat.lt_succ_self _)

/-- A fill taken over. -/
def TakenOver (t : Table cfg) (slot : cfg.SlotId) : Prop :=
  (t.slots slot).state = .filling ∧ (t.slots slot).finishing = true

/-- No edit takes a fill over. -/
theorem Edit.takenOver (h : Edit t t') {s : cfg.SlotId} (hs : t'.TakenOver s) : t.TakenOver s := by
  have hupdate : ∀ {slot : cfg.SlotId} {s' : Slot cfg},
      t'.slots = Function.update t.slots slot s' →
      (s'.state = .filling → s'.finishing = true → t.TakenOver slot) → t.TakenOver s := by
    intro slot s' hslots hslot
    unfold TakenOver at hs
    rw [hslots] at hs
    by_cases hss : s = slot
    · rw [hss, Function.update_self] at hs
      rw [hss]
      exact hslot hs.1 hs.2
    · rwa [Function.update_of_ne hss] at hs
  cases h with
  | quiet h =>
      cases h with
      | sweep h =>
          cases h with
          | bookkeeping h =>
              cases h with
              | mk slots tickets waiters hand held counters notifications hslots hle =>
                  obtain ⟨referenced, heq⟩ := hslots s
                  have hs : (slots s).state = .filling ∧ (slots s).finishing = true := hs
                  rw [heq] at hs
                  exact hs
          | freed slot hpins hstate => exact hupdate rfl fun hfilling => by cases hfilling
      | deliveries h => cases h with | mk requests h => exact hs
      | started answers slot row hfree habsent =>
          obtain ⟨s', hslots, hunclaimed, -⟩ := t.startFillLocked_slot answers slot row
          refine hupdate hslots fun _ hclaimed => ?_
          rw [hunclaimed] at hclaimed
          cases hclaimed
  | pinned slot => exact hupdate rfl fun hfilling hfinishing => ⟨hfilling, hfinishing⟩
  | unpinned slot => exact hupdate rfl fun hfilling hfinishing => ⟨hfilling, hfinishing⟩
  | dropped _ => exact hs
  | installed _ _ _ _ => exact hs

theorem Edits.takenOver (h : Edits t t') {s : cfg.SlotId} (hs : t'.TakenOver s) :
    t.TakenOver s := by
  induction h with
  | refl => exact hs
  | tail _ hlast ih => exact ih (hlast.takenOver hs)

/-- No filling slot waits for somebody to take it over. -/
def AllClaimed (t : Table cfg) : Prop :=
  ∀ s, (t.slots s).state = .filling → (t.slots s).finishing = true

/-- The slot is being filled under the epoch. -/
def FillingUnder (t : Table cfg) (slot : cfg.SlotId) (epoch : UInt32) : Prop :=
  (t.slots slot).state = .filling ∧ (t.slots slot).epoch = epoch

theorem Still.allClaimed (h : Still t t') (heq : t'.notifications = t.notifications)
    (hclaimed : t.AllClaimed) : t'.AllClaimed := by
  intro s hs
  rw [← Bool.not_eq_false]
  intro hunclaimed
  obtain ⟨hold, hnot⟩ := h.unclaimed heq s hs hunclaimed
  rw [hclaimed s hold] at hnot
  cases hnot

theorem Still.fillingUnder {epoch : UInt32} (h : Still t t')
    (heq : t'.notifications = t.notifications) (hunder : t.FillingUnder slot epoch) :
    t'.FillingUnder slot epoch := by
  obtain ⟨hstate, hepoch⟩ := h.filling heq slot hunder.1
  exact ⟨hstate, hepoch.trans hunder.2⟩

end Table

namespace World

variable {w w' u : World cfg} {thread : ThreadId} {action : Action cfg} {choice : Choice}

/-- The count a sleeper remembers is not ahead, and as long as no notification is pending
the sleeper has its reason. -/
def Waits (w : World cfg) (since : ℕ) (reason : Prop) : Prop :=
  since ≤ w.table.notifications ∧ (since = w.table.notifications → reason)

/-- Why a sleeping thread sleeps. -/
def SleepsFor (w : World cfg) : Pc cfg → Prop
  | .resolving call (.asleep i since) =>
      w.Waits since (∃ l, w.leases (call.out + i) = some l ∧ w.table.FillingUnder l.slot l.epoch)
  | .waiting call _ (.asleep i since) =>
      w.Waits since (∃ slot, (w.table.waiters call.record i).slot = some slot ∧
        w.table.FillingUnder slot (w.table.waiters call.record i).epoch)
  | .draining _ (.asleep since) => w.Waits since (w.table.inFlight ≠ 0)
  | _ => True

/-- Why a sleeping worker sleeps. -/
def WorkerSleepsFor (w : World cfg) : WorkerPc cfg → Prop
  | .asleep since => w.Waits since w.table.AllClaimed
  | _ => True

/-- Every sleeper has its reason. -/
structure WakeInv (w : World cfg) : Prop where
  threads : ∀ thread, w.SleepsFor (w.threads thread)
  worker : w.WorkerSleepsFor w.worker

theorem Waits.still {since : ℕ} {reason reason' : Prop} (h : w.Waits since reason)
    (hstill : Table.Still w.table w'.table)
    (hreason : w'.table.notifications = w.table.notifications → reason → reason') :
    w'.Waits since reason' := by
  have hle := hstill.le
  have hsince := h.1
  refine ⟨hsince.trans hle, fun heq => ?_⟩
  exact hreason (by omega) (h.2 (by omega))

/-- A sleeper just gone to sleep. -/
theorem Waits.now {reason : Prop} (h : reason) : w.Waits w.table.notifications reason :=
  ⟨le_rfl, fun _ => h⟩

/-- A thread that does not move keeps its reason. -/
theorem SleepsFor.still {pc : Pc cfg} (h : w.SleepsFor pc) (hstill : Table.Still w.table w'.table)
    (hleases : ∀ call rpc, pc = .resolving call rpc → rpc.Within call.rows.length ∧
      ∀ v, call.InSpan v → w'.leases v = w.leases v)
    (hentries : ∀ call outcome wpc, pc = .waiting call outcome wpc →
      w'.table.waiters call.record = w.table.waiters call.record) : w'.SleepsFor pc := by
  cases pc with
  | idle => trivial
  | refused status => trivial
  | resolving call rpc =>
      cases rpc with
      | asleep i since =>
          obtain ⟨hi, hkept⟩ := hleases call _ rfl
          refine Waits.still h hstill fun heq hreason => ?_
          obtain ⟨l, hl, hunder⟩ := hreason
          exact ⟨l, (hkept _ (inSpan_add hi)).trans hl, hstill.fillingUnder heq hunder⟩
      | _ => trivial
  | waiting call outcome wpc =>
      cases wpc with
      | asleep i since =>
          refine Waits.still h hstill fun heq hreason => ?_
          obtain ⟨slot, hslot, hunder⟩ := hreason
          rw [hentries call outcome _ rfl]
          exact ⟨slot, hslot, hstill.fillingUnder heq hunder⟩
      | _ => trivial
  | draining deadline dpc =>
      cases dpc with
      | asleep since =>
          refine Waits.still h hstill fun heq hreason => ?_
          rw [hstill.inFlight heq]
          exact hreason
      | _ => trivial

theorem WorkerSleepsFor.still {pc : WorkerPc cfg} (h : w.WorkerSleepsFor pc)
    (hstill : Table.Still w.table w'.table) : w'.WorkerSleepsFor pc := by
  cases pc with
  | asleep since => exact Waits.still h hstill fun heq hclaimed => hstill.allClaimed heq hclaimed
  | _ => trivial

/-- Every step that could end a sleep notifies. -/
theorem step_still (hfill : w.FillInv) (hstep : w.step action = some w') :
    Table.Still w.table w'.table := by
  cases step_move hfill.index hstep with
  | edits htable hlocal hsame => exact htable.still
  | tookOver g slot hagent hbefore hfilling hunclaimed htable hnow hothers =>
      rw [htable]
      exact w.table.takeOver_still slot
  | finishing g slot pc next deadline choice hagent hbefore hfinish hnow hothers =>
      exact Table.finishStep_still (hfill.driven g slot pc hbefore).1 hfinish

/-! ## Threads that move -/

theorem afterRow_sleeps (w : World cfg) (call call' : ResolveCall) (i : ℕ) (failure : Status) :
    w.SleepsFor (.resolving call' (afterRow call i failure)) := by
  unfold afterRow
  split_ifs <;> trivial

theorem settleRow_sleeps {call : ResolveCall} {i : ℕ} {lease : Lease cfg} {pc : ResolvePc cfg}
    (h : w.settleRow call i lease = (pc, u)) : u.SleepsFor (.resolving call pc) := by
  unfold settleRow at h
  dsimp only at h
  split_ifs at h <;> cases h <;> exact afterRow_sleeps ..

theorem resolveStep_sleeps {call call' : ResolveCall} {pc pc' : ResolvePc cfg}
    (h : w.resolveStep call choice pc = some (call', pc', u)) :
    u.SleepsFor (.resolving call' pc') := by
  unfold resolveStep at h
  cases pc with
  | releasing i =>
      dsimp only at h
      split_ifs at h <;> cases h <;> trivial
  | phaseA =>
      dsimp only at h
      split_ifs at h <;> cases h <;> trivial
  | unwind i count failure =>
      dsimp only at h
      split_ifs at h <;> cases h <;> trivial
  | drive i =>
      dsimp only at h
      split_ifs at h
      · split at h
        · cases h
        · rename_i lease hlease
          split_ifs at h with hepoch hfilling hfinishing
          · cases h
            exact afterRow_sleeps ..
          · cases h
            exact .now ⟨lease, hlease, hfilling, not_not.mp hepoch⟩
          · cases h
            trivial
          · obtain ⟨rfl, hsettle⟩ := Prod.mk.inj (Option.some.inj h)
            exact settleRow_sleeps hsettle
      · cases h
        trivial
  | finishing i slot fpc =>
      dsimp only at h
      split at h <;> cases h <;> trivial
  | settle i =>
      dsimp only at h
      split at h
      · cases h
      · obtain ⟨rfl, hsettle⟩ := Prod.mk.inj (Option.some.inj h)
        exact settleRow_sleeps hsettle
  | asleep i since =>
      dsimp only at h
      split_ifs at h
      split at h
      · cases h
      · rename_i lease hlease
        split_ifs at h with hended
        · obtain ⟨rfl, hsettle⟩ := Prod.mk.inj (Option.some.inj h)
          exact settleRow_sleeps hsettle
        · cases h
          rw [not_or, not_not, not_not] at hended
          exact .now ⟨lease, hlease, hended.2, hended.1⟩
  | returned result => cases h

theorem waitStep_sleeps {call : WaitCall cfg} {outcome outcome' : WaitOutcome}
    {pc pc' : WaitPc cfg} (h : w.waitStep call outcome choice pc = some (outcome', pc', u)) :
    u.SleepsFor (.waiting call outcome' pc') := by
  unfold waitStep at h
  cases pc with
  | entry i =>
      dsimp only at h
      split_ifs at h
      · split at h
        · cases h
          trivial
        · rename_i slot hslot
          split_ifs at h with hepoch hfilling hfinishing <;> cases h
          · trivial
          · exact .now ⟨slot, hslot, hfilling, not_not.mp hepoch⟩
          · trivial
          · trivial
      · cases h
        trivial
  | finishing i slot fpc =>
      dsimp only at h
      split at h <;> cases h <;> trivial
  | settle i =>
      dsimp only at h
      split at h <;> cases h
      trivial
  | asleep i since =>
      dsimp only at h
      split at h
      · split at h
        · cases h
        · rename_i slot hslot
          split_ifs at h with hended hexpired <;> cases h
          · trivial
          · trivial
          · rw [not_or, not_not, not_not] at hended
            exact .now ⟨slot, hslot, hended.2, hended.1⟩
      · cases h
  | returned => cases h

theorem drainStep_sleeps {deadline : Bool} {pc pc' : DrainPc}
    (h : drainStep w.table deadline choice pc = some pc') :
    w.SleepsFor (.draining deadline pc') := by
  unfold drainStep at h
  cases pc with
  | start =>
      dsimp only at h
      split_ifs at h with hzero <;> cases h
      · trivial
      · exact .now hzero
  | asleep since =>
      dsimp only at h
      split_ifs at h with _ hzero <;> cases h
      · trivial
      · trivial
      · exact .now hzero
  | returned result => cases h

theorem workerStep_sleeps {t : Table cfg} {pc pc' : WorkerPc cfg}
    (h : workerStep w.table choice pc = some (pc', t)) :
    ({ w with table := t, worker := pc' } : World cfg).WorkerSleepsFor pc' := by
  unfold workerStep at h
  cases pc with
  | scan =>
      dsimp only at h
      split at h
      · cases h
        trivial
      · rename_i hnone
        cases h
        refine .now fun s hs => ?_
        unfold Table.findUnclaimedFilling at hnone
        have hs : (w.table.slots s).state = .filling := hs
        have hscanned := List.find?_eq_none.mp hnone s (List.mem_finRange s)
        simpa [hs] using hscanned
  | finishing slot fpc =>
      dsimp only at h
      split at h <;> cases h <;> trivial
  | asleep since =>
      dsimp only at h
      split_ifs at h
      cases h
      trivial

/-- The thread that acts ends up with a reason if it sleeps. -/
theorem acted_sleeps (hstep : w.step action = some w') (hcaller : action.caller = some thread) :
    w'.SleepsFor (w'.threads thread) := by
  have hmoved : ∀ {u v : World cfg} {pc : Pc cfg}, v = u.setThread thread pc →
      u.SleepsFor pc → v.SleepsFor (v.threads thread) := by
    rintro u v pc rfl hpc
    show u.SleepsFor (Function.update u.threads thread pc thread)
    rw [Function.update_self]
    exact hpc
  unfold World.step at hstep
  split_ifs at hstep
  cases action with
  | resolveInto k rows out outSize =>
      cases hcaller
      have hstep : w.callResolve thread rows out outSize = some w' := hstep
      unfold callResolve at hstep
      split at hstep
      · split_ifs at hstep <;> cases hstep <;> exact hmoved rfl trivial
      · cases hstep
  | wait k v deadline =>
      cases hcaller
      have hstep : w.callWait thread v deadline = some w' := hstep
      unfold callWait at hstep
      split at hstep
      · split at hstep <;> cases hstep <;> exact hmoved rfl trivial
      · cases hstep
  | drain k deadline =>
      cases hcaller
      have hstep : w.callDrain thread deadline = some w' := hstep
      unfold callDrain at hstep
      split at hstep
      · cases hstep
        exact hmoved rfl trivial
      · cases hstep
  | advance k choice =>
      cases hcaller
      have hstep : w.advance thread choice = some w' := hstep
      unfold World.advance at hstep
      split at hstep
      · obtain ⟨⟨call', pc', u⟩, hresolve, rfl⟩ := Option.map_eq_some_iff.mp hstep
        exact hmoved rfl (resolveStep_sleeps hresolve)
      · obtain ⟨⟨outcome', pc', u⟩, hwait, rfl⟩ := Option.map_eq_some_iff.mp hstep
        exact hmoved rfl (waitStep_sleeps hwait)
      · obtain ⟨pc', hdrain, rfl⟩ := Option.map_eq_some_iff.mp hstep
        exact hmoved rfl (drainStep_sleeps hdrain)
      · cases hstep
  | leave k =>
      cases hcaller
      have hstep : w.leave thread = some w' := hstep
      unfold leave at hstep
      split at hstep
      case h_5 => cases hstep
      all_goals
        cases hstep
        exact hmoved rfl trivial
  | _ => cases hcaller

/-- Only the worker moves the worker. -/
theorem worker_sleeps (hfill : w.FillInv) (h : w.WorkerSleepsFor w.worker)
    (hstep : w.step action = some w') : w'.WorkerSleepsFor w'.worker := by
  have hstill := step_still hfill hstep
  have hkept : w'.worker = w.worker → w'.WorkerSleepsFor w'.worker := fun heq => by
    rw [heq]
    exact h.still hstill
  unfold World.step at hstep
  split_ifs at hstep
  cases action with
  | work choice =>
      obtain ⟨⟨pc, t⟩, hwork, rfl⟩ := Option.map_eq_some_iff.mp hstep
      exact workerStep_sleeps hwork
  | resolveInto thread rows out outSize =>
      have hstep : w.callResolve thread rows out outSize = some w' := hstep
      unfold callResolve at hstep
      split at hstep
      · split_ifs at hstep <;> cases hstep <;> exact hkept rfl
      · cases hstep
  | wait thread v deadline =>
      have hstep : w.callWait thread v deadline = some w' := hstep
      unfold callWait at hstep
      split at hstep
      · split at hstep <;> cases hstep <;> exact hkept rfl
      · cases hstep
  | drain thread deadline =>
      have hstep : w.callDrain thread deadline = some w' := hstep
      unfold callDrain at hstep
      split at hstep
      · cases hstep
        exact hkept rfl
      · cases hstep
  | advance thread choice =>
      have hstep : w.advance thread choice = some w' := hstep
      unfold World.advance at hstep
      split at hstep
      · obtain ⟨⟨call', pc', u⟩, hresolve, rfl⟩ := Option.map_eq_some_iff.mp hstep
        exact hkept (resolveStep_move hfill.index hresolve).2.2
      · obtain ⟨⟨outcome', pc', u⟩, hwait, rfl⟩ := Option.map_eq_some_iff.mp hstep
        exact hkept (waitStep_move hwait).2.2
      · obtain ⟨pc', hdrain, rfl⟩ := Option.map_eq_some_iff.mp hstep
        exact hkept rfl
      · cases hstep
  | leave thread =>
      have hstep : w.leave thread = some w' := hstep
      unfold leave at hstep
      split at hstep
      case h_5 => cases hstep
      all_goals
        cases hstep
        exact hkept rfl
  | tryGet row v =>
      have hstep : w.tryGet row v = some w' := hstep
      unfold tryGet at hstep
      split_ifs at hstep
      · cases hstep
        exact hkept rfl
      · split at hstep <;> cases hstep <;> exact hkept rfl
  | reset v =>
      have hstep : (if w.inUse v then none else some (w.resetLease v)) = some w' := hstep
      split_ifs at hstep
      cases hstep
      exact hkept (w.resetLease_edits v).2.2
  | move source target =>
      have hstep : (if w.inUse source ∨ w.inUse target then none
        else some (w.moveLease source target)) = some w' := hstep
      split_ifs at hstep
      cases hstep
      have hreset := (w.resetLease_edits target).2.2
      apply hkept
      unfold moveLease
      split_ifs
      · rfl
      · exact hreset
  | prefetch rows v answers =>
      have hstep : w.prefetch rows v answers = some w' := hstep
      unfold prefetch at hstep
      split_ifs at hstep
      split at hstep <;> cases hstep <;> exact hkept rfl
  | dropTicket v =>
      have hstep : (if (w.tickets v).users ≠ 0 then none else some (w.resetTicket v)) = some w' :=
        hstep
      split_ifs at hstep
      cases hstep
      exact hkept (w.resetTicket_quiets v).2.2
  | moveTicket source target =>
      have hstep : (if (w.tickets source).users ≠ 0 ∨ (w.tickets target).users ≠ 0 then none
        else some (w.moveTicket source target)) = some w' := hstep
      split_ifs at hstep
      cases hstep
      have hreset := (w.resetTicket_quiets target).2.2
      apply hkept
      unfold moveTicket
      split_ifs
      · rfl
      · exact hreset
  | invalidate creation generation sources resolver =>
      cases hstep
      exact hkept rfl
  | deliver id status =>
      cases hstep
      exact hkept rfl

/-- Every fill taken over is driven by the agent that took it. -/
def DrivenInv (w : World cfg) : Prop :=
  ∀ s, w.table.TakenOver s → ∃ g pc, w.finisher g = some (s, pc)

theorem DrivenInv.step (h : w.DrivenInv) (hfill : w.FillInv) (hstep : w.step action = some w') :
    w'.DrivenInv := by
  intro s hs
  -- What was driven before is driven still, except by the agent that has moved.
  have hbefore : ∀ g₀, (∀ g, g ≠ g₀ → w'.finisher g = w.finisher g) → w.table.TakenOver s →
      (∀ pc, w.finisher g₀ ≠ some (s, pc)) → ∃ g pc, w'.finisher g = some (s, pc) := by
    intro g₀ hothers hold hnot
    obtain ⟨g, pc, hg⟩ := h s hold
    refine ⟨g, pc, (hothers g ?_).trans hg⟩
    rintro rfl
    exact hnot pc hg
  cases step_move hfill.index hstep with
  | edits htable hlocal hsame =>
      obtain ⟨g, pc, hg⟩ := h s (htable.takenOver hs)
      exact ⟨g, pc, (hsame g).trans hg⟩
  | tookOver g slot hagent hnone hfilling hunclaimed htable hnow hothers =>
      by_cases hss : s = slot
      · exact ⟨g, .enter, by rw [hss]; exact hnow⟩
      · have hkept : w'.table.slots s = w.table.slots s := by
          rw [htable]
          exact Function.update_of_ne hss ..
        unfold Table.TakenOver at hs
        rw [hkept] at hs
        refine hbefore g hothers hs fun pc hg => ?_
        rw [hnone] at hg
        cases hg
  | finishing g slot pc next deadline choice hagent hdriving hfinish hnow hothers =>
      have hmove := Table.finishStep_move (hfill.driven g slot pc hdriving).1 hfinish
      have hother : ∀ pc', s ≠ slot → w.finisher g ≠ some (s, pc') := by
        intro pc' hss hg
        rw [hdriving] at hg
        cases hg
        exact hss rfl
      by_cases hss : s = slot
      · subst hss
        generalize w'.table = t' at hmove hs
        cases hmove with
        | stays next => exact ⟨g, next, hnow⟩
        | relinquished hpc =>
            have hself : (w.table.relinquish s).slots s = _ := Function.update_self ..
            unfold Table.TakenOver at hs
            rw [hself] at hs
            cases hs.2
        | published result hpc =>
            have hself : (w.table.publish s result).slots s = _ := Function.update_self ..
            unfold Table.TakenOver at hs
            rw [hself] at hs
            cases hs.2
      · refine hbefore g hothers ?_ fun pc' => hother pc' hss
        generalize w'.table = t' at hmove hs
        cases hmove with
        | stays next => exact hs
        | relinquished hpc =>
            have hkept : (w.table.relinquish slot).slots s = _ := Function.update_of_ne hss ..
            unfold Table.TakenOver at hs ⊢
            rwa [hkept] at hs
        | published result hpc =>
            have hkept : (w.table.publish slot result).slots s = _ := Function.update_of_ne hss ..
            unfold Table.TakenOver at hs ⊢
            rwa [hkept] at hs

/-- Fills taken over are driven in every reachable state. -/
theorem drivenInv_of_reachable {h : cfg.Accepted}
    (hw : Reachable World.step (World.start cfg h) w) : w.DrivenInv :=
  hw.invariant_of (fun _ => fillInv_of_reachable) (fun _ hs => by cases hs.1)
    fun _ _ _ hfill hinv _ hstep => hinv.step hfill hstep

namespace WakeInv

theorem start (h : cfg.Accepted) : (World.start cfg h).WakeInv :=
  ⟨fun _ => trivial, trivial⟩

/-- Every step leaves every sleeper with its reason. -/
theorem step (h : w.WakeInv) (hfill : w.FillInv) (hspan : w.SpanInv) (hticket : w.TicketInv)
    (hstep : w.step action = some w') : w'.WakeInv := by
  refine ⟨fun thread => ?_, worker_sleeps hfill h.worker hstep⟩
  by_cases hcaller : action.caller = some thread
  · exact acted_sleeps hstep hcaller
  · have hkeeps := (hspan.step hstep).2 thread hcaller
    have hentries := (hticket.step hspan hstep).2
    rw [hkeeps.pc]
    refine (h.threads thread).still (step_still hfill hstep) (fun call pc hpc => ?_)
      fun call outcome pc hpc => hentries thread call outcome pc hpc
    exact ⟨hspan.within thread call pc hpc, hkeeps.leases call pc hpc⟩

end WakeInv

/-- Sleepers have their reasons in every reachable state. -/
theorem wakeInv_of_reachable {h : cfg.Accepted}
    (hw : Reachable World.step (World.start cfg h) w) : w.WakeInv := by
  have hknown : ∀ u, Reachable World.step (World.start cfg h) u →
      u.FillInv ∧ u.SpanInv ∧ u.TicketInv := fun u hu =>
    ⟨fillInv_of_reachable hu, spanInv_of_reachable hu, ticketInv_of_reachable hu⟩
  exact hw.invariant_of hknown (.start h) fun _ _ _ hinv hwake _ hstep =>
    hwake.step hinv.1 hinv.2.1 hinv.2.2 hstep

/-! ## No lost wakeup -/

/-- The thread will not wake up without a further notification. -/
def Unnotified (w : World cfg) (since : ℕ) : Prop := ¬ since < w.table.notifications

/-- No fill is orphaned and no wakeup is lost. -/
structure NoLostWakeup (w : World cfg) : Prop where
  /-- While the worker sleeps without a pending notification, every filling slot has been
  taken over. -/
  worker : ∀ since, w.worker = .asleep since → w.Unnotified since →
    ∀ s, (w.table.slots s).state = .filling → (w.table.slots s).finishing ≠ false
  /-- A thread asleep in `resolve_into` sleeps for a fill that goes on. -/
  resolving : ∀ thread call i since, w.threads thread = .resolving call (.asleep i since) →
    w.Unnotified since →
    ∃ l, w.leases (call.out + i) = some l ∧ (w.table.slots l.slot).state = .filling ∧
      (w.table.slots l.slot).epoch = l.epoch
  /-- A thread asleep in `wait` sleeps for a fill that goes on. -/
  waiting : ∀ thread call outcome i since,
    w.threads thread = .waiting call outcome (.asleep i since) → w.Unnotified since →
    ∃ slot, (w.table.waiters call.record i).slot = some slot ∧
      (w.table.slots slot).state = .filling ∧
      (w.table.slots slot).epoch = (w.table.waiters call.record i).epoch
  /-- A thread asleep in `drain` sleeps for fills in flight. -/
  draining : ∀ thread deadline since, w.threads thread = .draining deadline (.asleep since) →
    w.Unnotified since → w.table.inFlight ≠ 0
  /-- A filling slot is driven by an agent, or the worker is up, or will be, to find it. -/
  responsible : ∀ s, (w.table.slots s).state = .filling →
    (∃ g pc, w.finisher g = some (s, pc)) ∨
      ∀ since, w.worker = .asleep since → since < w.table.notifications

/-- In every reachable state no fill is orphaned and no wakeup is lost. -/
theorem no_lost_wakeup {h : cfg.Accepted} (hw : Reachable World.step (World.start cfg h) w) :
    w.NoLostWakeup := by
  have hwake := wakeInv_of_reachable hw
  have hreason : ∀ {since : ℕ} {reason : Prop}, w.Waits since reason → w.Unnotified since →
      reason := fun hwaits hun => hwaits.2 (le_antisymm hwaits.1 (not_lt.mp hun))
  have hworker : ∀ since, w.worker = .asleep since → w.Unnotified since → w.table.AllClaimed := by
    intro since hpc hun
    have hwaits := hwake.worker
    rw [hpc] at hwaits
    exact hreason hwaits hun
  refine ⟨fun since hpc hun s hs => ?_, fun thread call i since hpc hun => ?_,
    fun thread call outcome i since hpc hun => ?_, fun thread deadline since hpc hun => ?_,
    fun s hs => ?_⟩
  · rw [hworker since hpc hun s hs]
    exact Bool.noConfusion
  · have hwaits := hwake.threads thread
    rw [hpc] at hwaits
    exact hreason hwaits hun
  · have hwaits := hwake.threads thread
    rw [hpc] at hwaits
    exact hreason hwaits hun
  · have hwaits := hwake.threads thread
    rw [hpc] at hwaits
    exact hreason hwaits hun
  · by_cases hclaimed : (w.table.slots s).finishing = true
    · exact Or.inl (drivenInv_of_reachable hw s ⟨hs, hclaimed⟩)
    · refine Or.inr fun since hpc => not_not.mp fun hun => hclaimed ?_
      exact hworker since hpc hun s hs

end World

/-! ## A run -/

/-- Row 0 of the small table is prefetched.  Thread 0 waits for it with a deadline and
drives the fill, so worker and thread 1 go to sleep; then the deadline passes. -/
def timedOutRun : List (Action twoShards) :=
  [.prefetch [0] 0 fun _ => {}, .wait 0 0 true, .advance 0 {}, .work {}, .wait 1 0 false,
    .advance 1 {}, .advance 0 {}, .advance 0 { expired := true }, .advance 0 {}]

/-- The fill that was given up is found: the sleeping worker has a pending notification. -/
theorem no_lost_wakeup_timedOut :
    ∃ w, exec World.step timedOutRun (World.start twoShards twoShards_accepted) = some w ∧
      w.worker = .asleep 1 ∧ w.table.notifications = 2 ∧
      w.table.findUnclaimedFilling.isSome ∧ w.NoLostWakeup := by
  have hrun : (exec World.step timedOutRun (World.start twoShards twoShards_accepted)).any
      fun w => w.worker = .asleep 1 ∧ w.table.notifications = 2 ∧
        w.table.findUnclaimedFilling.isSome := by
    decide +kernel
  obtain ⟨w, hw, hfacts⟩ := (Option.any_eq_true _ _).mp hrun
  obtain ⟨hasleep, hcount, hfound⟩ := of_decide_eq_true hfacts
  exact ⟨w, hw, hasleep, hcount, hfound, World.no_lost_wakeup (reachable_of_exec .start hw)⟩

end TieredCache
