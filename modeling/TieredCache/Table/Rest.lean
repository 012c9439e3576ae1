/-
# Calls return

Threads that go on with their calls, a worker that goes on with its fills and a transport that
delivers what it accepted bring the machine to rest: no such run is endless, and where it cannot
go on every call has returned and no row is being filled.
-/

import TieredCache.Table.HeldTickets
import TieredCache.Table.Progress
import TieredCache.Table.Wakeups

namespace TieredCache

open Math.Ranks Math.Runs Math.Tally

variable {cfg : TableConfig}

/-- A step that goes on with what has begun: a thread or the worker goes on, not woken for nothing;
a caller takes its result; or the transport delivers a request it has accepted. -/
def Action.GoesOn (w : World cfg) : Action cfg → Prop
  | .advance _ choice => choice.spurious = false
  | .work choice => choice.spurious = false
  | .leave _ => True
  | .deliver id status =>
      id < w.table.requestCount ∧ (w.table.requests id).Live ∧ status.Terminal
  | _ => False

/-- The entry that a call of `wait` has entered and not left. -/
def WaitPc.entered : WaitPc cfg → Option ℕ
  | .finishing i _ _ => some i
  | .settle i => some i
  | .asleep i _ => some i
  | _ => none

/-- How many notifications a sleeping thread has seen. -/
def Pc.asleepSince : Pc cfg → Option ℕ
  | .resolving _ (.asleep _ since) => some since
  | .waiting _ _ (.asleep _ since) => some since
  | .draining _ (.asleep since) => some since
  | _ => none

/-- A sleeping thread drives no fill. -/
theorem Pc.fill_of_asleep {pc : Pc cfg} {since : ℕ} (h : pc.asleepSince = some since) :
    pc.fill = none := by
  cases pc with
  | resolving call pc =>
      cases pc with
      | finishing i slot fpc => cases h
      | _ => rfl
  | waiting call outcome pc =>
      cases pc with
      | finishing i slot fpc => cases h
      | _ => rfl
  | _ => rfl

/-- The claims a thread in `finish_fill` has yet to wait for. -/
def FinishPc.pending : FinishPc → List RequestId
  | .waiting pending => pending
  | _ => []

namespace World

variable {w w' u : World cfg} {thread : ThreadId} {choice : Choice} {action : Action cfg}

/-- One step that goes on. -/
def Goes (w w' : World cfg) : Prop := ∃ action : Action cfg, action.GoesOn w ∧ w.step action = some w'

/-- Nothing goes on. -/
def Stuck (w : World cfg) : Prop := ∀ action : Action cfg, action.GoesOn w → w.step action = none

/-- Every call has returned, and nothing is left of any fill. -/
structure AtRest (w : World cfg) : Prop where
  threads : ∀ thread, w.threads thread = .idle
  slots : ∀ slot, (w.table.slots slot).state ≠ .filling
  inFlight : w.table.inFlight = 0
  worker : w.worker = .asleep w.table.notifications
  requests : w.Quiescent

/-! ## No endless run -/

/-- No thread from `bound` on is in a call. -/
def Bounded (bound : ℕ) (w : World cfg) : Prop := ∀ thread, bound ≤ thread → w.threads thread = .idle

/-- Somewhere the threads in calls end. -/
theorem bounded_of_reachable {h : cfg.Accepted}
    (hw : Reachable World.step (World.start cfg h) w) : ∃ bound, w.Bounded bound := by
  induction hw with
  | start => exact ⟨0, fun _ _ => rfl⟩
  | @step u u' action hu _ hstep ih =>
      obtain ⟨bound, hbound⟩ := ih
      have hkeeps := ((spanInv_of_reachable hu).step hstep).2
      cases hcaller : action.caller with
      | none =>
          refine ⟨bound, fun k hk => ?_⟩
          have hne : action.caller ≠ some k := by
            rw [hcaller]
            exact (Option.some_ne_none k).symm
          rw [(hkeeps k hne).pc]
          exact hbound k hk
      | some thread =>
          refine ⟨max bound (thread + 1), fun k hk => ?_⟩
          have hne : action.caller ≠ some k := by
            rw [hcaller]
            intro heq
            cases heq
            omega
          rw [(hkeeps k hne).pc]
          exact hbound k (le_of_max_le_left hk)

/-- A thread that goes on is in a call. -/
theorem lt_of_goesOn {bound : ℕ} (h : w.Bounded bound) (hstep : w.step action = some w')
    (hgoes : action.GoesOn w) (hcaller : action.caller = some thread) : thread < bound := by
  by_contra hle
  have hidle := h thread (not_lt.mp hle)
  unfold step at hstep
  split_ifs at hstep
  cases action with
  | advance k choice =>
      cases hcaller
      have hstep : w.advance thread choice = some w' := hstep
      unfold World.advance at hstep
      rw [hidle] at hstep
      cases hstep
  | leave k =>
      cases hcaller
      have hstep : w.leave thread = some w' := hstep
      unfold leave at hstep
      rw [hidle] at hstep
      cases hstep
  | work choice => cases hcaller
  | deliver id status => cases hcaller
  | _ => exact hgoes.elim

/-- Going on begins no call. -/
theorem Bounded.goes {bound : ℕ} (h : w.Bounded bound) (hspan : w.SpanInv)
    (hstep : w.step action = some w') (hgoes : action.GoesOn w) : w'.Bounded bound := by
  intro k hk
  have hne : action.caller ≠ some k := fun hcaller =>
    absurd (lt_of_goesOn h hstep hgoes hcaller) (not_lt.mpr hk)
  rw [((hspan.step hstep).2 k hne).pc]
  exact h k hk

/-- A delivery leaves less to do. -/
theorem rank_lt_of_deliver {bound : ℕ} {id : RequestId} {status : MemStatus}
    (hid : id < w.table.requestCount) (hlive : (w.table.requests id).Live)
    (hterminal : status.Terminal) :
    ({ w with table := w.table.deliver id status } : World cfg).rank bound < w.rank bound := by
  obtain ⟨hless, hslots, hnotifications⟩ := Table.deliver_requestsLeft hid hlive hterminal
  have hunmoved : Table.Unmoved w.table (w.table.deliver id status) :=
    ⟨hnotifications, fun s => by rw [hslots]⟩
  have hfills : (w.table.deliver id status).fillsLeft = w.table.fillsLeft := by
    unfold Table.fillsLeft
    rw [hslots]
  have hunclaimed : (w.table.deliver id status).unclaimedLeft = w.table.unclaimedLeft := by
    unfold Table.unclaimedLeft
    rw [hslots]
  unfold rank
  simp only [hunmoved.load, hunmoved.workerLoad, hfills, hunclaimed]
  exact rank₃_lt_third le_rfl le_rfl (by omega)

/-- Taking a result leaves less to do. -/
theorem rank_lt_of_leave {bound : ℕ} (hthread : thread < bound) (hstep : w.leave thread = some w') :
    w'.rank bound < w.rank bound := by
  have hlowers : ∀ {pc : Pc cfg}, w.threads thread = pc → pc.load w.table = { work := 1 } →
      Lowers w.table w.table ((w.threads thread).load w.table) ((Pc.idle : Pc cfg).load w.table) := by
    intro pc hpc hload
    rw [hpc, hload]
    exact .stays le_rfl le_rfl Nat.zero_lt_one
  unfold leave at hstep
  split at hstep <;> rename_i hpc
  · cases hstep
    exact rank_lt_of_thread hthread .idle rfl rfl (hlowers hpc rfl)
  · cases hstep
    exact rank_lt_of_thread hthread .idle rfl rfl (hlowers hpc rfl)
  · cases hstep
    exact rank_lt_of_thread hthread .idle rfl rfl (hlowers hpc rfl)
  · cases hstep
    exact rank_lt_of_thread hthread .idle rfl rfl (hlowers hpc rfl)
  · cases hstep

/-- A thread's own step leaves less to do. -/
theorem rank_lt_of_advance {bound : ℕ} (hfill : w.FillInv) (hthread : thread < bound)
    (hspurious : choice.spurious = false) (hstep : w.advance thread choice = some w') :
    w'.rank bound < w.rank bound := by
  have hdriven : ∀ slot fpc, (w.threads thread).fill = some (slot, fpc) →
      (w.table.slots slot).state = .filling := fun slot fpc hfills =>
    (hfill.driven (some thread) _ _ hfills).1
  unfold World.advance at hstep
  split at hstep
  · rename_i call pc hpc
    obtain ⟨⟨call', pc', u⟩, hresolve, rfl⟩ := Option.map_eq_some_iff.mp hstep
    obtain ⟨-, hthreads, hworker⟩ := resolveStep_move hfill.index hresolve
    have hlowers := resolveStep_lowers (fun i slot fpc heq => hdriven slot fpc (by
      rw [hpc, heq]
      rfl)) hspurious hresolve
    refine rank_lt_of_thread hthread (.resolving call' pc') ?_ hworker ?_
    · show Function.update u.threads thread _ = _
      rw [hthreads]
    · rw [hpc]
      exact hlowers
  · rename_i call outcome pc hpc
    obtain ⟨⟨outcome', pc', u⟩, hwait, rfl⟩ := Option.map_eq_some_iff.mp hstep
    obtain ⟨-, hthreads, hworker⟩ := waitStep_move hwait
    have hlowers := waitStep_lowers (fun i slot fpc heq => hdriven slot fpc (by
      rw [hpc, heq]
      rfl)) hspurious hwait
    refine rank_lt_of_thread hthread (.waiting call outcome' pc') ?_ hworker ?_
    · show Function.update u.threads thread _ = _
      rw [hthreads]
    · rw [hpc]
      exact hlowers
  · rename_i deadline pc hpc
    obtain ⟨pc', hdrain, rfl⟩ := Option.map_eq_some_iff.mp hstep
    refine rank_lt_of_thread hthread (.draining deadline pc') rfl rfl ?_
    rw [hpc]
    exact drainStep_lowers hspurious hdrain
  · cases hstep

/-- Going on leaves less to do. -/
theorem rank_lt_of_goes {bound : ℕ} (hfill : w.FillInv) (h : w.Bounded bound)
    (hstep : w.step action = some w') (hgoes : action.GoesOn w) : w'.rank bound < w.rank bound := by
  have hlt : ∀ thread, action.caller = some thread → thread < bound := fun _ =>
    lt_of_goesOn h hstep hgoes
  unfold step at hstep
  split_ifs at hstep
  cases action with
  | advance thread choice => exact rank_lt_of_advance hfill (hlt thread rfl) hgoes hstep
  | leave thread => exact rank_lt_of_leave (hlt thread rfl) hstep
  | work choice =>
      obtain ⟨⟨pc, t⟩, hwork, rfl⟩ := Option.map_eq_some_iff.mp hstep
      refine rank_lt_of_worker rfl (workerStep_lowers (fun slot fpc heq => ?_) hgoes hwork)
      refine (hfill.driven none slot fpc ?_).1
      show w.worker.fill = _
      rw [heq]
      rfl
  | deliver id status =>
      cases hstep
      obtain ⟨hid, hlive, hterminal⟩ := hgoes
      exact rank_lt_of_deliver hid hlive hterminal
  | _ => exact hgoes.elim

/-- No run goes on for ever. -/
theorem goes_not_endless {h : cfg.Accepted} (hw : Reachable World.step (World.start cfg h) w) :
    ¬ Endless Goes w := by
  obtain ⟨bound, hbound⟩ := bounded_of_reachable hw
  have hkeep : ∀ u u', Reachable World.step (World.start cfg h) u ∧ u.Bounded bound → Goes u u' →
      Reachable World.step (World.start cfg h) u' ∧ u'.Bounded bound := by
    rintro u u' ⟨hu, hb⟩ ⟨action, hgoes, hstep⟩
    exact ⟨hu.step trivial hstep, hb.goes (spanInv_of_reachable hu) hstep hgoes⟩
  have hless : ∀ u u', Reachable World.step (World.start cfg h) u ∧ u.Bounded bound → Goes u u' →
      rank bound u' < rank bound u := by
    rintro u u' ⟨hu, hb⟩ ⟨action, hgoes, hstep⟩
    exact rank_lt_of_goes (fillInv_of_reachable hu) hb hstep hgoes
  exact not_endless (rank bound) hkeep hless ⟨hw, hbound⟩

/-! ## What threads wait for -/

/-- The entry a waiting call has entered names a slot. -/
def EntersSlots (w : World cfg) : Prop :=
  ∀ thread call outcome pc, w.threads thread = .waiting call outcome pc → ∀ i ∈ pc.entered,
    (w.table.waiters call.record i).slot.isSome

/-- A call of `wait` enters entries that name slots. -/
theorem waitStep_enters {call : WaitCall cfg} {outcome outcome' : WaitOutcome} {pc pc' : WaitPc cfg}
    (hentered : ∀ i ∈ pc.entered, (w.table.waiters call.record i).slot.isSome)
    (h : w.waitStep call outcome choice pc = some (outcome', pc', u)) :
    ∀ i ∈ pc'.entered, (w.table.waiters call.record i).slot.isSome := by
  have hnone : ∀ {n}, ∀ i ∈ (WaitPc.entry n : WaitPc cfg).entered,
      (w.table.waiters call.record i).slot.isSome := fun i hi => by cases hi
  unfold waitStep at h
  cases pc with
  | entry n =>
      dsimp only at h
      split_ifs at h
      · split at h
        · cases h
          exact hnone
        · rename_i slot hslot
          have hsome : (w.table.waiters call.record n).slot.isSome := by
            rw [hslot]
            rfl
          split_ifs at h <;> cases h
          · exact hnone
          · rintro i hi
            cases hi
            exact hsome
          · rintro i hi
            cases hi
            exact hsome
          · exact hnone
      · cases h
        intro i hi
        cases hi
  | finishing n slot fpc =>
      dsimp only at h
      split at h <;> cases h <;> exact hentered
  | settle n =>
      dsimp only at h
      split at h <;> cases h
      exact hnone
  | asleep n since =>
      dsimp only at h
      split at h
      · split at h
        · cases h
        · split_ifs at h <;> cases h
          · exact hnone
          · exact hnone
          · exact hentered
      · cases h
  | returned => cases h

/-- The entry of the thread that acts. -/
theorem acted_enters (h : w.EntersSlots) (hkeeps : w.KeepsEntries w')
    (hstep : w.step action = some w') (hcaller : action.caller = some thread) :
    ∀ call outcome pc, w'.threads thread = .waiting call outcome pc → ∀ i ∈ pc.entered,
      (w'.table.waiters call.record i).slot.isSome := by
  have hmoved : ∀ {u v : World cfg} {pc : Pc cfg}, v = u.setThread thread pc →
      (∀ call outcome wpc, pc = .waiting call outcome wpc → ∀ i ∈ wpc.entered,
        (v.table.waiters call.record i).slot.isSome) →
      ∀ call outcome wpc, v.threads thread = .waiting call outcome wpc → ∀ i ∈ wpc.entered,
        (v.table.waiters call.record i).slot.isSome := by
    rintro u v pc rfl hpc call outcome wpc heq
    have heq : Function.update u.threads thread pc thread = .waiting call outcome wpc := heq
    rw [Function.update_self] at heq
    exact hpc call outcome wpc heq
  unfold step at hstep
  split_ifs at hstep
  cases action with
  | resolveInto k rows out outSize =>
      cases hcaller
      have hstep : w.callResolve thread rows out outSize = some w' := hstep
      unfold callResolve at hstep
      split at hstep
      · split_ifs at hstep <;> cases hstep <;> exact hmoved rfl fun _ _ _ heq => by cases heq
      · cases hstep
  | wait k v deadline =>
      cases hcaller
      have hstep : w.callWait thread v deadline = some w' := hstep
      unfold callWait at hstep
      split at hstep
      · split at hstep <;> cases hstep
        · exact hmoved rfl fun _ _ _ heq => by cases heq
        · refine hmoved rfl fun _ _ _ heq i hi => ?_
          cases heq
          cases hi
      · cases hstep
  | drain k deadline =>
      cases hcaller
      have hstep : w.callDrain thread deadline = some w' := hstep
      unfold callDrain at hstep
      split at hstep <;> cases hstep
      exact hmoved rfl fun _ _ _ heq => by cases heq
  | advance k choice =>
      cases hcaller
      have hstep : w.advance thread choice = some w' := hstep
      unfold World.advance at hstep
      split at hstep
      · obtain ⟨⟨call', pc', u⟩, -, rfl⟩ := Option.map_eq_some_iff.mp hstep
        exact hmoved rfl fun _ _ _ heq => by cases heq
      · rename_i call outcome pc hpc
        obtain ⟨⟨outcome', pc', u⟩, hwait, rfl⟩ := Option.map_eq_some_iff.mp hstep
        refine hmoved rfl fun call₁ _ _ heq i hi => ?_
        cases heq
        rw [hkeeps thread call outcome pc hpc]
        exact waitStep_enters (h thread call outcome pc hpc) hwait i hi
      · obtain ⟨pc', -, rfl⟩ := Option.map_eq_some_iff.mp hstep
        exact hmoved rfl fun _ _ _ heq => by cases heq
      · cases hstep
  | leave k =>
      cases hcaller
      have hstep : w.leave thread = some w' := hstep
      unfold leave at hstep
      split at hstep
      case h_5 => cases hstep
      all_goals
        cases hstep
        exact hmoved rfl fun _ _ _ heq => by cases heq
  | _ => cases hcaller

theorem entersSlots_of_reachable {h : cfg.Accepted}
    (hw : Reachable World.step (World.start cfg h) w) : w.EntersSlots := by
  have hknown : ∀ u, Reachable World.step (World.start cfg h) u → u.SpanInv ∧ u.TicketInv :=
    fun u hu => ⟨spanInv_of_reachable hu, ticketInv_of_reachable hu⟩
  have hstart : (World.start cfg h).EntersSlots := fun thread call outcome pc hpc => by cases hpc
  refine hw.invariant_of hknown hstart fun u action u' hinv hu _ hstep => ?_
  intro thread
  have hkeeps := (hinv.2.step hinv.1 hstep).2
  by_cases hcaller : action.caller = some thread
  · exact acted_enters hu hkeeps hstep hcaller
  · intro call outcome pc hpc i hi
    rw [((hinv.1.step hstep).2 thread hcaller).pc] at hpc
    rw [hkeeps thread call outcome pc hpc]
    exact hu thread call outcome pc hpc i hi

/-- Agents wait for requests that were accepted. -/
def WaitsForAccepted (w : World cfg) : Prop :=
  ∀ g slot pc, w.finisher g = some (slot, pc) → ∀ id ∈ pc.pending, id < w.table.requestCount

/-- One step of `finish_fill` waits for claims of the slot. -/
theorem finishStep_pending {t t' : Table cfg} {slot : cfg.SlotId} {deadline : Bool}
    {pc next : FinishPc} (h : t.finishStep slot deadline choice pc = some (some next, t')) :
    ∀ id ∈ next.pending, id ∈ (t.slots slot).claims ∨ id ∈ pc.pending := by
  cases pc with
  | enter =>
      unfold Table.finishStep at h
      dsimp only at h
      split_ifs at h <;> cases h
      intro id hid
      refine Or.inl ?_
      have hid : id ∈ t.awaited slot := hid
      unfold Table.awaited at hid
      dsimp only at hid
      unfold Slot.claims
      split_ifs at hid
      · exact List.mem_append_left _ hid
      · exact List.mem_append_right _ hid
  | waiting pending =>
      cases pending with
      | nil =>
          cases h
          intro id hid
          split_ifs at hid <;> cases hid
      | cons id rest =>
          unfold Table.finishStep at h
          dsimp only at h
          split at h
          · cases h
            exact fun id hid => Or.inr (List.mem_cons_of_mem _ hid)
          · cases h
            intro id hid
            cases hid
          · split_ifs at h
            cases h
            intro id hid
            cases hid
  | timedOut => cases h
  | convert =>
      cases h
      intro id hid
      cases hid
  | publish result => cases h

theorem waitsForAccepted_of_reachable {h : cfg.Accepted}
    (hw : Reachable World.step (World.start cfg h) w) : w.WaitsForAccepted := by
  have hknown : ∀ u, Reachable World.step (World.start cfg h) u → u.FillInv ∧ u.ClaimsInv :=
    fun u hu => ⟨fillInv_of_reachable hu, claimsInv_of_reachable hu⟩
  have hstart : (World.start cfg h).WaitsForAccepted := fun g slot pc hg => by cases g <;> cases hg
  refine hw.invariant_of hknown hstart fun u action u' hinv hu _ hstep => ?_
  intro g s pc hg id hid
  cases step_move hinv.1.index hstep with
  | edits htable hlocal hsame =>
      rw [hsame] at hg
      exact (hu g s pc hg id hid).trans_le htable.grows.count
  | tookOver k slot hagent hbefore hfilling hunclaimed htable hnow hothers =>
      rw [htable]
      by_cases hgk : g = k
      · rw [hgk, hnow] at hg
        cases hg
        cases hid
      · rw [hothers g hgk] at hg
        exact hu g s pc hg id hid
  | finishing k slot fpc next deadline choice hagent hbefore hfinish hnow hothers =>
      have hfilling := (hinv.1.driven k slot fpc hbefore).1
      have hcount : u'.table.requestCount = u.table.requestCount := by
        have hmove := Table.finishStep_move hfilling hfinish
        generalize u'.table = t' at hmove
        cases hmove <;> rfl
      rw [hcount]
      by_cases hgk : g = k
      · rw [hgk, hnow] at hg
        obtain ⟨pc', rfl, heq⟩ := Option.map_eq_some_iff.mp hg
        cases heq
        rcases finishStep_pending hfinish id hid with hclaim | hpending
        · exact hinv.2.claims.lt s id hclaim
        · exact hu k s fpc hbefore id hpending
      · rw [hothers g hgk] at hg
        exact hu g s pc hg id hid

/-! ## Where a step is possible -/

/-- `finish_fill` goes on once every request has been delivered. -/
theorem finishStep_isSome (hquiescent : w.Quiescent) {pc : FinishPc}
    (haccepted : ∀ id ∈ pc.pending, id < w.table.requestCount) (slot : cfg.SlotId)
    (deadline : Bool) (choice : Choice) :
    (w.table.finishStep slot deadline choice pc).isSome := by
  cases pc with
  | enter =>
      unfold Table.finishStep
      dsimp only
      split_ifs <;> rfl
  | waiting pending =>
      cases pending with
      | nil => rfl
      | cons id rest =>
          have hdelivered := hquiescent id (haccepted id List.mem_cons_self)
          unfold Table.finishStep
          dsimp only
          split
          · rfl
          · rfl
          · rename_i hnone
            exact absurd hnone hdelivered
  | _ => rfl

/-- `resolve_into` goes on unless it is asleep or has returned. -/
theorem resolveStep_isSome {call : ResolveCall} {pc : ResolvePc cfg} {fresh : Prop}
    (hcall : w.CallInv fresh call pc) (hquiescent : w.Quiescent)
    (haccepted : ∀ i slot fpc, pc = .finishing i slot fpc → ∀ id ∈ fpc.pending,
      id < w.table.requestCount)
    (hawake : ∀ i since, pc = .asleep i since → since < w.table.notifications)
    (hruns : ∀ result, pc ≠ .returned result) (choice : Choice) :
    (w.resolveStep call choice pc).isSome := by
  have hlease : w.Full fresh call → ∀ i < call.rows.length, ∃ l, w.leases (call.out + i) = some l :=
    fun hfull i hi => by
      obtain ⟨l, hl, -⟩ := hfull.taken i hi
      exact ⟨l, hl⟩
  unfold resolveStep
  cases pc with
  | releasing i =>
      dsimp only
      split_ifs <;> rfl
  | phaseA =>
      dsimp only
      split_ifs <;> rfl
  | unwind i count failure =>
      dsimp only
      split_ifs <;> rfl
  | drive i =>
      dsimp only
      split_ifs with hi
      · obtain ⟨l, hl⟩ := hlease hcall i hi
        rw [hl]
        dsimp only
        split_ifs <;> rfl
      · rfl
  | finishing i slot fpc =>
      dsimp only
      have hsome := finishStep_isSome hquiescent (haccepted i slot fpc rfl) slot false choice
      split
      · rename_i hnone
        rw [hnone] at hsome
        cases hsome
      · rfl
      · rfl
  | settle i =>
      obtain ⟨l, hl⟩ := hlease hcall.1 i hcall.2.1
      dsimp only
      rw [hl]
      rfl
  | asleep i since =>
      obtain ⟨l, hl⟩ := hlease hcall.1 i hcall.2
      dsimp only
      rw [if_pos (Or.inl (hawake i since rfl)), hl]
      dsimp only
      split_ifs <;> rfl
  | returned result => exact absurd rfl (hruns result)

/-- `wait` goes on unless it is asleep or has returned. -/
theorem waitStep_isSome {call : WaitCall cfg} {outcome : WaitOutcome} {pc : WaitPc cfg}
    (hentered : ∀ i ∈ pc.entered, (w.table.waiters call.record i).slot.isSome)
    (hquiescent : w.Quiescent)
    (haccepted : ∀ i slot fpc, pc = .finishing i slot fpc → ∀ id ∈ fpc.pending,
      id < w.table.requestCount)
    (hawake : ∀ i since, pc = .asleep i since → since < w.table.notifications)
    (hruns : pc ≠ .returned) (choice : Choice) :
    (w.waitStep call outcome choice pc).isSome := by
  have hslot : ∀ i ∈ pc.entered, ∃ slot, (w.table.waiters call.record i).slot = some slot :=
    fun i hi => Option.isSome_iff_exists.mp (hentered i hi)
  unfold waitStep
  cases pc with
  | entry i =>
      dsimp only
      split_ifs
      · split
        · rfl
        · split_ifs <;> rfl
      · rfl
  | finishing i slot fpc =>
      dsimp only
      have hsome := finishStep_isSome hquiescent (haccepted i slot fpc rfl) slot call.deadline choice
      split
      · rename_i hnone
        rw [hnone] at hsome
        cases hsome
      · rfl
      · rfl
  | settle i =>
      obtain ⟨slot, hs⟩ := hslot i rfl
      dsimp only
      rw [hs]
      rfl
  | asleep i since =>
      obtain ⟨slot, hs⟩ := hslot i rfl
      dsimp only
      rw [if_pos (Or.inl (hawake i since rfl)), hs]
      dsimp only
      split_ifs <;> rfl
  | returned => exact absurd rfl hruns

/-- `drain` goes on unless it is asleep or has returned. -/
theorem drainStep_isSome {t : Table cfg} {deadline : Bool} {pc : DrainPc}
    (hawake : ∀ since, pc = .asleep since → since < t.notifications)
    (hruns : ∀ result, pc ≠ .returned result) (choice : Choice) :
    (drainStep t deadline choice pc).isSome := by
  unfold drainStep
  cases pc with
  | start =>
      dsimp only
      split_ifs <;> rfl
  | asleep since =>
      dsimp only
      rw [if_pos (Or.inl (hawake since rfl))]
      split_ifs <;> rfl
  | returned result => exact absurd rfl (hruns result)

/-- The worker goes on unless it is asleep. -/
theorem workerStep_isSome {pc : WorkerPc cfg} (hquiescent : w.Quiescent)
    (haccepted : ∀ slot fpc, pc = .finishing slot fpc → ∀ id ∈ fpc.pending,
      id < w.table.requestCount)
    (hawake : ∀ since, pc = .asleep since → since < w.table.notifications) (choice : Choice) :
    (workerStep w.table choice pc).isSome := by
  unfold workerStep
  cases pc with
  | scan =>
      dsimp only
      split <;> rfl
  | finishing slot fpc =>
      dsimp only
      have hsome := finishStep_isSome hquiescent (haccepted slot fpc rfl) slot false choice
      split
      · rename_i hnone
        rw [hnone] at hsome
        cases hsome
      · rfl
      · rfl
  | asleep since =>
      dsimp only
      rw [if_pos (Or.inl (hawake since rfl))]
      rfl

/-! ## Where nothing goes on -/

namespace Stuck

/-- What goes on cannot happen. -/
theorem act_eq_none (h : w.Stuck) (hlives : w.crashed = false) (action : Action cfg)
    (hgoes : action.GoesOn w) :
    w.act action = none := by
  have hnone := h action hgoes
  unfold step at hnone
  rwa [hlives] at hnone

/-- Every accepted request has been delivered. -/
theorem quiescent (h : w.Stuck) (hlives : w.crashed = false) : w.Quiescent := by
  intro id hid hlive
  have hterminal : MemStatus.ok.Terminal := by decide
  cases h.act_eq_none hlives (.deliver id .ok) ⟨hid, hlive, hterminal⟩

/-- The worker sleeps. -/
theorem worker (h : w.Stuck) (hlives : w.crashed = false) (haccepted : w.WaitsForAccepted)
    (hwake : w.WakeInv) : w.worker = .asleep w.table.notifications := by
  have hquiescent := h.quiescent hlives
  by_contra hawake
  have hsome : (workerStep w.table {} w.worker).isSome := by
    refine workerStep_isSome hquiescent (fun slot fpc heq => haccepted none slot fpc ?_)
      (fun since heq => ?_) {}
    · show w.worker.fill = _
      rw [heq]
      rfl
    · have hwaits := hwake.worker
      rw [heq] at hwaits hawake
      refine lt_of_le_of_ne hwaits.1 fun hsince => hawake ?_
      rw [hsince]
  have hnone := h.act_eq_none hlives (.work {}) rfl
  obtain ⟨⟨pc, t⟩, hwork⟩ := Option.isSome_iff_exists.mp hsome
  have hnone : (workerStep w.table {} w.worker).map _ = none := hnone
  rw [hwork] at hnone
  cases hnone

/-- A thread in a call sleeps, and has seen every notification. -/
theorem sleeps (h : w.Stuck) (hlives : w.crashed = false) {fresh : Prop} (hcalls : w.CallsInv fresh)
    (haccepted : w.WaitsForAccepted) (hentered : w.EntersSlots) (hwake : w.WakeInv)
    (hcall : w.threads thread ≠ .idle) :
    (w.threads thread).asleepSince = some w.table.notifications := by
  have hquiescent := h.quiescent hlives
  have hadvance : w.advance thread {} = none :=
    h.act_eq_none hlives (.advance thread {}) rfl
  have hleave : w.leave thread = none := h.act_eq_none hlives (.leave thread) trivial
  have hsleeps := hwake.threads thread
  by_contra hawake
  unfold World.advance at hadvance
  unfold leave at hleave
  cases hpc : w.threads thread with
  | idle => exact hcall hpc
  | refused status =>
      rw [hpc] at hleave
      cases hleave
  | resolving call pc =>
      rw [hpc] at hadvance hleave hsleeps hawake
      have hsome : (w.resolveStep call {} pc).isSome := by
        refine resolveStep_isSome (hcalls.call thread call pc hpc) hquiescent
          (fun i slot fpc heq => haccepted (some thread) slot fpc ?_) (fun i since heq => ?_)
          (fun result heq => ?_) {}
        · show (w.threads thread).fill = _
          rw [hpc, heq]
          rfl
        · rw [heq] at hsleeps hawake
          exact lt_of_le_of_ne hsleeps.1 fun hsince => hawake (congrArg some hsince)
        · rw [heq] at hleave
          cases hleave
      obtain ⟨step, hstep⟩ := Option.isSome_iff_exists.mp hsome
      have hadvance : (w.resolveStep call {} pc).map _ = none := hadvance
      rw [hstep] at hadvance
      cases hadvance
  | waiting call outcome pc =>
      rw [hpc] at hadvance hleave hsleeps hawake
      have hsome : (w.waitStep call outcome {} pc).isSome := by
        refine waitStep_isSome (hentered thread call outcome pc hpc) hquiescent
          (fun i slot fpc heq => haccepted (some thread) slot fpc ?_) (fun i since heq => ?_)
          (fun heq => ?_) {}
        · show (w.threads thread).fill = _
          rw [hpc, heq]
          rfl
        · rw [heq] at hsleeps hawake
          exact lt_of_le_of_ne hsleeps.1 fun hsince => hawake (congrArg some hsince)
        · rw [heq] at hleave
          cases hleave
      obtain ⟨step, hstep⟩ := Option.isSome_iff_exists.mp hsome
      have hadvance : (w.waitStep call outcome {} pc).map _ = none := hadvance
      rw [hstep] at hadvance
      cases hadvance
  | draining deadline pc =>
      rw [hpc] at hadvance hleave hsleeps hawake
      have hsome : (drainStep w.table deadline {} pc).isSome := by
        refine drainStep_isSome (fun since heq => ?_) (fun result heq => ?_) {}
        · rw [heq] at hsleeps hawake
          exact lt_of_le_of_ne hsleeps.1 fun hsince => hawake (congrArg some hsince)
        · rw [heq] at hleave
          cases hleave
      obtain ⟨step, hstep⟩ := Option.isSome_iff_exists.mp hsome
      have hadvance : (drainStep w.table deadline {} pc).map _ = none := hadvance
      rw [hstep] at hadvance
      cases hadvance

/-- No fill is left. -/
theorem not_filling (hdriven : w.DrivenInv) (hwake : w.WakeInv)
    (hworker : w.worker = .asleep w.table.notifications)
    (hsleeps : ∀ thread, w.threads thread ≠ .idle →
      (w.threads thread).asleepSince = some w.table.notifications) (slot : cfg.SlotId) :
    (w.table.slots slot).state ≠ .filling := by
  intro hfilling
  have hclaimed : w.table.AllClaimed := by
    have hwaits := hwake.worker
    rw [hworker] at hwaits
    exact hwaits.2 rfl
  -- Somebody would be driving it, but the worker and all threads in calls are asleep.
  obtain ⟨g, pc, hg⟩ := hdriven slot ⟨hfilling, hclaimed slot hfilling⟩
  cases g with
  | none =>
      have hg : w.worker.fill = _ := hg
      rw [hworker] at hg
      cases hg
  | some thread =>
      have hg : (w.threads thread).fill = _ := hg
      have hcall : w.threads thread ≠ .idle := fun hidle => by
        rw [hidle] at hg
        cases hg
      rw [Pc.fill_of_asleep (hsleeps thread hcall)] at hg
      cases hg

/-- No thread is asleep, since nothing is left to sleep for. -/
theorem idle (hwake : w.WakeInv) (hslots : ∀ slot, (w.table.slots slot).state ≠ .filling)
    (hinFlight : w.table.inFlight = 0) (hsleeps : w.threads thread ≠ .idle →
      (w.threads thread).asleepSince = some w.table.notifications) : w.threads thread = .idle := by
  by_contra hcall
  have hasleep := hsleeps hcall
  have hreason := hwake.threads thread
  cases hpc : w.threads thread with
  | resolving call pc =>
      rw [hpc] at hasleep hreason
      cases pc with
      | asleep i since =>
          obtain ⟨l, -, hfilling⟩ := hreason.2 (Option.some.inj hasleep)
          exact hslots l.slot hfilling.1
      | _ => cases hasleep
  | waiting call outcome pc =>
      rw [hpc] at hasleep hreason
      cases pc with
      | asleep i since =>
          obtain ⟨slot, -, hfilling⟩ := hreason.2 (Option.some.inj hasleep)
          exact hslots slot hfilling.1
      | _ => cases hasleep
  | draining deadline pc =>
      rw [hpc] at hasleep hreason
      cases pc with
      | asleep since => exact hreason.2 (Option.some.inj hasleep) hinFlight
      | _ => cases hasleep
  | _ =>
      rw [hpc] at hasleep
      cases hasleep

end Stuck

/-- A machine with room for its leases is at rest where nothing goes on. -/
theorem atRest_of_stuck {h : cfg.Accepted}
    (hw : Reaches World.step LeaseRoom (World.start cfg h) w) (hstuck : w.Stuck) : w.AtRest := by
  have hlives := lives_of_room hw
  have hwake := wakeInv_of_reachable hw.reachable
  have haccepted := waitsForAccepted_of_reachable hw.reachable
  have hworker := hstuck.worker hlives haccepted hwake
  have hsleeps : ∀ thread, w.threads thread ≠ .idle →
      (w.threads thread).asleepSince = some w.table.notifications := fun thread =>
    hstuck.sleeps hlives (callsInv_of_room hw) haccepted (entersSlots_of_reachable hw.reachable)
      hwake
  have hslots := Stuck.not_filling (drivenInv_of_reachable hw.reachable) hwake hworker hsleeps
  have hinFlight : w.table.inFlight = 0 := by
    rw [← UInt32.toNat_inj, (bookInv_of_reachable hw.reachable).inFlight]
    exact tally_eq_zero hslots
  exact ⟨fun thread => Stuck.idle hwake hslots hinFlight (hsleeps thread), hslots, hinFlight,
    hworker, hstuck.quiescent hlives⟩

/-- However threads, worker and transport take turns, calls return: no run that goes on is endless,
and where it cannot go on every call has returned and no row is being filled. -/
theorem calls_return {h : cfg.Accepted}
    (hw : Reaches World.step LeaseRoom (World.start cfg h) w) :
    ¬ Endless Goes w ∧ (w.Stuck → w.AtRest) :=
  ⟨goes_not_endless hw.reachable, atRest_of_stuck hw⟩

end World

/-- One thread waits for a prefetched row, another resolves it, a third drains; the worker has
taken the fill over. -/
def threeCallsRun : List (Action twoShards) :=
  [.prefetch [0] 0 fun _ => {}, .work {}, .wait 0 0 false, .resolveInto 1 [0] 0 1, .drain 2 true,
    .advance 0 {}, .advance 1 {}, .advance 1 {}, .advance 1 {}, .advance 1 {}, .advance 2 {}]

/-- All three calls sleep, and they return. -/
theorem calls_return_three :
    ∃ w, exec World.step threeCallsRun (World.start twoShards twoShards_accepted) = some w ∧
      (∀ thread < 3, (w.threads thread).asleepSince.isSome) ∧
      ¬ Endless World.Goes w ∧ (w.Stuck → w.AtRest) := by
  have hrun : (exec World.step threeCallsRun (World.start twoShards twoShards_accepted)).any
      fun w => ∀ thread < 3, (w.threads thread).asleepSince.isSome := by
    decide +kernel
  have hallowed : AllAllowed World.step World.LeaseRoom threeCallsRun
      (World.start twoShards twoShards_accepted) := by
    decide +kernel
  obtain ⟨w, hw, hasleep⟩ := (Option.any_eq_true _ _).mp hrun
  exact ⟨w, hw, of_decide_eq_true hasleep,
    World.calls_return (reaches_of_exec .start hallowed hw)⟩

end TieredCache
