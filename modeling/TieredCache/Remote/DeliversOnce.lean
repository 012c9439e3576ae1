/-
# Runs of a mirror backend

No signal is lost, every step of a worker or of `shutdown` brings the backend closer to having
delivered everything, and nothing is delivered after `shutdown` has returned.
-/

import Mathlib.Algebra.BigOperators.Group.Finset.Piecewise
import TieredCache.Remote.BackendCounters

namespace TieredCache.Remote

open Math Math.Runs

variable {cfg : MirrorBackendConfig}

namespace BackendWorld

variable {w w' : BackendWorld cfg}

/-! ## Threads -/

/-- Where the threads are.  A worker sleeps only while it may be woken, and one of them is awake
while the queue is not empty. -/
structure Threads (w : BackendWorld cfg) : Prop where
  exited : ∀ i, w.workers i = .exited → w.backend.shuttingDown = true
  asleep : ∀ i, w.workers i = .asleep → w.backend.shuttingDown = false
  drained : w.backend.shuttingDown = true → w.backend.ring.items = []
  shutdown : w.backend.shuttingDown = true ↔ w.shutdown ≠ .idle
  returned : w.shutdown = .returned → ∀ i, w.workers i = .exited
  roused : w.backend.ring.items ≠ [] → ∃ i, w.workers i ≠ .asleep

/-- One worker goes on, to sleep or away only from an empty queue. -/
theorem Threads.setWorker (h : w.Threads) {i : Fin cfg.workers.toNat} {p : WorkerPc}
    (hold : w.workers i ≠ .exited)
    (hexited : p = .exited → w.backend.shuttingDown = true)
    (hasleep : p = .asleep →
      w.backend.shuttingDown = false ∧ w.backend.ring.items = []) :
    (w.setWorker i p).Threads where
  exited := by
    intro j hj
    by_cases hji : j = i
    · subst hji
      rw [workers_setWorker, Function.update_self] at hj
      exact hexited hj
    · rw [workers_setWorker, Function.update_of_ne hji] at hj
      exact h.exited j hj
  asleep := by
    intro j hj
    by_cases hji : j = i
    · subst hji
      rw [workers_setWorker, Function.update_self] at hj
      exact (hasleep hj).1
    · rw [workers_setWorker, Function.update_of_ne hji] at hj
      exact h.asleep j hj
  drained := h.drained
  shutdown := h.shutdown
  returned := fun hreturned => (hold (h.returned hreturned i)).elim
  roused := by
    intro hring
    refine ⟨i, fun hi => ?_⟩
    rw [workers_setWorker, Function.update_self] at hi
    exact hring (hasleep hi).2

/-- What the mutex guards changes, but not whether it is being shut down. -/
theorem Threads.backend (h : w.Threads) {b : MirrorBackend cfg}
    (hdown : b.shuttingDown = w.backend.shuttingDown) (hring : b.ring = w.backend.ring) :
    Threads { w with backend := b } := by
  obtain ⟨hexited, hasleep, hdrained, hshutdown, hreturned, hroused⟩ := h
  rw [← hdown] at hexited hasleep hdrained hshutdown
  rw [← hring] at hdrained hroused
  exact ⟨hexited, hasleep, hdrained, hshutdown, hreturned, hroused⟩

/-- A thread that delivers does nothing else. -/
theorem Threads.deliver (h : w.Threads) (item : WorkItem) (completion : Completion) :
    (w.deliver item completion).Threads :=
  ⟨h.exited, h.asleep, h.drained, h.shutdown, h.returned, h.roused⟩

/-- The call of `shutdown` goes on. -/
theorem Threads.setShutdown (h : w.Threads) {p : ShutdownPc} (hold : w.shutdown ≠ .idle)
    (hnew : p ≠ .idle) (hreturned : p = .returned → ∀ i, w.workers i = .exited) :
    Threads { w with shutdown := p } :=
  ⟨h.exited, h.asleep, h.drained,
    ⟨fun _ => hnew, fun _ => h.shutdown.mpr hold⟩, hreturned, h.roused⟩

/-- After a signal some worker is not asleep. -/
theorem Notified.roused {workers : Fin cfg.workers.toNat → WorkerPc} (h : Notified w workers)
    (hworkers : cfg.workers ≠ 0) : ∃ i, workers i ≠ .asleep := by
  cases h with
  | @one i hi => exact ⟨i, by simp⟩
  | none hawake =>
      have hpos : 0 < cfg.workers.toNat :=
        Nat.pos_of_ne_zero fun hzero => hworkers (UInt32.toNat_inj.mp hzero)
      exact ⟨⟨0, hpos⟩, hawake _⟩

/-- A signal sends no worker to sleep or away. -/
theorem Notified.kept {workers : Fin cfg.workers.toNat → WorkerPc} (h : Notified w workers)
    {i : Fin cfg.workers.toNat} {pc : WorkerPc} (hpc : pc ≠ .awake) (hi : workers i = pc) :
    w.workers i = pc := by
  cases h with
  | @one j hj =>
      by_cases hij : i = j
      · subst hij
        rw [Function.update_self] at hi
        exact (hpc hi.symm).elim
      · rwa [Function.update_of_ne hij] at hi
  | none => exact hi

theorem Threads.moved (hcfg : cfg.Accepted) (h : w.Threads) (hmoved : Moved w w') :
    w'.Threads := by
  cases hmoved with
  | refuse request => exact ⟨h.exited, h.asleep, h.drained, h.shutdown, h.returned, h.roused⟩
  | @accept request ring workers hopen hring hworkers =>
      have hshutdown : w.shutdown = .idle := by
        by_contra hbegun
        rw [h.shutdown.mpr hbegun] at hopen
        cases hopen
      refine ⟨fun i hi => h.exited i (hworkers.kept (by simp) hi),
        fun i hi => h.asleep i (hworkers.kept (by simp) hi), fun hdown => ?_, h.shutdown,
        fun hreturned => ?_, fun _ => hworkers.roused hcfg.workers⟩
      · change w.backend.shuttingDown = true at hdown
        rw [hopen] at hdown
        cases hdown
      · change w.shutdown = .returned at hreturned
        rw [hshutdown] at hreturned
        cases hreturned
  | register source mirror =>
      obtain ⟨hring, _, hdown⟩ := w.backend.registerMirror_same source mirror
      exact h.backend hdown hring
  | @rest i hpc hring =>
      apply h.setWorker (by rw [hpc]; simp)
      · intro hexited
        split_ifs at hexited with hdown
        exact hdown
      · intro hasleep
        split_ifs at hasleep with hdown
        exact ⟨Bool.not_eq_true _ ▸ hdown, hring⟩
  | @take i item ring hpc hring =>
      have hopen : w.backend.shuttingDown = false := by
        by_contra hdown
        rw [Bool.not_eq_false] at hdown
        rw [h.drained hdown] at hring
        cases hring
      have hset := h.setWorker (i := i) (p := .performing item) (by rw [hpc]; simp)
        (fun heq => by cases heq) (fun heq => by cases heq)
      refine ⟨hset.exited, hset.asleep, fun hdown => ?_, hset.shutdown, hset.returned,
        fun _ => ⟨i, by simp⟩⟩
      change w.backend.shuttingDown = true at hdown
      rw [hopen] at hdown
      cases hdown
  | @deliver i item hpc outcome =>
      apply (h.deliver item _).setWorker
      · change w.workers i ≠ .exited
        rw [hpc]
        simp
      · intro heq
        cases heq
      · intro heq
        cases heq
  | @record i item completion hpc =>
      have hset := h.setWorker (i := i) (p := .awake) (by rw [hpc]; simp)
        (fun heq => by cases heq) (fun heq => by cases heq)
      exact hset.backend rfl rfl
  | @wake i hpc =>
      exact h.setWorker (by rw [hpc]; simp) (fun heq => by cases heq) (fun heq => by cases heq)
  | shutdown hpc hring =>
      refine ⟨fun _ _ => rfl, fun i hi => ?_, fun _ => hring, ?_, (fun heq => by cases heq),
        fun hne => (hne hring).elim⟩
      · change w.notifyAll i = .asleep at hi
        unfold notifyAll at hi
        split_ifs at hi with hasleep
        exact (hasleep hi).elim
      · exact ⟨fun _ => by simp, fun _ => rfl⟩
  | drained hpc =>
      exact h.setShutdown (by rw [hpc]; simp) (by simp) (fun heq => by cases heq)
  | cancel hpc =>
      exact (h.deliver _ _).setShutdown (by change w.shutdown ≠ .idle; rw [hpc]; simp) (by simp)
        (fun heq => by cases heq)
  | @countCancelled rest hpc =>
      have hset := h.setShutdown (p := .delivering rest) (by rw [hpc]; simp) (by simp)
        (fun heq => by cases heq)
      exact hset.backend rfl rfl
  | joined hpc hexited =>
      exact h.setShutdown (by rw [hpc]; simp) (by simp) (fun _ => hexited)

theorem start_threads (h : cfg.Accepted) : (start cfg h).Threads where
  exited := fun i hi => by cases hi
  asleep := fun i hi => by cases hi
  drained := fun _ => rfl
  shutdown := ⟨fun hdown => (Bool.false_ne_true hdown).elim, fun hbegun => (hbegun rfl).elim⟩
  returned := fun hreturned => by cases hreturned
  roused := fun hring => (hring rfl).elim

/-! ## Progress -/

/-- How much a worker has left to do with its item. -/
def weight : WorkerPc → ℕ
  | .performing _ => 3
  | .recording _ _ => 2
  | .awake => 1
  | .asleep => 0
  | .exited => 0

/-- How much `shutdown` has left to do. -/
def shutdownWeight : ShutdownPc → ℕ
  | .delivering queued => 2 * queued.length + 2
  | .counting queued => 2 * queued.length + 3
  | .joining => 1
  | .idle => 0
  | .returned => 0

/-- How much the threads have left to do. -/
def pending (w : BackendWorld cfg) : ℕ :=
  4 * w.backend.ring.items.length + (∑ i, weight (w.workers i)) + shutdownWeight w.shutdown

/-- Moving one worker changes the sum by what that worker gains or loses. -/
theorem sum_weight_setWorker {i : Fin cfg.workers.toNat} {p : WorkerPc} {m n : ℕ}
    (hold : weight (w.workers i) = m) (hnew : weight p = n) :
    (∑ j, weight ((w.setWorker i p).workers j)) + m =
      (∑ j, weight (w.workers j)) + n := by
  have hcomp : ∀ j, weight ((w.setWorker i p).workers j) =
      Function.update (fun j => weight (w.workers j)) i (weight p) j := by
    intro j
    rw [workers_setWorker]
    exact congrFun (Function.comp_update weight w.workers i p) j
  rw [← hold, ← hnew, Finset.sum_congr rfl fun j _ => hcomp j,
    Finset.sum_update_of_mem (Finset.mem_univ i),
    ← Finset.add_sum_erase Finset.univ (fun j => weight (w.workers j)) (Finset.mem_univ i),
    Finset.sdiff_singleton_eq_erase]
  omega

/-- What a thread of the backend does by itself, when it is its turn. -/
inductive Internal : BackendAction cfg → Prop
  | work (i : Fin cfg.workers.toNat) (outcome : ReadOutcome) : Internal (.work i outcome)
  | advance : Internal .advance

theorem work_pending {i : Fin cfg.workers.toNat} {outcome : ReadOutcome}
    (h : w.work i outcome = some w') : w'.pending < w.pending := by
  unfold work at h
  cases hpc : w.workers i with
  | awake =>
      simp only [hpc] at h
      cases hpop : w.backend.ring.pop with
      | none =>
          simp only [hpop] at h
          cases h
          have hsum := sum_weight_setWorker (w := w) (i := i) (m := 1) (n := 0)
            (p := if w.backend.shuttingDown then .exited else .asleep)
            (by rw [hpc]; rfl) (by split_ifs <;> rfl)
          simp only [pending, setWorker] at hsum ⊢
          omega
      | some taken =>
          simp only [hpop] at h
          cases h
          have hsum := sum_weight_setWorker (w := w) (i := i) (p := .performing taken.1)
            (m := 1) (n := 3) (by rw [hpc]; rfl) rfl
          have hitems := congrArg List.length (Ring.items_pop hpop)
          rw [List.length_cons] at hitems
          simp only [pending, setWorker, MirrorBackend.begin] at hsum ⊢
          omega
  | performing item =>
      simp only [hpc] at h
      cases h
      have hsum := sum_weight_setWorker (w := w) (i := i) (m := 3) (n := 2)
        (p := .recording item (item.performed outcome)) (by rw [hpc]; rfl) rfl
      simp only [pending, setWorker, deliver] at hsum ⊢
      omega
  | recording item completion =>
      simp only [hpc] at h
      cases h
      have hsum := sum_weight_setWorker (w := w) (i := i) (p := .awake) (m := 2) (n := 1)
        (by rw [hpc]; rfl) rfl
      simp only [pending, setWorker, MirrorBackend.record] at hsum ⊢
      omega
  | asleep =>
      simp only [hpc] at h
      cases h
  | exited =>
      simp only [hpc] at h
      cases h

theorem advance_pending (h : w.advance = some w') : w'.pending < w.pending := by
  unfold advance at h
  cases hpc : w.shutdown with
  | idle =>
      simp only [hpc] at h
      cases h
  | delivering queued =>
      cases queued with
      | nil =>
          simp only [hpc] at h
          cases h
          simp [pending, hpc, shutdownWeight]
      | cons item rest =>
          simp only [hpc] at h
          cases h
          simp only [pending, deliver, hpc, shutdownWeight, List.length_cons]
          omega
  | counting rest =>
      simp only [hpc] at h
      cases h
      simp [pending, hpc, shutdownWeight, MirrorBackend.recordCancelled]
  | joining =>
      simp only [hpc, Option.ite_none_right_eq_some, Option.some.injEq] at h
      obtain ⟨_, rfl⟩ := h
      simp [pending, hpc, shutdownWeight]
  | returned =>
      simp only [hpc] at h
      cases h

/-- A step of the threads leaves less to do. -/
theorem Internal.pending {a : BackendAction cfg} (ha : Internal a) (h : w.step a = some w') :
    w'.pending < w.pending := by
  cases ha with
  | work i outcome => exact work_pending h
  | advance => exact advance_pending h

/-- No thread of the backend can go on. -/
def Stuck (w : BackendWorld cfg) : Prop := ∀ a : BackendAction cfg, Internal a → w.step a = none

/-- A worker that cannot go on is asleep or gone. -/
theorem Stuck.worker (h : w.Stuck) (i : Fin cfg.workers.toNat) :
    w.workers i = .asleep ∨ w.workers i = .exited := by
  have hnone : w.work i ⟨.ok, 0⟩ = none := h _ (.work i ⟨.ok, 0⟩)
  unfold work at hnone
  cases hpc : w.workers i with
  | awake =>
      simp only [hpc] at hnone
      cases hpop : w.backend.ring.pop <;> simp [hpop] at hnone
  | performing item => simp [hpc] at hnone
  | recording item completion => simp [hpc] at hnone
  | asleep => exact Or.inl rfl
  | exited => exact Or.inr rfl

/-- Threads that cannot go on have nothing left to do. -/
theorem Threads.stuck (h : w.Threads) (hstuck : w.Stuck) :
    w.backend.ring.items = [] ∧ (w.shutdown = .idle ∨ w.shutdown = .returned) := by
  have hring : w.backend.ring.items = [] := by
    by_contra hne
    obtain ⟨i, hi⟩ := h.roused hne
    rcases hstuck.worker i with hasleep | hexited
    · exact hi hasleep
    · exact hne (h.drained (h.exited i hexited))
  refine ⟨hring, ?_⟩
  have hnone : w.advance = none := hstuck _ .advance
  unfold advance at hnone
  cases hpc : w.shutdown with
  | idle => exact Or.inl rfl
  | delivering queued => cases queued <;> simp [hpc] at hnone
  | counting rest => simp [hpc] at hnone
  | joining =>
      have hexited : ∀ i, w.workers i = .exited := by
        intro i
        rcases hstuck.worker i with hasleep | hexited
        · have hdown : w.backend.shuttingDown = true := h.shutdown.mpr (by rw [hpc]; simp)
          rw [h.asleep i hasleep] at hdown
          cases hdown
        · exact hexited
      simp only [hpc, if_pos hexited] at hnone
      cases hnone
  | returned => exact Or.inr rfl

/-! ## After `shutdown` -/

/-- Nothing is delivered any more. -/
theorem Threads.returned_moved (h : w.Threads) (hreturned : w.shutdown = .returned)
    (hmoved : Moved w w') : w'.shutdown = .returned ∧ w'.deliveries = w.deliveries := by
  have hexited := h.returned hreturned
  cases hmoved with
  | refuse request => exact ⟨hreturned, rfl⟩
  | accept hopen hring hworkers => exact ⟨hreturned, rfl⟩
  | register source mirror => exact ⟨hreturned, rfl⟩
  | rest hpc hring => exact ⟨hreturned, rfl⟩
  | take hpc hring => exact ⟨hreturned, rfl⟩
  | @deliver i item hpc outcome =>
      rw [hexited i] at hpc
      cases hpc
  | record hpc => exact ⟨hreturned, rfl⟩
  | wake hpc => exact ⟨hreturned, rfl⟩
  | shutdown hpc hring =>
      rw [hreturned] at hpc
      cases hpc
  | drained hpc =>
      rw [hreturned] at hpc
      cases hpc
  | cancel hpc =>
      rw [hreturned] at hpc
      cases hpc
  | countCancelled hpc =>
      rw [hreturned] at hpc
      cases hpc
  | joined hpc _ =>
      rw [hreturned] at hpc
      cases hpc

theorem Threads.returned_reachable (hcfg : cfg.Accepted) (h : w.Threads)
    (hreturned : w.shutdown = .returned) (hw : Reachable step w w') :
    w'.deliveries = w.deliveries := by
  have hall : w'.Threads ∧ w'.shutdown = .returned ∧ w'.deliveries = w.deliveries := by
    induction hw with
    | start => exact ⟨h, hreturned, rfl⟩
    | step _ _ hstep ih =>
        obtain ⟨hthreads, hu, hsame⟩ := ih
        have hmoved := step_moved hstep
        obtain ⟨hnext, hdeliveries⟩ := hthreads.returned_moved hu hmoved
        exact ⟨hthreads.moved hcfg hmoved, hnext, hdeliveries.trans hsame⟩
  exact hall.2.2

/-! ## Exactly once -/

/-- What holds at any time: what is delivered is owed, nothing is delivered twice, and requests
leave the queue in the order in which they were submitted. -/
structure DeliversOnce (w : BackendWorld cfg) : Prop where
  owed : ∀ delivery ∈ w.deliveries, delivery.Owed w.submitted
  once : (w.deliveries.map (·.number)).Nodup
  order : w.left <+: acceptedNumbers w.submitted

/-- Every accepted request has been delivered once, and no other one. -/
def AllDelivered (w : BackendWorld cfg) : Prop :=
  ∀ n submission, w.submitted[n]? = some submission →
    (w.deliveries.map (·.number)).count n = if submission.accepted then 1 else 0

/-- What holds when `shutdown` has returned. -/
structure Settled (w : BackendWorld cfg) : Prop where
  delivered : w.AllDelivered
  final : ∀ w', Reachable step w w' → w'.deliveries = w.deliveries
  counters : w.backend.stats.accepted =
    w.backend.stats.completedOk + w.backend.stats.shortReads + w.backend.stats.errors +
      w.backend.stats.cancelled
  inFlight : w.backend.stats.inFlight = 0

theorem allDelivered_of_perm
    (h : (w.deliveries.map (·.number)).Perm (acceptedNumbers w.submitted)) : w.AllDelivered := by
  intro n submission hn
  rw [h.count_eq n, (nodup_acceptedNumbers w.submitted).count]
  have hiff : n ∈ acceptedNumbers w.submitted ↔ submission.accepted = true := by
    rw [mem_acceptedNumbers, hn]
    simp
  by_cases haccepted : submission.accepted = true
  · rw [if_pos (hiff.mpr haccepted), if_pos haccepted]
  · rw [if_neg (mt hiff.mp haccepted), if_neg haccepted]

/-- Any run of a backend delivers every accepted request at most once; its threads come to rest,
and then everything has been delivered; and when `shutdown` has returned, everything is settled. -/
theorem backend_delivers_once (h : cfg.Accepted) (hw : Reachable step (start cfg h) w) :
    w.DeliversOnce ∧
      (∀ a w', Internal a → w.step a = some w' → w'.pending < w.pending) ∧
      (w.Stuck → w.AllDelivered ∧ (w.shutdown = .idle ∨ w.shutdown = .returned)) ∧
      (w.shutdown = .returned → w.Settled) := by
  have howners := reachable_invariant hw (start_owners h) Owners.moved
  have haccount := reachable_invariant hw (start_account h) Account.moved
  have hcounted := reachable_invariant hw (start_counted h) Counted.moved
  have hthreads := reachable_invariant hw (start_threads h) (Threads.moved h)
  refine ⟨⟨howners.deliveries, haccount.nodup, ?_⟩, fun a w' ha hstep => ha.pending hstep,
    fun hstuck => ?_, fun hreturned => ?_⟩
  · rw [← haccount.order]
    exact List.prefix_append _ _
  · obtain ⟨hring, hshutdown⟩ := hthreads.stuck hstuck
    refine ⟨allDelivered_of_perm (haccount.perm hring (fun i => ?_) ?_), hshutdown⟩
    · rcases hstuck.worker i with hi | hi <;> rw [hi] <;> rfl
    · rcases hshutdown with hidle | hreturned
      · rw [hidle]
        rfl
      · rw [hreturned]
        rfl
  · have hexited := hthreads.returned hreturned
    have hdown : w.backend.shuttingDown = true := hthreads.shutdown.mpr (by rw [hreturned]; simp)
    have hperm := haccount.perm (hthreads.drained hdown) (fun i => by rw [hexited i]; rfl)
      (by rw [hreturned]; rfl)
    have huncounted : w.uncounted = 0 := Math.Tally.tally_eq_zero fun i hi => by
      rw [hexited i] at hi
      cases hi
    have hbusy : w.busy = 0 := Math.Tally.tally_eq_zero fun i hi => by
      rw [hexited i] at hi
      rcases hi with hi | hi <;> cases hi
    have hlength : (acceptedNumbers w.submitted).length = w.deliveries.length := by
      rw [← hperm.length_eq, List.length_map]
    refine ⟨allDelivered_of_perm hperm,
      fun w' hw' => hthreads.returned_reachable h hreturned hw', ?_, ?_⟩
    · have hfinished := hcounted.finished
      rw [huncounted, hreturned, ← hlength, ← hcounted.accepted] at hfinished
      exact (UInt64.add_zero _).symm.trans hfinished |>.symm
    · rw [hcounted.inFlight, hbusy]
      rfl

/-- One worker and a queue of one item.  Two requests are accepted: the first, of a source that
was registered, is read, and the second is cancelled. -/
def oneWorker : MirrorBackendConfig where
  workers := 1
  queueCapacity := 1
  maxSources := 1

theorem oneWorker_accepted : oneWorker.Accepted := ⟨by decide, by decide, by decide⟩

theorem oneWorker_workers : 0 < oneWorker.workers.toNat := by decide

def oneWorkerRun (i : Fin oneWorker.workers.toNat) : List (BackendAction oneWorker) :=
  [.register 5 0, .work i ⟨.ok, 0⟩, .submit ⟨5, 0, 4, 10, 1⟩ (some i), .submit ⟨6, 0, 4, 11, 2⟩ none,
    .work i ⟨.ok, 0⟩, .submit ⟨6, 0, 4, 12, 2⟩ none, .shutdown, .work i ⟨.ok, 4⟩, .advance,
    .work i ⟨.ok, 0⟩, .advance, .work i ⟨.ok, 0⟩, .advance, .advance]

theorem backend_delivers_once_one :
    ∃ w, Reachable step (start oneWorker oneWorker_accepted) w ∧
      (w.shutdown = .returned ∧ w.submitted.map (·.accepted) = [true, false, true] ∧
        w.deliveries = [⟨0, 1, 10, ⟨.ok, 4⟩⟩, ⟨2, 2, 12, ⟨.cancelled, 0⟩⟩]) ∧
      w.DeliversOnce ∧
      (∀ a w', Internal a → w.step a = some w' → w'.pending < w.pending) ∧
      (w.Stuck → w.AllDelivered ∧ (w.shutdown = .idle ∨ w.shutdown = .returned)) ∧
      (w.shutdown = .returned → w.Settled) := by
  have hrun : (exec step (oneWorkerRun ⟨0, oneWorker_workers⟩)
      (start oneWorker oneWorker_accepted)).any (fun w =>
      decide (w.shutdown = .returned ∧ w.submitted.map (·.accepted) = [true, false, true] ∧
        w.deliveries = [⟨0, 1, 10, ⟨.ok, 4⟩⟩, ⟨2, 2, 12, ⟨.cancelled, 0⟩⟩])) = true := by
    decide +kernel
  obtain ⟨w, hexec, hfacts⟩ := (Option.any_eq_true _ _).mp hrun
  have hw := reachable_of_exec .start hexec
  exact ⟨w, hw, of_decide_eq_true hfacts, backend_delivers_once oneWorker_accepted hw⟩

end BackendWorld

end TieredCache.Remote
