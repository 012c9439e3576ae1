/-
# The moves of a mirror backend

What a step of the backend and its threads can do, said once: every invariant of its runs is
derived from this.
-/

import TieredCache.Remote.MirrorBackend

namespace TieredCache.Remote

open Math Math.Runs

variable {cfg : MirrorBackendConfig}

/-- The item a worker reads for. -/
def WorkerPc.item : WorkerPc → Option WorkItem
  | .performing item => some item
  | _ => none

/-- The item a worker has delivered and not yet counted. -/
def WorkerPc.uncounted : WorkerPc → Option WorkItem
  | .recording item _ => some item
  | _ => none

/-- What `shutdown` has taken and not yet delivered. -/
def ShutdownPc.items : ShutdownPc → List WorkItem
  | .delivering queued => queued
  | .counting queued => queued
  | _ => []

namespace BackendWorld

variable {w w' : BackendWorld cfg}

@[simp]
theorem workers_setWorker (i : Fin cfg.workers.toNat) (pc : WorkerPc) :
    (w.setWorker i pc).workers = Function.update w.workers i pc := rfl

/-- The workers after a signal to one of those that wait. -/
inductive Notified (w : BackendWorld cfg) : (Fin cfg.workers.toNat → WorkerPc) → Prop
  | one {i : Fin cfg.workers.toNat} (h : w.workers i = .asleep) :
      Notified w (Function.update w.workers i .awake)
  | none (h : ∀ i, w.workers i ≠ .asleep) : Notified w w.workers

theorem notifyOne_notified {notified : Option (Fin cfg.workers.toNat)}
    {workers : Fin cfg.workers.toNat → WorkerPc} (h : w.notifyOne notified = some workers) :
    Notified w workers := by
  cases notified with
  | some i =>
      simp only [notifyOne, Option.ite_none_right_eq_some, Option.some.injEq] at h
      obtain ⟨hasleep, rfl⟩ := h
      exact .one hasleep
  | none =>
      simp only [notifyOne, Option.ite_none_left_eq_some, Option.some.injEq] at h
      obtain ⟨hawake, rfl⟩ := h
      exact .none fun i hi => hawake ⟨i, hi⟩

/-- What a step can do. -/
inductive Moved (w : BackendWorld cfg) : BackendWorld cfg → Prop
  | refuse (request : FillRequest) :
      Moved w { w with
        backend := w.backend.reject
        submitted := w.submitted ++
          [⟨request, (w.backend.findSourceLocked request.source).isSome, false⟩] }
  | accept {request : FillRequest} {ring : Ring WorkItem cfg.queueCapacity.toNat}
      {workers : Fin cfg.workers.toNat → WorkerPc} (hopen : w.backend.shuttingDown = false)
      (hring : ring.items =
        w.backend.ring.items ++ [w.backend.itemFor request w.submitted.length])
      (hworkers : Notified w workers) :
      Moved w { w with
        backend := w.backend.accept ring
        workers := workers
        submitted := w.submitted ++
          [⟨request, (w.backend.findSourceLocked request.source).isSome, true⟩] }
  | register (source mirror : ℕ) :
      Moved w { w with backend := (w.backend.registerMirror source mirror).2 }
  | rest {i : Fin cfg.workers.toNat} (hpc : w.workers i = .awake)
      (hring : w.backend.ring.items = []) :
      Moved w (w.setWorker i (if w.backend.shuttingDown then .exited else .asleep))
  | take {i : Fin cfg.workers.toNat} {item : WorkItem}
      {ring : Ring WorkItem cfg.queueCapacity.toNat} (hpc : w.workers i = .awake)
      (hring : w.backend.ring.items = item :: ring.items) :
      Moved w { w.setWorker i (.performing item) with
        backend := w.backend.begin ring
        left := w.left ++ [item.number] }
  | deliver {i : Fin cfg.workers.toNat} {item : WorkItem} (hpc : w.workers i = .performing item)
      (outcome : ReadOutcome) :
      Moved w ((w.deliver item (item.performed outcome)).setWorker i
        (.recording item (item.performed outcome)))
  | record {i : Fin cfg.workers.toNat} {item : WorkItem} {completion : Completion}
      (hpc : w.workers i = .recording item completion) :
      Moved w { w.setWorker i .awake with backend := w.backend.record item completion }
  | wake {i : Fin cfg.workers.toNat} (hpc : w.workers i = .asleep) : Moved w (w.setWorker i .awake)
  | shutdown (hpc : w.shutdown = .idle) (hring : w.backend.beginShutdown.ring.items = []) :
      Moved w { w with
        backend := w.backend.beginShutdown
        workers := w.notifyAll
        shutdown := .delivering w.backend.ring.items
        left := w.left ++ w.backend.ring.items.map (·.number) }
  | drained (hpc : w.shutdown = .delivering []) : Moved w { w with shutdown := .joining }
  | cancel {item : WorkItem} {rest : List WorkItem}
      (hpc : w.shutdown = .delivering (item :: rest)) :
      Moved w { w.deliver item ⟨.cancelled, 0⟩ with shutdown := .counting rest }
  | countCancelled {rest : List WorkItem} (hpc : w.shutdown = .counting rest) :
      Moved w { w with backend := w.backend.recordCancelled, shutdown := .delivering rest }
  | joined (hpc : w.shutdown = .joining) (hexited : ∀ i, w.workers i = .exited) :
      Moved w { w with shutdown := .returned }

theorem submit_moved {request : FillRequest} {notified : Option (Fin cfg.workers.toNat)}
    (h : w.submit request notified = some w') : Moved w w' := by
  unfold submit at h
  cases hring : w.backend.enqueued request w.submitted.length with
  | none =>
      rw [hring] at h
      cases h
      exact .refuse request
  | some ring =>
      rw [hring] at h
      obtain ⟨workers, hworkers, rfl⟩ := Option.map_eq_some_iff.mp h
      simp only [MirrorBackend.enqueued, Option.ite_none_left_eq_some, Bool.not_eq_true] at hring
      exact .accept hring.1 (Ring.items_push hring.2) (notifyOne_notified hworkers)

theorem work_moved {i : Fin cfg.workers.toNat} {outcome : ReadOutcome}
    (h : w.work i outcome = some w') : Moved w w' := by
  unfold work at h
  cases hpc : w.workers i with
  | awake =>
      simp only [hpc] at h
      cases hpop : w.backend.ring.pop with
      | none =>
          simp only [hpop] at h
          cases h
          exact .rest hpc (Ring.items_eq_nil_iff.mpr (Ring.pop_eq_none_iff.mp hpop))
      | some taken =>
          simp only [hpop] at h
          cases h
          exact .take hpc (Ring.items_pop hpop)
  | performing item =>
      simp only [hpc] at h
      cases h
      exact .deliver hpc outcome
  | recording item completion =>
      simp only [hpc] at h
      cases h
      exact .record hpc
  | asleep =>
      simp only [hpc] at h
      cases h
  | exited =>
      simp only [hpc] at h
      cases h

theorem advance_moved (h : w.advance = some w') : Moved w w' := by
  unfold advance at h
  cases hpc : w.shutdown with
  | idle =>
      simp only [hpc] at h
      cases h
  | delivering queued =>
      cases queued with
      | nil =>
          simp only [hpc] at h
          cases h
          exact .drained hpc
      | cons item rest =>
          simp only [hpc] at h
          cases h
          exact .cancel hpc
  | counting rest =>
      simp only [hpc] at h
      cases h
      exact .countCancelled hpc
  | joining =>
      simp only [hpc, Option.ite_none_right_eq_some, Option.some.injEq] at h
      obtain ⟨hexited, rfl⟩ := h
      exact .joined hpc hexited
  | returned =>
      simp only [hpc] at h
      cases h

/-- A step is one of the moves. -/
theorem step_moved {a : BackendAction cfg} (h : w.step a = some w') : Moved w w' := by
  cases a with
  | submit request notified => exact submit_moved h
  | register source mirror =>
      cases h
      exact .register source mirror
  | work i outcome => exact work_moved h
  | wake i =>
      simp only [step, Option.ite_none_right_eq_some, Option.some.injEq] at h
      obtain ⟨hpc, rfl⟩ := h
      exact .wake hpc
  | shutdown =>
      simp only [step, Option.ite_none_right_eq_some, Option.some.injEq] at h
      obtain ⟨hpc, rfl⟩ := h
      have hall := Ring.popAll_eq (r := w.backend.ring) le_rfl
      have hmoved := Moved.shutdown hpc (Ring.items_eq_nil_iff.mpr hall.2)
      rwa [← hall.1] at hmoved
  | advance => exact advance_moved h

/-- A property of the start that every move keeps holds of every state reached. -/
theorem reachable_invariant {inv : BackendWorld cfg → Prop} {h : cfg.Accepted}
    (hw : Reachable step (start cfg h) w) (hstart : inv (start cfg h))
    (hmoved : ∀ {w w'}, inv w → Moved w w' → inv w') : inv w :=
  hw.invariant hstart fun _ _ _ hinv _ hstep => hmoved hinv (step_moved hstep)

end BackendWorld

end TieredCache.Remote
