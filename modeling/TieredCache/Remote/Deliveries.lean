/-
# Every accepted request is delivered once

Items leave the queue in the order they were submitted.  From then on an item is at exactly one
place: a worker reads for it, `shutdown` holds it, or it has been delivered.
-/

import TieredCache.Math.Tally
import TieredCache.Remote.BackendMoves

namespace TieredCache.Remote

open Math Math.Runs Math.Tally

variable {cfg : MirrorBackendConfig} {submitted : List Submission} {submission : Submission}

/-! ## Accepted requests -/

/-- The numbers of the calls of `submit` that returned true, in order. -/
def acceptedNumbers (submitted : List Submission) : List ℕ :=
  (List.range submitted.length).filter fun n => submitted[n]?.any (·.accepted)

theorem mem_acceptedNumbers {n : ℕ} :
    n ∈ acceptedNumbers submitted ↔ ∃ s, submitted[n]? = some s ∧ s.accepted = true := by
  rw [acceptedNumbers, List.mem_filter, Option.any_eq_true, List.mem_range]
  refine ⟨fun h => h.2, fun h => ⟨?_, h⟩⟩
  obtain ⟨s, hs, _⟩ := h
  exact (List.getElem?_eq_some_iff.mp hs).1

theorem nodup_acceptedNumbers (submitted : List Submission) : (acceptedNumbers submitted).Nodup :=
  List.nodup_range.filter _

/-- The next call of `submit` comes last. -/
theorem acceptedNumbers_append (submitted : List Submission) (s : Submission) :
    acceptedNumbers (submitted ++ [s]) =
      acceptedNumbers submitted ++ if s.accepted then [submitted.length] else [] := by
  have hold : ∀ n ∈ List.range submitted.length,
      ((submitted ++ [s])[n]?.any (·.accepted)) = submitted[n]?.any (·.accepted) := by
    intro n hn
    rw [List.getElem?_append_left (List.mem_range.mp hn)]
  unfold acceptedNumbers
  rw [List.length_append, List.length_singleton, List.range_succ, List.filter_append,
    List.filter_congr hold, List.filter_singleton, List.getElem?_concat_length]
  cases haccepted : s.accepted <;> simp [haccepted]

/-- The item is that of an accepted request. -/
def WorkItem.Taken (submitted : List Submission) (item : WorkItem) : Prop :=
  submitted[item.number]? = some ⟨item.request, item.sourceKnown, true⟩

/-- An accepted request may be delivered so: to its own sink, with its own token, and with the
outcome of a read, as invalid if its source is not known, or as cancelled. -/
structure Submission.Delivered (submission : Submission) (delivery : Delivery) : Prop where
  accepted : submission.accepted = true
  sink : delivery.sink = submission.request.sink
  token : delivery.token = submission.request.token
  completion : delivery.completion = ⟨.cancelled, 0⟩ ∨
    (submission.known = false ∧ delivery.completion = ⟨.invalidArgument, 0⟩) ∨
    (submission.known = true ∧ ∃ outcome : ReadOutcome, delivery.completion = outcome.reported)

/-- The delivery is for an accepted request. -/
def Delivery.Owed (submitted : List Submission) (delivery : Delivery) : Prop :=
  ∃ submission, submitted[delivery.number]? = some submission ∧ submission.Delivered delivery

theorem getElem?_append_of_some {n : ℕ} (h : submitted[n]? = some submission)
    (s : Submission) : (submitted ++ [s])[n]? = some submission := by
  rw [List.getElem?_append_left (List.getElem?_eq_some_iff.mp h).1, h]

theorem WorkItem.Taken.append {item : WorkItem} (h : item.Taken submitted) (s : Submission) :
    item.Taken (submitted ++ [s]) :=
  getElem?_append_of_some h s

theorem Delivery.Owed.append {delivery : Delivery} (h : delivery.Owed submitted) (s : Submission) :
    delivery.Owed (submitted ++ [s]) := by
  obtain ⟨submission, hsubmission, hdelivered⟩ := h
  exact ⟨submission, getElem?_append_of_some hsubmission s, hdelivered⟩

/-- What a worker delivers for an item is owed. -/
theorem WorkItem.Taken.performed {item : WorkItem} (h : item.Taken submitted)
    (outcome : ReadOutcome) :
    Delivery.Owed submitted
      ⟨item.number, item.request.sink, item.request.token, item.performed outcome⟩ := by
  refine ⟨_, h, rfl, rfl, rfl, ?_⟩
  cases hknown : item.sourceKnown with
  | false => simp [WorkItem.performed, hknown]
  | true =>
      refine Or.inr (Or.inr ⟨rfl, outcome, ?_⟩)
      simp [WorkItem.performed, hknown]

/-- What `shutdown` delivers for an item is owed. -/
theorem WorkItem.Taken.cancelled {item : WorkItem} (h : item.Taken submitted) :
    Delivery.Owed submitted
      ⟨item.number, item.request.sink, item.request.token, ⟨.cancelled, 0⟩⟩ :=
  ⟨_, h, rfl, rfl, rfl, Or.inl rfl⟩

/-! ## Signals move no item -/

namespace BackendWorld

variable {w w' : BackendWorld cfg}

theorem Notified.item {workers : Fin cfg.workers.toNat → WorkerPc} (h : Notified w workers)
    (i : Fin cfg.workers.toNat) : (workers i).item = (w.workers i).item := by
  cases h with
  | @one j hj =>
      by_cases hij : i = j
      · subst hij
        rw [Function.update_self, hj]
        rfl
      · rw [Function.update_of_ne hij]
  | none => rfl

theorem item_notifyAll (i : Fin cfg.workers.toNat) :
    (w.notifyAll i).item = (w.workers i).item := by
  unfold notifyAll
  split_ifs with hi
  · rw [hi]
    rfl
  · rfl

/-! ## Whose item is whose -/

/-- Every item is that of an accepted request, and every delivery is owed. -/
structure Owners (w : BackendWorld cfg) : Prop where
  queue : ∀ item ∈ w.backend.ring.items, item.Taken w.submitted
  workers : ∀ i item, (w.workers i).item = some item → item.Taken w.submitted
  shutdown : ∀ item ∈ w.shutdown.items, item.Taken w.submitted
  deliveries : ∀ delivery ∈ w.deliveries, delivery.Owed w.submitted

theorem Owners.setWorker (h : w.Owners) {i : Fin cfg.workers.toNat} {p : WorkerPc}
    (hpc : ∀ item, p.item = some item → item.Taken w.submitted) : (w.setWorker i p).Owners where
  queue := h.queue
  workers := by
    intro j item hitem
    by_cases hji : j = i
    · subst hji
      rw [workers_setWorker, Function.update_self] at hitem
      exact hpc item hitem
    · rw [workers_setWorker, Function.update_of_ne hji] at hitem
      exact h.workers j item hitem
  shutdown := h.shutdown
  deliveries := h.deliveries

theorem Owners.deliver (h : w.Owners) {item : WorkItem} {completion : Completion}
    (howed : Delivery.Owed w.submitted
      ⟨item.number, item.request.sink, item.request.token, completion⟩) :
    (w.deliver item completion).Owners where
  queue := h.queue
  workers := h.workers
  shutdown := h.shutdown
  deliveries := by
    intro delivery hdelivery
    rcases List.mem_append.mp hdelivery with hold | hnew
    · exact h.deliveries delivery hold
    · rw [List.mem_singleton.mp hnew]
      exact howed

theorem Owners.moved (h : w.Owners) (hmoved : Moved w w') : w'.Owners := by
  cases hmoved with
  | refuse request =>
      exact ⟨fun item hitem => (h.queue item hitem).append _,
        fun i item hitem => (h.workers i item hitem).append _,
        fun item hitem => (h.shutdown item hitem).append _,
        fun delivery hdelivery => (h.deliveries delivery hdelivery).append _⟩
  | @accept request ring workers hopen hring hworkers =>
      refine ⟨fun item hitem => ?_, fun i item hitem => ?_,
        fun item hitem => (h.shutdown item hitem).append _,
        fun delivery hdelivery => (h.deliveries delivery hdelivery).append _⟩
      · change item ∈ ring.items at hitem
        rw [hring, List.mem_append, List.mem_singleton] at hitem
        rcases hitem with hold | rfl
        · exact (h.queue item hold).append _
        · exact List.getElem?_concat_length
      · rw [hworkers.item] at hitem
        exact (h.workers i item hitem).append _
  | register source mirror =>
      have hring : (w.backend.registerMirror source mirror).2.ring = w.backend.ring := by
        unfold MirrorBackend.registerMirror
        split_ifs <;> rfl
      refine ⟨fun item hitem => h.queue item ?_, h.workers, h.shutdown, h.deliveries⟩
      rwa [hring] at hitem
  | rest hpc hring =>
      apply h.setWorker
      intro item hitem
      split_ifs at hitem <;> cases hitem
  | @take i item ring hpc hring =>
      have htaken : ∀ other ∈ item :: ring.items, other.Taken w.submitted := by
        rw [← hring]
        exact h.queue
      have hset := h.setWorker (i := i) (p := .performing item) fun other hother => by
        cases hother
        exact htaken item List.mem_cons_self
      exact ⟨fun other hother => htaken other (List.mem_cons_of_mem _ hother), hset.workers,
        h.shutdown, h.deliveries⟩
  | @deliver i item hpc outcome =>
      have htaken : item.Taken w.submitted := h.workers i item (by rw [hpc]; rfl)
      apply (h.deliver (htaken.performed outcome)).setWorker
      intro other hother
      cases hother
  | @record i item completion hpc =>
      have hset := h.setWorker (i := i) (p := .awake) fun other hother => by cases hother
      exact ⟨h.queue, hset.workers, h.shutdown, h.deliveries⟩
  | wake hpc =>
      apply h.setWorker
      intro other hother
      cases hother
  | shutdown hpc hring =>
      refine ⟨fun item hitem => ?_, fun i item hitem => ?_, h.queue, h.deliveries⟩
      · rw [hring] at hitem
        cases hitem
      · rw [item_notifyAll] at hitem
        exact h.workers i item hitem
  | drained hpc => exact ⟨h.queue, h.workers, fun item hitem => (List.not_mem_nil hitem).elim, h.deliveries⟩
  | @cancel item rest hpc =>
      have htaken : ∀ other ∈ item :: rest, other.Taken w.submitted := by
        have hshutdown := h.shutdown
        rwa [hpc] at hshutdown
      have hdelivered := h.deliver (htaken item List.mem_cons_self).cancelled
      exact ⟨h.queue, h.workers, fun other hother => htaken other (List.mem_cons_of_mem _ hother),
        hdelivered.deliveries⟩
  | countCancelled hpc =>
      have hshutdown := h.shutdown
      rw [hpc] at hshutdown
      exact ⟨h.queue, h.workers, hshutdown, h.deliveries⟩
  | joined hpc hexited =>
      exact ⟨h.queue, h.workers, fun item hitem => (List.not_mem_nil hitem).elim, h.deliveries⟩

theorem start_owners (h : cfg.Accepted) : (start cfg h).Owners where
  queue := fun item hitem => by cases hitem
  workers := fun i item hitem => by cases hitem
  shutdown := fun item hitem => by cases hitem
  deliveries := fun delivery hdelivery => by cases hdelivery

/-! ## Where an item is -/

/-- How many workers read for the item. -/
noncomputable def performers (w : BackendWorld cfg) (n : ℕ) : ℕ :=
  tally (fun pc : WorkerPc => pc.item.map (·.number) = some n) w.workers

theorem numbers_deliver (item : WorkItem) (completion : Completion) :
    (w.deliver item completion).deliveries.map (·.number) =
      w.deliveries.map (·.number) ++ [item.number] := by
  simp [deliver]

/-- Items leave the queue in order, and each that has left it is at one place. -/
structure Account (w : BackendWorld cfg) : Prop where
  order : w.left ++ w.backend.ring.items.map (·.number) = acceptedNumbers w.submitted
  places : ∀ n, w.left.count n =
    (w.deliveries.map (·.number)).count n + w.performers n +
      (w.shutdown.items.map (·.number)).count n

/-- A worker that neither had an item nor gets one. -/
theorem performers_same {i : Fin cfg.workers.toNat} {p : WorkerPc}
    (hold : (w.workers i).item = none) (hnew : p.item = none) (n : ℕ) :
    (w.setWorker i p).performers n = w.performers n := by
  apply tally_update_same
  rw [hold, hnew]

/-- A worker gets an item. -/
theorem performers_gain {i : Fin cfg.workers.toNat} {p : WorkerPc} {item : WorkItem}
    (hold : (w.workers i).item = none) (hnew : p.item = some item) (n : ℕ) :
    (w.setWorker i p).performers n = w.performers n + [item.number].count n := by
  have h := tally_update (p := fun pc : WorkerPc => pc.item.map (·.number) = some n)
    (Set.toFinite {j | (w.workers j).item.map (·.number) = some n}) i p
  by_cases hn : item.number = n <;> simpa [hold, hnew, hn, performers] using h

/-- A worker gives its item away. -/
theorem performers_loss {i : Fin cfg.workers.toNat} {p : WorkerPc} {item : WorkItem}
    (hold : (w.workers i).item = some item) (hnew : p.item = none) (n : ℕ) :
    (w.setWorker i p).performers n + [item.number].count n = w.performers n := by
  have h := tally_update (p := fun pc : WorkerPc => pc.item.map (·.number) = some n)
    (Set.toFinite {j | (w.workers j).item.map (·.number) = some n}) i p
  by_cases hn : item.number = n <;> simpa [hold, hnew, hn, performers] using h

theorem performers_congr {workers : Fin cfg.workers.toNat → WorkerPc}
    (h : ∀ i, (workers i).item = (w.workers i).item) (n : ℕ) :
    tally (fun pc : WorkerPc => pc.item.map (·.number) = some n) workers = w.performers n := by
  apply tally_congr
  intro i
  rw [h i]

theorem Account.moved (h : w.Account) (hmoved : Moved w w') : w'.Account := by
  have horder := h.order
  have hplaces := h.places
  cases hmoved with
  | refuse request =>
      refine ⟨?_, hplaces⟩
      rw [acceptedNumbers_append, ← horder]
      simp [MirrorBackend.reject]
  | @accept request ring workers hopen hring hworkers =>
      refine ⟨?_, fun n => ?_⟩
      · change w.left ++ ring.items.map (·.number) = _
        rw [hring, acceptedNumbers_append, ← horder, List.map_append, ← List.append_assoc]
        rfl
      · rw [hplaces n, ← performers_congr hworkers.item n]
        rfl
  | register source mirror =>
      have hring : (w.backend.registerMirror source mirror).2.ring = w.backend.ring := by
        unfold MirrorBackend.registerMirror
        split_ifs <;> rfl
      refine ⟨?_, hplaces⟩
      rw [hring, horder]
  | rest hpc hring =>
      refine ⟨horder, fun n => ?_⟩
      rw [performers_same (by rw [hpc]; rfl) (by split_ifs <;> rfl)]
      exact hplaces n
  | @take i item ring hpc hring =>
      rw [hring] at horder
      refine ⟨?_, fun n => ?_⟩
      · change (w.left ++ [item.number]) ++ ring.items.map (·.number) = _
        rw [List.append_assoc]
        exact horder
      · have hgain := performers_gain (w := w) (i := i) (p := .performing item)
          (by rw [hpc]; rfl) rfl n
        have hn := hplaces n
        change (w.left ++ [item.number]).count n =
          (w.deliveries.map (·.number)).count n + (w.setWorker i (.performing item)).performers n +
            (w.shutdown.items.map (·.number)).count n
        rw [List.count_append]
        omega
  | @deliver i item hpc outcome =>
      refine ⟨horder, fun n => ?_⟩
      have hloss := performers_loss (w := w) (i := i)
        (p := .recording item (item.performed outcome)) (by rw [hpc]; rfl) rfl n
      have hn := hplaces n
      change w.left.count n =
        ((w.deliver item (item.performed outcome)).deliveries.map (·.number)).count n +
          (w.setWorker i (.recording item (item.performed outcome))).performers n +
            (w.shutdown.items.map (·.number)).count n
      rw [numbers_deliver, List.count_append]
      omega
  | @record i item completion hpc =>
      refine ⟨horder, fun n => ?_⟩
      have hsame := performers_same (w := w) (i := i) (p := .awake) (by rw [hpc]; rfl) rfl n
      have hn := hplaces n
      rw [← hsame] at hn
      exact hn
  | wake hpc =>
      refine ⟨horder, fun n => ?_⟩
      rw [performers_same (by rw [hpc]; rfl) rfl]
      exact hplaces n
  | shutdown hpc hring =>
      refine ⟨?_, fun n => ?_⟩
      · rw [hring, List.map_nil, List.append_nil]
        exact horder
      · have hn := hplaces n
        rw [hpc] at hn
        change (w.left ++ w.backend.ring.items.map (·.number)).count n =
          _ + tally _ w.notifyAll + (w.backend.ring.items.map (·.number)).count n
        rw [List.count_append, performers_congr item_notifyAll, hn]
        rfl
  | drained hpc =>
      rw [hpc] at hplaces
      exact ⟨horder, hplaces⟩
  | @cancel item rest hpc =>
      refine ⟨horder, fun n => ?_⟩
      have hn := hplaces n
      rw [hpc] at hn
      change w.left.count n = _ + _ + ([item.number] ++ rest.map (·.number)).count n at hn
      rw [List.count_append] at hn
      change w.left.count n =
        ((w.deliver item ⟨.cancelled, 0⟩).deliveries.map (·.number)).count n +
          w.performers n + (rest.map (·.number)).count n
      rw [numbers_deliver, List.count_append]
      omega
  | countCancelled hpc =>
      rw [hpc] at hplaces
      exact ⟨horder, hplaces⟩
  | joined hpc hexited =>
      rw [hpc] at hplaces
      exact ⟨horder, hplaces⟩

theorem start_account (h : cfg.Accepted) : (start cfg h).Account where
  order := rfl
  places := fun n => by
    have hnone : (start cfg h).performers n = 0 := tally_eq_zero fun i hi => by cases hi
    rw [hnone]
    rfl

/-- Nothing is delivered twice. -/
theorem Account.nodup (h : w.Account) : (w.deliveries.map (·.number)).Nodup := by
  have hleft : w.left.Nodup := by
    have haccepted := nodup_acceptedNumbers w.submitted
    rw [← h.order] at haccepted
    exact (List.nodup_append.mp haccepted).1
  rw [List.nodup_iff_count_le_one]
  intro n
  have hone := List.nodup_iff_count_le_one.mp hleft n
  have hplaces := h.places n
  omega

/-- Where no item is on its way, everything that was accepted has been delivered. -/
theorem Account.perm (h : w.Account) (hring : w.backend.ring.items = [])
    (hworkers : ∀ i, (w.workers i).item = none) (hshutdown : w.shutdown.items = []) :
    (w.deliveries.map (·.number)).Perm (acceptedNumbers w.submitted) := by
  have hleft : w.left = acceptedNumbers w.submitted := by
    have horder := h.order
    rwa [hring, List.map_nil, List.append_nil] at horder
  rw [List.perm_iff_count]
  intro n
  have hnone : w.performers n = 0 := tally_eq_zero fun i hi => by
    rw [hworkers i] at hi
    cases hi
  have hplaces := h.places n
  rw [hnone, hshutdown, hleft] at hplaces
  exact hplaces.symm

end BackendWorld

end TieredCache.Remote
