/-
# The counters of a mirror backend

A counter is read in a state that has not yet seen the last section of every delivery: the
counters of finished requests and those deliveries together are all deliveries.
-/

import TieredCache.Remote.Deliveries

namespace TieredCache.Remote

open Math Math.Runs Math.Tally

variable {cfg : MirrorBackendConfig}

/-! ## Counters -/

/-- How many requests the counters take for finished. -/
def MirrorBackendStats.finished (stats : MirrorBackendStats) : UInt64 :=
  stats.completedOk + stats.shortReads + stats.errors + stats.cancelled

theorem MirrorBackend.finished_record (b : MirrorBackend cfg) (item : WorkItem)
    (completion : Completion) :
    (b.record item completion).stats.finished = b.stats.finished + 1 := by
  unfold MirrorBackend.record MirrorBackendStats.finished
  dsimp only
  split_ifs <;> dsimp only <;> ac_rfl

theorem MirrorBackend.finished_recordCancelled (b : MirrorBackend cfg) :
    b.recordCancelled.stats.finished = b.stats.finished + 1 := by
  unfold MirrorBackend.recordCancelled MirrorBackendStats.finished
  dsimp only
  ac_rfl

theorem MirrorBackend.inFlight_record (b : MirrorBackend cfg) (item : WorkItem)
    (completion : Completion) :
    (b.record item completion).stats.inFlight = b.stats.inFlight - 1 := by
  unfold MirrorBackend.record
  dsimp only
  split_ifs <;> rfl

theorem MirrorBackend.accepted_record (b : MirrorBackend cfg) (item : WorkItem)
    (completion : Completion) :
    (b.record item completion).stats.accepted = b.stats.accepted := by
  unfold MirrorBackend.record
  dsimp only
  split_ifs <;> rfl

theorem MirrorBackend.registerMirror_same (b : MirrorBackend cfg) (source mirror : ℕ) :
    (b.registerMirror source mirror).2.ring = b.ring ∧
      (b.registerMirror source mirror).2.stats = b.stats ∧
      (b.registerMirror source mirror).2.shuttingDown = b.shuttingDown := by
  unfold MirrorBackend.registerMirror
  split_ifs <;> exact ⟨rfl, rfl, rfl⟩

/-- `shutdown` has delivered an item and not yet counted it. -/
def ShutdownPc.uncounted : ShutdownPc → ℕ
  | .counting _ => 1
  | _ => 0

/-- A worker that has taken an item and not yet counted it. -/
def WorkerPc.Busy (pc : WorkerPc) : Prop := pc.item.isSome = true ∨ pc.uncounted.isSome = true

namespace BackendWorld

variable {w w' : BackendWorld cfg}

/-- How many workers have delivered an item and not yet counted it. -/
noncomputable def uncounted (w : BackendWorld cfg) : ℕ :=
  tally (fun pc : WorkerPc => pc.uncounted.isSome = true) w.workers

/-- How many workers have taken an item and not yet counted it. -/
noncomputable def busy (w : BackendWorld cfg) : ℕ := tally WorkerPc.Busy w.workers

/-- The counters are those of what has happened. -/
structure Counted (w : BackendWorld cfg) : Prop where
  accepted : w.backend.stats.accepted = UInt64.ofNat (acceptedNumbers w.submitted).length
  finished : w.backend.stats.finished + UInt64.ofNat (w.uncounted + w.shutdown.uncounted) =
    UInt64.ofNat w.deliveries.length
  inFlight : w.backend.stats.inFlight = UInt32.ofNat w.busy

theorem ofNat_succ64 (n : ℕ) : UInt64.ofNat (n + 1) = UInt64.ofNat n + 1 := by
  rw [UInt64.ofNat_add]
  rfl

theorem ofNat_succ32 (n : ℕ) : UInt32.ofNat (n + 1) = UInt32.ofNat n + 1 := by
  rw [UInt32.ofNat_add]
  rfl

theorem Notified.uncounted {workers : Fin cfg.workers.toNat → WorkerPc} (h : Notified w workers)
    (i : Fin cfg.workers.toNat) : (workers i).uncounted = (w.workers i).uncounted := by
  cases h with
  | @one j hj =>
      by_cases hij : i = j
      · subst hij
        rw [Function.update_self, hj]
        rfl
      · rw [Function.update_of_ne hij]
  | none => rfl

theorem uncounted_notifyAll (i : Fin cfg.workers.toNat) :
    (w.notifyAll i).uncounted = (w.workers i).uncounted := by
  unfold notifyAll
  split_ifs with hi
  · rw [hi]
    rfl
  · rfl

/-- Counts of workers that have the same items. -/
theorem counts_congr {workers : Fin cfg.workers.toNat → WorkerPc}
    (hitem : ∀ i, (workers i).item = (w.workers i).item)
    (huncounted : ∀ i, (workers i).uncounted = (w.workers i).uncounted) :
    tally (fun pc : WorkerPc => pc.uncounted.isSome = true) workers = w.uncounted ∧
      tally WorkerPc.Busy workers = w.busy := by
  refine ⟨tally_congr fun i => ?_, tally_congr fun i => ?_⟩
  · rw [huncounted i]
  · unfold WorkerPc.Busy
    rw [hitem i, huncounted i]

/-- A worker without an item that gets none. -/
theorem counts_same {i : Fin cfg.workers.toNat} {p : WorkerPc}
    (hold : (w.workers i).item = none ∧ (w.workers i).uncounted = none)
    (hnew : p.item = none ∧ p.uncounted = none) :
    (w.setWorker i p).uncounted = w.uncounted ∧ (w.setWorker i p).busy = w.busy := by
  refine ⟨tally_update_same ?_, tally_update_same ?_⟩
  · rw [hold.2, hnew.2]
  · unfold WorkerPc.Busy
    rw [hold.1, hold.2, hnew.1, hnew.2]

theorem Counted.moved (h : w.Counted) (hmoved : Moved w w') : w'.Counted := by
  obtain ⟨haccepted, hfinished, hinFlight⟩ := h
  cases hmoved with
  | refuse request =>
      refine ⟨?_, hfinished, hinFlight⟩
      rw [acceptedNumbers_append]
      simpa [MirrorBackend.reject] using haccepted
  | @accept request ring workers hopen hring hworkers =>
      obtain ⟨huncounted, hbusy⟩ := counts_congr hworkers.item hworkers.uncounted
      refine ⟨?_, ?_, ?_⟩
      · rw [acceptedNumbers_append]
        change w.backend.stats.accepted + 1 = _
        rw [haccepted, if_pos rfl, List.length_append, List.length_singleton, ofNat_succ64]
      · rw [← huncounted] at hfinished
        exact hfinished
      · rw [← hbusy] at hinFlight
        exact hinFlight
  | register source mirror =>
      obtain ⟨_, hstats, _⟩ := w.backend.registerMirror_same source mirror
      rw [← hstats] at haccepted hfinished hinFlight
      exact ⟨haccepted, hfinished, hinFlight⟩
  | @rest i hpc hring =>
      obtain ⟨huncounted, hbusy⟩ := counts_same (w := w) (i := i)
        (p := if w.backend.shuttingDown then .exited else .asleep)
        (by rw [hpc]; exact ⟨rfl, rfl⟩) (by split_ifs <;> exact ⟨rfl, rfl⟩)
      rw [← huncounted] at hfinished
      rw [← hbusy] at hinFlight
      exact ⟨haccepted, hfinished, hinFlight⟩
  | @take i item ring hpc hring =>
      have huncounted : (w.setWorker i (.performing item)).uncounted = w.uncounted :=
        tally_update_same (by rw [hpc]; rfl)
      have hbusy : (w.setWorker i (.performing item)).busy = w.busy + 1 :=
        tally_update_gain (Set.toFinite _) (by rw [hpc]; simp [WorkerPc.Busy, WorkerPc.item,
          WorkerPc.uncounted]) (Or.inl rfl)
      rw [← huncounted] at hfinished
      refine ⟨haccepted, hfinished, ?_⟩
      change w.backend.stats.inFlight + 1 = UInt32.ofNat (w.setWorker i (.performing item)).busy
      rw [hbusy, hinFlight, ofNat_succ32]
  | @deliver i item hpc outcome =>
      have huncounted : (w.setWorker i (.recording item (item.performed outcome))).uncounted =
          w.uncounted + 1 :=
        tally_update_gain (Set.toFinite _) (by rw [hpc]; simp [WorkerPc.uncounted]) rfl
      have hbusy : (w.setWorker i (.recording item (item.performed outcome))).busy = w.busy :=
        tally_update_same (iff_of_true (Or.inr rfl) (by rw [hpc]; exact Or.inl rfl))
      rw [← hbusy] at hinFlight
      refine ⟨haccepted, ?_, hinFlight⟩
      change w.backend.stats.finished + UInt64.ofNat
          ((w.setWorker i (.recording item (item.performed outcome))).uncounted +
            w.shutdown.uncounted) =
        UInt64.ofNat (w.deliveries ++ [_]).length
      rw [huncounted, List.length_append, List.length_singleton, ofNat_succ64, ← hfinished,
        Nat.add_right_comm, ofNat_succ64, UInt64.add_assoc]
  | @record i item completion hpc =>
      have huncounted : (w.setWorker i .awake).uncounted + 1 = w.uncounted :=
        tally_update_loss (Set.toFinite _) (by rw [hpc]; rfl) (by simp [WorkerPc.uncounted])
      have hbusy : (w.setWorker i .awake).busy + 1 = w.busy :=
        tally_update_loss (Set.toFinite _) (by rw [hpc]; exact Or.inr rfl)
          (by simp [WorkerPc.Busy, WorkerPc.item, WorkerPc.uncounted])
      refine ⟨?_, ?_, ?_⟩
      · rw [← w.backend.accepted_record item completion] at haccepted
        exact haccepted
      · rw [← huncounted, Nat.add_right_comm, ofNat_succ64] at hfinished
        change (w.backend.record item completion).stats.finished +
          UInt64.ofNat ((w.setWorker i .awake).uncounted + w.shutdown.uncounted) = _
        rw [w.backend.finished_record, UInt64.add_assoc, UInt64.add_comm 1]
        exact hfinished
      · change (w.backend.record item completion).stats.inFlight =
          UInt32.ofNat (w.setWorker i .awake).busy
        rw [w.backend.inFlight_record, hinFlight, ← hbusy, ofNat_succ32, UInt32.add_sub_cancel]
  | @wake i hpc =>
      obtain ⟨huncounted, hbusy⟩ := counts_same (w := w) (i := i) (p := .awake)
        (by rw [hpc]; exact ⟨rfl, rfl⟩) ⟨rfl, rfl⟩
      rw [← huncounted] at hfinished
      rw [← hbusy] at hinFlight
      exact ⟨haccepted, hfinished, hinFlight⟩
  | shutdown hpc hring =>
      obtain ⟨huncounted, hbusy⟩ := counts_congr (w := w) item_notifyAll uncounted_notifyAll
      rw [← huncounted, hpc] at hfinished
      rw [← hbusy] at hinFlight
      exact ⟨haccepted, hfinished, hinFlight⟩
  | drained hpc =>
      rw [hpc] at hfinished
      exact ⟨haccepted, hfinished, hinFlight⟩
  | @cancel item rest hpc =>
      rw [hpc] at hfinished
      refine ⟨haccepted, ?_, hinFlight⟩
      change w.backend.stats.finished + UInt64.ofNat (w.uncounted + 1) =
        UInt64.ofNat (w.deliveries ++ [_]).length
      rw [List.length_append, List.length_singleton, ofNat_succ64, ofNat_succ64, ← hfinished,
        UInt64.add_assoc]
      rfl
  | @countCancelled rest hpc =>
      rw [hpc] at hfinished
      change w.backend.stats.finished + UInt64.ofNat (w.uncounted + 1) = _ at hfinished
      rw [ofNat_succ64, UInt64.add_comm (UInt64.ofNat _), ← UInt64.add_assoc,
        ← w.backend.finished_recordCancelled] at hfinished
      exact ⟨haccepted, hfinished, hinFlight⟩
  | joined hpc hexited =>
      rw [hpc] at hfinished
      exact ⟨haccepted, hfinished, hinFlight⟩

theorem start_counted (h : cfg.Accepted) : (start cfg h).Counted where
  accepted := rfl
  finished := by
    have hnone : (start cfg h).uncounted = 0 := tally_eq_zero fun i hi => by cases hi
    rw [hnone]
    rfl
  inFlight := by
    have hnone : (start cfg h).busy = 0 := tally_eq_zero fun i hi => by
      rcases hi with hi | hi <;> cases hi
    rw [hnone]
    rfl

end BackendWorld

end TieredCache.Remote
