/-
# Teardown

The destructor of the table, once every call has returned: it stops the completion worker, joins it
and checks what is still held.  The worker finishes every fill before it returns, so what the
checks find are held leases and tickets alone.
-/

import TieredCache.Table.Rest

namespace TieredCache

open Math.Ranks Math.Runs Math.Tally

variable {cfg : TableConfig}

/-- Where the destructor is: in `stop_worker` until it has joined the worker. -/
inductive ClosePc
  | stopping
  | notifying
  | joining
  | checking
  | closed
  | terminated
  deriving DecidableEq, Repr

/-- The destructor has returned, or the process has ended. -/
def ClosePc.Over (pc : ClosePc) : Prop := pc = .closed ∨ pc = .terminated

instance (pc : ClosePc) : Decidable pc.Over := inferInstanceAs (Decidable (_ ∨ _))

/-- How far the destructor has to go. -/
def ClosePc.left : ClosePc → ℕ
  | .stopping => 4
  | .notifying => 3
  | .joining => 2
  | .checking => 1
  | .closed => 0
  | .terminated => 0

/-- A table that is being destroyed.  Nobody calls it any more. -/
structure Closing (cfg : TableConfig) where
  world : World cfg
  /-- `worker_stopping_`. -/
  stopping : Bool := false
  /-- `stop_worker` has notified the worker in its sleep, and it has not yet woken up. -/
  roused : Bool := false
  /-- `worker_loop` has returned. -/
  exited : Bool := false
  closer : ClosePc := .stopping

/-- The steps of a table that is being destroyed. -/
inductive CloseAction
  | close
  | work (choice : Choice)
  | deliver (id : RequestId) (status : MemStatus)

/-- The worker is asleep. -/
def WorkerPc.isAsleep : WorkerPc cfg → Bool
  | .asleep _ => true
  | _ => false

namespace Closing

variable {c c' : Closing cfg} {choice : Choice} {action : CloseAction}

/-- One step of the destructor. -/
def close (c : Closing cfg) : Option (Closing cfg) :=
  match c.closer with
  | .stopping =>
      if c.stopping then some { c with closer := .checking }
      else some { c with stopping := true, closer := .notifying }
  | .notifying => some { c with roused := c.world.worker.isAsleep, closer := .joining }
  | .joining => if c.exited then some { c with closer := .checking } else none
  | .checking =>
      if c.world.table.inFlight ≠ 0 ∨ c.world.table.pinsTotal ≠ 0 ∨ c.world.table.ticketsHeld ≠ 0 then
        some { c with closer := .terminated }
      else some { c with closer := .closed }
  | .closed => none
  | .terminated => none

/-- One step of `worker_loop`, which may be told to stop. -/
def work (c : Closing cfg) (choice : Choice) : Option (Closing cfg) :=
  if c.exited then none
  else
    match c.world.worker with
    | .scan =>
        if c.world.table.findUnclaimedFilling = none ∧ c.stopping then some { c with exited := true }
        else (c.world.step (.work choice)).map fun w => { c with world := w }
    | .finishing _ _ => (c.world.step (.work choice)).map fun w => { c with world := w }
    | .asleep _ =>
        (c.world.step (.work { choice with spurious := choice.spurious || c.roused })).map
          fun w => { c with world := w, roused := false }

/-- One step of a table that is being destroyed. -/
def step (c : Closing cfg) (action : CloseAction) : Option (Closing cfg) :=
  if c.closer.Over then none
  else
    match action with
    | .close => c.close
    | .work choice => c.work choice
    | .deliver id status => (c.world.step (.deliver id status)).map fun w => { c with world := w }

end Closing

/-- A step that goes on: the worker is not woken for nothing, and the transport delivers what it has
accepted. -/
def CloseAction.GoesOn (c : Closing cfg) : CloseAction → Prop
  | .close => True
  | .work choice => choice.spurious = false
  | .deliver id status =>
      id < c.world.table.requestCount ∧ (c.world.table.requests id).Live ∧ status.Terminal

namespace Closing

variable {c c' : Closing cfg} {choice : Choice} {action : CloseAction} {w w' w₀ : World cfg}

/-- One step that goes on. -/
def Goes (c c' : Closing cfg) : Prop :=
  ∃ action : CloseAction, action.GoesOn c ∧ c.step action = some c'

/-- Nothing goes on. -/
def Stuck (c : Closing cfg) : Prop := ∀ action : CloseAction, action.GoesOn c → c.step action = none

/-- The table when its destructor begins. -/
def start (w : World cfg) : Closing cfg where
  world := w

/-! ## What the worker and the transport do -/

/-- Clients are left as they are. -/
structure SameClients (w w' : World cfg) : Prop where
  threads : w'.threads = w.threads
  leases : w'.leases = w.leases
  tickets : w'.tickets = w.tickets

theorem SameClients.refl (w : World cfg) : SameClients w w := ⟨rfl, rfl, rfl⟩

theorem SameClients.trans {w'' : World cfg} (h : SameClients w w') (h' : SameClients w' w'') :
    SameClients w w'' :=
  ⟨h'.threads.trans h.threads, h'.leases.trans h.leases, h'.tickets.trans h.tickets⟩

theorem work_same (hstep : w.step (.work choice) = some w') :
    SameClients w w' ∧ World.workerStep w.table choice w.worker = some (w'.worker, w'.table) := by
  unfold World.step at hstep
  split_ifs at hstep
  obtain ⟨⟨pc, t⟩, hwork, rfl⟩ := Option.map_eq_some_iff.mp hstep
  exact ⟨⟨rfl, rfl, rfl⟩, hwork⟩

theorem deliver_same {id : RequestId} {status : MemStatus}
    (hstep : w.step (.deliver id status) = some w') :
    SameClients w w' ∧ w'.worker = w.worker ∧ w'.table.slots = w.table.slots ∧
      w'.table.inFlight = w.table.inFlight ∧ w'.table.pinsTotal = w.table.pinsTotal ∧
      w'.table.ticketsHeld = w.table.ticketsHeld := by
  unfold World.step at hstep
  split_ifs at hstep
  cases hstep
  refine ⟨⟨rfl, rfl, rfl⟩, rfl, ?_⟩
  show (w.table.deliver id status).slots = _ ∧ (w.table.deliver id status).inFlight = _ ∧
    (w.table.deliver id status).pinsTotal = _ ∧ (w.table.deliver id status).ticketsHeld = _
  unfold Table.deliver
  split_ifs <;> exact ⟨rfl, rfl, rfl, rfl⟩

/-- A worker that finds a fill does not go to sleep. -/
theorem workerStep_awake {t t' : Table cfg} {pc pc' : WorkerPc cfg}
    (h : World.workerStep t choice pc = some (pc', t'))
    (hfinds : pc = .scan → t.findUnclaimedFilling ≠ none) : pc'.isAsleep = false := by
  unfold World.workerStep at h
  cases pc with
  | scan =>
      dsimp only at h
      split at h
      · cases h
        rfl
      · rename_i hnone
        exact absurd hnone (hfinds rfl)
  | finishing slot fpc =>
      dsimp only at h
      split at h <;> cases h <;> rfl
  | asleep since =>
      dsimp only at h
      split_ifs at h
      cases h
      rfl

/-- A worker that finds no fill leaves none behind, when no thread is in a call. -/
theorem not_filling_of_scan (hdriven : w.DrivenInv) (hidle : ∀ thread, w.threads thread = .idle)
    (hscan : w.worker = .scan) (hnone : w.table.findUnclaimedFilling = none) (slot : cfg.SlotId) :
    (w.table.slots slot).state ≠ .filling := by
  intro hfilling
  have hclaimed : (w.table.slots slot).finishing = true := by
    unfold Table.findUnclaimedFilling at hnone
    have hscanned := List.find?_eq_none.mp hnone slot (List.mem_finRange slot)
    simpa [hfilling] using hscanned
  obtain ⟨g, pc, hg⟩ := hdriven slot ⟨hfilling, hclaimed⟩
  cases g with
  | none =>
      have hg : w.worker.fill = _ := hg
      rw [hscan] at hg
      cases hg
  | some thread =>
      have hg : (w.threads thread).fill = _ := hg
      rw [hidle] at hg
      cases hg

/-- Nothing is held. -/
def Unheld (w : World cfg) : Prop := (∀ v, w.leases v = none) ∧ ∀ v, (w.tickets v).ticket = none

/-- The counts that the destructor checks are zero where nothing is held. -/
theorem unheld_iff (hpins : w.PinInv) (hheld : w.HeldInv) :
    Unheld w ↔ w.table.pinsTotal = 0 ∧ w.table.ticketsHeld = 0 := by
  refine and_congr ⟨fun hnone => ?_, fun hzero v => ?_⟩ ⟨fun hnone => ?_, fun hzero v => ?_⟩
  · rw [← UInt32.toNat_inj, hpins.total]
    refine tally_eq_zero fun v hv => ?_
    rw [hnone v] at hv
    cases hv
  · by_contra hsome
    obtain ⟨l, hl⟩ := Option.ne_none_iff_exists'.mp hsome
    have hsome : (slotOf (w.leases v)).isSome := by
      rw [hl]
      rfl
    have hpos : 0 < w.held := tally_pos hpins.finite hsome
    have htotal := hpins.total
    rw [hzero] at htotal
    exact absurd htotal hpos.ne
  · rw [← UInt32.toNat_inj, hheld.count]
    refine tally_eq_zero fun v hv => ?_
    unfold TicketCell.Holds at hv
    rw [hnone v] at hv
    cases hv
  · by_contra hsome
    have hholds : (w.tickets v).Holds := Option.isSome_iff_ne_none.mpr hsome
    have hpos := tally_pos hheld.finite hholds
    have hcount := hheld.count
    rw [hzero] at hcount
    exact absurd hcount hpos.ne

/-! ## The steps in order -/

/-- What the destructor, the worker and the clients have come to. -/
structure CloseInv (h : cfg.Accepted) (w₀ : World cfg) (c : Closing cfg) : Prop where
  reached : Reaches World.step World.LeaseRoom (World.start cfg h) c.world
  idle : ∀ thread, c.world.threads thread = .idle
  same : SameClients w₀ c.world
  stopping : c.closer = .stopping ↔ c.stopping = false
  /-- Once told to stop, a sleeping worker is about to wake up. -/
  rouses : c.closer = .joining → c.exited = false → c.world.worker.isAsleep → c.roused = true
  /-- A worker that has returned has left no fill behind. -/
  exited : c.exited = true → ∀ slot, (c.world.table.slots slot).state ≠ .filling
  joined : c.closer = .checking ∨ c.closer.Over → c.exited = true
  closed : c.closer = .closed → Unheld w₀
  terminated : c.closer = .terminated → ¬ Unheld w₀

namespace CloseInv

variable {h : cfg.Accepted}

theorem start (hw : Reaches World.step World.LeaseRoom (World.start cfg h) w₀)
    (hidle : ∀ thread, w₀.threads thread = .idle) : CloseInv h w₀ (.start w₀) where
  reached := hw
  idle := hidle
  same := .refl w₀
  stopping := ⟨fun _ => rfl, fun _ => rfl⟩
  rouses := fun heq => by cases heq
  exited := fun heq => by cases heq
  joined := fun hover => by
    rcases hover with heq | heq | heq <;> cases heq
  closed := fun heq => by cases heq
  terminated := fun heq => by cases heq

/-- What is still held is what was held at the beginning. -/
theorem unheld (hc : CloseInv h w₀ c) : Unheld c.world ↔ Unheld w₀ := by
  unfold Unheld
  rw [hc.same.leases, hc.same.tickets]

/-- The worker and the transport take no leases. -/
theorem room (hc : CloseInv h w₀ c) {action : Action cfg}
    (hwanted : c.world.leasesWanted action = 0) : c.world.LeaseRoom action := by
  have hpins := (World.callsInv_of_room hc.reached).pins
  unfold World.LeaseRoom
  rw [hwanted, ← hpins.held_eq, ← hpins.total]
  exact c.world.table.pinsTotal.toNat_lt

/-- The checks find no fill in flight. -/
theorem inFlight (hc : CloseInv h w₀ c) (hexited : c.exited = true) :
    c.world.table.inFlight = 0 := by
  rw [← UInt32.toNat_inj, (World.bookInv_of_reachable hc.reached.reachable).inFlight]
  exact tally_eq_zero (hc.exited hexited)

theorem close (hc : CloseInv h w₀ c) (hstep : c.close = some c') : CloseInv h w₀ c' := by
  unfold Closing.close at hstep
  split at hstep
  · rename_i hpc
    rw [if_neg (by rw [hc.stopping.mp hpc]; exact Bool.false_ne_true)] at hstep
    cases hstep
    refine ⟨hc.reached, hc.idle, hc.same, ?_, fun heq => (by cases heq), hc.exited, fun hover => ?_,
      fun heq => (by cases heq), fun heq => (by cases heq)⟩
    · exact ⟨fun heq => (by cases heq), fun heq => (by cases heq)⟩
    · rcases hover with heq | heq | heq <;> cases heq
  · rename_i hpc
    have hstopping := hc.stopping
    rw [hpc] at hstopping
    cases hstep
    refine ⟨hc.reached, hc.idle, hc.same, ?_, fun _ _ hasleep => hasleep, hc.exited,
      fun hover => ?_, fun heq => (by cases heq), fun heq => (by cases heq)⟩
    · exact ⟨fun heq => (by cases heq), fun heq => (by cases hstopping.mpr heq)⟩
    · rcases hover with heq | heq | heq <;> cases heq
  · rename_i hpc
    have hstopping := hc.stopping
    rw [hpc] at hstopping
    split_ifs at hstep with hexited
    cases hstep
    refine ⟨hc.reached, hc.idle, hc.same, ?_, fun heq => (by cases heq), hc.exited,
      fun _ => hexited, fun heq => (by cases heq), fun heq => (by cases heq)⟩
    exact ⟨fun heq => (by cases heq), fun heq => (by cases hstopping.mpr heq)⟩
  · rename_i hpc
    have hstopping := hc.stopping
    rw [hpc] at hstopping
    have hexited := hc.joined (Or.inl hpc)
    have hcounts := unheld_iff (World.callsInv_of_room hc.reached).pins
      (World.heldInv_of_reachable hc.reached.reachable)
    rw [hc.unheld] at hcounts
    split_ifs at hstep with hchecks
    · cases hstep
      refine ⟨hc.reached, hc.idle, hc.same, ?_, fun heq => (by cases heq), hc.exited,
        fun _ => hexited, fun heq => (by cases heq), fun _ hunheld => ?_⟩
      · exact ⟨fun heq => (by cases heq), fun heq => (by cases hstopping.mpr heq)⟩
      · obtain ⟨hpins, htickets⟩ := hcounts.mp hunheld
        rcases hchecks with hne | hne | hne
        · exact hne (hc.inFlight hexited)
        · exact hne hpins
        · exact hne htickets
    · cases hstep
      rw [not_or, not_or, not_not, not_not, not_not] at hchecks
      refine ⟨hc.reached, hc.idle, hc.same, ?_, fun heq => (by cases heq), hc.exited,
        fun _ => hexited, fun _ => hcounts.mpr hchecks.2, fun heq => (by cases heq)⟩
      exact ⟨fun heq => (by cases heq), fun heq => (by cases hstopping.mpr heq)⟩
  · cases hstep
  · cases hstep

/-- A step of the worker that is not its last. -/
theorem works (hc : CloseInv h w₀ c) (hrunning : c.exited = false)
    (hfinds : c.world.worker = .scan → c.stopping = true → c.world.table.findUnclaimedFilling ≠ none)
    (hstep : c.world.step (.work choice) = some w') (roused : Bool) :
    CloseInv h w₀ { c with world := w', roused := roused } := by
  obtain ⟨hsame, hwork⟩ := work_same hstep
  refine ⟨hc.reached.step (hc.room rfl) hstep, fun thread => ?_, hc.same.trans hsame, hc.stopping,
    fun hpc _ hasleep => ?_, fun hexited => ?_, hc.joined, hc.closed, hc.terminated⟩
  · show w'.threads thread = _
    rw [hsame.threads, hc.idle]
  · have hpc : c.closer = .joining := hpc
    have hasleep : w'.worker.isAsleep = true := hasleep
    have hstopping : c.stopping = true := by
      rw [← Bool.not_eq_false, ← hc.stopping, hpc]
      exact fun heq => by cases heq
    rw [workerStep_awake hwork fun hscan => hfinds hscan hstopping] at hasleep
    cases hasleep
  · have hexited : c.exited = true := hexited
    rw [hrunning] at hexited
    cases hexited

theorem work (hc : CloseInv h w₀ c) (hstep : c.work choice = some c') : CloseInv h w₀ c' := by
  unfold Closing.work at hstep
  by_cases hexited : c.exited = true
  · rw [if_pos hexited] at hstep
    cases hstep
  rw [if_neg hexited] at hstep
  have hrunning : c.exited = false := Bool.not_eq_true _ ▸ hexited
  split at hstep
  · rename_i hscan
    split_ifs at hstep with hlast
    · cases hstep
      refine ⟨hc.reached, hc.idle, hc.same, hc.stopping, fun _ heq => (by cases heq), fun _ => ?_,
        fun _ => rfl, hc.closed, hc.terminated⟩
      exact not_filling_of_scan (World.drivenInv_of_reachable hc.reached.reachable) hc.idle hscan
        hlast.1
    · obtain ⟨w', hwork, rfl⟩ := Option.map_eq_some_iff.mp hstep
      exact hc.works hrunning (fun _ hstopping hnone => hlast ⟨hnone, hstopping⟩) hwork c.roused
  · rename_i hfinishing
    obtain ⟨w', hwork, rfl⟩ := Option.map_eq_some_iff.mp hstep
    refine hc.works hrunning (fun hscan => ?_) hwork c.roused
    rw [hfinishing] at hscan
    cases hscan
  · rename_i hasleep
    obtain ⟨w', hwork, rfl⟩ := Option.map_eq_some_iff.mp hstep
    refine hc.works hrunning (fun hscan => ?_) hwork false
    rw [hasleep] at hscan
    cases hscan

theorem step (hc : CloseInv h w₀ c) (hstep : c.step action = some c') : CloseInv h w₀ c' := by
  unfold Closing.step at hstep
  split_ifs at hstep
  cases action with
  | close => exact hc.close hstep
  | work choice => exact hc.work hstep
  | deliver id status =>
      obtain ⟨w', hdeliver, rfl⟩ := Option.map_eq_some_iff.mp hstep
      obtain ⟨hsame, hworker, hslots, -⟩ := deliver_same hdeliver
      refine ⟨hc.reached.step (hc.room rfl) hdeliver, fun thread => ?_, hc.same.trans hsame,
        hc.stopping, fun hpc hrunning hasleep => ?_, fun hexited slot => ?_, hc.joined, hc.closed,
        hc.terminated⟩
      · show w'.threads thread = _
        rw [hsame.threads, hc.idle]
      · have hasleep : w'.worker.isAsleep = true := hasleep
        rw [hworker] at hasleep
        exact hc.rouses hpc hrunning hasleep
      · show (w'.table.slots slot).state ≠ _
        rw [hslots]
        exact hc.exited hexited slot

end CloseInv

theorem closeInv_of_reachable {h : cfg.Accepted}
    (hw : Reaches World.step World.LeaseRoom (World.start cfg h) w₀)
    (hidle : ∀ thread, w₀.threads thread = .idle) (hc : Reachable Closing.step (.start w₀) c) :
    CloseInv h w₀ c :=
  hc.invariant (.start hw hidle) fun _ _ _ hinv _ hstep => hinv.step hstep

/-! ## It comes to an end -/

/-- What is left: of the destructor, of the worker's last turn, and of fills and requests. -/
def rank (c : Closing cfg) : ℕ ×ₗ ℕ ×ₗ ℕ ×ₗ ℕ :=
  toLex (2 * c.closer.left + (if c.exited then 0 else 1) + (if c.roused then 1 else 0),
    c.world.rank 0)

theorem rank_lt_of_first
    (h : 2 * c'.closer.left + (if c'.exited then 0 else 1) + (if c'.roused then 1 else 0) <
      2 * c.closer.left + (if c.exited then 0 else 1) + (if c.roused then 1 else 0)) :
    c'.rank < c.rank :=
  Prod.Lex.toLex_lt_toLex.mpr (Or.inl h)

/-- The destructor's own steps. -/
theorem rank_lt_of_close (hstep : c.close = some c') : c'.rank < c.rank := by
  unfold Closing.close at hstep
  refine rank_lt_of_first ?_
  split at hstep <;> rename_i hpc
  · split_ifs at hstep <;> cases hstep <;> simp only [hpc, ClosePc.left] <;> omega
  · cases hstep
    simp only [hpc, ClosePc.left]
    split_ifs <;> omega
  · split_ifs at hstep
    cases hstep
    simp only [hpc, ClosePc.left]
    omega
  · split_ifs at hstep <;> cases hstep <;> simp only [hpc, ClosePc.left] <;> omega
  · cases hstep
  · cases hstep

/-- The worker's steps. -/
theorem rank_lt_of_work {h : cfg.Accepted} (hc : CloseInv h w₀ c)
    (hspurious : choice.spurious = false) (hstep : c.work choice = some c') : c'.rank < c.rank := by
  have hworld : ∀ {choice : Choice} {w'}, choice.spurious = false →
      c.world.step (.work choice) = some w' → w'.rank 0 < c.world.rank 0 := fun hspurious hwork =>
    World.rank_lt_of_goes (World.fillInv_of_reachable hc.reached.reachable)
      (fun thread _ => hc.idle thread) hwork hspurious
  unfold Closing.work at hstep
  by_cases hexited : c.exited = true
  · rw [if_pos hexited] at hstep
    cases hstep
  rw [if_neg hexited] at hstep
  split at hstep
  · split_ifs at hstep
    · cases hstep
      refine rank_lt_of_first ?_
      rw [if_neg hexited]
      exact Nat.add_lt_add_right (Nat.lt_succ_self _) _
    · obtain ⟨w', hwork, rfl⟩ := Option.map_eq_some_iff.mp hstep
      exact Prod.Lex.toLex_lt_toLex.mpr (Or.inr ⟨rfl, hworld hspurious hwork⟩)
  · obtain ⟨w', hwork, rfl⟩ := Option.map_eq_some_iff.mp hstep
    exact Prod.Lex.toLex_lt_toLex.mpr (Or.inr ⟨rfl, hworld hspurious hwork⟩)
  · obtain ⟨w', hwork, rfl⟩ := Option.map_eq_some_iff.mp hstep
    cases hroused : c.roused with
    | true =>
        refine rank_lt_of_first ?_
        rw [hroused]
        exact Nat.lt_succ_self _
    | false =>
        rw [hroused, Bool.or_false] at hwork
        refine Prod.Lex.toLex_lt_toLex.mpr (Or.inr ⟨?_, hworld hspurious hwork⟩)
        rw [hroused]

theorem rank_lt_of_goes {h : cfg.Accepted} (hc : CloseInv h w₀ c) (hgoes : action.GoesOn c)
    (hstep : c.step action = some c') : c'.rank < c.rank := by
  unfold Closing.step at hstep
  split_ifs at hstep
  cases action with
  | close => exact rank_lt_of_close hstep
  | work choice => exact rank_lt_of_work hc hgoes hstep
  | deliver id status =>
      obtain ⟨w', hdeliver, rfl⟩ := Option.map_eq_some_iff.mp hstep
      refine Prod.Lex.toLex_lt_toLex.mpr (Or.inr ⟨rfl, ?_⟩)
      exact World.rank_lt_of_goes (World.fillInv_of_reachable hc.reached.reachable)
        (fun thread _ => hc.idle thread) hdeliver hgoes

/-! ## Where nothing goes on -/

/-- The worker can go on until it returns, once the transport has delivered everything. -/
theorem work_isSome {h : cfg.Accepted} (hc : CloseInv h w₀ c) (hquiescent : c.world.Quiescent)
    (hjoining : c.closer = .joining) (hrunning : c.exited = false) : (c.work {}).isSome := by
  have hlives := World.lives_of_room hc.reached
  have haccepted := World.waitsForAccepted_of_reachable hc.reached.reachable
  have hworld : ∀ choice : Choice, (World.workerStep c.world.table choice c.world.worker).isSome →
      (c.world.step (.work choice)).isSome := fun choice hsome => by
    unfold World.step
    rw [hlives]
    exact Option.isSome_map.trans hsome
  have hfinisher : ∀ slot fpc, c.world.worker = .finishing slot fpc → ∀ id ∈ fpc.pending,
      id < c.world.table.requestCount := fun slot fpc heq => haccepted none slot fpc (by
    show c.world.worker.fill = _
    rw [heq]
    rfl)
  unfold Closing.work
  rw [hrunning, if_neg Bool.false_ne_true]
  split <;> rename_i hpc
  · split_ifs
    · rfl
    · refine Option.isSome_map.trans (hworld _ ?_)
      exact World.workerStep_isSome hquiescent hfinisher (fun since heq => by
        rw [hpc] at heq
        cases heq) _
  · refine Option.isSome_map.trans (hworld _ ?_)
    exact World.workerStep_isSome hquiescent hfinisher (fun since heq => by
      rw [hpc] at heq
      cases heq) _
  · rename_i since
    have hroused : c.roused = true := hc.rouses hjoining hrunning (by
      rw [hpc]
      rfl)
    refine Option.isSome_map.trans (hworld _ ?_)
    rw [hpc, hroused]
    have hwakes : (if since < c.world.table.notifications ∨ true = true then
        some ((WorkerPc.scan : WorkerPc cfg), c.world.table) else none).isSome := by
      rw [if_pos (Or.inr rfl)]
      rfl
    exact hwakes

/-- Where nothing goes on the destructor is over. -/
theorem over_of_stuck {h : cfg.Accepted} (hc : CloseInv h w₀ c) (hstuck : c.Stuck) :
    c.closer.Over := by
  by_contra hover
  have hclose := hstuck .close trivial
  have hwork := hstuck (.work {}) rfl
  unfold Closing.step at hclose hwork
  rw [if_neg hover] at hclose hwork
  dsimp only at hclose hwork
  have hquiescent : c.world.Quiescent := by
    intro id hid hlive
    have hterminal : MemStatus.ok.Terminal := by decide
    have hnone := hstuck (.deliver id .ok) ⟨hid, hlive, hterminal⟩
    unfold Closing.step at hnone
    rw [if_neg hover] at hnone
    dsimp only at hnone
    unfold World.step at hnone
    rw [World.lives_of_room hc.reached] at hnone
    cases hnone
  unfold Closing.close at hclose
  split at hclose <;> rename_i hpc
  · split_ifs at hclose
  · cases hclose
  · split_ifs at hclose with hexited
    have hrunning : c.exited = false := Bool.not_eq_true _ ▸ hexited
    have hsome := work_isSome hc hquiescent hpc hrunning
    rw [hwork] at hsome
    cases hsome
  · split_ifs at hclose
  · exact hover (Or.inl hpc)
  · exact hover (Or.inr hpc)

/-- What the destructor of a table comes to. -/
structure TearsDown (w₀ : World cfg) (c : Closing cfg) : Prop where
  /-- The destructor, the worker and the transport do not go on for ever. -/
  ends : ¬ Endless Goes c
  /-- They stop only where the destructor is over. -/
  stops : c.Stuck → c.closer.Over
  /-- Once the worker has been joined, every fill has been finished. -/
  finished : c.closer = .checking ∨ c.closer.Over → c.exited = true ∧
    c.world.table.inFlight = 0 ∧ ∀ slot, (c.world.table.slots slot).state ≠ .filling
  /-- The destructor returns only if no lease and no ticket is held. -/
  closed : c.closer = .closed → Unheld w₀
  /-- It ends the process only if one is. -/
  terminated : c.closer = .terminated → ¬ Unheld w₀

/-- Destroying a table after its last call: the destructor waits for every fill and for nothing
else, and calls `std::terminate` exactly if a lease or a ticket is still held. -/
theorem tears_down {h : cfg.Accepted}
    (hw : Reaches World.step World.LeaseRoom (World.start cfg h) w₀)
    (hidle : ∀ thread, w₀.threads thread = .idle) (hc : Reachable Closing.step (.start w₀) c) :
    TearsDown w₀ c := by
  have hinv := closeInv_of_reachable hw hidle hc
  refine ⟨?_, over_of_stuck hinv, fun hjoined => ?_, hinv.closed, hinv.terminated⟩
  · have hkeep : ∀ c c', CloseInv h w₀ c → Goes c c' → CloseInv h w₀ c' := by
      rintro c c' hc ⟨action, -, hstep⟩
      exact hc.step hstep
    have hless : ∀ c c', CloseInv h w₀ c → Goes c c' → c'.rank < c.rank := by
      rintro c c' hc ⟨action, hgoes, hstep⟩
      exact rank_lt_of_goes hc hgoes hstep
    exact not_endless rank hkeep hless hinv
  · have hexited := hinv.joined hjoined
    exact ⟨hexited, hinv.inFlight hexited, hinv.exited hexited⟩

/-- Actions that are nobody's calls put no thread into a call. -/
theorem idle_of_exec {h : cfg.Accepted} {actions : List (Action cfg)}
    (hw : Reachable World.step (World.start cfg h) w) (hidle : ∀ thread, w.threads thread = .idle)
    (hcallers : ∀ action ∈ actions, action.caller = none)
    (hexec : exec World.step actions w = some w') (thread : ThreadId) :
    w'.threads thread = .idle := by
  induction actions generalizing w with
  | nil =>
      cases hexec
      exact hidle thread
  | cons action actions ih =>
      obtain ⟨u, hstep, hrest⟩ := Option.bind_eq_some_iff.mp hexec
      have hkeeps := ((World.spanInv_of_reachable hw).step hstep).2
      refine ih (hw.step trivial hstep) (fun k => ?_)
        (fun a ha => hcallers a (List.mem_cons_of_mem _ ha)) hrest
      have hne : action.caller ≠ some k := by
        rw [hcallers action List.mem_cons_self]
        exact (Option.some_ne_none k).symm
      rw [(hkeeps k hne).pc]
      exact hidle k

end Closing

/-- A prefetch whose ticket is dropped while both its chunks are on their way. -/
def abandonedRun : List (Action twoShards) := [.prefetch [0] 0 fun _ => {}, .dropTicket 0]

/-- The destructor tells the worker to stop, and waits until it has finished the fill. -/
def closingRun : List CloseAction :=
  [.close, .work {}, .close, .work {}, .deliver 0 .ok, .work {}, .deliver 1 .ok, .work {}, .work {},
    .work {}, .work {}, .close, .close]

/-- The table is destroyed with a fill in flight when the destructor begins. -/
theorem tears_down_abandoned :
    ∃ w c, exec World.step abandonedRun (World.start twoShards twoShards_accepted) = some w ∧
      exec Closing.step closingRun (.start w) = some c ∧
      w.table.inFlight = 1 ∧ c.closer = .closed ∧ Closing.TearsDown w c := by
  have hrun : (exec World.step abandonedRun (World.start twoShards twoShards_accepted)).any
      fun w => (exec Closing.step closingRun (.start w)).any
        fun c => w.table.inFlight = 1 ∧ c.closer = .closed := by
    decide +kernel
  have hallowed : AllAllowed World.step World.LeaseRoom abandonedRun
      (World.start twoShards twoShards_accepted) := by
    decide +kernel
  obtain ⟨w, hw, hfacts⟩ := (Option.any_eq_true _ _).mp hrun
  obtain ⟨c, hc, hfacts⟩ := (Option.any_eq_true _ _).mp hfacts
  obtain ⟨hinFlight, hclosed⟩ := of_decide_eq_true hfacts
  have hidle := Closing.idle_of_exec .start (fun _ => rfl) (by decide) hw
  exact ⟨w, c, hw, hc, hinFlight, hclosed, Closing.tears_down (reaches_of_exec .start hallowed hw)
    hidle (reachable_of_exec .start hc)⟩

end TieredCache
