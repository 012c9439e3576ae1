/-
# Leases are stable

While fewer than `2 ^ 32` leases are held, pins count lease variables, every lease that
has been handed out stays on its ready row until it is released, and no release finds a
reused slot.
-/

import TieredCache.Table.CallSteps

namespace TieredCache

open Math.Runs Math.Tally

variable {cfg : TableConfig}

namespace World

variable {w w' : World cfg}

/-- Pins are accounted for and leases are on their rows. -/
structure LeasesStable (w : World cfg) : Prop where
  /-- `pins_total_` is the sum of the slots' pins. -/
  total : w.table.pinsTotal.toNat = ∑ slot, (w.table.slots slot).pins.toNat
  /-- The pins of a slot count the variables that name it, those of running calls too. -/
  pins : ∀ slot, {v | ∃ l, w.leases v = some l ∧ l.slot = slot}.encard =
    (w.table.slots slot).pins.toNat
  /-- A lease that is not pending in a running call is on the ready row it was taken on. -/
  named : ∀ v l, w.leases v = some l → ¬ w.Unsettled v →
    (w.table.slots l.slot).state = .ready ∧ (w.table.slots l.slot).indexed = true ∧
      (w.table.slots l.slot).epoch = l.epoch ∧ (w.table.slots l.slot).rowIndex = l.rowIndex ∧
      (w.table.slots l.slot).rowGeneration = l.generation ∧
      w.table.publishedSpan l.slot = l.bytes
  /-- No variable outside the running calls is pending. -/
  outside : ∀ v, w.inUse v = false → ¬ w.Unsettled v
  /-- When `resolve_into` returns success every entry has its lease, and none is pending. -/
  returned : ∀ thread call n, w.threads thread = .resolving call (.returned (.ok n)) →
    ∀ v, call.InSpan v → (∃ l, w.leases v = some l) ∧ ¬ w.Unsettled v
  /-- A release never reaches `std::terminate`. -/
  release : ∀ v l, w.leases v = some l → (w.table.releaseLease l.slot l.epoch).isSome
  /-- Every lease granted is in exactly one variable, or has been released exactly once. -/
  once : w.released.Nodup ∧ ∀ id < w.granted,
    (id ∈ w.released ∧ ∀ v l, w.leases v = some l → l.id ≠ id) ∨
      (id ∉ w.released ∧ ∃! v, ∃ l, w.leases v = some l ∧ l.id = id)

/-- What was handed out before is still there, or has been released. -/
def StaysLeased (w w' : World cfg) : Prop :=
  ∀ v l, w.leases v = some l → ¬ w.Unsettled v → l.id ∈ w'.released ∨
    (∃ v', w'.leases v' = some l) ∧
      (w'.table.slots l.slot).state = .ready ∧ (w'.table.slots l.slot).indexed = true ∧
      (w'.table.slots l.slot).epoch = (w.table.slots l.slot).epoch ∧
      (w'.table.slots l.slot).rowIndex = (w.table.slots l.slot).rowIndex ∧
      (w'.table.slots l.slot).rowGeneration = (w.table.slots l.slot).rowGeneration ∧
      (w'.table.slots l.slot).publishedOffset = (w.table.slots l.slot).publishedOffset ∧
      (w'.table.slots l.slot).publishedBytes = (w.table.slots l.slot).publishedBytes

/-- With room for its leases a run keeps its calls in order, whatever the generations. -/
theorem callsInv_of_room {h : cfg.Accepted}
    (hw : Reaches World.step LeaseRoom (World.start cfg h) w) : w.CallsInv False :=
  callsInv_of_reaches (fun _ _ hroom => hroom) (fun _ _ => False.elim) hw

theorem leasesStable {fresh : Prop} (hfill : w.FillInv) (h : w.CallsInv fresh) :
    w.LeasesStable where
  total := h.pins.total_eq_sum
  pins := fun slot => by
    have hset : {v | ∃ l, w.leases v = some l ∧ l.slot = slot} =
        {v | slotOf (w.leases v) = some slot} := by
      ext v
      cases hv : w.leases v <;> simp [hv]
    rw [hset, h.pins.pins slot, holders, tally, (h.pins.finite_slot slot).cast_ncard_eq]
  named := fun v l hv hsettled => by
    have hnames := h.pins.names v l hv
    have hstable := h.stable v l hv hsettled
    refine ⟨hstable.ready, ?_, hnames.epoch, congrArg Prod.fst hnames.key,
      congrArg Prod.snd hnames.key, hstable.bytes⟩
    exact (hfill.index.occupied l.slot).mpr (Or.inr hstable.ready)
  outside := fun v => h.settled_of_free
  returned := fun thread call n hpc v hin => by
    refine ⟨?_, h.settled hpc hin fun hpending => hpending⟩
    obtain ⟨l, hl, -⟩ := (h.call thread call _ hpc).2.taken _ hin.sub_lt
    rw [hin.add_sub] at hl
    exact ⟨l, hl⟩
  release := fun v l hv => by
    rw [h.pins.releaseLease_isSome hv]
    rfl
  once := by
    refine ⟨h.pins.released_nodup, fun id hid => ?_⟩
    by_cases hrel : id ∈ w.released
    · refine Or.inl ⟨hrel, fun v l hv heq => ?_⟩
      rw [← heq] at hrel
      exact h.pins.not_released v l hv hrel
    · obtain ⟨v, l, hv, hl⟩ := (h.pins.accounted id hid).resolve_left hrel
      refine Or.inr ⟨hrel, v, ⟨l, hv, hl⟩, ?_⟩
      rintro v' ⟨l', hv', hl'⟩
      exact h.pins.distinct v' v l' l hv' hv (hl'.trans hl.symm)

/-- A lease on a ready row stays as it is or is released, over any number of steps. -/
theorem kept_of_reaches {h : cfg.Accepted}
    (hw : Reaches World.step LeaseRoom (World.start cfg h) w)
    (hw' : Reaches World.step LeaseRoom w w') {v : LeaseVar} {l : Lease cfg}
    (hv : w.leases v = some l) (hstable : Stable w.table l) :
    Reaches World.step LeaseRoom (World.start cfg h) w' ∧
      (l.id ∈ w'.released ∨ (∃ v', w'.leases v' = some l) ∧
        Table.Carries (w.table.slots l.slot) (w'.table.slots l.slot)) := by
  induction hw' with
  | start =>
      exact ⟨hw, Or.inr ⟨⟨v, hv⟩, .refl ((callsInv_of_room hw).pins.names v l hv).not_free⟩⟩
  | step hs hroom hstep ih =>
      obtain ⟨hreach, hkept⟩ := ih
      have hcalls := callsInv_of_room hreach
      have hnext := hcalls.step (fillInv_of_reachable hreach.reachable)
        (failInv_of_reachable hreach.reachable) False.elim hroom hstep
      refine ⟨hreach.step hroom hstep, ?_⟩
      rcases hkept with hid | ⟨⟨v', hv'⟩, hcarries⟩
      · exact Or.inl (hnext.released _ hid)
      · refine (hnext.kept v' l hv' (hstable.carries hcarries)).imp_right fun hheld => ?_
        exact ⟨hheld, hcarries.trans (hnext.carries v' l hv')⟩

/-- In every run with room for its leases, leases are stable. -/
theorem leases_stable {h : cfg.Accepted}
    (hw : Reaches World.step LeaseRoom (World.start cfg h) w) :
    w.LeasesStable ∧ ∀ w', Reaches World.step LeaseRoom w w' → w.StaysLeased w' := by
  have hcalls := callsInv_of_room hw
  refine ⟨leasesStable (fillInv_of_reachable hw.reachable) hcalls, fun w' hw' v l hv hsettled => ?_⟩
  have hstable := hcalls.stable v l hv hsettled
  obtain ⟨hreach, hkept⟩ := kept_of_reaches hw hw' hv hstable
  refine hkept.imp_right ?_
  rintro ⟨hheld, hcarries⟩
  obtain ⟨hstate, -, hoffset, hbytes⟩ := hcarries.ended (by rw [hstable.ready]; decide)
  rw [hstable.ready] at hstate
  refine ⟨hheld, hstate, ?_, hcarries.epoch, congrArg Prod.fst hcarries.key,
    congrArg Prod.snd hcarries.key, hoffset, hbytes⟩
  exact ((fillInv_of_reachable hreach.reachable).index.occupied l.slot).mpr (Or.inr hstate)

/-! ## Many leases on one row -/

/-- The state after `n` leases on a resident row were taken, into the variables below
`n`. -/
def hits (w : World cfg) (slot : cfg.SlotId) (row : UInt64) (n : ℕ) : World cfg :=
  let s := w.table.slots slot
  { w with
    table :=
      { w.table with
        slots := Function.update w.table.slots slot
          { s with
            pins := s.pins + UInt32.ofNat n
            referenced := s.referenced || decide (0 < n) }
        pinsTotal := w.table.pinsTotal + UInt32.ofNat n
        counters := { w.table.counters with hits := w.table.counters.hits + UInt64.ofNat n } }
    leases := fun v =>
      if v < n then
        some ⟨slot, s.epoch, w.table.publishedSpan slot, row, s.rowGeneration, w.granted + v,
          s.filledThrough⟩
      else w.leases v
    granted := w.granted + n }

theorem hits_zero (w : World cfg) (slot : cfg.SlotId) (row : UInt64) : w.hits slot row 0 = w := by
  simp [hits]

theorem hits_leases (w : World cfg) (slot : cfg.SlotId) (row : UInt64) {n v : ℕ} (hv : v < n) :
    ∃ l, (w.hits slot row n).leases v = some l ∧ l.slot = slot := by
  simp [hits, hv]

/-- One more hit. -/
theorem tryGet_hits {slot : cfg.SlotId} {row : UInt64} {n : ℕ}
    (hfind : w.table.indexFind (row, w.table.currentGeneration) = some slot)
    (hready : (w.table.slots slot).state = .ready) (hrow : row < cfg.rowCount)
    (hfree : w.inUse n = false) (hempty : w.leases n = none) :
    (w.hits slot row n).tryGet row n = some (w.hits slot row (n + 1)) := by
  have hself : (w.hits slot row n).table.slots slot = _ := Function.update_self ..
  have hkeys : (w.hits slot row n).table.keyOf = w.table.keyOf :=
    funext (proj_update Slot.key w.table.slots rfl)
  have hfind' : (w.hits slot row n).table.indexFind
      (row, (w.hits slot row n).table.currentGeneration) = some slot := by
    rw [← hfind]
    unfold Table.indexFind
    rw [hkeys]
    rfl
  have hleases : (w.hits slot row n).leases n = none := by
    simp [hits, hempty]
  have hspan : (w.hits slot row n).table.countHit.publishedSpan slot =
      w.table.publishedSpan slot := by
    unfold Table.publishedSpan
    rw [show (w.hits slot row n).table.countHit.slots slot = _ from hself]
  have hfound : (w.hits slot row n).table.findReady row =
      (some slot, (w.hits slot row n).table.countHit) := by
    unfold Table.findReady
    rw [hfind']
    dsimp only
    rw [hself, if_neg (not_not.mpr hready)]
  unfold tryGet
  rw [if_neg, if_neg (UInt64.not_le.mpr hrow), hfound]
  · dsimp only
    rw [hspan]
    refine congrArg some ?_
    unfold grant Table.pin Table.countHit
    dsimp only
    rw [hself]
    unfold hits
    simp only [Function.update_idem, World.mk.injEq, Table.mk.injEq, true_and, and_true]
    have hpins : ∀ x : UInt32, x + UInt32.ofNat n + 1 = x + UInt32.ofNat (n + 1) := fun x => by
      rw [UInt32.ofNat_add, UInt32.add_assoc]
      rfl
    have hcount : ∀ x : UInt64, x + UInt64.ofNat n + 1 = x + UInt64.ofNat (n + 1) := fun x => by
      rw [UInt64.ofNat_add, UInt64.add_assoc]
      rfl
    refine ⟨⟨by simp [hpins], hpins _, by rw [hcount]⟩, ?_, Nat.add_assoc ..⟩
    funext v
    by_cases hv : v = n
    · simp [hv]
    · rw [Function.update_of_ne hv]
      have hiff : v < n ↔ v < n + 1 :=
        ⟨Nat.lt_succ_of_lt, fun hlt => Nat.lt_of_le_of_ne (Nat.le_of_lt_succ hlt) hv⟩
      simp only [hiff]
  · rw [not_or, not_not]
    exact ⟨by rw [show (w.hits slot row n).inUse = w.inUse from rfl, hfree]; decide, hleases⟩

/-- Any number of leases can be taken on a resident row. -/
theorem reachable_hits {start : World cfg} {slot : cfg.SlotId} {row : UInt64}
    (hw : Reachable World.step start w) (halive : w.crashed = false)
    (hfind : w.table.indexFind (row, w.table.currentGeneration) = some slot)
    (hready : (w.table.slots slot).state = .ready) (hrow : row < cfg.rowCount)
    (hfree : ∀ v, w.inUse v = false) (hempty : ∀ v, w.leases v = none) (n : ℕ) :
    Reachable World.step start (w.hits slot row n) := by
  induction n with
  | zero =>
      rw [hits_zero]
      exact hw
  | succ n ih =>
      refine ih.step (a := .tryGet row n) trivial ?_
      have hstep := tryGet_hits hfind hready hrow (hfree n) (hempty n)
      unfold World.step
      rw [if_neg (by rw [show (w.hits slot row n).crashed = false from halive]; decide)]
      exact hstep

end World

/-! ## The condition is needed -/

/-- Row 0 of the small table is fetched, and the worker publishes it. -/
def residentRun : List (Action twoShards) :=
  [.prefetch [0] 0 fun _ => {}, .deliver 0 .ok, .deliver 1 .ok, .work {}, .work {}, .work {},
    .work {}, .work {}, .work {}]

/-- The state that run ends in. -/
def resident : World twoShards :=
  (exec World.step residentRun (World.start twoShards twoShards_accepted)).getD
    (World.start twoShards twoShards_accepted)

/-- The one slot of the small table. -/
def onlySlot : twoShards.SlotId := ⟨0, by decide⟩

theorem resident_leases :
    (exec World.step residentRun (World.start twoShards twoShards_accepted)).map
      (fun w => (w.inUse, w.leases, w.granted)) = some (fun _ => false, fun _ => none, 0) := rfl

/-- Any number of leases can be held on the resident row. -/
theorem reachable_resident_hits (n : ℕ) :
    Reachable World.step (World.start twoShards twoShards_accepted)
      (resident.hits onlySlot 0 n) := by
  have hrun : (exec World.step residentRun (World.start twoShards twoShards_accepted)).any
      fun w => w.crashed = false ∧
        w.table.indexFind (0, w.table.currentGeneration) = some onlySlot ∧
        (w.table.slots onlySlot).state = .ready := by
    decide +kernel
  obtain ⟨w, hw, hfacts⟩ := (Option.any_eq_true _ _).mp hrun
  obtain ⟨halive, hfind, hready⟩ := of_decide_eq_true hfacts
  have hresident : resident = w := by rw [resident, hw, Option.getD_some]
  have hleases := resident_leases
  rw [hw, Option.map_some, Option.some.injEq, Prod.mk.injEq, Prod.mk.injEq] at hleases
  rw [hresident]
  exact World.reachable_hits (reachable_of_exec .start hw) halive hfind hready (by decide)
    (fun v => by rw [hleases.1]) (fun v => by rw [hleases.2.1]) n

/-- With `2 ^ 32` leases on it a slot looks unpinned. -/
theorem leases_not_stable :
    ∃ w, Reachable World.step (World.start twoShards twoShards_accepted) w ∧
      ¬ w.LeasesStable := by
  refine ⟨_, reachable_resident_hits (2 ^ 32), fun h => ?_⟩
  have hpins := h.pins onlySlot
  have hzero : ((resident.hits onlySlot 0 (2 ^ 32)).table.slots onlySlot).pins.toNat = 0 := by
    decide +kernel
  rw [hzero, Nat.cast_zero, Set.encard_eq_zero] at hpins
  have hlease : 0 ∈ {v | ∃ l, (resident.hits onlySlot 0 (2 ^ 32)).leases v = some l ∧
      l.slot = onlySlot} :=
    resident.hits_leases onlySlot 0 (by decide)
  rw [hpins] at hlease
  exact hlease

/-- Row 0 is resident; a thread resolves it while another lease on it is taken and
released. -/
def sharedRun : List (Action twoShards) :=
  residentRun ++ [.tryGet 0 5, .resolveInto 0 [0] 0 1, .advance 0 {}, .advance 0 {},
    .advance 0 {}, .reset 5, .advance 0 {}, .advance 0 {}]

/-- A run whose leases are stable. -/
theorem leases_stable_shared :
    ∃ w, exec World.step sharedRun (World.start twoShards twoShards_accepted) = some w ∧
      w.LeasesStable := by
  have hrun : (exec World.step sharedRun (World.start twoShards twoShards_accepted)).isSome := by
    decide +kernel
  have hallowed : AllAllowed World.step World.LeaseRoom sharedRun
      (World.start twoShards twoShards_accepted) := by
    decide +kernel
  obtain ⟨w, hw⟩ := Option.isSome_iff_exists.mp hrun
  exact ⟨w, hw, (World.leases_stable (reaches_of_exec .start hallowed hw)).1⟩

end TieredCache
