/-
# Steps as sequences of counted motions

`Edit` says which parts of a table a section leaves alone; the statistics need to know
what it does.  Here a step is a sequence of motions, each with its effect on the states
of the slots, their pins and the counters: a row is admitted into a vacated slot, a slot
is pinned or unpinned, a fill is published, or something else happens that none of these
depend on.
-/

import TieredCache.Table.Records

namespace TieredCache

variable {cfg : TableConfig}

namespace Table

variable {t t' t'' : Table cfg} {slot : cfg.SlotId}

/-- Slot states, pins and the counters of fills are as they were. -/
structure Aside (t t' : Table cfg) : Prop where
  state : ∀ s, (t'.slots s).state = (t.slots s).state
  pins : ∀ s, (t'.slots s).pins = (t.slots s).pins
  nonFree : t'.nonFree = t.nonFree
  fetches : t'.counters.fetches = t.counters.fetches
  failed : t'.counters.failed = t.counters.failed
  evictions : t'.counters.evictions = t.counters.evictions
  conversions : t'.counters.conversions = t.counters.conversions
  codecFailures : t'.counters.codecFailures = t.counters.codecFailures
  fetchLog : t'.fetchLog = t.fetchLog

@[refl]
theorem Aside.refl (t : Table cfg) : Aside t t :=
  ⟨fun _ => rfl, fun _ => rfl, rfl, rfl, rfl, rfl, rfl, rfl, rfl⟩

theorem Aside.trans (h : Aside t t') (h' : Aside t' t'') : Aside t t'' where
  state := fun s => (h'.state s).trans (h.state s)
  pins := fun s => (h'.pins s).trans (h.pins s)
  nonFree := h'.nonFree.trans h.nonFree
  fetches := h'.fetches.trans h.fetches
  failed := h'.failed.trans h.failed
  evictions := h'.evictions.trans h.evictions
  conversions := h'.conversions.trans h.conversions
  codecFailures := h'.codecFailures.trans h.codecFailures
  fetchLog := h'.fetchLog.trans h.fetchLog

/-- A rewrite of one slot that leaves its state and pins alone. -/
theorem Aside.modify (t : Table cfg) (slot : cfg.SlotId) (f : Slot cfg → Slot cfg)
    (hstate : (f (t.slots slot)).state = (t.slots slot).state)
    (hpins : (f (t.slots slot)).pins = (t.slots slot).pins) : Aside t (t.modify slot f) where
  state := proj_update Slot.state t.slots hstate
  pins := proj_update Slot.pins t.slots hpins
  nonFree := rfl
  fetches := rfl
  failed := rfl
  evictions := rfl
  conversions := rfl
  codecFailures := rfl
  fetchLog := rfl

/-- `++counters_.evictions`. -/
def countEviction (t : Table cfg) : Table cfg :=
  { t with counters := { t.counters with evictions := t.counters.evictions + 1 } }

/-- A slot the sweep has chosen, free at last. -/
inductive Vacated (t : Table cfg) (slot : cfg.SlotId) : Table cfg → Prop
  | free (hstate : (t.slots slot).state = .free) : Vacated t slot t
  | failed (hpins : (t.slots slot).pins = 0) (hstate : (t.slots slot).state = .failed) :
      Vacated t slot (t.makeFree slot)
  | evicted (hpins : (t.slots slot).pins = 0) (hstate : (t.slots slot).state = .ready) :
      Vacated t slot (t.countEviction.makeFree slot)

/-- A motion of the table. -/
inductive Motion (t : Table cfg) : Table cfg → Prop
  | aside {t' : Table cfg} (h : Aside t t') : Motion t t'
  | admitted (answers : Answers) (slot : cfg.SlotId) (row : UInt64) {u : Table cfg}
      (h : Vacated t slot u) : Motion t (u.startFillLocked answers slot row).2
  | pinned (slot : cfg.SlotId) (h : (t.slots slot).state ≠ .free) : Motion t (t.pin slot)
  | unpinned (slot : cfg.SlotId) (h : (t.slots slot).pins ≠ 0) : Motion t (t.unpinLocked slot)
  | published (slot : cfg.SlotId) (result : Status) (h : (t.slots slot).state = .filling) :
      Motion t (t.publish slot result)

/-- A sequence of motions. -/
abbrev Motions : Table cfg → Table cfg → Prop := Relation.ReflTransGen Motion

theorem Aside.motions (h : Aside t t') : Motions t t' := .single (.aside h)

/-- A property every motion keeps is kept by a sequence of them. -/
theorem Motions.invariant {inv : Table cfg → Prop} (h : Motions t t')
    (hmotion : ∀ u u', inv u → Motion u u' → inv u') (hinv : inv t) : inv t' := by
  induction h with
  | refl => exact hinv
  | tail _ hlast ih => exact hmotion _ _ ih hlast

/-! ## The search for a victim -/

/-- The sweep goes round, and the slot it ends at, if any, is vacated. -/
theorem claimVictimLoop_motions (steps : ℕ) (t : Table cfg) :
    ∃ u, Aside t u ∧ (claimVictimLoop steps t = (none, u) ∨
      ∃ slot v, Vacated u slot v ∧ claimVictimLoop steps t = (some slot, v)) := by
  induction steps generalizing t with
  | zero => exact ⟨t, .refl t, Or.inl rfl⟩
  | succ steps ih =>
      have hhand : Aside t { t with clockHand := nextHand t.clockHand } :=
        ⟨fun _ => rfl, fun _ => rfl, rfl, rfl, rfl, rfl, rfl, rfl, rfl⟩
      unfold claimVictimLoop
      dsimp only
      split_ifs with hfree hskip hfailed href
      · exact ⟨_, hhand, Or.inr ⟨_, _, .free hfree, rfl⟩⟩
      · obtain ⟨u, hu, hresult⟩ := ih { t with clockHand := nextHand t.clockHand }
        exact ⟨u, hhand.trans hu, hresult⟩
      · rw [not_or, not_not] at hskip
        exact ⟨_, hhand, Or.inr ⟨_, _, .failed hskip.1 hfailed, rfl⟩⟩
      · obtain ⟨u, hu, hresult⟩ := ih
          (({ t with clockHand := nextHand t.clockHand }).modify t.clockHand fun s =>
            { s with referenced := false })
        exact ⟨u, (hhand.trans (.modify _ _ _ rfl rfl)).trans hu, hresult⟩
      · rw [not_or, not_not] at hskip
        have hready : (t.slots t.clockHand).state = .ready := by
          cases hstate : (t.slots t.clockHand).state with
          | free => exact absurd hstate hfree
          | filling => exact absurd hstate hskip.2
          | ready => rfl
          | failed => exact absurd hstate hfailed
        exact ⟨_, hhand, Or.inr ⟨_, _, .evicted hskip.1 hready, rfl⟩⟩

theorem claimVictim_motions (t : Table cfg) :
    ∃ u, Aside t u ∧ (t.claimVictim = (none, u) ∨
      ∃ slot v, Vacated u slot v ∧ t.claimVictim = (some slot, v)) :=
  claimVictimLoop_motions _ t

/-- A slot in which a fill was started is not free, whether the fill goes on or failed. -/
theorem startFillLocked_not_free (t : Table cfg) (answers : Answers) (slot : cfg.SlotId)
    (row : UInt64) : ((t.startFillLocked answers slot row).2.slots slot).state ≠ .free := by
  cases hstart : t.startFillLocked answers slot row with
  | mk status u =>
      by_cases hok : status = .ok
      · subst hok
        rw [(startFillLocked_ok hstart).1]
        decide
      · rw [(startFillLocked_refused hstart hok).1]
        decide

/-! ## Sections -/

theorem findOrFetch_motions (h : t.IndexInv) (answers : Answers) (row : UInt64) :
    Motions t (t.findOrFetch answers row).2 ∧
      ∀ slot, (t.findOrFetch answers row).1 = .ok slot →
        ((t.findOrFetch answers row).2.slots slot).state ≠ .free := by
  unfold findOrFetch
  split
  · rename_i slot hfind
    have hoccupied := (h.occupied slot).mp (h.indexFind_eq_some_iff.mp hfind).1
    have hstate : (t.slots slot).state ≠ .free := by
      rcases hoccupied with hs | hs <;> rw [hs] <;> decide
    refine ⟨Aside.motions ?_, ?_⟩
    · dsimp only
      split <;> exact ⟨fun _ => rfl, fun _ => rfl, rfl, rfl, rfl, rfl, rfl, rfl, rfl⟩
    · rintro slot ⟨⟩
      dsimp only
      split <;> exact hstate
  · obtain ⟨u, hu, hclaim | ⟨slot, v, hv, hclaim⟩⟩ := t.claimVictim_motions
    · rw [hclaim]
      exact ⟨hu.motions, fun slot hslot => by cases hslot⟩
    · rw [hclaim]
      have hmotions : Motions t (v.startFillLocked answers slot row).2 :=
        hu.motions.tail (.admitted answers slot row hv)
      have hnot := v.startFillLocked_not_free answers slot row
      dsimp only
      split <;> rename_i hstart <;> rw [hstart] at hmotions hnot
      · refine ⟨hmotions, ?_⟩
        rintro slot ⟨⟩
        exact hnot
      · exact ⟨hmotions, fun slot hslot => by cases hslot⟩

theorem findReady_aside (t : Table cfg) (row : UInt64) : Aside t (t.findReady row).2 := by
  unfold findReady
  split
  · exact ⟨fun _ => rfl, fun _ => rfl, rfl, rfl, rfl, rfl, rfl, rfl, rfl⟩
  · split_ifs <;> exact ⟨fun _ => rfl, fun _ => rfl, rfl, rfl, rfl, rfl, rfl, rfl, rfl⟩

theorem prefetchRow_motions (t : Table cfg) (answers : Answers) (record : cfg.RecordId) (i : ℕ)
    (row : UInt64) : Motions t (t.prefetchRow answers record i row) := by
  have hwaiter : ∀ (u : Table cfg) entry, Aside u (u.setWaiter record i entry) := fun u entry =>
    ⟨fun _ => rfl, fun _ => rfl, rfl, rfl, rfl, rfl, rfl, rfl, rfl⟩
  unfold prefetchRow
  split
  · obtain ⟨u, hu, hclaim | ⟨slot, v, hv, hclaim⟩⟩ := t.claimVictim_motions
    · rw [hclaim]
      exact (hu.trans (hwaiter u _)).motions
    · rw [hclaim]
      exact (hu.motions.tail (.admitted answers slot row hv)).tail (.aside (hwaiter _ _))
  · apply Aside.motions
    split <;> exact ⟨fun _ => rfl, fun _ => rfl, rfl, rfl, rfl, rfl, rfl, rfl, rfl⟩

theorem prefetchRows_motions (answers : Answers) (record : cfg.RecordId) (rows : List UInt64)
    (i : ℕ) (t : Table cfg) : Motions t (prefetchRows answers record i rows t) := by
  induction rows generalizing t i with
  | nil => exact .refl
  | cons row rows ih => exact (t.prefetchRow_motions answers record i row).trans (ih _ _)

theorem openRecord_aside (t : Table cfg) (record : cfg.RecordId) (count : ℕ) :
    Aside t (t.openRecord record count) :=
  ⟨fun _ => rfl, fun _ => rfl, rfl, rfl, rfl, rfl, rfl, rfl, rfl⟩

theorem prefetch_motions (t : Table cfg) (answers : Answers) (rows : List UInt64) :
    Motions t (t.prefetch answers rows).2 := by
  unfold prefetch
  split_ifs
  · exact .refl
  · exact .refl
  · split
    · exact .refl
    · rename_i record hrecord
      exact (t.openRecord_aside record rows.length).motions.trans (prefetchRows_motions ..)

theorem discardTicket_aside {ticket : Ticket cfg} (h : t.discardTicket ticket = some t') :
    Aside t t' := by
  unfold discardTicket at h
  dsimp only at h
  split_ifs at h
  cases h
  exact ⟨fun _ => rfl, fun _ => rfl, rfl, rfl, rfl, rfl, rfl, rfl, rfl⟩

theorem invalidate_aside (t : Table cfg) (creation : MemStatus) (generation : UInt64)
    (sources : List ShardSource) (resolver : Option RowExtentResolver) :
    Aside t (t.invalidate creation generation sources resolver).2 := by
  unfold invalidate
  split_ifs <;> exact ⟨fun _ => rfl, fun _ => rfl, rfl, rfl, rfl, rfl, rfl, rfl, rfl⟩

theorem deliver_aside (t : Table cfg) (id : RequestId) (status : MemStatus) :
    Aside t (t.deliver id status) := by
  unfold deliver
  split_ifs <;> exact ⟨fun _ => rfl, fun _ => rfl, rfl, rfl, rfl, rfl, rfl, rfl, rfl⟩

theorem takeOver_aside (t : Table cfg) (slot : cfg.SlotId) : Aside t (t.takeOver slot) :=
  .modify t slot _ rfl rfl

theorem relinquish_aside (t : Table cfg) (slot : cfg.SlotId) : Aside t (t.relinquish slot) :=
  (Aside.modify t slot (fun s => { s with finishing := false }) rfl rfl).trans
    ⟨fun _ => rfl, fun _ => rfl, rfl, rfl, rfl, rfl, rfl, rfl, rfl⟩

theorem finishStep_motions {pc : FinishPc} {next : Option FinishPc} {deadline : Bool}
    {choice : Choice} (hfill : (t.slots slot).state = .filling)
    (h : t.finishStep slot deadline choice pc = some (next, t')) : Motions t t' := by
  cases finishStep_move hfill h with
  | stays next => exact .refl
  | relinquished hpc => exact (t.relinquish_aside slot).motions
  | published result hpc => exact .single (.published slot result hfill)

end Table

/-! ## Steps -/

namespace World

open Table

variable {w w' u : World cfg} {action : Action cfg} {choice : Choice}

theorem resetLease_motions (w : World cfg) (v : LeaseVar) :
    Motions w.table (w.resetLease v).table := by
  unfold resetLease
  split
  · exact .refl
  · split
    · exact .refl
    · rename_i t hrelease
      obtain ⟨rfl, -, hpins⟩ := releaseLease_eq_some hrelease
      exact .single (.unpinned _ hpins)

theorem resetTicket_aside (w : World cfg) (v : TicketVar) :
    Aside w.table (w.resetTicket v).table := by
  unfold resetTicket
  split
  · exact .refl _
  · split
    · exact .refl _
    · rename_i t hdiscard
      exact discardTicket_aside hdiscard

theorem admitRows_motions (answers : Answers) (out : LeaseVar) (rows : List UInt64) (i : ℕ)
    (w : World cfg) (h : w.table.IndexInv) :
    Motions w.table (admitRows answers out i rows w).2.2.table := by
  induction rows generalizing i w with
  | nil => exact .refl
  | cons row rows ih =>
      obtain ⟨hmotions, hnot⟩ := findOrFetch_motions h answers row
      have hquiets := (findOrFetch_spec h answers row).1
      unfold admitRows
      split <;> rename_i hfind <;> rw [hfind] at hmotions hnot hquiets
      · rename_i slot t
        have hpin : LocalEdits w.table (t.pin slot) := hquiets.localEdits.tail (.pinned slot)
        have hpinned : Motions w.table (t.pin slot) := hmotions.tail (.pinned slot (hnot slot rfl))
        exact hpinned.trans
          (ih (i + 1) (({ w with table := t }).grant (out + i) slot row ⟨0, 0⟩) (h.edits hpin.edits))
      · exact hmotions

theorem resolveStep_motions {call call' : ResolveCall} {pc pc' : ResolvePc cfg}
    (hidx : w.table.IndexInv)
    (hdriven : ∀ slot fpc, Pc.fill (.resolving call pc) = some (slot, fpc) →
      (w.table.slots slot).state = .filling)
    (h : w.resolveStep call choice pc = some (call', pc', u)) : Motions w.table u.table := by
  have hsettle : ∀ i lease, (call, w.settleRow call i lease) = (call', pc', u) →
      Motions w.table u.table := by
    intro i lease heq
    obtain ⟨htable, -⟩ := w.settleRow_records call i lease
    rw [(Prod.mk.inj heq).2] at htable
    rw [htable]
  unfold resolveStep at h
  cases pc with
  | releasing i =>
      dsimp only at h
      split_ifs at h <;> cases h
      · exact w.resetLease_motions _
      · exact .refl
      · exact .refl
  | phaseA =>
      dsimp only at h
      split_ifs at h <;> cases h <;> exact admitRows_motions _ _ _ _ _ hidx
  | unwind i count failure =>
      dsimp only at h
      split_ifs at h <;> cases h
      · exact w.resetLease_motions _
      · exact .refl
  | drive i =>
      dsimp only at h
      split_ifs at h
      · split at h
        · cases h
        · rename_i lease hlease
          split_ifs at h
          · cases h
            exact .refl
          · cases h
            exact .refl
          · cases h
            exact (w.table.takeOver_aside lease.slot).motions
          · exact hsettle i _ (Option.some.inj h)
      · cases h
        exact .refl
  | finishing i slot fpc =>
      have hfill := hdriven slot fpc rfl
      dsimp only at h
      split at h <;> cases h
      all_goals
        rename_i hfinish
        exact finishStep_motions hfill hfinish
  | settle i =>
      dsimp only at h
      split at h
      · cases h
      · exact hsettle i _ (Option.some.inj h)
  | asleep i since =>
      dsimp only at h
      split_ifs at h
      split at h
      · cases h
      · split_ifs at h
        · exact hsettle i _ (Option.some.inj h)
        · cases h
          exact .refl
  | returned result => cases h

theorem waitStep_motions {wait : WaitCall cfg} {outcome outcome' : WaitOutcome}
    {pc pc' : WaitPc cfg}
    (hdriven : ∀ slot fpc, Pc.fill (.waiting wait outcome pc) = some (slot, fpc) →
      (w.table.slots slot).state = .filling)
    (h : w.waitStep wait outcome choice pc = some (outcome', pc', u)) :
    Motions w.table u.table := by
  unfold waitStep at h
  cases pc with
  | entry i =>
      dsimp only at h
      split_ifs at h
      · split at h
        · cases h
          exact .refl
        · rename_i slot hslot
          split_ifs at h <;> cases h
          · exact .refl
          · exact .refl
          · exact (w.table.takeOver_aside slot).motions
          · exact .refl
      · cases h
        exact .refl
  | finishing i slot fpc =>
      have hfill := hdriven slot fpc rfl
      dsimp only at h
      split at h <;> cases h
      all_goals
        rename_i hfinish
        exact finishStep_motions hfill hfinish
  | settle i =>
      dsimp only at h
      split at h <;> cases h
      exact .refl
  | asleep i since =>
      dsimp only at h
      split at h
      · split at h
        · cases h
        · split_ifs at h <;> cases h <;> exact .refl
      · cases h
  | returned => cases h

theorem workerStep_motions {t t' : Table cfg} {pc pc' : WorkerPc cfg}
    (hdriven : ∀ slot fpc, pc.fill = some (slot, fpc) → (t.slots slot).state = .filling)
    (h : workerStep t choice pc = some (pc', t')) : Motions t t' := by
  unfold workerStep at h
  cases pc with
  | scan =>
      dsimp only at h
      split at h <;> cases h
      · exact (t.takeOver_aside _).motions
      · exact .refl
  | finishing slot fpc =>
      have hfill := hdriven slot fpc rfl
      dsimp only at h
      split at h <;> cases h
      all_goals
        rename_i hfinish
        exact finishStep_motions hfill hfinish
  | asleep since =>
      dsimp only at h
      split_ifs at h
      cases h
      exact .refl

/-- A step of a thread inside a call. -/
theorem advance_motions {thread : ThreadId} (hfill : w.FillInv)
    (h : w.advance thread choice = some w') : Motions w.table w'.table := by
  have hdriven : ∀ slot fpc, (w.threads thread).fill = some (slot, fpc) →
      (w.table.slots slot).state = .filling := fun slot fpc hfpc =>
    (hfill.driven (some thread) slot fpc hfpc).1
  unfold advance at h
  split at h
  · rename_i hpc
    obtain ⟨⟨call', pc', u⟩, hstep, rfl⟩ := Option.map_eq_some_iff.mp h
    rw [hpc] at hdriven
    have hmotions := resolveStep_motions hfill.index hdriven hstep
    exact hmotions
  · rename_i hpc
    obtain ⟨⟨outcome', pc', u⟩, hstep, rfl⟩ := Option.map_eq_some_iff.mp h
    rw [hpc] at hdriven
    have hmotions := waitStep_motions hdriven hstep
    exact hmotions
  · obtain ⟨pc', hstep, rfl⟩ := Option.map_eq_some_iff.mp h
    exact .refl
  · cases h

theorem tryGet_motions {row : UInt64} {v : LeaseVar} (hidx : w.table.IndexInv)
    (h : w.tryGet row v = some w') : Motions w.table w'.table := by
  have haside := w.table.findReady_aside row
  have hready := (findReady_spec hidx row).2
  unfold tryGet at h
  split_ifs at h
  · cases h
    exact .refl
  · split at h <;> rename_i hfind <;> rw [hfind] at haside hready <;> cases h
    · exact haside.motions
    · rename_i slot t
      refine haside.motions.tail (.pinned slot ?_)
      rw [haside.state, (hready slot rfl).1]
      decide

/-- Every step is a sequence of motions. -/
theorem step_motions (hfill : w.FillInv) (h : w.step action = some w') :
    Motions w.table w'.table := by
  unfold step at h
  split_ifs at h
  cases action with
  | resolveInto thread rows out outSize => rw [(callResolve_move h).1]
  | wait thread ticket deadline => rw [(callWait_move h).1]
  | drain thread deadline =>
      have h : w.callDrain thread deadline = some w' := h
      unfold callDrain at h
      split at h <;> cases h
      exact .refl
  | advance thread choice => exact advance_motions hfill h
  | leave thread => rw [(leave_move h).1]
  | work choice =>
      obtain ⟨⟨pc, t⟩, hstep, rfl⟩ := Option.map_eq_some_iff.mp h
      exact workerStep_motions (fun slot fpc hfpc => (hfill.driven none slot fpc hfpc).1) hstep
  | tryGet row v => exact tryGet_motions hfill.index h
  | reset v =>
      have h : (if w.inUse v then none else some (w.resetLease v)) = some w' := h
      split_ifs at h
      cases h
      exact w.resetLease_motions v
  | move source target =>
      have h : (if w.inUse source ∨ w.inUse target then none
        else some (w.moveLease source target)) = some w' := h
      split_ifs at h
      cases h
      unfold moveLease
      split_ifs
      · exact .refl
      · exact w.resetLease_motions target
  | prefetch rows v answers =>
      have hmotions := w.table.prefetch_motions answers rows
      have h : w.prefetch rows v answers = some w' := h
      unfold prefetch at h
      split_ifs at h
      split at h <;> rename_i hprefetch <;> rw [hprefetch] at hmotions <;> cases h <;>
        exact hmotions
  | dropTicket v =>
      have h : (if (w.tickets v).users ≠ 0 then none else some (w.resetTicket v)) = some w' := h
      split_ifs at h
      cases h
      exact (w.resetTicket_aside v).motions
  | moveTicket source target =>
      have h : (if (w.tickets source).users ≠ 0 ∨ (w.tickets target).users ≠ 0 then none
        else some (w.moveTicket source target)) = some w' := h
      split_ifs at h
      cases h
      unfold moveTicket
      split_ifs
      · exact .refl
      · exact (w.resetTicket_aside target).motions
  | invalidate creation generation sources resolver =>
      cases h
      exact (w.table.invalidate_aside creation generation sources resolver).motions
  | deliver id status =>
      cases h
      exact (w.table.deliver_aside id status).motions

end World

end TieredCache
