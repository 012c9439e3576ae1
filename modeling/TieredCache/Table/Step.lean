/-
# What one step of the machine does

Every step either edits the table without ending a fill, or takes a fill over, or is
one step of `finish_fill` by the thread that has taken it over.  The step function is
opened here once; invariants are proved from the three cases.
-/

import TieredCache.Table.Edit
import TieredCache.Table.Machine

namespace TieredCache

variable {cfg : TableConfig}

namespace Table

/-- An edit of a section that drives no fill and leaves the bindings alone. -/
inductive LocalEdit (t : Table cfg) : Table cfg → Prop
  | quiet {t' : Table cfg} (h : Quiet t t') : LocalEdit t t'
  | pinned (slot : cfg.SlotId) : LocalEdit t (t.pin slot)
  | unpinned (slot : cfg.SlotId) : LocalEdit t (t.unpinLocked slot)

/-- An edit of a section that drives no fill. -/
inductive Edit (t : Table cfg) : Table cfg → Prop
  | quiet {t' : Table cfg} (h : Quiet t t') : Edit t t'
  | pinned (slot : cfg.SlotId) : Edit t (t.pin slot)
  | unpinned (slot : cfg.SlotId) : Edit t (t.unpinLocked slot)
  | dropped (h : ¬ t.RetiringBusy) : Edit t t.dropRetiring
  | installed (generation : UInt64) (sources : List ShardSource) (resolver : RowExtentResolver)
      (h : t.retiringBinding = none) : Edit t (t.installBinding generation sources resolver)

/-- A sequence of local edits. -/
abbrev LocalEdits : Table cfg → Table cfg → Prop := Relation.ReflTransGen LocalEdit

/-- A sequence of edits. -/
abbrev Edits : Table cfg → Table cfg → Prop := Relation.ReflTransGen Edit

variable {t t' : Table cfg} {slot : cfg.SlotId}

theorem Quiets.localEdits (h : Quiets t t') : LocalEdits t t' := by
  induction h with
  | refl => exact .refl
  | tail _ hlast ih => exact ih.tail (.quiet hlast)

theorem LocalEdits.edits (h : LocalEdits t t') : Edits t t' := by
  induction h with
  | refl => exact .refl
  | tail _ hlast ih =>
      refine ih.tail ?_
      cases hlast with
      | quiet h => exact .quiet h
      | pinned slot => exact .pinned slot
      | unpinned slot => exact .unpinned slot

theorem Quiets.edits (h : Quiets t t') : Edits t t' := h.localEdits.edits

/-- The bindings and the generation are the same. -/
structure SameBindings (t t' : Table cfg) : Prop where
  current : t'.currentBinding = t.currentBinding
  generation : t'.currentGeneration = t.currentGeneration
  count : t'.bindingCount = t.bindingCount
  origin : t'.origin = t.origin

/-- Local edits leave the bindings alone. -/
theorem LocalEdits.sameBindings (h : LocalEdits t t') : SameBindings t t' := by
  induction h with
  | refl => exact ⟨rfl, rfl, rfl, rfl⟩
  | tail _ hlast ih =>
      cases hlast with
      | quiet h =>
          obtain ⟨hframe, -⟩ := h.frame
          exact ⟨hframe.currentBinding.trans ih.current,
            hframe.currentGeneration.trans ih.generation, hframe.bindingCount.trans ih.count,
            hframe.origin.trans ih.origin⟩
      | pinned slot => exact ⟨ih.current, ih.generation, ih.count, ih.origin⟩
      | unpinned slot => exact ⟨ih.current, ih.generation, ih.count, ih.origin⟩

/-- A property every edit keeps is kept by a sequence of them. -/
theorem Edits.invariant {inv : Table cfg → Prop} (h : Edits t t')
    (hedit : ∀ u u', inv u → Edit u u' → inv u') (hinv : inv t) : inv t' := by
  induction h with
  | refl => exact hinv
  | tail _ hlast ih => exact hedit _ _ ih hlast

theorem IndexInv.edit (h : t.IndexInv) (he : Edit t t') : t'.IndexInv := by
  cases he with
  | quiet he => exact h.quiet he
  | pinned slot => exact h.pin slot
  | unpinned slot => exact h.unpinLocked slot
  | dropped _ => exact h.keep rfl fun s => ⟨rfl, rfl, Iff.rfl⟩
  | installed generation sources resolver _ => exact h.keep rfl fun s => ⟨rfl, rfl, Iff.rfl⟩

theorem IndexInv.edits (h : t.IndexInv) (he : Edits t t') : t'.IndexInv :=
  he.invariant (fun _ _ hu hedit => hu.edit hedit) h

/-- Of a filling slot, at most pins and second-chance bit have changed. -/
def SameFill (s s' : Slot cfg) : Prop :=
  ∃ referenced pins, s' = { s with referenced := referenced, pins := pins }

theorem SameFill.refl (s : Slot cfg) : SameFill s s := ⟨s.referenced, s.pins, rfl⟩

theorem SameFill.trans {s s' s'' : Slot cfg} (h : SameFill s s') (h' : SameFill s' s'') :
    SameFill s s'' := by
  obtain ⟨r, p, rfl⟩ := h
  obtain ⟨r', p', rfl⟩ := h'
  exact ⟨r', p', rfl⟩

/-- No edit touches a filling slot, except for pins and second-chance bit. -/
theorem Edit.sameFill (h : Edit t t') {s : cfg.SlotId} (hs : (t.slots s).state = .filling) :
    SameFill (t.slots s) (t'.slots s) := by
  have hupdate : ∀ slot s', (s = slot → SameFill (t.slots s) s') →
      SameFill (t.slots s) (Function.update t.slots slot s' s) := by
    intro slot s' hslot
    by_cases hss : s = slot
    · subst hss
      rw [Function.update_self]
      exact hslot rfl
    · rw [Function.update_of_ne hss]
      exact .refl _
  cases h with
  | quiet h =>
      obtain ⟨r, hr⟩ := h.frame.2 s (Or.inl hs)
      exact ⟨r, (t.slots s).pins, hr⟩
  | pinned slot =>
      apply hupdate
      rintro rfl
      exact ⟨_, _, rfl⟩
  | unpinned slot =>
      apply hupdate
      rintro rfl
      exact ⟨_, _, rfl⟩
  | dropped _ => exact .refl _
  | installed _ _ _ _ => exact .refl _

theorem Edits.sameFill (h : Edits t t') {s : cfg.SlotId} (hs : (t.slots s).state = .filling) :
    SameFill (t.slots s) (t'.slots s) := by
  induction h with
  | refl => exact .refl _
  | tail _ hlast ih =>
      refine ih.trans (hlast.sameFill ?_)
      obtain ⟨r, p, hr⟩ := ih
      rw [hr]
      exact hs

/-- `invalidate` edits the bindings or nothing. -/
theorem invalidate_edits (t : Table cfg) (creation : MemStatus) (generation : UInt64)
    (sources : List ShardSource) (resolver : Option RowExtentResolver) :
    Edits t (t.invalidate creation generation sources resolver).2 := by
  unfold invalidate
  split_ifs with _ _ hbusy
  · exact .refl
  · exact .refl
  · exact .refl
  · exact .single (.dropped hbusy)
  · exact (Relation.ReflTransGen.single (.dropped hbusy)).tail (.installed _ _ _ rfl)

theorem releaseLease_eq_some {epoch : UInt32} (h : t.releaseLease slot epoch = some t') :
    t' = t.unpinLocked slot ∧ (t.slots slot).epoch = epoch ∧ (t.slots slot).pins ≠ 0 := by
  unfold releaseLease at h
  split_ifs at h with hguard
  rw [not_or, not_not] at hguard
  exact ⟨(Option.some.inj h).symm, hguard⟩

end Table

/-! ## Who drives which fill -/

/-- The agent that takes a step inside a call: a client thread, or the worker. -/
def Action.agent : Action cfg → Option (Option ThreadId)
  | .advance thread _ => some (some thread)
  | .work _ => some none
  | _ => none

/-- The action is a call of `invalidate`. -/
def Action.Rebinds : Action cfg → Prop
  | .invalidate _ _ _ _ => True
  | _ => False

/-- The fill a program counter is driving. -/
def Pc.fill : Pc cfg → Option (cfg.SlotId × FinishPc)
  | .resolving _ (.finishing _ slot pc) => some (slot, pc)
  | .waiting _ _ (.finishing _ slot pc) => some (slot, pc)
  | _ => none

/-- The fill the worker is driving. -/
def WorkerPc.fill : WorkerPc cfg → Option (cfg.SlotId × FinishPc)
  | .finishing slot pc => some (slot, pc)
  | _ => none

namespace World

/-- The fill an agent is driving, and where in `finish_fill` it is. -/
def finisher (w : World cfg) : Option ThreadId → Option (cfg.SlotId × FinishPc)
  | none => w.worker.fill
  | some thread => (w.threads thread).fill

/-- What one step does to the table and to the fills being driven.  Only `invalidate`
changes the bindings. -/
inductive Move (w : World cfg) (action : Action cfg) (w' : World cfg) : Prop
  | edits (htable : Table.Edits w.table w'.table)
      (hlocal : action.Rebinds ∨ Table.LocalEdits w.table w'.table)
      (hsame : ∀ g, w'.finisher g = w.finisher g)
  | tookOver (g : Option ThreadId) (slot : cfg.SlotId) (hagent : action.agent = some g)
      (hbefore : w.finisher g = none) (hfilling : (w.table.slots slot).state = .filling)
      (hunclaimed : (w.table.slots slot).finishing = false)
      (htable : w'.table = w.table.takeOver slot)
      (hnow : w'.finisher g = some (slot, .enter))
      (hothers : ∀ h, h ≠ g → w'.finisher h = w.finisher h)
  | finishing (g : Option ThreadId) (slot : cfg.SlotId) (pc : FinishPc)
      (next : Option FinishPc) (deadline : Bool) (choice : Choice)
      (hagent : action.agent = some g) (hbefore : w.finisher g = some (slot, pc))
      (hstep : w.table.finishStep slot deadline choice pc = some (next, w'.table))
      (hnow : w'.finisher g = next.map fun pc' => (slot, pc'))
      (hothers : ∀ h, h ≠ g → w'.finisher h = w.finisher h)

variable {w w' : World cfg}

/-- Agents drive what they drove if threads and worker are where they were. -/
theorem finisher_congr (hthreads : w'.threads = w.threads) (hworker : w'.worker = w.worker)
    (g : Option ThreadId) : w'.finisher g = w.finisher g := by
  cases g with
  | none => exact congrArg WorkerPc.fill hworker
  | some thread => exact congrArg (fun threads => (threads thread).fill) hthreads

theorem finisher_setThread_self (w : World cfg) (thread : ThreadId) (pc : Pc cfg) :
    (w.setThread thread pc).finisher (some thread) = pc.fill := by
  show (Function.update w.threads thread pc thread).fill = _
  rw [Function.update_self]

theorem finisher_setThread_other (w : World cfg) {thread : ThreadId} (pc : Pc cfg)
    {g : Option ThreadId} (hg : g ≠ some thread) :
    (w.setThread thread pc).finisher g = w.finisher g := by
  cases g with
  | none => rfl
  | some other =>
      have hother : other ≠ thread := fun h => hg (congrArg some h)
      show (Function.update w.threads thread pc other).fill = _
      rw [Function.update_of_ne hother]
      rfl

/-- A thread that drove nothing and drives nothing. -/
theorem finisher_setThread_none {thread : ThreadId} {pc : Pc cfg}
    (hthreads : w'.threads = w.threads) (hworker : w'.worker = w.worker)
    (hbefore : (w.threads thread).fill = none) (hafter : pc.fill = none) (g : Option ThreadId) :
    (w'.setThread thread pc).finisher g = w.finisher g := by
  by_cases hg : g = some thread
  · subst hg
    rw [finisher_setThread_self, hafter]
    exact hbefore.symm
  · rw [finisher_setThread_other _ _ hg, finisher_congr hthreads hworker]

/-! ## The parts of a step -/

theorem resetLease_edits (w : World cfg) (v : LeaseVar) :
    Table.LocalEdits w.table (w.resetLease v).table ∧ (w.resetLease v).threads = w.threads ∧
      (w.resetLease v).worker = w.worker := by
  unfold resetLease
  split
  · exact ⟨.refl, rfl, rfl⟩
  · split
    · exact ⟨.refl, rfl, rfl⟩
    · rename_i t hrelease
      obtain ⟨rfl, -⟩ := Table.releaseLease_eq_some hrelease
      exact ⟨.single (.unpinned _), rfl, rfl⟩

theorem resetTicket_quiets (w : World cfg) (v : TicketVar) :
    Table.Quiets w.table (w.resetTicket v).table ∧ (w.resetTicket v).threads = w.threads ∧
      (w.resetTicket v).worker = w.worker := by
  unfold resetTicket
  split
  · exact ⟨.refl, rfl, rfl⟩
  · split
    · exact ⟨.refl, rfl, rfl⟩
    · rename_i t hdiscard
      exact ⟨Table.discardTicket_quiets hdiscard, rfl, rfl⟩

theorem admitRows_edits (answers : Answers) (out : LeaseVar) (rows : List UInt64) (i : ℕ)
    (w : World cfg) (h : w.table.IndexInv) :
    Table.LocalEdits w.table (admitRows answers out i rows w).2.2.table ∧
      (admitRows answers out i rows w).2.2.threads = w.threads ∧
      (admitRows answers out i rows w).2.2.worker = w.worker := by
  induction rows generalizing i w with
  | nil => exact ⟨.refl, rfl, rfl⟩
  | cons row rows ih =>
      have hquiets := (Table.findOrFetch_spec h answers row).1
      unfold admitRows
      split
      · rename_i slot t hfind
        rw [hfind] at hquiets
        have hpin : Table.LocalEdits w.table (t.pin slot) := hquiets.localEdits.tail (.pinned slot)
        obtain ⟨hedits, hthreads, hworker⟩ :=
          ih (i + 1) (({ w with table := t }).grant (out + i) slot row ⟨0, 0⟩) (h.edits hpin.edits)
        exact ⟨hpin.trans hedits, hthreads, hworker⟩
      · rename_i status t hfind
        rw [hfind] at hquiets
        exact ⟨hquiets.localEdits, rfl, rfl⟩

/-- The steps of a call that keep other agents' fills: how the thread's own fill and the
table move.  `R` is what a step that drives no fill does to the table. -/
inductive CallMove (R : Table cfg → Table cfg → Prop) (t : Table cfg)
    (before after : Option (cfg.SlotId × FinishPc)) (t' : Table cfg) : Prop
  | edits (hbefore : before = none) (hafter : after = none) (htable : R t t')
  | tookOver (slot : cfg.SlotId) (hbefore : before = none)
      (hfilling : (t.slots slot).state = .filling)
      (hunclaimed : (t.slots slot).finishing = false) (htable : t' = t.takeOver slot)
      (hafter : after = some (slot, .enter))
  | finishing (slot : cfg.SlotId) (pc : FinishPc) (next : Option FinishPc) (deadline : Bool)
      (choice : Choice) (hbefore : before = some (slot, pc))
      (hstep : t.finishStep slot deadline choice pc = some (next, t'))
      (hafter : after = next.map fun pc' => (slot, pc'))

/-- A call that leaves the table alone makes a sequence of no edits. -/
theorem CallMove.of_eq {t t' : Table cfg} {before after : Option (cfg.SlotId × FinishPc)}
    (h : CallMove Eq t before after t') : CallMove Table.LocalEdits t before after t' := by
  cases h with
  | edits hbefore hafter htable => exact .edits hbefore hafter (by rw [htable])
  | tookOver slot hbefore hfilling hunclaimed htable hafter =>
      exact .tookOver slot hbefore hfilling hunclaimed htable hafter
  | finishing slot pc next deadline choice hbefore hstep hafter =>
      exact .finishing slot pc next deadline choice hbefore hstep hafter

theorem afterRow_fill (call call' : ResolveCall) (i : ℕ) (failure : Status) :
    Pc.fill (.resolving call' (afterRow call i failure) : Pc cfg) = none := by
  unfold afterRow
  split_ifs <;> rfl

theorem settleRow_edits {call : ResolveCall} {i : ℕ} {lease : Lease cfg} {pc : ResolvePc cfg}
    (h : w.settleRow call i lease = (pc, w')) (before : ResolvePc cfg)
    (hbefore : Pc.fill (.resolving call before) = none) :
    CallMove Table.LocalEdits w.table (Pc.fill (.resolving call before))
        (Pc.fill (.resolving call pc)) w'.table ∧
      w'.threads = w.threads ∧ w'.worker = w.worker := by
  unfold settleRow at h
  dsimp only at h
  split_ifs at h <;> cases h <;>
    exact ⟨.edits hbefore (afterRow_fill ..) .refl, rfl, rfl⟩

theorem resolveStep_move {call call' : ResolveCall} {pc pc' : ResolvePc cfg} {choice : Choice}
    (hidx : w.table.IndexInv) (h : w.resolveStep call choice pc = some (call', pc', w')) :
    CallMove Table.LocalEdits w.table (Pc.fill (.resolving call pc))
        (Pc.fill (.resolving call' pc')) w'.table ∧
      w'.threads = w.threads ∧ w'.worker = w.worker := by
  cases pc with
  | releasing i =>
      unfold resolveStep at h
      dsimp only at h
      obtain ⟨hedits, hthreads, hworker⟩ := w.resetLease_edits (call.out + i)
      split_ifs at h <;> cases h
      · exact ⟨.edits rfl rfl hedits, hthreads, hworker⟩
      · exact ⟨.edits rfl rfl .refl, rfl, rfl⟩
      · exact ⟨.edits rfl rfl .refl, rfl, rfl⟩
  | phaseA =>
      unfold resolveStep at h
      dsimp only at h
      obtain ⟨hedits, hthreads, hworker⟩ :=
        admitRows_edits choice.answers call.out call.rows 0 w hidx
      split_ifs at h <;> cases h <;> exact ⟨.edits rfl rfl hedits, hthreads, hworker⟩
  | unwind i count failure =>
      unfold resolveStep at h
      dsimp only at h
      obtain ⟨hedits, hthreads, hworker⟩ := w.resetLease_edits (call.out + i)
      split_ifs at h <;> cases h
      · exact ⟨.edits rfl rfl hedits, hthreads, hworker⟩
      · exact ⟨.edits rfl rfl .refl, rfl, rfl⟩
  | drive i =>
      unfold resolveStep at h
      dsimp only at h
      split_ifs at h with hi
      · split at h
        · cases h
        · rename_i lease hlease
          split_ifs at h with hepoch hfilling hfinishing
          · cases h
            exact ⟨.edits rfl (afterRow_fill ..) .refl, rfl, rfl⟩
          · cases h
            exact ⟨.edits rfl rfl .refl, rfl, rfl⟩
          · cases h
            exact ⟨.tookOver lease.slot rfl hfilling (by simpa using hfinishing) rfl rfl, rfl, rfl⟩
          · obtain ⟨rfl, hsettle⟩ := Prod.mk.inj (Option.some.inj h)
            exact settleRow_edits hsettle _ rfl
      · cases h
        exact ⟨.edits rfl rfl .refl, rfl, rfl⟩
  | finishing i slot pc =>
      unfold resolveStep at h
      dsimp only at h
      split at h
      · cases h
      · rename_i pc' t hstep
        cases h
        exact ⟨.finishing slot pc (some pc') false choice rfl hstep rfl, rfl, rfl⟩
      · rename_i t hstep
        cases h
        exact ⟨.finishing slot pc none false choice rfl hstep rfl, rfl, rfl⟩
  | settle i =>
      unfold resolveStep at h
      dsimp only at h
      split at h
      · cases h
      · rename_i lease hlease
        obtain ⟨rfl, hsettle⟩ := Prod.mk.inj (Option.some.inj h)
        exact settleRow_edits hsettle _ rfl
  | asleep i since =>
      unfold resolveStep at h
      dsimp only at h
      split_ifs at h
      split at h
      · cases h
      · rename_i lease hlease
        split_ifs at h
        · obtain ⟨rfl, hsettle⟩ := Prod.mk.inj (Option.some.inj h)
          exact settleRow_edits hsettle _ rfl
        · cases h
          exact ⟨.edits rfl rfl .refl, rfl, rfl⟩
  | returned result => cases h

theorem waitStep_move {call : WaitCall cfg} {outcome outcome' : WaitOutcome}
    {pc pc' : WaitPc cfg} {choice : Choice}
    (h : w.waitStep call outcome choice pc = some (outcome', pc', w')) :
    CallMove Eq w.table (Pc.fill (.waiting call outcome pc)) (Pc.fill (.waiting call outcome' pc'))
        w'.table ∧
      w'.threads = w.threads ∧ w'.worker = w.worker := by
  cases pc with
  | entry i =>
      unfold waitStep at h
      dsimp only at h
      split_ifs at h
      · split at h
        · cases h
          exact ⟨.edits rfl rfl rfl, rfl, rfl⟩
        · rename_i slot hslot
          split_ifs at h with hepoch hfilling hfinishing <;> cases h
          · exact ⟨.edits rfl rfl rfl, rfl, rfl⟩
          · exact ⟨.edits rfl rfl rfl, rfl, rfl⟩
          · exact ⟨.tookOver slot rfl hfilling (by simpa using hfinishing) rfl rfl, rfl, rfl⟩
          · exact ⟨.edits rfl rfl rfl, rfl, rfl⟩
      · cases h
        exact ⟨.edits rfl rfl rfl, rfl, rfl⟩
  | finishing i slot pc =>
      unfold waitStep at h
      dsimp only at h
      split at h
      · cases h
      · rename_i pc' t hstep
        cases h
        exact ⟨.finishing slot pc (some pc') call.deadline choice rfl hstep rfl, rfl, rfl⟩
      · rename_i t hstep
        cases h
        exact ⟨.finishing slot pc none call.deadline choice rfl hstep rfl, rfl, rfl⟩
  | settle i =>
      unfold waitStep at h
      dsimp only at h
      split at h
      · cases h
      · cases h
        exact ⟨.edits rfl rfl rfl, rfl, rfl⟩
  | asleep i since =>
      unfold waitStep at h
      dsimp only at h
      split at h
      · split at h
        · cases h
        · split_ifs at h <;> cases h <;> exact ⟨.edits rfl rfl rfl, rfl, rfl⟩
      · cases h
  | returned => cases h

theorem workerStep_move {t t' : Table cfg} {pc pc' : WorkerPc cfg} {choice : Choice}
    (h : workerStep t choice pc = some (pc', t')) : CallMove Eq t pc.fill pc'.fill t' := by
  cases pc with
  | scan =>
      unfold workerStep at h
      dsimp only at h
      split at h
      · rename_i slot hfind
        cases h
        unfold Table.findUnclaimedFilling at hfind
        have hfound := List.find?_some hfind
        obtain ⟨hfilling, hunclaimed⟩ := of_decide_eq_true hfound
        exact .tookOver slot rfl hfilling hunclaimed rfl rfl
      · cases h
        exact .edits rfl rfl rfl
  | finishing slot pc =>
      unfold workerStep at h
      dsimp only at h
      split at h
      · cases h
      · rename_i pc' u hstep
        cases h
        exact .finishing slot pc (some pc') false choice rfl hstep rfl
      · rename_i u hstep
        cases h
        exact .finishing slot pc none false choice rfl hstep rfl
  | asleep since =>
      unfold workerStep at h
      dsimp only at h
      split_ifs at h
      cases h
      exact .edits rfl rfl rfl

/-- A step of an agent inside a call is a move of the machine. -/
theorem CallMove.move {action : Action cfg} {g : Option ThreadId} (hagent : action.agent = some g)
    (h : CallMove Table.LocalEdits w.table (w.finisher g) (w'.finisher g) w'.table)
    (hothers : ∀ k, k ≠ g → w'.finisher k = w.finisher k) : Move w action w' := by
  cases h with
  | edits hbefore hafter htable =>
      refine .edits htable.edits (Or.inr htable) fun k => ?_
      by_cases hk : k = g
      · rw [hk, hbefore, hafter]
      · exact hothers k hk
  | tookOver slot hbefore hfilling hunclaimed htable hafter =>
      exact .tookOver g slot hagent hbefore hfilling hunclaimed htable hafter hothers
  | finishing slot pc next deadline choice hbefore hstep hafter =>
      exact .finishing g slot pc next deadline choice hagent hbefore hstep hafter hothers

theorem callResolve_move {thread : ThreadId} {rows : List UInt64} {out : LeaseVar} {outSize : ℕ}
    (h : w.callResolve thread rows out outSize = some w') :
    w'.table = w.table ∧ ∀ g, w'.finisher g = w.finisher g := by
  unfold callResolve at h
  split at h
  · rename_i hidle
    have hbefore : (w.threads thread).fill = none := by rw [hidle]; rfl
    split_ifs at h <;> cases h <;>
      exact ⟨rfl, finisher_setThread_none rfl rfl hbefore rfl⟩
  · cases h

theorem callWait_move {thread : ThreadId} {v : TicketVar} {deadline : Bool}
    (h : w.callWait thread v deadline = some w') :
    w'.table = w.table ∧ ∀ g, w'.finisher g = w.finisher g := by
  unfold callWait at h
  split at h
  · rename_i hidle
    have hbefore : (w.threads thread).fill = none := by rw [hidle]; rfl
    split at h <;> cases h <;> exact ⟨rfl, finisher_setThread_none rfl rfl hbefore rfl⟩
  · cases h

theorem leave_move {thread : ThreadId} (h : w.leave thread = some w') :
    w'.table = w.table ∧ ∀ g, w'.finisher g = w.finisher g := by
  unfold leave at h
  split at h
  case h_5 => cases h
  all_goals
    rename_i hpc
    have hbefore : (w.threads thread).fill = none := by rw [hpc]; rfl
    cases h
    exact ⟨rfl, finisher_setThread_none rfl rfl hbefore rfl⟩

/-- A step of a thread inside a call. -/
theorem advance_move {thread : ThreadId} {choice : Choice} (hidx : w.table.IndexInv)
    (h : w.advance thread choice = some w') :
    CallMove Table.LocalEdits w.table (w.finisher (some thread)) (w'.finisher (some thread)) w'.table ∧
      ∀ g, g ≠ some thread → w'.finisher g = w.finisher g := by
  unfold advance at h
  split at h
  · rename_i call pc hpc
    obtain ⟨⟨call', pc', u⟩, hstep, rfl⟩ := Option.map_eq_some_iff.mp h
    obtain ⟨hmove, hthreads, hworker⟩ := resolveStep_move hidx hstep
    rw [finisher_setThread_self, finisher, hpc]
    exact ⟨hmove, fun g hg => (finisher_setThread_other u _ hg).trans
      (finisher_congr hthreads hworker g)⟩
  · rename_i call outcome pc hpc
    obtain ⟨⟨outcome', pc', u⟩, hstep, rfl⟩ := Option.map_eq_some_iff.mp h
    obtain ⟨hmove, hthreads, hworker⟩ := waitStep_move hstep
    rw [finisher_setThread_self, finisher, hpc]
    exact ⟨hmove.of_eq, fun g hg => (finisher_setThread_other u _ hg).trans
      (finisher_congr hthreads hworker g)⟩
  · rename_i deadline pc hpc
    obtain ⟨pc', hstep, rfl⟩ := Option.map_eq_some_iff.mp h
    rw [finisher_setThread_self, finisher, hpc]
    exact ⟨.edits rfl rfl .refl, fun g hg => finisher_setThread_other w _ hg⟩
  · cases h

theorem tryGet_move {row : UInt64} {v : LeaseVar} (hidx : w.table.IndexInv)
    (h : w.tryGet row v = some w') :
    Table.LocalEdits w.table w'.table ∧ ∀ g, w'.finisher g = w.finisher g := by
  unfold tryGet at h
  split_ifs at h
  · cases h
    exact ⟨.refl, fun _ => rfl⟩
  · obtain ⟨⟨counters, hcount⟩, -⟩ := Table.findReady_spec hidx row
    have hquiets : Table.Quiets w.table (w.table.findReady row).2 := by
      rw [hcount]
      exact (Table.Bookkeeping.of_records w.table _ _ _ _ _).quiets
    split at h
    · rename_i t hfind
      rw [hfind] at hquiets
      cases h
      exact ⟨hquiets.localEdits, fun _ => rfl⟩
    · rename_i slot t hfind
      rw [hfind] at hquiets
      cases h
      exact ⟨hquiets.localEdits.tail (.pinned slot), fun _ => rfl⟩

theorem prefetch_move {rows : List UInt64} {v : TicketVar} {answers : Answers}
    (hidx : w.table.IndexInv) (h : w.prefetch rows v answers = some w') :
    Table.LocalEdits w.table w'.table ∧ ∀ g, w'.finisher g = w.finisher g := by
  have hquiets := Table.prefetch_quiets hidx answers rows
  unfold prefetch at h
  split_ifs at h
  split at h
  · rename_i status t hprefetch
    rw [hprefetch] at hquiets
    cases h
    exact ⟨hquiets.localEdits, fun _ => rfl⟩
  · rename_i ticket t hprefetch
    rw [hprefetch] at hquiets
    cases h
    exact ⟨hquiets.localEdits, fun _ => rfl⟩

/-- Every step is one of the three moves. -/
theorem step_move {action : Action cfg} (hidx : w.table.IndexInv)
    (h : w.step action = some w') : Move w action w' := by
  unfold step at h
  split_ifs at h
  cases action with
  | resolveInto thread rows out outSize =>
      obtain ⟨htable, hsame⟩ := callResolve_move h
      exact .edits (by rw [htable]) (Or.inr (by rw [htable])) hsame
  | wait thread ticket deadline =>
      obtain ⟨htable, hsame⟩ := callWait_move h
      exact .edits (by rw [htable]) (Or.inr (by rw [htable])) hsame
  | drain thread deadline =>
      have h : w.callDrain thread deadline = some w' := h
      unfold callDrain at h
      split at h
      · rename_i hidle
        cases h
        exact .edits .refl (Or.inr .refl) (finisher_setThread_none rfl rfl (by rw [hidle]; rfl) rfl)
      · cases h
  | advance thread choice =>
      obtain ⟨hmove, hothers⟩ := advance_move hidx h
      exact hmove.move rfl hothers
  | leave thread =>
      obtain ⟨htable, hsame⟩ := leave_move h
      exact .edits (by rw [htable]) (Or.inr (by rw [htable])) hsame
  | work choice =>
      obtain ⟨⟨pc, t⟩, hstep, rfl⟩ := Option.map_eq_some_iff.mp h
      refine CallMove.move (g := none) rfl (workerStep_move hstep).of_eq fun g hg => ?_
      cases g with
      | none => exact absurd rfl hg
      | some thread => rfl
  | tryGet row v =>
      obtain ⟨hedits, hsame⟩ := tryGet_move hidx h
      exact .edits hedits.edits (Or.inr hedits) hsame
  | reset v =>
      obtain ⟨hedits, hthreads, hworker⟩ := w.resetLease_edits v
      have h : (if w.inUse v then none else some (w.resetLease v)) = some w' := h
      split_ifs at h
      cases h
      exact .edits hedits.edits (Or.inr hedits) (finisher_congr hthreads hworker)
  | move source target =>
      obtain ⟨hedits, hthreads, hworker⟩ := w.resetLease_edits target
      have h : (if w.inUse source ∨ w.inUse target then none
        else some (w.moveLease source target)) = some w' := h
      split_ifs at h
      cases h
      unfold moveLease
      split_ifs
      · exact .edits .refl (Or.inr .refl) fun _ => rfl
      · exact .edits hedits.edits (Or.inr hedits) (finisher_congr hthreads hworker)
  | prefetch rows v answers =>
      obtain ⟨hedits, hsame⟩ := prefetch_move hidx h
      exact .edits hedits.edits (Or.inr hedits) hsame
  | dropTicket v =>
      obtain ⟨hquiets, hthreads, hworker⟩ := w.resetTicket_quiets v
      have h : (if (w.tickets v).users ≠ 0 then none else some (w.resetTicket v)) = some w' := h
      split_ifs at h
      cases h
      exact .edits hquiets.edits (Or.inr hquiets.localEdits) (finisher_congr hthreads hworker)
  | moveTicket source target =>
      obtain ⟨hquiets, hthreads, hworker⟩ := w.resetTicket_quiets target
      have h : (if (w.tickets source).users ≠ 0 ∨ (w.tickets target).users ≠ 0 then none
        else some (w.moveTicket source target)) = some w' := h
      split_ifs at h
      cases h
      unfold moveTicket
      split_ifs
      · exact .edits .refl (Or.inr .refl) fun _ => rfl
      · exact .edits hquiets.edits (Or.inr hquiets.localEdits) (finisher_congr hthreads hworker)
  | invalidate creation generation sources resolver =>
      cases h
      exact .edits (Table.invalidate_edits ..) (Or.inl trivial) fun _ => rfl
  | deliver id status =>
      cases h
      have hquiets : Table.Quiets w.table (w.table.deliver id status) :=
        .single (.deliveries (w.table.deliver_deliveries id status))
      exact .edits hquiets.edits (Or.inr hquiets.localEdits) fun _ => rfl

/-- What the step of an agent does to its own fill. -/
theorem agent_move {action : Action cfg} {g : Option ThreadId} (hidx : w.table.IndexInv)
    (hagent : action.agent = some g) (h : w.step action = some w') :
    CallMove Table.LocalEdits w.table (w.finisher g) (w'.finisher g) w'.table := by
  unfold step at h
  split_ifs at h
  cases action with
  | advance thread choice =>
      cases hagent
      exact (advance_move hidx h).1
  | work choice =>
      cases hagent
      obtain ⟨⟨pc, t⟩, hstep, rfl⟩ := Option.map_eq_some_iff.mp h
      exact (workerStep_move hstep).of_eq
  | _ => cases hagent

end World

end TieredCache
