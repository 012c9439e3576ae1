/-
# Bindings over a run

Only an `invalidate` that succeeds changes the current binding, and the binding it
installs is new: slots and calls name earlier ones.  Rows of the current generation are
rows of the current binding as long as no generation number comes back while rows are
resident or in flight under it.
-/

import TieredCache.Table.Books
import TieredCache.Table.CallSteps

namespace TieredCache

open Math.Runs

variable {cfg : TableConfig}

namespace Table

variable {t t' : Table cfg} {slot : cfg.SlotId} {creation : MemStatus} {generation : UInt64}
  {sources : List ShardSource} {resolver : Option RowExtentResolver}

/-- The conditions under which `invalidate` installs a binding. -/
def Installs (t : Table cfg) (creation : MemStatus) (sources : List ShardSource) : Prop :=
  sources ≠ [] ∧ (sources.any (·.bytes == 0)) = false ∧ ¬ t.RetiringBusy ∧ creation = .ok

instance (t : Table cfg) (creation : MemStatus) (sources : List ShardSource) :
    Decidable (t.Installs creation sources) :=
  inferInstanceAs (Decidable (_ ∧ _ ∧ _ ∧ _))

/-- The binding a successful `invalidate` installs. -/
theorem invalidate_installs (h : t.Installs creation sources) :
    t.invalidate creation generation sources resolver =
      (.ok, t.dropRetiring.installBinding generation sources
        (resolver.getD (t.bindings t.currentBinding).resolver)) := by
  obtain ⟨hsources, hbytes, hbusy, hcreation⟩ := h
  unfold invalidate
  rw [if_neg hsources, if_neg (by rw [hbytes]; decide), if_neg hbusy, if_neg (not_not.mpr hcreation)]

/-- An `invalidate` that fails leaves bindings and slots alone. -/
theorem invalidate_fails (generation : UInt64) (resolver : Option RowExtentResolver)
    (h : ¬ t.Installs creation sources) :
    (t.invalidate creation generation sources resolver).1 ≠ .ok ∧
      SameBindings t (t.invalidate creation generation sources resolver).2 ∧
      (t.invalidate creation generation sources resolver).2.slots = t.slots := by
  unfold invalidate
  split_ifs with hsources hbytes hbusy hcreation
  · exact ⟨fun h => (by cases h), ⟨rfl, rfl, rfl, rfl⟩, rfl⟩
  · exact ⟨fun h => (by cases h), ⟨rfl, rfl, rfl, rfl⟩, rfl⟩
  · exact ⟨fun h => (by cases h), ⟨rfl, rfl, rfl, rfl⟩, rfl⟩
  · refine ⟨?_, ⟨rfl, rfl, rfl, rfl⟩, rfl⟩
    exact fun hok => hcreation (fromMempage_eq_ok_iff.mp hok)
  · exact absurd ⟨hsources, by simpa using hbytes, hbusy, not_not.mp hcreation⟩ h

theorem invalidate_ok_iff :
    (t.invalidate creation generation sources resolver).1 = .ok ↔ t.Installs creation sources := by
  constructor
  · intro hok
    by_contra h
    exact (invalidate_fails generation resolver h).1 hok
  · intro h
    rw [invalidate_installs h]

/-- The end of a fill leaves the bindings' sources alone. -/
theorem publish_sameBindings (t : Table cfg) (slot : cfg.SlotId) (result : Status) :
    SameBindings t (t.publish slot result) := by
  have hreleased : ∀ fill b, (t.releasedBinding fill b).origin = t.origin b := by
    intro fill b
    cases fill with
    | none => rfl
    | some c =>
        refine proj_update Binding.origin t.bindings ?_ b
        rfl
  exact ⟨rfl, rfl, rfl, funext (hreleased (t.slots slot).fillBinding)⟩

/-- Every slot was last admitted under a binding that has been current. -/
def PastBindings (t : Table cfg) : Prop := ∀ s, (t.slots s).filledThrough ≤ t.currentBinding

namespace PastBindings

theorem create (h : cfg.Accepted) : (Table.create cfg h).PastBindings := fun _ => le_rfl

theorem update (h : t.PastBindings) (hcurrent : t'.currentBinding = t.currentBinding)
    {s' : Slot cfg} (hslots : t'.slots = Function.update t.slots slot s')
    (hslot : s'.filledThrough ≤ t.currentBinding) : t'.PastBindings := by
  intro s
  rw [hslots, hcurrent]
  by_cases hs : s = slot
  · rw [hs, Function.update_self]
    exact hslot
  · rw [Function.update_of_ne hs]
    exact h s

theorem startFillLocked (h : t.PastBindings) (answers : Answers) (slot : cfg.SlotId)
    (row : UInt64) : (t.startFillLocked answers slot row).2.PastBindings := by
  obtain ⟨u, hu, hstart⟩ := t.startFillLocked_cases answers slot row
  have hbegun : (t.beginAdmission slot row).PastBindings := h.update rfl rfl le_rfl
  have hsubmitted : u.PastBindings := by
    cases hu with
    | mk slots used requests count submits lost claim scratch chunks hother hslot =>
        intro s
        by_cases hs : s = slot
        · rw [hs]
          dsimp only
          rw [hslot]
          exact hbegun slot
        · dsimp only
          rw [hother s hs]
          exact hbegun s
  rcases hstart with ⟨length, head, hstart⟩ | ⟨status, -, hstart⟩ <;> rw [hstart]
  · exact hsubmitted.update rfl rfl (hsubmitted slot)
  · exact hsubmitted.update rfl rfl (hsubmitted slot)

theorem edit (h : t.PastBindings) (hcount : t.currentBinding < t.bindingCount)
    (he : Edit t t') : t'.PastBindings := by
  cases he with
  | quiet he =>
      cases he with
      | sweep he =>
          cases he with
          | bookkeeping hb =>
              cases hb with
              | mk slots tickets waiters hand held counters notifications hslots =>
                  intro s
                  obtain ⟨r, hr⟩ := hslots s
                  dsimp only
                  rw [hr]
                  exact h s
          | freed slot hpins hstate => exact h.update rfl rfl (h slot)
      | deliveries hd => cases hd with | mk requests hrequests => exact h
      | started answers slot row hfree habsent => exact h.startFillLocked answers slot row
  | pinned slot => exact h.update rfl rfl (h slot)
  | unpinned slot => exact h.update rfl rfl (h slot)
  | dropped _ => exact h
  | installed generation sources resolver _ => exact fun s => (h s).trans hcount.le

theorem edits (h : t.PastBindings) (hbooks : t.BookInv) (he : Edits t t') :
    t'.BookInv ∧ t'.PastBindings := by
  induction he with
  | refl => exact ⟨hbooks, h⟩
  | tail _ hlast ih => exact ⟨ih.1.edit hlast, ih.2.edit ih.1.current_lt hlast⟩

end PastBindings

end Table

namespace World

variable {w w' u : World cfg} {action : Action cfg} {thread : ThreadId}
  {call call' : ResolveCall} {pc pc' : ResolvePc cfg} {choice : Choice}

/-- The step is an `invalidate` that will succeed. -/
def Reinstalls (w : World cfg) : Action cfg → Prop
  | .invalidate creation _ sources _ => w.table.Installs creation sources
  | _ => False

/-- Only a successful `invalidate` changes the bindings. -/
theorem step_bindings (hfill : w.FillInv) (hstep : w.step action = some w')
    (hnot : ¬ w.Reinstalls action) : Table.SameBindings w.table w'.table := by
  cases step_move hfill.index hstep with
  | edits htable hlocal hsame =>
      rcases hlocal with hrebinds | hlocal
      · unfold World.step at hstep
        split_ifs at hstep
        cases action with
        | invalidate creation generation sources resolver =>
            cases hstep
            exact (Table.invalidate_fails generation resolver hnot).2.1
        | _ => exact hrebinds.elim
      · exact hlocal.sameBindings
  | tookOver g slot hagent hbefore hfilling hunclaimed htable hnow hothers =>
      rw [htable]
      exact ⟨rfl, rfl, rfl, rfl⟩
  | finishing g slot pc next deadline choice hagent hbefore hfinish hnow hothers =>
      have hmove := Table.finishStep_move (hfill.driven g slot pc hbefore).1 hfinish
      generalize w'.table = t' at hmove
      cases hmove with
      | stays next => exact ⟨rfl, rfl, rfl, rfl⟩
      | relinquished hpc => exact ⟨rfl, rfl, rfl, rfl⟩
      | published result hpc => exact w.table.publish_sameBindings slot result

/-- A successful `invalidate` installs the next binding. -/
theorem step_installs {creation : MemStatus} {generation : UInt64} {sources : List ShardSource}
    {resolver : Option RowExtentResolver} (hinstalls : w.table.Installs creation sources)
    (hstep : w.step (.invalidate creation generation sources resolver) = some w') :
    w' = { w with
      table := w.table.dropRetiring.installBinding generation sources
        (resolver.getD (w.table.bindings w.table.currentBinding).resolver) } := by
  unfold World.step at hstep
  split_ifs at hstep
  have hstep : some { w with
      table := (w.table.invalidate creation generation sources resolver).2 } = some w' := hstep
  rw [Table.invalidate_installs hinstalls] at hstep
  exact (Option.some.inj hstep).symm

/-- The number of the current binding never falls. -/
theorem currentBinding_le (hfill : w.FillInv) (hbooks : w.table.BookInv)
    (hstep : w.step action = some w') : w.table.currentBinding ≤ w'.table.currentBinding := by
  by_cases hinstalls : w.Reinstalls action
  · cases action with
    | invalidate creation generation sources resolver =>
        rw [step_installs hinstalls hstep]
        exact hbooks.current_lt.le
    | _ => exact hinstalls.elim
  · rw [(step_bindings hfill hstep hinstalls).current]

theorem pastBindings_step (hfill : w.FillInv) (hbooks : w.table.BookInv)
    (h : w.table.PastBindings) (hstep : w.step action = some w') : w'.table.PastBindings := by
  cases step_move hfill.index hstep with
  | edits htable hlocal hsame => exact (h.edits hbooks htable).2
  | tookOver g slot hagent hbefore hfilling hunclaimed htable hnow hothers =>
      rw [htable]
      exact h.update rfl rfl (h slot)
  | finishing g slot pc next deadline choice hagent hbefore hfinish hnow hothers =>
      have hmove := Table.finishStep_move (hfill.driven g slot pc hbefore).1 hfinish
      generalize w'.table = t' at hmove
      cases hmove with
      | stays next => exact h
      | relinquished hpc => exact h.update rfl rfl (h slot)
      | published result hpc => exact h.update rfl rfl (h slot)

/-- The fills are driven in order and the books are right in every reachable state. -/
theorem booksKnown {h : cfg.Accepted} (w : World cfg)
    (hw : Reachable World.step (World.start cfg h) w) : w.FillInv ∧ w.table.BookInv :=
  ⟨fillInv_of_reachable hw, bookInv_of_reachable hw⟩

/-- Slots name past bindings in every reachable state. -/
theorem pastBindings_of_reachable {h : cfg.Accepted}
    (hw : Reachable World.step (World.start cfg h) w) : w.table.PastBindings :=
  hw.invariant_of booksKnown (Table.PastBindings.create h)
    fun _ _ _ hknown hpast _ hstep => pastBindings_step hknown.1 hknown.2 hpast hstep

/-! ## What calls remember -/

/-- A call remembers the binding it began under, and takes rows of the current one. -/
theorem resolveStep_call (h : w.resolveStep call choice pc = some (call', pc', u)) :
    call'.begun = call.begun ∧
      (call'.binding = call.binding ∨ call'.binding = w.table.currentBinding) := by
  have hsame : ∀ x y : ResolvePc cfg × World cfg, some (call, x) = some (call', y) →
      call'.begun = call.begun ∧
        (call'.binding = call.binding ∨ call'.binding = w.table.currentBinding) := by
    rintro x y heq
    obtain ⟨rfl, -⟩ := Prod.mk.inj (Option.some.inj heq)
    exact ⟨rfl, Or.inl rfl⟩
  unfold resolveStep at h
  cases pc with
  | releasing i =>
      dsimp only at h
      split_ifs at h <;> exact hsame _ _ h
  | phaseA =>
      dsimp only at h
      split_ifs at h <;> cases h <;> exact ⟨rfl, Or.inr rfl⟩
  | unwind i count failure =>
      dsimp only at h
      split_ifs at h <;> exact hsame _ _ h
  | drive i =>
      dsimp only at h
      split_ifs at h
      · split at h
        · cases h
        · split_ifs at h <;> exact hsame _ _ h
      · exact hsame _ _ h
  | finishing i slot fpc =>
      dsimp only at h
      split at h
      · cases h
      · exact hsame _ _ h
      · exact hsame _ _ h
  | settle i =>
      dsimp only at h
      split at h
      · cases h
      · exact hsame _ _ h
  | asleep i since =>
      dsimp only at h
      split_ifs at h
      split at h
      · cases h
      · split_ifs at h <;> exact hsame _ _ h
  | returned result => cases h

/-- Every call began under a binding that was current, and has admitted its rows, if it
has, under that binding or a later one. -/
def CallsBound (w : World cfg) : Prop :=
  ∀ thread call pc, w.threads thread = .resolving call pc →
    call.begun ≤ call.binding ∧ call.binding ≤ w.table.currentBinding

namespace CallsBound

/-- No call begins or moves. -/
theorem keep (h : w.CallsBound) (hthreads : w'.threads = w.threads)
    (hle : w.table.currentBinding ≤ w'.table.currentBinding) : w'.CallsBound := by
  intro k c p hk
  rw [hthreads] at hk
  obtain ⟨hbegun, hbinding⟩ := h k c p hk
  exact ⟨hbegun, hbinding.trans hle⟩

/-- One thread moves; if it is inside a call, the call is in order. -/
theorem setThread (h : w.CallsBound) (hthreads : u.threads = w.threads)
    (hle : w.table.currentBinding ≤ u.table.currentBinding) {pc : Pc cfg}
    (hpc : ∀ c p, pc = .resolving c p →
      c.begun ≤ c.binding ∧ c.binding ≤ w.table.currentBinding) :
    (u.setThread thread pc).CallsBound := by
  intro k c p hk
  have hk : Function.update u.threads thread pc k = .resolving c p := hk
  by_cases hkt : k = thread
  · rw [hkt, Function.update_self] at hk
    obtain ⟨hbegun, hbinding⟩ := hpc c p hk
    exact ⟨hbegun, hbinding.trans hle⟩
  · rw [Function.update_of_ne hkt, hthreads] at hk
    obtain ⟨hbegun, hbinding⟩ := h k c p hk
    exact ⟨hbegun, hbinding.trans hle⟩

/-- A thread that is in no call afterwards. -/
theorem leaves (h : w.CallsBound) (hthreads : u.threads = w.threads)
    (hle : w.table.currentBinding ≤ u.table.currentBinding) {pc : Pc cfg}
    (hpc : ∀ c p, pc ≠ .resolving c p) : (u.setThread thread pc).CallsBound :=
  h.setThread hthreads hle fun c p hk => absurd hk (hpc c p)

theorem advance (h : w.CallsBound) (hfill : w.FillInv)
    (hle : w.table.currentBinding ≤ w'.table.currentBinding)
    (hstep : w.advance thread choice = some w') : w'.CallsBound := by
  unfold World.advance at hstep
  split at hstep
  · rename_i call pc hpc
    obtain ⟨⟨call', pc', u⟩, hresolve, rfl⟩ := Option.map_eq_some_iff.mp hstep
    obtain ⟨hbegun, hbinding⟩ := h thread call pc hpc
    obtain ⟨hsame, hnow⟩ := resolveStep_call hresolve
    refine h.setThread (resolveStep_move hfill.index hresolve).2.1 hle ?_
    rintro c p ⟨⟩
    rw [hsame]
    rcases hnow with hnow | hnow <;> rw [hnow]
    · exact ⟨hbegun, hbinding⟩
    · exact ⟨hbegun.trans hbinding, le_rfl⟩
  · obtain ⟨⟨outcome', pc', u⟩, hwait, rfl⟩ := Option.map_eq_some_iff.mp hstep
    exact h.leaves (waitStep_move hwait).2.1 hle fun c p hk => by cases hk
  · obtain ⟨pc', hdrain, rfl⟩ := Option.map_eq_some_iff.mp hstep
    exact h.leaves rfl hle fun c p hk => by cases hk
  · cases hstep

theorem step (h : w.CallsBound) (hfill : w.FillInv)
    (hle : w.table.currentBinding ≤ w'.table.currentBinding)
    (hstep : w.step action = some w') : w'.CallsBound := by
  unfold World.step at hstep
  split_ifs at hstep
  cases action with
  | resolveInto thread rows out outSize =>
      have hstep : w.callResolve thread rows out outSize = some w' := hstep
      unfold callResolve at hstep
      split at hstep
      · split_ifs at hstep <;> cases hstep
        · exact h.leaves rfl hle fun c p hk => by cases hk
        · exact h.leaves rfl hle fun c p hk => by cases hk
        · refine h.setThread rfl hle ?_
          rintro c p ⟨⟩
          exact ⟨le_rfl, le_rfl⟩
      · cases hstep
  | wait thread ticket deadline =>
      have hstep : w.callWait thread ticket deadline = some w' := hstep
      unfold callWait at hstep
      split at hstep
      · split at hstep <;> cases hstep <;> exact h.leaves rfl hle fun c p hk => by cases hk
      · cases hstep
  | drain thread deadline =>
      have hstep : w.callDrain thread deadline = some w' := hstep
      unfold callDrain at hstep
      split at hstep <;> cases hstep
      exact h.leaves rfl hle fun c p hk => by cases hk
  | advance thread choice => exact h.advance hfill hle hstep
  | leave thread =>
      have hstep : w.leave thread = some w' := hstep
      unfold leave at hstep
      split at hstep <;> cases hstep <;> exact h.leaves rfl hle fun c p hk => by cases hk
  | work choice =>
      obtain ⟨⟨pc, t⟩, hwork, rfl⟩ := Option.map_eq_some_iff.mp hstep
      exact h.keep rfl hle
  | tryGet row v =>
      have hstep : w.tryGet row v = some w' := hstep
      unfold World.tryGet at hstep
      split_ifs at hstep
      · cases hstep
        exact h
      · split at hstep <;> cases hstep <;> exact h.keep rfl hle
  | reset v =>
      have hstep : (if w.inUse v then none else some (w.resetLease v)) = some w' := hstep
      split_ifs at hstep
      cases hstep
      exact h.keep (w.resetLease_edits v).2.1 hle
  | move source target =>
      have hstep : (if w.inUse source ∨ w.inUse target then none
        else some (w.moveLease source target)) = some w' := hstep
      split_ifs at hstep
      cases hstep
      refine h.keep ?_ hle
      unfold moveLease
      split_ifs
      · rfl
      · exact (w.resetLease_edits target).2.1
  | prefetch rows v answers =>
      have hstep : w.prefetch rows v answers = some w' := hstep
      unfold prefetch at hstep
      split_ifs at hstep
      split at hstep <;> cases hstep <;> exact h.keep rfl hle
  | dropTicket v =>
      have hstep : (if (w.tickets v).users ≠ 0 then none else some (w.resetTicket v)) = some w' :=
        hstep
      split_ifs at hstep
      cases hstep
      exact h.keep (w.resetTicket_quiets v).2.1 hle
  | moveTicket source target =>
      have hstep : (if (w.tickets source).users ≠ 0 ∨ (w.tickets target).users ≠ 0 then none
        else some (w.moveTicket source target)) = some w' := hstep
      split_ifs at hstep
      cases hstep
      refine h.keep ?_ hle
      unfold moveTicket
      split_ifs
      · rfl
      · exact (w.resetTicket_quiets target).2.1
  | invalidate creation generation sources resolver =>
      cases hstep
      exact h.keep rfl hle
  | deliver id status =>
      cases hstep
      exact h.keep rfl hle

end CallsBound

/-- Calls remember bindings in order in every reachable state. -/
theorem callsBound_of_reachable {h : cfg.Accepted}
    (hw : Reachable World.step (World.start cfg h) w) : w.CallsBound := by
  have hstart : (World.start cfg h).CallsBound := fun thread call pc hpc => by cases hpc
  refine hw.invariant_of booksKnown hstart ?_
  rintro u action u' ⟨hfill, hbooks⟩ hbound - hstep
  exact hbound.step hfill (currentBinding_le hfill hbooks hstep) hstep

end World

end TieredCache
