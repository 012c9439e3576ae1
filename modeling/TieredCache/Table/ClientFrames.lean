/-
# What a step leaves to the clients

Which variables a step may change, and which thread it moves.  A variable is in use exactly while
a running call has it in its span.
-/

import TieredCache.Table.Spans

namespace TieredCache

open Math.Runs

variable {cfg : TableConfig}

/-- The variables whose leases the action may change. -/
def Action.Touches (w : World cfg) : Action cfg → LeaseVar → Prop
  | .tryGet _ lease, v => v = lease
  | .reset lease, v => v = lease
  | .move source target, v => v = source ∨ v = target
  | .advance thread _, v => ∃ call pc, w.threads thread = .resolving call pc ∧ call.InSpan v
  | _, _ => False

namespace World

variable {w w' : World cfg} {action : Action cfg} {thread : ThreadId} {call : ResolveCall}
  {pc : ResolvePc cfg} {choice : Choice}

/-! ## Leases -/

theorem tryGet_leases {row : UInt64} {lease v : LeaseVar} (hv : v ≠ lease)
    (hstep : w.tryGet row lease = some w') : w'.leases v = w.leases v := by
  unfold tryGet at hstep
  split_ifs at hstep
  · cases hstep
    rfl
  · split at hstep <;> cases hstep
    · rfl
    · exact Function.update_of_ne hv ..

theorem moveLease_leases (w : World cfg) {source target v : LeaseVar} (hs : v ≠ source)
    (ht : v ≠ target) : (w.moveLease source target).leases v = w.leases v := by
  unfold moveLease
  split_ifs
  · rfl
  · exact (Function.update_of_ne hs ..).trans
      ((Function.update_of_ne ht ..).trans ((w.resetLease_entries target).2.2 v ht))

theorem advance_leases (h : w.SpanInv) {v : LeaseVar}
    (hv : ¬ (Action.advance thread choice).Touches w v) (hstep : w.advance thread choice = some w') :
    w'.leases v = w.leases v := by
  unfold World.advance at hstep
  split at hstep
  · rename_i call pc hpc
    obtain ⟨⟨call', pc', u⟩, hresolve, rfl⟩ := Option.map_eq_some_iff.mp hstep
    refine (resolveStep_stays (h.within thread call pc hpc) hresolve).leases v fun hin => ?_
    exact hv ⟨call, pc, hpc, hin⟩
  · obtain ⟨⟨outcome', pc', u⟩, hwait, rfl⟩ := Option.map_eq_some_iff.mp hstep
    exact congrFun (waitStep_leases hwait).1 v
  · obtain ⟨pc', -, rfl⟩ := Option.map_eq_some_iff.mp hstep
    rfl
  · cases hstep

theorem callResolve_leases {rows : List UInt64} {out : LeaseVar} {outSize : ℕ}
    (hstep : w.callResolve thread rows out outSize = some w') : w'.leases = w.leases := by
  unfold callResolve at hstep
  split at hstep
  · split_ifs at hstep <;> cases hstep <;> rfl
  · cases hstep

theorem leave_leases (hstep : w.leave thread = some w') : w'.leases = w.leases := by
  unfold World.leave at hstep
  split at hstep <;> cases hstep <;> rfl

/-- A step changes no variable but those its action may change. -/
theorem step_leases (h : w.SpanInv) {v : LeaseVar} (hv : ¬ action.Touches w v)
    (hstep : w.step action = some w') : w'.leases v = w.leases v := by
  unfold World.step at hstep
  split_ifs at hstep
  cases action with
  | resolveInto thread rows out outSize => exact congrFun (callResolve_leases hstep) v
  | wait thread ticket deadline =>
      have hstep : w.callWait thread ticket deadline = some w' := hstep
      unfold callWait at hstep
      split at hstep
      · split at hstep <;> cases hstep <;> rfl
      · cases hstep
  | drain thread deadline =>
      have hstep : w.callDrain thread deadline = some w' := hstep
      unfold callDrain at hstep
      split at hstep <;> cases hstep
      rfl
  | advance thread choice => exact advance_leases h hv hstep
  | leave thread => exact congrFun (leave_leases hstep) v
  | work choice =>
      obtain ⟨⟨pc, t⟩, -, rfl⟩ := Option.map_eq_some_iff.mp hstep
      rfl
  | tryGet row lease => exact tryGet_leases hv hstep
  | reset lease =>
      have hstep : (if w.inUse lease then none else some (w.resetLease lease)) = some w' := hstep
      split_ifs at hstep
      cases hstep
      exact (w.resetLease_entries lease).2.2 v hv
  | move source target =>
      have hstep : (if w.inUse source ∨ w.inUse target then none
        else some (w.moveLease source target)) = some w' := hstep
      split_ifs at hstep
      cases hstep
      obtain ⟨hs, ht⟩ := not_or.mp hv
      exact w.moveLease_leases hs ht
  | prefetch rows ticket answers =>
      have hstep : w.prefetch rows ticket answers = some w' := hstep
      unfold prefetch at hstep
      split_ifs at hstep
      split at hstep <;> cases hstep <;> rfl
  | dropTicket ticket =>
      have hstep : (if (w.tickets ticket).users ≠ 0 then none
        else some (w.resetTicket ticket)) = some w' := hstep
      split_ifs at hstep
      cases hstep
      exact congrFun (w.resetTicket_entries ticket).2.2 v
  | moveTicket source target =>
      have hstep : (if (w.tickets source).users ≠ 0 ∨ (w.tickets target).users ≠ 0 then none
        else some (w.moveTicket source target)) = some w' := hstep
      split_ifs at hstep
      cases hstep
      unfold moveTicket
      split_ifs
      · rfl
      · exact congrFun (w.resetTicket_entries target).2.2 v
  | invalidate creation generation sources resolver =>
      cases hstep
      rfl
  | deliver id status =>
      cases hstep
      rfl

/-! ## Calls -/

/-- A call goes on with the rows and the span it was made with. -/
theorem advance_call (h : w.SpanInv) (hpc : w.threads thread = .resolving call pc)
    (hstep : w.step (.advance thread choice) = some w') :
    ∃ call' pc', w'.threads thread = .resolving call' pc' ∧ call'.rows = call.rows ∧
      call'.out = call.out := by
  unfold World.step at hstep
  split_ifs at hstep
  have hstep : w.advance thread choice = some w' := hstep
  unfold World.advance at hstep
  rw [hpc] at hstep
  obtain ⟨⟨call', pc', u⟩, hresolve, rfl⟩ := Option.map_eq_some_iff.mp hstep
  have hstays := resolveStep_stays (h.within thread call pc hpc) hresolve
  exact ⟨call', pc', Function.update_self .., hstays.rows, hstays.out⟩

theorem resolving_of_setThread {u : World cfg} {next : Pc cfg}
    (h : (u.setThread thread next).threads thread = .resolving call pc) :
    next = .resolving call pc := by
  have h : Function.update u.threads thread next thread = .resolving call pc := h
  rwa [Function.update_self] at h

/-- A thread outside `resolve_into` begins a call only by making it. -/
theorem resolving_of_step (hcaller : action.caller = some thread)
    (hstep : w.step action = some w') (hpc : w'.threads thread = .resolving call pc) :
    (∃ call₀ pc₀ choice, action = .advance thread choice ∧ w.threads thread = .resolving call₀ pc₀) ∨
      ∃ outSize, action = .resolveInto thread call.rows call.out outSize := by
  unfold World.step at hstep
  split_ifs at hstep
  cases action with
  | resolveInto k rows out outSize =>
      cases hcaller
      have hstep : w.callResolve thread rows out outSize = some w' := hstep
      unfold callResolve at hstep
      split at hstep
      · split_ifs at hstep <;> cases hstep
        · cases resolving_of_setThread hpc
        · cases resolving_of_setThread hpc
        · cases resolving_of_setThread hpc
          exact Or.inr ⟨outSize, rfl⟩
      · cases hstep
  | wait k ticket deadline =>
      cases hcaller
      have hstep : w.callWait thread ticket deadline = some w' := hstep
      unfold callWait at hstep
      split at hstep
      · split at hstep <;> cases hstep
        · cases resolving_of_setThread hpc
        · cases resolving_of_setThread hpc
      · cases hstep
  | drain k deadline =>
      cases hcaller
      have hstep : w.callDrain thread deadline = some w' := hstep
      unfold callDrain at hstep
      split at hstep <;> cases hstep
      cases resolving_of_setThread hpc
  | advance k choice =>
      cases hcaller
      have hstep : w.advance thread choice = some w' := hstep
      unfold World.advance at hstep
      split at hstep
      · rename_i call₀ pc₀ hpc₀
        exact Or.inl ⟨call₀, pc₀, choice, rfl, hpc₀⟩
      · obtain ⟨⟨outcome', pc', u⟩, -, rfl⟩ := Option.map_eq_some_iff.mp hstep
        cases resolving_of_setThread hpc
      · obtain ⟨pc', -, rfl⟩ := Option.map_eq_some_iff.mp hstep
        cases resolving_of_setThread hpc
      · cases hstep
  | leave k =>
      cases hcaller
      have hstep : w.leave thread = some w' := hstep
      unfold World.leave at hstep
      split at hstep <;> cases hstep <;> cases resolving_of_setThread hpc
  | _ => cases hcaller

end World

end TieredCache
