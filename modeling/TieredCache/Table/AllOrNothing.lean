/-
# resolve_into is all or nothing

A call that returns success holds one lease for each row, in order; a call that fails has
given every lease back, and the fills it started go on.
-/

import TieredCache.Table.Books
import TieredCache.Table.LeaseStability

namespace TieredCache

open Math.Runs Math.Tally

variable {cfg : TableConfig}

namespace World

variable {w w' : World cfg}

/-- Entry by entry the call's leases are those of its rows. -/
structure Ordered (w : World cfg) (call : ResolveCall) : Prop where
  entries : ∀ j < call.rows.length, ∃ l, w.leases (call.out + j) = some l ∧
    call.rows[j]? = some l.rowIndex ∧ l.generation = call.generation ∧
    (w.table.slots l.slot).key = (l.rowIndex, l.generation)
  shared : ∀ j j' l l', j < call.rows.length → j' < call.rows.length →
    w.leases (call.out + j) = some l → w.leases (call.out + j') = some l' →
    call.rows[j]? = call.rows[j']? → l.slot = l'.slot

/-- Leases on one row that have been seen ready share its slot. -/
theorem CallsInv.ordered {fresh : Prop} (h : w.CallsInv fresh) (hidx : w.table.IndexInv) {thread : ThreadId}
    {call : ResolveCall} {n : ℕ} (hpc : w.threads thread = .resolving call (.returned (.ok n))) :
    w.Ordered call := by
  have hfull := (h.call thread call _ hpc).2
  refine ⟨fun j hj => ?_, fun j j' l l' hj hj' hl hl' hrows => ?_⟩
  · obtain ⟨l, hl, hrow, hgeneration, -⟩ := hfull.taken j hj
    exact ⟨l, hl, hrow, hgeneration, (h.pins.names _ l hl).key⟩
  · have hindexed : ∀ j l, j < call.rows.length → w.leases (call.out + j) = some l →
        (w.table.slots l.slot).indexed = true := fun j l hj hl => by
      have hsettled := h.settled hpc (inSpan_add hj) fun hpending => hpending
      exact (hidx.occupied l.slot).mpr (Or.inr (h.stable _ l hl hsettled).ready)
    obtain ⟨k, hk, hrow, hgeneration, -⟩ := hfull.taken j hj
    obtain ⟨k', hk', hrow', hgeneration', -⟩ := hfull.taken j' hj'
    rw [hl] at hk
    rw [hl'] at hk'
    cases hk
    cases hk'
    rw [hrow, hrow', Option.some.injEq] at hrows
    refine hidx.eq_of_key_eq (hindexed j l hj hl) (hindexed j' l' hj' hl') ?_
    rw [(h.pins.names _ l hl).key, (h.pins.names _ l' hl').key, hrows, hgeneration, hgeneration']

/-- Phase A leaves the fills it started in flight. -/
theorem CallsInv.submitted {fresh : Prop} (h : w.CallsInv fresh) (hidx : w.table.IndexInv) {thread : ThreadId}
    {choice : Choice} {call call' : ResolveCall} {pc' : ResolvePc cfg}
    (hroom : w.LeaseRoom (.advance thread choice))
    (hpc : w.threads thread = .resolving call .phaseA)
    (hstep : w.step (.advance thread choice) = some w')
    (hpc' : w'.threads thread = .resolving call' pc') :
    ∀ key ∈ call'.fetched, ∃ s, (w'.table.slots s).state = .filling ∧
      (w'.table.slots s).key = key := by
  have hwanted : w.leasesWanted (.advance thread choice) = call.rows.length := by
    simp only [leasesWanted, hpc]
  rw [LeaseRoom, hwanted, ← h.pins.held_eq] at hroom
  obtain ⟨-, -, hempty⟩ := h.call thread call .phaseA hpc
  obtain ⟨count, -, hbatch⟩ := admitRows_spec choice.answers call.out call.rows 0 h.pins hidx
    hroom (fun j hj => by simpa using hempty j hj)
  obtain ⟨keys, hlog, -, hkeys⟩ := hbatch.fetched
  have hfetched : (admitRows choice.answers call.out 0 call.rows w).2.2.table.fetchLog.take
      ((admitRows choice.answers call.out 0 call.rows w).2.2.table.fetchLog.length -
        w.table.fetchLog.length) = keys := by
    rw [hlog, List.length_append, Nat.add_sub_cancel, List.take_left']
    rfl
  unfold World.step at hstep
  split_ifs at hstep
  have hstep : w.advance thread choice = some w' := hstep
  unfold World.advance at hstep
  rw [hpc] at hstep
  obtain ⟨⟨c, p, u⟩, hresolve, rfl⟩ := Option.map_eq_some_iff.mp hstep
  have hself : (u.setThread thread (.resolving c p)).threads thread = .resolving c p :=
    Function.update_self ..
  rw [hself] at hpc'
  cases hpc'
  unfold World.resolveStep at hresolve
  dsimp only at hresolve
  split_ifs at hresolve <;> cases hresolve <;> intro key hkey <;>
    exact (hkeys key (hfetched ▸ hkey)).2.2

/-- A filling slot leaves that state only as ready or failed. -/
theorem FillInv.fills (h : w.FillInv) {action : Action cfg} (hstep : w.step action = some w')
    {s : cfg.SlotId} (hs : (w.table.slots s).state = .filling) :
    (w'.table.slots s).key = (w.table.slots s).key ∧
      (w'.table.slots s).epoch = (w.table.slots s).epoch ∧ (w'.table.slots s).state ≠ .free := by
  have hupdate : ∀ slot s', s'.key = (w.table.slots slot).key →
      s'.epoch = (w.table.slots slot).epoch → s'.state ≠ .free →
      (Function.update w.table.slots slot s' s).key = (w.table.slots s).key ∧
        (Function.update w.table.slots slot s' s).epoch = (w.table.slots s).epoch ∧
        (Function.update w.table.slots slot s' s).state ≠ .free := by
    intro slot s' hkey hepoch hstate
    by_cases hslot : s = slot
    · subst hslot
      rw [Function.update_self]
      exact ⟨hkey, hepoch, hstate⟩
    · rw [Function.update_of_ne hslot, hs]
      exact ⟨rfl, rfl, by decide⟩
  cases step_move h.index hstep with
  | edits htable hlocal hsame =>
      obtain ⟨r, p, hr⟩ := htable.sameFill hs
      rw [hr]
      exact ⟨rfl, rfl, by simp [hs]⟩
  | tookOver g slot hagent hbefore hfilling hunclaimed htable hnow hothers =>
      rw [htable]
      exact hupdate _ _ rfl rfl (by simp [hfilling])
  | finishing g slot pc next deadline choice hagent hbefore hfinish hnow hothers =>
      have hfilling := (h.driven g slot pc hbefore).1
      have hmove := Table.finishStep_move hfilling hfinish
      generalize w'.table = t' at hmove
      cases hmove with
      | stays next => exact ⟨rfl, rfl, by rw [hs]; decide⟩
      | relinquished hpc => exact hupdate _ _ rfl rfl (by simp [hfilling])
      | published result hpc =>
          refine hupdate _ _ rfl rfl ?_
          dsimp only
          split_ifs <;> decide

end World

/-! ## The condition is needed -/

end TieredCache
