/-
# Generations are isolated

After a successful `invalidate`, and up to the next, new leases are on rows that were
filled through the binding it installed, provided no generation number comes back while
rows are resident or in flight under it; and all leases of one `resolve_into` come from
one binding.
-/

import TieredCache.Table.Bindings
import TieredCache.Table.LeaseStability

namespace TieredCache

open Math.Runs

variable {cfg : TableConfig}

namespace World

variable {w w' : World cfg} {action : Action cfg}

/-! ## Rows of the current generation -/

/-- An `invalidate` that will succeed finds no row resident or in flight under the
generation it installs. -/
def FreshGeneration (w : World cfg) : Action cfg → Prop
  | .invalidate creation generation sources _ => w.table.Installs creation sources →
      ∀ s, (w.table.slots s).Occupied → (w.table.slots s).rowGeneration ≠ generation
  | _ => True

instance (w : World cfg) : (action : Action cfg) → Decidable (w.FreshGeneration action)
  | .invalidate creation generation sources _ =>
      inferInstanceAs (Decidable (w.table.Installs creation sources →
        ∀ s, (w.table.slots s).Occupied → (w.table.slots s).rowGeneration ≠ generation))
  | .resolveInto .. | .wait .. | .drain .. | .advance .. | .leave .. | .work .. | .tryGet ..
  | .reset .. | .move .. | .prefetch .. | .dropTicket .. | .moveTicket .. | .deliver .. =>
      isTrue trivial

/-- Every step with fresh generations keeps the rows of the current generation those of
the current binding. -/
theorem currentInv_step (hfill : w.FillInv) (h : w.table.CurrentInv)
    (hfresh : w.FreshGeneration action) (hstep : w.step action = some w') :
    w'.table.CurrentInv := by
  by_cases hinstalls : w.Reinstalls action
  · cases action with
    | invalidate creation generation sources resolver =>
        rw [step_installs hinstalls hstep]
        exact fun s hs hgeneration => absurd hgeneration (hfresh hinstalls s hs)
    | _ => exact hinstalls.elim
  · have hbindings := step_bindings hfill hstep hinstalls
    cases step_move hfill.index hstep with
    | edits htable hlocal hsame =>
        rcases hlocal with hrebinds | hlocal
        · unfold World.step at hstep
          split_ifs at hstep
          cases action with
          | invalidate creation generation sources resolver =>
              cases hstep
              obtain ⟨-, -, hslots⟩ := Table.invalidate_fails generation resolver hinstalls
              refine h.keep hbindings fun s hs => ?_
              dsimp only at hs ⊢
              rw [hslots] at hs ⊢
              exact ⟨hs, rfl, rfl⟩
          | _ => exact hrebinds.elim
        · exact h.localEdits hlocal
    | tookOver g slot hagent hbefore hfilling hunclaimed htable hnow hothers =>
        rw [htable]
        exact h.update ⟨rfl, rfl, rfl, rfl⟩ rfl fun hs => ⟨hs, rfl, rfl⟩
    | finishing g slot pc next deadline choice hagent hbefore hfinish hnow hothers =>
        obtain ⟨hfilling, -⟩ := hfill.driven g slot pc hbefore
        have hmove := Table.finishStep_move hfilling hfinish
        generalize w'.table = t' at hmove hbindings
        cases hmove with
        | stays next => exact h
        | relinquished hpc => exact h.update hbindings rfl fun hs => ⟨hs, rfl, rfl⟩
        | published result hpc =>
            exact h.update hbindings rfl fun _ => ⟨Or.inl hfilling, rfl, rfl⟩

/-- The rows of the current generation are those of the current binding in every run
whose generations are fresh. -/
theorem currentInv_of_reaches {h : cfg.Accepted} {allowed : World cfg → Action cfg → Prop}
    (hfresh : ∀ w action, allowed w action → w.FreshGeneration action)
    (hw : Reaches World.step allowed (World.start cfg h) w) : w.table.CurrentInv :=
  hw.invariant_of (fun _ hw => fillInv_of_reachable hw.reachable) (Table.CurrentInv.create h)
    fun u action _ hfill hcurrent hallowed hstep =>
      currentInv_step hfill hcurrent (hfresh u action hallowed) hstep

/-! ## What new leases are filled through -/

/-- New leases are on rows filled through one binding: those `try_get` returns, and those
of every `resolve_into` made since the binding was installed. -/
structure SeesOnly (w : World cfg) (b : BindingId) : Prop where
  tryGet : ∀ row v w' l, w.step (.tryGet row v) = some w' → w.leases v = none →
    w'.leases v = some l → (w'.table.slots l.slot).filledThrough = b
  resolve : ∀ thread call n, w.threads thread = .resolving call (.returned (.ok n)) →
    call.begun = b → ∀ v, call.InSpan v →
      ∃ l, w.leases v = some l ∧ (w.table.slots l.slot).filledThrough = b

/-- Generations are isolated: all leases of one `resolve_into` are on rows of one binding,
and a successful `invalidate` installs a new binding, the only one new leases are filled
through up to the next successful `invalidate`. -/
structure GenerationsIsolated (allowed : World cfg → Action cfg → Prop) (w : World cfg) : Prop where
  one : ∀ thread call n, w.threads thread = .resolving call (.returned (.ok n)) →
    ∃ b, ∀ v, call.InSpan v →
      ∃ l, w.leases v = some l ∧ (w.table.slots l.slot).filledThrough = b
  isolated : ∀ creation generation sources resolver w₁ w₂,
    (w.table.invalidate creation generation sources resolver).1 = .ok →
    allowed w (.invalidate creation generation sources resolver) →
    w.step (.invalidate creation generation sources resolver) = some w₁ →
    Reaches World.step (fun u action => allowed u action ∧ ¬ u.Reinstalls action) w₁ w₂ →
    (∀ s, (w.table.slots s).filledThrough < w₁.table.currentBinding) ∧
      w₂.table.currentBinding = w₁.table.currentBinding ∧
      w₂.table.origin w₁.table.currentBinding =
        (sources, resolver.getD (w.table.bindings w.table.currentBinding).resolver) ∧
      w₂.SeesOnly w₁.table.currentBinding

/-- The condition: there is room for the leases of the step, and an `invalidate` brings
no generation number back. -/
def Isolates (w : World cfg) (action : Action cfg) : Prop :=
  w.LeaseRoom action ∧ w.FreshGeneration action

instance (w : World cfg) (action : Action cfg) : Decidable (w.Isolates action) :=
  inferInstanceAs (Decidable (_ ∧ _))

/-- `try_get` returns a row of the current binding. -/
theorem tryGet_through (hidx : w.table.IndexInv) (hcurrent : w.table.CurrentInv) {row : UInt64}
    {v : LeaseVar} {l : Lease cfg} (hstep : w.step (.tryGet row v) = some w')
    (hempty : w.leases v = none) (hl : w'.leases v = some l) :
    (w'.table.slots l.slot).filledThrough = w.table.currentBinding := by
  obtain ⟨⟨counters, htable⟩, hfound⟩ := Table.findReady_spec hidx row
  unfold World.step at hstep
  split_ifs at hstep
  have hstep : w.tryGet row v = some w' := hstep
  unfold World.tryGet at hstep
  split_ifs at hstep
  · cases hstep
    rw [hempty] at hl
    cases hl
  · split at hstep <;> rename_i hfind <;> cases hstep
    · rw [show w.leases v = none from hempty] at hl
      cases hl
    · rename_i slot t
      rw [hfind] at htable hfound
      obtain ⟨hready, hkey⟩ := hfound slot rfl
      have hself := (Function.update_self ..).symm.trans hl
      cases hself
      obtain ⟨r, p, hpin⟩ := t.pin_sameFill slot slot
      have hthrough := hcurrent slot (Or.inr hready) (congrArg Prod.snd hkey)
      show ((t.pin slot).slots slot).filledThrough = _
      have htable : t = { w.table with counters := counters } := htable
      rw [hpin, htable]
      exact hthrough

/-- The leases of a call that returned are on rows of the binding it saw. -/
theorem CallsInv.through (h : w.CallsInv True) {thread : ThreadId} {call : ResolveCall} {n : ℕ}
    (hpc : w.threads thread = .resolving call (.returned (.ok n))) {v : ℕ} (hin : call.InSpan v) :
    ∃ l, w.leases v = some l ∧ (w.table.slots l.slot).filledThrough = call.binding := by
  obtain ⟨l, hl, -, -, -, hthrough⟩ := (h.call thread call _ hpc).2.taken _ hin.sub_lt
  rw [hin.add_sub] at hl
  exact ⟨l, hl, (h.pins.names v l hl).through.trans (hthrough trivial)⟩

/-- In a run that isolates generations, new leases see only the current binding. -/
theorem seesOnly_of_reaches {h : cfg.Accepted}
    (hw : Reaches World.step Isolates (World.start cfg h) w) :
    w.SeesOnly w.table.currentBinding := by
  have hfill := fillInv_of_reachable hw.reachable
  have hcurrent := currentInv_of_reaches (fun _ _ hallowed => hallowed.2) hw
  have hcalls : w.CallsInv True := callsInv_of_reaches (fun _ _ hallowed => hallowed.1)
    (fun u hu _ => currentInv_of_reaches (fun _ _ hallowed => hallowed.2) hu) hw
  refine ⟨fun row v w' l hstep hempty hl => tryGet_through hfill.index hcurrent hstep hempty hl,
    fun thread call n hpc hbegun v hin => ?_⟩
  obtain ⟨l, hl, hthrough⟩ := hcalls.through hpc hin
  obtain ⟨hle, hle'⟩ := callsBound_of_reachable hw.reachable thread call _ hpc
  rw [hbegun] at hle
  exact ⟨l, hl, hthrough.trans (le_antisymm hle' hle)⟩

/-- In every run in which generation numbers are fresh, generations are isolated. -/
theorem generations_isolated {h : cfg.Accepted}
    (hw : Reaches World.step Isolates (World.start cfg h) w) : w.GenerationsIsolated Isolates where
  one := fun thread call n hpc => by
    have hcalls : w.CallsInv True := callsInv_of_reaches (fun _ _ hallowed => hallowed.1)
      (fun u hu _ => currentInv_of_reaches (fun _ _ hallowed => hallowed.2) hu) hw
    exact ⟨call.binding, fun v hin => hcalls.through hpc hin⟩
  isolated := fun creation generation sources resolver w₁ w₂ hok hallowed hstep hrun => by
    have hinstalls := Table.invalidate_ok_iff.mp hok
    have hw₁ := step_installs hinstalls hstep
    have hbinding : w₁.table.currentBinding = w.table.bindingCount := by rw [hw₁]; rfl
    have horigin : w₁.table.origin w₁.table.currentBinding =
        (sources, resolver.getD (w.table.bindings w.table.currentBinding).resolver) := by
      rw [hw₁]
      show (Function.update w.table.bindings w.table.bindingCount _ w.table.bindingCount).origin = _
      rw [Function.update_self]
      rfl
    -- The run goes on from the start, and keeps the binding.
    have hgoes : Reaches World.step Isolates (World.start cfg h) w₂ ∧
        w₂.table.currentBinding = w₁.table.currentBinding ∧ w₂.table.origin = w₁.table.origin := by
      induction hrun with
      | start => exact ⟨hw.step hallowed hstep, rfl, rfl⟩
      | step hs ha hnext ih =>
          obtain ⟨hreach, hcurrent, horigins⟩ := ih
          have hsame := step_bindings (fillInv_of_reachable hreach.reachable) hnext ha.2
          exact ⟨hreach.step ha.1 hnext, hsame.current.trans hcurrent, hsame.origin.trans horigins⟩
    obtain ⟨hreach, hcurrent, horigins⟩ := hgoes
    refine ⟨fun s => ?_, hcurrent, ?_, ?_⟩
    · rw [hbinding]
      exact lt_of_le_of_lt (pastBindings_of_reachable hw.reachable s)
        (bookInv_of_reachable hw.reachable).current_lt
    · rw [horigins, horigin]
    · rw [← hcurrent]
      exact seesOnly_of_reaches hreach

end World

/-! ## The condition is needed -/

/-- The sources of the small table, read from other handles. -/
def otherSources : List ShardSource := [⟨2, 2⟩, ⟨3, 2⟩]

/-- Row 0 is resident under generation 0; an `invalidate` that installs generation 0 again
leaves it where `try_get` finds it. -/
theorem generations_not_isolated :
    ∃ w, Reachable World.step (World.start twoShards twoShards_accepted) w ∧
      ¬ w.GenerationsIsolated fun _ _ => True := by
  have hrun : (exec World.step residentRun (World.start twoShards twoShards_accepted)).any
      fun w => (w.table.invalidate .ok 0 otherSources none).1 = .ok ∧
        ((w.step (.invalidate .ok 0 otherSources none)).any fun w₁ =>
          w₁.table.currentBinding = 1 ∧ (w₁.leases 0).isNone ∧
            ((w₁.step (.tryGet 0 0)).any fun w' => (w'.leases 0).any fun l =>
              (w'.table.slots l.slot).filledThrough = 0)) := by
    decide +kernel
  obtain ⟨w, hw, hfacts⟩ := (Option.any_eq_true _ _).mp hrun
  obtain ⟨hok, hinvalidate⟩ := of_decide_eq_true hfacts
  obtain ⟨w₁, hw₁, hfacts₁⟩ := (Option.any_eq_true _ _).mp hinvalidate
  obtain ⟨hcurrent, hempty, hget⟩ := of_decide_eq_true hfacts₁
  obtain ⟨w', hw', hfound⟩ := (Option.any_eq_true _ _).mp hget
  obtain ⟨l, hl, hstale⟩ := (Option.any_eq_true _ _).mp hfound
  refine ⟨w, reachable_of_exec .start hw, fun h => ?_⟩
  obtain ⟨-, -, -, hsees⟩ := h.isolated _ _ _ _ w₁ w₁ hok trivial hw₁ .start
  have hfresh := hsees.tryGet 0 0 w' l hw' (Option.isNone_iff_eq_none.mp hempty) hl
  rw [of_decide_eq_true hstale, hcurrent] at hfresh
  cases hfresh

/-- Row 0 is resident under generation 0; generation 1 is installed and the row is fetched
again through its sources. -/
def refreshedRun : List (Action twoShards) :=
  residentRun ++ [.invalidate .ok 1 otherSources none, .prefetch [0] 1 fun _ => {},
    .deliver 2 .ok, .deliver 3 .ok, .resolveInto 0 [0, 0] 0 2, .advance 0 {}, .advance 0 {},
    .advance 0 {}, .advance 0 {}]

/-- A run whose generations are isolated. -/
theorem generations_isolated_refreshed :
    ∃ w, exec World.step refreshedRun (World.start twoShards twoShards_accepted) = some w ∧
      w.GenerationsIsolated World.Isolates := by
  have hrun : (exec World.step refreshedRun
      (World.start twoShards twoShards_accepted)).isSome := by
    decide +kernel
  have hallowed : AllAllowed World.step World.Isolates refreshedRun
      (World.start twoShards twoShards_accepted) := by
    decide +kernel
  obtain ⟨w, hw⟩ := Option.isSome_iff_exists.mp hrun
  exact ⟨w, hw, World.generations_isolated (reaches_of_exec .start hallowed hw)⟩

end TieredCache
