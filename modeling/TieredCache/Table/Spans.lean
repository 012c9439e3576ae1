/-
# Spans of running calls

The `out` spans of running calls are marked as in use and do not overlap, so a step of
one thread leaves the entries of every other call alone.
-/

import TieredCache.Table.CallSteps

namespace TieredCache

open Math.Runs

variable {cfg : TableConfig}

/-- The position a call is at is one of its rows. -/
def ResolvePc.Within : ResolvePc cfg → ℕ → Prop
  | .unwind _ count _, n => count ≤ n
  | .finishing i _ _, n => i < n
  | .settle i, n => i < n
  | .asleep i _, n => i < n
  | _, _ => True

/-- The thread that calls, goes on or takes its result in this step. -/
def Action.caller : Action cfg → Option ThreadId
  | .resolveInto thread _ _ _ => some thread
  | .wait thread _ _ => some thread
  | .drain thread _ => some thread
  | .advance thread _ => some thread
  | .leave thread => some thread
  | _ => none

namespace World

variable {w w' u : World cfg} {thread : ThreadId} {call call' : ResolveCall}
  {pc pc' : ResolvePc cfg} {choice : Choice} {action : Action cfg}

/-- Running calls have spans of their own. -/
structure SpanInv (w : World cfg) : Prop where
  inUse : ∀ thread call pc, w.threads thread = .resolving call pc →
    ∀ v, call.InSpan v → w.inUse v = true
  apart : ∀ thread thread' call call' pc pc', w.threads thread = .resolving call pc →
    w.threads thread' = .resolving call' pc' → ∀ v, call.InSpan v → call'.InSpan v →
    thread = thread'
  within : ∀ thread call pc, w.threads thread = .resolving call pc → pc.Within call.rows.length

/-! ## Steps of a call -/

theorem resetLease_entries (w : World cfg) (v : LeaseVar) :
    (w.resetLease v).threads = w.threads ∧ (w.resetLease v).inUse = w.inUse ∧
      ∀ v', v' ≠ v → (w.resetLease v).leases v' = w.leases v' := by
  unfold resetLease
  split
  · exact ⟨rfl, rfl, fun _ _ => rfl⟩
  · split
    · exact ⟨rfl, rfl, fun _ _ => rfl⟩
    · exact ⟨rfl, rfl, fun _ hv => Function.update_of_ne hv ..⟩

theorem admitRows_entries (answers : Answers) (out : ℕ) (rows : List UInt64) (i : ℕ)
    (w : World cfg) :
    (admitRows answers out i rows w).1 ≤ i + rows.length ∧
      (admitRows answers out i rows w).2.2.threads = w.threads ∧
      (admitRows answers out i rows w).2.2.inUse = w.inUse ∧
      ∀ v : ℕ, v < out + i ∨ out + i + rows.length ≤ v →
        (admitRows answers out i rows w).2.2.leases v = w.leases v := by
  induction rows generalizing i w with
  | nil => exact ⟨le_rfl, rfl, rfl, fun _ _ => rfl⟩
  | cons row rows ih =>
      unfold admitRows
      split
      · rename_i slot t hfind
        obtain ⟨hle, hthreads, hinUse, hleases⟩ :=
          ih (i + 1) (({ w with table := t }).grant (out + i) slot row ⟨0, 0⟩)
        simp only [List.length_cons]
        refine ⟨by omega, hthreads, hinUse, fun v hv => (hleases v (by omega)).trans ?_⟩
        have hne : v ≠ out + i := by omega
        exact Function.update_of_ne hne ..
      · exact ⟨Nat.le_add_right _ _, rfl, rfl, fun _ _ => rfl⟩

/-- A step of a call stays in the call's span. -/
structure StaysInSpan (w : World cfg) (call call' : ResolveCall) (pc' : ResolvePc cfg)
    (u : World cfg) : Prop where
  out : call'.out = call.out
  rows : call'.rows = call.rows
  within : pc'.Within call.rows.length
  threads : u.threads = w.threads
  inUse : u.inUse = w.inUse
  leases : ∀ v, ¬ call.InSpan v → u.leases v = w.leases v

theorem afterRow_within (call : ResolveCall) (i : ℕ) (failure : Status) :
    (afterRow call i failure : ResolvePc cfg).Within call.rows.length := by
  unfold afterRow
  split_ifs
  · trivial
  · exact le_rfl

theorem settleRow_stays {i : ℕ} {lease : Lease cfg} (hi : i < call.rows.length)
    (h : w.settleRow call i lease = (pc', u)) : StaysInSpan w call call pc' u := by
  unfold settleRow at h
  dsimp only at h
  split_ifs at h <;> cases h
  · exact ⟨rfl, rfl, afterRow_within .., rfl, rfl, fun _ _ => rfl⟩
  · refine ⟨rfl, rfl, afterRow_within .., rfl, rfl, fun v hv => Function.update_of_ne ?_ ..⟩
    rintro rfl
    exact hv (inSpan_add hi)
  · exact ⟨rfl, rfl, afterRow_within .., rfl, rfl, fun _ _ => rfl⟩

theorem resolveStep_stays (hwithin : pc.Within call.rows.length)
    (h : w.resolveStep call choice pc = some (call', pc', u)) :
    StaysInSpan w call call' pc' u := by
  have hreset : ∀ i, i < call.rows.length → ∀ v, ¬ call.InSpan v →
      (w.resetLease (call.out + i)).leases v = w.leases v := by
    intro i hi v hv
    apply (w.resetLease_entries (call.out + i)).2.2
    rintro rfl
    exact hv (inSpan_add hi)
  have hframe : ∀ i, (w.resetLease (call.out + i)).threads = w.threads ∧
      (w.resetLease (call.out + i)).inUse = w.inUse := fun i =>
    ⟨(w.resetLease_entries _).1, (w.resetLease_entries _).2.1⟩
  unfold resolveStep at h
  cases pc with
  | releasing i =>
      dsimp only at h
      split_ifs at h with hi <;> cases h
      · exact ⟨rfl, rfl, trivial, (hframe i).1, (hframe i).2, hreset i hi⟩
      · exact ⟨rfl, rfl, trivial, rfl, rfl, fun _ _ => rfl⟩
      · exact ⟨rfl, rfl, trivial, rfl, rfl, fun _ _ => rfl⟩
  | phaseA =>
      obtain ⟨hle, hthreads, hinUse, hleases⟩ := admitRows_entries choice.answers call.out call.rows 0 w
      rw [Nat.zero_add] at hle
      have hout : ∀ v, ¬ call.InSpan v →
          (admitRows choice.answers call.out 0 call.rows w).2.2.leases v = w.leases v := by
        intro v hv
        apply hleases
        rcases not_and_or.mp hv with hbelow | habove
        · exact Or.inl (not_le.mp hbelow)
        · exact Or.inr (not_lt.mp habove)
      dsimp only at h
      split_ifs at h <;> cases h
      · exact ⟨rfl, rfl, trivial, hthreads, hinUse, hout⟩
      · exact ⟨rfl, rfl, hle, hthreads, hinUse, hout⟩
  | unwind i count failure =>
      have hcount : count ≤ call.rows.length := hwithin
      dsimp only at h
      split_ifs at h with hi <;> cases h
      · exact ⟨rfl, rfl, hwithin, (hframe i).1, (hframe i).2, hreset i (lt_of_lt_of_le hi hcount)⟩
      · exact ⟨rfl, rfl, trivial, rfl, rfl, fun _ _ => rfl⟩
  | drive i =>
      dsimp only at h
      split_ifs at h with hi
      · split at h
        · cases h
        · split_ifs at h
          · cases h
            exact ⟨rfl, rfl, afterRow_within .., rfl, rfl, fun _ _ => rfl⟩
          · cases h
            exact ⟨rfl, rfl, hi, rfl, rfl, fun _ _ => rfl⟩
          · cases h
            exact ⟨rfl, rfl, hi, rfl, rfl, fun _ _ => rfl⟩
          · obtain ⟨rfl, hsettle⟩ := Prod.mk.inj (Option.some.inj h)
            exact settleRow_stays hi hsettle
      · cases h
        exact ⟨rfl, rfl, trivial, rfl, rfl, fun _ _ => rfl⟩
  | finishing i slot fpc =>
      have hi : i < call.rows.length := hwithin
      dsimp only at h
      split at h <;> cases h
      · exact ⟨rfl, rfl, hi, rfl, rfl, fun _ _ => rfl⟩
      · exact ⟨rfl, rfl, hi, rfl, rfl, fun _ _ => rfl⟩
  | settle i =>
      dsimp only at h
      split at h
      · cases h
      · obtain ⟨rfl, hsettle⟩ := Prod.mk.inj (Option.some.inj h)
        exact settleRow_stays hwithin hsettle
  | asleep i since =>
      dsimp only at h
      split_ifs at h
      split at h
      · cases h
      · split_ifs at h
        · obtain ⟨rfl, hsettle⟩ := Prod.mk.inj (Option.some.inj h)
          exact settleRow_stays hwithin hsettle
        · cases h
          exact ⟨rfl, rfl, hwithin, rfl, rfl, fun _ _ => rfl⟩
  | returned result => cases h

theorem resetTicket_entries (w : World cfg) (v : TicketVar) :
    (w.resetTicket v).threads = w.threads ∧ (w.resetTicket v).inUse = w.inUse ∧
      (w.resetTicket v).leases = w.leases := by
  unfold resetTicket
  split
  · exact ⟨rfl, rfl, rfl⟩
  · split <;> exact ⟨rfl, rfl, rfl⟩

/-! ## Steps of the machine -/

/-- What a step leaves alone for a thread that does not take it. -/
structure KeepsSpan (w w' : World cfg) (thread : ThreadId) : Prop where
  pc : w'.threads thread = w.threads thread
  leases : ∀ call pc, w.threads thread = .resolving call pc → ∀ v, call.InSpan v →
    w'.leases v = w.leases v

namespace SpanInv

theorem start (h : cfg.Accepted) : (World.start cfg h).SpanInv where
  inUse := fun thread call pc hpc => by cases hpc
  apart := fun thread thread' call call' pc pc' hpc => by cases hpc
  within := fun thread call pc hpc => by cases hpc

/-- No call moves, and variables that calls use are left alone. -/
theorem outside (h : w.SpanInv) (hthreads : w'.threads = w.threads) (hinUse : w'.inUse = w.inUse)
    (hleases : ∀ v, w.inUse v = true → w'.leases v = w.leases v) :
    w'.SpanInv ∧ ∀ k, action.caller ≠ some k → KeepsSpan w w' k := by
  refine ⟨⟨?_, ?_, ?_⟩, fun k _ => ⟨by rw [hthreads], fun call pc hpc v hv =>
    hleases v (h.inUse k call pc hpc v hv)⟩⟩
  all_goals rw [hthreads]
  · rw [hinUse]
    exact h.inUse
  · exact h.apart
  · exact h.within

/-- One thread moves outside `resolve_into`. -/
theorem plain (h : w.SpanInv) (hthreads : u.threads = w.threads) (hinUse : u.inUse = w.inUse)
    (hleases : u.leases = w.leases) {pc : Pc cfg} (hafter : ∀ c p, pc ≠ .resolving c p) :
    (u.setThread thread pc).SpanInv ∧ ∀ k, k ≠ thread → KeepsSpan w (u.setThread thread pc) k := by
  have hcalls : ∀ k c p, Function.update u.threads thread pc k = .resolving c p →
      w.threads k = .resolving c p := by
    intro k c p hk
    by_cases hkt : k = thread
    · rw [hkt, Function.update_self] at hk
      exact absurd hk (hafter c p)
    · rwa [Function.update_of_ne hkt, hthreads] at hk
  refine ⟨⟨fun k c p hk v hv => ?_, fun k k' c c' p p' hk hk' =>
    h.apart k k' c c' p p' (hcalls k c p hk) (hcalls k' c' p' hk'),
    fun k c p hk => h.within k c p (hcalls k c p hk)⟩, fun k hk => ⟨?_, fun c p _ v _ => ?_⟩⟩
  · show u.inUse v = true
    rw [hinUse]
    exact h.inUse k c p (hcalls k c p hk) v hv
  · show Function.update u.threads thread pc k = _
    rw [Function.update_of_ne hk, hthreads]
  · show u.leases v = _
    rw [hleases]

/-- A call moves inside its span. -/
theorem moved (h : w.SpanInv) (hpc : w.threads thread = .resolving call pc)
    (hstays : StaysInSpan w call call' pc' u) :
    (u.setThread thread (.resolving call' pc')).SpanInv ∧
      ∀ k, k ≠ thread → KeepsSpan w (u.setThread thread (.resolving call' pc')) k := by
  have hspan : ∀ v, call'.InSpan v ↔ call.InSpan v := fun v => by
    unfold ResolveCall.InSpan
    rw [hstays.out, hstays.rows]
  -- Every call of the new state was there, with the same span.
  have hcases : ∀ k c p, Function.update u.threads thread (.resolving call' pc') k = .resolving c p →
      ∃ c₀ p₀, w.threads k = .resolving c₀ p₀ ∧ (∀ v, c.InSpan v ↔ c₀.InSpan v) ∧
        p.Within c.rows.length := by
    intro k c p hk
    by_cases hkt : k = thread
    · rw [hkt, Function.update_self] at hk
      cases hk
      refine ⟨call, pc, by rw [hkt]; exact hpc, hspan, ?_⟩
      rw [hstays.rows]
      exact hstays.within
    · rw [Function.update_of_ne hkt, hstays.threads] at hk
      exact ⟨c, p, hk, fun _ => Iff.rfl, h.within k c p hk⟩
  refine ⟨⟨fun k c p hk v hv => ?_, fun k k' c c' p p' hk hk' v hv hv' => ?_, fun k c p hk => ?_⟩,
    fun k hk => ⟨?_, fun c p hold v hv => ?_⟩⟩
  · obtain ⟨c₀, p₀, hold, hin, -⟩ := hcases k c p hk
    show u.inUse v = true
    rw [hstays.inUse]
    exact h.inUse k c₀ p₀ hold v ((hin v).mp hv)
  · obtain ⟨c₀, p₀, hold, hin, -⟩ := hcases k c p hk
    obtain ⟨c₁, p₁, hold', hin', -⟩ := hcases k' c' p' hk'
    exact h.apart k k' c₀ c₁ p₀ p₁ hold hold' v ((hin v).mp hv) ((hin' v).mp hv')
  · exact (hcases k c p hk).choose_spec.choose_spec.2.2
  · show Function.update u.threads thread _ k = _
    rw [Function.update_of_ne hk, hstays.threads]
  · refine hstays.leases v fun hin => hk ?_
    exact h.apart k thread c call p pc hold hpc v hv hin

/-- A call begins on variables no call uses. -/
theorem begins (h : w.SpanInv) {rows : List UInt64} {out : LeaseVar}
    (hfree : ¬ ∃ i < rows.length, w.inUse (out + i)) :
    ((w.setInUse out rows.length true).setThread thread
      (.resolving (.begin rows out w.table.currentBinding) (.releasing 0))).SpanInv ∧
    ∀ k, k ≠ thread → KeepsSpan w ((w.setInUse out rows.length true).setThread thread
      (.resolving (.begin rows out w.table.currentBinding) (.releasing 0))) k := by
  have hunused : ∀ v, ResolveCall.InSpan (.begin rows out w.table.currentBinding) v →
      w.inUse v = false := by
    intro v hv
    rw [← Bool.not_eq_true]
    intro huse
    refine hfree ⟨v - out, hv.sub_lt, ?_⟩
    rwa [show out + (v - out) = v from hv.add_sub]
  have hcases : ∀ k c p, Function.update w.threads thread
      (.resolving (.begin rows out w.table.currentBinding) (.releasing 0)) k = Pc.resolving c p →
      (k = thread ∧ c = .begin rows out w.table.currentBinding ∧ p = .releasing 0) ∨
        w.threads k = .resolving c p := by
    intro k c p hk
    by_cases hkt : k = thread
    · rw [hkt, Function.update_self] at hk
      cases hk
      exact Or.inl ⟨hkt, rfl, rfl⟩
    · rw [Function.update_of_ne hkt] at hk
      exact Or.inr hk
  have hclash : ∀ k c p v, w.threads k = .resolving c p → c.InSpan v →
      ¬ ResolveCall.InSpan (.begin rows out w.table.currentBinding) v := by
    intro k c p v hold hv hnew
    have huse := h.inUse k c p hold v hv
    rw [hunused v hnew] at huse
    cases huse
  refine ⟨⟨fun k c p hk v hv => ?_, fun k k' c c' p p' hk hk' v hv hv' => ?_, fun k c p hk => ?_⟩,
    fun k hk => ⟨Function.update_of_ne hk .., fun _ _ _ _ _ => rfl⟩⟩
  · show (if out ≤ v ∧ v < out + rows.length then true else w.inUse v) = true
    rcases hcases k c p hk with ⟨-, rfl, -⟩ | hold
    · exact if_pos hv
    · rw [h.inUse k c p hold v hv, ite_self]
  · rcases hcases k c p hk with ⟨rfl, rfl, -⟩ | hold <;>
      rcases hcases k' c' p' hk' with ⟨rfl, rfl, -⟩ | hold'
    · rfl
    · exact absurd hv (hclash k' c' p' v hold' hv')
    · exact absurd hv' (hclash k c p v hold hv)
    · exact h.apart k k' c c' p p' hold hold' v hv hv'
  · rcases hcases k c p hk with ⟨-, rfl, rfl⟩ | hold
    · trivial
    · exact h.within k c p hold

/-- A finished call gives its span up. -/
theorem leaves (h : w.SpanInv) (hpc : w.threads thread = .resolving call pc) :
    ((w.setInUse call.out call.rows.length false).setThread thread .idle).SpanInv ∧
    ∀ k, k ≠ thread →
      KeepsSpan w ((w.setInUse call.out call.rows.length false).setThread thread .idle) k := by
  have hcalls : ∀ k c p, Function.update w.threads thread .idle k = .resolving c p →
      k ≠ thread ∧ w.threads k = .resolving c p := by
    intro k c p hk
    by_cases hkt : k = thread
    · rw [hkt, Function.update_self] at hk
      cases hk
    · rw [Function.update_of_ne hkt] at hk
      exact ⟨hkt, hk⟩
  refine ⟨⟨fun k c p hk v hv => ?_, fun k k' c c' p p' hk hk' =>
    h.apart k k' c c' p p' (hcalls k c p hk).2 (hcalls k' c' p' hk').2,
    fun k c p hk => h.within k c p (hcalls k c p hk).2⟩,
    fun k hk => ⟨Function.update_of_ne hk .., fun _ _ _ _ _ => rfl⟩⟩
  obtain ⟨hkt, hold⟩ := hcalls k c p hk
  show (if call.out ≤ v ∧ v < call.out + call.rows.length then false else w.inUse v) = true
  have hout : ¬ (call.out ≤ v ∧ v < call.out + call.rows.length) := fun hin =>
    hkt (h.apart k thread c call p pc hold hpc v hv hin)
  rw [if_neg hout]
  exact h.inUse k c p hold v hv

/-- The thread's own step is the only one that may touch its span. -/
private theorem others (h : w'.SpanInv ∧ ∀ k, k ≠ thread → KeepsSpan w w' k)
    (hcaller : action.caller = some thread) :
    w'.SpanInv ∧ ∀ k, action.caller ≠ some k → KeepsSpan w w' k := by
  refine ⟨h.1, fun k hk => h.2 k ?_⟩
  rintro rfl
  exact hk hcaller

theorem advance (h : w.SpanInv) (hstep : w.advance thread choice = some w') :
    w'.SpanInv ∧ ∀ k, k ≠ thread → KeepsSpan w w' k := by
  unfold World.advance at hstep
  split at hstep
  · rename_i call pc hpc
    obtain ⟨⟨call', pc', u⟩, hresolve, rfl⟩ := Option.map_eq_some_iff.mp hstep
    exact h.moved hpc (resolveStep_stays (h.within thread call pc hpc) hresolve)
  · rename_i call outcome pc hpc
    obtain ⟨⟨outcome', pc', u⟩, hwait, rfl⟩ := Option.map_eq_some_iff.mp hstep
    obtain ⟨hleases, hinUse, -, -⟩ := waitStep_leases hwait
    exact h.plain (waitStep_move hwait).2.1 hinUse hleases fun c p hk => by cases hk
  · rename_i deadline pc hpc
    obtain ⟨pc', hdrain, rfl⟩ := Option.map_eq_some_iff.mp hstep
    exact h.plain (u := w) rfl rfl rfl fun c p hk => by cases hk
  · cases hstep

/-- Every step keeps running calls on spans of their own, and leaves the spans of other
calls alone. -/
theorem step (h : w.SpanInv) (hstep : w.step action = some w') :
    w'.SpanInv ∧ ∀ k, action.caller ≠ some k → KeepsSpan w w' k := by
  unfold World.step at hstep
  split_ifs at hstep
  cases action with
  | resolveInto thread rows out outSize =>
      refine others ?_ rfl
      have hstep : w.callResolve thread rows out outSize = some w' := hstep
      unfold callResolve at hstep
      split at hstep
      · split_ifs at hstep with hbatch hout hbusy <;> cases hstep
        · exact h.plain (u := w) rfl rfl rfl fun c p hk => by cases hk
        · exact h.plain (u := w) rfl rfl rfl fun c p hk => by cases hk
        · exact h.begins hbusy
      · cases hstep
  | wait thread ticket deadline =>
      refine others ?_ rfl
      have hstep : w.callWait thread ticket deadline = some w' := hstep
      unfold callWait at hstep
      split at hstep
      · split at hstep <;> cases hstep
        · exact h.plain (u := w) rfl rfl rfl fun c p hk => by cases hk
        · exact h.plain (u := w.setTicket _ _) rfl rfl rfl fun c p hk => by cases hk
      · cases hstep
  | drain thread deadline =>
      refine others ?_ rfl
      have hstep : w.callDrain thread deadline = some w' := hstep
      unfold callDrain at hstep
      split at hstep
      · cases hstep
        exact h.plain (u := w) rfl rfl rfl fun c p hk => by cases hk
      · cases hstep
  | advance thread choice => exact others (h.advance hstep) rfl
  | leave thread =>
      refine others ?_ rfl
      have hstep : w.leave thread = some w' := hstep
      unfold leave at hstep
      split at hstep
      · cases hstep
        exact h.plain (u := w) rfl rfl rfl fun c p hk => by cases hk
      · rename_i call result hpc
        cases hstep
        exact h.leaves hpc
      · cases hstep
        exact h.plain (u := w.setTicket _ _) rfl rfl rfl fun c p hk => by cases hk
      · cases hstep
        exact h.plain (u := w) rfl rfl rfl fun c p hk => by cases hk
      · cases hstep
  | work choice =>
      obtain ⟨⟨pc, t⟩, -, rfl⟩ := Option.map_eq_some_iff.mp hstep
      exact h.outside rfl rfl fun _ _ => rfl
  | tryGet row v =>
      have hstep : w.tryGet row v = some w' := hstep
      unfold tryGet at hstep
      split_ifs at hstep with hguard
      · cases hstep
        exact h.outside rfl rfl fun _ _ => rfl
      · rw [not_or] at hguard
        split at hstep <;> cases hstep
        · exact h.outside rfl rfl fun _ _ => rfl
        · refine h.outside rfl rfl fun v' huse => ?_
          refine Function.update_of_ne ?_ ..
          rintro rfl
          exact hguard.1 huse
  | reset v =>
      have hstep : (if w.inUse v then none else some (w.resetLease v)) = some w' := hstep
      split_ifs at hstep with huse
      cases hstep
      obtain ⟨hthreads, hinUse, hleases⟩ := w.resetLease_entries v
      refine h.outside hthreads hinUse fun v' huse' => hleases v' ?_
      rintro rfl
      exact huse huse'
  | move source target =>
      have hstep : (if w.inUse source ∨ w.inUse target then none
        else some (w.moveLease source target)) = some w' := hstep
      split_ifs at hstep with huse
      cases hstep
      rw [not_or] at huse
      unfold moveLease
      split_ifs
      · exact h.outside rfl rfl fun _ _ => rfl
      · obtain ⟨hthreads, hinUse, hleases⟩ := w.resetLease_entries target
        refine h.outside hthreads hinUse fun v huse' => ?_
        have hs : v ≠ source := by
          rintro rfl
          exact huse.1 huse'
        have ht : v ≠ target := by
          rintro rfl
          exact huse.2 huse'
        exact (Function.update_of_ne hs ..).trans
          ((Function.update_of_ne ht ..).trans (hleases v ht))
  | prefetch rows v answers =>
      have hstep : w.prefetch rows v answers = some w' := hstep
      unfold prefetch at hstep
      split_ifs at hstep
      split at hstep <;> cases hstep <;>
        exact h.outside rfl rfl fun _ _ => rfl
  | dropTicket v =>
      have hstep : (if (w.tickets v).users ≠ 0 then none else some (w.resetTicket v)) = some w' :=
        hstep
      split_ifs at hstep
      cases hstep
      obtain ⟨hthreads, hinUse, hleases⟩ := w.resetTicket_entries v
      exact h.outside hthreads hinUse fun v _ => congrFun hleases v
  | moveTicket source target =>
      have hstep : (if (w.tickets source).users ≠ 0 ∨ (w.tickets target).users ≠ 0 then none
        else some (w.moveTicket source target)) = some w' := hstep
      split_ifs at hstep
      cases hstep
      obtain ⟨hthreads, hinUse, hleases⟩ := w.resetTicket_entries target
      unfold moveTicket
      split_ifs
      · exact h.outside rfl rfl fun _ _ => rfl
      · exact h.outside hthreads hinUse fun v _ => congrFun hleases v
  | invalidate creation generation sources resolver =>
      cases hstep
      exact h.outside rfl rfl fun _ _ => rfl
  | deliver id status =>
      cases hstep
      exact h.outside rfl rfl fun _ _ => rfl

end SpanInv

/-- Running calls have spans of their own in every reachable state. -/
theorem spanInv_of_reachable {h : cfg.Accepted}
    (hw : Reachable World.step (World.start cfg h) w) : w.SpanInv :=
  hw.invariant (.start h) fun _ _ _ hinv _ hstep => (hinv.step hstep).1

end World

end TieredCache
