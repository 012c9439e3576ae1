/-
# Calls over several classes

A thread is inside a class table's call exactly while its own call is at a row of that class, and
the class table's call has that one row and that one entry of `out`.  So running calls keep to
spans of their own in every class, and a step leaves the entries of other calls alone.
-/

import TieredCache.Table.ClassedMachine
import TieredCache.Table.ClientFrames

namespace TieredCache

open Math.Families Math.Runs

variable {t : SizeClassedTable}

/-- The variable is an entry of the call's `out` span. -/
def ClassedCall.InSpan (call : ClassedCall) (v : ℕ) : Prop :=
  call.out ≤ v ∧ v < call.out + call.rows.length

theorem ClassedCall.inSpan_add {call : ClassedCall} {j : ℕ} (hj : j < call.rows.length) :
    call.InSpan (call.out + j) :=
  ⟨Nat.le_add_right _ _, Nat.add_lt_add_left hj _⟩

/-- The rows a call gives back are some of its rows. -/
def ClassedResolvePc.Within : ClassedResolvePc t → ℕ → Prop
  | .unwind _ i _, n => i < n
  | _, _ => True

/-- The thread that calls, goes on or takes its result in this step. -/
def ClassedAction.caller : ClassedAction t → Option ThreadId
  | .resolveInto thread _ _ _ => some thread
  | .prefetch thread _ => some thread
  | .drain thread _ => some thread
  | .advance thread _ => some thread
  | .leave thread => some thread
  | _ => none

/-- The action changes the generation. -/
def Action.Invalidates {cfg : TableConfig} : Action cfg → Prop
  | .invalidate _ _ _ _ => True
  | _ => False

/-- The class table's call is the one made for row `i` of the whole call. -/
structure Serves (t : SizeClassedTable) (call : ClassedCall) (i : ℕ) (c : t.ClassId)
    (inner : ResolveCall) : Prop where
  row : ∃ row, call.rows[i]? = some row ∧ row < t.config.rowCount ∧ t.routeOf row = some c ∧
    inner.rows = [t.localRow row]
  out : inner.out = call.out + i

namespace Serves

variable {call : ClassedCall} {i : ℕ} {c : t.ClassId} {inner inner' : ResolveCall}

theorem lt (h : Serves t call i c inner) : i < call.rows.length := by
  obtain ⟨row, hrow, -⟩ := h.row
  exact (List.getElem?_eq_some_iff.mp hrow).1

/-- The class table's call has one entry. -/
theorem inSpan_iff (h : Serves t call i c inner) {v : ℕ} :
    inner.InSpan v ↔ v = call.out + i := by
  obtain ⟨row, -, -, -, hrows⟩ := h.row
  unfold ResolveCall.InSpan
  rw [hrows, h.out, List.length_singleton]
  constructor
  · intro hv
    exact Nat.le_antisymm (Nat.le_of_lt_succ hv.2) hv.1
  · rintro rfl
    exact ⟨le_rfl, Nat.lt_succ_self _⟩

theorem congr (h : Serves t call i c inner) (hrows : inner'.rows = inner.rows)
    (hout : inner'.out = inner.out) : Serves t call i c inner' := by
  obtain ⟨row, hrow, hlt, hroute, hinner⟩ := h.row
  exact ⟨⟨row, hrow, hlt, hroute, hrows.trans hinner⟩, hout.trans h.out⟩

end Serves

/-! ## One machine's part of a step -/

namespace World

variable {cfg : TableConfig} {w w' : World cfg} {move : Option (Action cfg)} {thread : ThreadId}

theorem turn_threads (h : w.SpanInv) (hturn : turn World.step w move = some w')
    (hcaller : ∀ a ∈ move, a.caller ≠ some thread) : w'.threads thread = w.threads thread := by
  cases move with
  | none => rw [Option.some.inj hturn]
  | some a => exact ((h.step hturn).2 thread (hcaller a rfl)).pc

theorem turn_leases (h : w.SpanInv) (hturn : turn World.step w move = some w') {v : LeaseVar}
    (htouch : ∀ a ∈ move, ¬ a.Touches w v) : w'.leases v = w.leases v := by
  cases move with
  | none => rw [Option.some.inj hturn]
  | some a => exact step_leases h (htouch a rfl) hturn

end World

namespace ClassedWorld

variable {w w' : ClassedWorld t} {thread : ThreadId} {call : ClassedCall}
  {pc pc' : ClassedResolvePc t} {choice : Choice} {action : ClassedAction t} {moves : ClassMoves t}
  {clients : ClassedClients t}

/-! ## Steps -/

/-- A step asks the class tables for their moves, and each takes its own. -/
theorem act_of_step (h : w.step action = some w') :
    ∃ moves, w.act action = some (moves, w'.toClassedClients) ∧
      ∀ c, turn World.step (w.tables c) (moves c) = some (w'.tables c) := by
  unfold step at h
  split_ifs at h
  obtain ⟨⟨moves, clients⟩, hact, hmap⟩ := Option.bind_eq_some_iff.mp h
  obtain ⟨tables, hturns, rfl⟩ := Option.map_eq_some_iff.mp hmap
  exact ⟨moves, hact, turns_eq_some_iff.mp hturns⟩

/-- Every action the step asks of a class table meets the condition. -/
def EachMove (P : ∀ c, World (t.classConfig c) → Action (t.classConfig c) → Prop)
    (w : ClassedWorld t) (action : ClassedAction t) : Prop :=
  ∀ plan ∈ w.act action, ∀ c, ∀ a ∈ plan.1 c, P c (w.tables c) a

instance (P : ∀ c, World (t.classConfig c) → Action (t.classConfig c) → Prop)
    [∀ c w a, Decidable (P c w a)] (w : ClassedWorld t) (action : ClassedAction t) :
    Decidable (w.EachMove P action) :=
  inferInstanceAs (Decidable (∀ plan ∈ w.act action, ∀ c, ∀ a ∈ plan.1 c, P c (w.tables c) a))

/-- Each class's table runs as a table of its own. -/
theorem reaches_table {P : ∀ c, World (t.classConfig c) → Action (t.classConfig c) → Prop}
    {h : ∀ c, (t.classConfig c).Accepted} (hw : Reaches step (EachMove P) (start t h) w)
    (c : t.ClassId) :
    Reaches World.step (P c) (World.start (t.classConfig c) (h c)) (w.tables c) :=
  reaches_component (fun _ => World.step) ClassedWorld.tables P hw c fun _ _ _ hallowed hstep => by
    obtain ⟨moves, hact, hturn⟩ := act_of_step hstep
    exact ⟨moves c, hturn c, hallowed _ hact c⟩

theorem reachable_table {h : ∀ c, (t.classConfig c).Accepted}
    (hw : Reachable step (start t h) w) (c : t.ClassId) :
    Reachable World.step (World.start (t.classConfig c) (h c)) (w.tables c) :=
  reaches_table (P := fun _ _ _ => True) (hw.mono fun _ _ _ _ _ _ _ _ => trivial) c

/-! ## Calls and their spans -/

/-- Running calls have spans of their own, and the class tables run no calls but theirs. -/
structure CallsInv (w : ClassedWorld t) : Prop where
  inUse : ∀ thread call pc, w.threads thread = .resolving call pc →
    ∀ v, call.InSpan v → w.inUse v = true
  apart : ∀ thread thread' call call' pc pc', w.threads thread = .resolving call pc →
    w.threads thread' = .resolving call' pc' → ∀ v, call.InSpan v → call'.InSpan v →
    thread = thread'
  within : ∀ thread call pc, w.threads thread = .resolving call pc → pc.Within call.rows.length
  serving : ∀ c thread inner p, (w.tables c).threads thread = .resolving inner p →
    ∃ call i, w.threads thread = .resolving call (.inside i c) ∧ Serves t call i c inner
  inside : ∀ thread call i c, w.threads thread = .resolving call (.inside i c) →
    ∃ inner p, (w.tables c).threads thread = .resolving inner p

namespace CallsInv

theorem start (h : ∀ c, (t.classConfig c).Accepted) : (ClassedWorld.start t h).CallsInv where
  inUse := fun thread call pc hpc => by cases hpc
  apart := fun thread thread' call call' pc pc' hpc => by cases hpc
  within := fun thread call pc hpc => by cases hpc
  serving := fun c thread inner p hpc => by cases hpc
  inside := fun thread call i c hpc => by cases hpc

/-- A thread in no call of its own is in no class table's call. -/
theorem not_resolving (h : w.CallsInv) (hpc : ∀ call pc, w.threads thread ≠ .resolving call pc)
    (c : t.ClassId) (inner : ResolveCall) (p : ResolvePc (t.classConfig c)) :
    (w.tables c).threads thread ≠ .resolving inner p := fun hinner => by
  obtain ⟨call, i, hcall, -⟩ := h.serving c thread inner p hinner
  exact hpc call _ hcall

/-- A thread that is not inside a class's call is in no call of that class. -/
theorem not_inside (h : w.CallsInv) (hpc : w.threads thread = .resolving call pc) {c : t.ClassId}
    (hne : ∀ i, pc ≠ .inside i c) (inner : ResolveCall) (p : ResolvePc (t.classConfig c)) :
    (w.tables c).threads thread ≠ .resolving inner p := fun hinner => by
  obtain ⟨call', i, hcall, -⟩ := h.serving c thread inner p hinner
  rw [hpc] at hcall
  cases hcall
  exact hne i rfl

/-- The class table's call of a thread that is inside it. -/
theorem served (h : w.CallsInv) {i : ℕ} {c : t.ClassId}
    (hpc : w.threads thread = .resolving call (.inside i c)) :
    ∃ inner p, (w.tables c).threads thread = .resolving inner p ∧ Serves t call i c inner := by
  obtain ⟨inner, p, hinner⟩ := h.inside thread call i c hpc
  obtain ⟨call', i', hcall, hserves⟩ := h.serving c thread inner p hinner
  rw [hpc] at hcall
  cases hcall
  exact ⟨inner, p, hinner, hserves⟩

/-- Nothing moves in any call. -/
theorem quiet (h : w.CallsInv) (hspans : ∀ c, (w.tables c).SpanInv)
    (hturn : ∀ c, turn World.step (w.tables c) (moves c) = some (w'.tables c))
    (hmoves : ∀ c, ∀ a ∈ moves c, ∀ k, a.caller = some k →
      (∀ call pc, w.threads k ≠ .resolving call pc) ∧
        ∀ rows out size, a ≠ .resolveInto k rows out size)
    (hcalls : ∀ k call pc, w'.threads k = .resolving call pc ↔ w.threads k = .resolving call pc)
    (hinUse : w'.inUse = w.inUse) : w'.CallsInv where
  inUse := fun k call pc hpc v hv => by
    rw [hinUse]
    exact h.inUse k call pc ((hcalls k call pc).mp hpc) v hv
  apart := fun k k' call call' pc pc' hpc hpc' =>
    h.apart k k' call call' pc pc' ((hcalls k call pc).mp hpc) ((hcalls k' call' pc').mp hpc')
  within := fun k call pc hpc => h.within k call pc ((hcalls k call pc).mp hpc)
  serving := fun c k inner p hinner => by
    have hbefore : (w.tables c).threads k = .resolving inner p := by
      by_cases hcaller : ∃ a ∈ moves c, a.caller = some k
      · obtain ⟨a, ha, hk⟩ := hcaller
        obtain ⟨hout, hbegin⟩ := hmoves c a ha k hk
        have hstep := hturn c
        rw [ha] at hstep
        rcases World.resolving_of_step hk hstep hinner with ⟨call₀, pc₀, choice, -, hold⟩ | hsize
        · exact absurd hold (h.not_resolving hout c call₀ pc₀)
        · obtain ⟨size, hsize⟩ := hsize
          exact absurd hsize (hbegin _ _ size)
      · have hsame := World.turn_threads (hspans c) (hturn c) fun a ha hk => hcaller ⟨a, ha, hk⟩
        rwa [hsame] at hinner
    obtain ⟨call, i, hcall, hserves⟩ := h.serving c k inner p hbefore
    exact ⟨call, i, (hcalls k call _).mpr hcall, hserves⟩
  inside := fun k call i c hpc => by
    have hbefore := (hcalls k call _).mp hpc
    obtain ⟨inner, p, hinner⟩ := h.inside k call i c hbefore
    refine ⟨inner, p, (World.turn_threads (hspans c) (hturn c) fun a ha hk => ?_).trans hinner⟩
    exact (hmoves c a ha k hk).1 call _ hbefore

/-- One call moves. -/
theorem moved (h : w.CallsInv) (hpc : w.threads thread = .resolving call pc)
    (hthreads : w'.threads = Function.update w.threads thread (.resolving call pc'))
    (hinUse : w'.inUse = w.inUse) (hwithin : pc'.Within call.rows.length)
    (hothers : ∀ c k, k ≠ thread → (w'.tables c).threads k = (w.tables c).threads k)
    (hserving : ∀ c inner p, (w'.tables c).threads thread = .resolving inner p →
      ∃ i, pc' = .inside i c ∧ Serves t call i c inner)
    (hinside : ∀ i c, pc' = .inside i c →
      ∃ inner p, (w'.tables c).threads thread = .resolving inner p) : w'.CallsInv := by
  -- Every call of the new state was there, with the same rows and the same span.
  have hcases : ∀ k c p, w'.threads k = .resolving c p →
      (k = thread ∧ c = call ∧ p = pc') ∨ (k ≠ thread ∧ w.threads k = .resolving c p) := by
    intro k c p hk
    rw [hthreads] at hk
    by_cases hkt : k = thread
    · rw [hkt, Function.update_self] at hk
      cases hk
      exact Or.inl ⟨hkt, rfl, rfl⟩
    · rw [Function.update_of_ne hkt] at hk
      exact Or.inr ⟨hkt, hk⟩
  have hold : ∀ k c p, w'.threads k = .resolving c p → ∃ p₀, w.threads k = .resolving c p₀ := by
    intro k c p hk
    rcases hcases k c p hk with ⟨rfl, rfl, -⟩ | ⟨-, hk⟩
    · exact ⟨pc, hpc⟩
    · exact ⟨p, hk⟩
  refine ⟨fun k c p hk v hv => ?_, fun k k' c c' p p' hk hk' v hv hv' => ?_, fun k c p hk => ?_,
    fun c k inner p hinner => ?_, fun k c i d hk => ?_⟩
  · obtain ⟨p₀, hk₀⟩ := hold k c p hk
    rw [hinUse]
    exact h.inUse k c p₀ hk₀ v hv
  · obtain ⟨p₀, hk₀⟩ := hold k c p hk
    obtain ⟨p₁, hk₁⟩ := hold k' c' p' hk'
    exact h.apart k k' c c' p₀ p₁ hk₀ hk₁ v hv hv'
  · rcases hcases k c p hk with ⟨-, rfl, rfl⟩ | ⟨-, hk⟩
    · exact hwithin
    · exact h.within k c p hk
  · by_cases hkt : k = thread
    · subst hkt
      obtain ⟨i, rfl, hserves⟩ := hserving c inner p hinner
      exact ⟨call, i, by rw [hthreads, Function.update_self], hserves⟩
    · rw [hothers c k hkt] at hinner
      obtain ⟨call', i, hcall, hserves⟩ := h.serving c k inner p hinner
      exact ⟨call', i, by rw [hthreads, Function.update_of_ne hkt, hcall], hserves⟩
  · rcases hcases k c _ hk with ⟨rfl, -, hpc'⟩ | ⟨hkt, hk⟩
    · exact hinside i d hpc'.symm
    · rw [hothers d k hkt]
      exact h.inside k c i d hk

/-- A call begins on variables no call uses. -/
theorem begins (h : w.CallsInv) {rows : List UInt64} {out : LeaseVar}
    (hfree : ¬ ∃ i < rows.length, w.inUse (out + i)) (hidle : w.threads thread = .idle)
    (hclients : w'.toClassedClients =
      (w.setInUse out rows.length true).setThread thread (.resolving ⟨rows, out⟩ (.row 0)))
    (htables : ∀ c, (w'.tables c).threads = (w.tables c).threads) : w'.CallsInv := by
  have hthreads : w'.threads =
      Function.update w.threads thread (.resolving ⟨rows, out⟩ (.row 0)) :=
    congrArg ClassedClients.threads hclients
  have hinUse : ∀ v, w'.inUse v = if out ≤ v ∧ v < out + rows.length then true else w.inUse v :=
    fun v => congrFun (congrArg ClassedClients.inUse hclients) v
  have hcases : ∀ k c p, w'.threads k = .resolving c p →
      (k = thread ∧ c = ⟨rows, out⟩ ∧ p = .row 0) ∨ (k ≠ thread ∧ w.threads k = .resolving c p) := by
    intro k c p hk
    rw [hthreads] at hk
    by_cases hkt : k = thread
    · rw [hkt, Function.update_self] at hk
      cases hk
      exact Or.inl ⟨hkt, rfl, rfl⟩
    · rw [Function.update_of_ne hkt] at hk
      exact Or.inr ⟨hkt, hk⟩
  have hclash : ∀ k c p v, w.threads k = .resolving c p → c.InSpan v →
      ¬ ClassedCall.InSpan ⟨rows, out⟩ v := by
    intro k c p v hold hv hnew
    refine hfree ⟨v - out, Nat.sub_lt_left_of_lt_add hnew.1 hnew.2, ?_⟩
    rw [Nat.add_sub_cancel' hnew.1]
    exact h.inUse k c p hold v hv
  refine ⟨fun k c p hk v hv => ?_, fun k k' c c' p p' hk hk' v hv hv' => ?_, fun k c p hk => ?_,
    fun c k inner p hinner => ?_, fun k c i d hk => ?_⟩
  · rw [hinUse]
    rcases hcases k c p hk with ⟨-, rfl, -⟩ | ⟨-, hold⟩
    · exact if_pos hv
    · rw [h.inUse k c p hold v hv, ite_self]
  · rcases hcases k c p hk with ⟨rfl, rfl, -⟩ | ⟨-, hold⟩ <;>
      rcases hcases k' c' p' hk' with ⟨rfl, rfl, -⟩ | ⟨-, hold'⟩
    · rfl
    · exact absurd hv (hclash k' c' p' v hold' hv')
    · exact absurd hv' (hclash k c p v hold hv)
    · exact h.apart k k' c c' p p' hold hold' v hv hv'
  · rcases hcases k c p hk with ⟨-, rfl, rfl⟩ | ⟨-, hold⟩
    · trivial
    · exact h.within k c p hold
  · rw [htables] at hinner
    obtain ⟨call, i, hcall, hserves⟩ := h.serving c k inner p hinner
    have hkt : k ≠ thread := by
      rintro rfl
      rw [hidle] at hcall
      cases hcall
    exact ⟨call, i, by rw [hthreads, Function.update_of_ne hkt, hcall], hserves⟩
  · rcases hcases k c _ hk with ⟨-, -, hpc⟩ | ⟨-, hold⟩
    · cases hpc
    · rw [htables]
      exact h.inside k c i d hold

/-- A finished call gives its span up. -/
theorem leaves (h : w.CallsInv) {result : Except Status ℕ}
    (hpc : w.threads thread = .resolving call (.returned result))
    (hclients : w'.toClassedClients =
      (w.setInUse call.out call.rows.length false).setThread thread .idle)
    (htables : ∀ c, (w'.tables c).threads = (w.tables c).threads) : w'.CallsInv := by
  have hthreads : w'.threads = Function.update w.threads thread .idle :=
    congrArg ClassedClients.threads hclients
  have hinUse : ∀ v, w'.inUse v =
      if call.out ≤ v ∧ v < call.out + call.rows.length then false else w.inUse v :=
    fun v => congrFun (congrArg ClassedClients.inUse hclients) v
  have hcalls : ∀ k c p, w'.threads k = .resolving c p →
      k ≠ thread ∧ w.threads k = .resolving c p := by
    intro k c p hk
    rw [hthreads] at hk
    by_cases hkt : k = thread
    · rw [hkt, Function.update_self] at hk
      cases hk
    · rw [Function.update_of_ne hkt] at hk
      exact ⟨hkt, hk⟩
  refine ⟨fun k c p hk v hv => ?_, fun k k' c c' p p' hk hk' =>
    h.apart k k' c c' p p' (hcalls k c p hk).2 (hcalls k' c' p' hk').2,
    fun k c p hk => h.within k c p (hcalls k c p hk).2, fun c k inner p hinner => ?_,
    fun k c i d hk => ?_⟩
  · obtain ⟨hkt, hold⟩ := hcalls k c p hk
    have hout : ¬ (call.out ≤ v ∧ v < call.out + call.rows.length) := fun hin =>
      hkt (h.apart k thread c call p _ hold hpc v hv hin)
    rw [hinUse, if_neg hout]
    exact h.inUse k c p hold v hv
  · rw [htables] at hinner
    obtain ⟨call', i, hcall, hserves⟩ := h.serving c k inner p hinner
    have hkt : k ≠ thread := by
      rintro rfl
      rw [hpc] at hcall
      cases hcall
    exact ⟨call', i, by rw [hthreads, Function.update_of_ne hkt, hcall], hserves⟩
  · rw [htables]
    exact h.inside k c i d (hcalls k c _ hk).2

end CallsInv

/-! ## What a step of a call can be -/

/-- The steps of a call inside its class tables. -/
inductive ResolveMove (w : ClassedWorld t) (thread : ThreadId) (call : ClassedCall) :
    ClassedResolvePc t → ClassMoves t → ClassedResolvePc t → Prop
  | ends {i : ℕ} (hrow : call.rows[i]? = none) :
      ResolveMove w thread call (.row i) still (.returned (.ok call.rows.length))
  | strays {i : ℕ} {row : UInt64} (hrow : call.rows[i]? = some row)
      (hout : t.config.rowCount ≤ row) :
      ResolveMove w thread call (.row i) still (.unwind 0 i .outOfRange)
  | enters {i : ℕ} {row : UInt64} {c : t.ClassId} (hrow : call.rows[i]? = some row)
      (hlt : row < t.config.rowCount) (hroute : t.routeOf row = some c) :
      ResolveMove w thread call (.row i)
        (only c (.resolveInto thread [t.localRow row] (call.out + i) 1)) (.inside i c)
  | releases {i : ℕ} {c : t.ClassId} {inner : ResolveCall} (choice : Choice)
      (hinner : (w.tables c).threads thread = .resolving inner (.releasing 0)) :
      ResolveMove w thread call (.inside i c)
        (Function.update (resetAll (call.out + i)) c (some (.advance thread choice))) (.inside i c)
  | goesOn {i : ℕ} {c : t.ClassId} {inner : ResolveCall} {p : ResolvePc (t.classConfig c)}
      (choice : Choice) (hinner : (w.tables c).threads thread = .resolving inner p)
      (hfirst : p ≠ .releasing 0) :
      ResolveMove w thread call (.inside i c) (only c (.advance thread choice)) (.inside i c)
  | succeeds {i n : ℕ} {c : t.ClassId} {inner : ResolveCall}
      (hinner : (w.tables c).threads thread = .resolving inner (.returned (.ok n))) :
      ResolveMove w thread call (.inside i c) (only c (.leave thread)) (.row (i + 1))
  | fails {i : ℕ} {c : t.ClassId} {inner : ResolveCall} {failure : Status}
      (hinner : (w.tables c).threads thread = .resolving inner (.returned (.error failure))) :
      ResolveMove w thread call (.inside i c) (only c (.leave thread)) (.unwind 0 i failure)
  | givesBack {j i : ℕ} {failure : Status} (hj : j < i) :
      ResolveMove w thread call (.unwind j i failure) (resetAll (call.out + j))
        (.unwind (j + 1) i failure)
  | gaveBack {j i : ℕ} {failure : Status} (hj : ¬ j < i) :
      ResolveMove w thread call (.unwind j i failure) still (.returned (.error failure))

/-- A class table's call is made with one row and one entry, so it is never refused. -/
theorem CallsInv.resolveMove (h : w.CallsInv) (hpc : w.threads thread = .resolving call pc)
    (hresolve : w.resolveStep thread call choice pc = some (moves, pc')) :
    w.ResolveMove thread call pc moves pc' := by
  cases pc with
  | row i =>
      unfold resolveStep at hresolve
      dsimp only at hresolve
      split at hresolve
      · rename_i hrow
        cases hresolve
        exact .ends hrow
      · rename_i row hrow
        split_ifs at hresolve with hout
        · cases hresolve
          exact .strays hrow hout
        · obtain ⟨c, hroute, hmove⟩ := Option.map_eq_some_iff.mp hresolve
          cases hmove
          exact .enters hrow (UInt64.not_le.mp hout) hroute
  | inside i c =>
      obtain ⟨inner, p, hinner, -⟩ := h.served hpc
      unfold resolveStep at hresolve
      dsimp only at hresolve
      rw [hinner] at hresolve
      split at hresolve
      · rename_i heq
        cases heq
        cases hresolve
        exact .succeeds hinner
      · rename_i heq
        cases heq
        cases hresolve
        exact .fails hinner
      · rename_i heq
        cases heq
      · rename_i heq
        cases heq
        cases hresolve
        exact .releases choice hinner
      · rename_i hfirst
        cases hresolve
        refine .goesOn choice hinner ?_
        rintro rfl
        exact hfirst inner rfl
  | unwind j i failure =>
      unfold resolveStep at hresolve
      dsimp only at hresolve
      split_ifs at hresolve with hj <;> cases hresolve
      · exact .givesBack hj
      · exact .gaveBack hj
  | returned result => cases hresolve

/-- The class tables move for the calling thread, or reset a variable. -/
theorem ResolveMove.caller (h : w.ResolveMove thread call pc moves pc') (c : t.ClassId) :
    ∀ a ∈ moves c, a.caller = none ∨ a.caller = some thread := by
  let calls : ∀ c, Action (t.classConfig c) → Prop := fun _ a =>
    a.caller = none ∨ a.caller = some thread
  have honly : ∀ (d : t.ClassId) (a : Action (t.classConfig d)), a.caller = some thread →
      ∀ b ∈ (only d a : ClassMoves t) c, calls c b := fun d a ha => forall_only (P := calls) (Or.inr ha) c
  cases h with
  | ends hrow => exact fun a ha => by cases ha
  | strays hrow hout => exact fun a ha => by cases ha
  | enters hrow hlt hroute => exact honly _ _ rfl
  | @releases i d inner choice hinner =>
      intro a ha
      by_cases hcd : c = d
      · subst hcd
        rw [Function.update_self] at ha
        cases ha
        exact Or.inr rfl
      · rw [Function.update_of_ne hcd] at ha
        cases ha
        exact Or.inl rfl
  | goesOn choice hinner hfirst => exact honly _ _ rfl
  | succeeds hinner => exact honly _ _ rfl
  | fails hinner => exact honly _ _ rfl
  | givesBack hj =>
      intro a ha
      cases ha
      exact Or.inl rfl
  | gaveBack hj => exact fun a ha => by cases ha

namespace CallsInv


/-- A class table's call with one row begins. -/
theorem begun {c : t.ClassId} (haccepted : (t.classConfig c).Accepted)
    {u u' : World (t.classConfig c)} {row : UInt64} {out : LeaseVar}
    (hstep : u.step (.resolveInto thread [row] out 1) = some u') :
    u'.threads thread = .resolving (.begin [row] out u.table.currentBinding) (.releasing 0) := by
  have hbatch : Table.batchStatus (t.classConfig c) [row] = .ok := by
    have hmax := haccepted.checked.maxBatchRows_ne
    unfold Table.batchStatus
    rw [if_neg (List.cons_ne_nil _ _), if_neg]
    rw [List.length_singleton, Nat.not_lt]
    exact Nat.pos_of_ne_zero fun hzero => hmax (UInt32.toNat_inj.mp hzero)
  unfold World.step at hstep
  split_ifs at hstep
  have hstep : u.callResolve thread [row] out 1 = some u' := hstep
  unfold World.callResolve at hstep
  split at hstep
  · rw [if_neg (not_not.mpr hbatch),
      if_neg (show ¬ 1 < [row].length from Nat.lt_irrefl 1)] at hstep
    split_ifs at hstep
    cases hstep
    exact Function.update_self ..
  · cases hstep

/-- The call goes back to no class table when its class table's call is left. -/
theorem left {c : t.ClassId} {u u' : World (t.classConfig c)}
    (hstep : u.step (.leave thread) = some u') : u'.threads thread = .idle := by
  unfold World.step at hstep
  split_ifs at hstep
  have hstep : u.leave thread = some u' := hstep
  unfold World.leave at hstep
  split at hstep <;> cases hstep <;> exact Function.update_self ..

/-- A step of a call keeps calls to their spans and class tables to their calls. -/
theorem resolves (h : w.CallsInv) (haccepted : ∀ c, (t.classConfig c).Accepted)
    (hspans : ∀ c, (w.tables c).SpanInv) (hpc : w.threads thread = .resolving call pc)
    (hmove : w.ResolveMove thread call pc moves pc')
    (hclients : w'.toClassedClients = w.setThread thread (.resolving call pc'))
    (hturn : ∀ c, turn World.step (w.tables c) (moves c) = some (w'.tables c)) : w'.CallsInv := by
  have hthreads : w'.threads = Function.update w.threads thread (.resolving call pc') :=
    congrArg ClassedClients.threads hclients
  have hothers : ∀ c k, k ≠ thread → (w'.tables c).threads k = (w.tables c).threads k := by
    refine fun c k hk => World.turn_threads (hspans c) (hturn c) fun a ha hcaller => ?_
    rcases hmove.caller c a ha with hnone | hthread
    · rw [hnone] at hcaller
      cases hcaller
    · exact hk (Option.some.inj (hcaller.symm.trans hthread))
  have hstill : ∀ c, (∀ a ∈ moves c, a.caller = none) →
      (w'.tables c).threads thread = (w.tables c).threads thread := fun c hnone =>
    World.turn_threads (hspans c) (hturn c) fun a ha hcaller => by
      rw [hnone a ha] at hcaller
      cases hcaller
  -- A class the call is not inside of is in no call of the thread after the step either.
  have haway : ∀ c inner p, (w'.tables c).threads thread = .resolving inner p →
      (∀ a ∈ moves c, a.caller = none) → ∃ i, pc = .inside i c := fun c inner p hinner hnone => by
    rw [hstill c hnone] at hinner
    by_contra hne
    exact h.not_inside hpc (fun i hi => hne ⟨i, hi⟩) inner p hinner
  have hinUse : w'.inUse = w.inUse :=
    (congrArg ClassedClients.inUse hclients).trans rfl
  refine h.moved hpc hthreads hinUse ?_ hothers ?_ ?_
  · cases hmove with
    | strays hrow hout => exact (List.getElem?_eq_some_iff.mp hrow).1
    | fails hinner =>
        obtain ⟨inner, p, -, hserves⟩ := h.served hpc
        exact hserves.lt
    | @givesBack j i failure hj => exact h.within thread call (.unwind j i failure) hpc
    | _ => trivial
  · intro c inner p hinner
    cases hmove with
    | ends hrow =>
        obtain ⟨i, hi⟩ := haway c inner p hinner fun a ha => by cases ha
        cases hi
    | strays hrow hout =>
        obtain ⟨i, hi⟩ := haway c inner p hinner fun a ha => by cases ha
        cases hi
    | @enters i row d hrow hlt hroute =>
        by_cases hcd : c = d
        · subst hcd
          have hstep := hturn c
          rw [only_self] at hstep
          rw [begun (haccepted c) hstep] at hinner
          cases hinner
          exact ⟨i, rfl, ⟨row, hrow, hlt, hroute, rfl⟩, rfl⟩
        · obtain ⟨i, hi⟩ := haway c inner p hinner fun a ha => by
            rw [only_of_ne hcd] at ha
            cases ha
          cases hi
    | @releases i d inner₀ choice hinner₀ =>
        by_cases hcd : c = d
        · subst hcd
          have hstep := hturn c
          rw [Function.update_self] at hstep
          obtain ⟨call', q, hcall', hrows, hout⟩ := World.advance_call (hspans c) hinner₀ hstep
          obtain ⟨inner₁, p₁, hinner₁, hserves⟩ := h.served hpc
          rw [hinner₀] at hinner₁
          cases hinner₁
          rw [hcall'] at hinner
          cases hinner
          exact ⟨i, rfl, hserves.congr hrows hout⟩
        · obtain ⟨i, hi⟩ := haway c inner p hinner fun a ha => by
            rw [Function.update_of_ne hcd] at ha
            cases ha
            rfl
          cases hi
          exact absurd rfl hcd
    | @goesOn i d inner₀ p₀ choice hinner₀ hfirst =>
        by_cases hcd : c = d
        · subst hcd
          have hstep := hturn c
          rw [only_self] at hstep
          obtain ⟨call', q, hcall', hrows, hout⟩ := World.advance_call (hspans c) hinner₀ hstep
          obtain ⟨inner₁, p₁, hinner₁, hserves⟩ := h.served hpc
          rw [hinner₀] at hinner₁
          cases hinner₁
          rw [hcall'] at hinner
          cases hinner
          exact ⟨i, rfl, hserves.congr hrows hout⟩
        · obtain ⟨i, hi⟩ := haway c inner p hinner fun a ha => by
            rw [only_of_ne hcd] at ha
            cases ha
          cases hi
          exact absurd rfl hcd
    | @succeeds i n d inner₀ hinner₀ =>
        by_cases hcd : c = d
        · subst hcd
          have hstep := hturn c
          rw [only_self] at hstep
          rw [left hstep] at hinner
          cases hinner
        · obtain ⟨i, hi⟩ := haway c inner p hinner fun a ha => by
            rw [only_of_ne hcd] at ha
            cases ha
          cases hi
          exact absurd rfl hcd
    | @fails i d inner₀ failure hinner₀ =>
        by_cases hcd : c = d
        · subst hcd
          have hstep := hturn c
          rw [only_self] at hstep
          rw [left hstep] at hinner
          cases hinner
        · obtain ⟨i, hi⟩ := haway c inner p hinner fun a ha => by
            rw [only_of_ne hcd] at ha
            cases ha
          cases hi
          exact absurd rfl hcd
    | givesBack hj =>
        obtain ⟨i, hi⟩ := haway c inner p hinner fun a ha => by cases ha; rfl
        cases hi
    | gaveBack hj =>
        obtain ⟨i, hi⟩ := haway c inner p hinner fun a ha => by cases ha
        cases hi
  · intro i c hin
    cases hmove with
    | @enters i row d hrow hlt hroute =>
        cases hin
        have hstep := hturn c
        rw [only_self] at hstep
        exact ⟨_, _, begun (haccepted c) hstep⟩
    | @releases i d inner₀ choice hinner₀ =>
        cases hin
        have hstep := hturn c
        rw [Function.update_self] at hstep
        obtain ⟨call', q, hcall', -⟩ := World.advance_call (hspans c) hinner₀ hstep
        exact ⟨call', q, hcall'⟩
    | @goesOn i d inner₀ p₀ choice hinner₀ hfirst =>
        cases hin
        have hstep := hturn c
        rw [only_self] at hstep
        obtain ⟨call', q, hcall', -⟩ := World.advance_call (hspans c) hinner₀ hstep
        exact ⟨call', q, hcall'⟩
    | _ => cases hin

end CallsInv

/-! ## Every step -/

/-- A thread outside `resolve_into` stays outside. -/
theorem calls_update {next : ClassedPc t}
    (hthreads : w'.threads = Function.update w.threads thread next)
    (hbefore : ∀ call pc, w.threads thread ≠ .resolving call pc)
    (hafter : ∀ call pc, next ≠ .resolving call pc) (k : ThreadId) (call : ClassedCall)
    (pc : ClassedResolvePc t) :
    w'.threads k = .resolving call pc ↔ w.threads k = .resolving call pc := by
  rw [hthreads]
  by_cases hk : k = thread
  · rw [hk, Function.update_self]
    exact iff_of_false (hafter call pc) (hbefore call pc)
  · rw [Function.update_of_ne hk]

/-- What `prefetch` and `drain` ask of class tables is no call of `resolve_into`. -/
structure Plain (thread : ThreadId) (c : t.ClassId) (a : Action (t.classConfig c)) : Prop where
  caller : a.caller = none ∨ a.caller = some thread
  apart : ∀ v, ∀ w : World (t.classConfig c), (∀ call pc, w.threads thread ≠ .resolving call pc) →
    ¬ a.Touches w v
  begins : ∀ k rows out size, a ≠ .resolveInto k rows out size
  keeps : ¬ a.Invalidates

theorem prefetchStep_plain {rows : List UInt64} {pc pc' : ClassedPrefetchPc t}
    (h : w.prefetchStep thread rows choice pc = some (moves, pc')) :
    ∀ c, ∀ a ∈ moves c, Plain thread c a := by
  have hprefetch : ∀ (c : t.ClassId) scratch, Plain thread c (.prefetch scratch thread choice.answers) :=
    fun c scratch => ⟨Or.inl rfl, fun _ _ _ htouch => htouch, fun _ _ _ _ ha => (by cases ha), id⟩
  have hdrop : ∀ c : t.ClassId, Plain thread c (.dropTicket thread) := fun c =>
    ⟨Or.inl rfl, fun _ _ _ htouch => htouch, fun _ _ _ _ ha => (by cases ha), id⟩
  cases pc with
  | table c =>
      unfold prefetchStep at h
      dsimp only at h
      split_ifs at h with hc hout hempty
      · cases h
        exact fun c a ha => by cases ha
      · cases h
        exact fun c a ha => by cases ha
      · split at h <;> cases h <;> exact forall_only (hprefetch _ _)
      · cases h
        exact fun c a ha => by cases ha
  | dropping c =>
      cases h
      exact forall_only (hdrop c)
  | returned result => cases h

theorem drainStep_plain {deadline : Bool} {pc pc' : ClassedDrainPc t}
    (h : w.drainStep thread deadline choice pc = some (moves, pc')) :
    ∀ c, ∀ a ∈ moves c, Plain thread c a := by
  have hdrain : ∀ c : t.ClassId, Plain thread c (.drain thread deadline) := fun c =>
    ⟨Or.inr rfl, fun _ _ _ htouch => htouch, fun _ _ _ _ ha => (by cases ha), id⟩
  have hleave : ∀ c : t.ClassId, Plain thread c (.leave thread) := fun c =>
    ⟨Or.inr rfl, fun _ _ _ htouch => htouch, fun _ _ _ _ ha => (by cases ha), id⟩
  have hadvance : ∀ c : t.ClassId, Plain thread c (.advance thread choice) := fun c =>
    ⟨Or.inr rfl, fun _ _ hnot ⟨call, pc, hpc, _⟩ => hnot call pc hpc, fun _ _ _ _ ha => (by cases ha), id⟩
  cases pc with
  | table c =>
      unfold drainStep at h
      dsimp only at h
      split_ifs at h with hc <;> cases h
      · exact forall_only (hdrain _)
      · exact fun c a ha => by cases ha
  | inside c =>
      unfold drainStep at h
      dsimp only at h
      split at h <;> cases h
      · exact forall_only (hleave c)
      · exact forall_only (hleave c)
      · exact forall_only (hadvance c)
  | returned result => cases h

/-- What a step can be: a call begins, goes on or ends, or no call of `resolve_into` moves. -/
inductive Kind (w : ClassedWorld t) : ClassedAction t → ClassMoves t → ClassedClients t → Prop
  | begins {thread : ThreadId} {rows : List UInt64} {out size : ℕ}
      (hidle : w.threads thread = .idle) (hrows : rows ≠ []) (hsize : rows.length ≤ size)
      (hfree : ¬ ∃ i < rows.length, w.inUse (out + i)) :
      Kind w (.resolveInto thread rows out size) still
        ((w.setInUse out rows.length true).setThread thread (.resolving ⟨rows, out⟩ (.row 0)))
  | resolves {thread : ThreadId} {choice : Choice} {call : ClassedCall}
      {pc pc' : ClassedResolvePc t} {moves : ClassMoves t}
      (hpc : w.threads thread = .resolving call pc)
      (hresolve : w.resolveStep thread call choice pc = some (moves, pc')) :
      Kind w (.advance thread choice) moves (w.setThread thread (.resolving call pc'))
  | leaves {thread : ThreadId} {call : ClassedCall} {result : Except Status ℕ}
      (hpc : w.threads thread = .resolving call (.returned result)) :
      Kind w (.leave thread) still
        ((w.setInUse call.out call.rows.length false).setThread thread .idle)
  | plain {action : ClassedAction t} {moves : ClassMoves t} {clients : ClassedClients t}
      {thread : ThreadId} {next : ClassedPc t} (hcaller : action.caller = some thread)
      (hthreads : clients.threads = Function.update w.threads thread next)
      (hinUse : clients.inUse = w.inUse)
      (hbefore : ∀ call pc, w.threads thread ≠ .resolving call pc)
      (hafter : ∀ call pc, next ≠ .resolving call pc)
      (hplain : ∀ c, ∀ a ∈ moves c, Plain thread c a) : Kind w action moves clients
  | tryGet {row : UInt64} {lease : LeaseVar} {c : t.ClassId} (hfree : w.inUse lease = false)
      (hempty : ∀ c, (w.tables c).leases lease = none) (hlt : row < t.config.rowCount)
      (hroute : t.routeOf row = some c) :
      Kind w (.tryGet row lease) (only c (.tryGet (t.localRow row) lease)) w.toClassedClients
  | misses {row : UInt64} {lease : LeaseVar} (hout : t.config.rowCount ≤ row) :
      Kind w (.tryGet row lease) still w.toClassedClients
  | reset {lease : LeaseVar} (hfree : w.inUse lease = false) :
      Kind w (.reset lease) (resetAll lease) w.toClassedClients
  | move {source target : LeaseVar} (hsource : w.inUse source = false)
      (htarget : w.inUse target = false) :
      Kind w (.move source target) (fun _ => some (.move source target)) w.toClassedClients
  | work {c : t.ClassId} {choice : Choice} :
      Kind w (.work c choice) (only c (.work choice)) w.toClassedClients
  | deliver {c : t.ClassId} {id : RequestId} {status : MemStatus} :
      Kind w (.deliver c id status) (only c (.deliver id status)) w.toClassedClients

theorem kind_of_act (h : w.act action = some (moves, clients)) : w.Kind action moves clients := by
  cases action with
  | resolveInto thread rows out size =>
      have h : w.callResolve thread rows out size = some (moves, clients) := h
      unfold callResolve at h
      split at h
      · rename_i hidle
        have hbefore : ∀ call pc, w.threads thread ≠ .resolving call pc := fun call pc hpc => by
          rw [hidle] at hpc
          cases hpc
        split_ifs at h with hrows hsize hfree <;> cases h
        · exact .plain rfl rfl rfl hbefore (fun _ _ hpc => by cases hpc) fun c a ha => by cases ha
        · exact .plain rfl rfl rfl hbefore (fun _ _ hpc => by cases hpc) fun c a ha => by cases ha
        · exact .begins hidle hrows (Nat.not_lt.mp hsize) hfree
      · cases h
  | prefetch thread rows =>
      have h : w.callPrefetch thread rows = some (moves, clients) := h
      unfold callPrefetch at h
      split at h
      · rename_i hidle _
        have hbefore : ∀ call pc, w.threads thread ≠ .resolving call pc := fun call pc hpc => by
          rw [hidle] at hpc
          cases hpc
        split_ifs at h <;> cases h
        · exact .plain rfl rfl rfl hbefore (fun _ _ hpc => by cases hpc) fun c a ha => by cases ha
        · exact .plain rfl rfl rfl hbefore (fun _ _ hpc => by cases hpc) fun c a ha => by cases ha
      · cases h
  | drain thread deadline =>
      have h : w.callDrain thread deadline = some (moves, clients) := h
      unfold callDrain at h
      split at h
      · rename_i hidle
        cases h
        refine .plain rfl rfl rfl (fun call pc hpc => ?_) (fun _ _ hpc => by cases hpc)
          fun c a ha => by cases ha
        rw [hidle] at hpc
        cases hpc
      · cases h
  | advance thread choice =>
      have h : w.advance thread choice = some (moves, clients) := h
      unfold advance at h
      split at h
      · rename_i call pc hpc
        obtain ⟨⟨moves', pc'⟩, hresolve, heq⟩ := Option.map_eq_some_iff.mp h
        cases heq
        exact .resolves hpc hresolve
      · rename_i rows pc hpc
        obtain ⟨⟨moves', pc'⟩, hprefetch, heq⟩ := Option.map_eq_some_iff.mp h
        cases heq
        refine .plain rfl rfl rfl (fun call p hk => ?_) (fun _ _ hk => by cases hk)
          (prefetchStep_plain hprefetch)
        rw [hpc] at hk
        cases hk
      · rename_i deadline pc hpc
        obtain ⟨⟨moves', pc'⟩, hdrain, heq⟩ := Option.map_eq_some_iff.mp h
        cases heq
        refine .plain rfl rfl rfl (fun call p hk => ?_) (fun _ _ hk => by cases hk)
          (drainStep_plain hdrain)
        rw [hpc] at hk
        cases hk
      · cases h
  | leave thread =>
      have h : w.leave thread = some (moves, clients) := h
      unfold leave at h
      split at h
      · rename_i hpc
        cases h
        refine .plain rfl rfl rfl (fun call p hk => ?_) (fun _ _ hk => by cases hk)
          fun c a ha => by cases ha
        rw [hpc] at hk
        cases hk
      · rename_i hpc
        cases h
        exact .leaves hpc
      · rename_i hpc
        cases h
        refine .plain rfl rfl rfl (fun call p hk => ?_) (fun _ _ hk => by cases hk)
          fun c a ha => by cases ha
        rw [hpc] at hk
        cases hk
      · rename_i hpc
        cases h
        refine .plain rfl rfl rfl (fun call p hk => ?_) (fun _ _ hk => by cases hk)
          fun c a ha => by cases ha
        rw [hpc] at hk
        cases hk
      · cases h
  | tryGet row lease =>
      have h : w.tryGet row lease = some (moves, clients) := h
      unfold tryGet at h
      split_ifs at h with hbusy hout
      · cases h
        exact .misses hout
      · obtain ⟨c, hroute, heq⟩ := Option.map_eq_some_iff.mp h
        cases heq
        rw [not_or, not_exists] at hbusy
        refine .tryGet (Bool.not_eq_true _ ▸ hbusy.1) (fun c => ?_) (UInt64.not_le.mp hout) hroute
        exact Option.not_isSome_iff_eq_none.mp (hbusy.2 c)
  | reset lease =>
      have h : (if w.inUse lease then none else some (resetAll lease, w.toClassedClients)) =
        some (moves, clients) := h
      split_ifs at h with hbusy
      cases h
      exact .reset (Bool.not_eq_true _ ▸ hbusy)
  | move source target =>
      have h : (if w.inUse source ∨ w.inUse target then none
        else some ((fun _ => some (.move source target)), w.toClassedClients)) =
          some (moves, clients) := h
      split_ifs at h with hbusy
      cases h
      obtain ⟨hsource, htarget⟩ := not_or.mp hbusy
      exact .move (Bool.not_eq_true _ ▸ hsource) (Bool.not_eq_true _ ▸ htarget)
  | work c choice =>
      cases h
      exact .work
  | deliver c id status =>
      cases h
      exact .deliver

/-- The class tables move for the thread of the step, or for no thread. -/
theorem Kind.moves_caller (h : w.CallsInv) (hkind : w.Kind action moves clients) (c : t.ClassId) :
    ∀ a ∈ moves c, a.caller = none ∨ a.caller = action.caller := by
  let calls : ∀ c, Action (t.classConfig c) → Prop := fun _ a =>
    a.caller = none ∨ a.caller = action.caller
  cases hkind with
  | begins hidle hrows hsize hfree => exact fun a ha => by cases ha
  | resolves hpc hresolve => exact (h.resolveMove hpc hresolve).caller c
  | leaves hpc => exact fun a ha => by cases ha
  | plain hcaller hnext hsame hbefore hafter hplain =>
      intro a ha
      rw [hcaller]
      exact (hplain c a ha).caller
  | tryGet hfree hempty hlt hroute => exact forall_only (P := calls) (Or.inl rfl) c
  | misses hout => exact fun a ha => by cases ha
  | reset hfree => exact fun a ha => by cases ha; exact Or.inl rfl
  | move hsource htarget => exact fun a ha => by cases ha; exact Or.inl rfl
  | work => exact forall_only (P := calls) (Or.inl rfl) c
  | deliver => exact forall_only (P := calls) (Or.inl rfl) c

/-- The class tables never change their generation. -/
theorem Kind.moves_keep (h : w.CallsInv) (hkind : w.Kind action moves clients) (c : t.ClassId) :
    ∀ a ∈ moves c, ¬ a.Invalidates := by
  let keeps : ∀ c, Action (t.classConfig c) → Prop := fun _ a => ¬ a.Invalidates
  cases hkind with
  | begins hidle hrows hsize hfree => exact fun a ha => by cases ha
  | resolves hpc hresolve =>
      cases h.resolveMove hpc hresolve with
      | ends hrow => exact fun a ha => by cases ha
      | strays hrow hout => exact fun a ha => by cases ha
      | enters hrow hlt hroute => exact forall_only (P := keeps) (by exact id) c
      | @releases i d inner choice hinner =>
          intro a ha
          by_cases hcd : c = d
          · subst hcd
            rw [Function.update_self] at ha
            cases ha
            exact id
          · rw [Function.update_of_ne hcd] at ha
            cases ha
            exact id
      | goesOn choice hinner hfirst => exact forall_only (P := keeps) (by exact id) c
      | succeeds hinner => exact forall_only (P := keeps) (by exact id) c
      | fails hinner => exact forall_only (P := keeps) (by exact id) c
      | givesBack hj => exact fun a ha => by cases ha; exact id
      | gaveBack hj => exact fun a ha => by cases ha
  | leaves hpc => exact fun a ha => by cases ha
  | plain hcaller hnext hsame hbefore hafter hplain => exact fun a ha => (hplain c a ha).keeps
  | tryGet hfree hempty hlt hroute => exact forall_only (P := keeps) (by exact id) c
  | misses hout => exact fun a ha => by cases ha
  | reset hfree => exact fun a ha => by cases ha; exact id
  | move hsource htarget => exact fun a ha => by cases ha; exact id
  | work => exact forall_only (P := keeps) (by exact id) c
  | deliver => exact forall_only (P := keeps) (by exact id) c

/-- A step moves no thread but its own. -/
theorem Kind.threads (hkind : w.Kind action moves clients) {k : ThreadId}
    (hk : action.caller ≠ some k) : clients.threads k = w.threads k := by
  have hne : ∀ {thread : ThreadId}, action.caller = some thread → k ≠ thread := by
    rintro thread hcaller rfl
    exact hk hcaller
  cases hkind with
  | begins hidle hrows hsize hfree => exact Function.update_of_ne (hne rfl) ..
  | resolves hpc hresolve => exact Function.update_of_ne (hne rfl) ..
  | leaves hpc => exact Function.update_of_ne (hne rfl) ..
  | plain hcaller hnext hsame hbefore hafter hplain =>
      rw [hnext]
      exact Function.update_of_ne (hne hcaller) ..
  | _ => rfl

/-- A step moves no thread but its own in any class table. -/
theorem table_threads (h : w.CallsInv) (hspans : ∀ c, (w.tables c).SpanInv)
    (hkind : w.Kind action moves clients)
    (hturn : ∀ c, turn World.step (w.tables c) (moves c) = some (w'.tables c)) {k : ThreadId}
    (hk : action.caller ≠ some k) (c : t.ClassId) :
    (w'.tables c).threads k = (w.tables c).threads k := by
  refine World.turn_threads (hspans c) (hturn c) fun a ha hcaller => ?_
  rcases hkind.moves_caller h c a ha with hnone | hsame
  · rw [hnone] at hcaller
    cases hcaller
  · exact hk (hsame.symm.trans hcaller)

namespace CallsInv

/-- Every step keeps running calls on spans of their own and class tables to their calls. -/
theorem step (h : w.CallsInv) (haccepted : ∀ c, (t.classConfig c).Accepted)
    (hspans : ∀ c, (w.tables c).SpanInv) (hkind : w.Kind action moves w'.toClassedClients)
    (hturn : ∀ c, turn World.step (w.tables c) (moves c) = some (w'.tables c)) : w'.CallsInv := by
  have hstill : moves = still → ∀ c, (w'.tables c).threads = (w.tables c).threads := by
    intro hmoves c
    have hstep := hturn c
    rw [hmoves] at hstep
    rw [Option.some.inj hstep]
  -- No thread is asked to move in a class table.
  have hquiet : (∀ c, ∀ a ∈ moves c, a.caller = none) → w'.threads = w.threads →
      w'.inUse = w.inUse → w'.CallsInv := fun hcaller hthreads hinUse =>
    h.quiet hspans hturn (fun c a ha k hk => by rw [hcaller c a ha] at hk; cases hk)
      (fun k call pc => by rw [hthreads]) hinUse
  generalize hclients : w'.toClassedClients = clients at hkind
  have hthreads : w'.threads = clients.threads := congrArg ClassedClients.threads hclients
  have hinUse : w'.inUse = clients.inUse := congrArg ClassedClients.inUse hclients
  cases hkind with
  | begins hidle hrows hsize hfree => exact h.begins hfree hidle hclients (hstill rfl)
  | resolves hpc hresolve =>
      exact h.resolves haccepted hspans hpc (h.resolveMove hpc hresolve) hclients hturn
  | leaves hpc => exact h.leaves hpc hclients (hstill rfl)
  | plain hcaller hnext hsame hbefore hafter hplain =>
      refine h.quiet hspans hturn (fun c a ha k hk => ?_)
        (calls_update (hthreads.trans hnext) hbefore hafter) (hinUse.trans hsame)
      rcases (hplain c a ha).caller with hnone | hthread
      · rw [hnone] at hk
        cases hk
      · rw [hthread] at hk
        cases hk
        exact ⟨hbefore, (hplain c a ha).begins _⟩
  | tryGet hfree hempty hlt hroute => exact hquiet (forall_only rfl) hthreads hinUse
  | misses hout => exact hquiet (fun c a ha => by cases ha) hthreads hinUse
  | reset hfree => exact hquiet (fun c a ha => by cases ha; rfl) hthreads hinUse
  | move hsource htarget => exact hquiet (fun c a ha => by cases ha; rfl) hthreads hinUse
  | work => exact hquiet (forall_only rfl) hthreads hinUse
  | deliver => exact hquiet (forall_only rfl) hthreads hinUse

end CallsInv

/-- In every reachable state running calls have spans of their own, and the class tables run no
calls but theirs. -/
theorem callsInv_of_reachable {h : ∀ c, (t.classConfig c).Accepted}
    (hw : Reachable ClassedWorld.step (ClassedWorld.start t h) w) : w.CallsInv :=
  hw.invariant_of (fun _ hs c => World.spanInv_of_reachable (reachable_table hs c)) (.start h)
    fun _ _ _ hspans hinv _ hstep => by
      obtain ⟨moves, hact, hturn⟩ := act_of_step hstep
      exact hinv.step h hspans (kind_of_act hact) hturn

end ClassedWorld

end TieredCache
