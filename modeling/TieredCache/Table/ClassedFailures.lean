/-
# How a call over several classes fails

The loop of single-row calls notices a row that is not addressable only when it gets there, and a
row that fails leaves the entries behind it as they were.  Where no such step is taken, a call that
fails holds no lease, and one with a stray row fails for that row and starts nothing.
-/

import TieredCache.Table.ClassedRows

namespace TieredCache

open Math.Families Math.Runs

/-! ## Steps that start no fetch -/

namespace World

variable {cfg : TableConfig} {w w' u : World cfg} {thread : ThreadId} {call call' : ResolveCall}
  {pc pc' : ResolvePc cfg} {choice : Choice} {action : Action cfg}

/-- No fetch is started and no row is evicted. -/
def StartsNothing (w w' : World cfg) : Prop :=
  w'.table.fetchLog = w.table.fetchLog ∧
    w'.table.counters.evictions = w.table.counters.evictions

theorem StartsNothing.refl (w : World cfg) : w.StartsNothing w := ⟨rfl, rfl⟩

theorem startsNothing_resetLease (w : World cfg) (v : LeaseVar) :
    w.StartsNothing (w.resetLease v) := by
  unfold resetLease
  split
  · exact .refl w
  · split
    · exact ⟨rfl, rfl⟩
    · rename_i h
      unfold Table.releaseLease at h
      split_ifs at h
      cases h
      exact ⟨rfl, rfl⟩

theorem startsNothing_settleRow {i : ℕ} {lease : Lease cfg}
    (h : (call, w.settleRow call i lease) = (call', pc', u)) : w.StartsNothing u := by
  obtain ⟨-, h⟩ := Prod.mk.inj h
  unfold settleRow at h
  dsimp only at h
  split_ifs at h <;> cases h <;> exact ⟨rfl, rfl⟩

theorem startsNothing_finishStep {t : Table cfg} {slot : cfg.SlotId} {deadline : Bool}
    {fpc : FinishPc} {next : Option FinishPc}
    (h : w.table.finishStep slot deadline choice fpc = some (next, t)) :
    w.StartsNothing { w with table := t } := by
  unfold Table.finishStep at h
  split at h
  · split_ifs at h <;> cases h <;> exact ⟨rfl, rfl⟩
  · cases h
    exact ⟨rfl, rfl⟩
  · split at h
    · cases h
      exact ⟨rfl, rfl⟩
    · cases h
      exact ⟨rfl, rfl⟩
    · split_ifs at h
      cases h
      exact ⟨rfl, rfl⟩
  · cases h
    exact ⟨rfl, rfl⟩
  · cases h
    exact ⟨rfl, rfl⟩
  · cases h
    unfold StartsNothing Table.publish
    dsimp only
    split_ifs <;> exact ⟨rfl, rfl⟩

/-- Outside its admission section a call starts nothing. -/
theorem startsNothing_resolveStep (hpc : pc ≠ .phaseA)
    (h : w.resolveStep call choice pc = some (call', pc', u)) : w.StartsNothing u := by
  unfold resolveStep at h
  split at h
  · split_ifs at h <;> cases h
    · exact w.startsNothing_resetLease _
    · exact .refl w
    · exact .refl w
  · exact absurd rfl hpc
  · split_ifs at h <;> cases h
    · exact w.startsNothing_resetLease _
    · exact .refl w
  · dsimp only at h
    split_ifs at h
    · split at h
      · cases h
      · split_ifs at h
        · cases h
          exact .refl w
        · cases h
          exact .refl w
        · cases h
          exact ⟨rfl, rfl⟩
        · exact startsNothing_settleRow (Option.some.inj h)
    · cases h
      exact .refl w
  · split at h
    · cases h
    · rename_i hfinish
      cases h
      exact startsNothing_finishStep hfinish
    · rename_i hfinish
      cases h
      exact startsNothing_finishStep hfinish
  · split at h
    · cases h
    · exact startsNothing_settleRow (Option.some.inj h)
  · split_ifs at h
    split at h
    · cases h
    · dsimp only at h
      split_ifs at h
      · exact startsNothing_settleRow (Option.some.inj h)
      · cases h
        exact .refl w
  · cases h

/-- Rows that are resident, or on their way, are pinned without a fetch. -/
theorem startsNothing_admitRows {answers : Answers} {out : LeaseVar} {rows : List UInt64} {i : ℕ}
    (hrows : ∀ row ∈ rows, (w.table.indexFind (row, w.table.currentGeneration)).isSome)
    (hone : rows.length ≤ 1) :
    w.StartsNothing (admitRows answers out i rows w).2.2 := by
  match rows, hone with
  | [], _ => exact .refl w
  | [row], _ =>
      obtain ⟨slot, hslot⟩ := Option.isSome_iff_exists.mp (hrows row List.mem_cons_self)
      unfold admitRows Table.findOrFetch
      rw [hslot]
      dsimp only
      split <;> exact ⟨rfl, rfl⟩

/-- A step of a call with one row starts nothing, if it is not the admission of a row that is
neither resident nor on its way. -/
theorem startsNothing_advance (hpc : w.threads thread = .resolving call pc)
    (hone : call.rows.length ≤ 1)
    (hrows : pc = .phaseA → ∀ row ∈ call.rows,
      (w.table.indexFind (row, w.table.currentGeneration)).isSome)
    (hstep : w.step (.advance thread choice) = some w') : w.StartsNothing w' := by
  unfold World.step at hstep
  split_ifs at hstep
  have hstep : w.advance thread choice = some w' := hstep
  unfold World.advance at hstep
  rw [hpc] at hstep
  obtain ⟨⟨call', pc', u⟩, hresolve, rfl⟩ := Option.map_eq_some_iff.mp hstep
  show w.StartsNothing u
  by_cases hphase : pc = .phaseA
  · subst hphase
    have hadmit : w.StartsNothing (admitRows choice.answers call.out 0 call.rows w).2.2 :=
      startsNothing_admitRows (hrows rfl) hone
    unfold resolveStep at hresolve
    dsimp only at hresolve
    split_ifs at hresolve <;> cases hresolve <;> exact hadmit
  · exact startsNothing_resolveStep hphase hresolve

/-- Making a call, leaving it and resetting a variable start nothing. -/
theorem startsNothing_plain (hstep : w.step action = some w')
    (hplain : (∃ k rows out size, action = .resolveInto k rows out size) ∨
      (∃ k, action = .leave k) ∨ ∃ v, action = .reset v) : w.StartsNothing w' := by
  unfold World.step at hstep
  split_ifs at hstep
  rcases hplain with ⟨k, rows, out, size, rfl⟩ | ⟨k, rfl⟩ | ⟨v, rfl⟩
  · have hstep : w.callResolve k rows out size = some w' := hstep
    unfold callResolve at hstep
    split at hstep
    · split_ifs at hstep <;> cases hstep <;> exact ⟨rfl, rfl⟩
    · cases hstep
  · have hstep : w.leave k = some w' := hstep
    unfold World.leave at hstep
    split at hstep <;> cases hstep <;> exact ⟨rfl, rfl⟩
  · have hstep : (if w.inUse v then none else some (w.resetLease v)) = some w' := hstep
    split_ifs at hstep
    cases hstep
    exact w.startsNothing_resetLease v

end World

/-! ## The branches that go wrong -/

namespace ClassedWorld

variable {t : SizeClassedTable} {w w' : ClassedWorld t} {thread : ThreadId} {call : ClassedCall}
  {pc pc' : ClassedResolvePc t} {choice : Choice} {action : ClassedAction t} {moves : ClassMoves t}

/-- The call has a row that is not addressable. -/
def Strays (t : SizeClassedTable) (call : ClassedCall) : Prop :=
  ∃ row ∈ call.rows, t.config.rowCount ≤ row

instance (call : ClassedCall) : Decidable (Strays t call) :=
  List.decidableBEx (fun row => t.config.rowCount ≤ row) call.rows

instance (w : ClassedWorld t) (v : LeaseVar) : Decidable (w.Empty v) :=
  inferInstanceAs (Decidable (∀ c, (w.tables c).leases v = none))

/-- The entries from `i` on hold no lease. -/
def EmptyFrom (w : ClassedWorld t) (call : ClassedCall) (i : ℕ) : Prop :=
  ∀ k < call.rows.length, i ≤ k → w.Empty (call.out + k)

instance (w : ClassedWorld t) (call : ClassedCall) (i : ℕ) : Decidable (w.EmptyFrom call i) :=
  inferInstanceAs (Decidable (∀ k < call.rows.length, i ≤ k → w.Empty (call.out + k)))

/-- Row `i` does not fail with leases behind it or a stray row in the call; and where there is a
stray row, the row that is admitted is resident or on its way. -/
def CleanInside (w : ClassedWorld t) (call : ClassedCall) (i : ℕ) (c : t.ClassId) :
    Pc (t.classConfig c) → Prop
  | .resolving _ (.returned (.error _)) => ¬ Strays t call ∧ w.EmptyFrom call (i + 1)
  | .resolving inner .phaseA =>
      Strays t call → ∀ row ∈ inner.rows,
        ((w.tables c).table.indexFind (row, (w.tables c).table.currentGeneration)).isSome
  | _ => True

/-- A stray row is not reached with leases in its entry or behind it. -/
def CleanPc (w : ClassedWorld t) (thread : ThreadId) : ClassedPc t → Prop
  | .resolving call (.row i) =>
      ∀ row ∈ call.rows[i]?, t.config.rowCount ≤ row → w.EmptyFrom call i
  | .resolving call (.inside i c) => w.CleanInside call i c ((w.tables c).threads thread)
  | _ => True

/-- The step takes none of the branches in which a call of `resolve_into` parts from the one of a
plain table. -/
def Clean (w : ClassedWorld t) : ClassedAction t → Prop
  | .resolveInto _ rows _ _ => rows.length ≤ t.config.maxBatchRows.toNat
  | .advance thread _ => w.CleanPc thread (w.threads thread)
  | _ => True

instance (w : ClassedWorld t) (call : ClassedCall) (i : ℕ) (c : t.ClassId) :
    DecidablePred (w.CleanInside call i c)
  | .resolving _ (.returned (.error _)) => inferInstanceAs (Decidable (_ ∧ _))
  | .resolving inner .phaseA =>
      have : Decidable (∀ row ∈ inner.rows,
          ((w.tables c).table.indexFind (row, (w.tables c).table.currentGeneration)).isSome) :=
        List.decidableBAll _ inner.rows
      inferInstanceAs (Decidable (Strays t call → ∀ row ∈ inner.rows,
        ((w.tables c).table.indexFind (row, (w.tables c).table.currentGeneration)).isSome))
  | .resolving _ (.returned (.ok _)) => isTrue trivial
  | .resolving _ (.releasing _) => isTrue trivial
  | .resolving _ (.unwind _ _ _) => isTrue trivial
  | .resolving _ (.drive _) => isTrue trivial
  | .resolving _ (.finishing _ _ _) => isTrue trivial
  | .resolving _ (.settle _) => isTrue trivial
  | .resolving _ (.asleep _ _) => isTrue trivial
  | .idle => isTrue trivial
  | .refused _ => isTrue trivial
  | .waiting _ _ _ => isTrue trivial
  | .draining _ _ => isTrue trivial

instance (w : ClassedWorld t) (thread : ThreadId) : DecidablePred (w.CleanPc thread)
  | .resolving call (.row i) =>
      Option.decidableForallMem (p := fun row => t.config.rowCount ≤ row → w.EmptyFrom call i) _
  | .resolving call (.inside i c) =>
      inferInstanceAs (Decidable (w.CleanInside call i c ((w.tables c).threads thread)))
  | .resolving _ (.unwind _ _ _) => isTrue trivial
  | .resolving _ (.returned _) => isTrue trivial
  | .idle => isTrue trivial
  | .refused _ => isTrue trivial
  | .prefetching _ _ => isTrue trivial
  | .draining _ _ => isTrue trivial

instance (w : ClassedWorld t) : DecidablePred w.Clean
  | .resolveInto _ rows _ _ =>
      inferInstanceAs (Decidable (rows.length ≤ t.config.maxBatchRows.toNat))
  | .advance thread _ => inferInstanceAs (Decidable (w.CleanPc thread (w.threads thread)))
  | .prefetch _ _ => isTrue trivial
  | .drain _ _ => isTrue trivial
  | .leave _ => isTrue trivial
  | .tryGet _ _ => isTrue trivial
  | .reset _ => isTrue trivial
  | .move _ _ => isTrue trivial
  | .work _ _ => isTrue trivial
  | .deliver _ _ _ => isTrue trivial

/-- How a call fails, by where it is. -/
def FailInv (w : ClassedWorld t) (call : ClassedCall) : ClassedResolvePc t → Prop
  | .unwind _ i failure => w.EmptyFrom call i ∧ (Strays t call → failure = .outOfRange)
  | .returned (.error failure) =>
      w.EmptyFrom call 0 ∧ (Strays t call → failure = .outOfRange)
  | _ => True

/-- What `resolve_into` of a plain table promises about its failures. -/
structure FailsAsTable (w : ClassedWorld t) : Prop where
  /-- No call is longer than a batch may be. -/
  bounded : ∀ thread call pc, w.threads thread = .resolving call pc →
    call.rows.length ≤ t.config.maxBatchRows.toNat
  /-- A call with a stray row ends in `out_of_range`. -/
  strays : ∀ thread call result, w.threads thread = .resolving call (.returned result) →
    Strays t call → result = .error .outOfRange
  /-- A step of such a call starts no fetch and evicts no row. -/
  startsNothing : ∀ thread call pc choice w', w.threads thread = .resolving call pc →
    Strays t call → w.Clean (.advance thread choice) → w.step (.advance thread choice) = some w' →
    ∀ c, (w.tables c).StartsNothing (w'.tables c)
  /-- A call that failed holds no lease in any of its entries. -/
  empty : ∀ thread call failure, w.threads thread = .resolving call (.returned (.error failure)) →
    ∀ v, call.InSpan v → w.Empty v

/-! ## The steps of a call -/

section Resolves

variable (h : w.CallsInv) (hpc : w.threads thread = .resolving call pc)
  (hmove : w.ResolveMove thread call pc moves pc') (hclean : w.CleanPc thread (.resolving call pc))
  (hturn : ∀ c, turn World.step (w.tables c) (moves c) = some (w'.tables c))

include hturn in
theorem startsNothing_turn {c : t.ClassId}
    (hpart : ∀ a ∈ moves c, (w.tables c).step a = some (w'.tables c) →
      (w.tables c).StartsNothing (w'.tables c)) : (w.tables c).StartsNothing (w'.tables c) := by
  have hstep := hturn c
  cases hmove : moves c with
  | none =>
      rw [hmove] at hstep
      rw [← Option.some.inj hstep]
      exact .refl _
  | some a =>
      rw [hmove] at hstep
      exact hpart a hmove hstep

include h hpc hmove hclean hturn in
/-- A clean step of a call with a stray row starts nothing. -/
theorem startsNothing_resolves (hstrays : Strays t call) (c : t.ClassId) :
    (w.tables c).StartsNothing (w'.tables c) := by
  refine startsNothing_turn hturn fun a ha hstep => ?_
  -- A class that moves takes part in the call, or resets a variable.
  have honly : ∀ {d : t.ClassId} {b : Action (t.classConfig d)}, moves = only d b →
      ((w.tables d).step b = some (w'.tables d) → (w.tables d).StartsNothing (w'.tables d)) →
      (w.tables c).StartsNothing (w'.tables c) := by
    rintro d b rfl hb
    by_cases hcd : c = d
    · subst hcd
      rw [only_self] at ha
      cases ha
      exact hb hstep
    · rw [only_of_ne hcd] at ha
      cases ha
  have hone : ∀ {i : ℕ} {d : t.ClassId} {inner : ResolveCall} {p : ResolvePc (t.classConfig d)},
      pc = .inside i d → (w.tables d).threads thread = .resolving inner p →
      inner.rows.length ≤ 1 := by
    rintro i d inner p rfl hinner
    obtain ⟨inner', p', hinner', hserves⟩ := h.served hpc
    rw [hinner] at hinner'
    cases hinner'
    obtain ⟨row, -, -, -, hrows⟩ := hserves.row
    rw [hrows]
    exact le_rfl
  cases hmove with
  | ends hrow => cases ha
  | strays hrow hout => cases ha
  | enters hrow hlt hroute =>
      exact honly rfl fun hb => World.startsNothing_plain hb (Or.inl ⟨_, _, _, _, rfl⟩)
  | @releases i d inner choice hinner =>
      by_cases hcd : c = d
      · subst hcd
        rw [Function.update_self] at ha
        cases ha
        exact World.startsNothing_advance hinner (hone rfl hinner)
          (fun hphase => by cases hphase) hstep
      · rw [Function.update_of_ne hcd] at ha
        cases ha
        exact World.startsNothing_plain hstep (Or.inr (Or.inr ⟨_, rfl⟩))
  | @goesOn i d inner p choice hinner hfirst =>
      refine honly rfl fun hb => World.startsNothing_advance hinner (hone rfl hinner) ?_ hb
      rintro rfl
      have hinside : w.CleanInside call i d ((w.tables d).threads thread) := hclean
      rw [hinner] at hinside
      exact hinside hstrays
  | succeeds hinner =>
      exact honly rfl fun hb => World.startsNothing_plain hb (Or.inr (Or.inl ⟨_, rfl⟩))
  | fails hinner =>
      exact honly rfl fun hb => World.startsNothing_plain hb (Or.inr (Or.inl ⟨_, rfl⟩))
  | givesBack hj =>
      cases ha
      exact World.startsNothing_plain hstep (Or.inr (Or.inr ⟨_, rfl⟩))
  | gaveBack hj => cases ha

include h hpc hmove hclean hturn in
/-- A clean step of a call fails as it should. -/
theorem FailInv.resolves (hspans : ∀ c, (w.tables c).SpanInv)
    (hcalls : ∀ c, (w.tables c).CallsInv False) (hinv : w.CallInv thread call pc)
    (hfail : w.FailInv call pc) : w'.FailInv call pc' := by
  have hstill : moves = still → w'.tables = w.tables := by
    rintro rfl
    funext c
    exact same_of_none hturn rfl
  have hempty : w'.tables = w.tables → ∀ i, w.EmptyFrom call i → w'.EmptyFrom call i :=
    fun hsame i hfrom k hk hi c => by
      rw [hsame]
      exact hfrom k hk hi c
  cases hmove with
  | ends hrow => trivial
  | @strays i row hrow hout =>
      have hfrom : w.EmptyFrom call i := hclean row hrow hout
      exact ⟨hempty (hstill rfl) i hfrom, fun _ => rfl⟩
  | enters hrow hlt hroute => trivial
  | releases choice hinner => trivial
  | goesOn choice hinner hfirst => trivial
  | succeeds hinner => trivial
  | @fails i c inner failure hinner =>
      have hinside : w.CleanInside call i c ((w.tables c).threads thread) := hclean
      rw [hinner] at hinside
      obtain ⟨hnot, hfrom⟩ := hinside
      refine ⟨fun k hk hi d => ?_, fun hstrays => absurd hstrays hnot⟩
      have hquiet : (w'.tables d).leases (call.out + k) = (w.tables d).leases (call.out + k) := by
        let apart : ∀ c, Action (t.classConfig c) → Prop := fun c a =>
          ¬ a.Touches (w.tables c) (call.out + k)
        exact World.turn_leases (hspans d) (hturn d) (forall_only (P := apart) (by exact id) d)
      rw [hquiet]
      rcases Nat.eq_or_lt_of_le hi with rfl | hlt
      · by_cases hdc : d = c
        · subst hdc
          obtain ⟨inner', p, hinner', hserves⟩ := h.served hpc
          rw [hinner] at hinner'
          cases hinner'
          obtain ⟨row, -, -, -, hrows⟩ := hserves.row
          obtain ⟨-, -, hnone, -⟩ := (hcalls d).call thread inner _ hinner
          have hfirst := hnone 0 (by rw [hrows]; exact Nat.one_pos)
          rwa [hserves.out, Nat.add_zero] at hfirst
        · exact hinv.2 inner _ hinner (fun hfirst => by cases hfirst) d hdc
      · exact hfrom k hk hlt d
  | @givesBack j i failure hj =>
      obtain ⟨hfrom, hstrays⟩ := hfail
      refine ⟨fun k hk hi c => ?_, hstrays⟩
      rw [reset_of_turn hcalls hturn rfl, Function.update_apply, hfrom k hk hi c, ite_self]
  | @gaveBack j i failure hj =>
      obtain ⟨hfrom, hstrays⟩ := hfail
      obtain ⟨-, hji, hgiven⟩ := hinv
      have hend : j = i := Nat.le_antisymm hji (Nat.not_lt.mp hj)
      refine ⟨hempty (hstill rfl) 0 fun k hk _ => ?_, hstrays⟩
      rcases Nat.lt_or_ge k i with hlt | hge
      · exact hgiven k (hend ▸ hlt)
      · exact hfrom k hk hge

end Resolves

/-- A call whose entries are left alone fails as it did. -/
theorem FailInv.congr (h : w.FailInv call pc)
    (hleases : ∀ v, call.InSpan v → ∀ c, (w'.tables c).leases v = (w.tables c).leases v) :
    w'.FailInv call pc := by
  have hempty : ∀ i, w.EmptyFrom call i → w'.EmptyFrom call i := fun i hfrom k hk hi c => by
    rw [hleases _ (ClassedCall.inSpan_add hk)]
    exact hfrom k hk hi c
  cases pc with
  | unwind j i failure => exact ⟨hempty i h.1, h.2⟩
  | returned result =>
      cases result with
      | ok n => trivial
      | error failure => exact ⟨hempty 0 h.1, h.2⟩
  | _ => trivial

/-! ## Runs -/

/-- Calls are no longer than they may be, and fail as they should. -/
structure FailsInv (w : ClassedWorld t) : Prop where
  bounded : ∀ thread call pc, w.threads thread = .resolving call pc →
    call.rows.length ≤ t.config.maxBatchRows.toNat
  calls : ∀ thread call pc, w.threads thread = .resolving call pc → w.FailInv call pc

/-- A clean step keeps it so. -/
theorem FailsInv.step (hfails : w.FailsInv) (h : w.CallsInv) (hspans : ∀ c, (w.tables c).SpanInv)
    (hcalls : ∀ c, (w.tables c).CallsInv False) (hinv : w.LeasesInv) (hclean : w.Clean action)
    (hkind : w.Kind action moves w'.toClassedClients)
    (hturn : ∀ c, turn World.step (w.tables c) (moves c) = some (w'.tables c)) : w'.FailsInv := by
  have hothers : ∀ k call pc, action.caller ≠ some k → w'.threads k = .resolving call pc →
      call.rows.length ≤ t.config.maxBatchRows.toNat ∧ w'.FailInv call pc := by
    intro k call pc hcaller hk
    rw [show w'.threads k = w.threads k from hkind.threads hcaller] at hk
    refine ⟨hfails.bounded k call pc hk, (hfails.calls k call pc hk).congr fun v hv c => ?_⟩
    refine leases_kept h hspans hkind hturn (h.inUse k call pc hk v hv) ?_ c
    intro k' call' pc' hcaller' hk' hv'
    rw [h.apart k' k call' call pc' pc hk' hk v hv' hv] at hcaller'
    exact hcaller hcaller'
  have hown : ∀ k call pc, action.caller = some k → w'.threads k = .resolving call pc →
      call.rows.length ≤ t.config.maxBatchRows.toNat ∧ w'.FailInv call pc := by
    intro k call pc hcaller hk
    generalize hclients : w'.toClassedClients = clients at hkind
    have hnext : w'.threads = clients.threads := congrArg ClassedClients.threads hclients
    rw [hnext] at hk
    cases hkind with
    | begins hidle hrows hsize hfree =>
        cases hcaller
        have hk := (Function.update_self ..).symm.trans hk
        cases hk
        exact ⟨hclean, trivial⟩
    | resolves hpc hresolve =>
        cases hcaller
        have hk := (Function.update_self ..).symm.trans hk
        cases hk
        have hpcClean : w.CleanPc k (w.threads k) := hclean
        rw [hpc] at hpcClean
        exact ⟨hfails.bounded k call _ hpc, (hfails.calls k call _ hpc).resolves h hpc
          (h.resolveMove hpc hresolve) hpcClean hturn hspans hcalls (hinv.calls k call _ hpc)⟩
    | leaves hpc =>
        cases hcaller
        have hk := (Function.update_self ..).symm.trans hk
        cases hk
    | plain hthread hnext hsame hbefore hafter hplain =>
        rw [hthread] at hcaller
        cases hcaller
        rw [hnext] at hk
        exact absurd ((Function.update_self ..).symm.trans hk) (hafter call pc)
    | _ => cases hcaller
  constructor
  · intro k call pc hk
    by_cases hcaller : action.caller = some k
    · exact (hown k call pc hcaller hk).1
    · exact (hothers k call pc hcaller hk).1
  · intro k call pc hk
    by_cases hcaller : action.caller = some k
    · exact (hown k call pc hcaller hk).2
    · exact (hothers k call pc hcaller hk).2

/-- The step is clean and has room for its leases. -/
def Careful (w : ClassedWorld t) (action : ClassedAction t) : Prop :=
  w.Clean action ∧ w.LeaseRoom action

instance (w : ClassedWorld t) (action : ClassedAction t) : Decidable (w.Careful action) :=
  inferInstanceAs (Decidable (_ ∧ _))

theorem failsInv_of_careful {h : ∀ c, (t.classConfig c).Accepted}
    (hw : Reaches ClassedWorld.step Careful (ClassedWorld.start t h) w) : w.FailsInv := by
  induction hw with
  | start =>
      exact ⟨fun _ _ _ hpc => (by cases hpc), fun _ _ _ hpc => by cases hpc⟩
  | step hs hallowed hstep ih =>
      have hroom := hs.mono fun _ _ hcareful => hcareful.2
      obtain ⟨moves, hact, hturn⟩ := act_of_step hstep
      exact ih.step (callsInv_of_reachable hs.reachable)
        (fun c => World.spanInv_of_reachable (reachable_table hs.reachable c))
        (tables_callsInv hroom) (leasesInv_of_room hroom) hallowed.1 (kind_of_act hact) hturn

/-- In every run whose steps take none of the branches that go wrong, `resolve_into` fails the way
the one of a plain table does. -/
theorem fails_as_table {h : ∀ c, (t.classConfig c).Accepted}
    (hw : Reaches ClassedWorld.step Careful (ClassedWorld.start t h) w) : w.FailsAsTable := by
  have hfails := failsInv_of_careful hw
  have hcalls := callsInv_of_reachable hw.reachable
  have hleases := leasesInv_of_room (hw.mono fun _ _ hcareful => hcareful.2)
  refine ⟨hfails.bounded, fun thread call result hpc hstrays => ?_,
    fun thread call pc choice w' hpc hstrays hclean hstep => ?_,
    fun thread call failure hpc v hv => ?_⟩
  · cases result with
    | ok n =>
        -- A call that succeeded has a lease on an addressable row in every entry.
        obtain ⟨hn, hhas⟩ := hleases.calls thread call _ hpc
        obtain ⟨row, hmem, hout⟩ := hstrays
        obtain ⟨j, hj⟩ := List.mem_iff_getElem?.mp hmem
        have hlt := (List.getElem?_eq_some_iff.mp hj).1
        obtain ⟨row', c, l, hrow', haddressable, -⟩ := hhas j (hn ▸ hlt)
        rw [hj] at hrow'
        cases hrow'
        exact absurd hout (UInt64.not_le.mpr haddressable)
    | error failure => rw [(hfails.calls thread call _ hpc).2 hstrays]
  · obtain ⟨moves, hact, hturn⟩ := act_of_step hstep
    have hkind := kind_of_act hact
    generalize w'.toClassedClients = clients at hkind
    have hpcClean : w.CleanPc thread (w.threads thread) := hclean
    rw [hpc] at hpcClean
    cases hkind with
    | resolves hpc' hresolve =>
        rw [hpc] at hpc'
        cases hpc'
        exact startsNothing_resolves hcalls hpc (hcalls.resolveMove hpc hresolve) hpcClean hturn
          hstrays
    | plain hthread hnext hsame hbefore hafter hplain =>
        cases hthread
        exact absurd hpc (hbefore call pc)
  · have hempty := (hfails.calls thread call _ hpc).1 (v - call.out)
      (Nat.sub_lt_left_of_lt_add hv.1 hv.2) (Nat.zero_le _)
    rwa [Nat.add_sub_cancel' hv.1] at hempty

end ClassedWorld

/-! ## Runs -/

/-- Where thread 0 has a call that failed. -/
def ClassedPc.failedCall : ClassedPc twoWidthsTable → Option ClassedCall
  | .resolving call (.returned (.error .outOfRange)) => some call
  | _ => none

theorem ClassedPc.failedCall_eq_some {pc : ClassedPc twoWidthsTable} {call : ClassedCall}
    (h : pc.failedCall = some call) : pc = .resolving call (.returned (.error .outOfRange)) := by
  unfold failedCall at h
  split at h
  · cases h
    rfl
  · cases h

/-- With row 1 leased, it is asked for once more, and after it a row that is not addressable. -/
def admittedRun : List (ClassedAction twoWidthsTable) :=
  oddRun ++ [.resolveInto 0 [1, 6] 1 2] ++ List.replicate 10 (.advance 0 {})

/-- A call that has admitted a row before it comes to a stray one gives its lease back. -/
theorem fails_as_table_admitted :
    ∃ w, Reaches ClassedWorld.step ClassedWorld.Careful (.start _ twoWidthsTable_accepted) w ∧
      w.threads 0 = .resolving ⟨[1, 6], 1⟩ (.returned (.error .outOfRange)) ∧
      ((w.tables oddClass).leases 0).isSome ∧ w.FailsAsTable := by
  have hrun : (exec ClassedWorld.step admittedRun (.start _ twoWidthsTable_accepted)).any fun w =>
      (w.threads 0).failedCall = some ⟨[1, 6], 1⟩ ∧ ((w.tables oddClass).leases 0).isSome := by
    decide +kernel
  have hallowed : AllAllowed ClassedWorld.step ClassedWorld.Careful admittedRun
      (.start _ twoWidthsTable_accepted) := by
    decide +kernel
  obtain ⟨w, hw, hfacts⟩ := (Option.any_eq_true _ _).mp hrun
  obtain ⟨hfailed, hlease⟩ := of_decide_eq_true hfacts
  have hreaches := reaches_of_exec .start hallowed hw
  exact ⟨w, hreaches, ClassedPc.failedCall_eq_some hfailed, hlease,
    ClassedWorld.fails_as_table hreaches⟩

/-- With row 1 leased, a row that is not addressable is asked for, with the lease's variable. -/
def strayRun : List (ClassedAction twoWidthsTable) :=
  oddRun ++ [.resolveInto 0 [6] 0 1, .advance 0 {}, .advance 0 {}]

/-- The call fails with the lease of row 1 still in its entry. -/
theorem fails_with_lease :
    ∃ w, Reachable ClassedWorld.step (.start _ twoWidthsTable_accepted) w ∧ ¬ w.FailsAsTable := by
  have hrun : (exec ClassedWorld.step strayRun (.start _ twoWidthsTable_accepted)).any fun w =>
      (w.threads 0).failedCall = some ⟨[6], 0⟩ ∧ ((w.tables oddClass).leases 0).isSome := by
    decide +kernel
  obtain ⟨w, hw, hfacts⟩ := (Option.any_eq_true _ _).mp hrun
  obtain ⟨hcall, hlease⟩ := of_decide_eq_true hfacts
  refine ⟨w, reachable_of_exec .start hw, fun hfails => ?_⟩
  have hempty := hfails.empty 0 _ _ (ClassedPc.failedCall_eq_some hcall) 0 ⟨le_rfl, Nat.one_pos⟩
  rw [hempty oddClass] at hlease
  cases hlease

end TieredCache
