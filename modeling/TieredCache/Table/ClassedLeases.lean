/-
# Leases of several classes

A lease variable holds a lease of at most one class.  A call that succeeds holds, entry by entry,
a lease on the class-local number of its row in the class of that row.
-/

import TieredCache.Table.ClassedCalls
import TieredCache.Table.LeaseStability

namespace TieredCache

open Math.Families Math.Runs

variable {t : SizeClassedTable}

namespace World

variable {cfg : TableConfig} {u u' : World cfg}

theorem reset_leases (h : u.PinInv) {v : LeaseVar} (hstep : u.step (.reset v) = some u') :
    u'.leases = Function.update u.leases v none := by
  unfold World.step at hstep
  split_ifs at hstep
  have hstep : (if u.inUse v then none else some (u.resetLease v)) = some u' := hstep
  split_ifs at hstep
  cases hstep
  exact h.resetLease_leases v

theorem move_leases (h : u.PinInv) {source target : LeaseVar}
    (hstep : u.step (.move source target) = some u') :
    u'.leases = if source = target then u.leases
      else Function.update (Function.update u.leases target (u.leases source)) source none := by
  unfold World.step at hstep
  split_ifs at hstep
  have hstep : (if u.inUse source ∨ u.inUse target then none
    else some (u.moveLease source target)) = some u' := hstep
  split_ifs at hstep
  cases hstep
  unfold moveLease
  split_ifs with heq
  · rfl
  · dsimp only
    rw [h.resetLease_leases, Function.update_of_ne heq, Function.update_idem]

end World

namespace ClassedWorld

variable {w w' : ClassedWorld t} {thread : ThreadId} {call : ClassedCall}
  {pc pc' : ClassedResolvePc t} {action : ClassedAction t} {moves : ClassMoves t} {j : ℕ}

/-- No class has a lease in the variable. -/
def Empty (w : ClassedWorld t) (v : LeaseVar) : Prop := ∀ c, (w.tables c).leases v = none

/-- Entry `j` holds a lease on row `j`, by its number in its class. -/
def Has (w : ClassedWorld t) (call : ClassedCall) (j : ℕ) : Prop :=
  ∃ row c l, call.rows[j]? = some row ∧ row < t.config.rowCount ∧ t.routeOf row = some c ∧
    (w.tables c).leases (call.out + j) = some l ∧ l.rowIndex = t.localRow row

/-- What a call has reached, by where it is. -/
def CallInv (w : ClassedWorld t) (thread : ThreadId) (call : ClassedCall) :
    ClassedResolvePc t → Prop
  | .row i => ∀ j < i, w.Has call j
  | .inside i c =>
      (∀ j < i, w.Has call j) ∧
        ∀ inner p, (w.tables c).threads thread = .resolving inner p → p ≠ .releasing 0 →
          ∀ d, d ≠ c → (w.tables d).leases (call.out + i) = none
  | .unwind j i failure => failure ≠ .ok ∧ j ≤ i ∧ ∀ k < j, w.Empty (call.out + k)
  | .returned (.ok n) => n = call.rows.length ∧ ∀ j < n, w.Has call j
  | .returned (.error failure) => failure ≠ .ok

/-- Calls are where their entries say, and no variable holds leases of two classes. -/
structure LeasesInv (w : ClassedWorld t) : Prop where
  calls : ∀ thread call pc, w.threads thread = .resolving call pc → w.CallInv thread call pc
  single : ∀ v c d, (w.tables c).leases v ≠ none → (w.tables d).leases v ≠ none → c = d

theorem Has.lt (h : w.Has call j) : j < call.rows.length := by
  obtain ⟨row, c, l, hrow, -⟩ := h
  exact (List.getElem?_eq_some_iff.mp hrow).1

theorem Has.congr (h : w.Has call j)
    (hleases : ∀ c, (w'.tables c).leases (call.out + j) = (w.tables c).leases (call.out + j)) :
    w'.Has call j := by
  obtain ⟨row, c, l, hrow, hlt, hroute, hl, hnumber⟩ := h
  exact ⟨row, c, l, hrow, hlt, hroute, (hleases c).trans hl, hnumber⟩

/-- A call whose entries are left alone is where it was. -/
theorem CallInv.congr (h : w.CallInv thread call pc)
    (hwithin : pc.Within call.rows.length)
    (hinside : ∀ i c, pc = .inside i c → i < call.rows.length)
    (hpcs : ∀ c, (w'.tables c).threads thread = (w.tables c).threads thread)
    (hleases : ∀ v, call.InSpan v → ∀ c, (w'.tables c).leases v = (w.tables c).leases v) :
    w'.CallInv thread call pc := by
  have hhas : ∀ j, w.Has call j → w'.Has call j := fun j hj =>
    hj.congr (hleases _ (ClassedCall.inSpan_add hj.lt))
  cases pc with
  | row i => exact fun j hj => hhas j (h j hj)
  | inside i c =>
      refine ⟨fun j hj => hhas j (h.1 j hj), fun inner p hinner hp d hd => ?_⟩
      rw [hpcs] at hinner
      rw [hleases _ (ClassedCall.inSpan_add (hinside i c rfl))]
      exact h.2 inner p hinner hp d hd
  | unwind j i failure =>
      obtain ⟨hne, hji, hempty⟩ := h
      refine ⟨hne, hji, fun k hk c => ?_⟩
      rw [hleases _ (ClassedCall.inSpan_add ((hk.trans_le hji).trans hwithin))]
      exact hempty k hk c
  | returned result =>
      cases result with
      | ok n => exact ⟨h.1, fun j hj => hhas j (h.2 j hj)⟩
      | error failure => exact h

/-! ## What a step leaves to other calls -/

/-- Inside a class table's call only the entry of its row is touched. -/
theorem touches_entry (h : w.CallsInv) {i : ℕ} {c : t.ClassId}
    (hpc : w.threads thread = .resolving call (.inside i c))
    (hmove : w.ResolveMove thread call (.inside i c) moves pc') {v : LeaseVar}
    (hv : v ≠ call.out + i) (d : t.ClassId) : ∀ a ∈ moves d, ¬ a.Touches (w.tables d) v := by
  let apart : ∀ c, Action (t.classConfig c) → Prop := fun c a => ¬ a.Touches (w.tables c) v
  have hadvance : ∀ {choice : Choice}, apart c (.advance thread choice) := by
    rintro choice ⟨inner, p, hinner, hin⟩
    obtain ⟨inner', p', hinner', hserves⟩ := h.served hpc
    rw [hinner] at hinner'
    cases hinner'
    exact hv (hserves.inSpan_iff.mp hin)
  cases hmove with
  | releases choice hinner =>
      intro a ha
      by_cases hdc : d = c
      · subst hdc
        rw [Function.update_self] at ha
        cases ha
        exact hadvance
      · rw [Function.update_of_ne hdc] at ha
        cases ha
        exact hv
  | goesOn choice hinner hfirst => exact forall_only (P := apart) hadvance d
  | succeeds hinner => exact forall_only (P := apart) (by exact id) d
  | fails hinner => exact forall_only (P := apart) (by exact id) d

/-- A step of a call touches only its entries. -/
theorem ResolveMove.touches (h : w.CallsInv) (hpc : w.threads thread = .resolving call pc)
    (hmove : w.ResolveMove thread call pc moves pc') {v : LeaseVar} (hv : ¬ call.InSpan v)
    (c : t.ClassId) : ∀ a ∈ moves c, ¬ a.Touches (w.tables c) v := by
  let apart : ∀ c, Action (t.classConfig c) → Prop := fun c a => ¬ a.Touches (w.tables c) v
  cases pc with
  | row i =>
      cases hmove with
      | ends hrow => exact fun a ha => by cases ha
      | strays hrow hout => exact fun a ha => by cases ha
      | enters hrow hlt hroute => exact forall_only (P := apart) (by exact id) c
  | inside i d =>
      obtain ⟨inner, p, -, hserves⟩ := h.served hpc
      refine touches_entry h hpc hmove ?_ c
      rintro rfl
      exact hv (ClassedCall.inSpan_add hserves.lt)
  | unwind j i failure =>
      cases hmove with
      | givesBack hj =>
          intro a ha
          cases ha
          rintro rfl
          exact hv (ClassedCall.inSpan_add (hj.trans (h.within thread call _ hpc)))
      | gaveBack hj => exact fun a ha => by cases ha
  | returned result => cases hmove

/-- A step leaves a variable alone that some other call uses. -/
theorem leases_kept (h : w.CallsInv) (hspans : ∀ c, (w.tables c).SpanInv)
    (hkind : w.Kind action moves w'.toClassedClients)
    (hturn : ∀ c, turn World.step (w.tables c) (moves c) = some (w'.tables c)) {v : LeaseVar}
    (huse : w.inUse v = true)
    (hothers : ∀ k call pc, action.caller = some k → w.threads k = .resolving call pc →
      ¬ call.InSpan v) (c : t.ClassId) : (w'.tables c).leases v = (w.tables c).leases v := by
  let apart : ∀ c, Action (t.classConfig c) → Prop := fun c a => ¬ a.Touches (w.tables c) v
  refine World.turn_leases (hspans c) (hturn c) ?_
  generalize w'.toClassedClients = clients at hkind
  cases hkind with
  | begins hidle hrows hsize hfree => exact fun a ha => by cases ha
  | resolves hpc hresolve =>
      exact (h.resolveMove hpc hresolve).touches h hpc (hothers _ _ _ rfl hpc) c
  | leaves hpc => exact fun a ha => by cases ha
  | plain hcaller hnext hsame hbefore hafter hplain =>
      exact fun a ha => (hplain c a ha).apart v _ (h.not_resolving hbefore c)
  | tryGet hfree hempty hlt hroute =>
      refine forall_only (P := apart) (fun htouch => ?_) c
      cases htouch
      rw [hfree] at huse
      cases huse
  | misses hout => exact fun a ha => by cases ha
  | reset hfree =>
      intro a ha
      cases ha
      rintro rfl
      rw [hfree] at huse
      cases huse
  | move hsource htarget =>
      intro a ha
      cases ha
      rintro (rfl | rfl)
      · rw [hsource] at huse
        cases huse
      · rw [htarget] at huse
        cases huse
  | work => exact forall_only (P := apart) (by exact id) c
  | deliver => exact forall_only (P := apart) (by exact id) c

/-! ## The steps of a call -/

section Resolves

variable (haccepted : ∀ c, (t.classConfig c).Accepted) (h : w.CallsInv)
  (hspans : ∀ c, (w.tables c).SpanInv) (hcalls : ∀ c, (w.tables c).CallsInv False)
  (hpc : w.threads thread = .resolving call pc)
  (hmove : w.ResolveMove thread call pc moves pc')
  (hturn : ∀ c, turn World.step (w.tables c) (moves c) = some (w'.tables c))

include hturn

theorem same_of_none {c : t.ClassId} (hnone : moves c = none) : w'.tables c = w.tables c := by
  have hstep := hturn c
  rw [hnone] at hstep
  exact (Option.some.inj hstep).symm

include hcalls in
/-- A class asked to reset a variable has no lease in it. -/
theorem reset_of_turn {c : t.ClassId} {v : LeaseVar} (hreset : moves c = some (.reset v)) :
    (w'.tables c).leases = Function.update (w.tables c).leases v none := by
  have hstep := hturn c
  rw [hreset] at hstep
  exact World.reset_leases (hcalls c).pins hstep

include h hspans hcalls hpc hmove

include haccepted in
/-- A step of a call gets it where its entries say. -/
theorem CallInv.resolves (hinv : w.CallInv thread call pc) : w'.CallInv thread call pc' := by
  have hentry : ∀ {i : ℕ} {c : t.ClassId} (j : ℕ), j ≠ i → pc = .inside i c → ∀ d,
      (w'.tables d).leases (call.out + j) = (w.tables d).leases (call.out + j) := by
    rintro i c j hj rfl d
    refine World.turn_leases (hspans d) (hturn d) (touches_entry h hpc hmove (fun heq => hj ?_) d)
    exact Nat.add_left_cancel heq
  cases hmove with
  | ends hrow =>
      have hend := List.getElem?_eq_none_iff.mp hrow
      refine ⟨rfl, fun j hj => (hinv j (hj.trans_le hend)).congr fun c => ?_⟩
      rw [same_of_none hturn rfl]
  | strays hrow hout => exact ⟨by decide, Nat.zero_le _, fun k hk => absurd hk (Nat.not_lt_zero k)⟩
  | @enters i row c hrow hlt hroute =>
      have hstep := hturn c
      rw [only_self] at hstep
      refine ⟨fun j hj => (hinv j hj).congr fun d => ?_, fun inner p hinner hp => ?_⟩
      · let apart : ∀ c, Action (t.classConfig c) → Prop := fun c a =>
          ¬ a.Touches (w.tables c) (call.out + j)
        exact World.turn_leases (hspans d) (hturn d) (forall_only (P := apart) (by exact id) d)
      · rw [CallsInv.begun (haccepted c) hstep] at hinner
        cases hinner
        exact absurd rfl hp
  | @releases i c inner choice hinner =>
      refine ⟨fun j hj => (hinv.1 j hj).congr (hentry j hj.ne rfl), fun _ _ _ _ d hd => ?_⟩
      rw [reset_of_turn hcalls hturn (Function.update_of_ne hd ..), Function.update_self]
  | @goesOn i c inner p choice hinner hfirst =>
      refine ⟨fun j hj => (hinv.1 j hj).congr (hentry j hj.ne rfl), fun _ _ _ _ d hd => ?_⟩
      rw [same_of_none hturn (only_of_ne hd _)]
      exact hinv.2 inner p hinner hfirst d hd
  | @succeeds i n c inner hinner =>
      intro j hj
      have hleases : ∀ d, (w'.tables d).leases = (w.tables d).leases := fun d => by
        let quiet : ∀ c, Action (t.classConfig c) → Prop := fun c a => ∀ v, ¬ a.Touches (w.tables c) v
        have hquiet := forall_only (P := quiet) (i := c) (a := .leave thread) (fun _ => by exact id) d
        funext v
        exact World.turn_leases (hspans d) (hturn d) fun a ha => hquiet a ha v
      have hbefore : w.Has call j := by
        rcases Nat.lt_succ_iff_lt_or_eq.mp hj with hlt | rfl
        · exact hinv.1 j hlt
        · obtain ⟨inner', p, hinner', hserves⟩ := h.served hpc
          rw [hinner] at hinner'
          cases hinner'
          obtain ⟨row, hrow, hlt, hroute, hrows⟩ := hserves.row
          obtain ⟨-, hfull⟩ := (hcalls c).call thread inner _ hinner
          obtain ⟨l, hl, hfirst, -⟩ := hfull.taken 0 (by rw [hrows]; exact Nat.one_pos)
          rw [hserves.out, Nat.add_zero] at hl
          rw [hrows] at hfirst
          exact ⟨row, c, l, hrow, hlt, hroute, hl, (Option.some.inj hfirst).symm⟩
      exact hbefore.congr fun d => congrFun (hleases d) _
  | @fails i c inner failure hinner =>
      exact ⟨((hcalls c).call thread inner _ hinner).1, Nat.zero_le _,
        fun k hk => absurd hk (Nat.not_lt_zero k)⟩
  | @givesBack j i failure hj =>
      obtain ⟨hne, hji, hempty⟩ := hinv
      refine ⟨hne, hj, fun k hk c => ?_⟩
      rw [reset_of_turn hcalls hturn rfl]
      by_cases hkj : k = j
      · rw [hkj, Function.update_self]
      · have hapart : call.out + k ≠ call.out + j := fun heq => hkj (Nat.add_left_cancel heq)
        rw [Function.update_of_ne hapart]
        exact hempty k (lt_of_le_of_ne (Nat.le_of_lt_succ hk) hkj) c
  | gaveBack hj => exact hinv.1

/-- A step of a call puts a lease into a variable only if no other class has one there. -/
theorem single_of_resolves (hinv : w.CallInv thread call pc)
    (hsingle : ∀ v c d, (w.tables c).leases v ≠ none → (w.tables d).leases v ≠ none → c = d)
    (v : LeaseVar) (c d : t.ClassId) (hc : (w'.tables c).leases v ≠ none)
    (hd : (w'.tables d).leases v ≠ none) : c = d := by
  -- A step that puts no lease into the variable.
  have hfewer : (∀ c, (w'.tables c).leases v ≠ none → (w.tables c).leases v ≠ none) → c = d :=
    fun hold => hsingle v c d (hold c hc) (hold d hd)
  have hsame : (∀ c, ∀ a ∈ moves c, ¬ a.Touches (w.tables c) v) → c = d := fun hkept =>
    hfewer fun c hc => by rwa [World.turn_leases (hspans c) (hturn c) (hkept c)] at hc
  let apart : ∀ c, Action (t.classConfig c) → Prop := fun c a => ¬ a.Touches (w.tables c) v
  -- Inside a class's call only that class may have a lease in the entry afterwards.
  have hentry : ∀ {i : ℕ} {e : t.ClassId}, pc = .inside i e →
      (∀ d, d ≠ e → (w'.tables d).leases (call.out + i) = none) → c = d := by
    rintro i e rfl hnone
    by_cases hv : v = call.out + i
    · subst hv
      have hself : ∀ c, (w'.tables c).leases (call.out + i) ≠ none → c = e := fun c hc => by
        by_contra hne
        exact hc (hnone c hne)
      rw [hself c hc, hself d hd]
    · exact hsame fun c => touches_entry h hpc hmove hv c
  cases hmove with
  | ends hrow => exact hsame fun c a ha => by cases ha
  | strays hrow hout => exact hsame fun c a ha => by cases ha
  | enters hrow hlt hroute => exact hsame (forall_only (P := apart) (by exact id))
  | @releases i e inner choice hinner =>
      refine hentry rfl fun d hd => ?_
      rw [reset_of_turn hcalls hturn (Function.update_of_ne hd ..), Function.update_self]
  | @goesOn i e inner p choice hinner hfirst =>
      refine hentry rfl fun d hd => ?_
      rw [same_of_none hturn (only_of_ne hd _)]
      exact hinv.2 inner p hinner hfirst d hd
  | succeeds hinner => exact hsame (forall_only (P := apart) (by exact id))
  | fails hinner => exact hsame (forall_only (P := apart) (by exact id))
  | @givesBack j i failure hj =>
      refine hfewer fun c hc hnone => hc ?_
      rw [reset_of_turn hcalls hturn rfl]
      by_cases hv : v = call.out + j
      · rw [hv, Function.update_self]
      · rw [Function.update_of_ne hv, hnone]
  | gaveBack hj => exact hsame fun c a ha => by cases ha

end Resolves

/-! ## Every step -/

namespace LeasesInv

theorem start (h : ∀ c, (t.classConfig c).Accepted) : (ClassedWorld.start t h).LeasesInv where
  calls := fun thread call pc hpc => by cases hpc
  single := fun v c d hc => absurd rfl hc

/-- Every step keeps calls where their entries say, and leases of two classes apart. -/
theorem step (hinv : w.LeasesInv) (haccepted : ∀ c, (t.classConfig c).Accepted) (h : w.CallsInv)
    (hspans : ∀ c, (w.tables c).SpanInv) (hcalls : ∀ c, (w.tables c).CallsInv False)
    (hkind : w.Kind action moves w'.toClassedClients)
    (hturn : ∀ c, turn World.step (w.tables c) (moves c) = some (w'.tables c)) :
    w'.LeasesInv := by
  have hthreads : ∀ k, action.caller ≠ some k → w'.threads k = w.threads k :=
    fun k hk => hkind.threads hk
  refine ⟨fun k call pc hk => ?_, fun v c d hc hd => ?_⟩
  · by_cases hcaller : action.caller = some k
    · generalize hclients : w'.toClassedClients = clients at hkind
      have hnext : w'.threads = clients.threads := congrArg ClassedClients.threads hclients
      rw [hnext] at hk
      cases hkind with
      | begins hidle hrows hsize hfree =>
          cases hcaller
          have hk := (Function.update_self ..).symm.trans hk
          cases hk
          exact fun j hj => absurd hj (Nat.not_lt_zero j)
      | resolves hpc hresolve =>
          cases hcaller
          have hk := (Function.update_self ..).symm.trans hk
          cases hk
          exact (hinv.calls k call _ hpc).resolves haccepted h hspans hcalls hpc
            (h.resolveMove hpc hresolve) hturn
      | leaves hpc =>
          cases hcaller
          have hk := (Function.update_self ..).symm.trans hk
          cases hk
      | plain hthread hnext hsame hbefore hafter hplain =>
          rw [hthread] at hcaller
          cases hcaller
          rw [hnext] at hk
          exact absurd ((Function.update_self ..).symm.trans hk) (hafter call pc)
      | _ => cases hcaller
    · rw [hthreads k hcaller] at hk
      refine (hinv.calls k call pc hk).congr (h.within k call pc hk) ?_
        (table_threads h hspans hkind hturn hcaller) fun v hv c => ?_
      · rintro i c rfl
        obtain ⟨inner, p, -, hserves⟩ := h.served hk
        exact hserves.lt
      · refine leases_kept h hspans hkind hturn (h.inUse k call pc hk v hv) ?_ c
        intro k' call' pc' hcaller' hk' hv'
        rw [h.apart k' k call' call pc' pc hk' hk v hv' hv] at hcaller'
        exact hcaller hcaller'
  · generalize w'.toClassedClients = clients at hkind
    have hfewer : (∀ c, (w'.tables c).leases v ≠ none → (w.tables c).leases v ≠ none) → c = d :=
      fun hold => hinv.single v c d (hold c hc) (hold d hd)
    have hsame : (∀ c, ∀ a ∈ moves c, ¬ a.Touches (w.tables c) v) → c = d := fun hkept =>
      hfewer fun c hc => by rwa [World.turn_leases (hspans c) (hturn c) (hkept c)] at hc
    let apart : ∀ c, Action (t.classConfig c) → Prop := fun c a => ¬ a.Touches (w.tables c) v
    cases hkind with
    | begins hidle hrows hsize hfree => exact hsame fun c a ha => by cases ha
    | resolves hpc hresolve =>
        exact single_of_resolves h hspans hcalls hpc (h.resolveMove hpc hresolve) hturn
          (hinv.calls _ _ _ hpc) hinv.single v c d hc hd
    | leaves hpc => exact hsame fun c a ha => by cases ha
    | plain hthread hnext hsame' hbefore hafter hplain =>
        exact hsame fun c a ha => (hplain c a ha).apart v _ (h.not_resolving hbefore c)
    | @tryGet row lease e hfree hempty hlt hroute =>
        by_cases hv : v = lease
        · have hself : ∀ c, (w'.tables c).leases v ≠ none → c = e := fun c hc => by
            by_contra hne
            rw [same_of_none hturn (only_of_ne hne _), hv] at hc
            exact hc (hempty c)
          rw [hself c hc, hself d hd]
        · exact hsame (forall_only (P := apart) hv)
    | misses hout => exact hsame fun c a ha => by cases ha
    | @reset lease hfree =>
        refine hfewer fun c hc hnone => hc ?_
        rw [reset_of_turn hcalls hturn rfl]
        by_cases hv : v = lease
        · rw [hv, Function.update_self]
        · rw [Function.update_of_ne hv, hnone]
    | @move source target hsource htarget =>
        have hleases : ∀ c, (w'.tables c).leases = if source = target then (w.tables c).leases
            else Function.update (Function.update (w.tables c).leases target
              ((w.tables c).leases source)) source none := fun c =>
          World.move_leases (hcalls c).pins (hturn c)
        rw [hleases] at hc hd
        split_ifs at hc hd with heq
        · exact hinv.single v c d hc hd
        · by_cases hvs : v = source
          · rw [hvs, Function.update_self] at hc
            exact absurd rfl hc
          · rw [Function.update_of_ne hvs] at hc hd
            by_cases hvt : v = target
            · rw [hvt, Function.update_self] at hc hd
              exact hinv.single source c d hc hd
            · rw [Function.update_of_ne hvt] at hc hd
              exact hinv.single v c d hc hd
    | work => exact hsame (forall_only (P := apart) (by exact id))
    | deliver => exact hsame (forall_only (P := apart) (by exact id))

end LeasesInv

/-- Every class's table has room for the leases it is asked for. -/
abbrev LeaseRoom : ClassedWorld t → ClassedAction t → Prop := EachMove fun _ => World.LeaseRoom

/-- With room for its leases a run keeps the calls of every class's table in order. -/
theorem tables_callsInv {h : ∀ c, (t.classConfig c).Accepted}
    (hw : Reaches ClassedWorld.step LeaseRoom (ClassedWorld.start t h) w) (c : t.ClassId) :
    (w.tables c).CallsInv False :=
  World.callsInv_of_room (reaches_table hw c)

/-- In every run with room for its leases, calls are where their entries say. -/
theorem leasesInv_of_room {h : ∀ c, (t.classConfig c).Accepted}
    (hw : Reaches ClassedWorld.step LeaseRoom (ClassedWorld.start t h) w) : w.LeasesInv := by
  induction hw with
  | start => exact .start h
  | step hs hallowed hstep ih =>
      obtain ⟨moves, hact, hturn⟩ := act_of_step hstep
      exact ih.step h (callsInv_of_reachable hs.reachable)
        (fun c => World.spanInv_of_reachable (reachable_table hs.reachable c)) (tables_callsInv hs)
        (kind_of_act hact) hturn

end ClassedWorld

end TieredCache
