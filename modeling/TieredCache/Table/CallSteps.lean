/-
# All steps keep the calls in order

The steps outside `resolve_into` leave the entries of running calls alone, so with room
for its leases every step of the machine keeps the calls in order.
-/

import TieredCache.Table.ResolveSteps

namespace TieredCache

open Math.Runs

variable {cfg : TableConfig}

namespace World

variable {w w' u : World cfg} {fresh : Prop} {thread : ThreadId} {call : ResolveCall}
  {choice : Choice}

/-- `wait` touches no lease. -/
theorem waitStep_leases {wait : WaitCall cfg} {outcome outcome' : WaitOutcome}
    {before after : WaitPc cfg} (h : w.waitStep wait outcome choice before = some (outcome', after, u)) :
    u.leases = w.leases ∧ u.inUse = w.inUse ∧ u.granted = w.granted ∧ u.released = w.released := by
  cases before with
  | entry i =>
      unfold waitStep at h
      dsimp only at h
      split_ifs at h
      · split at h
        · cases h
          exact ⟨rfl, rfl, rfl, rfl⟩
        · split_ifs at h <;> cases h <;> exact ⟨rfl, rfl, rfl, rfl⟩
      · cases h
        exact ⟨rfl, rfl, rfl, rfl⟩
  | finishing i slot fpc =>
      unfold waitStep at h
      dsimp only at h
      split at h <;> cases h <;> exact ⟨rfl, rfl, rfl, rfl⟩
  | settle i =>
      unfold waitStep at h
      dsimp only at h
      split at h <;> cases h
      exact ⟨rfl, rfl, rfl, rfl⟩
  | asleep i since =>
      unfold waitStep at h
      dsimp only at h
      split at h
      · split at h
        · cases h
        · split_ifs at h <;> cases h <;> exact ⟨rfl, rfl, rfl, rfl⟩
      · cases h
  | returned => cases h

namespace CallsInv

/-! ## Steps outside the calls -/

/-- A variable that no call uses is settled. -/
theorem settled_of_free (h : w.CallsInv fresh) {v : ℕ} (hv : w.inUse v = false) : ¬ w.Unsettled v := by
  rintro ⟨k, c, p, hk, hin, -⟩
  have huse := h.inUse k c p hk v hin
  rw [hv] at huse
  cases huse

/-- A step that takes and returns no lease and moves no call. -/
theorem plain (h : w.CallsInv fresh) (w' : World cfg) (htable : Table.Keeps w.table w'.table)
    (hcalls : ∀ thread call pc, w'.threads thread = .resolving call pc ↔
      w.threads thread = .resolving call pc)
    (hleases : w'.leases = w.leases) (hinUse : w'.inUse = w.inUse)
    (hgranted : w'.granted = w.granted) (hreleased : w'.released = w.released) :
    CallsStep fresh w w' := by
  have hcarries := h.pins.carries_of_keeps htable
  refine h.outside (h.pins.keep htable hleases hgranted hreleased) hcalls hinUse
    (fun v _ => by rw [hleases]) (fun id hid => by rw [hreleased]; exact hid) hcarries
    (fun v l hfree hv => ?_) fun v l _ hv => Or.inr ⟨v, by rw [hleases]; exact hv⟩
  rw [hleases] at hv
  exact (h.stable v l hv (h.settled_of_free hfree)).carries (hcarries v l hv)

/-- A thread outside `resolve_into` stays outside. -/
theorem calls_setThread {pc : Pc cfg} (hthreads : u.threads = w.threads)
    (hbefore : ∀ c p, w.threads thread ≠ .resolving c p) (hafter : ∀ c p, pc ≠ .resolving c p)
    (k : ThreadId) (c : ResolveCall) (p : ResolvePc cfg) :
    (u.setThread thread pc).threads k = .resolving c p ↔ w.threads k = .resolving c p := by
  show Function.update u.threads thread pc k = _ ↔ _
  rw [hthreads]
  by_cases hk : k = thread
  · rw [hk, Function.update_self]
    exact iff_of_false (hafter c p) (hbefore c p)
  · rw [Function.update_of_ne hk]

/-- A call begins on variables no call uses. -/
theorem begins (h : w.CallsInv fresh) (hidle : w.threads thread = .idle) {rows : List UInt64}
    {out : LeaseVar} (hfree : ¬ ∃ i < rows.length, w.inUse (out + i)) :
    CallsStep fresh w ((w.setInUse out rows.length true).setThread thread
      (.resolving (.begin rows out w.table.currentBinding) (.releasing 0))) := by
  have hunused : ∀ v, ResolveCall.InSpan (.begin rows out w.table.currentBinding) v → w.inUse v = false := by
    intro v hv
    rw [← Bool.not_eq_true]
    intro huse
    refine hfree ⟨v - out, hv.sub_lt, ?_⟩
    rwa [show out + (v - out) = v from hv.add_sub]
  have hcases : ∀ k c p, Function.update w.threads thread
      (.resolving (.begin rows out w.table.currentBinding) (.releasing 0)) k = Pc.resolving c p →
      (k = thread ∧ c = (.begin rows out w.table.currentBinding) ∧ p = .releasing 0) ∨
        (k ≠ thread ∧ w.threads k = .resolving c p) := by
    intro k c p hk
    by_cases hkt : k = thread
    · rw [hkt, Function.update_self] at hk
      cases hk
      exact Or.inl ⟨hkt, rfl, rfl⟩
    · rw [Function.update_of_ne hkt] at hk
      exact Or.inr ⟨hkt, hk⟩
  have hkept : ∀ k c p, w.threads k = .resolving c p → k ≠ thread := by
    rintro k c p hk rfl
    rw [hidle] at hk
    cases hk
  refine ⟨⟨h.pins.keep (.refl _) rfl rfl rfl, fun k c p hk v hv => ?_,
    fun k k' c c' p p' hk hk' v hv hv' => ?_, fun k c p hk => ?_, fun v l hv hsettled => ?_⟩,
    h.pins.carries_of_keeps (.refl _), fun _ hid => hid, fun v l hv _ => Or.inr ⟨v, hv⟩⟩
  · show (if out ≤ v ∧ v < out + rows.length then true else w.inUse v) = true
    rcases hcases k c p hk with ⟨-, rfl, -⟩ | ⟨-, hold⟩
    · exact if_pos hv
    · rw [h.inUse k c p hold v hv, ite_self]
  · rcases hcases k c p hk with ⟨rfl, rfl, -⟩ | ⟨-, hold⟩ <;>
      rcases hcases k' c' p' hk' with ⟨rfl, rfl, -⟩ | ⟨-, hold'⟩
    · rfl
    · have huse := h.inUse k' c' p' hold' v hv'
      rw [hunused v hv] at huse
      cases huse
    · have huse := h.inUse k c p hold v hv
      rw [hunused v hv'] at huse
      cases huse
    · exact h.apart k k' c c' p p' hold hold' v hv hv'
  · rcases hcases k c p hk with ⟨-, rfl, rfl⟩ | ⟨-, hold⟩
    · exact ⟨rfl, ⟨List.nodup_nil, fun key hkey => by cases hkey⟩,
        fun j _ hj => absurd hj (Nat.not_lt_zero j)⟩
    · exact (h.call k c p hold).congr (fun _ _ => rfl) (fun _ hid => hid)
        (h.pins.carries_of_keeps (.refl _))
  · refine h.stable v l hv ?_
    rintro ⟨k, c, p, hk, hrest⟩
    exact hsettled ⟨k, c, p, (Function.update_of_ne (hkept k c p hk) ..).trans hk, hrest⟩

/-- A finished call leaves its variables. -/
theorem leaves (h : w.CallsInv fresh) {result : Except Status ℕ}
    (hpc : w.threads thread = .resolving call (.returned result)) :
    CallsStep fresh w ((w.setInUse call.out call.rows.length false).setThread thread .idle) := by
  have hcases : ∀ k c p, Function.update w.threads thread .idle k = Pc.resolving c p →
      k ≠ thread ∧ w.threads k = .resolving c p := by
    intro k c p hk
    by_cases hkt : k = thread
    · rw [hkt, Function.update_self] at hk
      cases hk
    · rw [Function.update_of_ne hkt] at hk
      exact ⟨hkt, hk⟩
  refine ⟨⟨h.pins.keep (.refl _) rfl rfl rfl, fun k c p hk v hv => ?_,
    fun k k' c c' p p' hk hk' v hv hv' => ?_, fun k c p hk => ?_, fun v l hv hsettled => ?_⟩,
    h.pins.carries_of_keeps (.refl _), fun _ hid => hid, fun v l hv _ => Or.inr ⟨v, hv⟩⟩
  · obtain ⟨hne, hold⟩ := hcases k c p hk
    show (if call.out ≤ v ∧ v < call.out + call.rows.length then false else w.inUse v) = true
    have hout : ¬ (call.out ≤ v ∧ v < call.out + call.rows.length) := fun hin =>
      hne (h.apart k thread c call p _ hold hpc v hv hin)
    rw [if_neg hout]
    exact h.inUse k c p hold v hv
  · exact h.apart k k' c c' p p' (hcases k c p hk).2 (hcases k' c' p' hk').2 v hv hv'
  · exact (h.call k c p (hcases k c p hk).2).congr (fun _ _ => rfl) (fun _ hid => hid)
      (h.pins.carries_of_keeps (.refl _))
  · refine h.stable v l hv ?_
    rintro ⟨k, c, p, hk, hin, hpending⟩
    have hne : k ≠ thread := by
      rintro rfl
      rw [hpc] at hk
      cases hk
      exact hpending
    exact hsettled ⟨k, c, p, (Function.update_of_ne hne ..).trans hk, hin, hpending⟩

end CallsInv

/-! ## Every step -/

/-- How many leases the step may take: one for `try_get`, one a row for phase A. -/
def leasesWanted (w : World cfg) : Action cfg → ℕ
  | .tryGet _ _ => 1
  | .advance thread _ =>
      match w.threads thread with
      | .resolving call .phaseA => call.rows.length
      | _ => 0
  | _ => 0

/-- With the leases the step may take, fewer than `2 ^ 32` leases are held. -/
def LeaseRoom (w : World cfg) (action : Action cfg) : Prop :=
  w.granted - w.released.length + w.leasesWanted action < 2 ^ 32

instance (w : World cfg) (action : Action cfg) : Decidable (w.LeaseRoom action) :=
  inferInstanceAs (Decidable (_ < _))

/-- The leases held are those granted and not released. -/
theorem PinInv.held_eq (h : w.PinInv) : w.held = w.granted - w.released.length := by
  have := h.live
  omega

namespace CallsInv

theorem tryGet (h : w.CallsInv fresh) (hidx : w.table.IndexInv) {row : UInt64} {v : LeaseVar}
    (hroom : w.held + 1 < 2 ^ 32) (hstep : w.tryGet row v = some w') : CallsStep fresh w w' := by
  have hcount := Table.findReady_spec hidx row
  unfold World.tryGet at hstep
  split_ifs at hstep with hguard hrange
  · cases hstep
    exact h.plain _ (.refl _) (fun _ _ _ => Iff.rfl) rfl rfl rfl rfl
  · rw [not_or, not_not] at hguard
    obtain ⟨⟨counters, htable⟩, hready⟩ := hcount
    have hkeeps : ∀ t, (w.table.findReady row).2 = t → Table.Keeps w.table t := by
      rintro t rfl
      rw [htable]
      exact ⟨rfl, fun _ => rfl, fun _ _ hs => .refl hs⟩
    split at hstep
    · rename_i t hfind
      cases hstep
      exact h.plain _ (hkeeps t (by rw [hfind])) (fun _ _ _ => Iff.rfl) rfl rfl rfl rfl
    · rename_i slot t hfind
      cases hstep
      have ht : t = { w.table with counters := counters } := by rw [← htable, hfind]
      obtain ⟨hslot, hkey⟩ := hready slot (by rw [hfind])
      have hkeep := hkeeps t (by rw [hfind])
      have hu : ({ w with table := t } : World cfg).PinInv := h.pins.keep hkeep rfl rfl rfl
      have hslot' : (t.slots slot).state = .ready := by
        rw [ht]
        exact hslot
      have hrow : (t.slots slot).rowIndex = row := by
        rw [ht]
        exact congrArg Prod.fst hkey
      have hpins := hu.grant (v := v) hguard.2 (t.publishedSpan slot) hroom
        (by rw [hslot']; decide) hrow
      have hcarries : w.CarriesLeases
          (({ w with table := t } : World cfg).grant v slot row (t.publishedSpan slot)) := by
        intro v' l hv'
        have hkept : w.CarriesLeases { w with table := t } := h.pins.carries_of_keeps hkeep
        have hold := hkept v' l hv'
        exact hold.trans ((t.pin_sameFill slot l.slot).carries hold.not_free)
      refine h.outside hpins (fun _ _ _ => Iff.rfl) rfl (fun v' huse => ?_) (fun _ hid => hid)
        hcarries (fun v' l hfree hv' => ?_) fun v' l _ hv' => Or.inr ⟨v', ?_⟩
      · refine Function.update_of_ne ?_ ..
        rintro rfl
        exact hguard.1 huse
      · by_cases hv : v' = v
        · subst hv
          have hself := (Function.update_self ..).symm.trans hv'
          cases hself
          obtain ⟨r, p, hr⟩ := t.pin_sameFill slot slot
          refine ⟨?_, ?_⟩
          · show ((t.pin slot).slots slot).state = _
            rw [hr]
            exact hslot'
          · show (t.pin slot).publishedSpan slot = _
            unfold Table.publishedSpan
            rw [hr]
        · have hold : w.leases v' = some l := (Function.update_of_ne hv ..).symm.trans hv'
          exact (h.stable v' l hold (h.settled_of_free hfree)).carries (hcarries v' l hold)
      · refine (Function.update_of_ne ?_ ..).trans hv'
        rintro rfl
        rw [hguard.2] at hv'
        cases hv'

theorem reset (h : w.CallsInv fresh) {v : LeaseVar} (hv : w.inUse v = false) :
    CallsStep fresh w (w.resetLease v) := by
  obtain ⟨hthreads, hinUse, hreleased, hreturned⟩ := h.pins.resetLease_frame v
  have hleases := h.pins.resetLease_leases v
  refine h.outside (h.pins.reset v) (fun _ _ _ => by rw [hthreads]) hinUse (fun v' huse => ?_)
    hreleased (h.pins.carries_reset v) (fun v' l hfree hv' => ?_) fun v' l _ hv' => ?_
  · rw [hleases]
    refine Function.update_of_ne ?_ ..
    rintro rfl
    rw [hv] at huse
    cases huse
  · rw [hleases] at hv'
    by_cases hne : v' = v
    · rw [hne, Function.update_self] at hv'
      cases hv'
    · rw [Function.update_of_ne hne] at hv'
      exact (h.stable v' l hv' (h.settled_of_free hfree)).carries (h.pins.carries_reset v v' l hv')
  · by_cases hne : v' = v
    · rw [hne] at hv'
      exact Or.inl (hreturned l hv')
    · refine Or.inr ⟨v', ?_⟩
      rw [hleases, Function.update_of_ne hne]
      exact hv'

/-- Dropping a ticket touches no lease. -/
theorem resetTicket (h : w.CallsInv fresh) (v : TicketVar) : CallsStep fresh w (w.resetTicket v) := by
  have hquiets := (w.resetTicket_quiets v).1
  unfold World.resetTicket at hquiets ⊢
  split
  · exact h.plain _ (.refl _) (fun _ _ _ => Iff.rfl) rfl rfl rfl rfl
  · rename_i ticket hticket
    rw [hticket] at hquiets
    dsimp only at hquiets
    split
    · exact h.plain _ (.refl _) (fun _ _ _ => Iff.rfl) rfl rfl rfl rfl
    · rename_i t hdiscard
      rw [hdiscard] at hquiets
      exact h.plain _ (.of_quiets hquiets) (fun _ _ _ => Iff.rfl) rfl rfl rfl rfl

/-- Moving a lease between variables that no call uses. -/
theorem move (h : w.CallsInv fresh) {source target : LeaseVar} (hsource : w.inUse source = false)
    (htarget : w.inUse target = false) : CallsStep fresh w (w.moveLease source target) := by
  have hpins := h.pins.moveLease source target
  unfold moveLease at hpins ⊢
  split_ifs at hpins ⊢ with hne
  · exact h.plain _ (.refl _) (fun _ _ _ => Iff.rfl) rfl rfl rfl rfl
  · have hreset := h.reset htarget
    refine hreset.trans ?_ rfl
    replace hreset := hreset.calls
    obtain ⟨-, hinUse, -, -⟩ := h.pins.resetLease_frame target
    have hempty : (w.resetLease target).leases target = none := by
      rw [h.pins.resetLease_leases, Function.update_self]
    generalize w.resetLease target = u at hpins hreset hinUse hempty ⊢
    rw [← hinUse] at hsource htarget
    have hcarries : u.CarriesLeases
        { u with
          leases := Function.update (Function.update u.leases target (u.leases source)) source
            none } :=
      hreset.pins.carries_of_keeps (.refl _)
    refine hreset.outside hpins (fun _ _ _ => Iff.rfl) rfl (fun v huse => ?_) (fun _ hid => hid)
      hcarries (fun v l hfree hv => ?_) fun v l _ hv => ?_
    · have hs : v ≠ source := by
        rintro rfl
        rw [hsource] at huse
        cases huse
      have ht : v ≠ target := by
        rintro rfl
        rw [htarget] at huse
        cases huse
      exact (Function.update_of_ne hs ..).trans (Function.update_of_ne ht ..)
    · by_cases hs : v = source
      · subst hs
        have hself := (Function.update_self ..).symm.trans hv
        cases hself
      · have hv' := (Function.update_of_ne hs ..).symm.trans hv
        by_cases ht : v = target
        · subst ht
          have hold := (Function.update_self ..).symm.trans hv'
          exact hreset.stable source l hold (hreset.settled_of_free hsource)
        · have hold := (Function.update_of_ne ht ..).symm.trans hv'
          exact hreset.stable v l hold (hreset.settled_of_free hfree)
    · by_cases hs : v = source
      · refine Or.inr ⟨target, ?_⟩
        rw [hs] at hv
        exact (Function.update_of_ne (Ne.symm hne) ..).trans ((Function.update_self ..).trans hv)
      · have ht : v ≠ target := by
          rintro rfl
          rw [hempty] at hv
          cases hv
        exact Or.inr ⟨v, (Function.update_of_ne hs ..).trans ((Function.update_of_ne ht ..).trans hv)⟩

/-- A thread inside a call takes a step. -/
theorem advance (h : w.CallsInv fresh) (hfill : w.FillInv) (hfails : w.table.FailInv)
    (hcurrent : fresh → w.table.CurrentInv) (hroom : w.LeaseRoom (.advance thread choice)) (hstep : w.advance thread choice = some w') :
    CallsStep fresh w w' := by
  unfold World.advance at hstep
  split at hstep
  · rename_i call pc hpc
    obtain ⟨⟨call', pc', u⟩, hresolve, rfl⟩ := Option.map_eq_some_iff.mp hstep
    refine h.resolveStep hfill hfails hcurrent hpc ?_ hresolve
    rintro rfl
    have hwanted : w.leasesWanted (.advance thread choice) = call.rows.length := by
      simp only [leasesWanted, hpc]
    rw [LeaseRoom, hwanted] at hroom
    rwa [h.pins.held_eq]
  · rename_i call outcome pc hpc
    obtain ⟨⟨outcome', pc', u⟩, hwait, rfl⟩ := Option.map_eq_some_iff.mp hstep
    obtain ⟨hmove, hthreads, -⟩ := waitStep_move hwait
    obtain ⟨hleases, hinUse, hgranted, hreleased⟩ := waitStep_leases hwait
    have hkeeps : Table.Keeps w.table u.table := by
      refine Table.keeps_of_callMove hmove fun slot fpc hbefore => ?_
      refine (hfill.driven (some thread) slot fpc ?_).1
      rw [finisher, hpc]
      exact hbefore
    refine h.plain (u.setThread thread (.waiting call outcome' pc')) hkeeps ?_ hleases hinUse
      hgranted hreleased
    exact calls_setThread hthreads (fun c p hk => by rw [hpc] at hk; cases hk)
      fun c p hk => by cases hk
  · rename_i deadline pc hpc
    obtain ⟨pc', hdrain, rfl⟩ := Option.map_eq_some_iff.mp hstep
    refine h.plain (w.setThread thread (.draining deadline pc')) (.refl _) ?_ rfl rfl rfl rfl
    exact calls_setThread rfl (fun c p hk => by rw [hpc] at hk; cases hk) fun c p hk => by cases hk
  · cases hstep

/-- Every step with room for its leases keeps the calls in order. -/
theorem step {action : Action cfg} (h : w.CallsInv fresh) (hfill : w.FillInv)
    (hfails : w.table.FailInv) (hcurrent : fresh → w.table.CurrentInv)
    (hroom : w.LeaseRoom action) (hstep : w.step action = some w') :
    CallsStep fresh w w' := by
  unfold World.step at hstep
  split_ifs at hstep
  cases action with
  | resolveInto thread rows out outSize =>
      have hstep : w.callResolve thread rows out outSize = some w' := hstep
      unfold callResolve at hstep
      split at hstep
      · rename_i hidle
        have hcalls : ∀ status, ∀ k c p, (w.setThread thread (.refused status)).threads k =
            .resolving c p ↔ w.threads k = .resolving c p := fun status =>
          calls_setThread rfl (fun c p hk => by rw [hidle] at hk; cases hk) fun c p hk => by cases hk
        split_ifs at hstep with hbatch hout hbusy <;> cases hstep
        · exact h.plain _ (.refl _) (hcalls _) rfl rfl rfl rfl
        · exact h.plain _ (.refl _) (hcalls _) rfl rfl rfl rfl
        · exact h.begins hidle hbusy
      · cases hstep
  | wait thread ticket deadline =>
      have hstep : w.callWait thread ticket deadline = some w' := hstep
      unfold callWait at hstep
      split at hstep
      · rename_i hidle
        have hbefore : ∀ c p, w.threads thread ≠ .resolving c p := fun c p hk => by
          rw [hidle] at hk
          cases hk
        split at hstep <;> cases hstep
        · exact h.plain (w.setThread thread _) (.refl _)
            (calls_setThread rfl hbefore fun c p hk => by cases hk) rfl rfl rfl rfl
        · exact h.plain ((w.setTicket _ _).setThread thread _) (.refl _)
            (calls_setThread rfl hbefore fun c p hk => by cases hk) rfl rfl rfl rfl
      · cases hstep
  | drain thread deadline =>
      have hstep : w.callDrain thread deadline = some w' := hstep
      unfold callDrain at hstep
      split at hstep
      · rename_i hidle
        cases hstep
        refine h.plain (w.setThread thread _) (.refl _) ?_ rfl rfl rfl rfl
        exact calls_setThread rfl (fun c p hk => by rw [hidle] at hk; cases hk)
          fun c p hk => by cases hk
      · cases hstep
  | advance thread choice => exact h.advance hfill hfails hcurrent hroom hstep
  | leave thread =>
      have hstep : w.leave thread = some w' := hstep
      unfold leave at hstep
      split at hstep
      · rename_i status hpc
        cases hstep
        refine h.plain (w.setThread thread _) (.refl _) ?_ rfl rfl rfl rfl
        exact calls_setThread rfl (fun c p hk => by rw [hpc] at hk; cases hk)
          fun c p hk => by cases hk
      · rename_i call result hpc
        cases hstep
        exact h.leaves hpc
      · rename_i call outcome hpc
        cases hstep
        refine h.plain ((w.setTicket _ _).setThread thread _) (.refl _) ?_ rfl rfl rfl rfl
        exact calls_setThread rfl (fun c p hk => by rw [hpc] at hk; cases hk)
          fun c p hk => by cases hk
      · rename_i deadline result hpc
        cases hstep
        refine h.plain (w.setThread thread _) (.refl _) ?_ rfl rfl rfl rfl
        exact calls_setThread rfl (fun c p hk => by rw [hpc] at hk; cases hk)
          fun c p hk => by cases hk
      · cases hstep
  | work choice =>
      obtain ⟨⟨pc, t⟩, hwork, rfl⟩ := Option.map_eq_some_iff.mp hstep
      refine h.plain _ ?_ (fun _ _ _ => Iff.rfl) rfl rfl rfl rfl
      exact Table.keeps_of_callMove (workerStep_move hwork) fun slot fpc hbefore =>
        (hfill.driven none slot fpc hbefore).1
  | tryGet row v =>
      refine h.tryGet hfill.index ?_ hstep
      rw [h.pins.held_eq]
      exact hroom
  | reset v =>
      have hstep : (if w.inUse v then none else some (w.resetLease v)) = some w' := hstep
      split_ifs at hstep with huse
      cases hstep
      exact h.reset (Bool.not_eq_true _ ▸ huse)
  | move source target =>
      have hstep : (if w.inUse source ∨ w.inUse target then none
        else some (w.moveLease source target)) = some w' := hstep
      split_ifs at hstep with huse
      cases hstep
      rw [not_or, Bool.not_eq_true, Bool.not_eq_true] at huse
      exact h.move huse.1 huse.2
  | prefetch rows v answers =>
      have hstep : w.prefetch rows v answers = some w' := hstep
      have hquiets := Table.prefetch_quiets hfill.index answers rows
      unfold prefetch at hstep
      split_ifs at hstep
      split at hstep <;> rename_i hprefetch <;> rw [hprefetch] at hquiets <;> cases hstep <;>
        exact h.plain _ (.of_quiets hquiets) (fun _ _ _ => Iff.rfl) rfl rfl rfl rfl
  | dropTicket v =>
      have hstep : (if (w.tickets v).users ≠ 0 then none else some (w.resetTicket v)) = some w' :=
        hstep
      split_ifs at hstep
      cases hstep
      exact h.resetTicket v
  | moveTicket source target =>
      have hstep : (if (w.tickets source).users ≠ 0 ∨ (w.tickets target).users ≠ 0 then none
        else some (w.moveTicket source target)) = some w' := hstep
      split_ifs at hstep
      cases hstep
      have hreset := h.resetTicket target
      unfold moveTicket
      split_ifs
      · exact h.plain _ (.refl _) (fun _ _ _ => Iff.rfl) rfl rfl rfl rfl
      · exact hreset.trans
          (hreset.calls.plain _ (.refl _) (fun _ _ _ => Iff.rfl) rfl rfl rfl rfl) rfl
  | invalidate creation generation sources resolver =>
      cases hstep
      exact h.plain _ (.invalidate ..) (fun _ _ _ => Iff.rfl) rfl rfl rfl rfl
  | deliver id status =>
      cases hstep
      refine h.plain _ (.of_quiets ?_) (fun _ _ _ => Iff.rfl) rfl rfl rfl rfl
      exact .single (.deliveries (w.table.deliver_deliveries id status))

end CallsInv

/-! ## Runs -/

/-- Every step records why a slot failed. -/
theorem failInv_step {action : Action cfg} (hfill : w.FillInv) (h : w.table.FailInv)
    (hstep : w.step action = some w') : w'.table.FailInv := by
  cases step_move hfill.index hstep with
  | edits htable hlocal hsame => exact htable.invariant (fun _ _ hu hedit => hu.edit hedit) h
  | tookOver g slot hagent hbefore hfilling hunclaimed htable hnow hothers =>
      rw [htable]
      exact h.update rfl (h slot)
  | finishing g slot pc next deadline choice hagent hbefore hfinish hnow hothers =>
      have hmove := Table.finishStep_move (hfill.driven g slot pc hbefore).1 hfinish
      generalize w'.table = t' at hmove
      cases hmove with
      | stays next => exact h
      | relinquished hpc => exact h.update rfl (h slot)
      | published result hpc =>
          refine h.update rfl fun hfailed => ?_
          by_cases hok : result = .ok
          · simp [hok] at hfailed
          · simp [hok]

/-- Failed slots record why in every reachable state. -/
theorem failInv_of_reachable {h : cfg.Accepted}
    (hw : Reachable World.step (World.start cfg h) w) : w.table.FailInv :=
  hw.invariant_of (fun _ => fillInv_of_reachable) (Table.FailInv.create h)
    fun _ _ _ hfill hinv _ hstep => failInv_step hfill hinv hstep

/-- In every run with room for its leases, running calls are in order. -/
theorem callsInv_of_reaches {h : cfg.Accepted} {allowed : World cfg → Action cfg → Prop}
    (hroom : ∀ w action, allowed w action → w.LeaseRoom action)
    (hcurrent : ∀ w, Reaches World.step allowed (World.start cfg h) w → fresh →
      w.table.CurrentInv)
    (hw : Reaches World.step allowed (World.start cfg h) w) : w.CallsInv fresh := by
  have hknown : ∀ w, Reaches World.step allowed (World.start cfg h) w →
      w.FillInv ∧ w.table.FailInv ∧ (fresh → w.table.CurrentInv) := fun w hw =>
    ⟨fillInv_of_reachable hw.reachable, failInv_of_reachable hw.reachable, hcurrent w hw⟩
  exact hw.invariant_of hknown (.start h) fun u action u' hinv hcalls hallowed hstep =>
    (hcalls.step hinv.1 hinv.2.1 hinv.2.2 (hroom u action hallowed) hstep).calls

end World

end TieredCache
