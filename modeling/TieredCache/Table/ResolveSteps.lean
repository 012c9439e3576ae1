/-
# The steps of a call of resolve_into

Every step of a call takes it from one point to the next with its entries in order: the
entries are emptied, filled in one section, seen ready one after the other, or emptied
again.
-/

import TieredCache.Table.Calls

namespace TieredCache

open Math.Runs

variable {cfg : TableConfig}

namespace Table

variable {t t' : Table cfg} {slot : cfg.SlotId}

/-- Without a deadline `finish_fill` does not time out. -/
theorem finishStep_ne_timedOut {choice : Choice} {pc next : FinishPc} (hpc : pc ≠ .timedOut)
    (h : t.finishStep slot false choice pc = some (some next, t')) : next ≠ .timedOut := by
  cases pc with
  | enter =>
      unfold finishStep at h
      dsimp only at h
      split_ifs at h <;> cases h
      simp
  | waiting pending =>
      cases pending with
      | nil =>
          unfold finishStep at h
          dsimp only at h
          split_ifs at h <;> cases h <;> simp
      | cons id rest =>
          unfold finishStep at h
          simp only [Bool.false_and] at h
          split at h <;> cases h <;> simp
  | timedOut => exact absurd rfl hpc
  | convert =>
      cases h
      simp
  | publish result => cases h

/-- A fill that has been driven to its end is ready or failed. -/
theorem finishStep_ended {deadline : Bool} {choice : Choice} {pc : FinishPc}
    (hpc : pc ≠ .timedOut) (hfill : (t.slots slot).state = .filling)
    (h : t.finishStep slot deadline choice pc = some (none, t')) :
    (t'.slots slot).state ≠ .filling := by
  cases finishStep_move hfill h with
  | relinquished htimed => exact absurd htimed hpc
  | published result =>
      rw [show (t.publish slot result).slots slot = _ from Function.update_self ..]
      dsimp only
      split_ifs <;> decide

end Table

namespace World

variable {w w' u : World cfg} {fresh : Prop} {thread : ThreadId} {call call' : ResolveCall}
  {pc pc' : ResolvePc cfg} {choice : Choice}

/-- A reset only returns leases, and the lease it finds is returned. -/
theorem PinInv.resetLease_frame (h : w.PinInv) (v : LeaseVar) :
    (w.resetLease v).threads = w.threads ∧ (w.resetLease v).inUse = w.inUse ∧
      (∀ id ∈ w.released, id ∈ (w.resetLease v).released) ∧
      ∀ l, w.leases v = some l → l.id ∈ (w.resetLease v).released := by
  cases hv : w.leases v with
  | none =>
      rw [resetLease_none hv]
      exact ⟨rfl, rfl, fun _ hid => hid, fun l hl => by cases hl⟩
  | some l =>
      rw [h.resetLease_some hv]
      refine ⟨rfl, rfl, fun id hid => List.mem_cons_of_mem _ hid, ?_⟩
      rintro l' ⟨⟩
      exact List.mem_cons_self

namespace CallsInv

/-- One call moves on in a state that keeps everything else in order. -/
theorem moved (h : w.CallsInv fresh) (hpc : w.threads thread = .resolving call pc)
    (hthreads : u.threads = w.threads) (hout : call'.out = call.out)
    (hrows : call'.rows = call.rows) (hpins : u.PinInv) (hinUse : u.inUse = w.inUse)
    (hleases : ∀ v, ¬ call.InSpan v → u.leases v = w.leases v)
    (hreleased : ∀ id ∈ w.released, id ∈ u.released) (hcarries : w.CarriesLeases u)
    (hcall : u.CallInv fresh call' pc')
    (hstable : ∀ v l, call.InSpan v → u.leases v = some l → ¬ pc'.Pending (v - call.out) →
      Stable u.table l)
    (hkept : ∀ v l, call.InSpan v → w.leases v = some l → Stable w.table l →
      l.id ∈ u.released ∨ ∃ v', u.leases v' = some l) :
    CallsStep fresh w (u.setThread thread (.resolving call' pc')) :=
  h.inside hpc (by rw [← hthreads]; rfl) hout hrows (hpins.keep (.refl _) rfl rfl rfl) hinUse
    hleases hreleased hcarries (hcall.congr (fun _ _ => rfl) (fun _ hid => hid)
      (hpins.carries_of_keeps (.refl _))) hstable hkept

/-- An entry that is not pending is settled. -/
theorem settled (h : w.CallsInv fresh) (hpc : w.threads thread = .resolving call pc) {v : ℕ}
    (hin : call.InSpan v) (hnot : ¬ pc.Pending (v - call.out)) : ¬ w.Unsettled v := by
  rintro ⟨k, c, p, hk, hv, hpending⟩
  have hsame := h.apart k thread c call p pc hk hpc v hv hin
  rw [hsame, hpc] at hk
  cases hk
  exact hnot hpending

/-- The call goes on without touching a lease. -/
theorem goesOn (h : w.CallsInv fresh) (hpc : w.threads thread = .resolving call pc) {t : Table cfg}
    (htable : Table.Keeps w.table t)
    (hcall : ({ w with table := t } : World cfg).CallInv fresh call pc')
    (hpending : ∀ j < call.rows.length, w.leases (call.out + j) ≠ none → ¬ pc'.Pending j →
      ¬ pc.Pending j) :
    CallsStep fresh w (({ w with table := t } : World cfg).setThread thread (.resolving call pc')) := by
  have hcarries : w.CarriesLeases { w with table := t } := h.pins.carries_of_keeps htable
  refine h.moved hpc rfl rfl rfl (h.pins.keep htable rfl rfl rfl) rfl (fun _ _ => rfl)
    (fun _ hid => hid) hcarries hcall (fun v l hin hv hnot => ?_)
    fun v l _ hv _ => Or.inr ⟨v, hv⟩
  have hheld : w.leases (call.out + (v - call.out)) ≠ none := by
    rw [hin.add_sub, show w.leases v = some l from hv]
    simp
  exact (h.stable v l hv (h.settled hpc hin (hpending _ hin.sub_lt hheld hnot))).carries
    (hcarries v l hv)

/-- The call gives one entry's lease back, and no other entry changes. -/
theorem resets (h : w.CallsInv fresh) (hpc : w.threads thread = .resolving call pc) {i : ℕ}
    (hi : i < call.rows.length) (hcall : (w.resetLease (call.out + i)).CallInv fresh call pc')
    (hpending : ∀ j, ¬ pc'.Pending j → ¬ pc.Pending j) :
    CallsStep fresh w ((w.resetLease (call.out + i)).setThread thread (.resolving call pc')) := by
  obtain ⟨hthreads, hinUse, hreleased, hreturned⟩ := h.pins.resetLease_frame (call.out + i)
  have hleases := h.pins.resetLease_leases (call.out + i)
  have hback : ∀ v l, (w.resetLease (call.out + i)).leases v = some l → w.leases v = some l := by
    intro v l hv
    rw [hleases] at hv
    by_cases hvi : v = call.out + i
    · rw [hvi, Function.update_self] at hv
      cases hv
    · rwa [Function.update_of_ne hvi] at hv
  refine h.moved hpc hthreads rfl rfl (h.pins.reset _) hinUse (fun v hv => ?_) hreleased
    (h.pins.carries_reset _) hcall (fun v l hin hv hnot => ?_) fun v l _ hv _ => ?_
  · rw [hleases]
    refine Function.update_of_ne ?_ ..
    rintro rfl
    exact hv (inSpan_add hi)
  · exact (h.stable v l (hback v l hv) (h.settled hpc hin (hpending _ hnot))).carries
      (h.pins.carries_reset _ v l (hback v l hv))
  · by_cases hvi : v = call.out + i
    · rw [hvi] at hv
      exact Or.inl (hreturned l hv)
    · refine Or.inr ⟨v, ?_⟩
      rw [hleases, Function.update_of_ne hvi]
      exact hv

/-- The outcome of row `i` is read: its entry exposes the ready row, or the call starts
to give back every lease. -/
theorem settleRow (h : w.CallsInv fresh) (hfails : w.table.FailInv)
    (hpc : w.threads thread = .resolving call pc) (hfull : w.Full fresh call) {i : ℕ}
    (hi : i < call.rows.length) (hpending : ∀ j, pc.Pending j → i ≤ j) {lease : Lease cfg}
    (hlease : w.leases (call.out + i) = some lease)
    (hended : (w.table.slots lease.slot).state ≠ .filling)
    (hsettle : w.settleRow call i lease = (pc', u)) :
    CallsStep fresh w (u.setThread thread (.resolving call pc')) := by
  have hnames := h.pins.names _ _ hlease
  unfold World.settleRow at hsettle
  dsimp only at hsettle
  rw [if_neg (not_not.mpr hnames.epoch)] at hsettle
  split_ifs at hsettle with hready
  · cases hsettle
    have hat : ∀ v : ℕ, v ≠ call.out + i → Function.update w.leases (call.out + i)
        (some { lease with bytes := w.table.publishedSpan lease.slot }) v = w.leases v :=
      fun v hv => Function.update_of_ne hv ..
    refine h.moved hpc rfl rfl rfl (h.pins.rebytes hlease _) rfl (fun v hv => ?_) (fun _ hid => hid)
      (h.pins.carries_of_keeps (.refl _)) ?_ (fun v l hin hv hnot => ?_)
      fun v l _ hv hstable => Or.inr ⟨v, ?_⟩
    · refine hat v ?_
      rintro rfl
      exact hv (inSpan_add hi)
    · refine ⟨hfull.taken_length, hfull.fetched, fun j hj => ?_⟩
      by_cases hji : j = i
      · subst hji
        obtain ⟨l, hl, hrest⟩ := hfull.taken j hj
        rw [hlease] at hl
        cases hl
        exact ⟨_, Function.update_self .., hrest⟩
      · exact (hfull.taken j hj).congr (hat _ (by omega))
    · by_cases hvi : v = call.out + i
      · subst hvi
        have hself := (Function.update_self ..).symm.trans hv
        cases hself
        exact ⟨hready, rfl⟩
      · have hold : w.leases v = some l := (hat v hvi).symm.trans hv
        refine h.stable v l hold (h.settled hpc hin fun hp => hnot ?_)
        refine Nat.lt_of_le_of_ne (hpending _ hp) fun heq => hvi ?_
        rw [heq, hin.add_sub]
    · by_cases hvi : v = call.out + i
      · rw [hvi, hlease] at hv
        cases hv
        -- The row had been seen ready before, so the same bytes are written again.
        rw [hvi]
        refine (Function.update_self ..).trans ?_
        rw [hstable.bytes]
      · exact (hat v hvi).trans hv
  · have hfailed : (w.table.slots lease.slot).state = .failed := by
      cases hstate : (w.table.slots lease.slot).state with
      | free => exact absurd hstate hnames.not_free
      | filling => exact absurd hstate hended
      | ready => exact absurd hstate hready
      | failed => rfl
    have hne := hfails lease.slot hfailed
    rw [afterRow, if_neg hne] at hsettle
    cases hsettle
    refine h.goesOn hpc (.refl _) ⟨hne, hfull.taken_length, le_rfl, hfull.fetched,
      fun j hj hout => ?_, fun j hj => absurd hj (Nat.not_lt_zero j), fun j hj _ => hfull.taken j hj⟩
      fun j hj _ hnot => absurd trivial hnot
    omega

/-- Phase A takes a lease on every row, or stops and starts to give back those it took. -/
theorem phaseA (h : w.CallsInv fresh) (hidx : w.table.IndexInv)
    (hcurrent : fresh → w.table.CurrentInv)
    (hpc : w.threads thread = .resolving call .phaseA)
    (hroom : w.held + call.rows.length < 2 ^ 32)
    (hstep : w.resolveStep call choice .phaseA = some (call', pc', u)) :
    CallsStep fresh w (u.setThread thread (.resolving call' pc')) := by
  obtain ⟨-, -, hempty⟩ := h.call thread call .phaseA hpc
  obtain ⟨count, hcount, hbatch⟩ := admitRows_spec choice.answers call.out call.rows 0 h.pins hidx
    hroom (fun j hj => by simpa using hempty j hj)
  unfold World.resolveStep at hstep
  dsimp only at hstep
  rw [Nat.zero_add] at hcount
  rw [hcount] at hstep
  generalize (admitRows choice.answers call.out 0 call.rows w).2.2 = w₁ at hbatch hstep
  generalize (admitRows choice.answers call.out 0 call.rows w).2.1 = failure at hbatch hstep
  generalize hcall' : ({ call with
      generation := w.table.currentGeneration
      binding := w.table.currentBinding
      taken := List.range' w.granted count
      fetched := w₁.table.fetchLog.take
        (w₁.table.fetchLog.length - w.table.fetchLog.length) } : ResolveCall) = next at hstep
  have hout : next.out = call.out := by rw [← hcall']
  have hrows : next.rows = call.rows := by rw [← hcall']
  have htakenList : next.taken = List.range' w.granted count := by rw [← hcall']
  have hfetched : FetchedOnce next := by
    obtain ⟨keys, hlog, hnodup, hkeys⟩ := hbatch.fetched
    have heq : next.fetched = keys := by
      rw [← hcall']
      dsimp only
      rw [hlog, List.length_append, Nat.add_sub_cancel, List.take_left']
      rfl
    refine ⟨by rw [heq]; exact hnodup, fun key hkey => ?_⟩
    rw [heq] at hkey
    obtain ⟨-, ⟨row, hrow, hk⟩, -⟩ := hkeys key hkey
    refine ⟨row, by rw [hrows]; exact hrow, ?_⟩
    rw [← hcall']
    exact hk
  have htaken : ∀ j < count, w₁.Taken fresh next j := by
    intro j hj
    obtain ⟨l, hl, hrow, hgeneration, hid, hthrough⟩ := hbatch.taken j hj
    refine ⟨l, by rwa [hout, show call.out + j = call.out + 0 + j from rfl], by rwa [hrows], ?_, ?_,
      fun hfresh => ?_⟩
    · rw [← hcall']
      exact hgeneration
    · rw [htakenList, List.getElem?_range' hj, hid, Nat.one_mul]
    · rw [← hcall']
      exact hthrough (hcurrent hfresh)
  have hrest : ∀ j, count ≤ j → j < call.rows.length → w₁.leases (call.out + j) = none := by
    intro j hj hlt
    rw [hbatch.others (call.out + j) (by omega)]
    exact hempty j hlt
  have hmoved : ∀ pc, w₁.CallInv fresh next pc → (∀ j < count, pc.Pending j) →
      CallsStep fresh w (w₁.setThread thread (.resolving next pc)) := by
    intro pc hcall hpending
    refine h.moved hpc hbatch.threads hout hrows hbatch.pins hbatch.inUse (fun v hv => ?_)
      (fun id hid => by rw [hbatch.released]; exact hid) hbatch.carries hcall
      (fun v l hin hv hnot => ?_) fun v l hin hv _ => ?_
    · refine hbatch.others v fun hin => hv ⟨hin.1, lt_of_lt_of_le hin.2 ?_⟩
      exact Nat.add_le_add_left hbatch.count_le _
    · exfalso
      have hge : count ≤ v - call.out := Nat.le_of_not_lt fun hlt => hnot (hpending _ hlt)
      have hnone := hrest _ hge hin.sub_lt
      rw [hin.add_sub, hv] at hnone
      cases hnone
    · have hnone := hempty _ hin.sub_lt
      rw [hin.add_sub, hv] at hnone
      cases hnone
  split_ifs at hstep with hok <;> cases hstep
  · have hall := hbatch.count_eq hok
    refine hmoved _ ⟨?_, hfetched, fun j hj => htaken j ?_⟩ fun j _ => Nat.zero_le j
    · rw [htakenList, List.length_range', hall, hrows]
    · rwa [hrows, ← hall] at hj
  · refine hmoved _ ⟨hok, ?_, ?_, hfetched, fun j hj hor => ?_,
      fun j hj => absurd hj (Nat.not_lt_zero j), fun j hj _ => htaken j hj⟩ fun j _ => trivial
    · rw [htakenList, List.length_range']
    · rw [hrows]
      exact hbatch.count_le
    · rw [hrows] at hj
      rw [hout]
      exact hrest j (hor.resolve_left (Nat.not_lt_zero j)) hj

/-- A call steps from one point to the next with its entries in order. -/
theorem resolveStep (h : w.CallsInv fresh) (hfill : w.FillInv) (hfails : w.table.FailInv)
    (hcurrent : fresh → w.table.CurrentInv) (hpc : w.threads thread = .resolving call pc)
    (hroom : pc = .phaseA → w.held + call.rows.length < 2 ^ 32)
    (hstep : w.resolveStep call choice pc = some (call', pc', u)) :
    CallsStep fresh w (u.setThread thread (.resolving call' pc')) := by
  have hcall := h.call thread call pc hpc
  cases pc with
  | releasing i =>
      obtain ⟨htaken, hfetched, hempty⟩ := hcall
      unfold World.resolveStep at hstep
      dsimp only at hstep
      split_ifs at hstep with hi hrange <;> cases hstep
      · refine h.resets hpc hi ⟨htaken, hfetched, fun j hj hji => ?_⟩ fun j _ => id
        rw [h.pins.resetLease_leases]
        by_cases heq : j = i
        · rw [heq, Function.update_self]
        · rw [Function.update_of_ne fun hv => heq (Nat.add_left_cancel hv)]
          exact hempty j hj (by omega)
      · refine h.goesOn hpc (.refl _) ⟨by decide, hfetched, fun j hj => hempty j hj (by omega), ?_⟩
          fun j _ _ => id
        rw [htaken]
        exact fun id hid => by cases hid
      · exact h.goesOn hpc (.refl _) ⟨htaken, hfetched, fun j hj => hempty j hj (by omega)⟩
          fun j _ _ => id
  | phaseA => exact h.phaseA hfill.index hcurrent hpc (hroom rfl) hstep
  | unwind i count failure =>
      obtain ⟨hne, hlength, hle, hfetched, hempty, hback, htaken⟩ := hcall
      unfold World.resolveStep at hstep
      dsimp only at hstep
      obtain ⟨-, -, hreleased, hreturned⟩ := h.pins.resetLease_frame (call.out + i)
      split_ifs at hstep with hi <;> cases hstep
      · have hentry : ∀ j, j ≠ i → (w.resetLease (call.out + i)).leases (call.out + j) =
            w.leases (call.out + j) := fun j hj => by
          rw [h.pins.resetLease_leases]
          exact Function.update_of_ne (fun heq => hj (Nat.add_left_cancel heq)) ..
        refine h.resets hpc (lt_of_lt_of_le hi hle) ⟨hne, hlength, hle, hfetched,
          fun j hj hor => ?_, fun j hj id hid => ?_, fun j hj hij => ?_⟩ fun j hnot => absurd trivial hnot
        · by_cases hji : j = i
          · rw [hji, h.pins.resetLease_leases, Function.update_self]
          · rw [hentry j hji]
            exact hempty j hj (by omega)
        · rcases Nat.lt_succ_iff_lt_or_eq.mp hj with hlt | rfl
          · exact hreleased id (hback j hlt id hid)
          · obtain ⟨l, hl, -, -, hl', -⟩ := htaken j hi le_rfl
            rw [hid] at hl'
            cases hl'
            exact hreturned l hl
        · exact (htaken j hj (by omega)).congr (hentry j (by omega))
      · refine h.goesOn hpc (.refl _) ⟨hne, hfetched, fun j hj => hempty j hj (by omega),
          fun id hid => ?_⟩ fun j hj hheld => absurd (hempty j hj (by omega)) hheld
        obtain ⟨j, hj⟩ := List.mem_iff_getElem?.mp hid
        have hjlt := (List.getElem?_eq_some_iff.mp hj).1
        exact hback j (by omega) id hj
  | drive i =>
      have hfull : w.Full fresh call := hcall
      unfold World.resolveStep at hstep
      dsimp only at hstep
      split_ifs at hstep with hi
      · split at hstep
        · cases hstep
        · rename_i lease hlease
          rw [if_neg (not_not.mpr (h.pins.names _ _ hlease).epoch)] at hstep
          split_ifs at hstep with hfilling hfinishing
          · cases hstep
            exact h.goesOn hpc (.refl _) ⟨hfull, hi⟩ fun j _ _ => id
          · cases hstep
            refine h.goesOn hpc (.takeOver _ _) ⟨hfull.congr fun _ _ => rfl, hi, by simp,
              fun l hl => ?_⟩ fun j _ _ => id
            rw [hlease] at hl
            cases hl
            rfl
          · obtain ⟨rfl, hsettle⟩ := Prod.mk.inj (Option.some.inj hstep)
            exact h.settleRow hfails hpc hfull hi (fun j hj => hj) hlease hfilling hsettle
      · cases hstep
        refine h.goesOn hpc (.refl _) ⟨rfl, hfull⟩ fun j hj _ _ (hle : i ≤ j) => ?_
        omega
  | finishing i slot fpc =>
      obtain ⟨hfull, hi, hne, hslot⟩ := hcall
      have hfilling := (hfill.driven (some thread) slot fpc (by rw [finisher, hpc]; rfl)).1
      unfold World.resolveStep at hstep
      dsimp only at hstep
      split at hstep
      · cases hstep
      · rename_i next t hfinish
        cases hstep
        exact h.goesOn hpc (.finishStep hfilling hfinish) ⟨hfull.congr fun _ _ => rfl, hi,
          Table.finishStep_ne_timedOut hne hfinish, hslot⟩ fun j _ _ => id
      · rename_i t hfinish
        cases hstep
        refine h.goesOn hpc (.finishStep hfilling hfinish) ⟨hfull.congr fun _ _ => rfl, hi,
          fun l hl => ?_⟩ fun j _ _ => id
        rw [hslot l hl]
        exact Table.finishStep_ended hne hfilling hfinish
  | settle i =>
      obtain ⟨hfull, hi, hended⟩ := hcall
      unfold World.resolveStep at hstep
      dsimp only at hstep
      split at hstep
      · cases hstep
      · rename_i lease hlease
        obtain ⟨rfl, hsettle⟩ := Prod.mk.inj (Option.some.inj hstep)
        exact h.settleRow hfails hpc hfull hi (fun j hj => hj) hlease (hended lease hlease) hsettle
  | asleep i since =>
      obtain ⟨hfull, hi⟩ := hcall
      unfold World.resolveStep at hstep
      dsimp only at hstep
      split_ifs at hstep
      split at hstep
      · cases hstep
      · rename_i lease hlease
        split_ifs at hstep with hwake
        · obtain ⟨rfl, hsettle⟩ := Prod.mk.inj (Option.some.inj hstep)
          have hepoch := (h.pins.names _ _ hlease).epoch
          exact h.settleRow hfails hpc hfull hi (fun j hj => hj) hlease
            (hwake.resolve_left (not_not.mpr hepoch)) hsettle
        · cases hstep
          exact h.goesOn hpc (.refl _) ⟨hfull, hi⟩ fun j _ _ => id
  | returned result => cases hstep

end CallsInv

end World

end TieredCache
