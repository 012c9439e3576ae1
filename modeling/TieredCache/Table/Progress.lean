/-
# What is left to do

How much the calls that have been made, the worker and the transport have left to do.  Admissions
come first, since one may start any number of fills; then notifications, since one may wake every
sleeper; every other step leaves less of the rest.
-/

import TieredCache.Math.Ranks
import TieredCache.Table.Finishers

namespace TieredCache

open Math.Ranks Math.Runs

variable {cfg : TableConfig}

/-! ## The table's part -/

namespace Slot

/-- The claims `finish_fill` waits for. -/
def awaited (s : Slot cfg) : List RequestId :=
  if s.chunkClaims = [] then s.claim.toList else s.chunkClaims

/-- One, if the slot is being filled. -/
def fills (s : Slot cfg) : ℕ := if s.state = .filling then 1 else 0

/-- What there is to do for a fill that nobody has taken over. -/
def unclaimed (s : Slot cfg) : ℕ :=
  if s.state = .filling ∧ s.finishing = false then s.awaited.length + 5 else 0

end Slot

namespace Table

variable {t t' : Table cfg} {slot : cfg.SlotId} {deadline : Bool} {choice : Choice}

/-- How many slots are being filled. -/
def fillsLeft (t : Table cfg) : ℕ := ∑ s ∈ Finset.univ, (t.slots s).fills

/-- What there is to do for all fills that nobody has taken over. -/
def unclaimedLeft (t : Table cfg) : ℕ := ∑ s ∈ Finset.univ, (t.slots s).unclaimed

/-- How many requests have yet to be delivered. -/
def requestsLeft (t : Table cfg) : ℕ :=
  ∑ id ∈ Finset.range t.requestCount, if (t.requests id).Live then 1 else 0

/-- One, if a thread asleep since then has a notification to wake up for. -/
def wakesFor (t : Table cfg) (since : ℕ) : ℕ := if since < t.notifications then 1 else 0

/-- What a thread in `finish_fill` has left to do. -/
def finishLeft (t : Table cfg) (slot : cfg.SlotId) : FinishPc → ℕ
  | .enter => (t.slots slot).awaited.length + 4
  | .waiting pending => pending.length + 3
  | .convert => 2
  | .timedOut => 1
  | .publish _ => 1

/-- Nobody is notified, and no fill's claims change. -/
structure Unmoved (t t' : Table cfg) : Prop where
  notifications : t'.notifications = t.notifications
  awaited : ∀ s, (t'.slots s).awaited = (t.slots s).awaited

theorem Unmoved.refl (t : Table cfg) : Unmoved t t := ⟨rfl, fun _ => rfl⟩

theorem Unmoved.finishLeft (h : Unmoved t t') (slot : cfg.SlotId) (pc : FinishPc) :
    t'.finishLeft slot pc = t.finishLeft slot pc := by
  cases pc with
  | enter => exact congrArg (fun claims => claims.length + 4) (h.awaited slot)
  | _ => rfl

theorem Unmoved.wakesFor (h : Unmoved t t') (since : ℕ) : t'.wakesFor since = t.wakesFor since := by
  unfold Table.wakesFor
  rw [h.notifications]

theorem wakesFor_now (t : Table cfg) : t.wakesFor t.notifications = 0 :=
  if_neg (Nat.lt_irrefl _)

theorem wakesFor_pending {since : ℕ} (h : since < t.notifications) : t.wakesFor since = 1 :=
  if_pos h

/-! ## Changes of one slot -/

theorem fillsLeft_update (t t' : Table cfg) (slot : cfg.SlotId) {s' : Slot cfg}
    (hslots : t'.slots = Function.update t.slots slot s') :
    t'.fillsLeft + (t.slots slot).fills = t.fillsLeft + s'.fills := by
  unfold fillsLeft
  rw [hslots]
  exact sum_update Slot.fills (Finset.mem_univ slot)

theorem unclaimedLeft_update (t t' : Table cfg) (slot : cfg.SlotId) {s' : Slot cfg}
    (hslots : t'.slots = Function.update t.slots slot s') :
    t'.unclaimedLeft + (t.slots slot).unclaimed = t.unclaimedLeft + s'.unclaimed := by
  unfold unclaimedLeft
  rw [hslots]
  exact sum_update Slot.unclaimed (Finset.mem_univ slot)

/-- A change of one slot that keeps its claims. -/
theorem unmoved_update {s' : Slot cfg} (hslots : t'.slots = Function.update t.slots slot s')
    (hnotifications : t'.notifications = t.notifications)
    (hawaited : s'.awaited = (t.slots slot).awaited) : Unmoved t t' := by
  refine ⟨hnotifications, fun s => ?_⟩
  rw [hslots]
  by_cases hs : s = slot
  · rw [hs, Function.update_self, hawaited]
  · rw [Function.update_of_ne hs]

/-- What a step may do to the table while nobody is notified and no fill begins or ends. -/
structure Idles (t t' : Table cfg) : Prop where
  unmoved : Unmoved t t'
  fills : t'.fillsLeft = t.fillsLeft
  requests : t'.requestsLeft = t.requestsLeft

theorem Idles.refl (t : Table cfg) : Idles t t := ⟨.refl t, rfl, rfl⟩

/-- Giving a pin up. -/
theorem unpinLocked_idles (t : Table cfg) (slot : cfg.SlotId) :
    Idles t (t.unpinLocked slot) ∧ (t.unpinLocked slot).unclaimedLeft = t.unclaimedLeft := by
  have hfills := fillsLeft_update t (t.unpinLocked slot) slot rfl
  have hunclaimed := unclaimedLeft_update t (t.unpinLocked slot) slot rfl
  refine ⟨⟨unmoved_update rfl rfl rfl, ?_, rfl⟩, ?_⟩
  · exact Nat.add_right_cancel hfills
  · exact Nat.add_right_cancel hunclaimed

/-- Taking a fill over. -/
theorem takeOver_idles (hfilling : (t.slots slot).state = .filling)
    (hunclaimed : (t.slots slot).finishing = false) :
    Idles t (t.takeOver slot) ∧
      (t.takeOver slot).unclaimedLeft + ((t.slots slot).awaited.length + 5) = t.unclaimedLeft := by
  have hfills := fillsLeft_update t (t.takeOver slot) slot rfl
  have hleft := unclaimedLeft_update t (t.takeOver slot) slot rfl
  refine ⟨⟨unmoved_update rfl rfl rfl, ?_, rfl⟩, ?_⟩
  · exact Nat.add_right_cancel hfills
  · have hbefore : (t.slots slot).unclaimed = (t.slots slot).awaited.length + 5 :=
      if_pos ⟨hfilling, hunclaimed⟩
    have hafter : ({ t.slots slot with finishing := true } : Slot cfg).unclaimed = 0 :=
      if_neg fun h => Bool.noConfusion h.2
    rw [hbefore, hafter] at hleft
    exact hleft

/-- The end of a fill. -/
theorem publish_fillsLeft (hfilling : (t.slots slot).state = .filling) (result : Status) :
    (t.publish slot result).fillsLeft + 1 = t.fillsLeft := by
  have hfills := fillsLeft_update t (t.publish slot result) slot rfl
  have hbefore : (t.slots slot).fills = 1 := if_pos hfilling
  rw [hbefore] at hfills
  rw [hfills]
  unfold Slot.fills
  dsimp only
  split_ifs <;> simp_all

/-- A fill that is given up goes on. -/
theorem relinquish_fillsLeft (t : Table cfg) (slot : cfg.SlotId) :
    (t.relinquish slot).fillsLeft = t.fillsLeft := by
  have hfills := fillsLeft_update t (t.relinquish slot) slot rfl
  exact Nat.add_right_cancel hfills

/-- A delivery leaves one request less. -/
theorem deliver_requestsLeft {id : RequestId} {status : MemStatus} (hid : id < t.requestCount)
    (hlive : (t.requests id).Live) (hterminal : status.Terminal) :
    (t.deliver id status).requestsLeft + 1 = t.requestsLeft ∧
      (t.deliver id status).slots = t.slots ∧
      (t.deliver id status).notifications = t.notifications := by
  unfold deliver
  rw [if_pos ⟨hid, hlive, hterminal⟩]
  refine ⟨?_, rfl, rfl⟩
  have hsum := sum_update (f := t.requests) (i := id)
    (b := { t.requests id with outcome := some status })
    (fun r : Request => if r.Live then 1 else 0) (Finset.mem_range.mpr hid)
  have hafter : ¬ ({ t.requests id with outcome := some status } : Request).Live :=
    fun h => by cases h
  rw [if_pos hlive, if_neg hafter] at hsum
  exact hsum

/-! ## finish_fill -/

/-- One step of `finish_fill`: it goes on, with less left; it gives the fill up; or the fill ends. -/
inductive Finishes (t : Table cfg) (slot : cfg.SlotId) (deadline : Bool) (pc : FinishPc) :
    Option FinishPc → Table cfg → Prop
  | goesOn (next : FinishPc) (hless : t.finishLeft slot next < t.finishLeft slot pc)
      (htime : next = .timedOut → deadline = true) : Finishes t slot deadline pc (some next) t
  | relinquished (hpc : pc = .timedOut) : Finishes t slot deadline pc none (t.relinquish slot)
  | published (result : Status) : Finishes t slot deadline pc none (t.publish slot result)

theorem finishStep_finishes {pc : FinishPc} {next : Option FinishPc}
    (hfilling : (t.slots slot).state = .filling)
    (h : t.finishStep slot deadline choice pc = some (next, t')) :
    Finishes t slot deadline pc next t' := by
  cases pc with
  | enter =>
      have h : (if (t.slots slot).state ≠ .filling then some (none, t)
        else some (some (.waiting (t.awaited slot)), t)) = some (next, t') := h
      rw [if_neg (not_not.mpr hfilling)] at h
      cases h
      exact .goesOn _ (Nat.lt_succ_self _) fun hnext => by cases hnext
  | waiting pending =>
      cases pending with
      | nil =>
          cases h
          by_cases hconverting : cfg.converting = true
          · rw [if_pos hconverting]
            exact .goesOn _ (Nat.lt_succ_self _) fun hnext => by cases hnext
          · rw [if_neg hconverting]
            exact .goesOn _ (Nat.succ_lt_succ (Nat.zero_lt_succ _)) fun hnext => by cases hnext
      | cons id rest =>
          unfold finishStep at h
          dsimp only at h
          split at h
          · cases h
            exact .goesOn _ (Nat.lt_succ_self _) fun hnext => by cases hnext
          · cases h
            refine .goesOn _ ?_ fun hnext => by cases hnext
            show 1 < rest.length + 1 + 3
            omega
          · split_ifs at h with hexpired
            cases h
            refine .goesOn _ ?_ fun _ => ?_
            · show 1 < rest.length + 1 + 3
              omega
            · rw [Bool.and_eq_true] at hexpired
              exact hexpired.1
  | timedOut =>
      cases h
      exact .relinquished rfl
  | convert =>
      cases h
      exact .goesOn _ (Nat.lt_succ_self _) fun hnext => by cases hnext
  | publish result =>
      cases h
      exact .published result

end Table

/-! ## The agents' part -/

/-- What an agent has left to do: admissions, notifications at most, and other steps. -/
structure Load where
  admits : ℕ := 0
  notices : ℕ := 0
  work : ℕ := 0

/-- One, if the fill is about to be given up. -/
def FinishPc.givesUp : FinishPc → ℕ
  | .timedOut => 1
  | _ => 0

/-- In `resolve_into`, with `n` rows. -/
def ResolvePc.load (t : Table cfg) (n : ℕ) : ResolvePc cfg → Load
  | .releasing i => { admits := 1, work := n - i + 3 }
  | .phaseA => { admits := 1, work := 2 }
  | .unwind i count _ => { work := count - i + 2 }
  | .drive i => { work := n + 3 + 4 * (n - i) + 3 }
  | .finishing i slot pc =>
      { notices := pc.givesUp, work := n + 3 + 4 * (n - (i + 1)) + 4 + t.finishLeft slot pc }
  | .settle i => { work := n + 3 + 4 * (n - (i + 1)) + 4 }
  | .asleep i since => { work := n + 3 + 4 * (n - (i + 1)) + 5 + t.wakesFor since }
  | .returned _ => { work := 1 }

/-- In `wait`, with `n` entries.  Each entry's fill may be given up once. -/
def WaitPc.load (t : Table cfg) (n : ℕ) : WaitPc cfg → Load
  | .entry i => { notices := n - i, work := 4 * (n - i) + 3 }
  | .finishing i slot pc =>
      { notices := n - (i + 1) + 1, work := 4 * (n - (i + 1)) + 4 + t.finishLeft slot pc }
  | .settle i => { notices := n - (i + 1), work := 4 * (n - (i + 1)) + 4 }
  | .asleep i since =>
      { notices := n - (i + 1) + 1, work := 4 * (n - (i + 1)) + 5 + t.wakesFor since }
  | .returned => { work := 1 }

/-- In `drain`. -/
def DrainPc.load (t : Table cfg) : DrainPc → Load
  | .start => { work := 4 }
  | .asleep since => { work := 2 + t.wakesFor since }
  | .returned _ => { work := 1 }

/-- A client thread. -/
def Pc.load (t : Table cfg) : Pc cfg → Load
  | .idle => {}
  | .refused _ => { work := 1 }
  | .resolving call pc => pc.load t call.rows.length
  | .waiting call _ pc => pc.load t call.count
  | .draining _ pc => pc.load t

/-- The worker. -/
def WorkerPc.load (t : Table cfg) : WorkerPc cfg → Load
  | .scan => { work := 2 }
  | .finishing slot pc => { notices := pc.givesUp, work := 2 + t.finishLeft slot pc }
  | .asleep since => { work := 1 + 2 * t.wakesFor since }

namespace Table.Unmoved

variable {t t' : Table cfg}

/-- What others have left does not change while nobody is notified. -/
theorem load (h : Unmoved t t') (pc : Pc cfg) : pc.load t' = pc.load t := by
  cases pc with
  | resolving call pc =>
      cases pc with
      | finishing i slot fpc =>
          simp only [Pc.load, ResolvePc.load, h.finishLeft]
      | asleep i since => simp only [Pc.load, ResolvePc.load, h.wakesFor]
      | _ => rfl
  | waiting call outcome pc =>
      cases pc with
      | finishing i slot fpc => simp only [Pc.load, WaitPc.load, h.finishLeft]
      | asleep i since => simp only [Pc.load, WaitPc.load, h.wakesFor]
      | _ => rfl
  | draining deadline pc =>
      cases pc with
      | asleep since => simp only [Pc.load, DrainPc.load, h.wakesFor]
      | _ => rfl
  | _ => rfl

theorem workerLoad (h : Unmoved t t') (pc : WorkerPc cfg) : pc.load t' = pc.load t := by
  cases pc with
  | scan => rfl
  | finishing slot fpc => simp only [WorkerPc.load, h.finishLeft]
  | asleep since => simp only [WorkerPc.load, h.wakesFor]

end Table.Unmoved

/-- One agent's step leaves less to do: an admission less; or a notification less; or less of the
rest, with nobody notified. -/
inductive Lowers (t t' : Table cfg) (load load' : Load) : Prop
  | admits (h : load'.admits < load.admits)
  | notices (hadmits : load'.admits ≤ load.admits)
      (h : t'.fillsLeft + load'.notices < t.fillsLeft + load.notices)
  | works (hadmits : load'.admits ≤ load.admits) (hnotices : load'.notices ≤ load.notices)
      (hidles : Table.Idles t t')
      (h : t'.unclaimedLeft + load'.work < t.unclaimedLeft + load.work)

namespace Lowers

variable {t t' : Table cfg} {load load' : Load} {slot : cfg.SlotId} {fpc : FinishPc}

/-- A step that leaves the table alone. -/
theorem stays (hadmits : load'.admits ≤ load.admits) (hnotices : load'.notices ≤ load.notices)
    (h : load'.work < load.work) : Lowers t t load load' :=
  .works hadmits hnotices (.refl t) (Nat.add_lt_add_left h _)

/-- A thread takes a fill over. -/
theorem takesOver (next : Table cfg → Load) (hfilling : (t.slots slot).state = .filling)
    (hunclaimed : (t.slots slot).finishing = false)
    (hsame : Table.Unmoved t (t.takeOver slot) → next (t.takeOver slot) = next t)
    (hadmits : (next t).admits ≤ load.admits) (hnotices : (next t).notices ≤ load.notices)
    (h : (next t).work ≤ load.work + ((t.slots slot).awaited.length + 4)) :
    Lowers t (t.takeOver slot) load (next (t.takeOver slot)) := by
  obtain ⟨hidles, hless⟩ := Table.takeOver_idles hfilling hunclaimed
  rw [hsame hidles.unmoved]
  refine .works hadmits hnotices hidles ?_
  omega

end Lowers

/-! ## Steps of the agents -/

namespace World

variable {w w' u : World cfg} {thread : ThreadId} {choice : Choice}

theorem resetLease_idles (w : World cfg) (v : LeaseVar) :
    Table.Idles w.table (w.resetLease v).table ∧
      (w.resetLease v).table.unclaimedLeft = w.table.unclaimedLeft := by
  unfold resetLease
  split
  · exact ⟨.refl _, rfl⟩
  · split
    · exact ⟨.refl _, rfl⟩
    · rename_i hrelease
      obtain ⟨rfl, -⟩ := Table.releaseLease_eq_some hrelease
      exact Table.unpinLocked_idles _ _

/-- A step that gives a lease up. -/
theorem resetLease_lowers (v : LeaseVar) {load load' : Load} (hadmits : load'.admits ≤ load.admits)
    (hnotices : load'.notices ≤ load.notices) (h : load'.work < load.work) :
    Lowers w.table (w.resetLease v).table load load' := by
  obtain ⟨hidles, hsame⟩ := w.resetLease_idles v
  refine .works hadmits hnotices hidles ?_
  rw [hsame]
  exact Nat.add_lt_add_left h _

/-! ### resolve_into -/

/-- What is left after row `i`. -/
theorem afterRow_load (t : Table cfg) (call : ResolveCall) (i : ℕ) (failure : Status) :
    ((afterRow call i failure).load t call.rows.length).admits = 0 ∧
      ((afterRow call i failure).load t call.rows.length).notices = 0 ∧
      ((afterRow call i failure).load t call.rows.length).work ≤
        call.rows.length + 3 + 4 * (call.rows.length - (i + 1)) + 3 := by
  unfold afterRow
  split_ifs
  · exact ⟨rfl, rfl, le_rfl⟩
  · refine ⟨rfl, rfl, ?_⟩
    show call.rows.length - 0 + 2 ≤ _
    omega

/-- A step to the next row, from a point with more left. -/
theorem afterRow_lowers {call : ResolveCall} {i : ℕ} {failure : Status} {load : Load}
    (h : call.rows.length + 3 + 4 * (call.rows.length - (i + 1)) + 3 < load.work) :
    Lowers w.table w.table load ((afterRow call i failure).load w.table call.rows.length) := by
  obtain ⟨hadmits, hnotices, hwork⟩ := afterRow_load w.table call i failure
  refine .stays ?_ ?_ (hwork.trans_lt h)
  · rw [hadmits]
    exact Nat.zero_le _
  · rw [hnotices]
    exact Nat.zero_le _

theorem settleRow_lowers {call : ResolveCall} {i : ℕ} {lease : Lease cfg} {pc' : ResolvePc cfg}
    {load : Load} (hsettle : w.settleRow call i lease = (pc', u))
    (h : call.rows.length + 3 + 4 * (call.rows.length - (i + 1)) + 3 < load.work) :
    Lowers w.table u.table load (pc'.load u.table call.rows.length) := by
  unfold settleRow at hsettle
  dsimp only at hsettle
  split_ifs at hsettle <;> cases hsettle
  · exact afterRow_lowers h
  · exact afterRow_lowers h
  · exact afterRow_lowers h

/-- A step inside `finish_fill`, for a caller with this much left afterwards. -/
theorem finishing_lowers {t t' : Table cfg} {slot : cfg.SlotId} {fpc : FinishPc}
    {next : Option FinishPc} {deadline : Bool} (load : Table cfg → FinishPc → Load)
    (done : Table cfg → Load) (hfilling : (t.slots slot).state = .filling)
    (hfinish : t.finishStep slot deadline choice fpc = some (next, t'))
    (hadmits : ∀ t f, (load t f).admits = 0 ∧ (done t).admits = 0)
    (hgoes : ∀ f f', (f' = .timedOut → deadline = true) → t.finishLeft slot f' < t.finishLeft slot f →
      (load t f').notices ≤ (load t f).notices ∧ (load t f').work < (load t f).work)
    (hgives : ∀ t', (done t').notices < (load t .timedOut).notices)
    (hends : ∀ t' f, (done t').notices ≤ (load t f).notices) :
    Lowers t t' (load t fpc) (next.elim (done t') (load t')) := by
  cases Table.finishStep_finishes hfilling hfinish with
  | goesOn next hless htime =>
      obtain ⟨hnotices, hwork⟩ := hgoes fpc next htime hless
      refine .stays ?_ hnotices hwork
      show (load t next).admits ≤ (load t fpc).admits
      rw [(hadmits t next).1]
      exact Nat.zero_le _
  | relinquished hpc =>
      subst hpc
      refine .notices ?_ ?_
      · show (done _).admits ≤ _
        rw [(hadmits _ .enter).2]
        exact Nat.zero_le _
      · rw [Table.relinquish_fillsLeft]
        exact Nat.add_lt_add_left (hgives _) _
  | published result =>
      refine .notices ?_ ?_
      · show (done _).admits ≤ _
        rw [(hadmits _ .enter).2]
        exact Nat.zero_le _
      · have hfills := Table.publish_fillsLeft hfilling result
        have hle := hends (t.publish slot result) fpc
        show (t.publish slot result).fillsLeft + (done _).notices < _
        omega

theorem resolveStep_lowers {call call' : ResolveCall} {pc pc' : ResolvePc cfg}
    (hfilling : ∀ i slot fpc, pc = .finishing i slot fpc → (w.table.slots slot).state = .filling)
    (hspurious : choice.spurious = false)
    (h : w.resolveStep call choice pc = some (call', pc', u)) :
    Lowers w.table u.table (pc.load w.table call.rows.length)
      (pc'.load u.table call'.rows.length) := by
  cases pc with
  | releasing i =>
      unfold resolveStep at h
      dsimp only at h
      split_ifs at h with hi hout <;> cases h
      · refine resetLease_lowers _ le_rfl le_rfl ?_
        show call.rows.length - (i + 1) + 3 < call.rows.length - i + 3
        omega
      · exact .admits Nat.zero_lt_one
      · refine .stays le_rfl le_rfl ?_
        show 2 < call.rows.length - i + 3
        omega
  | phaseA =>
      unfold resolveStep at h
      dsimp only at h
      split_ifs at h <;> cases h <;> exact .admits Nat.zero_lt_one
  | unwind i count failure =>
      unfold resolveStep at h
      dsimp only at h
      split_ifs at h with hi <;> cases h
      · refine resetLease_lowers _ le_rfl le_rfl ?_
        show count - (i + 1) + 2 < count - i + 2
        omega
      · refine .stays le_rfl le_rfl ?_
        show 1 < count - i + 2
        omega
  | drive i =>
      unfold resolveStep at h
      dsimp only at h
      split_ifs at h with hi
      · split at h
        · cases h
        · rename_i lease hlease
          have hrow : call.rows.length + 3 + 4 * (call.rows.length - (i + 1)) + 3 <
              call.rows.length + 3 + 4 * (call.rows.length - i) + 3 := by omega
          split_ifs at h with hepoch hstate hfinishing
          · cases h
            exact afterRow_lowers hrow
          · cases h
            refine .stays le_rfl le_rfl ?_
            show call.rows.length + 3 + 4 * (call.rows.length - (i + 1)) + 5 +
              w.table.wakesFor w.table.notifications < _
            rw [Table.wakesFor_now]
            show _ < call.rows.length + 3 + 4 * (call.rows.length - i) + 3
            omega
          · cases h
            refine .takesOver
              (fun t => (ResolvePc.finishing i lease.slot .enter).load t call.rows.length) hstate
              (Bool.not_eq_true _ ▸ hfinishing)
              (fun hunmoved => hunmoved.load (.resolving call (.finishing i lease.slot .enter)))
              le_rfl le_rfl ?_
            show call.rows.length + 3 + 4 * (call.rows.length - (i + 1)) + 4 +
              ((w.table.slots lease.slot).awaited.length + 4) ≤
                call.rows.length + 3 + 4 * (call.rows.length - i) + 3 + _
            omega
          · obtain ⟨rfl, hsettle⟩ := Prod.mk.inj (Option.some.inj h)
            exact settleRow_lowers hsettle hrow
      · cases h
        refine .stays le_rfl le_rfl ?_
        show 1 < call.rows.length + 3 + 4 * (call.rows.length - i) + 3
        omega
  | finishing i slot fpc =>
      unfold resolveStep at h
      dsimp only at h
      have hlowers : ∀ {next t'}, w.table.finishStep slot false choice fpc = some (next, t') →
          Lowers w.table t' ((ResolvePc.finishing i slot fpc).load w.table call.rows.length)
            (next.elim ((ResolvePc.settle i : ResolvePc cfg).load t' call.rows.length)
              fun f => (ResolvePc.finishing i slot f).load t' call.rows.length) := fun hfinish => by
        refine finishing_lowers
          (fun t f => (ResolvePc.finishing i slot f).load t call.rows.length)
          (fun t => (ResolvePc.settle i : ResolvePc cfg).load t call.rows.length)
          (hfilling i slot fpc rfl) hfinish (fun _ _ => ⟨rfl, rfl⟩) (fun f f' htime hless => ?_)
          (fun _ => Nat.zero_lt_one) fun _ _ => Nat.zero_le _
        refine ⟨?_, Nat.add_lt_add_left hless _⟩
        cases f' with
        | timedOut => cases htime rfl
        | _ => exact Nat.zero_le _
      split at h
      · cases h
      · rename_i hfinish
        cases h
        exact hlowers hfinish
      · rename_i hfinish
        cases h
        exact hlowers hfinish
  | settle i =>
      unfold resolveStep at h
      dsimp only at h
      split at h
      · cases h
      · obtain ⟨rfl, hsettle⟩ := Prod.mk.inj (Option.some.inj h)
        exact settleRow_lowers hsettle (Nat.lt_succ_self _)
  | asleep i since =>
      unfold resolveStep at h
      dsimp only at h
      split_ifs at h with hwakes
      split at h
      · cases h
      · have hpending : since < w.table.notifications := by
          rcases hwakes with hlt | hfalse
          · exact hlt
          · rw [hspurious] at hfalse
            cases hfalse
        split_ifs at h
        · obtain ⟨rfl, hsettle⟩ := Prod.mk.inj (Option.some.inj h)
          refine settleRow_lowers hsettle ?_
          show _ < call.rows.length + 3 + 4 * (call.rows.length - (i + 1)) + 5 + _
          omega
        · cases h
          refine .stays le_rfl le_rfl ?_
          show _ + w.table.wakesFor w.table.notifications < _ + w.table.wakesFor since
          rw [Table.wakesFor_now, Table.wakesFor_pending hpending]
          exact Nat.lt_succ_self _
  | returned result => cases h

/-! ### wait and drain -/

/-- The end of a turn of `wait`, from a point with more left. -/
theorem settleEntry_lowers {call : WaitCall cfg} {outcome outcome' : WaitOutcome} {i : ℕ}
    {slot : cfg.SlotId} {epoch : UInt32} {pc' : WaitPc cfg} {load : Load}
    (hsettle : w.settleEntry outcome i slot epoch = (outcome', pc', u))
    (hnotices : call.count - (i + 1) ≤ load.notices)
    (h : 4 * (call.count - (i + 1)) + 3 < load.work) :
    Lowers w.table u.table load (pc'.load u.table call.count) := by
  cases hsettle
  exact .stays (Nat.zero_le _) hnotices h

theorem waitStep_lowers {call : WaitCall cfg} {outcome outcome' : WaitOutcome} {pc pc' : WaitPc cfg}
    (hfilling : ∀ i slot fpc, pc = .finishing i slot fpc → (w.table.slots slot).state = .filling)
    (hspurious : choice.spurious = false)
    (h : w.waitStep call outcome choice pc = some (outcome', pc', u)) :
    Lowers w.table u.table (pc.load w.table call.count) (pc'.load u.table call.count) := by
  -- Going on with the next entry.
  have hnext : ∀ {i : ℕ} {load : Load}, call.count - (i + 1) ≤ load.notices →
      4 * (call.count - (i + 1)) + 3 < load.work →
      Lowers w.table w.table load ((WaitPc.entry (i + 1) : WaitPc cfg).load w.table call.count) :=
    fun hnotices hwork => .stays (Nat.zero_le _) hnotices hwork
  cases pc with
  | entry i =>
      unfold waitStep at h
      dsimp only at h
      split_ifs at h with hi
      · have hless : call.count - (i + 1) + 1 = call.count - i := by omega
        have hnotices : call.count - (i + 1) ≤ call.count - i := by omega
        have hwork : 4 * (call.count - (i + 1)) + 3 < 4 * (call.count - i) + 3 := by omega
        split at h
        · cases h
          exact hnext hnotices hwork
        · rename_i slot hslot
          split_ifs at h with hepoch hstate hfinishing
          · cases h
            exact hnext hnotices hwork
          · cases h
            refine .stays le_rfl hless.le ?_
            show 4 * (call.count - (i + 1)) + 5 + w.table.wakesFor w.table.notifications < _
            rw [Table.wakesFor_now]
            show _ < 4 * (call.count - i) + 3
            omega
          · cases h
            refine .takesOver (fun t => (WaitPc.finishing i slot .enter).load t call.count) hstate
              (Bool.not_eq_true _ ▸ hfinishing)
              (fun hunmoved => hunmoved.load (.waiting call outcome (.finishing i slot .enter)))
              le_rfl hless.le ?_
            show 4 * (call.count - (i + 1)) + 4 + ((w.table.slots slot).awaited.length + 4) ≤
              4 * (call.count - i) + 3 + _
            omega
          · exact settleEntry_lowers (Option.some.inj h) hnotices hwork
      · cases h
        refine .stays le_rfl (Nat.zero_le _) ?_
        show 1 < 4 * (call.count - i) + 3
        omega
  | finishing i slot fpc =>
      unfold waitStep at h
      dsimp only at h
      have hlowers : ∀ {next t'}, w.table.finishStep slot call.deadline choice fpc = some (next, t') →
          Lowers w.table t' ((WaitPc.finishing i slot fpc).load w.table call.count)
            (next.elim ((WaitPc.settle i : WaitPc cfg).load t' call.count)
              fun f => (WaitPc.finishing i slot f).load t' call.count) := fun hfinish =>
        finishing_lowers (fun t f => (WaitPc.finishing i slot f).load t call.count)
          (fun t => (WaitPc.settle i : WaitPc cfg).load t call.count) (hfilling i slot fpc rfl)
          hfinish (fun _ _ => ⟨rfl, rfl⟩) (fun f f' _ hless => ⟨le_rfl, Nat.add_lt_add_left hless _⟩)
          (fun _ => Nat.lt_succ_self _) fun _ _ => Nat.le_succ _
      split at h
      · cases h
      · rename_i hfinish
        cases h
        exact hlowers hfinish
      · rename_i hfinish
        cases h
        exact hlowers hfinish
  | settle i =>
      unfold waitStep at h
      dsimp only at h
      split at h
      · cases h
      · exact settleEntry_lowers (Option.some.inj h) le_rfl (Nat.lt_succ_self _)
  | asleep i since =>
      unfold waitStep at h
      dsimp only at h
      have hwork : 4 * (call.count - (i + 1)) + 3 <
          4 * (call.count - (i + 1)) + 5 + w.table.wakesFor since := by omega
      split_ifs at h with hwakes hexpired
      · split at h
        · cases h
        · split_ifs at h
          · exact settleEntry_lowers (Option.some.inj h) (Nat.le_succ _) hwork
          · cases h
            exact hnext (Nat.le_succ _) hwork
      · have hpending : since < w.table.notifications := by
          rcases hwakes with hlt | hfalse | htime
          · exact hlt
          · rw [hspurious] at hfalse
            cases hfalse
          · exact absurd htime hexpired
        split at h
        · cases h
        · split_ifs at h
          · exact settleEntry_lowers (Option.some.inj h) (Nat.le_succ _) hwork
          · cases h
            refine .stays le_rfl le_rfl ?_
            show _ + w.table.wakesFor w.table.notifications < _ + w.table.wakesFor since
            rw [Table.wakesFor_now, Table.wakesFor_pending hpending]
            exact Nat.lt_succ_self _
  | returned => cases h

theorem drainStep_lowers {t : Table cfg} {deadline : Bool} {pc pc' : DrainPc}
    (hspurious : choice.spurious = false) (h : drainStep t deadline choice pc = some pc') :
    Lowers t t (pc.load t) (pc'.load t) := by
  cases pc with
  | start =>
      unfold drainStep at h
      dsimp only at h
      split_ifs at h <;> cases h
      · exact .stays le_rfl le_rfl (Nat.succ_lt_succ (Nat.zero_lt_succ _))
      · refine .stays le_rfl le_rfl ?_
        show 2 + t.wakesFor t.notifications < 4
        rw [Table.wakesFor_now]
        omega
  | asleep since =>
      have hreturns : ∀ result, Lowers t t ((DrainPc.asleep since).load t)
          ((DrainPc.returned result).load t) := fun result => by
        refine .stays le_rfl le_rfl ?_
        show 1 < 2 + t.wakesFor since
        omega
      unfold drainStep at h
      dsimp only at h
      split_ifs at h with hwakes hnone hexpired
      · cases h
        exact hreturns _
      · cases h
        exact hreturns _
      · have hpending : since < t.notifications := by
          rcases hwakes with hlt | hfalse | htime
          · exact hlt
          · rw [hspurious] at hfalse
            cases hfalse
          · exact absurd htime hexpired
        cases h
        refine .stays le_rfl le_rfl ?_
        show 2 + t.wakesFor t.notifications < 2 + t.wakesFor since
        rw [Table.wakesFor_now, Table.wakesFor_pending hpending]
        exact Nat.lt_succ_self _
  | returned result => cases h

/-! ### The worker -/

theorem workerStep_lowers {t t' : Table cfg} {pc pc' : WorkerPc cfg}
    (hfilling : ∀ slot fpc, pc = .finishing slot fpc → (t.slots slot).state = .filling)
    (hspurious : choice.spurious = false) (h : workerStep t choice pc = some (pc', t')) :
    Lowers t t' (pc.load t) (pc'.load t') := by
  cases pc with
  | scan =>
      unfold workerStep at h
      dsimp only at h
      split at h
      · rename_i slot hfind
        cases h
        unfold Table.findUnclaimedFilling at hfind
        have hfound := List.find?_some hfind
        obtain ⟨hstate, hunclaimed⟩ := of_decide_eq_true hfound
        refine .takesOver (fun t => (WorkerPc.finishing slot .enter).load t) hstate hunclaimed
          (fun hunmoved => hunmoved.workerLoad _) le_rfl le_rfl ?_
        show 2 + ((t.slots slot).awaited.length + 4) ≤ 2 + _
        omega
      · cases h
        refine .stays le_rfl le_rfl ?_
        show 1 + 2 * t.wakesFor t.notifications < 2
        rw [Table.wakesFor_now]
        omega
  | finishing slot fpc =>
      unfold workerStep at h
      dsimp only at h
      have hlowers : ∀ {next t'}, t.finishStep slot false choice fpc = some (next, t') →
          Lowers t t' ((WorkerPc.finishing slot fpc).load t)
            (next.elim ((WorkerPc.scan : WorkerPc cfg).load t')
              fun f => (WorkerPc.finishing slot f).load t') := fun hfinish => by
        refine finishing_lowers (fun t f => (WorkerPc.finishing slot f).load t)
          (fun t => (WorkerPc.scan : WorkerPc cfg).load t) (hfilling slot fpc rfl) hfinish
          (fun _ _ => ⟨rfl, rfl⟩) (fun f f' htime hless => ?_) (fun _ => Nat.zero_lt_one)
          fun _ _ => Nat.zero_le _
        refine ⟨?_, Nat.add_lt_add_left hless _⟩
        cases f' with
        | timedOut => cases htime rfl
        | _ => exact Nat.zero_le _
      split at h
      · cases h
      · rename_i hfinish
        cases h
        exact hlowers hfinish
      · rename_i hfinish
        cases h
        exact hlowers hfinish
  | asleep since =>
      unfold workerStep at h
      dsimp only at h
      split_ifs at h with hwakes
      cases h
      have hpending : since < t.notifications := by
        rcases hwakes with hlt | hfalse
        · exact hlt
        · rw [hspurious] at hfalse
          cases hfalse
      refine .stays le_rfl le_rfl ?_
      show 2 < 1 + 2 * t.wakesFor since
      rw [Table.wakesFor_pending hpending]
      omega

/-! ## The whole -/

/-- What the threads before `bound`, the worker and the transport have left to do. -/
def rank (bound : ℕ) (w : World cfg) : ℕ ×ₗ ℕ ×ₗ ℕ :=
  rank₃ (∑ k ∈ Finset.range bound, ((w.threads k).load w.table).admits)
    (w.table.fillsLeft + (w.worker.load w.table).notices +
      ∑ k ∈ Finset.range bound, ((w.threads k).load w.table).notices)
    (w.table.unclaimedLeft + w.table.requestsLeft + (w.worker.load w.table).work +
      ∑ k ∈ Finset.range bound, ((w.threads k).load w.table).work)

/-- The admissions and notifications of an agent do not depend on the table. -/
theorem load_admits (t t' : Table cfg) (pc : Pc cfg) :
    (pc.load t').admits = (pc.load t).admits ∧ (pc.load t').notices = (pc.load t).notices := by
  cases pc with
  | resolving call pc => cases pc <;> exact ⟨rfl, rfl⟩
  | waiting call outcome pc => cases pc <;> exact ⟨rfl, rfl⟩
  | draining deadline pc => cases pc <;> exact ⟨rfl, rfl⟩
  | _ => exact ⟨rfl, rfl⟩

theorem workerLoad_notices (t t' : Table cfg) (pc : WorkerPc cfg) :
    (pc.load t').notices = (pc.load t).notices := by
  cases pc <;> rfl

/-- A thread's step lowers the rank. -/
theorem rank_lt_of_thread {bound : ℕ} (hthread : thread < bound) (pc' : Pc cfg)
    (hthreads : w'.threads = Function.update w.threads thread pc') (hworker : w'.worker = w.worker)
    (hlowers : Lowers w.table w'.table ((w.threads thread).load w.table) (pc'.load w'.table)) :
    w'.rank bound < w.rank bound := by
  have hmem : thread ∈ Finset.range bound := Finset.mem_range.mpr hthread
  have hsum : ∀ count : Load → ℕ,
      ∑ k ∈ Finset.range bound, count ((w'.threads k).load w'.table) +
          count ((w.threads thread).load w'.table) =
        ∑ k ∈ Finset.range bound, count ((w.threads k).load w'.table) +
          count (pc'.load w'.table) := fun count => by
    rw [hthreads]
    exact sum_update (fun pc : Pc cfg => count (pc.load w'.table)) hmem
  have hadmits := hsum Load.admits
  have hnotices := hsum Load.notices
  have hwork := hsum Load.work
  rw [(load_admits w.table w'.table _).1] at hadmits
  rw [(load_admits w.table w'.table _).2] at hnotices
  have hadmitsAll : ∑ k ∈ Finset.range bound, ((w.threads k).load w'.table).admits =
      ∑ k ∈ Finset.range bound, ((w.threads k).load w.table).admits :=
    Finset.sum_congr rfl fun k _ => (load_admits w.table w'.table _).1
  have hnoticesAll : ∑ k ∈ Finset.range bound, ((w.threads k).load w'.table).notices =
      ∑ k ∈ Finset.range bound, ((w.threads k).load w.table).notices :=
    Finset.sum_congr rfl fun k _ => (load_admits w.table w'.table _).2
  rw [hadmitsAll] at hadmits
  rw [hnoticesAll] at hnotices
  have hworkerNotices : (w'.worker.load w'.table).notices = (w.worker.load w.table).notices := by
    rw [hworker]
    exact workerLoad_notices _ _ _
  unfold rank
  cases hlowers with
  | admits h => exact rank₃_lt_first (by omega)
  | notices ha h => exact rank₃_lt_second (by omega) (by omega)
  | works ha hn hidles h =>
      have hfills := hidles.fills
      have hrequests := hidles.requests
      rw [hidles.unmoved.load] at hwork
      have hworkAll : ∑ k ∈ Finset.range bound, ((w.threads k).load w'.table).work =
          ∑ k ∈ Finset.range bound, ((w.threads k).load w.table).work :=
        Finset.sum_congr rfl fun k _ => congrArg Load.work (hidles.unmoved.load _)
      rw [hworkAll] at hwork
      have hworkerWork : (w'.worker.load w'.table).work = (w.worker.load w.table).work := by
        rw [hworker, hidles.unmoved.workerLoad]
      exact rank₃_lt_third (by omega) (by omega) (by omega)

/-- The worker's step lowers the rank. -/
theorem rank_lt_of_worker {bound : ℕ} (hthreads : w'.threads = w.threads)
    (hlowers : Lowers w.table w'.table (w.worker.load w.table) (w'.worker.load w'.table)) :
    w'.rank bound < w.rank bound := by
  have hadmitsAll : ∑ k ∈ Finset.range bound, ((w'.threads k).load w'.table).admits =
      ∑ k ∈ Finset.range bound, ((w.threads k).load w.table).admits := by
    rw [hthreads]
    exact Finset.sum_congr rfl fun k _ => (load_admits w.table w'.table _).1
  have hnoticesAll : ∑ k ∈ Finset.range bound, ((w'.threads k).load w'.table).notices =
      ∑ k ∈ Finset.range bound, ((w.threads k).load w.table).notices := by
    rw [hthreads]
    exact Finset.sum_congr rfl fun k _ => (load_admits w.table w'.table _).2
  have hnone : (w.worker.load w.table).admits = 0 := by
    cases w.worker <;> rfl
  unfold rank
  cases hlowers with
  | admits h =>
      rw [hnone] at h
      exact absurd h (Nat.not_lt_zero _)
  | notices ha h => exact rank₃_lt_second hadmitsAll.le (by omega)
  | works ha hn hidles h =>
      have hfills := hidles.fills
      have hrequests := hidles.requests
      have hworkAll : ∑ k ∈ Finset.range bound, ((w'.threads k).load w'.table).work =
          ∑ k ∈ Finset.range bound, ((w.threads k).load w.table).work := by
        rw [hthreads]
        exact Finset.sum_congr rfl fun k _ => congrArg Load.work (hidles.unmoved.load _)
      exact rank₃_lt_third hadmitsAll.le (by omega) (by omega)

end World

end TieredCache
