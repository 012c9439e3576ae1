/-
# The statistics balance

Every fetch is still in flight, or has failed, or its row was evicted or is still
resident.  The counters are 64-bit words, so they show these numbers modulo `2 ^ 64`.
-/

import TieredCache.Table.Books
import TieredCache.Table.Motions

namespace TieredCache

open Math.Runs Math.Tally Math.Words

variable {cfg : TableConfig}

/-- The slot holds a row ready to be served. -/
def Slot.Ready (s : Slot cfg) : Prop := s.state = .ready

/-- The slot is in use. -/
def Slot.InUse (s : Slot cfg) : Prop := s.state ≠ .free

instance : DecidablePred fun s : Slot cfg => s.Filling := fun s =>
  inferInstanceAs (Decidable (s.state = .filling))

instance : DecidablePred fun s : Slot cfg => s.Ready := fun s =>
  inferInstanceAs (Decidable (s.state = .ready))

instance : DecidablePred fun s : Slot cfg => s.InUse := fun s =>
  inferInstanceAs (Decidable (s.state ≠ .free))

namespace Table

variable {t t' u : Table cfg} {slot : cfg.SlotId}

/-- The number of slots that are not free. -/
def occupied (t : Table cfg) : ℕ :=
  (List.finRange cfg.budgetRows.toNat).countP fun slot => (t.slots slot).state ≠ .free

/-! ## The numbers behind the counters -/

/-- How many fills have failed, how many of them in the codec, and how many rows have
been evicted, as the counters tell it. -/
structure Accounts (t : Table cfg) (failed codec evicted : ℕ) : Prop where
  codec_le : codec ≤ failed
  fetched : t.fetchLog.length =
    tally Slot.Filling t.slots + failed + evicted + tally Slot.Ready t.slots
  fetches : t.counters.fetches = .ofNat t.fetchLog.length
  failures : t.counters.failed = .ofNat failed
  codecFailures : t.counters.codecFailures = .ofNat codec
  evictions : t.counters.evictions = .ofNat evicted
  conversions : cfg.converting = true →
    t.counters.conversions = .ofNat (evicted + tally Slot.Ready t.slots)

/-- The counters count, free slots are unpinned, and `non_free_` counts the others. -/
structure LedgerInv (t : Table cfg) : Prop where
  accounts : ∃ failed codec evicted, Accounts t failed codec evicted
  unpinned : ∀ s, (t.slots s).state = .free → (t.slots s).pins = 0
  nonFree : t.nonFree.toNat = tally Slot.InUse t.slots

/-- A slot rewritten is the table's slots updated at it. -/
theorem slots_eq_update (h : ∀ s, s ≠ slot → t'.slots s = t.slots s) :
    t'.slots = Function.update t.slots slot (t'.slots slot) := by
  ext s : 1
  by_cases hs : s = slot
  · rw [hs, Function.update_self]
  · rw [Function.update_of_ne hs, h s hs]

/-- Counting after one slot was rewritten. -/
theorem tally_slots (p : Slot cfg → Prop) [DecidablePred p]
    (h : ∀ s, s ≠ slot → t'.slots s = t.slots s) :
    tally p t'.slots + (if p (t.slots slot) then 1 else 0) =
      tally p t.slots + if p (t'.slots slot) then 1 else 0 := by
  rw [slots_eq_update h, Function.update_self]
  exact tally_update (Set.toFinite _) slot (t'.slots slot)

/-! ## What admitting a row does -/

/-- What vacating a slot does: nothing to a free one, and a failed or ready one leaves
`non_free_`; the eviction of a ready one is counted. -/
theorem Vacated.spec (h : Vacated t slot u) :
    (u.slots slot).state = .free ∧ (∀ s, s ≠ slot → u.slots s = t.slots s) ∧
      u.fetchLog = t.fetchLog ∧ (t.slots slot).state ≠ .filling ∧
      (∀ s, (u.slots s).pins = (t.slots s).pins) ∧
      u.nonFree = (if (t.slots slot).state = .free then t.nonFree else t.nonFree - 1) ∧
      u.counters = if (t.slots slot).state = .ready then t.countEviction.counters else t.counters := by
  have hfreed : ∀ u : Table cfg, ((u.makeFree slot).slots slot).state = .free := fun u =>
    congrArg Slot.state (Function.update_self slot _ u.slots)
  cases h with
  | free hstate => exact ⟨hstate, fun _ _ => rfl, rfl, by simp [hstate], fun _ => rfl,
      by simp [hstate], by simp [hstate]⟩
  | failed hpins hstate =>
      exact ⟨hfreed t, fun s hs => Function.update_of_ne hs .., rfl, by simp [hstate],
        proj_update Slot.pins t.slots rfl, by simp [makeFree, hstate], by simp [makeFree, hstate]⟩
  | evicted hpins hstate =>
      exact ⟨hfreed _, fun s hs => Function.update_of_ne hs .., rfl, by simp [hstate],
        proj_update Slot.pins t.slots rfl, by simp [makeFree, countEviction, hstate],
        by simp [makeFree, hstate]⟩

/-- What starting a fill in a slot does. -/
theorem startFillLocked_spec (t : Table cfg) (answers : Answers) (slot : cfg.SlotId)
    (row : UInt64) :
    (∀ s, s ≠ slot → (t.startFillLocked answers slot row).2.slots s = t.slots s) ∧
      (∀ s, ((t.startFillLocked answers slot row).2.slots s).pins = (t.slots s).pins) ∧
      (t.startFillLocked answers slot row).2.nonFree = min cfg.budgetRows (t.nonFree + 1) ∧
      (((t.startFillLocked answers slot row).2.slots slot).state = .filling ∧
          (t.startFillLocked answers slot row).2.counters =
            { t.counters with fetches := t.counters.fetches + 1 } ∧
          (t.startFillLocked answers slot row).2.fetchLog.length = t.fetchLog.length + 1 ∨
        ((t.startFillLocked answers slot row).2.slots slot).state = .failed ∧
          (t.startFillLocked answers slot row).2.counters = t.counters ∧
          (t.startFillLocked answers slot row).2.fetchLog = t.fetchLog) := by
  obtain ⟨hframe, hother⟩ := t.startFillLocked_frame answers slot row
  refine ⟨hother, hframe.pins, ?_⟩
  obtain ⟨u, hu, ⟨length, head, hstart⟩ | ⟨status, hne, hstart⟩⟩ :=
    t.startFillLocked_cases answers slot row
  · have hok := startFillLocked_ok hstart
    rw [hstart]
    cases hu with
    | mk => exact ⟨rfl, Or.inl ⟨hok.1, rfl, rfl⟩⟩
  · have hfailed := startFillLocked_refused hstart hne
    rw [hstart]
    cases hu with
    | mk => exact ⟨rfl, Or.inr ⟨hfailed.1, rfl, rfl⟩⟩

/-! ## Every motion keeps the accounts -/

namespace LedgerInv

theorem create (h : cfg.Accepted) : (Table.create cfg h).LedgerInv where
  accounts := by
    have hnone : ∀ p : Slot cfg → Prop, ¬ p {} → tally p (Table.create cfg h).slots = 0 :=
      fun p hp => tally_eq_zero fun _ => hp
    have hfilling := hnone Slot.Filling (by simp [Slot.Filling])
    have hready := hnone Slot.Ready (by simp [Slot.Ready])
    exact ⟨0, 0, 0, le_rfl, by rw [hfilling, hready]; rfl, rfl, rfl, rfl, rfl,
      fun _ => by rw [hready]; rfl⟩
  unpinned := fun s _ => rfl
  nonFree := (tally_eq_zero fun s hs => hs rfl).symm

/-- What leaves states and counters alone, and pins no free slot. -/
theorem keep (h : t.LedgerInv) (hstate : ∀ s, (t'.slots s).state = (t.slots s).state)
    (hpins : ∀ s, (t.slots s).state = .free → (t'.slots s).pins = (t.slots s).pins)
    (hnonFree : t'.nonFree = t.nonFree) (hfetches : t'.counters.fetches = t.counters.fetches)
    (hfailed : t'.counters.failed = t.counters.failed)
    (hcodec : t'.counters.codecFailures = t.counters.codecFailures)
    (hevictions : t'.counters.evictions = t.counters.evictions)
    (hconversions : t'.counters.conversions = t.counters.conversions)
    (hlog : t'.fetchLog = t.fetchLog) : t'.LedgerInv := by
  have htally : ∀ p : SlotState → Prop,
      tally (fun s : Slot cfg => p s.state) t'.slots = tally (fun s => p s.state) t.slots :=
    fun p => tally_congr fun s => by rw [hstate]
  have hfilling : tally Slot.Filling t'.slots = tally Slot.Filling t.slots := htally (· = .filling)
  have hready : tally Slot.Ready t'.slots = tally Slot.Ready t.slots := htally (· = .ready)
  obtain ⟨failed, codec, evicted, ha⟩ := h.accounts
  refine ⟨⟨failed, codec, evicted, ha.codec_le, ?_, ?_, ?_, ?_, ?_, fun hc => ?_⟩,
    fun s hs => ?_, ?_⟩
  · rw [hlog, hfilling, hready, ha.fetched]
  · rw [hfetches, hlog, ha.fetches]
  · rw [hfailed, ha.failures]
  · rw [hcodec, ha.codecFailures]
  · rw [hevictions, ha.evictions]
  · rw [hconversions, hready, ha.conversions hc]
  · rw [hstate] at hs
    rw [hpins s hs, h.unpinned s hs]
  · rw [hnonFree, h.nonFree]
    exact (htally (· ≠ .free)).symm

theorem aside (h : t.LedgerInv) (ha : Aside t t') : t'.LedgerInv :=
  h.keep ha.state (fun s _ => ha.pins s) ha.nonFree ha.fetches ha.failed ha.codecFailures
    ha.evictions ha.conversions ha.fetchLog

/-- A slot that is not free is pinned or unpinned. -/
theorem repinned (h : t.LedgerInv) {s' : Slot cfg} (hnot : (t.slots slot).state ≠ .free)
    (hslots : t'.slots = Function.update t.slots slot s')
    (hstate : s'.state = (t.slots slot).state) (hnonFree : t'.nonFree = t.nonFree)
    (hcounters : t'.counters = t.counters) (hlog : t'.fetchLog = t.fetchLog) : t'.LedgerInv := by
  have hstates : ∀ s, (t'.slots s).state = (t.slots s).state := by
    rw [hslots]
    exact proj_update Slot.state t.slots hstate
  refine h.keep hstates (fun s hs => ?_) hnonFree ?_ ?_ ?_ ?_ ?_ hlog
  · have hne : s ≠ slot := by
      rintro rfl
      exact hnot hs
    rw [hslots, Function.update_of_ne hne]
  all_goals rw [hcounters]

/-- Counting one more. -/
theorem ofNat_succ (n : ℕ) : UInt64.ofNat (n + 1) = UInt64.ofNat n + 1 := by
  rw [UInt64.ofNat_add]
  rfl

/-- A row is admitted into a vacated slot. -/
theorem admitted (h : t.LedgerInv) (answers : Answers) (row : UInt64) (hv : Vacated t slot u) :
    (u.startFillLocked answers slot row).2.LedgerInv := by
  obtain ⟨hfree, hvother, hvlog, hnot, hvpins, hvnon, hvcounters⟩ := hv.spec
  obtain ⟨hother, hpins, hnon, houtcome⟩ := u.startFillLocked_spec answers slot row
  generalize (u.startFillLocked answers slot row).2 = t' at *
  have hothers : ∀ s, s ≠ slot → t'.slots s = t.slots s := fun s hs =>
    (hother s hs).trans (hvother s hs)
  have hused : (t'.slots slot).state ≠ .free := by
    rcases houtcome with ⟨hs, -⟩ | ⟨hs, -⟩ <;> simp [hs]
  have hfilling := tally_slots Slot.Filling hothers
  have hready := tally_slots Slot.Ready hothers
  have hinUse := tally_slots Slot.InUse hothers
  have hbudget := BookInv.tally_le_budget Slot.InUse t'.slots
  have hword := cfg.budgetRows.toNat_lt
  refine ⟨?_, fun s hs => ?_, ?_⟩
  · obtain ⟨failed, codec, evicted, ha⟩ := h.accounts
    have hfetched := ha.fetched
    -- An evicted row is no longer resident: the two numbers together stay.
    obtain ⟨evicted', hcount, hrows⟩ : ∃ evicted',
        u.counters = { t.counters with evictions := .ofNat evicted' } ∧
          evicted' + tally Slot.Ready t'.slots = evicted + tally Slot.Ready t.slots := by
      have hnotReady : ¬ (t'.slots slot).Ready := by
        rcases houtcome with ⟨hs, -⟩ | ⟨hs, -⟩ <;> simp [Slot.Ready, hs]
      rw [if_neg hnotReady] at hready
      by_cases hwas : (t.slots slot).state = .ready
      · rw [if_pos (show (t.slots slot).Ready from hwas)] at hready
        refine ⟨evicted + 1, ?_, by omega⟩
        rw [hvcounters, if_pos hwas, countEviction, ha.evictions, ofNat_succ]
      · rw [if_neg (show ¬ (t.slots slot).Ready from hwas)] at hready
        refine ⟨evicted, ?_, by omega⟩
        rw [hvcounters, if_neg hwas, ← ha.evictions]
    rw [if_neg (show ¬ (t.slots slot).Filling from hnot)] at hfilling
    refine ⟨failed, codec, evicted', ?_⟩
    rcases houtcome with ⟨hstate, hcounters, hlog⟩ | ⟨hstate, hcounters, hlog⟩ <;>
      rw [hcount] at hcounters <;> rw [hvlog] at hlog
    · rw [if_pos (show (t'.slots slot).Filling from hstate)] at hfilling
      refine ⟨ha.codec_le, by omega, ?_, ?_, ?_, ?_, fun hc => ?_⟩ <;> rw [hcounters]
      · rw [hlog, ofNat_succ, ← ha.fetches]
      · exact ha.failures
      · exact ha.codecFailures
      · rw [hrows]
        exact ha.conversions hc
    · rw [if_neg (show ¬ (t'.slots slot).Filling by simp [Slot.Filling, hstate])] at hfilling
      rw [← hlog] at hfetched
      refine ⟨ha.codec_le, by omega, ?_, ?_, ?_, ?_, fun hc => ?_⟩ <;> rw [hcounters]
      · rw [hlog]
        exact ha.fetches
      · exact ha.failures
      · exact ha.codecFailures
      · rw [hrows]
        exact ha.conversions hc
  · by_cases hs' : s = slot
    · exact absurd (hs' ▸ hs) hused
    · rw [hothers s hs'] at hs ⊢
      exact h.unpinned s hs
  · have hcount := h.nonFree
    rw [if_pos (show (t'.slots slot).InUse from hused)] at hinUse
    have hcounted : (u.nonFree + 1).toNat = tally Slot.InUse t'.slots := by
      rw [hvnon]
      by_cases hstate : (t.slots slot).state = .free
      · rw [if_neg (show ¬ (t.slots slot).InUse from not_not.mpr hstate)] at hinUse
        rw [if_pos hstate, toNat_succ] <;> omega
      · rw [if_pos (show (t.slots slot).InUse from hstate)] at hinUse
        have hpos := tally_pos (p := Slot.InUse) (Set.toFinite _) (i := slot) hstate
        have hpred := toNat_pred (x := t.nonFree) (by omega)
        rw [if_neg hstate, toNat_succ] <;> omega
    rw [hnon, toNat_min_word32, hcounted]
    exact Nat.min_eq_right hbudget

/-- The fill of a slot ends. -/
theorem published (h : t.LedgerInv) (hfill : (t.slots slot).state = .filling) (result : Status) :
    (t.publish slot result).LedgerInv := by
  have hother : ∀ s, s ≠ slot → (t.publish slot result).slots s = t.slots s := fun s hs =>
    Function.update_of_ne hs ..
  have hself : (t.publish slot result).slots slot = _ := Function.update_self ..
  have hstate : ((t.publish slot result).slots slot).state =
      if result = .ok then .ready else .failed := by rw [hself]
  have hfilling := tally_slots Slot.Filling hother
  have hready := tally_slots Slot.Ready hother
  have hinUse := tally_slots Slot.InUse hother
  have hused : ((t.publish slot result).slots slot).InUse := by
    rw [Slot.InUse, hstate]
    split_ifs <;> decide
  rw [if_pos (show (t.slots slot).Filling from hfill), if_neg (by
    rw [Slot.Filling, hstate]
    split_ifs <;> decide)] at hfilling
  rw [if_neg (by simp [Slot.Ready, hfill])] at hready
  rw [if_pos (by simp [Slot.InUse, hfill]), if_pos hused] at hinUse
  refine ⟨?_, fun s hs => ?_, ?_⟩
  · obtain ⟨failed, codec, evicted, ha⟩ := h.accounts
    have hfetched : (t.publish slot result).fetchLog.length = _ := ha.fetched
    have hle := ha.codec_le
    by_cases hok : result = .ok
    · subst hok
      rw [if_pos (show Slot.Ready _ from hstate)] at hready
      have hcounters : (t.publish slot .ok).counters =
          if cfg.converting then { t.counters with conversions := t.counters.conversions + 1 }
          else t.counters := by simp [publish]
      refine ⟨failed, codec, evicted, hle, by omega, ?_, ?_, ?_, ?_, fun hc => ?_⟩ <;>
        rw [hcounters]
      · rw [apply_ite TableStats.fetches]
        simp [ha.fetches, publish]
      · rw [apply_ite TableStats.failed]
        simp [ha.failures]
      · rw [apply_ite TableStats.codecFailures]
        simp [ha.codecFailures]
      · rw [apply_ite TableStats.evictions]
        simp [ha.evictions]
      · rw [if_pos hc, show evicted + tally Slot.Ready (t.publish slot .ok).slots =
          evicted + tally Slot.Ready t.slots + 1 by omega, ofNat_succ, ← ha.conversions hc]
    · rw [if_neg (by simp [Slot.Ready, hstate, hok])] at hready
      have hcounters : (t.publish slot result).counters =
          { t.counters with
            failed := t.counters.failed + 1
            codecFailures :=
              if result = .codecFailed then t.counters.codecFailures + 1
              else t.counters.codecFailures } := by simp [publish, hok]
      refine ⟨failed + 1, if result = .codecFailed then codec + 1 else codec, evicted, ?_,
        by omega, ?_, ?_, ?_, ?_, fun hc => ?_⟩
      · split_ifs <;> omega
      all_goals rw [hcounters]
      · exact ha.fetches
      · rw [ha.failures, ofNat_succ]
      · dsimp only
        rw [ha.codecFailures]
        split_ifs
        · rw [ofNat_succ]
        · rfl
      · exact ha.evictions
      · rw [show tally Slot.Ready (t.publish slot result).slots = _ by omega]
        exact ha.conversions hc
  · by_cases hs' : s = slot
    · subst hs'
      exact absurd hs hused
    · rw [hother s hs'] at hs ⊢
      exact h.unpinned s hs
  · have hcount := h.nonFree
    show t.nonFree.toNat = _
    omega

/-- Every motion keeps the accounts. -/
theorem motion (h : t.LedgerInv) (hm : Motion t t') : t'.LedgerInv := by
  cases hm with
  | aside ha => exact h.aside ha
  | admitted answers slot row hv => exact h.admitted answers row hv
  | pinned slot hnot => exact h.repinned hnot rfl rfl rfl rfl rfl
  | unpinned slot hpins =>
      have hnot : (t.slots slot).state ≠ .free := fun hfree => hpins (h.unpinned slot hfree)
      exact h.repinned hnot rfl rfl rfl rfl rfl
  | published slot result hfill => exact h.published hfill result

theorem motions (h : t.LedgerInv) (hm : Motions t t') : t'.LedgerInv :=
  hm.invariant (fun _ _ hu hmotion => hu.motion hmotion) h

end LedgerInv

end Table

namespace World

variable {w w' : World cfg} {action : Action cfg}

/-- The accounts are right in every reachable state. -/
theorem ledgerInv_of_reachable {h : cfg.Accepted}
    (hw : Reachable World.step (World.start cfg h) w) : w.table.LedgerInv :=
  hw.invariant_of (fun _ => fillInv_of_reachable) (Table.LedgerInv.create h)
    fun _ _ _ hfill (hledger : Table.LedgerInv _) _ hstep =>
      hledger.motions (step_motions hfill hstep)

end World

end TieredCache
