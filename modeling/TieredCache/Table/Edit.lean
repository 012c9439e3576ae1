/-
# Sections as sequences of edits

A critical section is a sequence of a few kinds of edit.  `Sweep` is what a search for
a victim does, `Quiet` adds deliveries and admissions: none of them touches a filling
slot or a pinned one, except for the second-chance bit.  The sections of the public
operations are decomposed here once; invariants are then proved edit by edit.
-/

import Mathlib.Logic.Relation
import TieredCache.Table.IndexInvariant

namespace TieredCache.Table

variable {cfg : TableConfig} {t t' t'' : Table cfg} {slot : cfg.SlotId} {key : RowKey}

/-- No slot is indexed under the key. -/
def Absent (t : Table cfg) (key : RowKey) : Prop :=
  ∀ slot, (t.slots slot).indexed = true → (t.slots slot).key ≠ key

/-- An edit of a search for a victim. -/
inductive Sweep (t : Table cfg) : Table cfg → Prop
  | bookkeeping {t' : Table cfg} (h : Bookkeeping t t') : Sweep t t'
  | freed (slot : cfg.SlotId) (hpins : (t.slots slot).pins = 0)
      (hstate : (t.slots slot).state = .ready ∨ (t.slots slot).state = .failed) :
      Sweep t (t.makeFree slot)

/-- An edit that ends no fill. -/
inductive Quiet (t : Table cfg) : Table cfg → Prop
  | sweep {t' : Table cfg} (h : Sweep t t') : Quiet t t'
  | deliveries {t' : Table cfg} (h : Deliveries t t') : Quiet t t'
  | started (answers : Answers) (slot : cfg.SlotId) (row : UInt64)
      (hfree : (t.slots slot).state = .free) (habsent : t.Absent (row, t.currentGeneration)) :
      Quiet t (t.startFillLocked answers slot row).2

/-- A sequence of victim-search edits. -/
abbrev Sweeps : Table cfg → Table cfg → Prop := Relation.ReflTransGen Sweep

/-- A sequence of quiet edits. -/
abbrev Quiets : Table cfg → Table cfg → Prop := Relation.ReflTransGen Quiet

theorem Sweeps.quiets (h : Sweeps t t') : Quiets t t' := by
  induction h with
  | refl => exact .refl
  | tail _ hlast ih => exact ih.tail (.sweep hlast)

theorem Bookkeeping.quiets (h : Bookkeeping t t') : Quiets t t' := .single (.sweep (.bookkeeping h))

/-- A property every quiet edit keeps is kept by a sequence of them. -/
theorem Quiets.invariant {inv : Table cfg → Prop} (h : Quiets t t')
    (hedit : ∀ u u', inv u → Quiet u u' → inv u') (hinv : inv t) : inv t' := by
  induction h with
  | refl => exact hinv
  | tail _ hlast ih => exact hedit _ _ ih hlast

/-! ## What quiet edits leave alone -/

/-- Of a slot, at most the second-chance bit has changed. -/
def SameSlot (s s' : Slot cfg) : Prop := ∃ referenced, s' = { s with referenced := referenced }

theorem SameSlot.refl (s : Slot cfg) : SameSlot s s := ⟨s.referenced, rfl⟩

theorem SameSlot.trans {s s' s'' : Slot cfg} (h : SameSlot s s') (h' : SameSlot s' s'') :
    SameSlot s s'' := by
  obtain ⟨r, rfl⟩ := h
  obtain ⟨r', rfl⟩ := h'
  exact ⟨r', rfl⟩

/-- A slot no quiet edit touches: it is filling, or it is pinned and not free. -/
def Held (s : Slot cfg) : Prop := s.state = .filling ∨ s.pins ≠ 0 ∧ s.state ≠ .free

theorem SameSlot.held {s s' : Slot cfg} (h : SameSlot s s') (hs : Held s) : Held s' := by
  obtain ⟨r, rfl⟩ := h
  exact hs

/-- Where the binding of a number reads rows from. -/
def origin (t : Table cfg) (b : BindingId) : List ShardSource × RowExtentResolver :=
  (t.bindings b).origin

/-- The parts of a table that quiet edits leave alone altogether. -/
structure SameFrame (t t' : Table cfg) : Prop where
  currentGeneration : t'.currentGeneration = t.currentGeneration
  currentBinding : t'.currentBinding = t.currentBinding
  retiringBinding : t'.retiringBinding = t.retiringBinding
  bindingCount : t'.bindingCount = t.bindingCount
  origin : t'.origin = t.origin
  pinsTotal : t'.pinsTotal = t.pinsTotal
  pins : ∀ s, (t'.slots s).pins = (t.slots s).pins

theorem SameFrame.refl (t : Table cfg) : SameFrame t t := ⟨rfl, rfl, rfl, rfl, rfl, rfl, fun _ => rfl⟩

theorem SameFrame.trans (h : SameFrame t t') (h' : SameFrame t' t'') : SameFrame t t'' where
  currentGeneration := h'.currentGeneration.trans h.currentGeneration
  currentBinding := h'.currentBinding.trans h.currentBinding
  retiringBinding := h'.retiringBinding.trans h.retiringBinding
  bindingCount := h'.bindingCount.trans h.bindingCount
  origin := h'.origin.trans h.origin
  pinsTotal := h'.pinsTotal.trans h.pinsTotal
  pins := fun s => (h'.pins s).trans (h.pins s)

/-- An admission leaves the sources of every binding alone. -/
theorem startFillLocked_origin (t : Table cfg) (answers : Answers) (slot : cfg.SlotId)
    (row : UInt64) : (t.startFillLocked answers slot row).2.origin = t.origin := by
  obtain ⟨u, hu, hstart⟩ := t.startFillLocked_cases answers slot row
  have hsubmitted : u.origin = t.origin := by
    cases hu
    rfl
  rcases hstart with ⟨length, head, hstart⟩ | ⟨status, -, hstart⟩ <;> rw [hstart, ← hsubmitted]
  · funext b
    refine proj_update Binding.origin u.bindings ?_ b
    rfl
  · rfl

/-- The slots other than the one that is started stay as they are, and so does the
frame. -/
theorem startFillLocked_frame (t : Table cfg) (answers : Answers) (slot : cfg.SlotId)
    (row : UInt64) :
    SameFrame t (t.startFillLocked answers slot row).2 ∧
      ∀ s, s ≠ slot → (t.startFillLocked answers slot row).2.slots s = t.slots s := by
  have horigin := t.startFillLocked_origin answers slot row
  obtain ⟨u, hu, hstart⟩ := t.startFillLocked_cases answers slot row
  have hbegin : ∀ s, s ≠ slot → (t.beginAdmission slot row).slots s = t.slots s := fun s hs =>
    Function.update_of_ne hs _ _
  have hkeep : ∀ s, ((t.beginAdmission slot row).slots s).pins = (t.slots s).pins :=
    proj_update Slot.pins t.slots rfl
  cases hu with
  | mk slots used requests count submits lost claim scratch chunks hother hslot =>
      have hpins : ∀ s, (slots s).pins = (t.slots s).pins := by
        intro s
        by_cases hs : s = slot
        · subst hs
          rw [hslot]
          exact hkeep s
        · rw [hother s hs, hkeep s]
      rcases hstart with ⟨length, head, hstart⟩ | ⟨status, -, hstart⟩ <;> rw [hstart] at horigin ⊢
      all_goals
        refine ⟨⟨rfl, rfl, rfl, rfl, horigin, rfl, fun s => ?_⟩, fun s hs => ?_⟩
        · refine (proj_update Slot.pins slots ?_ s).trans (hpins s)
          rfl
        · exact (Function.update_of_ne hs _ _).trans ((hother s hs).trans (hbegin s hs))

theorem Sweep.frame (h : Sweep t t') :
    SameFrame t t' ∧ ∀ s, Held (t.slots s) → SameSlot (t.slots s) (t'.slots s) := by
  cases h with
  | bookkeeping h =>
      cases h with
      | mk slots tickets waiters hand held counters notifications hslots =>
          refine ⟨⟨rfl, rfl, rfl, rfl, rfl, rfl, fun s => ?_⟩, fun s _ => hslots s⟩
          obtain ⟨r, hs⟩ := hslots s
          show (slots s).pins = _
          rw [hs]
  | freed slot hpins hstate =>
      refine ⟨⟨rfl, rfl, rfl, rfl, rfl, rfl, proj_update Slot.pins t.slots rfl⟩, fun s hs => ?_⟩
      · have hne : s ≠ slot := by
          rintro rfl
          rcases hs with hfill | ⟨hpin, -⟩
          · rw [hfill] at hstate
            rcases hstate with h | h <;> cases h
          · exact hpin hpins
        refine ⟨(t.slots s).referenced, ?_⟩
        exact Function.update_of_ne hne ..

theorem Quiet.frame (h : Quiet t t') :
    SameFrame t t' ∧ ∀ s, Held (t.slots s) → SameSlot (t.slots s) (t'.slots s) := by
  cases h with
  | sweep h => exact h.frame
  | deliveries h =>
      cases h with
      | mk requests h => exact ⟨⟨rfl, rfl, rfl, rfl, rfl, rfl, fun _ => rfl⟩, fun s _ => .refl _⟩
  | started answers slot row hfree habsent =>
      obtain ⟨hframe, hother⟩ := t.startFillLocked_frame answers slot row
      refine ⟨hframe, fun s hs => ?_⟩
      have hne : s ≠ slot := by
        rintro rfl
        rcases hs with hfill | ⟨-, hnot⟩
        · rw [hfree] at hfill
          cases hfill
        · exact hnot hfree
      rw [hother s hne]
      exact .refl _

/-- Quiet edits leave the frame and every filling or pinned slot alone. -/
theorem Quiets.frame (h : Quiets t t') :
    SameFrame t t' ∧ ∀ s, Held (t.slots s) → SameSlot (t.slots s) (t'.slots s) := by
  induction h with
  | refl => exact ⟨.refl t, fun s _ => .refl _⟩
  | tail _ hlast ih =>
      obtain ⟨hframe, hslots⟩ := ih
      obtain ⟨hframe', hslots'⟩ := hlast.frame
      exact ⟨hframe.trans hframe', fun s hs =>
        (hslots s hs).trans (hslots' s ((hslots s hs).held hs))⟩

/-! ## The search for a victim -/

theorem Sweep.absent (h : Sweep t t') (habsent : t.Absent key) : t'.Absent key := by
  cases h with
  | bookkeeping h =>
      cases h with
      | mk slots tickets waiters hand held counters notifications hslots =>
          intro s hs
          obtain ⟨r, hr⟩ := hslots s
          dsimp only at hs ⊢
          rw [hr] at hs ⊢
          exact habsent s hs
  | freed slot hpins hstate =>
      intro s hs
      by_cases hslot : s = slot
      · subst hslot
        rw [show (t.makeFree s).slots s = _ from Function.update_self ..] at hs
        cases hs
      · rw [show (t.makeFree slot).slots s = _ from Function.update_of_ne hslot ..] at hs ⊢
        exact habsent s hs

theorem Sweeps.absent (h : Sweeps t t') (habsent : t.Absent key) : t'.Absent key := by
  induction h with
  | refl => exact habsent
  | tail _ hlast ih => exact hlast.absent ih

/-- The sweep makes victim-search edits, and a slot it returns is free. -/
theorem claimVictimLoop_spec (steps : ℕ) (t : Table cfg) :
    Sweeps t (claimVictimLoop steps t).2 ∧
      ∀ slot, (claimVictimLoop steps t).1 = some slot →
        ((claimVictimLoop steps t).2.slots slot).state = .free := by
  induction steps generalizing t with
  | zero => exact ⟨.refl, fun slot h => by cases h⟩
  | succ steps ih =>
      have hhand : Sweeps t { t with clockHand := nextHand t.clockHand } :=
        .single (.bookkeeping (.of_records t t.tickets t.waiters _ t.ticketsHeld t.counters))
      have hfreed : ∀ u : Table cfg, ∀ slot,
          ((u.makeFree slot).slots slot).state = .free := fun u slot =>
        congrArg Slot.state (Function.update_self slot _ u.slots)
      unfold claimVictimLoop
      dsimp only
      split_ifs with hfree hskip hfailed href
      · refine ⟨hhand, ?_⟩
        rintro slot ⟨⟩
        exact hfree
      · obtain ⟨hsweeps, hslot⟩ := ih { t with clockHand := nextHand t.clockHand }
        exact ⟨hhand.trans hsweeps, hslot⟩
      · rw [not_or, not_not] at hskip
        refine ⟨hhand.tail (.freed _ hskip.1 (Or.inr hfailed)), ?_⟩
        rintro slot ⟨⟩
        exact hfreed _ _
      · obtain ⟨hsweeps, hslot⟩ := ih
          (({ t with clockHand := nextHand t.clockHand }).modify t.clockHand fun s =>
            { s with referenced := false })
        exact ⟨(hhand.tail (.bookkeeping (.of_referenced _ _ false))).trans hsweeps, hslot⟩
      · rw [not_or, not_not] at hskip
        have hready : (t.slots t.clockHand).state = .ready := by
          cases hstate : (t.slots t.clockHand).state with
          | free => exact absurd hstate hfree
          | filling => exact absurd hstate hskip.2
          | ready => rfl
          | failed => exact absurd hstate hfailed
        refine ⟨(hhand.tail (.bookkeeping (.of_records _ t.tickets t.waiters _ t.ticketsHeld
          { t.counters with evictions := t.counters.evictions + 1 }))).tail
            (.freed _ hskip.1 (Or.inl hready)), ?_⟩
        rintro slot ⟨⟩
        exact hfreed _ _

/-- `claim_victim` makes victim-search edits, and the slot it returns is free. -/
theorem claimVictim_spec (t : Table cfg) :
    Sweeps t t.claimVictim.2 ∧
      ∀ slot, t.claimVictim.1 = some slot → (t.claimVictim.2.slots slot).state = .free :=
  claimVictimLoop_spec _ t

/-! ## Admission -/

/-- A fill that starts occupies its slot under the row's key. -/
theorem startFillLocked_ok {answers : Answers} {row : UInt64}
    (h : t.startFillLocked answers slot row = (.ok, t')) :
    (t'.slots slot).state = .filling ∧ (t'.slots slot).indexed = true ∧
      (t'.slots slot).key = (row, t.currentGeneration) ∧
      (t'.slots slot).filledThrough = t.currentBinding ∧
      t'.fetchLog = (row, t.currentGeneration) :: t.fetchLog := by
  obtain ⟨u, hu, ⟨length, head, hstart⟩ | ⟨status, hne, hstart⟩⟩ :=
    t.startFillLocked_cases answers slot row
  · rw [h, Prod.mk.injEq] at hstart
    obtain ⟨-, rfl⟩ := hstart
    have hself : (t.beginAdmission slot row).slots slot = _ := Function.update_self ..
    have hcommit : (u.commitFill slot length head).slots slot = _ := Function.update_self ..
    cases hu with
    | mk slots used requests count submits lost claim scratch chunks hother hslot =>
        rw [hcommit]
        rw [hself] at hslot
        dsimp only [Table.commitFill]
        rw [hslot]
        exact ⟨rfl, rfl, rfl, rfl, rfl⟩
  · rw [h, Prod.mk.injEq] at hstart
    exact absurd hstart.1.symm hne

/-- A fill that does not start leaves its slot failed. -/
theorem startFillLocked_refused {answers : Answers} {row : UInt64} {status : Status}
    (h : t.startFillLocked answers slot row = (status, t')) (hstatus : status ≠ .ok) :
    (t'.slots slot).state = .failed ∧ t'.fetchLog = t.fetchLog := by
  obtain ⟨u, hu, ⟨length, head, hstart⟩ | ⟨status', hne, hstart⟩⟩ :=
    t.startFillLocked_cases answers slot row
  · rw [h, Prod.mk.injEq] at hstart
    exact absurd hstart.1 hstatus
  · rw [h, Prod.mk.injEq] at hstart
    obtain ⟨-, rfl⟩ := hstart
    cases hu with
    | mk slots used requests count submits lost claim scratch chunks hother hslot =>
        exact ⟨congrArg Slot.state (Function.update_self slot _ slots), rfl⟩

theorem IndexInv.sweep (h : t.IndexInv) (he : Sweep t t') : t'.IndexInv := by
  cases he with
  | bookkeeping hb => exact h.bookkeeping hb
  | freed slot hpins hstate => exact h.makeFree slot

theorem IndexInv.sweeps (h : t.IndexInv) (he : Sweeps t t') : t'.IndexInv := by
  induction he with
  | refl => exact h
  | tail _ hlast ih => exact ih.sweep hlast

theorem IndexInv.quiet (h : t.IndexInv) (he : Quiet t t') : t'.IndexInv := by
  cases he with
  | sweep he => exact h.sweep he
  | deliveries hd =>
      cases hd with
      | mk requests hrequests => exact h.keep rfl fun s => ⟨rfl, rfl, Iff.rfl⟩
  | started answers slot row hfree habsent => exact h.startFillLocked answers hfree habsent

theorem IndexInv.quiets (h : t.IndexInv) (he : Quiets t t') : t'.IndexInv :=
  he.invariant (fun _ _ hu hedit => hu.quiet hedit) h

theorem Sweep.fetchLog (h : Sweep t t') : t'.fetchLog = t.fetchLog := by
  cases h with
  | bookkeeping h => cases h with | mk => rfl
  | freed => rfl

theorem Sweeps.fetchLog (h : Sweeps t t') : t'.fetchLog = t.fetchLog := by
  induction h with
  | refl => rfl
  | tail _ hlast ih => exact hlast.fetchLog.trans ih

/-- Claiming a victim for an absent row and starting a fill in it is quiet. -/
theorem quiets_startFillLocked (answers : Answers) {row : UInt64} {victim : Option cfg.SlotId}
    (hclaim : t.claimVictim = (victim, t')) (hvictim : victim = some slot)
    (habsent : t.Absent (row, t.currentGeneration)) :
    Quiets t (t'.startFillLocked answers slot row).2 := by
  obtain ⟨hsweeps, hfree⟩ := t.claimVictim_spec
  rw [hclaim] at hsweeps hfree
  have hgeneration := hsweeps.quiets.frame.1.currentGeneration
  refine hsweeps.quiets.tail (.started answers slot row (hfree slot hvictim) ?_)
  rw [hgeneration]
  exact hsweeps.absent habsent

/-- What phase A gets for one row: the slot that is filling or ready for it, and at most
one new fetch, which is for this row and only if no slot had it. -/
structure Admitted (t t' : Table cfg) (row : UInt64) (slot : cfg.SlotId) : Prop where
  indexed : (t'.slots slot).indexed = true
  key : (t'.slots slot).key = (row, t.currentGeneration)
  fetched : t'.fetchLog = t.fetchLog ∨
    t.Absent (row, t.currentGeneration) ∧ (t'.slots slot).state = .filling ∧
      t'.fetchLog = (row, t.currentGeneration) :: t.fetchLog

theorem findOrFetch_spec (h : t.IndexInv) (answers : Answers) (row : UInt64) :
    Quiets t (t.findOrFetch answers row).2 ∧
      (∀ slot, (t.findOrFetch answers row).1 = .ok slot →
        Admitted t (t.findOrFetch answers row).2 row slot) ∧
      ∀ status, (t.findOrFetch answers row).1 = .error status →
        status ≠ .ok ∧ (t.findOrFetch answers row).2.fetchLog = t.fetchLog := by
  unfold findOrFetch
  split
  · rename_i slot hfind
    obtain ⟨hindexed, hkey⟩ := h.indexFind_eq_some_iff.mp hfind
    refine ⟨?_, ?_, fun status hstatus => by cases hstatus⟩
    · dsimp only
      split
      · exact (Bookkeeping.of_records t _ _ _ _ _).quiets
      · exact (Bookkeeping.of_records t _ _ _ _ _).quiets
      · exact .refl
    · rintro slot ⟨⟩
      dsimp only
      split <;> exact ⟨hindexed, hkey, Or.inl rfl⟩
  · rename_i hfind
    have habsent : t.Absent (row, t.currentGeneration) := h.indexFind_eq_none_iff.mp hfind
    split
    · rename_i u hclaim
      have hsweeps := t.claimVictim_spec.1
      rw [hclaim] at hsweeps
      refine ⟨hsweeps.quiets, fun slot hslot => (by cases hslot), ?_⟩
      rintro status ⟨⟩
      exact ⟨by decide, hsweeps.fetchLog⟩
    · rename_i slot u hclaim
      have hquiets := quiets_startFillLocked answers hclaim rfl habsent
      have hsweeps := t.claimVictim_spec.1
      rw [hclaim] at hsweeps
      have hgeneration := hsweeps.quiets.frame.1.currentGeneration
      split
      · rename_i u' hstart
        rw [hstart] at hquiets
        refine ⟨hquiets, ?_, fun status hstatus => by cases hstatus⟩
        rintro slot ⟨⟩
        obtain ⟨hfilling, hindexed, hkey, -, hlog⟩ := startFillLocked_ok hstart
        rw [hgeneration] at hkey hlog
        exact ⟨hindexed, hkey, Or.inr ⟨habsent, hfilling, by rw [hlog, hsweeps.fetchLog]⟩⟩
      · rename_i status u' hne hstart
        rw [hstart] at hquiets
        refine ⟨hquiets, fun slot hslot => (by cases hslot), ?_⟩
        rintro status' ⟨⟩
        exact ⟨hne, (startFillLocked_refused hstart hne).2.trans hsweeps.fetchLog⟩

/-- `try_get` finds a ready slot of the current generation, and only counts. -/
theorem findReady_spec (h : t.IndexInv) (row : UInt64) :
    (∃ counters, (t.findReady row).2 = { t with counters := counters }) ∧
      ∀ slot, (t.findReady row).1 = some slot →
        (t.slots slot).state = .ready ∧ (t.slots slot).key = (row, t.currentGeneration) := by
  unfold findReady
  split
  · exact ⟨⟨_, rfl⟩, fun slot hslot => by cases hslot⟩
  · rename_i slot hfind
    obtain ⟨-, hkey⟩ := h.indexFind_eq_some_iff.mp hfind
    split_ifs with hready
    · exact ⟨⟨_, rfl⟩, fun slot hslot => by cases hslot⟩
    · refine ⟨⟨_, rfl⟩, ?_⟩
      rintro slot ⟨⟩
      exact ⟨not_not.mp hready, hkey⟩

/-! ## Prefetch and the other sections -/

theorem prefetchRow_quiets (h : t.IndexInv) (answers : Answers) (record : cfg.RecordId) (i : ℕ)
    (row : UInt64) : Quiets t (t.prefetchRow answers record i row) := by
  have hwaiter : ∀ (u : Table cfg) entry, Quiets u (u.setWaiter record i entry) := fun u entry =>
    (Bookkeeping.of_records u u.tickets _ u.clockHand u.ticketsHeld u.counters).quiets
  unfold prefetchRow
  split
  · rename_i hfind
    have habsent : t.Absent (row, t.currentGeneration) := h.indexFind_eq_none_iff.mp hfind
    split
    · rename_i u hclaim
      have hsweeps := t.claimVictim_spec.1
      rw [hclaim] at hsweeps
      exact hsweeps.quiets.trans (hwaiter u _)
    · rename_i slot u hclaim
      exact (quiets_startFillLocked answers hclaim rfl habsent).trans (hwaiter _ _)
  · split
    · exact (Bookkeeping.of_records t _ _ _ _ _).quiets.trans (hwaiter _ _)
    · exact (Bookkeeping.of_records t _ _ _ _ _).quiets.trans (hwaiter _ _)

theorem prefetchRows_quiets (answers : Answers) (record : cfg.RecordId) (rows : List UInt64)
    (h : t.IndexInv) (i : ℕ) : Quiets t (prefetchRows answers record i rows t) := by
  induction rows generalizing t i with
  | nil => exact .refl
  | cons row rows ih =>
      have hrow := prefetchRow_quiets h answers record i row
      exact hrow.trans (ih (h.quiets hrow) (i + 1))

theorem prefetch_quiets (h : t.IndexInv) (answers : Answers) (rows : List UInt64) :
    Quiets t (t.prefetch answers rows).2 := by
  unfold prefetch
  split_ifs
  · exact .refl
  · exact .refl
  · split
    · exact .refl
    · rename_i record hrecord
      have hopen : Quiets t (t.openRecord record rows.length) :=
        (Bookkeeping.of_records t _ t.waiters t.clockHand _ t.counters).quiets
      exact hopen.trans (prefetchRows_quiets answers record rows (h.quiets hopen) 0)

theorem discardTicket_quiets {ticket : Ticket cfg} (h : t.discardTicket ticket = some t') :
    Quiets t t' := by
  unfold discardTicket at h
  dsimp only at h
  split_ifs at h
  cases h
  exact (Bookkeeping.of_records t _ t.waiters t.clockHand _ t.counters).quiets

end TieredCache.Table
