/-
# The books of fills

With the counts of `Table.Books`, the scratch pool: the scratch rows marked as used are
those of the filling slots, each of one slot.  Together: at every exit of an admission and
of `finish_fill` all counts, flags and scratch rows are those of the slots that are still
filling.
-/

import TieredCache.Table.Bindings

namespace TieredCache

open Math.Runs Math.Tally

variable {cfg : TableConfig}

namespace Table

variable {t t' : Table cfg} {slot : cfg.SlotId} {answers : Answers} {location : RowLocation}
  {source : ShardSource} {row : UInt64}

/-- The used scratch rows are those of the filling slots. -/
structure ScratchInv (t : Table cfg) : Prop where
  used : ∀ i, t.scratchUsed i = true ↔
    ∃ s, (t.slots s).state = .filling ∧ (t.slots s).scratchSlot = some i
  own : ∀ s s' i, (t.slots s).state = .filling → (t.slots s').state = .filling →
    (t.slots s).scratchSlot = some i → (t.slots s').scratchSlot = some i → s = s'
  held : ∀ s, (t.slots s).state = .filling →
    (t.slots s).scratchSlot.isSome = cfg.converting

/-! ## Admission -/

theorem submit_scratch (t : Table cfg) (answers : Answers) (r : Request) :
    (t.submit answers r).2.scratchUsed = t.scratchUsed ∧ (t.submit answers r).2.slots = t.slots := by
  obtain ⟨u, hu, ⟨hsubmit, -⟩ | ⟨status, -, hsubmit⟩⟩ := t.submit_cases answers r <;>
    rw [hsubmit] <;> cases hu <;> exact ⟨rfl, rfl⟩

theorem submitChunks_scratch (answers : Answers) (slot : cfg.SlotId) (shard : ℕ)
    (reads : List Read) (t : Table cfg) :
    (submitChunks answers slot shard reads t).2.scratchUsed = t.scratchUsed ∧
      ((submitChunks answers slot shard reads t).2.slots slot).scratchSlot =
        (t.slots slot).scratchSlot := by
  induction reads generalizing t with
  | nil => exact ⟨rfl, rfl⟩
  | cons read rest ih =>
      obtain ⟨hused, hslots⟩ :=
        t.submit_scratch answers ⟨t.currentBinding, shard, .output, read, none⟩
      unfold submitChunks
      split
      · rename_i u hsubmit
        rw [hsubmit] at hused hslots
        obtain ⟨hrest, hslot⟩ := ih (u.modify slot fun s =>
          { s with chunkClaims := s.chunkClaims ++ [t.requestCount] })
        refine ⟨hrest.trans hused, hslot.trans ?_⟩
        show (Function.update u.slots slot _ slot).scratchSlot = _
        rw [Function.update_self, ← hslots]
      · rename_i status u hne hsubmit
        rw [hsubmit] at hused hslots
        refine ⟨hused, ?_⟩
        show (Function.update u.slots slot _ slot).scratchSlot = _
        rw [Function.update_self, ← hslots]

/-- A fill that is submitted takes a free scratch row if the table converts; one that is
refused takes none. -/
theorem submitFill_scratch (hnone : (t.slots slot).scratchSlot = none)
    (h : t.submitFill answers slot location source = (status, t')) :
    (status = .ok ∧ cfg.converting = false ∧ t'.scratchUsed = t.scratchUsed ∧
        (t'.slots slot).scratchSlot = none) ∨
      (status = .ok ∧ cfg.converting = true ∧ ∃ i, t.scratchUsed i = false ∧
        t'.scratchUsed = Function.update t.scratchUsed i true ∧
        (t'.slots slot).scratchSlot = some i) ∨
      (status ≠ .ok ∧ t'.scratchUsed = t.scratchUsed) := by
  unfold submitFill at h
  dsimp only at h
  split at h
  · -- Chunk by chunk.
    rename_i hchunked
    have hid : cfg.converting = false := by simpa using (Bool.and_eq_true_iff.mp hchunked).1
    obtain ⟨hused, hslot⟩ := submitChunks_scratch answers slot location.shard.toNat
      (cfg.chunkPlan slot (fillWindow cfg.fillAlignment source.bytes location.range).fill) t
    obtain ⟨hstatus, rfl⟩ := Prod.mk.inj h
    by_cases hok : status = .ok
    · exact Or.inl ⟨hok, hid, hused, hslot.trans hnone⟩
    · exact Or.inr (Or.inr ⟨hok, hused⟩)
  · split at h
    · -- One read of the window.
      rename_i hconverting
      have hid : cfg.converting = false := by simpa using hconverting
      obtain ⟨hused, hslots⟩ := t.submit_scratch answers ⟨t.currentBinding, location.shard.toNat,
        .output, ⟨(fillWindow cfg.fillAlignment source.bytes location.range).fill,
          cfg.slotBase slot⟩, none⟩
      split at h
      · rename_i u hsubmit
        rw [hsubmit] at hused hslots
        obtain ⟨rfl, rfl⟩ := Prod.mk.inj h
        refine Or.inl ⟨rfl, hid, hused, ?_⟩
        show (Function.update u.slots slot _ slot).scratchSlot = _
        rw [Function.update_self, hslots]
        exact hnone
      · rename_i refusal u hne hsubmit
        rw [hsubmit] at hused
        obtain ⟨rfl, rfl⟩ := Prod.mk.inj h
        exact Or.inr (Or.inr ⟨fun hok => hne (fromMempage_eq_ok_iff.mp hok), hused⟩)
    · -- One read of the row into a scratch row.
      rename_i hconverting
      have hconverting : cfg.converting = true := by simpa using hconverting
      split at h
      · obtain ⟨rfl, rfl⟩ := Prod.mk.inj h
        exact Or.inr (Or.inr ⟨by decide, rfl⟩)
      · rename_i i hacquire
        have hunused : t.scratchUsed i = false := by
          simpa using List.find?_some hacquire
        obtain ⟨hused, hslots⟩ := (t.setScratch i true).submit_scratch answers
          ⟨t.currentBinding, location.shard.toNat, .scratch,
            ⟨location.range, cfg.scratchBase i⟩, none⟩
        split at h
        · rename_i u hsubmit
          rw [hsubmit] at hused hslots
          obtain ⟨rfl, rfl⟩ := Prod.mk.inj h
          refine Or.inr (Or.inl ⟨rfl, hconverting, i, hunused, hused, ?_⟩)
          show (Function.update u.slots slot _ slot).scratchSlot = _
          rw [Function.update_self]
        · rename_i refusal u hne hsubmit
          rw [hsubmit] at hused
          obtain ⟨rfl, rfl⟩ := Prod.mk.inj h
          refine Or.inr (Or.inr ⟨fun hok => hne (fromMempage_eq_ok_iff.mp hok), ?_⟩)
          show Function.update u.scratchUsed i false = t.scratchUsed
          rw [hused]
          show Function.update (Function.update t.scratchUsed i true) i false = t.scratchUsed
          rw [Function.update_idem, ← hunused, Function.update_eq_self]

namespace ScratchInv

theorem create (h : cfg.Accepted) : (Table.create cfg h).ScratchInv where
  used := fun i => ⟨fun hi => (by cases hi), fun ⟨s, hs, _⟩ => by cases hs⟩
  own := fun s s' i hs => by cases hs
  held := fun s hs => by cases hs

/-- The filling slots and their scratch rows are the same. -/
theorem keep (h : t.ScratchInv) (hused : t'.scratchUsed = t.scratchUsed)
    (hslots : ∀ s, ((t'.slots s).state = .filling ↔ (t.slots s).state = .filling) ∧
      ((t.slots s).state = .filling → (t'.slots s).scratchSlot = (t.slots s).scratchSlot)) :
    t'.ScratchInv where
  used := fun i => by
    rw [hused, h.used i]
    constructor
    · rintro ⟨s, hs, hi⟩
      exact ⟨s, (hslots s).1.mpr hs, ((hslots s).2 hs).trans hi⟩
    · rintro ⟨s, hs, hi⟩
      have hs := (hslots s).1.mp hs
      exact ⟨s, hs, ((hslots s).2 hs).symm.trans hi⟩
  own := fun s s' i hs hs' hi hi' => by
    have hs := (hslots s).1.mp hs
    have hs' := (hslots s').1.mp hs'
    exact h.own s s' i hs hs' (((hslots s).2 hs).symm.trans hi) (((hslots s').2 hs').symm.trans hi')
  held := fun s hs => by
    have hs := (hslots s).1.mp hs
    rw [(hslots s).2 hs]
    exact h.held s hs

/-- A rewrite of one slot that is not its concern. -/
theorem update (h : t.ScratchInv) (hused : t'.scratchUsed = t.scratchUsed) {s' : Slot cfg}
    (hslots : t'.slots = Function.update t.slots slot s')
    (hstate : s'.state = .filling ↔ (t.slots slot).state = .filling)
    (hscratch : (t.slots slot).state = .filling → s'.scratchSlot = (t.slots slot).scratchSlot) :
    t'.ScratchInv := by
  refine h.keep hused fun s => ?_
  rw [hslots]
  by_cases hs : s = slot
  · subst hs
    rw [Function.update_self]
    exact ⟨hstate, hscratch⟩
  · rw [Function.update_of_ne hs]
    exact ⟨Iff.rfl, fun _ => rfl⟩

/-- A slot starts filling, with a scratch row nobody used if the table converts. -/
theorem begun (h : t.ScratchInv) (hslot : (t.slots slot).state ≠ .filling)
    (hother : ∀ s, s ≠ slot → t'.slots s = t.slots s) (hstate : (t'.slots slot).state = .filling)
    (htaken : (cfg.converting = false ∧ t'.scratchUsed = t.scratchUsed ∧
        (t'.slots slot).scratchSlot = none) ∨
      (cfg.converting = true ∧ ∃ i, t.scratchUsed i = false ∧
        t'.scratchUsed = Function.update t.scratchUsed i true ∧
        (t'.slots slot).scratchSlot = some i)) : t'.ScratchInv := by
  have hold : ∀ s, s ≠ slot → ((t'.slots s).state = .filling ↔ (t.slots s).state = .filling) ∧
      (t'.slots s).scratchSlot = (t.slots s).scratchSlot := fun s hs => by
    rw [hother s hs]
    exact ⟨Iff.rfl, rfl⟩
  -- The row the slot takes is the row of no other slot.
  have hfresh : ∀ s i, s ≠ slot → (t'.slots s).state = .filling →
      (t'.slots s).scratchSlot = some i → (t'.slots slot).scratchSlot ≠ some i := by
    intro s i hs hfill hi hself
    rcases htaken with ⟨-, -, hnone⟩ | ⟨-, j, hunused, -, hsome⟩
    · rw [hnone] at hself
      cases hself
    · rw [hsome] at hself
      rw [Option.some.inj hself] at hunused
      have hbusy := (h.used i).mpr ⟨s, (hold s hs).1.mp hfill, (hold s hs).2.symm.trans hi⟩
      rw [hunused] at hbusy
      cases hbusy
  refine ⟨fun i => ?_, fun s s' i hs hs' hi hi' => ?_, fun s hs => ?_⟩
  · have hothers : t.scratchUsed i = true ↔
        ∃ s, s ≠ slot ∧ (t'.slots s).state = .filling ∧ (t'.slots s).scratchSlot = some i := by
      rw [h.used i]
      constructor
      · rintro ⟨s, hs, hi⟩
        have hne : s ≠ slot := by
          rintro rfl
          exact hslot hs
        exact ⟨s, hne, (hold s hne).1.mpr hs, (hold s hne).2.trans hi⟩
      · rintro ⟨s, hne, hs, hi⟩
        exact ⟨s, (hold s hne).1.mp hs, (hold s hne).2.symm.trans hi⟩
    have hsplit : (∃ s, (t'.slots s).state = .filling ∧ (t'.slots s).scratchSlot = some i) ↔
        (t'.slots slot).scratchSlot = some i ∨ t.scratchUsed i = true := by
      rw [hothers]
      constructor
      · rintro ⟨s, hs, hi⟩
        by_cases hss : s = slot
        · subst hss
          exact Or.inl hi
        · exact Or.inr ⟨s, hss, hs, hi⟩
      · rintro (hi | ⟨s, -, hs, hi⟩)
        · exact ⟨slot, hstate, hi⟩
        · exact ⟨s, hs, hi⟩
    rw [hsplit]
    rcases htaken with ⟨-, hused, hnone⟩ | ⟨-, j, -, hused, hsome⟩
    · rw [hused, hnone]
      simp
    · rw [hused, hsome]
      by_cases hij : i = j
      · subst hij
        simp
      · rw [Function.update_of_ne hij]
        simp [Ne.symm hij]
  · by_cases hss : s = slot <;> by_cases hss' : s' = slot
    · rw [hss, hss']
    · subst hss
      exact absurd hi (hfresh s' i hss' hs' hi')
    · subst hss'
      exact absurd hi' (hfresh s i hss hs hi)
    · exact h.own s s' i ((hold s hss).1.mp hs) ((hold s' hss').1.mp hs')
        ((hold s hss).2.symm.trans hi) ((hold s' hss').2.symm.trans hi')
  · by_cases hss : s = slot
    · subst hss
      rcases htaken with ⟨hid, -, hnone⟩ | ⟨hconv, i, -, -, hsome⟩
      · rw [hnone, hid]
        rfl
      · rw [hsome, hconv]
        rfl
    · rw [(hold s hss).2]
      exact h.held s ((hold s hss).1.mp hs)

theorem startFillLocked (h : t.ScratchInv) (answers : Answers) (row : UInt64)
    (hfree : (t.slots slot).state = .free) :
    (t.startFillLocked answers slot row).2.ScratchInv := by
  have hslot : (t.slots slot).state ≠ .filling := by
    rw [hfree]
    decide
  have hother := (t.startFillLocked_frame answers slot row).2
  -- An admission that fails leaves the pool and the other slots alone.
  have hrefused : ∀ u : Table cfg, u.scratchUsed = t.scratchUsed →
      (∀ s, s ≠ slot → u.slots s = t.slots s) → ∀ status, (u.failFill slot status).ScratchInv := by
    intro u hused hslots status
    refine h.keep hused fun s => ?_
    by_cases hs : s = slot
    · subst hs
      rw [show (u.failFill s status).slots s = _ from Function.update_self ..]
      exact ⟨iff_of_false (fun hfill => by cases hfill) hslot, fun hfill => absurd hfill hslot⟩
    · rw [show (u.failFill slot status).slots s = u.slots s from Function.update_of_ne hs ..,
        hslots s hs]
      exact ⟨Iff.rfl, fun _ => rfl⟩
  have hbegun : ((t.beginAdmission slot row).slots slot).scratchSlot = none := by
    rw [show (t.beginAdmission slot row).slots slot = _ from Function.update_self ..]
  have hbegunOther : ∀ s, s ≠ slot → (t.beginAdmission slot row).slots s = t.slots s :=
    fun s hs => Function.update_of_ne hs ..
  cases hstart : t.startFillLocked answers slot row with
  | mk status t' =>
      rw [hstart] at hother
      dsimp only at hother ⊢
      unfold Table.startFillLocked at hstart
      dsimp only at hstart
      split at hstart
      · obtain ⟨rfl, rfl⟩ := Prod.mk.inj hstart
        exact hrefused (t.beginAdmission slot row) rfl hbegunOther _
      · rename_i location source hlocate
        have hsubmission := submission_submitFill (t.beginAdmission slot row) answers slot location
          source
        split at hstart <;> rename_i hsubmit <;> rw [hsubmit] at hsubmission <;>
          obtain ⟨rfl, rfl⟩ := Prod.mk.inj hstart
        · rename_i u
          have hfilling : (u.slots slot).state = .filling := by
            cases hsubmission with
            | mk slots used requests count submits lost claim scratch chunks hothers hslots =>
                dsimp only
                rw [hslots, show (t.beginAdmission slot row).slots slot = _ from
                  Function.update_self ..]
          refine h.begun hslot hother ?_ ?_ <;>
            rw [show (u.commitFill slot _ _).slots slot = _ from Function.update_self ..]
          · exact hfilling
          · rcases submitFill_scratch hbegun hsubmit with ⟨-, hid, hused, hnone⟩ |
              ⟨-, hconv, i, hunused, hused, hsome⟩ | ⟨hne, -⟩
            · exact Or.inl ⟨hid, hused, hnone⟩
            · exact Or.inr ⟨hconv, i, hunused, hused, hsome⟩
            · exact absurd rfl hne
        · rename_i u hne
          have hslots : ∀ s, s ≠ slot → u.slots s = t.slots s := by
            intro s hs
            cases hsubmission with
            | mk slots used requests count submits lost claim scratch chunks hothers hslots =>
                exact (hothers s hs).trans (hbegunOther s hs)
          rcases submitFill_scratch hbegun hsubmit with ⟨hok, -⟩ | ⟨hok, -⟩ | ⟨-, hused⟩
          · exact absurd hok hne
          · exact absurd hok hne
          · exact hrefused _ hused hslots _

theorem quiet (h : t.ScratchInv) (he : Quiet t t') : t'.ScratchInv := by
  cases he with
  | sweep he =>
      cases he with
      | bookkeeping hb =>
          cases hb with
          | mk slots tickets waiters hand held counters notifications hslots =>
              refine h.keep rfl fun s => ?_
              obtain ⟨r, hr⟩ := hslots s
              dsimp only
              rw [hr]
              exact ⟨Iff.rfl, fun _ => rfl⟩
      | freed slot hpins hstate =>
          have hslot : (t.slots slot).state ≠ .filling := by
            rcases hstate with hs | hs <;> rw [hs] <;> decide
          exact h.update rfl rfl ⟨fun hfill => (by cases hfill), fun hfill => absurd hfill hslot⟩
            fun hfill => absurd hfill hslot
  | deliveries hd =>
      cases hd with
      | mk requests hrequests => exact h.keep rfl fun s => ⟨Iff.rfl, fun _ => rfl⟩
  | started answers slot row hfree habsent => exact h.startFillLocked answers row hfree

theorem edit (h : t.ScratchInv) (he : Edit t t') : t'.ScratchInv := by
  cases he with
  | quiet he => exact h.quiet he
  | pinned slot => exact h.update rfl rfl Iff.rfl fun _ => rfl
  | unpinned slot => exact h.update rfl rfl Iff.rfl fun _ => rfl
  | dropped _ => exact h.keep rfl fun s => ⟨Iff.rfl, fun _ => rfl⟩
  | installed _ _ _ _ => exact h.keep rfl fun s => ⟨Iff.rfl, fun _ => rfl⟩

/-- The end of a fill gives its scratch row back. -/
theorem publish (h : t.ScratchInv) (hslot : (t.slots slot).state = .filling) (result : Status) :
    (t.publish slot result).ScratchInv := by
  have hself : (t.publish slot result).slots slot = _ := Function.update_self ..
  have hother : ∀ s, s ≠ slot → (t.publish slot result).slots s = t.slots s := fun s hs =>
    Function.update_of_ne hs ..
  have hended : ((t.publish slot result).slots slot).state ≠ .filling := by
    rw [hself]
    dsimp only
    split_ifs <;> decide
  have hne : ∀ s, ((t.publish slot result).slots s).state = .filling → s ≠ slot := by
    rintro s hs rfl
    exact hended hs
  have hheld := h.held slot hslot
  refine ⟨fun i => ?_, fun s s' i hs hs' hi hi' => ?_, fun s hs => ?_⟩
  · -- The used rows are the old ones less the slot's own.
    have hused : (t.publish slot result).scratchUsed i = true ↔
        t.scratchUsed i = true ∧ (t.slots slot).scratchSlot ≠ some i := by
      cases hscratch : (t.slots slot).scratchSlot with
      | none => simp [Table.publish, hscratch]
      | some j =>
          rw [hscratch] at hheld
          simp only [Table.publish, hscratch]
          rw [if_pos (show cfg.converting = true from hheld.symm)]
          by_cases hij : i = j
          · subst hij
            simp
          · rw [Function.update_of_ne hij]
            simp [Ne.symm hij]
    rw [hused, h.used i]
    constructor
    · rintro ⟨⟨s, hs, hi⟩, hnot⟩
      have hss : s ≠ slot := by
        rintro rfl
        exact hnot hi
      exact ⟨s, by rw [hother s hss]; exact hs, by rw [hother s hss]; exact hi⟩
    · rintro ⟨s, hs, hi⟩
      have hss := hne s hs
      rw [hother s hss] at hs hi
      exact ⟨⟨s, hs, hi⟩, fun hself => hss (h.own s slot i hs hslot hi hself)⟩
  · have hslots := hother s (hne s hs)
    have hslots' := hother s' (hne s' hs')
    rw [hslots] at hs hi
    rw [hslots'] at hs' hi'
    exact h.own s s' i hs hs' hi hi'
  · have hslots := hother s (hne s hs)
    rw [hslots] at hs ⊢
    exact h.held s hs

end ScratchInv

end Table

namespace World

variable {w w' : World cfg} {action : Action cfg}

theorem scratchInv_step (hfill : w.FillInv) (h : w.table.ScratchInv)
    (hstep : w.step action = some w') : w'.table.ScratchInv := by
  cases step_move hfill.index hstep with
  | edits htable hlocal hsame => exact htable.invariant (fun _ _ hu hedit => hu.edit hedit) h
  | tookOver g slot hagent hbefore hfilling hunclaimed htable hnow hothers =>
      rw [htable]
      exact h.update rfl rfl Iff.rfl fun _ => rfl
  | finishing g slot pc next deadline choice hagent hbefore hfinish hnow hothers =>
      obtain ⟨hfilling, -⟩ := hfill.driven g slot pc hbefore
      have hmove := Table.finishStep_move hfilling hfinish
      generalize w'.table = t' at hmove
      cases hmove with
      | stays next => exact h
      | relinquished hpc => exact h.update rfl rfl Iff.rfl fun _ => rfl
      | published result hpc => exact h.publish hfilling result

/-- The scratch pool is in order in every reachable state. -/
theorem scratchInv_of_reachable {h : cfg.Accepted}
    (hw : Reachable World.step (World.start cfg h) w) : w.table.ScratchInv :=
  hw.invariant_of (fun _ => fillInv_of_reachable) (.create h)
    fun _ _ _ hfill hinv _ hstep => scratchInv_step hfill hinv hstep

/-- The counts, flags and scratch rows of a state are those of its filling slots. -/
structure FillBooksExact (w : World cfg) : Prop where
  /-- `in_flight_` is the number of filling slots, -/
  inFlight : w.table.inFlight.toNat = tally (fun s => s.state = .filling) w.table.slots
  /-- and the sum over the two bindings. -/
  sum : w.table.inFlight.toNat =
    (w.table.bindings w.table.currentBinding).inFlight.toNat +
      (w.table.retiringBinding.elim 0 fun b => (w.table.bindings b).inFlight.toNat)
  /-- The counter of a binding counts the slots that name it. -/
  counted : ∀ b, (w.table.bindings b).inFlight.toNat =
    tally (fun s => s.fillBinding = some b) w.table.slots
  /-- A slot names a binding exactly while it is filling, -/
  named : ∀ s, (w.table.slots s).fillBinding.isSome ↔ (w.table.slots s).state = .filling
  /-- and that binding is the current or the retiring one. -/
  known : ∀ s b, (w.table.slots s).fillBinding = some b →
    b = w.table.currentBinding ∨ w.table.retiringBinding = some b
  /-- A thread in `finish_fill` drives a filling slot whose flag is set, -/
  driven : ∀ g slot pc, w.finisher g = some (slot, pc) →
    (w.table.slots slot).state = .filling ∧ (w.table.slots slot).finishing = true
  /-- and is the only one that does. -/
  alone : ∀ g g' slot pc pc', w.finisher g = some (slot, pc) →
    w.finisher g' = some (slot, pc') → g = g'
  /-- In a converting table the used scratch rows are those of the filling slots, -/
  scratch : cfg.converting = true → ∀ i, w.table.scratchUsed i = true ↔
    ∃ s, (w.table.slots s).state = .filling ∧ (w.table.slots s).scratchSlot = some i
  /-- each of which has one of its own. -/
  scratch_own : cfg.converting = true → ∀ s, (w.table.slots s).state = .filling →
    ∃ i, (w.table.slots s).scratchSlot = some i ∧
      ∀ s', (w.table.slots s').state = .filling → (w.table.slots s').scratchSlot = some i → s' = s
  /-- Waiting for the claims of a fill changes nothing, -/
  waits : ∀ g slot pc pc' action w', w.finisher g = some (slot, pc) → action.agent = some g →
    w.step action = some w' → w'.finisher g = some (slot, pc') → w'.table = w.table
  /-- and giving up at a deadline only clears the flag, and tells the waiters. -/
  timeout : ∀ g slot action w', w.finisher g = some (slot, .timedOut) →
    action.agent = some g → w.step action = some w' →
    w'.table = { w.table with
      slots := Function.update w.table.slots slot
        { w.table.slots slot with finishing := false }
      notifications := w.table.notifications + 1 }

/-- The fills of the two bindings are all the fills there are. -/
theorem inFlight_eq_sum (h : w.table.BookInv) :
    w.table.inFlight.toNat = (w.table.bindings w.table.currentBinding).inFlight.toNat +
      (w.table.retiringBinding.elim 0 fun b => (w.table.bindings b).inFlight.toNat) := by
  rw [h.inFlight, h.binding]
  cases hretiring : w.table.retiringBinding with
  | none =>
      rw [Option.elim_none, Nat.add_zero]
      refine tally_congr fun s => ⟨fun hs => ⟨hs, ?_⟩, fun hs => hs.1⟩
      refine (h.known s hs).resolve_right fun hold => ?_
      rw [hretiring] at hold
      cases hold
  | some b =>
      have hlt := h.retiring_lt b hretiring
      rw [Option.elim_some, h.binding]
      refine tally_split (Set.toFinite _) (Set.toFinite _) (fun s => ?_) fun s hs hs' => ?_
      · constructor
        · intro hs
          rcases h.known s hs with hcurrent | hold
          · exact Or.inl ⟨hs, hcurrent⟩
          · rw [hretiring] at hold
            exact Or.inr ⟨hs, (Option.some.inj hold).symm⟩
        · exact fun hs => hs.elim And.left And.left
      · have hsame := hs.2.symm.trans hs'.2
        exact absurd hsame.symm (Nat.ne_of_lt hlt)

/-- In every reachable state the books of fills are exact. -/
theorem fill_books_exact {h : cfg.Accepted} (hw : Reachable World.step (World.start cfg h) w) :
    w.FillBooksExact := by
  obtain ⟨hfill, hbooks⟩ := booksKnown w hw
  have hscratch := scratchInv_of_reachable hw
  have hnames : ∀ s b, (w.table.slots s).fillBinding = some b ↔
      (w.table.slots s).state = .filling ∧ (w.table.slots s).filledThrough = b := by
    intro s b
    rw [hbooks.names s]
    by_cases hs : (w.table.slots s).state = .filling
    · simp [hs]
    · simp [hs]
  have hfinish : ∀ g slot pc action w', w.finisher g = some (slot, pc) →
      action.agent = some g → w.step action = some w' →
      ∃ next deadline choice, w'.finisher g = next.map (fun pc' => (slot, pc')) ∧
        w.table.finishStep slot deadline choice pc = some (next, w'.table) := by
    intro g slot pc action w' hbefore hagent hstep
    cases agent_move hfill.index hagent hstep with
    | edits hnone =>
        rw [hbefore] at hnone
        cases hnone
    | tookOver slot' hnone =>
        rw [hbefore] at hnone
        cases hnone
    | finishing slot' pc' next deadline choice hbefore' hstep' hafter =>
        rw [hbefore] at hbefore'
        cases hbefore'
        exact ⟨next, deadline, choice, hafter, hstep'⟩
  refine ⟨hbooks.inFlight, inFlight_eq_sum hbooks, fun b => ?_, fun s => ?_, fun s b hb => ?_,
    hfill.driven, hfill.alone, fun _ => hscratch.used, fun hconv s hs => ?_, ?_, ?_⟩
  · rw [hbooks.binding b]
    exact tally_congr fun s => (hnames s b).symm
  · rw [hbooks.names s]
    split_ifs with hs <;> simp [hs]
  · obtain ⟨hs, rfl⟩ := (hnames s b).mp hb
    exact hbooks.known s hs
  · have hheld := hscratch.held s hs
    rw [hconv] at hheld
    obtain ⟨i, hi⟩ := Option.isSome_iff_exists.mp hheld
    exact ⟨i, hi, fun s' hs' hi' => hscratch.own s' s i hs' hs hi' hi⟩
  · intro g slot pc pc' action w' hbefore hagent hstep hafter
    obtain ⟨next, deadline, choice, hnow, hfinish⟩ := hfinish g slot pc action w' hbefore hagent hstep
    have hmove := Table.finishStep_move (hfill.driven g slot pc hbefore).1 hfinish
    rw [hafter] at hnow
    cases next with
    | none => cases hnow
    | some pc'' =>
        generalize w'.table = t' at hmove
        cases hmove
        rfl
  · intro g slot action w' hbefore hagent hstep
    obtain ⟨next, deadline, choice, -, hfinish⟩ :=
      hfinish g slot .timedOut action w' hbefore hagent hstep
    exact (Prod.mk.inj (Option.some.inj hfinish)).2.symm

end World

/-! ## A run -/

/-- Row 0 of the small table is prefetched and the worker waits for its first chunk; then
row 1 is refused for want of a slot. -/
def refusedRun : List (Action twoShards) :=
  [.prefetch [0] 0 fun _ => {}, .work {}, .work {}, .prefetch [1] 1 fun _ => {}]

/-- A run that stops with a fill in flight and driven. -/
theorem fill_books_exact_refused :
    ∃ w, exec World.step refusedRun (World.start twoShards twoShards_accepted) = some w ∧
      w.table.inFlight = 1 ∧ w.FillBooksExact := by
  have hrun : (exec World.step refusedRun (World.start twoShards twoShards_accepted)).any
      fun w => w.table.inFlight = 1 := by
    decide +kernel
  obtain ⟨w, hw, hfacts⟩ := (Option.any_eq_true _ _).mp hrun
  exact ⟨w, hw, of_decide_eq_true hfacts, World.fill_books_exact (reachable_of_exec .start hw)⟩

end TieredCache
