/-
# What the slots were filled from

Every slot that is filling or ready belongs to a row its binding locates: the reads of
that row were submitted for it, and the span it exposes is where they put the row.  Once
it is ready all of them have been delivered.
-/

import TieredCache.Table.Quiescence
import TieredCache.Table.Submitted

namespace TieredCache

open Math.Runs

variable {cfg : TableConfig}

namespace Table

variable {t t' : Table cfg} {slot s : cfg.SlotId} {ids : List RequestId}
  {scratch : Option cfg.ScratchId} {location : RowLocation} {source : ShardSource}
  {answers : Answers} {row : UInt64} {result : Status}

/-- The reads of the located row were submitted for the slot, under these claims, and the
slot exposes the row where they put it. -/
structure FilledFrom (t : Table cfg) (s : cfg.SlotId) (ids : List RequestId)
    (scratch : Option cfg.ScratchId) (location : RowLocation) (source : ShardSource) : Prop where
  located : cfg.locate (t.origin (t.slots s).filledThrough).1 (t.origin (t.slots s).filledThrough).2
    (t.slots s).rowIndex = .ok (location, source)
  submitted : t.Submitted (t.slots s).filledThrough location.shard.toNat cfg.fillRegion ids
    (cfg.fillReads s scratch location.range source)
  scratch : cfg.converting = true → scratch.isSome
  offset : (t.slots s).publishedOffset =
    (fillWindow cfg.fillAlignment source.bytes location.range).head
  bytes : (t.slots s).publishedBytes =
    if cfg.converting then cfg.outputRowBytes else location.range.length

/-- The slot is filled from some row: its claims are on the reads while it is filling, and
all reads were delivered once it is ready. -/
def RowFilled (t : Table cfg) (s : cfg.SlotId) : Prop :=
  ∃ ids scratch location source, t.FilledFrom s ids scratch location source ∧
    ((t.slots s).state = .filling → ids = (t.slots s).claims) ∧
    ((t.slots s).state = .ready → ∀ id ∈ ids, (t.requests id).outcome = some .ok)

/-- Every slot with a row is filled from it. -/
def RowsInv (t : Table cfg) : Prop := ∀ s, (t.slots s).Occupied → t.RowFilled s

/-- A fill stays what it is while requests only end and its binding stays. -/
theorem FilledFrom.grows (h : t.FilledFrom s ids scratch location source) (hgrows : Grows t t')
    (horigin : t'.origin (t.slots s).filledThrough = t.origin (t.slots s).filledThrough)
    (hrow : (t'.slots s).rowIndex = (t.slots s).rowIndex)
    (hthrough : (t'.slots s).filledThrough = (t.slots s).filledThrough)
    (hoffset : (t'.slots s).publishedOffset = (t.slots s).publishedOffset)
    (hbytes : (t'.slots s).publishedBytes = (t.slots s).publishedBytes) :
    t'.FilledFrom s ids scratch location source where
  located := by
    rw [hthrough, horigin, hrow]
    exact h.located
  submitted := by
    rw [hthrough]
    exact h.submitted.grows hgrows
  scratch := h.scratch
  offset := hoffset.trans h.offset
  bytes := hbytes.trans h.bytes

/-- Deliveries in full stay. -/
theorem Submitted.landed {b : BindingId} {shard : ℕ} {region : Region} {reads : List Read}
    (h : t.Submitted b shard region ids reads) (hgrows : Grows t t')
    (hland : ∀ id ∈ ids, (t.requests id).outcome = some .ok) :
    ∀ id ∈ ids, (t'.requests id).outcome = some .ok := by
  intro id hid
  have hok := hland id hid
  have hdone : ¬ (t.requests id).Live := fun hlive => by
    rw [hlive] at hok
    cases hok
  rw [(hgrows.later id (h.set id hid).1).eq_of_delivered hdone]
  exact hok

/-- A slot of which nothing but pins and second-chance bit changes stays filled. -/
theorem RowFilled.sameFill (h : t.RowFilled s) (hslot : SameFill (t.slots s) (t'.slots s))
    (hgrows : Grows t t')
    (horigin : t'.origin (t.slots s).filledThrough = t.origin (t.slots s).filledThrough) :
    t'.RowFilled s := by
  obtain ⟨ids, scratch, location, source, hfrom, hclaims, hland⟩ := h
  obtain ⟨r, p, hr⟩ := hslot
  refine ⟨ids, scratch, location, source, hfrom.grows hgrows horigin ?_ ?_ ?_ ?_, ?_, ?_⟩
  all_goals rw [hr]
  · exact hclaims
  · exact fun hready => hfrom.submitted.landed hgrows (hland hready)

/-! ## Admission -/

/-- A fill that starts is a fill of the row it was asked for. -/
theorem startFillLocked_filled (hclaims : t.ClaimInv) (hfree : (t.slots slot).state = .free)
    (h : t.startFillLocked answers slot row = (.ok, t')) : t'.RowFilled slot := by
  have hnone : (t.slots slot).claims = [] := by
    apply hclaims.claims_eq_nil
    rw [hfree]
    decide
  have horigin := t.startFillLocked_origin answers slot row
  rw [h] at horigin
  have hself : (t.beginAdmission slot row).slots slot = _ := Function.update_self ..
  have hbegun : ((t.beginAdmission slot row).slots slot).claims = [] := by
    rw [hself]
    exact hnone
  unfold startFillLocked at h
  dsimp only at h
  split at h
  · rename_i status hlocate
    obtain ⟨rfl, -⟩ := Prod.mk.inj h
    exact absurd hlocate (cfg.locate_ne_error_ok _ _ _)
  · rename_i location source hlocate
    split at h
    · rename_i u hsubmit
      cases h
      obtain ⟨claim, scratch, chunks, hslot, hscratch, hsubmitted⟩ :=
        submitFill_submitted hbegun hsubmit
      rw [hself] at hslot
      have hcommit : (u.commitFill slot location.range.length
          (fillWindow cfg.fillAlignment source.bytes location.range).head).slots slot = _ :=
        Function.update_self ..
      rw [hslot] at hcommit
      refine ⟨(u.slots slot).claims, scratch, location, source, ?_, fun _ => ?_, fun hready => ?_⟩
      · refine ⟨?_, ?_, hscratch, ?_, ?_⟩ <;> rw [hcommit]
        · rw [horigin]
          exact hlocate
        · exact ⟨hsubmitted.reads, hsubmitted.set⟩
      · rw [hcommit, hslot]
        rfl
      · rw [hcommit] at hready
        cases hready
    · rename_i status u hne hsubmit
      obtain ⟨rfl, -⟩ := Prod.mk.inj h
      exact absurd rfl hne

/-! ## Edits -/

/-- A slot with a row after an edit is the same fill as before, or has just been started. -/
theorem Edit.occupied (h : Edit t t') (hs : (t'.slots s).Occupied) :
    SameFill (t.slots s) (t'.slots s) ∨
      ∃ answers row, (t.slots s).state = .free ∧
        t.startFillLocked answers s row = (.ok, t') := by
  have hupdate : ∀ (slot : cfg.SlotId) (s' : Slot cfg), t'.slots = Function.update t.slots slot s' →
      (s'.Occupied → SameFill (t.slots slot) s') → SameFill (t.slots s) (t'.slots s) := by
    intro slot s' hslots hslot
    rw [hslots] at hs ⊢
    by_cases hss : s = slot
    · subst hss
      rw [Function.update_self] at hs ⊢
      exact hslot hs
    · rw [Function.update_of_ne hss]
      exact .refl _
  cases h with
  | quiet h =>
      cases h with
      | sweep h =>
          cases h with
          | bookkeeping h =>
              cases h with
              | mk slots tickets waiters hand held counters notifications hslots =>
                  obtain ⟨r, hr⟩ := hslots s
                  exact Or.inl ⟨r, (t.slots s).pins, hr⟩
          | freed slot hpins hstate =>
              refine Or.inl (hupdate slot _ rfl fun hfree => ?_)
              rcases hfree with hfree | hfree <;> cases hfree
      | deliveries h =>
          cases h with
          | mk requests h => exact Or.inl (.refl _)
      | started answers slot row hfree habsent =>
          have hother := (t.startFillLocked_frame answers slot row).2 s
          by_cases hss : s = slot
          · subst hss
            cases hstart : t.startFillLocked answers s row with
            | mk status u =>
                rw [hstart] at hs
                by_cases hok : status = .ok
                · exact Or.inr ⟨answers, row, hfree, by rw [hok] at hstart; exact hstart⟩
                · have hfailed := (startFillLocked_refused hstart hok).1
                  rcases hs with hs | hs <;> rw [hfailed] at hs <;> cases hs
          · rw [hother hss]
            exact Or.inl (.refl _)
  | pinned slot => exact Or.inl (hupdate slot _ rfl fun _ => ⟨_, _, rfl⟩)
  | unpinned slot => exact Or.inl (hupdate slot _ rfl fun _ => ⟨_, _, rfl⟩)
  | dropped _ => exact Or.inl (.refl _)
  | installed _ _ _ _ => exact Or.inl (.refl _)

/-- An edit leaves the sources of the bindings there are alone. -/
theorem Edit.origin (h : Edit t t') {b : BindingId} (hb : b < t.bindingCount) :
    t'.origin b = t.origin b := by
  cases h with
  | quiet h => exact congrFun h.frame.1.origin b
  | pinned slot => rfl
  | unpinned slot => rfl
  | dropped _ => rfl
  | installed generation sources resolver _ =>
      show (Function.update t.bindings t.bindingCount _ b).origin = _
      rw [Function.update_of_ne (Nat.ne_of_lt hb)]
      rfl

namespace RowsInv

theorem create (h : cfg.Accepted) : (Table.create cfg h).RowsInv := fun s hs => by
  rcases hs with hs | hs <;> cases hs

theorem edit (h : t.RowsInv) (hclaims : t.ClaimInv) (hbooks : t.BookInv) (hpast : t.PastBindings)
    (he : Edit t t') : t'.RowsInv := by
  intro s hs
  rcases he.occupied hs with hsame | ⟨answers, row, hfree, hstart⟩
  · have hold : (t.slots s).Occupied := by
      obtain ⟨r, p, hr⟩ := hsame
      rw [hr] at hs
      exact hs
    refine (h s hold).sameFill hsame he.grows (he.origin ?_)
    exact lt_of_le_of_lt (hpast s) hbooks.current_lt
  · exact startFillLocked_filled hclaims hfree hstart

theorem edits (h : t.RowsInv) (hclaims : t.ClaimInv) (hbooks : t.BookInv) (hpast : t.PastBindings)
    (he : Edits t t') : t'.RowsInv := by
  have hall : t'.RowsInv ∧ t'.ClaimInv ∧ t'.BookInv ∧ t'.PastBindings := by
    induction he with
    | refl => exact ⟨h, hclaims, hbooks, hpast⟩
    | tail _ hlast ih =>
        obtain ⟨hrows, hclaims, hbooks, hpast⟩ := ih
        exact ⟨hrows.edit hclaims hbooks hpast hlast, (hlast.claims hclaims).1, hbooks.edit hlast,
          hpast.edit hbooks.current_lt hlast⟩
  exact hall.1

/-- A rewrite of one slot that is not its concern. -/
theorem update (h : t.RowsInv) (hgrows : Grows t t') (horigin : t'.origin = t.origin)
    {s' : Slot cfg} (hslots : t'.slots = Function.update t.slots slot s')
    (hslot : s'.Occupied → t'.RowFilled slot) : t'.RowsInv := by
  intro s hs
  by_cases hss : s = slot
  · subst hss
    rw [hslots, Function.update_self] at hs
    exact hslot hs
  · have hsame : t'.slots s = t.slots s := by rw [hslots, Function.update_of_ne hss]
    rw [hsame] at hs
    refine (h s hs).sameFill ?_ hgrows (by rw [horigin])
    rw [hsame]
    exact .refl _

/-- A finisher that comes or goes changes no row. -/
theorem setFinishing (h : t.RowsInv) (hgrows : Grows t t') (horigin : t'.origin = t.origin)
    {finishing : Bool}
    (hslots : t'.slots = Function.update t.slots slot { t.slots slot with finishing := finishing }) :
    t'.RowsInv := by
  refine h.update hgrows horigin hslots fun hs => ?_
  have hself : t'.slots slot = { t.slots slot with finishing := finishing } := by
    rw [hslots, Function.update_self]
  obtain ⟨ids, scratch, location, source, hfrom, hclaims, hland⟩ := h slot hs
  refine ⟨ids, scratch, location, source, hfrom.grows hgrows (by rw [horigin]) ?_ ?_ ?_ ?_, ?_, ?_⟩
  all_goals rw [hself]
  · exact hclaims
  · exact fun hready => hfrom.submitted.landed hgrows (hland hready)

/-- A row is published once all its reads are delivered. -/
theorem publish (h : t.RowsInv) (hfilling : (t.slots slot).state = .filling)
    (hland : result = .ok → t.AllLanded slot) : (t.publish slot result).RowsInv := by
  have hgrows : Grows t (t.publish slot result) := ⟨le_rfl, fun _ _ => .refl _, le_rfl⟩
  have horigin := (t.publish_sameBindings slot result).origin
  refine h.update hgrows horigin rfl fun hs => ?_
  have hok : result = .ok := by
    by_contra hne
    rcases hs with hs | hs <;> dsimp only at hs <;> rw [if_neg hne] at hs <;> cases hs
  have hself : (t.publish slot result).slots slot = _ := Function.update_self ..
  obtain ⟨ids, scratch, location, source, hfrom, hclaims, -⟩ := h slot (Or.inl hfilling)
  refine ⟨ids, scratch, location, source, hfrom.grows hgrows (by rw [horigin]) ?_ ?_ ?_ ?_,
    fun hstate => ?_, fun _ id hid => ?_⟩
  all_goals try rw [hself]
  · rw [hself, if_pos hok] at hstate
    cases hstate
  · rw [hclaims hfilling] at hid
    exact hland hok id hid

end RowsInv

end Table

namespace World

variable {w w' : World cfg} {action : Action cfg}

theorem rowsInv_step (hfill : w.FillInv) (hbooks : w.table.BookInv) (hclaims : w.ClaimsInv)
    (hpast : w.table.PastBindings) (h : w.table.RowsInv) (hstep : w.step action = some w') :
    w'.table.RowsInv := by
  cases step_move hfill.index hstep with
  | edits htable hlocal hsame => exact h.edits hclaims.claims hbooks hpast htable
  | tookOver g slot hagent hbefore hfilling hunclaimed htable hnow hothers =>
      rw [htable]
      exact h.setFinishing ⟨le_rfl, fun _ _ => .refl _, le_rfl⟩ rfl rfl
  | finishing g slot pc next deadline choice hagent hbefore hfinish hnow hothers =>
      obtain ⟨hfilling, -⟩ := hfill.driven g slot pc hbefore
      have hseen := hclaims.seen g slot pc hbefore
      have hmove := Table.finishStep_move hfilling hfinish
      generalize w'.table = t' at hmove
      cases hmove with
      | stays next => exact h
      | relinquished hpc => exact h.setFinishing ⟨le_rfl, fun _ _ => .refl _, le_rfl⟩ rfl rfl
      | published result hpc =>
          rw [hpc] at hseen
          exact h.publish hfilling hseen

/-- What the invariant on rows rests on, in every reachable state. -/
theorem rowsKnown {h : cfg.Accepted} (w : World cfg)
    (hw : Reachable World.step (World.start cfg h) w) :
    w.FillInv ∧ w.table.BookInv ∧ w.ClaimsInv ∧ w.table.PastBindings :=
  ⟨fillInv_of_reachable hw, bookInv_of_reachable hw, claimsInv_of_reachable hw,
    pastBindings_of_reachable hw⟩

/-- In every reachable state, every slot with a row is filled from it. -/
theorem rowsInv_of_reachable {h : cfg.Accepted}
    (hw : Reachable World.step (World.start cfg h) w) : w.table.RowsInv :=
  hw.invariant_of rowsKnown (Table.RowsInv.create h)
    fun _ _ _ ⟨hfill, hbooks, hclaims, hpast⟩ hrows _ hstep =>
      rowsInv_step hfill hbooks hclaims hpast hrows hstep

end World

end TieredCache
