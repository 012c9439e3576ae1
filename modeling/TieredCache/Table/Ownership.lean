/-
# Whose requests write where

A request writes for one slot: a filling slot that claims it, or the slot that is just being
started.  What it writes is in the room of that slot, its part of the output storage or the
scratch row it holds, and no byte is in the rooms of two slots.
-/

import TieredCache.Table.FillBooks
import TieredCache.Table.FillsExact

namespace TieredCache

open Math.Runs

variable {cfg : TableConfig}

/-! ## Scratch rows -/

namespace TableConfig

/-- Byte `i` of the scratch storage belongs to the scratch row. -/
def InScratch (cfg : TableConfig) (scratch : cfg.ScratchId) (i : ℕ) : Prop :=
  scratch.val * cfg.sourceRowBytes.toNat ≤ i ∧ i < (scratch.val + 1) * cfg.sourceRowBytes.toNat

/-- No byte belongs to two scratch rows. -/
theorem InScratch.unique {scratch scratch' : cfg.ScratchId} {i : ℕ} (h : cfg.InScratch scratch i)
    (h' : cfg.InScratch scratch' i) : scratch = scratch' := by
  have hdiv : i / cfg.sourceRowBytes.toNat = scratch.val := Nat.div_eq_of_lt_le h.1 h.2
  have hdiv' : i / cfg.sourceRowBytes.toNat = scratch'.val := Nat.div_eq_of_lt_le h'.1 h'.2
  exact Fin.ext (hdiv.symm.trans hdiv')

/-- A scratch row starts where exact arithmetic puts it. -/
theorem Checked.toNat_scratchBase (h : cfg.Checked) (hconv : cfg.converting = true)
    (scratch : cfg.ScratchId) :
    (cfg.scratchBase scratch).toNat = scratch.val * cfg.sourceRowBytes.toNat := by
  have hpos : 0 < cfg.scratchRows.toNat := scratch.pos
  have hstorage := UInt64.le_iff_toNat_le.mp (h.scratch hconv)
  rw [UInt64.toNat_div, UInt32.toNat_toUInt64, Nat.le_div_iff_mul_le hpos] at hstorage
  have hrow : scratch.val.toUInt64.toNat = scratch.val :=
    UInt64.toNat_ofNat_of_lt' (lt_trans scratch.isLt (lt_trans (UInt32.toNat_lt _) (by decide)))
  have hle : scratch.val * cfg.sourceRowBytes.toNat ≤
      cfg.sourceRowBytes.toNat * cfg.scratchRows.toNat := by
    rw [Nat.mul_comm]
    exact Nat.mul_le_mul_left _ scratch.isLt.le
  rw [scratchBase, UInt64.toNat_mul, hrow, Nat.mod_eq_of_lt]
  exact lt_of_le_of_lt (hle.trans hstorage) (by decide)

end TableConfig

namespace Table

variable {t t' u : Table cfg} {slot s : cfg.SlotId} {answers : Answers} {location : RowLocation}
  {source : ShardSource} {row : UInt64} {shard : ℕ} {reads : List Read} {status : MemStatus}
  {id id' : RequestId} {region : Region} {i : ℕ}

/-! ## The requests of an admission -/

/-- The request was accepted after the first state and before the second. -/
def New (t t' : Table cfg) (id : RequestId) : Prop := t.requestCount ≤ id ∧ id < t'.requestCount

/-- A submit accepts one request, or none. -/
theorem submit_new {r : Request} (h : t.submit answers r = (status, t')) :
    t'.slots = t.slots ∧ t'.currentBinding = t.currentBinding ∧
      ((status = .ok ∧ t'.requestCount = t.requestCount + 1 ∧ t'.requests t.requestCount = r) ∨
        (status ≠ .ok ∧ t'.requestCount = t.requestCount)) := by
  obtain ⟨u, hu, ⟨hsubmit, -⟩ | ⟨refusal, hne, hsubmit⟩⟩ := t.submit_cases answers r
  all_goals
    rw [h, Prod.mk.injEq] at hsubmit
    obtain ⟨hstatus, rfl⟩ := hsubmit
    obtain ⟨hslots, hcount, hcurrent, -⟩ := hu.fields
    refine ⟨hslots, hcurrent, ?_⟩
  · refine Or.inl ⟨hstatus, congrArg Nat.succ hcount, ?_⟩
    rw [← hcount]
    exact Function.update_self ..
  · rw [hstatus]
    exact Or.inr ⟨hne, hcount⟩

/-- The chunks accepted are among the reads of the fill, and they are claimed if none was
refused. -/
theorem submitChunks_new (h : submitChunks answers slot shard reads t = (status, t'))
    (hid : New t t' id) :
    (t'.requests id).region = .output ∧ (t'.requests id).read ∈ reads ∧
      (status = .ok → id ∈ (t'.slots slot).chunkClaims) := by
  induction reads generalizing t with
  | nil =>
      obtain ⟨-, rfl⟩ := Prod.mk.inj h
      exact absurd hid.1 (Nat.not_le_of_lt hid.2)
  | cons read rest ih =>
      unfold submitChunks at h
      split at h
      · rename_i next hsubmit
        obtain ⟨hslots, -, ⟨-, hcount, hrequest⟩ | ⟨hne, -⟩⟩ := submit_new hsubmit
        · have hgrows := (submission_submitChunks answers slot shard rest
            (next.modify slot fun s =>
              { s with chunkClaims := s.chunkClaims ++ [t.requestCount] })).grows
          rw [h] at hgrows
          by_cases hfirst : id = t.requestCount
          · have hlt : t.requestCount < next.requestCount := by
              rw [hcount]
              exact Nat.lt_succ_self _
            have hlater := hgrows.later t.requestCount hlt
            have hnow : (next.modify slot fun s =>
                { s with chunkClaims := s.chunkClaims ++ [t.requestCount] }).requests
                  t.requestCount = ⟨t.currentBinding, shard, .output, read, none⟩ := hrequest
            rw [hnow] at hlater
            rw [hfirst]
            refine ⟨hlater.sameSet.2.2, ?_, ?_⟩
            · rw [hlater.read_eq]
              exact List.mem_cons_self
            · rintro rfl
              obtain ⟨ids, hclaims, -⟩ := submitChunks_submitted h
              have hself : (next.modify slot fun s =>
                  { s with chunkClaims := s.chunkClaims ++ [t.requestCount] }).slots slot = _ :=
                Function.update_self ..
              rw [hclaims, hself]
              simp
          · have hrest : New (next.modify slot fun s =>
                { s with chunkClaims := s.chunkClaims ++ [t.requestCount] }) t' id := by
              refine ⟨?_, hid.2⟩
              show next.requestCount ≤ id
              rw [hcount]
              exact Nat.lt_of_le_of_ne hid.1 (Ne.symm hfirst)
            obtain ⟨hregion, hread, hclaimed⟩ := ih h hrest
            exact ⟨hregion, List.mem_cons_of_mem _ hread, hclaimed⟩
        · exact absurd rfl hne
      · rename_i refusal next hne hsubmit
        obtain ⟨rfl, rfl⟩ := Prod.mk.inj h
        obtain ⟨-, -, ⟨hok, -⟩ | ⟨-, hcount⟩⟩ := submit_new hsubmit
        · exact absurd hok hne
        · have hlt : id < next.requestCount := hid.2
          rw [hcount] at hlt
          exact absurd hid.1 (Nat.not_le_of_lt hlt)

/-- The requests of a fill are claimed if it is submitted; otherwise they are reads of the
slot's part of the output storage. -/
theorem submitFill_new (hlocated : cfg.Located location.range source) {outcome : Status}
    (h : t.submitFill answers slot location source = (outcome, t')) (hid : New t t' id) :
    if outcome = .ok then id ∈ (t'.slots slot).claims
    else (t'.requests id).region = .output ∧ cfg.Planned slot .output (t'.requests id).read := by
  have hone : ∀ {before after : Table cfg} {r : Request} {status : MemStatus},
      before.requestCount = t.requestCount → before.submit answers r = (status, after) →
      id < after.requestCount → status = .ok ∧ id = t.requestCount := by
    intro before after r status hcount hsubmit hlt
    obtain ⟨-, -, ⟨hok, hnext, -⟩ | ⟨-, hnext⟩⟩ := submit_new hsubmit <;>
      rw [hnext, hcount] at hlt
    · exact ⟨hok, Nat.le_antisymm (Nat.le_of_lt_succ hlt) hid.1⟩
    · exact absurd hid.1 (Nat.not_le_of_lt hlt)
  unfold submitFill at h
  dsimp only at h
  split at h
  · -- Chunk by chunk.
    rename_i hchunked
    have hidentity : cfg.converting = false := by
      simpa using (Bool.and_eq_true_iff.mp hchunked).1
    obtain ⟨rfl, rfl⟩ := Prod.mk.inj h
    obtain ⟨hregion, hread, hclaimed⟩ := submitChunks_new (Prod.ext rfl rfl) hid
    split_ifs with hok
    · exact List.mem_append_right _ (hclaimed (fromMempage_eq_ok_iff.mp hok))
    · refine ⟨hregion, location.range, source, hlocated, hidentity, ?_⟩
      rw [TableConfig.outputReads, if_pos hchunked]
      exact hread
  · split at h
    · -- One read of the window.
      split at h
      · rename_i next hsubmit
        obtain ⟨rfl, rfl⟩ := Prod.mk.inj h
        obtain ⟨-, hfirst⟩ := hone rfl hsubmit hid.2
        rw [if_pos rfl, hfirst,
          show (next.modify slot fun s => { s with claim := some t.requestCount }).slots slot = _ from
            Function.update_self ..]
        exact List.mem_append_left _ (List.mem_singleton_self _)
      · rename_i refusal next hne hsubmit
        obtain ⟨rfl, rfl⟩ := Prod.mk.inj h
        exact absurd (hone rfl hsubmit hid.2).1 hne
    · -- One read of the row into a scratch row.
      split at h
      · obtain ⟨-, rfl⟩ := Prod.mk.inj h
        exact absurd hid.1 (Nat.not_le_of_lt hid.2)
      · rename_i scratch hscratch
        have hcount : (t.setScratch scratch true).requestCount = t.requestCount := rfl
        split at h
        · rename_i next hsubmit
          obtain ⟨rfl, rfl⟩ := Prod.mk.inj h
          obtain ⟨-, hfirst⟩ := hone hcount hsubmit hid.2
          rw [if_pos rfl, hfirst,
            show (next.modify slot fun s =>
              { s with scratchSlot := some scratch, claim := some t.requestCount }).slots slot = _
              from Function.update_self ..]
          exact List.mem_append_left _ (List.mem_singleton_self _)
        · rename_i refusal next hne hsubmit
          obtain ⟨rfl, rfl⟩ := Prod.mk.inj h
          exact absurd (hone hcount hsubmit hid.2).1 hne

/-- The requests of an admission are claimed if it succeeds; otherwise they are reads of the
slot's part of the output storage. -/
theorem startFillLocked_new {outcome : Status}
    (h : t.startFillLocked answers slot row = (outcome, t')) (hid : New t t' id) :
    if outcome = .ok then id ∈ (t'.slots slot).claims
    else (t'.requests id).region = .output ∧ cfg.Planned slot .output (t'.requests id).read := by
  unfold startFillLocked at h
  dsimp only at h
  split at h
  · obtain ⟨-, rfl⟩ := Prod.mk.inj h
    exact absurd hid.1 (Nat.not_le_of_lt hid.2)
  · rename_i found shardSource hlocate
    have hlocated := (cfg.locate_eq_ok hlocate).2.2
    split at h <;> rename_i hsubmit <;> obtain ⟨rfl, rfl⟩ := Prod.mk.inj h
    · rename_i next
      have hid : New (t.beginAdmission slot row) next id := hid
      have hnew := submitFill_new hlocated hsubmit hid
      rw [if_pos rfl] at hnew ⊢
      rw [show (next.commitFill slot _ _).slots slot = _ from Function.update_self ..]
      exact hnew
    · rename_i next hne
      have hid : New (t.beginAdmission slot row) next id := hid
      have hnew := submitFill_new hlocated hsubmit hid
      rw [if_neg hne] at hnew ⊢
      exact hnew

/-- The claims a chunked fill gathers are on new requests. -/
theorem submitChunks_fresh (h : submitChunks answers slot shard reads t = (.ok, t'))
    (hid : id ∈ (t'.slots slot).chunkClaims) :
    id ∈ (t.slots slot).chunkClaims ∨ t.requestCount ≤ id := by
  induction reads generalizing t with
  | nil =>
      cases h
      exact Or.inl hid
  | cons read rest ih =>
      unfold submitChunks at h
      split at h
      · rename_i next hsubmit
        obtain ⟨hslots, -, ⟨-, hcount, -⟩ | ⟨hne, -⟩⟩ := submit_new hsubmit
        · have hself : (next.modify slot fun s =>
              { s with chunkClaims := s.chunkClaims ++ [t.requestCount] }).slots slot = _ :=
            Function.update_self ..
          rcases ih h with hold | hnew
          · rw [hself, hslots] at hold
            rcases List.mem_append.mp hold with hold | hlast
            · exact Or.inl hold
            · exact Or.inr (List.mem_singleton.mp hlast).ge
          · have hnew : next.requestCount ≤ id := hnew
            rw [hcount] at hnew
            exact Or.inr (Nat.le_of_succ_le hnew)
        · exact absurd rfl hne
      · rename_i refusal next hne hsubmit
        cases h
        exact absurd rfl hne

/-- The claims of a fill that has started are on new requests. -/
theorem startFillLocked_fresh (hnone : (t.slots slot).claims = [])
    (h : t.startFillLocked answers slot row = (.ok, t')) (hid : id ∈ (t'.slots slot).claims) :
    t.requestCount ≤ id := by
  have hself : (t.beginAdmission slot row).slots slot = _ := Function.update_self ..
  obtain ⟨hclaim, hchunks⟩ := List.append_eq_nil_iff.mp hnone
  have hbegun : ((t.beginAdmission slot row).slots slot).claim.toList = [] ∧
      ((t.beginAdmission slot row).slots slot).chunkClaims = [] := by
    rw [hself]
    exact ⟨hclaim, hchunks⟩
  -- One claim, on the request accepted last.
  have hone : ∀ {claim : Option RequestId} {chunks : List RequestId},
      claim.toList = [t.requestCount] → chunks = [] → id ∈ claim.toList ++ chunks →
      t.requestCount ≤ id := by
    intro claim chunks hclaim hchunks hid
    rw [hclaim, hchunks, List.append_nil] at hid
    exact (List.mem_singleton.mp hid).ge
  unfold startFillLocked at h
  dsimp only at h
  split at h
  · rename_i status hlocate
    obtain ⟨rfl, -⟩ := Prod.mk.inj h
    exact absurd hlocate (cfg.locate_ne_error_ok _ _ _)
  · rename_i found shardSource hlocate
    split at h
    · rename_i next hsubmit
      obtain ⟨-, rfl⟩ := Prod.mk.inj h
      rw [show (next.commitFill slot _ _).slots slot = _ from Function.update_self ..] at hid
      have hid : id ∈ (next.slots slot).claims := hid
      unfold submitFill at hsubmit
      dsimp only at hsubmit
      split at hsubmit
      · obtain ⟨hstatus, rfl⟩ := Prod.mk.inj hsubmit
        have hchunked : submitChunks answers slot _ _ (t.beginAdmission slot row) = (.ok, _) :=
          Prod.ext (fromMempage_eq_ok_iff.mp hstatus) rfl
        obtain ⟨ids, hslot, -⟩ := submitChunks_submitted hchunked
        rw [Slot.claims, hslot, hbegun.1, List.nil_append, ← hslot] at hid
        rcases submitChunks_fresh hchunked hid with hold | hnew
        · rw [hbegun.2] at hold
          cases hold
        · exact hnew
      · split at hsubmit
        · split at hsubmit
          · rename_i last haccepted
            obtain ⟨-, rfl⟩ := Prod.mk.inj hsubmit
            obtain ⟨hslots, -⟩ := submit_new haccepted
            rw [show (last.modify slot fun s =>
              { s with claim := some (t.beginAdmission slot row).requestCount }).slots slot = _ from
                Function.update_self .., hslots] at hid
            exact hone rfl hbegun.2 hid
          · rename_i refusal last hne hrefused
            obtain ⟨hstatus, -⟩ := Prod.mk.inj hsubmit
            exact absurd (fromMempage_eq_ok_iff.mp hstatus) hne
        · split at hsubmit
          · cases hsubmit
          · rename_i scratch hscratch
            split at hsubmit
            · rename_i last haccepted
              obtain ⟨-, rfl⟩ := Prod.mk.inj hsubmit
              obtain ⟨hslots, -⟩ := submit_new haccepted
              have hslots : last.slots = (t.beginAdmission slot row).slots := hslots
              rw [show (last.modify slot fun s =>
                { s with
                  scratchSlot := some scratch
                  claim := some (t.beginAdmission slot row).requestCount }).slots slot = _ from
                  Function.update_self .., hslots] at hid
              exact hone rfl hbegun.2 hid
            · rename_i refusal last hne hrefused
              obtain ⟨hstatus, -⟩ := Prod.mk.inj hsubmit
              exact absurd (fromMempage_eq_ok_iff.mp hstatus) hne
    · rename_i status next hne hsubmit
      obtain ⟨rfl, -⟩ := Prod.mk.inj h
      exact absurd rfl hne

/-! ## Rooms -/

/-- The bytes that are the slot's to fill: its part of the output storage, and the scratch
row it holds while it is filling. -/
def Room (t : Table cfg) (s : cfg.SlotId) : Region → ℕ → Prop
  | .output, i => cfg.InSlot s i
  | .scratch, i =>
      (t.slots s).state = .filling ∧
        ∃ scratch, (t.slots s).scratchSlot = some scratch ∧ cfg.InScratch scratch i

/-- No byte is in the rooms of two slots. -/
theorem Room.unique (hscratch : t.ScratchInv) {s s' : cfg.SlotId} (h : t.Room s region i)
    (h' : t.Room s' region i) : s = s' := by
  cases region with
  | output => exact TableConfig.InSlot.unique h h'
  | scratch =>
      obtain ⟨hfilling, scratch, hslot, hin⟩ := h
      obtain ⟨hfilling', scratch', hslot', hin'⟩ := h'
      rw [hin.unique hin'] at hslot
      exact hscratch.own s s' scratch' hfilling hfilling' hslot hslot'

/-- The scratch reads of a fill go to the scratch row its slot holds. -/
def ScratchReads (t : Table cfg) : Prop :=
  ∀ s, ∀ id ∈ (t.slots s).claims, (t.requests id).region = .scratch →
    ∃ scratch, (t.slots s).scratchSlot = some scratch ∧
      (t.requests id).read.destination = cfg.scratchBase scratch

namespace ScratchReads

theorem create (h : cfg.Accepted) : (Table.create cfg h).ScratchReads := fun s id hid => by
  cases hid

/-- Claims are given up, or stay with the scratch row. -/
theorem keep (h : t.ScratchReads) (hclaims : t.ClaimInv) (hgrows : Grows t t')
    (hslots : ∀ s, (t'.slots s).claims = [] ∨
      ((t'.slots s).claims = (t.slots s).claims ∧
        (t'.slots s).scratchSlot = (t.slots s).scratchSlot)) : t'.ScratchReads := by
  intro s id hid hregion
  rcases hslots s with hnone | ⟨hsame, hscratch⟩
  · rw [hnone] at hid
    cases hid
  · rw [hsame] at hid
    have hlater := hgrows.later id (hclaims.lt s id hid)
    rw [hlater.sameSet.2.2] at hregion
    rw [hscratch, hlater.read_eq]
    exact h s id hid hregion

/-- A finisher that comes or goes moves no claim. -/
theorem setFinishing (h : t.ScratchReads) (hclaims : t.ClaimInv) (hgrows : Grows t t')
    {finishing : Bool}
    (hslots : t'.slots = Function.update t.slots slot { t.slots slot with finishing := finishing }) :
    t'.ScratchReads := by
  refine h.keep hclaims hgrows fun s => Or.inr ?_
  rw [hslots]
  by_cases hs : s = slot
  · subst hs
    rw [Function.update_self]
    exact ⟨rfl, rfl⟩
  · rw [Function.update_of_ne hs]
    exact ⟨rfl, rfl⟩

/-- A fill that starts reads into the scratch row it has acquired. -/
theorem started (hclaims : t.ClaimInv) (hfree : (t.slots slot).state = .free)
    (h : t.startFillLocked answers slot row = (.ok, t')) (hid : id ∈ (t'.slots slot).claims)
    (hregion : (t'.requests id).region = .scratch) :
    ∃ scratch, (t'.slots slot).scratchSlot = some scratch ∧
      (t'.requests id).read.destination = cfg.scratchBase scratch := by
  have hnone : (t.slots slot).claims = [] := by
    apply hclaims.claims_eq_nil
    rw [hfree]
    decide
  have hself : (t.beginAdmission slot row).slots slot = _ := Function.update_self ..
  have hbegun : ((t.beginAdmission slot row).slots slot).claims = [] := by
    rw [hself]
    exact hnone
  unfold startFillLocked at h
  dsimp only at h
  split at h
  · rename_i status hlocate
    obtain ⟨rfl, -⟩ := Prod.mk.inj h
    exact absurd hlocate (cfg.locate_ne_error_ok _ _ _)
  · rename_i found shardSource hlocate
    split at h
    · rename_i next hsubmit
      obtain ⟨-, rfl⟩ := Prod.mk.inj h
      obtain ⟨claim, scratch, chunks, hslot, hscratch, hsubmitted⟩ :=
        submitFill_submitted hbegun hsubmit
      have hcommit : (next.commitFill slot found.range.length
          (fillWindow cfg.fillAlignment shardSource.bytes found.range).head).slots slot = _ :=
        Function.update_self ..
      rw [hcommit] at hid ⊢
      have hid : id ∈ (next.slots slot).claims := hid
      have hread := List.mem_map_of_mem (f := fun id => (next.requests id).read) hid
      rw [hsubmitted.reads] at hread
      have hkind := (hsubmitted.set id hid).2.2.2
      have hregion : (next.requests id).region = .scratch := hregion
      have hconv : cfg.converting = true := by
        by_contra hid
        rw [hregion, TableConfig.fillRegion, if_neg hid] at hkind
        cases hkind
      obtain ⟨index, hindex⟩ := Option.isSome_iff_exists.mp (hscratch hconv)
      rw [TableConfig.fillReads, if_pos hconv, hindex] at hread
      refine ⟨index, ?_, ?_⟩
      · rw [hslot]
        exact hindex
      · exact congrArg Read.destination (List.mem_singleton.mp hread)
    · rename_i status next hne hsubmit
      obtain ⟨rfl, -⟩ := Prod.mk.inj h
      exact absurd rfl hne

theorem edit (h : t.ScratchReads) (hclaims : t.ClaimInv) (he : Edit t t') : t'.ScratchReads := by
  intro s id hid hregion
  have hfilling := (he.claims hclaims).1.filling s id hid
  rcases he.occupied (Or.inl hfilling) with ⟨r, p, hr⟩ | ⟨answers, row, hfree, hstart⟩
  · rw [hr] at hid ⊢
    have hlater := he.grows.later id (hclaims.lt s id hid)
    rw [hlater.sameSet.2.2] at hregion
    rw [hlater.read_eq]
    exact h s id hid hregion
  · exact started hclaims hfree hstart hid hregion

theorem edits (h : t.ScratchReads) (hclaims : t.ClaimInv) (he : Edits t t') : t'.ScratchReads := by
  have hall : t'.ScratchReads ∧ t'.ClaimInv := by
    induction he with
    | refl => exact ⟨h, hclaims⟩
    | tail _ hlast ih => exact ⟨ih.1.edit ih.2 hlast, (hlast.claims ih.2).1⟩
  exact hall.1

end ScratchReads

/-- What a claim writes is in the room of the slot that holds it. -/
theorem claim_in_room (hchecked : cfg.Checked) (hsizes : cfg.SizesExact) (hclaims : t.ClaimInv)
    (hreads : t.ScratchReads) (hrows : t.RowsInv) (hid : id ∈ (t.slots s).claims)
    (htargets : (t.requests id).Targets i) : t.Room s (t.requests id).region i := by
  have hfilling := hclaims.filling s id hid
  cases hregion : (t.requests id).region with
  | output =>
      have hplanned := hclaims.planned s id hid
      rw [hregion] at hplanned
      exact hplanned.inSlot hchecked hsizes htargets.1 htargets.2
  | scratch =>
      obtain ⟨scratch, hslot, hdestination⟩ := hreads s id hid hregion
      refine ⟨hfilling, scratch, hslot, ?_⟩
      -- The read has the registered length.
      obtain ⟨ids, index, location, source, hfrom, hids, -⟩ := hrows s (Or.inl hfilling)
      rw [hids hfilling] at hfrom
      have hkind := (hfrom.submitted.set id hid).2.2.2
      have hconv : cfg.converting = true := by
        by_contra hid
        rw [hregion, TableConfig.fillRegion, if_neg hid] at hkind
        cases hkind
      have hread := List.mem_map_of_mem (f := fun id => (t.requests id).read) hid
      obtain ⟨own, hown⟩ := Option.isSome_iff_exists.mp (hfrom.scratch hconv)
      rw [hfrom.submitted.reads, TableConfig.fillReads, if_pos hconv, hown] at hread
      have hread : (t.requests id).read = ⟨location.range, cfg.scratchBase own⟩ :=
        List.mem_singleton.mp hread
      have hlength := (cfg.locate_eq_ok hfrom.located).2.2.length_converting hchecked hconv
      obtain ⟨hlo, hhi⟩ := htargets
      rw [hdestination, hchecked.toNat_scratchBase hconv] at hlo hhi
      rw [hread] at hhi
      dsimp only at hhi
      rw [hlength] at hhi
      refine ⟨hlo, ?_⟩
      rw [Nat.add_mul, Nat.one_mul]
      exact hhi

end Table

namespace World

variable {w w' : World cfg} {action : Action cfg}

theorem scratchReads_step (hfill : w.FillInv) (hclaims : w.ClaimsInv)
    (hreads : w.table.ScratchReads) (hstep : w.step action = some w') : w'.table.ScratchReads := by
  cases step_move hfill.index hstep with
  | edits htable hlocal hsame =>
      exact hreads.edits hclaims.claims htable
  | tookOver g slot hagent hbefore hfilling hunclaimed htable hnow hothers =>
      rw [htable]
      exact hreads.setFinishing hclaims.claims ⟨le_rfl, fun _ _ => .refl _, le_rfl⟩ rfl
  | finishing g slot pc next deadline choice hagent hbefore hfinish hnow hothers =>
      obtain ⟨hfilling, -⟩ := hfill.driven g slot pc hbefore
      have hmove := Table.finishStep_move hfilling hfinish
      generalize w'.table = t' at hmove
      cases hmove with
      | stays next => exact hreads
      | relinquished hpc =>
          exact hreads.setFinishing hclaims.claims ⟨le_rfl, fun _ _ => .refl _, le_rfl⟩ rfl
      | published result hpc =>
          refine hreads.keep hclaims.claims ⟨le_rfl, fun _ _ => .refl _, le_rfl⟩ fun s => ?_
          by_cases hs : s = slot
          · subst hs
            rw [show (w.table.publish s result).slots s = _ from Function.update_self ..]
            exact Or.inl rfl
          · rw [show (w.table.publish slot result).slots s = w.table.slots s from
              Function.update_of_ne hs ..]
            exact Or.inr ⟨rfl, rfl⟩

/-- Scratch reads go to the scratch rows of their slots in every reachable state. -/
theorem scratchReads_of_reachable {h : cfg.Accepted}
    (hw : Reachable World.step (World.start cfg h) w) : w.table.ScratchReads := by
  have hknown : ∀ u, Reachable World.step (World.start cfg h) u → u.FillInv ∧ u.ClaimsInv :=
    fun u hu => ⟨fillInv_of_reachable hu, claimsInv_of_reachable hu⟩
  exact hw.invariant_of hknown (Table.ScratchReads.create h)
    fun _ _ _ ⟨hfill, hclaims⟩ hreads _ hstep => scratchReads_step hfill hclaims hreads hstep

end World

end TieredCache
