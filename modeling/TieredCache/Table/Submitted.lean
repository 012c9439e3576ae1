/-
# What a fill has submitted

A slot that is being filled holds claims on exactly the reads its row calls for, in
order, made through the binding it was admitted under; and the span it will expose is
already recorded.
-/

import TieredCache.Table.Bindings
import TieredCache.Table.Claims
import TieredCache.Table.RowReads

namespace TieredCache

open Math.Runs

variable {cfg : TableConfig}

/-- Where the reads of a fill go. -/
def TableConfig.fillRegion (cfg : TableConfig) : Region := if cfg.converting then .scratch else .output

/-- The reads of a fill: those of its window, or one of the row into a scratch row. -/
def TableConfig.fillReads (cfg : TableConfig) (slot : cfg.SlotId) (scratch : Option cfg.ScratchId)
    (row : ByteRange) (shard : ShardSource) : List Read :=
  if cfg.converting then scratch.toList.map fun index => ⟨row, cfg.scratchBase index⟩
  else cfg.outputReads slot (fillWindow cfg.fillAlignment shard.bytes row).fill

namespace Table

variable {t t' u : Table cfg} {slot s : cfg.SlotId} {b : BindingId} {shard : ℕ} {region : Region}
  {ids ids' : List RequestId} {reads reads' : List Read} {location : RowLocation}
  {source : ShardSource} {answers : Answers}

/-- The claims are on requests for these reads, all of one transfer set. -/
structure Submitted (t : Table cfg) (b : BindingId) (shard : ℕ) (region : Region)
    (ids : List RequestId) (reads : List Read) : Prop where
  reads : ids.map (fun id => (t.requests id).read) = reads
  set : ∀ id ∈ ids, id < t.requestCount ∧ (t.requests id).binding = b ∧
    (t.requests id).shard = shard ∧ (t.requests id).region = region

namespace Submitted

theorem nil (t : Table cfg) : t.Submitted b shard region [] [] := ⟨rfl, fun id hid => by cases hid⟩

/-- Requests keep what they are for. -/
theorem grows (h : t.Submitted b shard region ids reads) (hgrows : Grows t t') :
    t'.Submitted b shard region ids reads where
  reads := by
    rw [← h.reads]
    apply List.map_congr_left
    intro id hid
    exact (hgrows.later id (h.set id hid).1).read_eq
  set := fun id hid => by
    obtain ⟨hlt, hb, hs, hr⟩ := h.set id hid
    obtain ⟨hb', hs', hr'⟩ := (hgrows.later id hlt).sameSet
    exact ⟨lt_of_lt_of_le hlt hgrows.count, hb'.trans hb, hs'.trans hs, hr'.trans hr⟩

theorem append (h : t.Submitted b shard region ids reads)
    (h' : t.Submitted b shard region ids' reads') :
    t.Submitted b shard region (ids ++ ids') (reads ++ reads') where
  reads := by rw [List.map_append, h.reads, h'.reads]
  set := fun id hid => (List.mem_append.mp hid).elim (h.set id) (h'.set id)

/-- The request that has just been accepted. -/
theorem accept (u : Table cfg) (r : Request) :
    (u.accept r).Submitted r.binding r.shard r.region [u.requestCount] [r.read] := by
  have hself : (u.accept r).requests u.requestCount = r := Function.update_self ..
  refine ⟨by rw [List.map_singleton, hself], fun id hid => ?_⟩
  rw [List.mem_singleton.mp hid, hself]
  exact ⟨Nat.lt_succ_self _, rfl, rfl, rfl⟩

end Submitted

/-! ## Submission -/

/-- A submit that is accepted claims the next request for the read. -/
theorem submit_submitted {r : Request} (h : t.submit answers r = (.ok, t')) :
    t'.slots = t.slots ∧ t'.currentBinding = t.currentBinding ∧
      t'.Submitted r.binding r.shard r.region [t.requestCount] [r.read] := by
  obtain ⟨u, hu, ⟨hsubmit, -⟩ | ⟨status, hne, hsubmit⟩⟩ := t.submit_cases answers r
  · rw [h, Prod.mk.injEq] at hsubmit
    obtain ⟨-, rfl⟩ := hsubmit
    obtain ⟨hslots, hcount, hcurrent, -⟩ := hu.fields
    rw [← hcount]
    exact ⟨hslots, hcurrent, .accept u r⟩
  · rw [h, Prod.mk.injEq] at hsubmit
    exact absurd hsubmit.1.symm hne

/-- Chunks that are all accepted are claimed in order. -/
theorem submitChunks_submitted
    (h : submitChunks answers slot shard reads t = (.ok, t')) :
    ∃ ids, t'.slots slot =
        { t.slots slot with chunkClaims := (t.slots slot).chunkClaims ++ ids } ∧
      t'.Submitted t.currentBinding shard .output ids reads := by
  induction reads generalizing t with
  | nil =>
      cases h
      exact ⟨[], by rw [List.append_nil], .nil _⟩
  | cons read rest ih =>
      unfold submitChunks at h
      split at h
      · rename_i u hsubmit
        obtain ⟨hslots, hcurrent, hfirst⟩ := submit_submitted hsubmit
        have hgrows := (submission_submitChunks answers slot shard rest
          (u.modify slot fun s => { s with chunkClaims := s.chunkClaims ++ [t.requestCount] })).grows
        obtain ⟨ids, hclaims, hrest⟩ := ih h
        rw [h] at hgrows
        have hself : (u.modify slot fun s =>
            { s with chunkClaims := s.chunkClaims ++ [t.requestCount] }).slots slot = _ :=
          Function.update_self ..
        have hcurrent : (u.modify slot fun s =>
            { s with chunkClaims := s.chunkClaims ++ [t.requestCount] }).currentBinding =
              t.currentBinding := hcurrent
        rw [hcurrent] at hrest
        have hfirst : (u.modify slot fun s =>
            { s with chunkClaims := s.chunkClaims ++ [t.requestCount] }).Submitted
              t.currentBinding shard .output [t.requestCount] [read] := ⟨hfirst.reads, hfirst.set⟩
        refine ⟨t.requestCount :: ids, ?_, (hfirst.grows hgrows).append hrest⟩
        rw [hclaims, hself, hslots, List.append_assoc]
        rfl
      · rename_i status u hne hsubmit
        cases h
        exact absurd rfl hne

/-- A fill whose reads are all accepted claims exactly those reads, in order. -/
theorem submitFill_submitted (hnone : (t.slots slot).claims = [])
    (h : t.submitFill answers slot location source = (.ok, t')) :
    ∃ claim scratch chunks, t'.slots slot =
        { t.slots slot with claim := claim, scratchSlot := scratch, chunkClaims := chunks } ∧
      (cfg.converting = true → scratch.isSome) ∧
      t'.Submitted t.currentBinding location.shard.toNat cfg.fillRegion (t'.slots slot).claims
        (cfg.fillReads slot scratch location.range source) := by
  obtain ⟨hclaim, hchunks⟩ := List.append_eq_nil_iff.mp hnone
  have hclaim : (t.slots slot).claim = none := by
    cases hc : (t.slots slot).claim with
    | none => rfl
    | some id =>
        rw [hc] at hclaim
        cases hclaim
  unfold submitFill at h
  dsimp only at h
  split at h
  · -- Chunk by chunk.
    rename_i hchunked
    have hid : cfg.converting = false := by simpa using (Bool.and_eq_true_iff.mp hchunked).1
    obtain ⟨hstatus, rfl⟩ := Prod.mk.inj h
    obtain ⟨ids, hslot, hsubmitted⟩ := submitChunks_submitted
      (Prod.ext (fromMempage_eq_ok_iff.mp hstatus) rfl)
    refine ⟨_, _, _, hslot, fun hc => absurd (hid.symm.trans hc) (by decide), ?_⟩
    rw [hslot, Slot.claims, hclaim, hchunks, TableConfig.fillRegion, if_neg (by rw [hid]; decide),
      TableConfig.fillReads, if_neg (by rw [hid]; decide), TableConfig.outputReads, if_pos hchunked]
    exact hsubmitted
  · rename_i hchunked
    split at h
    · -- One read of the window.
      rename_i hconverting
      have hid : cfg.converting = false := by simpa using hconverting
      split at h
      · rename_i u hsubmit
        cases h
        obtain ⟨hslots, -, hsubmitted⟩ := submit_submitted hsubmit
        have hself : (u.modify slot fun s => { s with claim := some t.requestCount }).slots slot = _ :=
          Function.update_self ..
        rw [hslots] at hself
        refine ⟨_, _, _, hself, fun hc => absurd (hid.symm.trans hc) (by decide), ?_⟩
        rw [hself, Slot.claims, hchunks, TableConfig.fillRegion, if_neg (by rw [hid]; decide),
          TableConfig.fillReads, if_neg (by rw [hid]; decide), TableConfig.outputReads,
          if_neg hchunked]
        exact ⟨hsubmitted.reads, hsubmitted.set⟩
      · rename_i status u hne hsubmit
        obtain ⟨hstatus, -⟩ := Prod.mk.inj h
        exact absurd (fromMempage_eq_ok_iff.mp hstatus) hne
    · -- One read of the row into a scratch row.
      rename_i hconverting
      have hconverting : cfg.converting = true := by simpa using hconverting
      split at h
      · cases h
      · rename_i scratch hscratch
        split at h
        · rename_i u hsubmit
          cases h
          obtain ⟨hslots, -, hsubmitted⟩ := submit_submitted hsubmit
          have hslots : u.slots = t.slots := hslots
          have hself : (u.modify slot fun s =>
              { s with scratchSlot := some scratch, claim := some t.requestCount }).slots slot = _ :=
            Function.update_self ..
          rw [hslots] at hself
          refine ⟨_, _, _, hself, fun _ => rfl, ?_⟩
          rw [hself, Slot.claims, hchunks,
            TableConfig.fillRegion, if_pos hconverting, TableConfig.fillReads, if_pos hconverting]
          exact ⟨hsubmitted.reads, hsubmitted.set⟩
        · rename_i status u hne hsubmit
          obtain ⟨hstatus, -⟩ := Prod.mk.inj h
          exact absurd (fromMempage_eq_ok_iff.mp hstatus) hne

end Table

end TieredCache
