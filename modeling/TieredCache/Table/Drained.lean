/-
# Drained means quiescent

All that `drain` and `invalidate` know of the transport is in the claims of the slots.  Where every
fill has entries for its claims, and no step gives up a live request, a drained table or binding
has no live request.
-/

import TieredCache.Table.FilledRows

namespace TieredCache

open Math.Runs

variable {cfg : TableConfig}

/-- The chunk claims of every slot are inside its array of them. -/
def Table.ClaimsInArray (t : Table cfg) : Prop :=
  cfg.chunked = true → ∀ s, (t.slots s).chunkClaims.length ≤ cfg.chunksPerRow.toNat

theorem Table.RowsInv.claimsInArray {t : Table cfg} (hrows : t.RowsInv) (hclaims : t.ClaimInv)
    (h : cfg.Checked) (hfit : cfg.ClaimsFit) : t.ClaimsInArray := by
  intro hchunked s
  have hall : (t.slots s).chunkClaims.length ≤ (t.slots s).claims.length := by
    rw [Slot.claims, List.length_append]
    exact Nat.le_add_left _ _
  apply hall.trans
  by_cases hfilling : (t.slots s).state = .filling
  · obtain ⟨ids, scratch, location, source, hfrom, hids, -⟩ := hrows s (Or.inl hfilling)
    have hlength := congrArg List.length hfrom.submitted.reads
    have hid := h.chunk_identity (TableConfig.chunked_spec hchunked).1
    rw [List.length_map, hids hfilling, TableConfig.fillReads, hid, if_neg (by decide),
      TableConfig.outputReads, if_pos hchunked] at hlength
    rw [hlength]
    exact hfit hchunked s _ _ (cfg.locate_eq_ok hfrom.located).2.2
  · rw [hclaims.claims_eq_nil hfilling]
    exact Nat.zero_le _

/-- In every run that gives up no live request, of a table whose slots have room for the claims of
every fill, drained means quiescent.  No claim is written outside its array. -/
theorem World.drained_quiescent {h : cfg.Accepted} (hfit : cfg.ClaimsFit) {w : World cfg}
    (hw : Reaches World.step GivesUpNothing (World.start cfg h) w) :
    w.DrainedIsQuiescent ∧ w.table.ClaimsInArray := by
  have hclaims := (claimsInv_of_reachable hw.reachable).claims
  constructor
  · exact drainedIsQuiescent (bookInv_of_reachable hw.reachable) hclaims (liveInv_of_reaches hw)
  · exact (rowsInv_of_reachable hw.reachable).claimsInArray hclaims h.checked hfit

/-! ## The condition is needed -/

/-- Row 0 of the small table is prefetched in two chunks, and the first one fails: the
worker publishes the failure while the second chunk is still live.  Then a thread calls
`drain`. -/
def lostChunkRun : List (Action twoShards) :=
  [.prefetch [0] 0 fun _ => {}, .deliver 0 .ioError, .work {}, .work {}, .work {}, .work {},
    .drain 0 false]

/-- A drain returns success with a live request left. -/
theorem drained_not_quiescent :
    ∃ w, Reachable World.step (World.start twoShards twoShards_accepted) w ∧
      ¬ w.DrainedIsQuiescent := by
  have hrun : (exec World.step lostChunkRun (World.start twoShards twoShards_accepted)).any
      fun w => w.table.inFlight = 0 ∧ 1 < w.table.requestCount ∧ (w.table.requests 1).Live := by
    decide +kernel
  obtain ⟨w, hw, hfacts⟩ := (Option.any_eq_true _ _).mp hrun
  obtain ⟨hzero, hcount, hlive⟩ := of_decide_eq_true hfacts
  exact ⟨w, reachable_of_exec .start hw, fun h => h.table hzero 1 hcount hlive⟩

/-- The same run with both chunks delivered before the worker looks. -/
def landedRun : List (Action twoShards) :=
  [.prefetch [0] 0 fun _ => {}, .deliver 0 .ioError, .deliver 1 .ok, .work {}, .work {},
    .work {}, .work {}, .drain 0 false]

/-- A run with a failing chunk that gives up no live request. -/
theorem drained_quiescent_landed :
    ∃ w, exec World.step landedRun (World.start twoShards twoShards_accepted) = some w ∧
      w.DrainedIsQuiescent ∧ w.table.ClaimsInArray := by
  have hrun : (exec World.step landedRun (World.start twoShards twoShards_accepted)).isSome := by
    decide +kernel
  have hallowed : AllAllowed World.step World.GivesUpNothing landedRun
      (World.start twoShards twoShards_accepted) := by
    decide +kernel
  obtain ⟨w, hw⟩ := Option.isSome_iff_exists.mp hrun
  have hsizes : twoShards.SizesExact := by decide
  exact ⟨w, hw, World.drained_quiescent (hsizes.claimsFit twoShards_accepted.checked)
    (reaches_of_exec .start hallowed hw)⟩

end TieredCache
