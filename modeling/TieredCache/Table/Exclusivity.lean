/-
# Who may write a slot

Every live request on the output storage is a claim of one slot, which is filling, and
writes nowhere else; no byte is the target of two live requests.  This holds while no
live request is given up and the sizes registration derives are exact.
-/

import TieredCache.Table.FillBounds
import TieredCache.Table.Quiescence

namespace TieredCache

open Math.Runs

variable {cfg : TableConfig}

namespace World

variable {w : World cfg}

/-- Live requests on the output storage belong to their slots. -/
structure DestinationsExclusive (w : World cfg) : Prop where
  /-- A live request is a current claim of one slot and of no other; the slot is filling,
  and the request targets bytes of this slot only. -/
  claimed : ∀ id < w.table.requestCount, (w.table.requests id).Live →
    (w.table.requests id).region = .output →
    ∃ slot, (id ∈ (w.table.slots slot).claims ∧ (w.table.slots slot).state = .filling ∧
      ∀ i, (w.table.requests id).Targets i → cfg.InSlot slot i) ∧
      ∀ slot', slot' ≠ slot → id ∉ (w.table.slots slot').claims ∧
        ∀ i, (w.table.requests id).Targets i → ¬ cfg.InSlot slot' i
  /-- The bytes of slots that are not filling are the target of no live request. -/
  untouched : ∀ slot, (w.table.slots slot).state ≠ .filling →
    ∀ id < w.table.requestCount, (w.table.requests id).Live →
    (w.table.requests id).region = .output →
    ∀ i, cfg.InSlot slot i → ¬ (w.table.requests id).Targets i
  /-- No byte is the target of two live requests. -/
  apart : ∀ id id', id < w.table.requestCount → id' < w.table.requestCount →
    (w.table.requests id).Live → (w.table.requests id').Live →
    (w.table.requests id).region = .output → (w.table.requests id').region = .output →
    ∀ i, (w.table.requests id).Targets i → (w.table.requests id').Targets i → id = id'

/-- Requests that target a common byte overlap. -/
theorem overlaps_of_targets {r r' : Request} {i : ℕ} (h : r.Targets i) (h' : r'.Targets i) :
    r.Overlaps r' :=
  lt_of_le_of_lt (max_le h.1 h'.1) (lt_min h.2 h'.2)

theorem destinationsExclusive (hchecked : cfg.Checked) (hsizes : cfg.SizesExact)
    (hclaims : w.table.ClaimInv) (hlive : w.table.LiveInv) : w.DestinationsExclusive := by
  -- What a claim on the output storage targets lies in the slot that holds it.
  have hinside : ∀ slot, ∀ id ∈ (w.table.slots slot).claims,
      (w.table.requests id).region = .output →
      ∀ i, (w.table.requests id).Targets i → cfg.InSlot slot i := by
    intro slot id hid hregion i htargets
    have hplanned := hclaims.planned slot id hid
    rw [hregion] at hplanned
    exact hplanned.inSlot hchecked hsizes htargets.1 htargets.2
  refine ⟨fun id hid hlives hregion => ?_, fun slot hstate id hid hlives hregion i hin htargets => ?_,
    fun id id' hid hid' hlives hlives' hregion hregion' i htargets htargets' => ?_⟩
  · obtain ⟨slot, hslot⟩ := hlive id hid hlives
    refine ⟨slot, ⟨hslot, hclaims.filling slot id hslot, hinside slot id hslot hregion⟩,
      fun slot' hne => ⟨fun hslot' => ?_, fun i htargets hin => ?_⟩⟩
    · exact hne (hclaims.own slot' slot id hslot' hslot)
    · exact hne (hin.unique (hinside slot id hslot hregion i htargets))
  · obtain ⟨owner, howner⟩ := hlive id hid hlives
    have hsame := (hinside owner id howner hregion i htargets).unique hin
    rw [← hsame] at hstate
    exact hstate (hclaims.filling owner id howner)
  · obtain ⟨slot, hslot⟩ := hlive id hid hlives
    obtain ⟨slot', hslot'⟩ := hlive id' hid' hlives'
    have hsame : slot = slot' :=
      (hinside slot id hslot hregion i htargets).unique
        (hinside slot' id' hslot' hregion' i htargets')
    rw [← hsame] at hslot'
    by_contra hne
    exact hclaims.apart id id' hid hid' hne hlives hlives'
      (hclaims.same_set slot id hslot id' hslot') (overlaps_of_targets htargets htargets')

/-- In every run that gives up no live request, on a table whose sizes are exact, live
requests write only into the slots that claim them. -/
theorem destinations_exclusive {h : cfg.Accepted} (hsizes : cfg.SizesExact)
    (hw : Reaches World.step GivesUpNothing (World.start cfg h) w) : w.DestinationsExclusive :=
  destinationsExclusive h.checked hsizes (claimsInv_of_reachable hw.reachable).claims
    (liveInv_of_reaches hw)

end World

/-! ## The condition is needed -/

/-- Row 0 fails with its second chunk still live.  Then row 1 is
fetched into the same slot through the other shard's transfer set, and completes. -/
def overwrittenRun : List (Action twoShards) :=
  [.prefetch [0] 0 fun _ => {}, .deliver 0 .ioError, .work {}, .work {}, .work {}, .work {},
    .prefetch [1] 1 fun _ => {}, .deliver 2 .ok, .deliver 3 .ok,
    .work {}, .work {}, .work {}, .work {}, .work {}, .work {}]

/-- A live request is left to write into a ready row. -/
theorem destinations_not_exclusive :
    ∃ w, Reachable World.step (World.start twoShards twoShards_accepted) w ∧
      ¬ w.DestinationsExclusive := by
  have hrun : (exec World.step overwrittenRun (World.start twoShards twoShards_accepted)).any
      fun w => 1 < w.table.requestCount ∧ (w.table.requests 1).Live ∧
        (w.table.requests 1).region = .output ∧ (w.table.requests 1).Targets 1 ∧
        (w.table.slots ⟨0, by decide⟩).state = .ready := by
    decide +kernel
  obtain ⟨w, hw, hfacts⟩ := (Option.any_eq_true _ _).mp hrun
  obtain ⟨hcount, hlive, hregion, htargets, hready⟩ := of_decide_eq_true hfacts
  refine ⟨w, reachable_of_exec .start hw, fun h => ?_⟩
  refine h.untouched ⟨0, by decide⟩ ?_ 1 hcount hlive hregion 1 ⟨by decide, by decide⟩ htargets
  rw [hready]
  decide

/-- Row 1 follows row 0 only after both of row 0's chunks are delivered; the run stops
with row 1's chunks live. -/
def replacedRun : List (Action twoShards) :=
  [.prefetch [0] 0 fun _ => {}, .deliver 0 .ioError, .deliver 1 .ok, .work {}, .work {},
    .work {}, .work {}, .prefetch [1] 1 fun _ => {}]

/-- A run that reuses a slot after a failed fill and gives up no live request. -/
theorem destinations_exclusive_replaced :
    ∃ w, exec World.step replacedRun (World.start twoShards twoShards_accepted) = some w ∧
      w.DestinationsExclusive := by
  have hrun : (exec World.step replacedRun (World.start twoShards twoShards_accepted)).isSome := by
    decide +kernel
  have hallowed : AllAllowed World.step World.GivesUpNothing replacedRun
      (World.start twoShards twoShards_accepted) := by
    decide +kernel
  obtain ⟨w, hw⟩ := Option.isSome_iff_exists.mp hrun
  exact ⟨w, hw, World.destinations_exclusive (by decide +kernel)
    (reaches_of_exec .start hallowed hw)⟩

end TieredCache
