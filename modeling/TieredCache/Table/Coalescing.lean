/-
# Coalescing and no sticky failure

Requests for one row and generation share one fill, and a failed fill is never found
again.  Both follow from the index invariant, which holds at every point of every
section of every run.
-/

import TieredCache.Table.Finishers

namespace TieredCache

open Math.Runs

variable {cfg : TableConfig}

namespace Table

/-- What the row index promises a request. -/
structure Coalesces (t : Table cfg) : Prop where
  /-- A filling or ready slot is found under its own key. -/
  found : ∀ slot, (t.slots slot).Occupied → t.indexFind (t.slots slot).key = some slot
  /-- A free or failed slot is never found. -/
  not_found : ∀ slot, ¬ (t.slots slot).Occupied → ∀ key, t.indexFind key ≠ some slot
  /-- Only filling and ready slots are indexed, and only under their own keys. -/
  indexed : ∀ slot, (t.slots slot).indexed = true ↔ (t.slots slot).Occupied
  /-- No two slots are indexed under one key. -/
  unique : ∀ slot other, (t.slots slot).indexed = true → (t.slots other).indexed = true →
    (t.slots slot).key = (t.slots other).key → slot = other
  /-- At most one slot is being filled for a row and generation. -/
  one_fill : ∀ slot other, (t.slots slot).state = .filling → (t.slots other).state = .filling →
    (t.slots slot).key = (t.slots other).key → slot = other
  /-- `resolve_into` joins the slot a row already has, and starts no fetch. -/
  resolve_joins : ∀ answers row slot, (t.slots slot).Occupied →
    (t.slots slot).key = (row, t.currentGeneration) →
    (t.findOrFetch answers row).1 = .ok slot ∧
      (t.findOrFetch answers row).2.fetchLog = t.fetchLog ∧
      (t.findOrFetch answers row).2.slots = t.slots
  /-- `prefetch` joins the slot a row already has, and starts no fetch. -/
  prefetch_joins : ∀ answers record i row slot, (t.slots slot).Occupied →
    (t.slots slot).key = (row, t.currentGeneration) →
    (t.prefetchRow answers record i row).fetchLog = t.fetchLog ∧
      (t.prefetchRow answers record i row).slots = t.slots
  /-- `try_get` never hands out a slot that is not ready. -/
  hit_ready : ∀ row slot, (t.findReady row).1 = some slot → (t.slots slot).state = .ready

/-- The index invariant is all that is needed. -/
theorem IndexInv.coalesces {t : Table cfg} (h : t.IndexInv) : t.Coalesces := by
  have hfind : ∀ row slot, (t.slots slot).Occupied →
      (t.slots slot).key = (row, t.currentGeneration) →
      t.indexFind (row, t.currentGeneration) = some slot := fun row slot hocc hkey =>
    h.indexFind_eq_some_iff.mpr ⟨(h.occupied slot).mpr hocc, hkey⟩
  exact {
    found := fun slot hocc => h.indexFind_eq_some_iff.mpr ⟨(h.occupied slot).mpr hocc, rfl⟩
    not_found := fun slot hocc key hfound =>
      hocc ((h.occupied slot).mp (h.indexFind_eq_some_iff.mp hfound).1)
    indexed := h.occupied
    unique := fun slot other => h.eq_of_key_eq
    one_fill := fun slot other hslot hother =>
      h.eq_of_key_eq ((h.occupied slot).mpr (Or.inl hslot)) ((h.occupied other).mpr (Or.inl hother))
    resolve_joins := fun answers row slot hocc hkey => by
      unfold findOrFetch
      rw [hfind row slot hocc hkey]
      dsimp only
      split <;> exact ⟨rfl, rfl, rfl⟩
    prefetch_joins := fun answers record i row slot hocc hkey => by
      unfold prefetchRow
      rw [hfind row slot hocc hkey]
      dsimp only
      split <;> exact ⟨rfl, rfl⟩
    hit_ready := fun row slot hhit => ((findReady_spec h row).2 slot hhit).1 }

end Table

/-- In every reachable state, and at every point inside the section that comes next,
requests coalesce and no failure sticks. -/
theorem requests_coalesce {h : cfg.Accepted} {w : World cfg}
    (hw : Reachable World.step (World.start cfg h) w) {t : Table cfg}
    (ht : Table.Edits w.table t) : t.Coalesces :=
  ((World.fillInv_of_reachable hw).index.edits ht).coalesces

/-- Row 0 of the small table is prefetched. -/
def prefetchRun : Option (World twoShards) :=
  exec World.step [.prefetch [0] 0 fun _ => {}] (World.start twoShards twoShards_accepted)

/-- While row 0 is being filled, another request for it joins the fill. -/
theorem requests_coalesce_prefetched :
    ∃ w, prefetchRun = some w ∧ w.table.Coalesces := by
  obtain ⟨w, hw⟩ := Option.isSome_iff_exists.mp (show prefetchRun.isSome by decide +kernel)
  exact ⟨w, hw, requests_coalesce (reachable_of_exec .start hw) .refl⟩

end TieredCache
