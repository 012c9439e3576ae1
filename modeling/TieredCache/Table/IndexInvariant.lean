/-
# The index invariant

The row index holds exactly the slots marked as indexed, each under its own key, and
these are exactly the filling and ready slots.  Every operation of a slot's life keeps
this, in three ways: it leaves keys, marks and occupation alone, it takes one slot out,
or it puts one slot in.
-/

import TieredCache.Table.Frames

namespace TieredCache

open Math.OpenAddressing

variable {cfg : TableConfig}

/-- The index holds the occupied slots under their keys. -/
structure Table.IndexInv (t : Table cfg) : Prop where
  wellFormed : WellFormed (Table.indexHome cfg) t.keyOf t.index
  stored : ∀ slot, Holds t.index slot ↔ (t.slots slot).indexed = true
  occupied : ∀ slot, (t.slots slot).indexed = true ↔ (t.slots slot).Occupied

namespace Table.IndexInv

variable {t t' : Table cfg} {slot other : cfg.SlotId} {key : RowKey}

/-! ## Lookups -/

/-- A lookup finds the indexed slot with the key. -/
theorem indexFind_eq_some_iff (h : t.IndexInv) :
    t.indexFind key = some slot ↔ (t.slots slot).indexed = true ∧ (t.slots slot).key = key := by
  obtain ⟨found, hfound, hspec⟩ := indexFind_spec h.wellFormed key
  unfold Table.indexFind
  rw [hfound, Option.join_some, hspec slot, h.stored]
  rfl

/-- A lookup fails if no indexed slot has the key. -/
theorem indexFind_eq_none_iff (h : t.IndexInv) :
    t.indexFind key = none ↔ ∀ slot, (t.slots slot).indexed = true → (t.slots slot).key ≠ key := by
  rw [Option.eq_none_iff_forall_ne_some]
  refine forall_congr' fun slot => ?_
  rw [Ne, h.indexFind_eq_some_iff, not_and]

/-- No two slots are indexed under one key. -/
theorem eq_of_key_eq (h : t.IndexInv) (hslot : (t.slots slot).indexed = true)
    (hother : (t.slots other).indexed = true) (hkey : (t.slots slot).key = (t.slots other).key) :
    slot = other :=
  h.wellFormed.eq_of_key_eq ((h.stored slot).mpr hslot) ((h.stored other).mpr hother) hkey

/-! ## Removing and adding an entry -/

/-- `unindex_locked` takes exactly the slot out of the index. -/
theorem unindexed_spec (h : t.IndexInv) (slot : cfg.SlotId) :
    WellFormed (Table.indexHome cfg) t.keyOf (t.unindexed slot) ∧
      ∀ s, Holds (t.unindexed slot) s ↔ (t.slots s).indexed = true ∧ s ≠ slot := by
  unfold Table.unindexed
  split_ifs with hindexed
  · obtain ⟨index', herase, hwf, hholds⟩ :=
      indexErase_spec h.wellFormed ((h.stored slot).mpr hindexed)
    unfold Table.indexErase
    rw [herase, Option.getD_some]
    refine ⟨hwf, fun s => ?_⟩
    rw [hholds, h.stored]
  · refine ⟨h.wellFormed, fun s => ?_⟩
    rw [h.stored]
    refine ⟨fun hs => ⟨hs, ?_⟩, fun hs => hs.1⟩
    rintro rfl
    exact hindexed hs

/-- A change that leaves the index, the keys, the marks and the occupation alone. -/
theorem keep (h : t.IndexInv) (hindex : t'.index = t.index)
    (hslots : ∀ s, (t'.slots s).key = (t.slots s).key ∧
      (t'.slots s).indexed = (t.slots s).indexed ∧
      ((t'.slots s).Occupied ↔ (t.slots s).Occupied)) : t'.IndexInv where
  wellFormed := by
    rw [hindex]
    exact h.wellFormed.congr_key fun s _ => (hslots s).1
  stored := fun s => by
    rw [hindex, (hslots s).2.1]
    exact h.stored s
  occupied := fun s => by
    rw [(hslots s).2.1, (hslots s).2.2]
    exact h.occupied s

/-- A change that takes one slot out of the index and of occupation. -/
theorem remove (h : t.IndexInv) (hindex : t'.index = t.unindexed slot)
    (hother : ∀ s, s ≠ slot → t'.slots s = t.slots s)
    (hslot : (t'.slots slot).indexed = false) (hfree : ¬ (t'.slots slot).Occupied) :
    t'.IndexInv := by
  obtain ⟨hwf, hholds⟩ := h.unindexed_spec slot
  refine ⟨?_, fun s => ?_, fun s => ?_⟩
  · rw [hindex]
    refine hwf.congr_key fun s hs => ?_
    show (t'.slots s).key = (t.slots s).key
    rw [hother s ((hholds s).mp hs).2]
  · rw [hindex, hholds s]
    by_cases hs : s = slot
    · subst hs
      simp [hslot]
    · simp [hother s hs, hs]
  · by_cases hs : s = slot
    · subst hs
      simp [hslot, hfree]
    · rw [hother s hs]
      exact h.occupied s

/-- A change that gives an unindexed slot an absent key and puts it into the index. -/
theorem add (h : t.IndexInv) (hindex : t'.index = t.indexInsert key slot)
    (hother : ∀ s, s ≠ slot → t'.slots s = t.slots s)
    (hunused : (t.slots slot).indexed = false)
    (habsent : ∀ s, (t.slots s).indexed = true → (t.slots s).key ≠ key)
    (hkey : (t'.slots slot).key = key) (hslot : (t'.slots slot).indexed = true)
    (hoccupied : (t'.slots slot).Occupied) : t'.IndexInv := by
  have hne : ∀ s, Holds t.index s → s ≠ slot := by
    rintro s hs rfl
    rw [h.stored, hunused] at hs
    cases hs
  have hkeys : ∀ s, Holds t.index s → t'.keyOf s = t.keyOf s := fun s hs => by
    show (t'.slots s).key = (t.slots s).key
    rw [hother s (hne s hs)]
  have hwf := h.wellFormed.congr_key hkeys
  have hnew : ∀ s, Holds t.index s → t'.keyOf s ≠ t'.keyOf slot := fun s hs => by
    rw [hkeys s hs, show t'.keyOf slot = key from hkey]
    exact habsent s ((h.stored s).mp hs)
  obtain ⟨index', hinsert, hwf', hholds⟩ := indexInsert_spec hwf hnew
  rw [show t'.keyOf slot = key from hkey] at hinsert
  have hindex' : t'.index = index' := by
    rw [hindex, Table.indexInsert, hinsert, Option.getD_some]
  refine ⟨by rw [hindex']; exact hwf', fun s => ?_, fun s => ?_⟩
  · rw [hindex', hholds s, h.stored]
    by_cases hs : s = slot
    · subst hs
      simp [hslot]
    · simp [hother s hs, hs]
  · by_cases hs : s = slot
    · subst hs
      simp [hslot, hoccupied]
    · rw [hother s hs]
      exact h.occupied s

/-! ## The operations -/

/-- The initial table satisfies the invariant. -/
theorem create (haccepted : cfg.Accepted) : (Table.create cfg haccepted).IndexInv where
  wellFormed := wellFormed_empty _ _
  stored := fun slot => by
    refine ⟨?_, fun h => by cases h⟩
    rintro ⟨pos, hpos⟩
    cases hpos
  occupied := fun slot => by
    refine ⟨fun h => (by cases h), ?_⟩
    rintro (h | h) <;> cases h

theorem bookkeeping (h : t.IndexInv) (hb : t.Bookkeeping t') : t'.IndexInv := by
  cases hb with
  | mk slots tickets waiters hand held counters notifications hslots =>
      refine h.keep rfl fun s => ?_
      obtain ⟨referenced, hs⟩ := hslots s
      show (slots s).key = _ ∧ (slots s).indexed = _ ∧ ((slots s).Occupied ↔ _)
      rw [hs]
      exact ⟨rfl, rfl, Iff.rfl⟩

theorem submission (h : t.IndexInv) (hs : t.Submission slot t') : t'.IndexInv := by
  cases hs with
  | mk slots used requests count submits lost claim scratch chunks hother hslot =>
      refine h.keep rfl fun s => ?_
      show (slots s).key = _ ∧ (slots s).indexed = _ ∧ ((slots s).Occupied ↔ _)
      by_cases hs : s = slot
      · subst hs
        rw [hslot]
        exact ⟨rfl, rfl, Iff.rfl⟩
      · rw [hother s hs]
        exact ⟨rfl, rfl, Iff.rfl⟩

/-- A rewrite of one slot that leaves its key, mark and occupation alone. -/
theorem update (h : t.IndexInv) (hindex : t'.index = t.index) {s' : Slot cfg}
    (hslots : t'.slots = Function.update t.slots slot s') (hkey : s'.key = (t.slots slot).key)
    (hmark : s'.indexed = (t.slots slot).indexed)
    (hoccupied : s'.Occupied ↔ (t.slots slot).Occupied) : t'.IndexInv := by
  refine h.keep hindex fun s => ?_
  rw [hslots]
  by_cases hs : s = slot
  · subst hs
    rw [Function.update_self]
    exact ⟨hkey, hmark, hoccupied⟩
  · rw [Function.update_of_ne hs]
    exact ⟨rfl, rfl, Iff.rfl⟩

theorem makeFree (h : t.IndexInv) (slot : cfg.SlotId) : (t.makeFree slot).IndexInv := by
  have hself : (t.makeFree slot).slots slot = _ := Function.update_self ..
  refine h.remove rfl (fun s hs => Function.update_of_ne hs _ _) ?_ ?_
  · rw [hself]
  · rw [hself]
    rintro (hs | hs) <;> cases hs

theorem beginAdmission (h : t.IndexInv) {row : UInt64} (hfree : (t.slots slot).state = .free)
    (habsent : ∀ s, (t.slots s).indexed = true → (t.slots s).key ≠ (row, t.currentGeneration)) :
    (t.beginAdmission slot row).IndexInv := by
  have hself : (t.beginAdmission slot row).slots slot = _ := Function.update_self ..
  refine h.add rfl (fun s hs => Function.update_of_ne hs _ _) ?_ habsent ?_ ?_ ?_
  · rw [← Bool.not_eq_true, h.occupied]
    rintro (hs | hs) <;> rw [hfree] at hs <;> cases hs
  · rw [hself]
    rfl
  · rw [hself]
  · rw [hself]
    exact Or.inl rfl

theorem failFill (h : t.IndexInv) (slot : cfg.SlotId) (status : Status) :
    (t.failFill slot status).IndexInv := by
  have hself : (t.failFill slot status).slots slot = _ := Function.update_self ..
  refine h.remove rfl (fun s hs => Function.update_of_ne hs _ _) ?_ ?_
  · rw [hself]
  · rw [hself]
    rintro (hs | hs) <;> cases hs

theorem commitFill (h : t.IndexInv) (slot : cfg.SlotId) (length head : UInt64) :
    (t.commitFill slot length head).IndexInv :=
  h.update rfl rfl rfl rfl Iff.rfl

/-- Admitting an absent key into a free slot keeps the invariant, whether the fill
starts or not. -/
theorem startFillLocked (h : t.IndexInv) {row : UInt64} (answers : Answers)
    (hfree : (t.slots slot).state = .free)
    (habsent : ∀ s, (t.slots s).indexed = true → (t.slots s).key ≠ (row, t.currentGeneration)) :
    (t.startFillLocked answers slot row).2.IndexInv := by
  obtain ⟨u, hu, ⟨length, head, hstart⟩ | ⟨status, -, hstart⟩⟩ :=
    t.startFillLocked_cases answers slot row
  · rw [hstart]
    exact ((h.beginAdmission hfree habsent).submission hu).commitFill slot length head
  · rw [hstart]
    exact ((h.beginAdmission hfree habsent).submission hu).failFill slot status

theorem pin (h : t.IndexInv) (slot : cfg.SlotId) : (t.pin slot).IndexInv :=
  h.update rfl rfl rfl rfl Iff.rfl

theorem unpinLocked (h : t.IndexInv) (slot : cfg.SlotId) : (t.unpinLocked slot).IndexInv :=
  h.update rfl rfl rfl rfl Iff.rfl

theorem takeOver (h : t.IndexInv) (slot : cfg.SlotId) : (t.takeOver slot).IndexInv :=
  h.update rfl rfl rfl rfl Iff.rfl

theorem relinquish (h : t.IndexInv) (slot : cfg.SlotId) : (t.relinquish slot).IndexInv :=
  h.update rfl rfl rfl rfl Iff.rfl

/-- Publishing a filling slot keeps it in the index or takes it out. -/
theorem publish (h : t.IndexInv) (hfill : (t.slots slot).state = .filling) (result : Status) :
    (t.publish slot result).IndexInv := by
  have hself : (t.publish slot result).slots slot = _ := Function.update_self ..
  by_cases hok : result = .ok
  · subst hok
    refine h.update (by simp [Table.publish]) rfl rfl (by simp) ?_
    exact ⟨fun _ => Or.inl hfill, fun _ => Or.inr rfl⟩
  · refine h.remove (by simp [Table.publish, hok]) (fun s hs => Function.update_of_ne hs _ _)
      ?_ ?_
    · rw [hself]
      simp [hok]
    · rw [hself]
      rintro (hs | hs) <;> simp [hok] at hs

end Table.IndexInv

end TieredCache
