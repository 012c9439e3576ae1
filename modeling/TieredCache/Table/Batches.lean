/-
# What becomes of a batch's own rows

`prefetch` pins nothing, so a resident row of its batch is as exposed as any other, for as
long as the batch still admits missing rows.  Phase A of `resolve_into` pins every row it
comes to, so there a resident row is exposed only to the missing rows before it.  In both
cases the batch keeps its resident rows exactly if each has more slots ahead of it, in the
order of the clock hand, than the rows it is exposed to need.
-/

import Mathlib.Data.List.TakeWhile
import TieredCache.Table.OwnRows

namespace TieredCache

open Math.Runs Math.Clock

variable {cfg : TableConfig}

namespace Table

variable {t t' t₀ u : Table cfg} {slot : cfg.SlotId} {row : UInt64} {rows done : List UInt64}
  {sheltered : List UInt64} {taken : Finset cfg.SlotId}

/-! ## What the taken slots hold -/

/-- The slots that were taken are being filled, one for each of the missing rows. -/
structure Filled (t₀ : Table cfg) (done : List UInt64) (taken : Finset cfg.SlotId)
    (t : Table cfg) : Prop where
  filling : ∀ s ∈ taken, (t.slots s).state = .filling ∧
    (t.slots s).rowGeneration = t.currentGeneration ∧ (t.slots s).rowIndex ∈ t₀.missing done
  covered : ∀ row ∈ t₀.missing done, ∃ s ∈ taken, (t.slots s).rowIndex = row

/-- No more slots were taken than the batch names missing rows, and nothing but missing
rows was fetched. -/
structure Fetched (t₀ : Table cfg) (done : List UInt64) (taken : Finset cfg.SlotId)
    (t : Table cfg) : Prop where
  card_le : taken.card ≤ (t₀.missing done).length
  log : ∃ keys, t.fetchLog = keys ++ t₀.fetchLog ∧ ∀ key ∈ keys, t₀.indexFind key = none

namespace Filled

theorem start (t₀ t : Table cfg) : Filled t₀ [] ∅ t :=
  ⟨fun s hs => by simp at hs, fun row hrow => by simp [missing] at hrow⟩

/-- A row that was missing is found in the slot that was taken for it. -/
theorem indexFind (h : Filled t₀ done taken t) (hindex : t.IndexInv) (hrow : row ∈ t₀.missing done) :
    ∃ s ∈ taken, t.indexFind (row, t.currentGeneration) = some s := by
  obtain ⟨s, hs, hkey⟩ := h.covered row hrow
  obtain ⟨hfilling, hgeneration, -⟩ := h.filling s hs
  refine ⟨s, hs, hindex.indexFind_eq_some_iff.mpr ⟨(hindex.occupied s).mpr (Or.inl hfilling), ?_⟩⟩
  rw [Slot.key, hkey, hgeneration]

/-- One slot was taken for each missing row. -/
theorem card_eq (h : Filled t₀ done taken t) (hindex : t.IndexInv) :
    taken.card = (t₀.missing done).toFinset.card := by
  have himage : taken.image (fun s => (t.slots s).rowIndex) = (t₀.missing done).toFinset := by
    ext row
    simp only [Finset.mem_image, List.mem_toFinset]
    constructor
    · rintro ⟨s, hs, rfl⟩
      exact (h.filling s hs).2.2
    · intro hrow
      exact h.covered row hrow
  rw [← himage, Finset.card_image_of_injOn]
  intro s hs s' hs' hsame
  obtain ⟨hfilling, hgeneration, -⟩ := h.filling s hs
  obtain ⟨hfilling', hgeneration', -⟩ := h.filling s' hs'
  apply hindex.eq_of_key_eq ((hindex.occupied s).mpr (Or.inl hfilling))
    ((hindex.occupied s').mpr (Or.inl hfilling'))
  simpa [Slot.key, hgeneration, hgeneration'] using hsame

/-- A row that is not found, and for which a slot is then being filled. -/
theorem step (h : Filled t₀ done taken t) (hcourse : Course t₀ sheltered taken t)
    (hnext : Course t₀ sheltered (taken ∪ t.takes row) t') (hindex : t₀.IndexInv)
    (hatRest : t₀.AtRest) (hspares : t₀.Spares rows taken) (hrow : row ∈ rows)
    (hstep : t.RowStep row t') (hfound : t'.indexFind (row, t'.currentGeneration) ≠ none) :
    Filled t₀ (done ++ [row]) (taken ∪ t.takes row) t' := by
  have hgeneration : t'.currentGeneration = t.currentGeneration :=
    hnext.generation.trans hcourse.generation.symm
  cases hfind : t.indexFind (row, t.currentGeneration) with
  | some slot =>
      obtain ⟨-, hslots, -⟩ := hstep.found slot hfind
      have htakes : t.takes row = ∅ := by simp [takes, hfind]
      -- A row that is found is resident, or was missing and has been admitted before.
      have hold : t₀.indexFind (row, t₀.currentGeneration) = none → row ∈ t₀.missing done := by
        intro hnone
        have htaken : slot ∈ taken := by
          by_contra hleft
          rw [hcourse.indexFind_back hindex hleft hfind] at hnone
          cases hnone
        have hkey := (hcourse.index.indexFind_eq_some_iff.mp hfind).2
        rw [Slot.key, Prod.mk.injEq] at hkey
        rw [← hkey.1]
        exact (h.filling slot htaken).2.2
      rw [htakes, Finset.union_empty]
      refine ⟨fun s hs => ?_, fun r hr => ?_⟩
      · obtain ⟨hfilling, hgen, hmem⟩ := h.filling s hs
        rw [hslots, hgeneration]
        exact ⟨hfilling, hgen, mem_missing_append.mpr (Or.inl hmem)⟩
      · rw [hslots]
        apply h.covered
        rcases mem_missing_append.mp hr with hr | ⟨rfl, hnone⟩
        · exact hr
        · exact hold hnone
  | none =>
      obtain ⟨-, -, hslots, htaken, -⟩ := hstep.searched hfind
      have hmissing := hcourse.absent hindex hatRest hspares hrow hfind
      obtain ⟨slot, hslot⟩ := Option.ne_none_iff_exists'.mp hfound
      obtain ⟨hindexed, hkey⟩ := hnext.index.indexFind_eq_some_iff.mp hslot
      have hvictim : t.victimSweep.taken = some slot := by
        by_contra hne
        obtain ⟨r, hr⟩ := hslots slot hne
        rw [hr, hgeneration] at hkey
        rw [hr] at hindexed
        rw [hcourse.index.indexFind_eq_some_iff.mpr ⟨hindexed, hkey⟩] at hfind
        cases hfind
      have hfilling := ((hnext.index.occupied slot).mp hindexed).resolve_right (htaken slot hvictim)
      have htakes : t.takes row = {slot} := by simp [takes, hfind, hvictim]
      rw [Slot.key, Prod.mk.injEq] at hkey
      -- A slot that is being filled is not taken again.
      have hkept : ∀ s ∈ taken, SameSlot (t.slots s) (t'.slots s) := fun s hs => by
        apply hslots
        intro hagain
        refine sweep_not_barred hagain ?_
        simp [marks, Slot.mark, (h.filling s hs).1]
      rw [htakes]
      refine ⟨fun s hs => ?_, fun r hr => ?_⟩
      · rcases Finset.mem_union.mp hs with hold | hnew
        · obtain ⟨hfilled, hgen, hmem⟩ := h.filling s hold
          obtain ⟨r, hr⟩ := hkept s hold
          rw [hr, hgeneration]
          exact ⟨hfilled, hgen, mem_missing_append.mpr (Or.inl hmem)⟩
        · rw [Finset.mem_singleton.mp hnew]
          exact ⟨hfilling, hkey.2, mem_missing_append.mpr (Or.inr ⟨hkey.1, hmissing⟩)⟩
      · rcases mem_missing_append.mp hr with hr | ⟨rfl, -⟩
        · obtain ⟨s, hs, hrow'⟩ := h.covered r hr
          obtain ⟨b, hb⟩ := hkept s hs
          refine ⟨s, Finset.mem_union_left _ hs, ?_⟩
          rw [hb]
          exact hrow'
        · exact ⟨slot, by simp, hkey.1⟩

theorem pin (h : Filled t₀ done taken t) (slot : cfg.SlotId) : Filled t₀ done taken (t.pin slot) := by
  refine ⟨fun s hs => ?_, fun row hrow => ?_⟩
  · obtain ⟨r, n, hr⟩ := t.pin_kept slot s
    rw [hr]
    exact h.filling s hs
  · obtain ⟨s, hs, hkey⟩ := h.covered row hrow
    obtain ⟨r, n, hr⟩ := t.pin_kept slot s
    rw [← hkey]
    exact ⟨s, hs, by rw [hr]⟩

end Filled

namespace Fetched

theorem start (hlog : t.fetchLog = t₀.fetchLog) : Fetched t₀ [] ∅ t :=
  ⟨by simp, [], hlog, by simp⟩

theorem step (h : Fetched t₀ done taken t) (hcourse : Course t₀ sheltered taken t)
    (hindex : t₀.IndexInv) (hatRest : t₀.AtRest) (hspares : t₀.Spares rows taken) (hrow : row ∈ rows)
    (hstep : t.RowStep row t') : Fetched t₀ (done ++ [row]) (taken ∪ t.takes row) t' := by
  obtain ⟨keys, hkeys, hmissing⟩ := h.log
  cases hfind : t.indexFind (row, t.currentGeneration) with
  | some slot =>
      have htakes : t.takes row = ∅ := by simp [takes, hfind]
      rw [htakes, Finset.union_empty]
      refine ⟨h.card_le.trans (by simp [missing_append]), keys, ?_, hmissing⟩
      rw [(hstep.found slot hfind).2.2, hkeys]
  | none =>
      have habsent := hcourse.absent hindex hatRest hspares hrow hfind
      constructor
      · have hone : (t.takes row).card ≤ 1 := by
          cases htaken : t.victimSweep.taken <;> simp [takes, hfind, htaken]
        have hunion := Finset.card_union_le taken (t.takes row)
        have := h.card_le
        rw [missing_append, if_pos habsent, List.length_append, List.length_singleton]
        omega
      · rcases (hstep.searched hfind).log with hlog | hlog
        · exact ⟨keys, hlog.trans hkeys, hmissing⟩
        · refine ⟨(row, t.currentGeneration) :: keys, by rw [hlog, hkeys, List.cons_append], ?_⟩
          intro key hkey
          rcases List.mem_cons.mp hkey with rfl | hkey
          · rw [hcourse.generation]
            exact habsent
          · exact hmissing key hkey

end Fetched

/-! ## The run of a batch -/

/-- A batch so far.  Each row is admitted in its turn, and if `admitted` then with success;
if `pinning` then the slot it is in is pinned. -/
inductive Run (t₀ : Table cfg) (pinning admitted : Bool) :
    List UInt64 → Finset cfg.SlotId → Table cfg → Prop
  | start {t : Table cfg} (hindex : t.IndexInv) (hgeneration : t.currentGeneration = t₀.currentGeneration)
      (hhand : t.clockHand = t₀.clockHand) (hslots : t.slots = t₀.slots)
      (hlog : t.fetchLog = t₀.fetchLog) : Run t₀ pinning admitted [] ∅ t
  | pass {done : List UInt64} {taken : Finset cfg.SlotId} {t t' : Table cfg} (row : UInt64)
      (hrun : Run t₀ pinning admitted done taken t) (hstep : t.RowStep row t') (hindex : t'.IndexInv)
      (hgeneration : t'.currentGeneration = t.currentGeneration) (hpinning : pinning = false)
      (hadmitted : admitted = true → t'.indexFind (row, t'.currentGeneration) ≠ none) :
      Run t₀ pinning admitted (done ++ [row]) (taken ∪ t.takes row) t'
  | pin {done : List UInt64} {taken : Finset cfg.SlotId} {t t' : Table cfg} {slot : cfg.SlotId}
      (row : UInt64) (hrun : Run t₀ pinning admitted done taken t) (hstep : t.RowStep row t')
      (hindex : t'.IndexInv) (hgeneration : t'.currentGeneration = t.currentGeneration)
      (hpinning : pinning = true)
      (hfind : t'.indexFind (row, t'.currentGeneration) = some slot) :
      Run t₀ pinning admitted (done ++ [row]) (taken ∪ t.takes row) (t'.pin slot)

/-- The rows whose slots are pinned once `done` is done. -/
def pinned (pinning : Bool) (done : List UInt64) : List UInt64 := if pinning then done else []

/-- The rows of a batch that the row of a slot is exposed to: all of them, or those before
it if the batch pins. -/
def exposed (t : Table cfg) (pinning : Bool) (rows : List UInt64) (slot : cfg.SlotId) :
    List UInt64 :=
  if pinning then rows.takeWhile (· ≠ (t.slots slot).rowIndex) else rows

/-- Each resident row of the batch has as many slots ahead of it as the rows it is exposed
to need. -/
def Roomy (t : Table cfg) (pinning : Bool) (rows : List UInt64) : Prop :=
  ∀ s, t.Own rows s → (t.missing (t.exposed pinning rows s)).toFinset.card ≤ (t.ahead rows s).card

/-- The same with repetitions counted, as when no fill can be relied on to start. -/
def RoomyForRepeats (t : Table cfg) (rows : List UInt64) : Prop :=
  ∀ s, t.Own rows s → (t.missing rows).length ≤ (t.ahead rows s).card

namespace Run

variable {pinning admitted : Bool}

theorem index (h : Run t₀ pinning admitted done taken t) : t.IndexInv := by
  cases h with
  | start hindex => exact hindex
  | pass _ _ _ hindex => exact hindex
  | pin _ _ _ hindex => exact hindex.pin _

theorem course (h : Run t₀ pinning admitted done taken t) (hindex : t₀.IndexInv)
    (hatRest : t₀.AtRest) (hroom : done.length < 2 ^ 32) :
    Course t₀ (pinned pinning done) taken t := by
  induction h with
  | start hidx hgeneration hhand hslots _ =>
      have hnone : pinned pinning [] = [] := by simp [pinned]
      rw [hnone]
      exact .start hatRest hidx hgeneration hhand hslots
  | pass row hrun hstep hidx hgeneration hpinning _ ih =>
      rw [List.length_append, List.length_singleton] at hroom
      have hcourse := ih (by omega)
      simp only [pinned, hpinning] at hcourse ⊢
      exact hcourse.step hstep hidx hgeneration
  | pin row hrun hstep hidx hgeneration hpinning hfind ih =>
      rw [List.length_append, List.length_singleton] at hroom
      have hcourse := ih (by omega)
      simp only [pinned, hpinning] at hcourse ⊢
      exact (hcourse.step hstep hidx hgeneration).pin hindex hatRest hfind hroom

theorem fetched (h : Run t₀ pinning admitted done taken t) (hindex : t₀.IndexInv)
    (hatRest : t₀.AtRest) (hroom : done.length < 2 ^ 32) (hsub : ∀ row ∈ done, row ∈ rows)
    (hspares : t₀.Spares rows taken) : Fetched t₀ done taken t := by
  induction h with
  | start _ _ _ _ hlog => exact .start hlog
  | pass row hrun hstep _ _ _ _ ih | pin row hrun hstep _ _ _ _ ih =>
      simp only [List.length_append, List.length_singleton] at hroom
      simp only [List.mem_append, List.mem_singleton] at hsub
      have hbefore : t₀.Spares rows _ := fun s hs => hspares s (Finset.mem_union_left _ hs)
      have hfetched := (ih (by omega) (fun r hr => hsub r (Or.inl hr)) hbefore).step
        (hrun.course hindex hatRest (by omega)) hindex hatRest hbefore (hsub row (Or.inr rfl)) hstep
      exact ⟨hfetched.card_le, hfetched.log⟩

theorem filled (h : Run t₀ pinning true done taken t) (hindex : t₀.IndexInv)
    (hatRest : t₀.AtRest) (hroom : done.length < 2 ^ 32) (hsub : ∀ row ∈ done, row ∈ rows)
    (hspares : t₀.Spares rows taken) : Filled t₀ done taken t := by
  induction h with
  | start => exact .start ..
  | pass row hrun hstep hidx hgeneration _ hadmitted ih =>
      simp only [List.length_append, List.length_singleton] at hroom
      simp only [List.mem_append, List.mem_singleton] at hsub
      have hbefore : t₀.Spares rows _ := fun s hs => hspares s (Finset.mem_union_left _ hs)
      have hcourse := hrun.course hindex hatRest (by omega)
      exact (ih (by omega) (fun r hr => hsub r (Or.inl hr)) hbefore).step hcourse
        (hcourse.step hstep hidx hgeneration) hindex hatRest hbefore (hsub row (Or.inr rfl)) hstep
        (hadmitted rfl)
  | pin row hrun hstep hidx hgeneration _ hfind ih =>
      simp only [List.length_append, List.length_singleton] at hroom
      simp only [List.mem_append, List.mem_singleton] at hsub
      have hbefore : t₀.Spares rows _ := fun s hs => hspares s (Finset.mem_union_left _ hs)
      have hcourse := hrun.course hindex hatRest (by omega)
      exact ((ih (by omega) (fun r hr => hsub r (Or.inl hr)) hbefore).step hcourse
        (hcourse.step hstep hidx hgeneration) hindex hatRest hbefore (hsub row (Or.inr rfl)) hstep
        (by rw [hfind]; simp)).pin _

end Run

theorem mem_of_mem_pinned {pinning : Bool} (h : row ∈ pinned pinning done) : row ∈ done := by
  cases pinning
  · simp [pinned] at h
  · simpa [pinned] using h

/-! ## Rows a resident row is exposed to -/

variable {pinning : Bool}

theorem exposed_subset (t : Table cfg) (pinning : Bool) (done : List UInt64) (slot : cfg.SlotId) :
    ∀ r ∈ t.exposed pinning done slot, r ∈ done := by
  intro r hr
  cases pinning
  · simpa [exposed] using hr
  · exact List.takeWhile_subset _ (by simpa [exposed] using hr)

/-- A row not yet pinned is exposed to the whole batch so far. -/
theorem exposed_eq (hrow : (t.slots slot).rowIndex ∉ pinned pinning done) :
    t.exposed pinning done slot = done := by
  cases pinning
  · rfl
  · have hnot : (t.slots slot).rowIndex ∉ done := by simpa [pinned] using hrow
    have hall : ∀ r ∈ done, decide (r ≠ (t.slots slot).rowIndex) = true := fun r hr => by
      simp only [decide_eq_true_eq]
      rintro rfl
      exact hnot hr
    simpa [exposed] using List.takeWhile_eq_self_iff.mpr hall

/-- A row that is pinned is not exposed to what comes after. -/
theorem exposed_append_of_mem (hrow : (t.slots slot).rowIndex ∈ pinned pinning done)
    (more : List UInt64) : t.exposed pinning (done ++ more) slot = t.exposed pinning done slot := by
  cases pinning
  · simp [pinned] at hrow
  · have hmem : (t.slots slot).rowIndex ∈ done := by simpa [pinned] using hrow
    have hstop : (done.takeWhile (· ≠ (t.slots slot).rowIndex)).length ≠ done.length := fun hlen => by
      have hall := List.takeWhile_eq_self_iff.mp
        ((List.takeWhile_prefix _).eq_of_length hlen) _ hmem
      simp at hall
    simp only [exposed, if_true]
    rw [List.takeWhile_append, if_neg hstop]

theorem exposed_append_subset (t : Table cfg) (pinning : Bool) (done more : List UInt64)
    (slot : cfg.SlotId) :
    ∀ r ∈ t.exposed pinning done slot, r ∈ t.exposed pinning (done ++ more) slot := by
  intro r hr
  by_cases hrow : (t.slots slot).rowIndex ∈ pinned pinning done
  · rwa [exposed_append_of_mem hrow]
  · cases pinning
    · simp only [exposed] at hr ⊢
      exact List.mem_append_left _ hr
    · have hmem := exposed_subset t true done slot r hr
      have hnot : ∀ r ∈ done, decide (r ≠ (t.slots slot).rowIndex) = true := fun r hr => by
        simp only [decide_eq_true_eq]
        rintro rfl
        exact hrow (by simpa [pinned] using hr)
      simp only [exposed, if_true]
      rw [List.takeWhile_append_of_pos hnot]
      exact List.mem_append_left _ hmem

theorem missing_subset {rows' : List UInt64} (t : Table cfg) (hsub : ∀ r ∈ rows, r ∈ rows') :
    ∀ r ∈ t.missing rows, r ∈ t.missing rows' := by
  intro r hr
  simp only [missing, List.mem_filter] at hr ⊢
  exact ⟨hsub r hr.1, hr.2⟩

theorem card_missing_mono {rows' : List UInt64} (t : Table cfg) (hsub : ∀ r ∈ rows, r ∈ rows') :
    (t.missing rows).toFinset.card ≤ (t.missing rows').toFinset.card :=
  Finset.card_le_card fun r hr => by
    rw [List.mem_toFinset] at hr ⊢
    exact t.missing_subset hsub r hr

/-! ## Whether a batch keeps its own rows -/

namespace Run

variable {admitted : Bool}

/-- One more row leaves the batch's own rows alone if it leaves enough slots ahead of them. -/
theorem spares_next (h : Run t₀ pinning admitted done taken t) (hstep : t.RowStep row t')
    (hidx : t'.IndexInv) (hgeneration : t'.currentGeneration = t.currentGeneration)
    (hindex : t₀.IndexInv) (hatRest : t₀.AtRest) (hroom : done.length < 2 ^ 32)
    (hsub : ∀ row ∈ done, row ∈ rows) (hspares : t₀.Spares rows taken)
    (hfew : t.indexFind (row, t.currentGeneration) = none → ∀ s, t₀.Own rows s →
      (t₀.slots s).rowIndex ∉ pinned pinning done → taken.card < (t₀.ahead rows s).card) :
    t₀.Spares rows (taken ∪ t.takes row) := by
  have hcourse := h.course hindex hatRest hroom
  apply hcourse.spares (hcourse.step hstep hidx hgeneration) hatRest
    (fun r hr => hsub r (mem_of_mem_pinned hr)) hspares
  intro hnone s hown hunpinned
  exact hfew hnone s hown fun hmem => hunpinned ⟨hown.1, hown.2.1, hmem⟩

theorem spares_of_repeats (h : Run t₀ pinning admitted done taken t) (hindex : t₀.IndexInv)
    (hatRest : t₀.AtRest) (hroom : done.length < 2 ^ 32) (hsub : ∀ row ∈ done, row ∈ rows)
    (hneed : ∀ s, t₀.Own rows s → (t₀.missing done).length ≤ (t₀.ahead rows s).card) :
    t₀.Spares rows taken := by
  induction h with
  | start => exact fun s hs => by simp at hs
  | pass row hrun hstep hidx hgeneration _ _ ih | pin row hrun hstep hidx hgeneration _ _ ih =>
      simp only [List.length_append, List.length_singleton] at hroom
      simp only [List.mem_append, List.mem_singleton] at hsub
      have hold := fun r hr => hsub r (Or.inl hr)
      have hspares := ih (by omega) hold fun s hown => by
        refine le_trans ?_ (hneed s hown)
        simp [missing_append]
      have hcourse := hrun.course hindex hatRest (by omega)
      have hcard := (hrun.fetched hindex hatRest (by omega) hold hspares).card_le
      apply hrun.spares_next hstep hidx hgeneration hindex hatRest (by omega) hold hspares
      intro hnone s hown _
      have habsent := hcourse.absent hindex hatRest hspares (hsub row (Or.inr rfl)) hnone
      have hlength := hneed s hown
      rw [missing_append, if_pos habsent, List.length_append, List.length_singleton] at hlength
      omega

/-- In a batch whose admissions succeed, the next missing row is a new one. -/
theorem card_taken_lt (h : Run t₀ pinning true done taken t) (hindex : t₀.IndexInv)
    (hatRest : t₀.AtRest) (hroom : done.length < 2 ^ 32) (hsub : ∀ row ∈ done, row ∈ rows)
    (hspares : t₀.Spares rows taken) (hrow : row ∈ rows)
    (hnone : t.indexFind (row, t.currentGeneration) = none) (hown : t₀.Own rows slot)
    (hrest : (t₀.slots slot).rowIndex ∉ pinned pinning done) :
    taken.card < (t₀.missing (t₀.exposed pinning (done ++ [row]) slot)).toFinset.card := by
  have hcourse := h.course hindex hatRest hroom
  have hfilled := h.filled hindex hatRest hroom hsub hspares
  have habsent := hcourse.absent hindex hatRest hspares hrow hnone
  have hexposed : t₀.exposed pinning (done ++ [row]) slot = done ++ [row] := by
    apply exposed_eq
    intro hmem
    cases pinning
    · simp [pinned] at hmem
    · simp only [pinned, if_true, List.mem_append, List.mem_singleton] at hmem hrest
      have hsame := hmem.resolve_left hrest
      have hmine : t₀.Own [row] slot := ⟨hown.1, hown.2.1, by simp [hsame]⟩
      have hfound := hmine.indexFind hindex
      rw [habsent] at hfound
      cases hfound
  have hfresh : row ∉ t₀.missing done := fun hmem => by
    obtain ⟨s, -, hfound⟩ := hfilled.indexFind hcourse.index hmem
    rw [hnone] at hfound
    cases hfound
  rw [hexposed, hfilled.card_eq hcourse.index, missing_append, if_pos habsent,
    List.toFinset_append, List.toFinset_cons, List.toFinset_nil, insert_empty_eq,
    Finset.card_union_of_disjoint (by simpa using hfresh), Finset.card_singleton]
  exact Nat.lt_succ_self _

theorem spares (h : Run t₀ pinning true done taken t) (hindex : t₀.IndexInv)
    (hatRest : t₀.AtRest) (hroom : done.length < 2 ^ 32) (hsub : ∀ row ∈ done, row ∈ rows)
    (hneed : ∀ s, t₀.Own rows s →
      (t₀.missing (t₀.exposed pinning done s)).toFinset.card ≤ (t₀.ahead rows s).card) :
    t₀.Spares rows taken := by
  induction h with
  | start => exact fun s hs => by simp at hs
  | pass row hrun hstep hidx hgeneration _ _ ih | pin row hrun hstep hidx hgeneration _ _ ih =>
      simp only [List.length_append, List.length_singleton] at hroom
      simp only [List.mem_append, List.mem_singleton] at hsub
      have hold := fun r hr => hsub r (Or.inl hr)
      have hspares := ih (by omega) hold fun s hown =>
        (t₀.card_missing_mono (t₀.exposed_append_subset _ _ [row] s)).trans (hneed s hown)
      apply hrun.spares_next hstep hidx hgeneration hindex hatRest (by omega) hold hspares
      intro hnone s hown hrest
      exact (hrun.card_taken_lt hindex hatRest (by omega) hold hspares (hsub row (Or.inr rfl)) hnone
        hown hrest).trans_le (hneed s hown)

/-- Slots of missing rows were all ahead of a resident row that was not pinned yet. -/
theorem card_missing_le (hcourse : Course t₀ (pinned pinning done) taken t)
    (hfilled : Filled t₀ (done ++ [row]) taken t) (hatRest : t₀.AtRest)
    (hspares : t₀.Spares rows taken) (hown : t₀.Own rows slot)
    (hrest : (t₀.slots slot).rowIndex ∉ pinned pinning done) :
    (t₀.missing (done ++ [row])).toFinset.card ≤ (t₀.ahead rows slot).card := by
  have hleft : slot ∉ taken := fun htaken => hspares slot htaken hown
  have hlive := hcourse.live hatRest hleft fun hpinned => hrest hpinned.2.2
  rw [← hfilled.card_eq hcourse.index]
  apply Finset.card_le_card
  intro s hs
  simp only [ahead, Finset.mem_filter, Finset.mem_univ, true_and]
  exact ⟨hspares s hs, hcourse.since.first s slot hs hleft hlive⟩

theorem roomy (h : Run t₀ pinning true done taken t) (hindex : t₀.IndexInv)
    (hatRest : t₀.AtRest) (hroom : done.length < 2 ^ 32) (hsub : ∀ row ∈ done, row ∈ rows)
    (hspares : t₀.Spares rows taken) (slot : cfg.SlotId) (hown : t₀.Own rows slot) :
    (t₀.missing (t₀.exposed pinning done slot)).toFinset.card ≤ (t₀.ahead rows slot).card := by
  induction h with
  | start =>
      have hnone : t₀.exposed pinning [] slot = [] := by cases pinning <;> rfl
      simp [hnone, missing]
  | pass row hrun hstep hidx hgeneration hpinning hadmitted ih =>
      have hall := (hrun.pass row hstep hidx hgeneration hpinning hadmitted).filled hindex hatRest
        hroom hsub hspares
      simp only [List.length_append, List.length_singleton] at hroom
      have hcourse := (hrun.course hindex hatRest (by omega)).step hstep hidx hgeneration
      have hnext := card_missing_le hcourse hall hatRest hspares hown
        (by simp [pinned, hpinning])
      exact (t₀.card_missing_mono (exposed_subset _ _ _ slot)).trans hnext
  | @pin done taken t t' _ row hrun hstep hidx hgeneration hpinning hfind ih =>
      have hbefore : t₀.Spares rows _ := fun s hs => hspares s (Finset.mem_union_left _ hs)
      simp only [List.length_append, List.length_singleton] at hroom
      simp only [List.mem_append, List.mem_singleton] at hsub
      have hold := fun r hr => hsub r (Or.inl hr)
      have hcourse := hrun.course hindex hatRest (by omega)
      have hnext := hcourse.step hstep hidx hgeneration
      by_cases hrest : (t₀.slots slot).rowIndex ∈ pinned pinning done
      · rw [exposed_append_of_mem hrest]
        exact ih (by omega) hold hbefore
      · -- The row was exposed to the whole batch so far.
        have hfilled := (hrun.filled hindex hatRest (by omega) hold hbefore).step hcourse hnext hindex
          hatRest hbefore (hsub row (Or.inr rfl)) hstep (by rw [hfind]; simp)
        have hle := card_missing_le hnext hfilled hatRest hspares hown hrest
        exact (t₀.card_missing_mono (exposed_subset _ _ _ slot)).trans hle

/-- A batch that has taken no slot of its own rows has not disturbed them. -/
theorem undisturbed (h : Run t₀ pinning admitted rows taken t) (hindex : t₀.IndexInv)
    (hatRest : t₀.AtRest) (hroom : rows.length < 2 ^ 32) (hspares : t₀.Spares rows taken) :
    Undisturbed t₀ t rows where
  kept := fun slot hown => (h.course hindex hatRest hroom).kept slot fun hs => hspares slot hs hown
  fetched := (h.fetched hindex hatRest hroom (fun _ hr => hr) hspares).log

/-- A slot that was taken is not what it was. -/
theorem spares_of_undisturbed (h : Run t₀ pinning admitted rows taken t) (hindex : t₀.IndexInv)
    (hatRest : t₀.AtRest) (hroom : rows.length < 2 ^ 32) (hkept : Undisturbed t₀ t rows) :
    t₀.Spares rows taken := by
  intro s hs hown
  apply (h.course hindex hatRest hroom).lost s hs
  rw [(hkept.kept s hown).state]
  exact hown.1

theorem undisturbed_iff (h : Run t₀ pinning true rows taken t) (hindex : t₀.IndexInv)
    (hatRest : t₀.AtRest) (hroom : rows.length < 2 ^ 32) :
    Undisturbed t₀ t rows ↔ t₀.Roomy pinning rows := by
  constructor
  · intro hkept
    exact h.roomy hindex hatRest hroom (fun _ hr => hr)
      (h.spares_of_undisturbed hindex hatRest hroom hkept)
  · intro hroomy
    exact h.undisturbed hindex hatRest hroom
      (h.spares hindex hatRest hroom (fun _ hr => hr) hroomy)

/-- A batch whose admissions succeed without disturbing its own rows ends with all its rows
resident or on their way. -/
theorem all_found (h : Run t₀ pinning true rows taken t) (hindex : t₀.IndexInv)
    (hatRest : t₀.AtRest) (hroom : rows.length < 2 ^ 32) (hkept : Undisturbed t₀ t rows) :
    ∀ row ∈ rows, ∃ slot, t.indexFind (row, t.currentGeneration) = some slot ∧
      (t.slots slot).Occupied := by
  intro row hrow
  have hcourse := h.course hindex hatRest hroom
  have hspares := h.spares_of_undisturbed hindex hatRest hroom hkept
  have hfilled := h.filled hindex hatRest hroom (fun _ hr => hr) hspares
  have hoccupied : ∀ slot, t.indexFind (row, t.currentGeneration) = some slot →
      (t.slots slot).Occupied := fun slot hfind =>
    (hcourse.index.occupied slot).mp (hcourse.index.indexFind_eq_some_iff.mp hfind).1
  cases hfind : t₀.indexFind (row, t₀.currentGeneration) with
  | none =>
      have hmissing : row ∈ t₀.missing rows := by simp [missing, hrow, hfind]
      obtain ⟨s, -, hfound⟩ := hfilled.indexFind hcourse.index hmissing
      exact ⟨s, hfound, hoccupied s hfound⟩
  | some slot =>
      have hown := own_of_indexFind hindex hatRest hfind
      have hleft : slot ∉ taken := fun hs => hspares slot hs (hown.mono (by simpa using hrow))
      have hfound := hcourse.indexFind hindex hleft hfind
      exact ⟨slot, hfound, hoccupied slot hfound⟩

/-- The same for a batch whose last admission failed. -/
theorem undisturbed_of_stop {more : List UInt64} (h : Run t₀ pinning true done taken t)
    (hstep : t.RowStep row t') (hidx : t'.IndexInv)
    (hgeneration : t'.currentGeneration = t.currentGeneration) (hrows : done ++ row :: more = rows)
    (hindex : t₀.IndexInv) (hatRest : t₀.AtRest) (hroom : rows.length < 2 ^ 32)
    (hroomy : t₀.Roomy pinning rows) : Undisturbed t₀ t' rows := by
  subst hrows
  rw [List.length_append, List.length_cons] at hroom
  have hsub : ∀ r ∈ done, r ∈ done ++ row :: more := fun r hr => List.mem_append_left _ hr
  have hrow : row ∈ done ++ row :: more := by simp
  have hneed : ∀ s, t₀.Own (done ++ row :: more) s →
      (t₀.missing (t₀.exposed pinning (done ++ [row]) s)).toFinset.card ≤
        (t₀.ahead (done ++ row :: more) s).card := fun s hown => by
    refine (t₀.card_missing_mono ?_).trans (hroomy s hown)
    rw [List.append_cons done row more]
    exact t₀.exposed_append_subset pinning (done ++ [row]) more s
  have hspares := h.spares hindex hatRest (by omega) hsub fun s hown =>
    (t₀.card_missing_mono (t₀.exposed_append_subset _ _ [row] s)).trans (hneed s hown)
  have hnext : t₀.Spares (done ++ row :: more) (taken ∪ t.takes row) := by
    apply h.spares_next hstep hidx hgeneration hindex hatRest (by omega) hsub hspares
    intro hnone s hown hrest
    exact (h.card_taken_lt hindex hatRest (by omega) hsub hspares hrow hnone hown hrest).trans_le
      (hneed s hown)
  have hcourse := h.course hindex hatRest (by omega)
  exact ⟨fun slot hown => (hcourse.step hstep hidx hgeneration).kept slot
      fun hs => hnext slot hs hown,
    ((h.fetched hindex hatRest (by omega) hsub hspares).step hcourse hindex hatRest hspares hrow
      hstep).log⟩

end Run

/-! ## The two loops -/

/-- Every admission of the loop of `prefetch` succeeds. -/
def AllAdmitted (answers : Answers) (record : cfg.RecordId) : ℕ → List UInt64 → Table cfg → Prop
  | _, [], _ => True
  | i, row :: rows, t =>
      (t.findOrFetch answers row).1.isOk ∧
        AllAdmitted answers record (i + 1) rows (t.prefetchRow answers record i row)

instance AllAdmitted.decidable (answers : Answers) (record : cfg.RecordId) :
    ∀ (i : ℕ) (rows : List UInt64) (t : Table cfg), Decidable (AllAdmitted answers record i rows t)
  | _, [], _ => isTrue trivial
  | i, row :: rows, t =>
      haveI := AllAdmitted.decidable answers record (i + 1) rows (t.prefetchRow answers record i row)
      inferInstanceAs (Decidable (_ ∧ _))

/-- A row whose admission succeeds is found. -/
theorem findOrFetch_found (h : t.IndexInv) (answers : Answers)
    (hok : (t.findOrFetch answers row).1 = .ok slot) :
    (t.findOrFetch answers row).2.indexFind
      (row, (t.findOrFetch answers row).2.currentGeneration) = some slot := by
  obtain ⟨hquiets, hadmitted, -⟩ := findOrFetch_spec h answers row
  have hspec := hadmitted slot hok
  rw [(h.quiets hquiets).indexFind_eq_some_iff, hquiets.frame.1.currentGeneration]
  exact ⟨hspec.indexed, hspec.key⟩

theorem prefetchRow_found (h : t.IndexInv) (answers : Answers) (record : cfg.RecordId) (i : ℕ)
    (hok : (t.findOrFetch answers row).1.isOk = true) :
    (t.prefetchRow answers record i row).indexFind
      (row, (t.prefetchRow answers record i row).currentGeneration) ≠ none := by
  obtain ⟨counters, waiters, heq⟩ := t.prefetchRow_eq answers record i row
  rw [heq]
  cases hfind : (t.findOrFetch answers row).1 with
  | error status => simp [hfind, Except.isOk, Except.toBool] at hok
  | ok slot =>
      have hfound := findOrFetch_found h answers hfind
      exact Option.ne_none_iff_exists'.mpr ⟨slot, hfound⟩

theorem prefetchRows_run {admitted : Bool} (answers : Answers) (record : cfg.RecordId)
    (rest : List UInt64) (i : ℕ) (h : Run t₀ false admitted done taken t)
    (hall : admitted = true → AllAdmitted answers record i rest t) :
    ∃ taken', Run t₀ false admitted (done ++ rest) taken' (prefetchRows answers record i rest t) := by
  induction rest generalizing i done taken t with
  | nil => exact ⟨taken, by simpa [prefetchRows] using h⟩
  | cons row rest ih =>
      have hquiets := prefetchRow_quiets h.index answers record i row
      have hnext := h.pass row (t.prefetchRow_rowStep answers record i row) (h.index.quiets hquiets)
        hquiets.frame.1.currentGeneration rfl fun hadmitted =>
          prefetchRow_found h.index answers record i (hall hadmitted).1
      rw [List.append_cons]
      exact ih (i + 1) hnext fun hadmitted => (hall hadmitted).2

end Table

/-- The loop of phase A runs to its end, or stops at a row whose admission fails. -/
theorem World.admitRows_run {t₀ : Table cfg} {done : List UInt64} {taken : Finset cfg.SlotId}
    {w : World cfg} (answers : Answers) (out : LeaseVar) (rest : List UInt64) (i : ℕ)
    (h : t₀.Run true true done taken w.table) :
    (∃ taken', (admitRows answers out i rest w).2.1 = .ok ∧
        t₀.Run true true (done ++ rest) taken' (admitRows answers out i rest w).2.2.table) ∨
      ∃ before row after taken' t, (admitRows answers out i rest w).2.1 ≠ .ok ∧
        rest = before ++ row :: after ∧ t₀.Run true true (done ++ before) taken' t ∧
        t.RowStep row (admitRows answers out i rest w).2.2.table ∧
        (admitRows answers out i rest w).2.2.table.IndexInv ∧
        (admitRows answers out i rest w).2.2.table.currentGeneration = t.currentGeneration := by
  induction rest generalizing i done taken w with
  | nil => exact Or.inl ⟨taken, rfl, by simpa [admitRows] using h⟩
  | cons row rest ih =>
      obtain ⟨hquiets, -, herror⟩ := Table.findOrFetch_spec h.index answers row
      have hstep := w.table.findOrFetch_rowStep answers row
      have hindex := h.index.quiets hquiets
      have hgeneration := hquiets.frame.1.currentGeneration
      have hfound : ∀ slot, (w.table.findOrFetch answers row).1 = .ok slot →
          (w.table.findOrFetch answers row).2.indexFind
            (row, (w.table.findOrFetch answers row).2.currentGeneration) = some slot := fun slot =>
        Table.findOrFetch_found h.index answers
      rcases hfind : w.table.findOrFetch answers row with ⟨result, t⟩
      simp only [hfind] at hstep hindex hgeneration hfound herror
      cases result with
      | error status =>
          have hstop : admitRows answers out i (row :: rest) w = (i, status, { w with table := t }) := by
            simp [admitRows, hfind]
          rw [hstop]
          exact Or.inr ⟨[], row, rest, taken, w.table, (herror status rfl).1, rfl, by simpa using h,
            hstep, hindex, hgeneration⟩
      | ok slot =>
          have hgo : admitRows answers out i (row :: rest) w =
              admitRows answers out (i + 1) rest
                (({ w with table := t } : World cfg).grant (out + i) slot row ⟨0, 0⟩) := by
            simp [admitRows, hfind]
          have hnext := h.pin row hstep hindex hgeneration rfl (hfound slot rfl)
          rw [hgo]
          rcases ih (i + 1) (w := ({ w with table := t } : World cfg).grant (out + i) slot row ⟨0, 0⟩)
            hnext with hdone | hstopped
          · rw [List.append_cons]
            exact Or.inl hdone
          · obtain ⟨before, row', after, taken', u, hne, hrest, hrun, hlast⟩ := hstopped
            rw [List.append_assoc] at hrun
            exact Or.inr ⟨row :: before, row', after, taken', u, hne, by simp [hrest], hrun, hlast⟩

/-- What is so of a batch's own rows, whatever becomes of its admissions, and what is so once
they have all succeeded. -/
structure Table.PrefetchKeeps (t t' : Table cfg) (rows : List UInt64) (succeeds : Prop) : Prop where
  roomy : t.RoomyForRepeats rows → Undisturbed t t' rows
  exact : succeeds → (Undisturbed t t' rows ↔ t.Roomy false rows)
  found : succeeds → Undisturbed t t' rows →
    ∀ row ∈ rows, ∃ slot, t'.indexFind (row, t'.currentGeneration) = some slot ∧
      (t'.slots slot).Occupied

/-- The same for phase A, which stops at the first admission that fails. -/
structure Table.PhaseAKeeps (t t' : Table cfg) (rows : List UInt64) (succeeds : Prop) : Prop where
  roomy : t.Roomy true rows → Undisturbed t t' rows
  exact : succeeds → (Undisturbed t t' rows ↔ t.Roomy true rows)

theorem Table.prefetch_keeps {t t' : Table cfg} (hindex : t.IndexInv) (hatRest : t.AtRest)
    {answers : Answers} {rows : List UInt64} {ticket : Ticket cfg} (hroom : rows.length < 2 ^ 32)
    (h : t.prefetch answers rows = (.ok ticket, t')) :
    t.PrefetchKeeps t' rows
      (AllAdmitted answers ticket.record 0 rows (t.openRecord ticket.record rows.length)) := by
  unfold prefetch at h
  split_ifs at h
  · cases h
  · cases h
  split at h
  · cases h
  · rename_i record hrecord
    cases h
    have hstart : ∀ admitted, Run t false admitted [] ∅ (t.openRecord record rows.length) :=
      fun admitted => .start (hindex.bookkeeping (.of_records t _ t.waiters t.clockHand _ t.counters))
        rfl rfl rfl rfl
    refine ⟨fun hroomy => ?_, fun hall => ?_, fun hall hkept => ?_⟩
    · obtain ⟨taken, hrun⟩ := prefetchRows_run answers record rows 0 (hstart false) fun h => by cases h
      exact hrun.undisturbed hindex hatRest hroom
        (hrun.spares_of_repeats hindex hatRest hroom (fun _ hr => hr) hroomy)
    · obtain ⟨taken, hrun⟩ := prefetchRows_run answers record rows 0 (hstart true) fun _ => hall
      exact hrun.undisturbed_iff hindex hatRest hroom
    · obtain ⟨taken, hrun⟩ := prefetchRows_run answers record rows 0 (hstart true) fun _ => hall
      exact hrun.all_found hindex hatRest hroom hkept

theorem World.phaseA_keeps {w : World cfg} (hindex : w.table.IndexInv) (hatRest : w.table.AtRest)
    (answers : Answers) (out : LeaseVar) {rows : List UInt64} (hroom : rows.length < 2 ^ 32) :
    w.table.PhaseAKeeps (admitRows answers out 0 rows w).2.2.table rows
      ((admitRows answers out 0 rows w).2.1 = .ok) := by
  have hstart : w.table.Run true true [] ∅ w.table := .start hindex rfl rfl rfl rfl
  rcases admitRows_run answers out rows 0 hstart with ⟨taken, hok, hrun⟩ | hstopped
  · have hiff := hrun.undisturbed_iff hindex hatRest hroom
    exact ⟨hiff.mpr, fun _ => hiff⟩
  · obtain ⟨before, row, after, taken, t, hne, hrows, hrun, hstep, hidx, hgeneration⟩ := hstopped
    exact ⟨hrun.undisturbed_of_stop hstep hidx hgeneration hrows.symm hindex hatRest hroom,
      fun hok => absurd hok hne⟩

/-- In a table at rest a batch keeps the rows it finds resident if each of them has as many
slots ahead of it, in the order of the clock hand, as the missing rows it is exposed to
need, and if the batch's admissions succeed, only then. -/
theorem batch_keeps_own_rows {h : cfg.Accepted} {w : World cfg}
    (hw : Reachable World.step (World.start cfg h) w) (hatRest : w.table.AtRest) (answers : Answers)
    {rows : List UInt64} (hbatch : Table.batchStatus cfg rows = .ok) :
    (∀ ticket t', w.table.prefetch answers rows = (.ok ticket, t') →
        w.table.PrefetchKeeps t' rows (Table.AllAdmitted answers ticket.record 0 rows
          (w.table.openRecord ticket.record rows.length))) ∧
      ∀ out, w.table.PhaseAKeeps (World.admitRows answers out 0 rows w).2.2.table rows
        ((World.admitRows answers out 0 rows w).2.1 = .ok) := by
  have hindex := (World.fillInv_of_reachable hw).index
  have hroom : rows.length < 2 ^ 32 := by
    have hlarge := cfg.maxBatchRows.toNat_lt
    unfold Table.batchStatus at hbatch
    split_ifs at hbatch with hnil hlong
    omega
  exact ⟨fun ticket t' hprefetch => Table.prefetch_keeps hindex hatRest hroom hprefetch,
    fun out => World.phaseA_keeps hindex hatRest answers out hroom⟩

/-- Three rows of one byte, and two slots for them. -/
def twoSlots : TableConfig where
  rowCount := 3
  sourceRowBytes := 1
  outputRowBytes := 1
  sources := [⟨0, 1⟩]
  resolveExtent := some firstByteResolver
  outputStorage := ⟨0, 2⟩
  budgetRows := 2
  maxTickets := 2
  maxBatchRows := 2

theorem twoSlots_accepted : twoSlots.Accepted := by decide +kernel

/-- The first of the two slots. -/
def firstSlot : twoSlots.SlotId := ⟨0, by decide⟩

instance (t : Table cfg) : Decidable t.AtRest := inferInstanceAs (Decidable (∀ _, _))

/-- Row 0 is prefetched and fetched. -/
def oneRowRun : List (Action twoSlots) :=
  [.prefetch [0] 0 fun _ => {}, .deliver 0 .ok] ++ List.replicate 5 (.work {})

/-- Row 0 is in the first slot and the hand before the second, so row 2 goes there. -/
theorem batch_keeps_own_rows_ahead :
    ∃ w, Reachable World.step (World.start twoSlots twoSlots_accepted) w ∧ w.table.AtRest ∧
      w.table.Own [0, 2] firstSlot ∧
      ∃ ticket t', w.table.prefetch (fun _ => {}) [0, 2] = (.ok ticket, t') ∧
        Table.Undisturbed w.table t' [0, 2] := by
  have hrun : (exec World.step oneRowRun (World.start twoSlots twoSlots_accepted)).any fun w =>
      w.table.AtRest ∧ w.table.Own [0, 2] firstSlot ∧
        (∀ s, w.table.Own [0, 2] s →
          (w.table.missing [0, 2]).length ≤ (w.table.ahead [0, 2] s).card) ∧
        (w.table.prefetch (fun _ => {}) [0, 2]).1.isOk := by
    decide +kernel
  obtain ⟨w, hw, hfacts⟩ := (Option.any_eq_true _ _).mp hrun
  obtain ⟨hatRest, hown, hroomy, hok⟩ := of_decide_eq_true hfacts
  have hreachable : Reachable World.step (World.start twoSlots twoSlots_accepted) w :=
    reachable_of_exec .start hw
  rcases hprefetch : w.table.prefetch (fun _ => {}) [0, 2] with ⟨result, t'⟩
  rw [hprefetch] at hok
  cases result with
  | error status => cases hok
  | ok ticket =>
      exact ⟨w, hreachable, hatRest, hown, ticket, t', hprefetch,
        ((batch_keeps_own_rows hreachable hatRest (fun _ => {}) (by decide)).1 ticket t'
          hprefetch).roomy hroomy⟩

/-- Rows 0 and 1 are prefetched and fetched. -/
def twoRowsRun : List (Action twoSlots) :=
  [.prefetch [0, 1] 0 fun _ => {}, .deliver 0 .ok, .deliver 1 .ok] ++ List.replicate 10 (.work {})

/-- The ticket of the second batch. -/
def secondTicket : Ticket twoSlots := ⟨⟨1, by decide⟩, 1⟩

/-- Both slots are ready, with the hand before the one of row 0: whichever comes first in
the batch, row 2 takes the place of row 0. -/
theorem batch_evicts_own_row :
    ∃ w, Reachable World.step (World.start twoSlots twoSlots_accepted) w ∧ w.table.AtRest ∧
      (∃ ticket t', w.table.prefetch (fun _ => {}) [0, 2] = (.ok ticket, t') ∧
        Table.AllAdmitted (fun _ => {}) ticket.record 0 [0, 2]
          (w.table.openRecord ticket.record 2) ∧
        ¬ Table.Undisturbed w.table t' [0, 2] ∧ t'.indexFind (0, t'.currentGeneration) = none) ∧
      (World.admitRows (fun _ => {}) 0 0 [2, 0] w).2.1 = .ok ∧
      ¬ Table.Undisturbed w.table (World.admitRows (fun _ => {}) 0 0 [2, 0] w).2.2.table [2, 0] := by
  have hrun : (exec World.step twoRowsRun (World.start twoSlots twoSlots_accepted)).any fun w =>
      (w.table.AtRest ∧ w.table.Own [0, 2] firstSlot ∧ w.table.Own [2, 0] firstSlot) ∧
        ((w.table.prefetch (fun _ => {}) [0, 2]).1.toOption = some secondTicket ∧
          Table.AllAdmitted (fun _ => {}) secondTicket.record 0 [0, 2]
            (w.table.openRecord secondTicket.record 2) ∧
          ((w.table.prefetch (fun _ => {}) [0, 2]).2.slots firstSlot).state = .filling ∧
          (w.table.prefetch (fun _ => {}) [0, 2]).2.indexFind
            (0, (w.table.prefetch (fun _ => {}) [0, 2]).2.currentGeneration) = none) ∧
        (World.admitRows (fun _ => {}) 0 0 [2, 0] w).2.1 = .ok ∧
        ((World.admitRows (fun _ => {}) 0 0 [2, 0] w).2.2.table.slots firstSlot).state =
          .filling := by
    decide +kernel
  obtain ⟨w, hw, hfacts⟩ := (Option.any_eq_true _ _).mp hrun
  obtain ⟨⟨hatRest, hown, hown'⟩, ⟨hticket, hall, hfilling, hnone⟩, hok, hfilling'⟩ :=
    of_decide_eq_true hfacts
  refine ⟨w, reachable_of_exec .start hw, hatRest, ?_, hok, fun hkept => ?_⟩
  · rcases hprefetch : w.table.prefetch (fun _ => {}) [0, 2] with ⟨result, t'⟩
    rw [hprefetch] at hticket hfilling hnone
    cases result with
    | error status => cases hticket
    | ok ticket =>
        cases hticket
        refine ⟨secondTicket, t', rfl, hall, fun hkept => ?_, hnone⟩
        have hstate := (hkept.kept firstSlot hown).state.trans hown.1
        rw [hfilling] at hstate
        cases hstate
  · have hstate := (hkept.kept firstSlot hown').state.trans hown'.1
    rw [hfilling'] at hstate
    cases hstate

end TieredCache
