/-
# Phase A of resolve_into

One critical section finds or admits every row of a batch and takes a lease on each.  A
row already pinned by the batch is found again, so no row is fetched twice, and the
leases held before keep their slots.
-/

import TieredCache.Table.Leases

namespace TieredCache

open Math.Runs

variable {cfg : TableConfig}

namespace Table

variable {t t' : Table cfg} {slot : cfg.SlotId} {key : RowKey}

/-! ## Failures have a cause -/

/-- A failed slot records why. -/
def FailInv (t : Table cfg) : Prop :=
  ∀ s, (t.slots s).state = .failed → (t.slots s).failure ≠ .ok

namespace FailInv

theorem create (h : cfg.Accepted) : (Table.create cfg h).FailInv := fun s hs => by cases hs

/-- A rewrite of one slot that records a cause if it fails. -/
theorem update (h : t.FailInv) {s' : Slot cfg}
    (hslots : t'.slots = Function.update t.slots slot s')
    (hslot : s'.state = .failed → s'.failure ≠ .ok) : t'.FailInv := by
  intro s hs
  rw [hslots] at hs ⊢
  by_cases hss : s = slot
  · subst hss
    rw [Function.update_self] at hs ⊢
    exact hslot hs
  · rw [Function.update_of_ne hss] at hs ⊢
    exact h s hs

theorem submission (h : t.FailInv) (hs : Submission slot t t') : t'.FailInv := by
  cases hs with
  | mk slots used requests count submits lost claim scratch chunks hother hslot =>
      intro s hs
      by_cases hss : s = slot
      · subst hss
        dsimp only at hs ⊢
        rw [hslot] at hs ⊢
        exact h s hs
      · dsimp only at hs ⊢
        rw [hother s hss] at hs ⊢
        exact h s hs

theorem startFillLocked (h : t.FailInv) (answers : Answers) (slot : cfg.SlotId) (row : UInt64) :
    (t.startFillLocked answers slot row).2.FailInv := by
  obtain ⟨u, hu, hstart⟩ := t.startFillLocked_cases answers slot row
  have hbegun : (t.beginAdmission slot row).FailInv := h.update rfl fun hs => by cases hs
  rcases hstart with ⟨length, head, hstart⟩ | ⟨status, hne, hstart⟩ <;> rw [hstart]
  · exact (hbegun.submission hu).update rfl fun hs => (hbegun.submission hu) slot hs
  · exact (hbegun.submission hu).update rfl fun _ => hne

theorem edit (h : t.FailInv) (he : Edit t t') : t'.FailInv := by
  cases he with
  | quiet he =>
      cases he with
      | sweep he =>
          cases he with
          | bookkeeping hb =>
              cases hb with
              | mk slots tickets waiters hand held counters notifications hslots =>
                  intro s hs
                  obtain ⟨r, hr⟩ := hslots s
                  dsimp only at hs ⊢
                  rw [hr] at hs ⊢
                  exact h s hs
          | freed slot hpins hstate => exact h.update rfl fun hs => by cases hs
      | deliveries hd => cases hd with | mk requests hrequests => exact h
      | started answers slot row hfree habsent => exact h.startFillLocked answers slot row
  | pinned slot => exact h.update rfl (h slot)
  | unpinned slot => exact h.update rfl (h slot)
  | dropped _ => exact h
  | installed _ _ _ _ => exact h

end FailInv

/-! ## Rows of the current generation -/

/-- The rows of the current generation were admitted under the current binding. -/
def CurrentInv (t : Table cfg) : Prop :=
  ∀ s, (t.slots s).Occupied → (t.slots s).rowGeneration = t.currentGeneration →
    (t.slots s).filledThrough = t.currentBinding

namespace CurrentInv

theorem create (h : cfg.Accepted) : (Table.create cfg h).CurrentInv := fun s hs => by
  rcases hs with hs | hs <;> cases hs

/-- A change that admits no row and leaves the bindings alone. -/
theorem keep (h : t.CurrentInv) (hbindings : SameBindings t t')
    (hslots : ∀ s, (t'.slots s).Occupied → (t.slots s).Occupied ∧
      (t'.slots s).rowGeneration = (t.slots s).rowGeneration ∧
      (t'.slots s).filledThrough = (t.slots s).filledThrough) : t'.CurrentInv := by
  intro s hs hgeneration
  obtain ⟨hold, hsame, hthrough⟩ := hslots s hs
  rw [hsame, hbindings.generation] at hgeneration
  rw [hthrough, hbindings.current]
  exact h s hold hgeneration

/-- A rewrite of one slot that is not its concern. -/
theorem update (h : t.CurrentInv) (hbindings : SameBindings t t') {s' : Slot cfg}
    (hslots : t'.slots = Function.update t.slots slot s')
    (hslot : s'.Occupied → (t.slots slot).Occupied ∧
      s'.rowGeneration = (t.slots slot).rowGeneration ∧
      s'.filledThrough = (t.slots slot).filledThrough) : t'.CurrentInv := by
  refine h.keep hbindings fun s hs => ?_
  rw [hslots] at hs ⊢
  by_cases hss : s = slot
  · subst hss
    rw [Function.update_self] at hs ⊢
    exact hslot hs
  · rw [Function.update_of_ne hss] at hs ⊢
    exact ⟨hs, rfl, rfl⟩

/-- An admission goes through the current binding. -/
theorem startFillLocked (h : t.CurrentInv) (answers : Answers) (slot : cfg.SlotId)
    (row : UInt64) : (t.startFillLocked answers slot row).2.CurrentInv := by
  obtain ⟨hframe, hother⟩ := t.startFillLocked_frame answers slot row
  intro s hs hgeneration
  rw [hframe.currentBinding]
  by_cases hss : s = slot
  · subst hss
    cases hstart : t.startFillLocked answers s row with
    | mk status u =>
        rw [hstart] at hs
        by_cases hok : status = .ok
        · subst hok
          exact (startFillLocked_ok hstart).2.2.2.1
        · have hfailed := (startFillLocked_refused hstart hok).1
          rcases hs with hs | hs <;> rw [hfailed] at hs <;> cases hs
  · rw [hother s hss] at hs hgeneration ⊢
    rw [hframe.currentGeneration] at hgeneration
    exact h s hs hgeneration

theorem quiet (h : t.CurrentInv) (he : Quiet t t') : t'.CurrentInv := by
  cases he with
  | sweep he =>
      cases he with
      | bookkeeping hb =>
          cases hb with
          | mk slots tickets waiters hand held counters notifications hslots =>
              refine h.keep ⟨rfl, rfl, rfl, rfl⟩ fun s hs => ?_
              obtain ⟨r, hr⟩ := hslots s
              dsimp only at hs ⊢
              rw [hr] at hs ⊢
              exact ⟨hs, rfl, rfl⟩
      | freed slot hpins hstate =>
          refine h.update ⟨rfl, rfl, rfl, rfl⟩ rfl fun hs => ?_
          rcases hs with hs | hs <;> cases hs
  | deliveries hd => cases hd with | mk requests hrequests => exact h
  | started answers slot row hfree habsent => exact h.startFillLocked answers slot row

theorem quiets (h : t.CurrentInv) (he : Quiets t t') : t'.CurrentInv :=
  he.invariant (fun _ _ hu hedit => hu.quiet hedit) h

theorem pin (h : t.CurrentInv) (slot : cfg.SlotId) : (t.pin slot).CurrentInv :=
  h.update ⟨rfl, rfl, rfl, rfl⟩ rfl fun hs => ⟨hs, rfl, rfl⟩

theorem localEdits (h : t.CurrentInv) (he : LocalEdits t t') : t'.CurrentInv := by
  induction he with
  | refl => exact h
  | tail _ hlast ih =>
      cases hlast with
      | quiet hq => exact ih.quiet hq
      | pinned slot => exact ih.pin slot
      | unpinned slot => exact ih.update ⟨rfl, rfl, rfl, rfl⟩ rfl fun hs => ⟨hs, rfl, rfl⟩

end CurrentInv

/-! ## Keys that stay -/

/-- Some pinned slot is indexed under the key. -/
def Pinned (t : Table cfg) (key : RowKey) : Prop :=
  ∃ s, (t.slots s).indexed = true ∧ (t.slots s).key = key ∧ (t.slots s).pins ≠ 0

/-- A key that is pinned is not absent. -/
theorem Pinned.not_absent (h : t.Pinned key) : ¬ t.Absent key := by
  obtain ⟨s, hindexed, hkey, -⟩ := h
  exact fun habsent => habsent s hindexed hkey

/-- Quiet edits leave pinned keys in place. -/
theorem Pinned.quiets (h : t.Pinned key) (hidx : t.IndexInv) (he : Quiets t t') :
    t'.Pinned key := by
  obtain ⟨s, hindexed, hkey, hpins⟩ := h
  have hfree : (t.slots s).state ≠ .free := by
    intro hfree
    rcases (hidx.occupied s).mp hindexed with hs | hs <;> rw [hfree] at hs <;> cases hs
  obtain ⟨r, hr⟩ := he.frame.2 s (Or.inr ⟨hpins, hfree⟩)
  exact ⟨s, by rw [hr]; exact hindexed, by rw [hr]; exact hkey, by rw [hr]; exact hpins⟩

/-- A pin leaves pinned keys in place, if it does not wrap. -/
theorem Pinned.pin (h : t.Pinned key) (hpins : ((t.pin slot).slots slot).pins ≠ 0) :
    (t.pin slot).Pinned key := by
  obtain ⟨s, hindexed, hkey, hold⟩ := h
  obtain ⟨r, p, hr⟩ := t.pin_sameFill slot s
  refine ⟨s, by rw [hr]; exact hindexed, by rw [hr]; exact hkey, ?_⟩
  by_cases hs : s = slot
  · rw [hs]
    exact hpins
  · rw [show (t.pin slot).slots s = t.slots s from Function.update_of_ne hs ..]
    exact hold

end Table

namespace World

variable {w w' : World cfg}

/-- The slots of the leases held before carry on. -/
def CarriesLeases (w w' : World cfg) : Prop :=
  ∀ v l, w.leases v = some l → Table.Carries (w.table.slots l.slot) (w'.table.slots l.slot)

/-- Without a change to the pins the slots of leases carry on. -/
theorem PinInv.carries_of_keeps (h : w.PinInv) (htable : Table.Keeps w.table w'.table) :
    w.CarriesLeases w' := fun v l hv =>
  htable.held l.slot (h.pins_ne hv) (h.names v l hv).not_free

/-- Returning a pin leaves the slots of leases as they are. -/
theorem PinInv.carries_reset (h : w.PinInv) (v : LeaseVar) :
    w.CarriesLeases (w.resetLease v) := by
  intro v' l' hv'
  have hfree := (h.names v' l' hv').not_free
  cases hv : w.leases v with
  | none =>
      rw [resetLease_none hv]
      exact .refl hfree
  | some l =>
      rw [h.resetLease_some hv]
      exact (w.table.unpinLocked_sameFill _ _).carries hfree

/-- What phase A of `resolve_into` achieves on the entries from `i` on: it takes leases
on the first rows, in order, and stops where admission fails. -/
structure AdmittedRows (w : World cfg) (out i : ℕ) (rows : List UInt64)
    (count : ℕ) (failure : Status) (w' : World cfg) : Prop where
  pins : w'.PinInv
  index : w'.table.IndexInv
  count_le : count ≤ rows.length
  count_eq : failure = .ok → count = rows.length
  others : ∀ v : ℕ, ¬ (out + i ≤ v ∧ v < out + i + count) → w'.leases v = w.leases v
  taken : ∀ j < count, ∃ l, w'.leases (out + i + j) = some l ∧ rows[j]? = some l.rowIndex ∧
    l.generation = w.table.currentGeneration ∧ l.id = w.granted + j ∧
    (w.table.CurrentInv → l.through = w.table.currentBinding)
  carries : w.CarriesLeases w'
  granted : w'.granted = w.granted + count
  released : w'.released = w.released
  inUse : w'.inUse = w.inUse
  threads : w'.threads = w.threads
  generation : w'.table.currentGeneration = w.table.currentGeneration
  binding : w'.table.currentBinding = w.table.currentBinding
  fills : ∀ s, (w.table.slots s).state = .filling →
    Table.SameFill (w.table.slots s) (w'.table.slots s)
  fetched : ∃ keys, w'.table.fetchLog = keys ++ w.table.fetchLog ∧ keys.Nodup ∧
    ∀ key ∈ keys, ¬ w.table.Pinned key ∧
      (∃ row ∈ rows, key = (row, w.table.currentGeneration)) ∧
      ∃ s, (w'.table.slots s).state = .filling ∧ (w'.table.slots s).key = key

theorem admitRows_spec (answers : Answers) (out : ℕ) (rows : List UInt64) (i : ℕ)
    (h : w.PinInv) (hidx : w.table.IndexInv) (hroom : w.held + rows.length < 2 ^ 32)
    (hempty : ∀ j < rows.length, w.leases (out + i + j) = none) :
    ∃ count, (admitRows answers out i rows w).1 = i + count ∧
      AdmittedRows w out i rows count (admitRows answers out i rows w).2.1
        (admitRows answers out i rows w).2.2 := by
  induction rows generalizing i w with
  | nil =>
      exact ⟨0, rfl, {
        pins := h
        index := hidx
        count_le := le_rfl
        count_eq := fun _ => rfl
        others := fun v _ => rfl
        taken := fun j hj => absurd hj (Nat.not_lt_zero j)
        carries := h.carries_of_keeps (.refl _)
        granted := rfl
        released := rfl
        inUse := rfl
        threads := rfl
        generation := rfl
        binding := rfl
        fills := fun s _ => .refl _
        fetched := ⟨[], rfl, List.nodup_nil, fun key hkey => by cases hkey⟩ }⟩
  | cons row rows ih =>
      obtain ⟨hquiets, hok, herror⟩ := Table.findOrFetch_spec hidx answers row
      have hkeeps := Table.Keeps.of_quiets hquiets
      have hframe := hquiets.frame.1
      unfold admitRows
      split
      · rename_i slot t hfind
        rw [hfind] at hquiets hok hkeeps hframe
        have hadmitted := hok slot rfl
        have hidx' := hidx.quiets hquiets
        have hu : ({ w with table := t } : World cfg).PinInv := h.keep hkeeps rfl rfl rfl
        have hfree : (t.slots slot).state ≠ .free := by
          intro hfree
          rcases (hidx'.occupied slot).mp hadmitted.indexed with hs | hs <;> rw [hfree] at hs <;>
            cases hs
        have hentry : w.leases (out + i) = none := hempty 0 (Nat.succ_pos _)
        rw [List.length_cons] at hroom
        -- The row's lease goes to entry `i`; the rest of the batch starts from there.
        have hnext := hu.grant hentry ⟨0, 0⟩ (show w.held + 1 < 2 ^ 32 by omega) hfree
          (congrArg Prod.fst hadmitted.key)
        have hheld := hu.held_grant hentry slot row ⟨0, 0⟩
        generalize hw₁ : ({ w with table := t } : World cfg).grant (out + i) slot row ⟨0, 0⟩ = w₁
          at hnext hheld ⊢
        have htable : w₁.table = t.pin slot := by rw [← hw₁]; rfl
        have hself : w₁.leases (out + i) = some ⟨slot, (t.slots slot).epoch, ⟨0, 0⟩, row,
            (t.slots slot).rowGeneration, w.granted, (t.slots slot).filledThrough⟩ := by
          rw [← hw₁]
          exact Function.update_self ..
        have hother : ∀ v : ℕ, v ≠ out + i → w₁.leases v = w.leases v := fun v hv => by
          rw [← hw₁]
          exact Function.update_of_ne hv ..
        have hidx₁ : w₁.table.IndexInv := by
          rw [htable]
          exact hidx'.pin slot
        have hheld : w₁.held = w.held + 1 := hheld
        obtain ⟨count, hcount, hrest⟩ := ih (i + 1) hnext hidx₁ (by rw [hheld]; omega)
          (fun j hj => by
            rw [hother _ (by omega)]
            have := hempty (j + 1) (Nat.succ_lt_succ hj)
            rwa [show out + (i + 1) + j = out + i + (j + 1) by omega])
        have hgranted : w₁.granted = w.granted + 1 := by rw [← hw₁]; rfl
        have hgeneration : w₁.table.currentGeneration = w.table.currentGeneration := by
          rw [htable]
          exact hframe.currentGeneration
        have hpinned : ∀ key, w.table.Pinned key → w₁.table.Pinned key := fun key hkey => by
          rw [htable]
          refine (hkey.quiets hidx hquiets).pin ?_
          rw [← htable]
          exact hnext.pins_ne hself
        refine ⟨count + 1, by rw [hcount]; omega, {
          pins := hrest.pins
          index := hrest.index
          count_le := Nat.succ_le_succ hrest.count_le
          count_eq := fun heq => congrArg Nat.succ (hrest.count_eq heq)
          others := fun v hv => ?_
          taken := fun j hj => ?_
          carries := fun v l hv => ?_
          granted := by rw [hrest.granted, hgranted]; omega
          released := by rw [hrest.released, ← hw₁]; rfl
          inUse := by rw [hrest.inUse, ← hw₁]; rfl
          threads := by rw [hrest.threads, ← hw₁]; rfl
          generation := hrest.generation.trans hgeneration
          binding := by
            rw [hrest.binding, htable]
            exact hframe.currentBinding
          fills := fun s hs => ?_
          fetched := ?_ }⟩
        · rw [hrest.others v (by omega), hother v (by omega)]
        · cases j with
          | zero =>
              refine ⟨_, (hrest.others _ (by omega)).trans hself, rfl, ?_, rfl, fun hcurrent => ?_⟩
              · exact congrArg Prod.snd hadmitted.key
              · rw [← hframe.currentBinding]
                refine hcurrent.quiets hquiets slot ((hidx'.occupied slot).mp hadmitted.indexed) ?_
                rw [hframe.currentGeneration]
                exact congrArg Prod.snd hadmitted.key
          | succ j =>
              obtain ⟨l, hl, hrow, hgen, hid, hthrough⟩ :=
                hrest.taken j (Nat.lt_of_succ_lt_succ hj)
              refine ⟨l, ?_, hrow, hgen.trans hgeneration, ?_, fun hcurrent => ?_⟩
              · rwa [show out + i + (j + 1) = out + (i + 1) + j by omega]
              · rw [hid, hgranted]
                omega
              · rw [hthrough (by rw [htable]; exact (hcurrent.quiets hquiets).pin slot), htable]
                exact hframe.currentBinding
        · have hne : v ≠ out + i := by
            rintro rfl
            rw [hentry] at hv
            cases hv
          have hkept : w.CarriesLeases { w with table := t } := h.carries_of_keeps hkeeps
          have hcarries := hkept v l hv
          refine (hcarries.trans ?_).trans (hrest.carries v l (by rw [hother v hne]; exact hv))
          rw [htable]
          exact (t.pin_sameFill slot l.slot).carries hcarries.not_free
        · have hsame := hquiets.edits.sameFill hs
          obtain ⟨r, p, hr⟩ := hsame.trans (t.pin_sameFill slot s)
          refine (Table.SameFill.trans ⟨r, p, hr⟩ ?_)
          rw [← htable]
          refine hrest.fills s ?_
          rw [htable, hr]
          exact hs
        · obtain ⟨keys, hlog, hnodup, hkeys⟩ := hrest.fetched
          have hold : ∀ key ∈ keys, ¬ w.table.Pinned key ∧
              (∃ row' ∈ row :: rows, key = (row', w.table.currentGeneration)) ∧
              ∃ s, ((admitRows answers out (i + 1) rows w₁).2.2.table.slots s).state = .filling ∧
                ((admitRows answers out (i + 1) rows w₁).2.2.table.slots s).key = key := by
            intro key hkey
            obtain ⟨hnot, ⟨row', hrow', heq⟩, hfills⟩ := hkeys key hkey
            rw [hgeneration] at heq
            exact ⟨fun hp => hnot (hpinned key hp), ⟨row', List.mem_cons_of_mem _ hrow', heq⟩,
              hfills⟩
          have hlog₁ : w₁.table.fetchLog = t.fetchLog := by rw [htable]; rfl
          rw [hlog₁] at hlog
          rcases hadmitted.fetched with hsame | ⟨habsent, hfilling, hnew⟩
          · exact ⟨keys, by rw [hlog, hsame], hnodup, hold⟩
          · rw [hnew] at hlog
            refine ⟨keys ++ [(row, w.table.currentGeneration)], by rw [hlog]; simp, ?_, ?_⟩
            · have hfresh : (row, w.table.currentGeneration) ∉ keys := by
                intro hmem
                refine (hkeys _ hmem).1 ?_
                obtain ⟨r, p, hr⟩ := t.pin_sameFill slot slot
                refine ⟨slot, ?_, ?_, hnext.pins_ne hself⟩ <;> rw [htable, hr]
                · exact hadmitted.indexed
                · exact hadmitted.key
              rw [List.nodup_append]
              refine ⟨hnodup, List.nodup_singleton _, fun key hkey key' hkey' heq => ?_⟩
              rw [List.mem_singleton] at hkey'
              rw [heq, hkey'] at hkey
              exact hfresh hkey
            · intro key hkey
              rcases List.mem_append.mp hkey with hkey | hkey
              · exact hold key hkey
              · rw [List.mem_singleton] at hkey
                rw [hkey]
                have hslot : (w₁.table.slots slot).state = .filling ∧
                    (w₁.table.slots slot).key = (row, w.table.currentGeneration) := by
                  obtain ⟨r, p, hr⟩ := t.pin_sameFill slot slot
                  rw [htable, hr]
                  exact ⟨hfilling, hadmitted.key⟩
                obtain ⟨r, p, hr⟩ := hrest.fills slot hslot.1
                refine ⟨fun hp => hp.not_absent habsent, ⟨row, List.mem_cons_self, rfl⟩, slot, ?_⟩
                rw [hr]
                exact hslot
      · rename_i status t hfind
        rw [hfind] at hquiets herror hkeeps hframe
        obtain ⟨hne, hlog⟩ := herror status rfl
        exact ⟨0, rfl, {
          pins := h.keep hkeeps rfl rfl rfl
          index := hidx.quiets hquiets
          count_le := Nat.zero_le _
          count_eq := fun heq => absurd heq hne
          others := fun v _ => rfl
          taken := fun j hj => absurd hj (Nat.not_lt_zero j)
          carries := h.carries_of_keeps hkeeps
          granted := rfl
          released := rfl
          inUse := rfl
          threads := rfl
          generation := hframe.currentGeneration
          binding := hframe.currentBinding
          fills := fun s hs => hquiets.edits.sameFill hs
          fetched := ⟨[], hlog, List.nodup_nil, fun key hkey => by cases hkey⟩ }⟩

end World

end TieredCache
