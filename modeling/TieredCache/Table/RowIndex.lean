/-
# The row index

The table finds the slot of a row through an open-addressing array of slot
numbers.  The array stores no keys: the key of an entry is read from the slot it
names.  Positions advance and distances wrap by masking, which is cyclic
arithmetic because the array size is a power of two; with that the loops here are
those of the generic probing library, and the index refines a finite map from
row keys to slots.
-/

import Mathlib.Algebra.Order.Ring.Nat
import TieredCache.Math.OpenAddressing
import TieredCache.Table.Config

namespace TieredCache

open Math.OpenAddressing

/-- A resident row's key: its row index and the generation it was admitted for. -/
abbrev RowKey := UInt64 × UInt64

/-! ## The loops of the index -/

section Loops

variable {size : ℕ} {S : Type}

/-- `(pos + 1) & mask`. -/
def maskedNext (pos : Fin size) : Fin size :=
  ⟨(pos.val + 1) &&& (size - 1),
    lt_of_le_of_lt Nat.and_le_right (Nat.sub_lt pos.pos one_pos)⟩

/-- `(stop - start) & mask`, where the subtraction wraps as a 64-bit word. -/
def maskedDistance (start stop : Fin size) : ℕ :=
  ((stop.val + 2 ^ 64 - start.val) % 2 ^ 64) &&& (size - 1)

/-- The loop of `index_find`; `none` while it is still probing. -/
def indexFindLoop (keyOf : S → RowKey) (index : Fin size → Option S) (key : RowKey) :
    ℕ → Fin size → Option (Option S)
  | 0, _ => none
  | fuel + 1, pos =>
      match index pos with
      | none => some none
      | some slot =>
          if keyOf slot = key then some (some slot)
          else indexFindLoop keyOf index key fuel (maskedNext pos)

/-- The loop of `index_insert`. -/
def indexInsertLoop (index : Fin size → Option S) (slot : S) :
    ℕ → Fin size → Option (Fin size → Option S)
  | 0, _ => none
  | fuel + 1, pos =>
      match index pos with
      | none => some (Function.update index pos (some slot))
      | some _ => indexInsertLoop index slot fuel (maskedNext pos)

/-- The loop of `index_erase` that walks to the entry.  The code reads a slot
through an empty cell if the key is absent; that is `none` here. -/
def indexLocateLoop (keyOf : S → RowKey) (index : Fin size → Option S) (key : RowKey) :
    ℕ → Fin size → Option (Fin size)
  | 0, _ => none
  | fuel + 1, pos =>
      match index pos with
      | none => none
      | some slot =>
          if keyOf slot = key then some pos
          else indexLocateLoop keyOf index key fuel (maskedNext pos)

/-- The loop of `index_erase` that shifts the rest of the cluster back. -/
def indexShiftLoop (home : RowKey → Fin size) (keyOf : S → RowKey) :
    ℕ → Fin size → Fin size → (Fin size → Option S) → Option (Fin size → Option S)
  | 0, _, _, _ => none
  | fuel + 1, hole, pos, index =>
      match index pos with
      | none => some (Function.update index hole none)
      | some slot =>
          if maskedDistance hole pos ≤ maskedDistance (home (keyOf slot)) pos then
            indexShiftLoop home keyOf fuel pos (maskedNext pos)
              (Function.update index hole (some slot))
          else indexShiftLoop home keyOf fuel hole (maskedNext pos) index

/-- `index_find`: the slot stored under `key`, or nothing.  The outer option is
`none` if the loop does not end. -/
def indexFind (home : RowKey → Fin size) (keyOf : S → RowKey) (index : Fin size → Option S)
    (key : RowKey) : Option (Option S) :=
  indexFindLoop keyOf index key size (home key)

/-- `index_insert`: store `slot` under `key`. -/
def indexInsert (home : RowKey → Fin size) (index : Fin size → Option S) (key : RowKey)
    (slot : S) : Option (Fin size → Option S) :=
  indexInsertLoop index slot size (home key)

/-- `index_erase`: remove the entry of `key` and close the hole it leaves. -/
def indexErase (home : RowKey → Fin size) (keyOf : S → RowKey) (index : Fin size → Option S)
    (key : RowKey) : Option (Fin size → Option S) :=
  (indexLocateLoop keyOf index key size (home key)).bind fun hole =>
    indexShiftLoop home keyOf size hole (maskedNext hole) index

end Loops

/-! ## Masking is cyclic arithmetic -/

section Masking

variable {k size : ℕ} {S : Type}

theorem and_mask (hsize : size = 2 ^ k) (n : ℕ) : n &&& (size - 1) = n % size := by
  rw [hsize, Nat.and_two_pow_sub_one_eq_mod]

theorem maskedNext_eq_next (hsize : size = 2 ^ k) (pos : Fin size) :
    maskedNext pos = next pos :=
  Fin.ext (and_mask hsize (pos.val + 1))

theorem maskedDistance_eq_gap (hsize : size = 2 ^ k) (hk : k ≤ 64) (start stop : Fin size) :
    maskedDistance start stop = gap start stop := by
  have hstart := start.isLt
  have hdvd : size ∣ 2 ^ 64 := hsize ▸ Nat.pow_dvd_pow 2 hk
  obtain ⟨turns, hturns⟩ := hdvd
  have hpos : 1 ≤ turns := Nat.pos_of_ne_zero fun hzero => by simp [hzero] at hturns
  obtain ⟨extra, rfl⟩ := Nat.exists_eq_add_of_le hpos
  have hword : stop.val + 2 ^ 64 - start.val = stop.val + size - start.val + size * extra := by
    rw [hturns, Nat.mul_add, Nat.mul_one]
    omega
  unfold maskedDistance gap
  rw [and_mask hsize, Nat.mod_mod_of_dvd _ ⟨1 + extra, hturns⟩, hword,
    Nat.add_mul_mod_self_left]

theorem indexFindLoop_eq (hsize : size = 2 ^ k) (keyOf : S → RowKey)
    (index : Fin size → Option S) (key : RowKey) (fuel : ℕ) (pos : Fin size) :
    indexFindLoop keyOf index key fuel pos = findFrom keyOf index key fuel pos := by
  induction fuel generalizing pos with
  | zero => rfl
  | succ fuel ih =>
      cases hpos : index pos with
      | none => simp only [indexFindLoop, findFrom, hpos]
      | some slot => simp only [indexFindLoop, findFrom, hpos, maskedNext_eq_next hsize, ih]

theorem indexInsertLoop_eq (hsize : size = 2 ^ k) (index : Fin size → Option S) (slot : S)
    (fuel : ℕ) (pos : Fin size) :
    indexInsertLoop index slot fuel pos = insertFrom index slot fuel pos := by
  induction fuel generalizing pos with
  | zero => rfl
  | succ fuel ih =>
      cases hpos : index pos with
      | none => simp only [indexInsertLoop, insertFrom, hpos]
      | some other =>
          simp only [indexInsertLoop, insertFrom, hpos, maskedNext_eq_next hsize, ih]

theorem indexLocateLoop_eq (hsize : size = 2 ^ k) (keyOf : S → RowKey)
    (index : Fin size → Option S) (key : RowKey) (fuel : ℕ) (pos : Fin size) :
    indexLocateLoop keyOf index key fuel pos = locateFrom keyOf index key fuel pos := by
  induction fuel generalizing pos with
  | zero => rfl
  | succ fuel ih =>
      cases hpos : index pos with
      | none => simp only [indexLocateLoop, locateFrom, hpos]
      | some slot =>
          simp only [indexLocateLoop, locateFrom, hpos, maskedNext_eq_next hsize, ih]

theorem indexShiftLoop_eq (hsize : size = 2 ^ k) (hk : k ≤ 64) (home : RowKey → Fin size)
    (keyOf : S → RowKey) (fuel : ℕ) (hole pos : Fin size) (index : Fin size → Option S) :
    indexShiftLoop home keyOf fuel hole pos index =
      shiftFrom (fun slot => home (keyOf slot)) fuel hole pos index := by
  induction fuel generalizing hole pos index with
  | zero => rfl
  | succ fuel ih =>
      cases hpos : index pos with
      | none => simp only [indexShiftLoop, shiftFrom, hpos]
      | some slot =>
          simp only [indexShiftLoop, shiftFrom, hpos, maskedNext_eq_next hsize,
            maskedDistance_eq_gap hsize hk, ih]

end Masking

/-! ## The index of a budget -/

theorem indexSize_eq_two_pow (budgetRows : UInt32) :
    ∃ k ≤ 64, indexSize budgetRows = 2 ^ k := by
  unfold indexSize bitCeil
  split_ifs with hsmall
  · exact ⟨0, by omega, rfl⟩
  · refine ⟨_, ?_, rfl⟩
    have hlt := budgetRows.toNat_lt
    have : Nat.log2 (budgetRows.toNat * 2 - 1) < 64 :=
      (Nat.log2_lt (by omega)).mpr (by omega)
    omega

/-- The array always has room for more entries than there are slots. -/
theorem budgetRows_lt_indexSize (budgetRows : UInt32) :
    budgetRows.toNat < indexSize budgetRows := by
  have hle := le_bitCeil (budgetRows.toNat * 2)
  have hpos : 0 < bitCeil (budgetRows.toNat * 2) := by
    obtain ⟨k, hk⟩ := bitCeil_isPowerOfTwo (budgetRows.toNat * 2)
    rw [hk]
    exact Nat.two_pow_pos k
  unfold indexSize
  omega

section Budget

variable {budgetRows : UInt32} {home : RowKey → Fin (indexSize budgetRows)}
  {keyOf : Fin budgetRows.toNat → RowKey}
  {index : Fin (indexSize budgetRows) → Option (Fin budgetRows.toNat)}

/-- A well-formed index over the slots of a budget always has an empty cell. -/
theorem exists_empty_cell (hwf : WellFormed home keyOf index) : ∃ e, index e = none :=
  hwf.exists_empty (by rw [Fintype.card_fin]; exact budgetRows_lt_indexSize budgetRows)

/-- `index_find` ends and finds exactly the slot stored under its key. -/
theorem indexFind_spec (hwf : WellFormed home keyOf index) (key : RowKey) :
    ∃ r, indexFind home keyOf index key = some r ∧
      ∀ slot, r = some slot ↔ Holds index slot ∧ keyOf slot = key := by
  obtain ⟨k, -, hsize⟩ := indexSize_eq_two_pow budgetRows
  unfold indexFind
  rw [indexFindLoop_eq hsize]
  exact hwf.find_spec (exists_empty_cell hwf) key

/-- `index_insert` ends and adds exactly the slot. -/
theorem indexInsert_spec (hwf : WellFormed home keyOf index) {slot : Fin budgetRows.toNat}
    (hnew : ∀ other, Holds index other → keyOf other ≠ keyOf slot) :
    ∃ index', indexInsert home index (keyOf slot) slot = some index' ∧
      WellFormed home keyOf index' ∧
      ∀ other, Holds index' other ↔ Holds index other ∨ other = slot := by
  obtain ⟨k, -, hsize⟩ := indexSize_eq_two_pow budgetRows
  unfold indexInsert
  rw [indexInsertLoop_eq hsize]
  exact hwf.insert_spec (exists_empty_cell hwf) hnew

/-- `index_erase` of a stored slot's key ends and removes exactly that slot. -/
theorem indexErase_spec (hwf : WellFormed home keyOf index) {slot : Fin budgetRows.toNat}
    (hslot : Holds index slot) :
    ∃ index', indexErase home keyOf index (keyOf slot) = some index' ∧
      WellFormed home keyOf index' ∧
      ∀ other, Holds index' other ↔ Holds index other ∧ other ≠ slot := by
  obtain ⟨k, hk, hsize⟩ := indexSize_eq_two_pow budgetRows
  obtain ⟨hole, index', hlocate, hshift, hwf', hholds⟩ :=
    hwf.erase_spec (exists_empty_cell hwf) hslot
  refine ⟨index', ?_, hwf', hholds⟩
  unfold indexErase
  rw [indexLocateLoop_eq hsize, hlocate, Option.bind_some, maskedNext_eq_next hsize,
    indexShiftLoop_eq hsize hk, hshift]

end Budget

/-! ## The index refines a finite map -/

/-- What the table does to the index: store a slot under a key, remove a key, or
rewrite the key fields of a slot that is not stored. -/
inductive IndexOp (budgetRows : UInt32)
  | insert (key : RowKey) (slot : Fin budgetRows.toNat)
  | erase (key : RowKey)
  | rekey (slot : Fin budgetRows.toNat) (key : RowKey)

/-- The array together with the key fields of the slots. -/
structure IndexedSlots (budgetRows : UInt32) where
  index : Fin (indexSize budgetRows) → Option (Fin budgetRows.toNat)
  keyOf : Fin budgetRows.toNat → RowKey

namespace IndexOp

variable {budgetRows : UInt32}

/-- The finite map an operation is meant to produce. -/
def effect (entries : RowKey → Option (Fin budgetRows.toNat)) :
    IndexOp budgetRows → RowKey → Option (Fin budgetRows.toNat)
  | .insert key slot => Function.update entries key (some slot)
  | .erase key => Function.update entries key none
  | .rekey _ _ => entries

/-- The operations the index is used with: an absent key and an unused slot are
inserted, a present key is erased, and a stored slot keeps its key. -/
def Legal (entries : RowKey → Option (Fin budgetRows.toNat)) : IndexOp budgetRows → Prop
  | .insert key slot => entries key = none ∧ ∀ other, entries other ≠ some slot
  | .erase key => entries key ≠ none
  | .rekey slot _ => ∀ other, entries other ≠ some slot

/-- Run one operation of the code; `none` if one of its loops does not end.  The
key fields of a slot are written before it is inserted. -/
def run (home : RowKey → Fin (indexSize budgetRows)) (slots : IndexedSlots budgetRows) :
    IndexOp budgetRows → Option (IndexedSlots budgetRows)
  | .insert key slot =>
      (indexInsert home slots.index key slot).map fun index =>
        ⟨index, Function.update slots.keyOf slot key⟩
  | .erase key =>
      (indexErase home slots.keyOf slots.index key).map fun index => ⟨index, slots.keyOf⟩
  | .rekey slot key => some ⟨slots.index, Function.update slots.keyOf slot key⟩

/-- Run a sequence of operations. -/
def runAll (home : RowKey → Fin (indexSize budgetRows)) :
    IndexedSlots budgetRows → List (IndexOp budgetRows) → Option (IndexedSlots budgetRows)
  | slots, [] => some slots
  | slots, op :: ops => (run home slots op).bind fun slots' => runAll home slots' ops

/-- The finite map a sequence of operations is meant to produce. -/
def effectAll (entries : RowKey → Option (Fin budgetRows.toNat)) :
    List (IndexOp budgetRows) → RowKey → Option (Fin budgetRows.toNat)
  | [] => entries
  | op :: ops => effectAll (effect entries op) ops

/-- Every operation of the sequence is legal when its turn comes. -/
def LegalAll (entries : RowKey → Option (Fin budgetRows.toNat)) :
    List (IndexOp budgetRows) → Prop
  | [] => True
  | op :: ops => Legal entries op ∧ LegalAll (effect entries op) ops

end IndexOp

/-- The array and the slots' key fields represent a finite map. -/
structure IndexedSlots.Represents {budgetRows : UInt32}
    (home : RowKey → Fin (indexSize budgetRows)) (slots : IndexedSlots budgetRows)
    (entries : RowKey → Option (Fin budgetRows.toNat)) : Prop where
  wellFormed : WellFormed home slots.keyOf slots.index
  entries_iff : ∀ key slot,
    entries key = some slot ↔ Holds slots.index slot ∧ slots.keyOf slot = key

namespace IndexedSlots.Represents

variable {budgetRows : UInt32} {home : RowKey → Fin (indexSize budgetRows)}
  {slots : IndexedSlots budgetRows} {entries : RowKey → Option (Fin budgetRows.toNat)}

/-- A representing array answers every lookup as the map does. -/
theorem find_eq (h : slots.Represents home entries) (key : RowKey) :
    indexFind home slots.keyOf slots.index key = some (entries key) := by
  obtain ⟨r, hr, hspec⟩ := indexFind_spec h.wellFormed key
  rw [hr]
  congr 1
  apply Option.ext
  intro slot
  rw [hspec slot, h.entries_iff]

/-- Rewriting the key of a slot that is not stored changes nothing. -/
theorem rekey (h : slots.Represents home entries) {slot : Fin budgetRows.toNat}
    (hslot : ∀ other, entries other ≠ some slot) (key : RowKey) :
    Represents home ⟨slots.index, Function.update slots.keyOf slot key⟩ entries := by
  have hne : ∀ other, Holds slots.index other → other ≠ slot := by
    rintro other hother rfl
    exact hslot (slots.keyOf other) ((h.entries_iff _ _).mpr ⟨hother, rfl⟩)
  have hkey : ∀ other, Holds slots.index other →
      Function.update slots.keyOf slot key other = slots.keyOf other := fun other hother =>
    Function.update_of_ne (hne other hother) _ _
  refine ⟨h.wellFormed.congr_key hkey, fun k other => ?_⟩
  rw [h.entries_iff]
  refine ⟨fun hother => ⟨hother.1, ?_⟩, fun hother => ⟨hother.1, ?_⟩⟩
  · exact (hkey other hother.1).trans hother.2
  · exact (hkey other hother.1).symm.trans hother.2

/-- A legal operation ends, and the array again represents the intended map. -/
theorem run_op (h : slots.Represents home entries) {op : IndexOp budgetRows}
    (hop : op.Legal entries) :
    ∃ slots', op.run home slots = some slots' ∧ slots'.Represents home (op.effect entries) := by
  cases op with
  | insert key slot =>
      obtain ⟨habsent, hunused⟩ := hop
      have h' := h.rekey hunused key
      have hkey : Function.update slots.keyOf slot key slot = key := Function.update_self ..
      have hnew : ∀ other, Holds slots.index other →
          Function.update slots.keyOf slot key other ≠
            Function.update slots.keyOf slot key slot := by
        intro other hother hsame
        have := (h'.entries_iff key other).mpr ⟨hother, hsame.trans hkey⟩
        rw [habsent] at this
        cases this
      obtain ⟨index', hinsert, hwf, hholds⟩ := indexInsert_spec h'.wellFormed hnew
      dsimp only at hinsert hholds
      rw [hkey] at hinsert
      refine ⟨_, by rw [IndexOp.run, hinsert]; rfl, hwf, fun k other => ?_⟩
      show Function.update entries key (some slot) k = some other ↔ _
      rw [hholds other]
      by_cases hk : k = key
      · subst hk
        rw [Function.update_self]
        refine ⟨fun hother => ?_, ?_⟩
        · cases hother
          exact ⟨Or.inr rfl, hkey⟩
        · rintro ⟨hother | rfl, hsame⟩
          · have := (h'.entries_iff k other).mpr ⟨hother, hsame⟩
            rw [habsent] at this
            cases this
          · rfl
      · rw [Function.update_of_ne hk, h'.entries_iff]
        refine ⟨fun hother => ⟨Or.inl hother.1, hother.2⟩, ?_⟩
        rintro ⟨hother | rfl, hsame⟩
        · exact ⟨hother, hsame⟩
        · exact absurd (hsame.symm.trans hkey) hk
  | erase key =>
      obtain ⟨slot, hslot⟩ := Option.ne_none_iff_exists'.mp hop
      obtain ⟨hstored, hkey⟩ := (h.entries_iff key slot).mp hslot
      obtain ⟨index', herase, hwf, hholds⟩ := indexErase_spec h.wellFormed hstored
      rw [hkey] at herase
      refine ⟨_, by rw [IndexOp.run, herase]; rfl, hwf, fun k other => ?_⟩
      show Function.update entries key none k = some other ↔ _
      rw [hholds other]
      by_cases hk : k = key
      · subst hk
        rw [Function.update_self]
        refine ⟨fun hother => (by cases hother), ?_⟩
        rintro ⟨⟨hother, hne⟩, hsame⟩
        exact absurd (h.wellFormed.eq_of_key_eq hother hstored (hsame.trans hkey.symm)) hne
      · rw [Function.update_of_ne hk, h.entries_iff]
        refine ⟨fun hother => ⟨⟨hother.1, ?_⟩, hother.2⟩, fun hother => ⟨hother.1.1, hother.2⟩⟩
        rintro rfl
        exact hk (hother.2.symm.trans hkey)
  | rekey slot key => exact ⟨_, rfl, h.rekey hop key⟩

/-- A legal sequence of operations ends, and the array represents the intended map. -/
theorem run_all (ops : List (IndexOp budgetRows)) (h : slots.Represents home entries)
    (hops : IndexOp.LegalAll entries ops) :
    ∃ slots', IndexOp.runAll home slots ops = some slots' ∧
      slots'.Represents home (IndexOp.effectAll entries ops) := by
  induction ops generalizing slots entries with
  | nil => exact ⟨slots, rfl, h⟩
  | cons op ops ih =>
      obtain ⟨slots', hrun, h'⟩ := h.run_op hops.1
      obtain ⟨slots'', hrest, h''⟩ := ih h' hops.2
      exact ⟨slots'', by rw [IndexOp.runAll, hrun, Option.bind_some, hrest], h''⟩

end IndexedSlots.Represents

/-- From the empty array, every legal sequence of insertions and deletions ends,
for every budget and every placement of keys, and afterwards `index_find` ends on
every key and answers as the finite map does. -/
theorem rowIndex_refines_map (budgetRows : UInt32)
    (home : RowKey → Fin (indexSize budgetRows)) (keyOf : Fin budgetRows.toNat → RowKey)
    (ops : List (IndexOp budgetRows)) (hops : IndexOp.LegalAll (fun _ => none) ops) :
    ∃ slots, IndexOp.runAll home ⟨fun _ => none, keyOf⟩ ops = some slots ∧
      ∀ key, indexFind home slots.keyOf slots.index key =
        some (IndexOp.effectAll (fun _ => none) ops key) := by
  have hempty : IndexedSlots.Represents home ⟨fun _ => none, keyOf⟩ (fun _ => none) := by
    refine ⟨wellFormed_empty home keyOf, fun key slot => ⟨fun h => (by cases h), ?_⟩⟩
    rintro ⟨⟨pos, hpos⟩, -⟩
    cases hpos
  obtain ⟨slots, hrun, hslots⟩ := hempty.run_all ops hops
  exact ⟨slots, hrun, hslots.find_eq⟩

/-- Every key hashes to the last cell of the index of two slots. -/
def clashHome : RowKey → Fin (indexSize 2) := fun _ => ⟨3, by decide⟩

/-- Two rows of one cell are stored and the one in front is removed. -/
def clashOps : List (IndexOp 2) :=
  [.insert (7, 0) ⟨0, by decide⟩, .insert (8, 0) ⟨1, by decide⟩, .erase (7, 0)]

theorem clashOps_legal : IndexOp.LegalAll (fun _ => none) clashOps := by
  refine ⟨⟨rfl, fun other h => (by cases h)⟩, ⟨rfl, fun other h => ?_⟩, ?_, trivial⟩
  · by_cases hother : other = (7, 0)
    · subst hother
      exact absurd h (by decide)
    · rw [IndexOp.effect, Function.update_of_ne hother] at h
      cases h
  · intro h
    exact absurd h (by decide)

/-- The row behind, past the end of the array, is still found. -/
theorem rowIndex_refines_map_clash :
    ∃ slots, IndexOp.runAll clashHome ⟨fun _ => none, fun _ => (0, 0)⟩ clashOps = some slots ∧
      ∀ key, indexFind clashHome slots.keyOf slots.index key =
        some (IndexOp.effectAll (fun _ => none) clashOps key) :=
  rowIndex_refines_map 2 clashHome (fun _ => (0, 0)) clashOps clashOps_legal

end TieredCache
