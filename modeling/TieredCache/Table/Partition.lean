/-
# A table of a few row sizes partitions its rows

Every row is in the class of its own length, the numbers of rows in classes are inverse to the rows
of the classes, and each class has a table over a slice of the storage.  The slices follow one
another as long as the sum of their sizes is not cut off at 64 bits.
-/

import Mathlib
import TieredCache.Math.Tiling
import TieredCache.Math.Words
import TieredCache.Table.SizeClasses

namespace TieredCache

open Math.Numbering Math.Tiling Math.Words

namespace SizeClassedTableConfig

variable {cfg : SizeClassedTableConfig} {resolver : RowExtentResolver}

/-! ## Rows and their widths -/

theorem getElem?_rowList {i : ℕ} {row : UInt64} :
    cfg.rowList[i]? = some row ↔ row < cfg.rowCount ∧ row.toNat = i := by
  have hcount := cfg.rowCount.toNat_lt
  rw [rowList, List.getElem?_map, Option.map_eq_some_iff, UInt64.lt_iff_toNat_lt]
  constructor
  · rintro ⟨n, hn, rfl⟩
    obtain ⟨hlt, rfl⟩ := List.getElem?_eq_some_iff.mp hn
    rw [List.length_range] at hlt
    rw [List.getElem_range, UInt64.toNat_ofNat', Nat.mod_eq_of_lt (by omega)]
    exact ⟨hlt, rfl⟩
  · rintro ⟨hlt, rfl⟩
    exact ⟨row.toNat, List.getElem?_range hlt, UInt64.ofNat_toNat⟩

theorem length_rowList : cfg.rowList.length = cfg.rowCount.toNat := by
  rw [rowList, List.length_map, List.length_range]

theorem rowList_increasing : cfg.rowList.Pairwise (· < ·) := by
  rw [List.pairwise_iff_getElem]
  intro i j hi hj hij
  have hrowI := (getElem?_rowList.mp (List.getElem?_eq_getElem hi)).2
  have hrowJ := (getElem?_rowList.mp (List.getElem?_eq_getElem hj)).2
  rw [UInt64.lt_iff_toNat_lt, hrowI, hrowJ]
  exact hij

theorem rowList_nodup : cfg.rowList.Nodup := rowList_increasing.imp UInt64.ne_of_lt

end SizeClassedTableConfig

/-- The length of a row, as the resolver has it. -/
def widthOf (resolver : RowExtentResolver) (row : UInt64) : Option UInt64 :=
  match resolver.resolve row with
  | .ok location => some location.range.length
  | .error _ => none

theorem widthOf_eq_some {resolver : RowExtentResolver} {row width : UInt64} :
    widthOf resolver row = some width ↔
      ∃ location, resolver.resolve row = .ok location ∧ location.range.length = width := by
  unfold widthOf
  cases resolver.resolve row <;> simp

namespace SizeClassedTableConfig

variable {cfg : SizeClassedTableConfig} {resolver : RowExtentResolver}

/-- Discovery numbers the widths of the rows as they are met. -/
theorem discover_met {rows done : List UInt64} {widths widths' : List UInt64}
    {classOf classOf' : List ℕ} (hmet : Met (widthOf resolver) done widths classOf)
    (hcount : widths.length ≤ cfg.maxClasses.toNat)
    (h : cfg.discover resolver rows widths classOf = .ok (widths', classOf')) :
    Met (widthOf resolver) (done ++ rows) widths' classOf' ∧
      widths'.length ≤ cfg.maxClasses.toNat := by
  induction rows generalizing done widths classOf with
  | nil =>
      cases h
      rw [List.append_nil]
      exact ⟨hmet, hcount⟩
  | cons row rows ih =>
      unfold discover at h
      split at h
      · cases h
      · rename_i location hlocation
        have hwidth : widthOf resolver row = some location.range.length :=
          widthOf_eq_some.mpr ⟨location, hlocation, rfl⟩
        rw [List.append_cons]
        dsimp only at h
        split_ifs at h with hzero hknown hfull
        · have hmem : location.range.length ∈ widths := by
            by_contra hnew
            exact hknown (List.idxOf_eq_length hnew)
          have hat : widths[widths.idxOf location.range.length]? = some location.range.length := by
            rw [List.getElem?_eq_getElem (List.idxOf_lt_length_of_mem hmem), List.getElem_idxOf]
          exact ih (hmet.snoc hwidth hat) hcount h
        · have hnew : location.range.length ∉ widths := by
            intro hmem
            exact absurd (not_not.mp hknown) (Nat.ne_of_lt (List.idxOf_lt_length_of_mem hmem))
          have hat : (widths ++ [location.range.length])[widths.length]? =
            some location.range.length := List.getElem?_concat_length ..
          refine ih ((hmet.extend hnew).snoc hwidth hat) ?_ h
          rw [List.length_append, List.length_singleton]
          omega

end SizeClassedTableConfig

/-! ## The classes by width -/

/-- The rows gone through so far are in their groups, under the ranks of their classes. -/
structure RowNumbers.Pushed (rank : List ℕ) (n : ℕ) (pushed : List (UInt64 × ℕ))
    (numbers : RowNumbers) : Prop where
  grouped : Grouped (pushed.map Prod.fst) numbers.classOf numbers.localOf numbers.globalOf
  groups : numbers.globalOf.length = n
  ranked : numbers.classOf = pushed.map fun met => rank.getD met.2 0

theorem RowNumbers.Pushed.push {rank : List ℕ} {n : ℕ} {pushed : List (UInt64 × ℕ)}
    {numbers : RowNumbers} (h : RowNumbers.Pushed rank n pushed numbers) {met : UInt64 × ℕ}
    (hrank : rank.getD met.2 0 < n) :
    RowNumbers.Pushed rank n (pushed ++ [met]) (numbers.push rank met) := by
  have hgroup : numbers.globalOf[rank.getD met.2 0]? =
      some (numbers.globalOf.getD (rank.getD met.2 0) []) := by
    have hlt : rank.getD met.2 0 < numbers.globalOf.length := by rwa [h.groups]
    rw [List.getElem?_eq_getElem hlt, List.getD_eq_getElem _ _ hlt]
  refine ⟨?_, ?_, ?_⟩
  · rw [List.map_append]
    exact h.grouped.snoc met.1 hgroup
  · dsimp only [RowNumbers.push]
    rw [List.length_set, h.groups]
  · rw [List.map_append, ← h.ranked]
    rfl

theorem RowNumbers.Pushed.foldl {rank : List ℕ} {n : ℕ} {pushed : List (UInt64 × ℕ)}
    {numbers : RowNumbers} (h : RowNumbers.Pushed rank n pushed numbers)
    (mets : List (UInt64 × ℕ))
    (hrank : ∀ met ∈ mets, rank.getD met.2 0 < n) :
    RowNumbers.Pushed rank n (pushed ++ mets) (mets.foldl (RowNumbers.push rank) numbers) := by
  induction mets generalizing pushed numbers with
  | nil =>
      rw [List.append_nil]
      exact h
  | cons met mets ih =>
      rw [List.append_cons]
      exact ih (h.push (hrank met List.mem_cons_self)) fun other hother =>
        hrank other (List.mem_cons_of_mem _ hother)

/-- Rows by class, the classes by increasing width. -/
structure Renumbered (resolver : RowExtentResolver) (rows widths : List UInt64)
    (numbers : RowNumbers) : Prop where
  grouped : Grouped rows numbers.classOf numbers.localOf numbers.globalOf
  groups : numbers.globalOf.length = widths.length
  increasing : widths.Pairwise (· < ·)
  classed : ∀ (i c : ℕ) row, rows[i]? = some row → numbers.classOf[i]? = some c →
    ∃ width, widths[c]? = some width ∧ widthOf resolver row = some width

theorem renumber_renumbered {resolver : RowExtentResolver} {rows widths : List UInt64}
    {classOf : List ℕ} (hmet : Met (widthOf resolver) rows widths classOf) :
    Renumbered resolver rows (renumber rows widths classOf).1 (renumber rows widths classOf).2 ∧
      (renumber rows widths classOf).1.length = widths.length := by
  have hperm := order_perm (fun c => (widths.getD c 0).toNat) widths.length
  have hkeys : ∀ c < widths.length, ∀ c' < widths.length,
      (widths.getD c 0).toNat = (widths.getD c' 0).toNat → c = c' := by
    intro c hc c' hc' heq
    rw [List.getD_eq_getElem _ _ hc, List.getD_eq_getElem _ _ hc'] at heq
    exact (hmet.nodup.getElem_inj_iff).mp (UInt64.toNat_inj.mp heq)
  have hincreasing := order_increasing hkeys
  unfold renumber
  generalize order (fun c => (widths.getD c 0).toNat) widths.length = numbers at *
  dsimp only
  -- a class that was met has a rank, where its width stands
  have hranked : ∀ c < widths.length, ∃ r < widths.length,
      (ranks numbers widths.length).getD c 0 = r ∧
        (scatter (List.replicate widths.length 0)
          ((ranks numbers widths.length).zip widths))[r]? = widths[c]? := by
    intro c hc
    obtain ⟨r, hr, hnumber⟩ := exists_ranks hperm hc
    refine ⟨r, ranks_lt hperm hr, ?_, scatter_ranks hperm 0 hnumber⟩
    rw [List.getD_eq_getElem?_getD, hr, Option.getD_some]
  have hlength : (scatter (List.replicate widths.length 0)
      ((ranks numbers widths.length).zip widths)).length = widths.length := by
    rw [length_scatter, List.length_replicate]
  have hmap : scatter (List.replicate widths.length 0) ((ranks numbers widths.length).zip widths) =
      numbers.map fun c => widths.getD c 0 := by
    apply List.ext_getElem?
    intro r
    rcases Nat.lt_or_ge r widths.length with hr | hr
    · have hnumber : r < numbers.length := by rwa [hperm.length_eq, List.length_range]
      have hc : numbers[r] < widths.length :=
        List.mem_range.mp (hperm.mem_iff.mp (List.getElem_mem hnumber))
      rw [scatter_ranks hperm 0 (List.getElem?_eq_getElem hnumber), List.getElem?_map,
        List.getElem?_eq_getElem hnumber, List.getElem?_eq_getElem hc, Option.map_some,
        List.getD_eq_getElem _ _ hc]
    · rw [List.getElem?_eq_none (by rwa [hlength]), List.getElem?_eq_none]
      rwa [List.length_map, hperm.length_eq, List.length_range]
  have hmets : ∀ met ∈ rows.zip classOf, met.2 < widths.length := by
    intro met hmem
    obtain ⟨i, hi⟩ := List.mem_iff_getElem?.mp hmem
    obtain ⟨hrow, hclass⟩ := List.getElem?_zip_eq_some.mp hi
    obtain ⟨c, width, hc, hwidth, -⟩ := hmet.keyed i met.1 hrow
    rw [hclass] at hc
    cases hc
    exact (List.getElem?_eq_some_iff.mp hwidth).1
  have hpushed : RowNumbers.Pushed (ranks numbers widths.length) widths.length [] 
      ⟨[], [], List.replicate widths.length []⟩ :=
    ⟨grouped_nil _, List.length_replicate, rfl⟩
  have hdone := hpushed.foldl (rows.zip classOf) fun met hmem => by
    obtain ⟨r, hr, hrank, -⟩ := hranked met.2 (hmets met hmem)
    rwa [hrank]
  rw [List.nil_append] at hdone
  refine ⟨⟨?_, hdone.groups.trans hlength.symm, ?_, fun i c row hrow hc => ?_⟩, hlength⟩
  · have hgrouped := hdone.grouped
    rwa [List.map_fst_zip (Nat.le_of_eq hmet.length.symm)] at hgrouped
  · rw [hmap, List.pairwise_map]
    rw [List.pairwise_map] at hincreasing
    exact hincreasing.imp fun h => UInt64.lt_iff_toNat_lt.mpr h
  · obtain ⟨k, width, hk, hwidth, hkey⟩ := hmet.keyed i row hrow
    have hkn := (List.getElem?_eq_some_iff.mp hwidth).1
    obtain ⟨r, -, hrank, hat⟩ := hranked k hkn
    have hmetAt : (rows.zip classOf)[i]? = some (row, k) :=
      List.getElem?_zip_eq_some.mpr ⟨hrow, hk⟩
    rw [hdone.ranked, List.getElem?_map, hmetAt, Option.map_some, Option.some.injEq] at hc
    dsimp only at hc
    rw [← hc, hrank, hat]
    exact ⟨width, hwidth, hkey⟩

/-! ## The storage by class -/

/-- A class with its share of the storage. -/
structure SizeClass.Budgeted (cfg : SizeClassedTableConfig) (cls cls' : SizeClass) : Prop where
  width : cls'.width = cls.width
  slotBytes : cls'.slotBytes = cls.slotBytes
  rows : cls'.rows = cls.rows
  least : min (2 * cfg.maxBatchRows.toNat) cls.rows.toNat ≤ cls'.budgetRows.toNat
  most : cls'.budgetRows.toNat ≤ cls.rows.toNat
  bytes : cls'.budgetBytes.toNat = cls'.budgetRows.toNat * cls'.slotBytes.toNat

/-- The bytes of all classes together. -/
def budgetTotal (classes : List SizeClass) : ℕ :=
  (classes.map fun cls => cls.budgetBytes.toNat).sum

namespace SizeClassedTableConfig

variable {cfg : SizeClassedTableConfig} {resolver : RowExtentResolver}

/-- The budget of one class. -/
theorem budgeted_min {cls : SizeClass} {share rows : UInt64}
    (hrows : min (share / cls.slotBytes) cls.rows = rows)
    (hleast : min (2 * cfg.maxBatchRows.toUInt64) cls.rows ≤ rows) (hfew : rows < 0xFFFFFFFF) :
    SizeClass.Budgeted cfg cls { cls with budgetRows := rows.toUInt32 } ∧
      SizeClass.budgetBytes { cls with budgetRows := rows.toUInt32 } = rows * cls.slotBytes ∧
      (rows * cls.slotBytes).toNat ≤ share.toNat := by
  have hbatch := cfg.maxBatchRows.toNat_lt
  have hfew : rows.toNat < 0xFFFFFFFF := UInt64.lt_iff_toNat_lt.mp hfew
  have hbudget : rows.toUInt32.toNat = rows.toNat := by
    rw [UInt64.toNat_toUInt32]
    omega
  have hwide : rows.toUInt32.toUInt64 = rows := by
    apply UInt64.toNat_inj.mp
    rw [UInt32.toNat_toUInt64, hbudget]
  have hmin : rows.toNat = min (share / cls.slotBytes).toNat cls.rows.toNat := by
    rw [← hrows, toNat_min]
  rw [UInt64.toNat_div] at hmin
  have hshare : rows.toNat * cls.slotBytes.toNat ≤ share.toNat := by
    calc rows.toNat * cls.slotBytes.toNat
        ≤ share.toNat / cls.slotBytes.toNat * cls.slotBytes.toNat :=
          Nat.mul_le_mul_right _ (hmin ▸ min_le_left _ _)
      _ ≤ share.toNat := Nat.div_mul_le_self _ _
  have hbytes : rows.toNat * cls.slotBytes.toNat < 2 ^ 64 :=
    Nat.lt_of_le_of_lt hshare share.toNat_lt
  have htotal : SizeClass.budgetBytes { cls with budgetRows := rows.toUInt32 } =
      rows * cls.slotBytes := by
    dsimp only [SizeClass.budgetBytes]
    rw [hwide]
  refine ⟨⟨rfl, rfl, rfl, ?_, ?_, ?_⟩, htotal, by rwa [toNat_mul hbytes]⟩
  · have htwo : (2 * cfg.maxBatchRows.toUInt64).toNat = 2 * cfg.maxBatchRows.toNat := by
      rw [UInt64.toNat_mul, UInt32.toNat_toUInt64]
      exact Nat.mod_eq_of_lt (by change 2 * _ < _; omega)
    rw [UInt64.le_iff_toNat_le, toNat_min, htwo] at hleast
    rw [hbudget]
    exact hleast
  · rw [hbudget, hmin]
    exact min_le_right _ _
  · rw [htotal, toNat_mul hbytes, hbudget]

/-- The classes get their budgets, in all no more than their shares. -/
theorem split_budgeted {share : ℕ → UInt64} {c : ℕ} {classes classes' : List SizeClass}
    {used used' : UInt64} (h : cfg.split share c classes used = .ok (classes', used')) :
    List.Forall₂ (SizeClass.Budgeted cfg) classes classes' ∧
      used'.toNat = (used.toNat + budgetTotal classes') % 2 ^ 64 ∧
      budgetTotal classes' ≤
        ((List.range' c classes.length).map fun c => (share c).toNat).sum := by
  induction classes generalizing c used classes' with
  | nil =>
      cases h
      exact ⟨.nil, (Nat.mod_eq_of_lt (UInt64.toNat_lt _)).symm, Nat.le_refl _⟩
  | cons cls rest ih =>
      unfold split at h
      dsimp only at h
      split_ifs at h with hslot hrows
      generalize hbudget : min (share c / cls.slotBytes) cls.rows = rows at h hrows
      rw [not_or, UInt64.not_lt, UInt64.not_le] at hrows
      obtain ⟨hfirst, hbytes, hshare⟩ := budgeted_min hbudget hrows.1 hrows.2
      cases hrest : cfg.split share (c + 1) rest (used + rows * cls.slotBytes) with
      | error failure =>
          rw [hrest] at h
          cases h
      | ok rested =>
          rw [hrest] at h
          cases h
          obtain ⟨hbudgeted, hused, hshares⟩ := ih hrest
          refine ⟨.cons hfirst hbudgeted, ?_, ?_⟩
          · rw [hused, UInt64.toNat_add, Nat.mod_add_mod, budgetTotal, budgetTotal, List.map_cons,
              List.sum_cons, hbytes, Nat.add_assoc]
          · rw [List.length_cons, List.range'_succ, List.map_cons, List.sum_cons, budgetTotal,
              List.map_cons, List.sum_cons, hbytes]
            exact Nat.add_le_add hshare hshares

/-- Each class has a table over a slice of its size. -/
theorem createTables_registered {pairs : List (SizeClass × List UInt64)} {start : UInt64}
    {tables : List ClassTable} (h : cfg.createTables resolver pairs start = .ok tables) :
    List.Forall₂ (fun (pair : SizeClass × List UInt64) (table : ClassTable) =>
      table.config = cfg.tableConfig resolver pair.2 pair.1 table.slice ∧
        table.slice.size = pair.1.budgetBytes ∧ table.config.Accepted) pairs tables := by
  induction pairs generalizing start tables with
  | nil =>
      cases h
      exact .nil
  | cons pair rest ih =>
      unfold createTables at h
      dsimp only at h
      split_ifs at h with hstatus
      cases hrest : cfg.createTables resolver rest (start + pair.1.budgetBytes) with
      | error failure =>
          rw [hrest] at h
          cases h
      | ok tables' =>
          rw [hrest] at h
          cases h
          exact .cons ⟨rfl, rfl, not_not.mp hstatus⟩ (ih hrest)

end SizeClassedTableConfig

/-- Where a class's slice begins in the storage, and its size. -/
def ClassTable.place (table : ClassTable) : ℕ × ℕ :=
  (table.slice.offset.toNat, table.slice.size.toNat)

namespace SizeClassedTableConfig

variable {cfg : SizeClassedTableConfig} {resolver : RowExtentResolver}
  {pairs : List (SizeClass × List UInt64)} {start : UInt64} {tables : List ClassTable}

theorem createTables_cons {pair : SizeClass × List UInt64}
    (h : cfg.createTables resolver (pair :: pairs) start = .ok tables) :
    ∃ table rest, tables = table :: rest ∧
      table.place = (start.toNat, pair.1.budgetBytes.toNat) ∧
      cfg.createTables resolver pairs (start + pair.1.budgetBytes) = .ok rest := by
  unfold createTables at h
  dsimp only at h
  split_ifs at h
  cases hrest : cfg.createTables resolver pairs (start + pair.1.budgetBytes) with
  | error failure =>
      rw [hrest] at h
      cases h
  | ok rest =>
      rw [hrest] at h
      cases h
      exact ⟨_, rest, rfl, rfl, rfl⟩

/-- The slices follow one another while their total is not cut off. -/
theorem createTables_tiles (hpos : ∀ pair ∈ pairs, 0 < pair.1.budgetBytes.toNat)
    (hsum : start.toNat + budgetTotal (pairs.map Prod.fst) < 2 ^ 64)
    (h : cfg.createTables resolver pairs start = .ok tables) :
    Tiles start.toNat (tables.map ClassTable.place)
      (start.toNat + budgetTotal (pairs.map Prod.fst)) := by
  induction pairs generalizing start tables with
  | nil =>
      cases h
      exact rfl
  | cons pair pairs ih =>
      obtain ⟨table, rest, rfl, hplace, hrest⟩ := createTables_cons h
      have htotal : budgetTotal ((pair :: pairs).map Prod.fst) =
          pair.1.budgetBytes.toNat + budgetTotal (pairs.map Prod.fst) := rfl
      rw [htotal] at hsum ⊢
      have hnext : (start + pair.1.budgetBytes).toNat =
          start.toNat + pair.1.budgetBytes.toNat := toNat_add (by omega)
      have hlater := ih (fun p hp => hpos p (List.mem_cons_of_mem _ hp))
        (by rw [hnext]; omega) hrest
      rw [hnext, Nat.add_assoc] at hlater
      rw [List.map_cons, hplace]
      exact ⟨rfl, hpos pair List.mem_cons_self, hlater⟩

/-- What registration has done when it returns a table. -/
theorem create_eq_ok {share : List SizeClass → ℕ → UInt64} {t : SizeClassedTable}
    (h : cfg.create share = .ok t) :
    ∃ resolver met metOf classes used, cfg.resolveExtent = some resolver ∧
      cfg.rowCount < 0xFFFFFFFF ∧
      cfg.discover resolver cfg.rowList [] [] = .ok (met, metOf) ∧
      cfg.sizeClasses (renumber cfg.rowList met metOf).1 t.globalOf = classes ∧
      cfg.split (share classes) 0 classes 0 = .ok (t.classes, used) ∧
      used ≤ cfg.outputStorage.size ∧
      cfg.createTables resolver (t.classes.zip t.globalOf) 0 = .ok t.tables ∧ t.config = cfg ∧
      (renumber cfg.rowList met metOf).2 = ⟨t.classOf, t.localOf, t.globalOf⟩ := by
  unfold create at h
  split at h
  · cases h
  · rename_i resolver hresolver
    split_ifs at h with hchecks
    cases hdiscover : cfg.discover resolver cfg.rowList [] [] with
    | error failure =>
        rw [hdiscover] at h
        cases h
    | ok met =>
        obtain ⟨met, metOf⟩ := met
        rw [hdiscover] at h
        dsimp only [Except.bind] at h
        generalize hclasses : cfg.sizeClasses (renumber cfg.rowList met metOf).1
          (renumber cfg.rowList met metOf).2.globalOf = classes at h
        cases hsplit : cfg.split (share classes) 0 classes 0 with
        | error failure =>
            rw [hsplit] at h
            cases h
        | ok split =>
            obtain ⟨budgeted, used⟩ := split
            rw [hsplit] at h
            dsimp only at h
            split_ifs at h with hused
            cases htables : cfg.createTables resolver
              (budgeted.zip (renumber cfg.rowList met metOf).2.globalOf) 0 with
            | error failure =>
                rw [htables] at h
                cases h
            | ok tables =>
                rw [htables] at h
                cases h
                rw [not_or] at hchecks
                refine ⟨resolver, met, metOf, classes, used, hresolver, ?_, hdiscover, hclasses,
                  hsplit, UInt64.not_lt.mp hused, htables, rfl, rfl⟩
                exact UInt64.not_le.mp (not_or.mp hchecks.2).1

end SizeClassedTableConfig

/-! ## The partition -/

namespace SizeClassedTable

/-- The rows are partitioned into classes, by the lengths the resolver gives them, and each class
has a table of its rows. -/
structure Partitions (t : SizeClassedTable) (resolver : RowExtentResolver) : Prop where
  increasing : (t.classes.map SizeClass.width).Pairwise (· < ·)
  count : t.classes.length ≤ t.config.maxClasses.toNat
  groups : t.globalOf.length = t.classes.length
  tables : t.tables.length = t.classes.length
  classed : ∀ row < t.config.rowCount, ∃ (c : ℕ) (cls : SizeClass) (location : RowLocation),
    t.classOf[row.toNat]? = some c ∧ t.classes[c]? = some cls ∧
      resolver.resolve row = .ok location ∧ location.range.length = cls.width
  placed : ∀ row < t.config.rowCount, ∃ (c l : ℕ) (group : List UInt64),
    t.classOf[row.toNat]? = some c ∧ t.localOf[row.toNat]? = some l ∧
      t.globalOf[c]? = some group ∧ group[l]? = some row
  found : ∀ (c l : ℕ) (group : List UInt64) row, t.globalOf[c]? = some group →
    group[l]? = some row → row < t.config.rowCount ∧ t.classOf[row.toNat]? = some c ∧
      t.localOf[row.toNat]? = some l
  ordered : ∀ group ∈ t.globalOf, group.Pairwise (· < ·)
  small : (∀ c ∈ t.classOf, c < 2 ^ 32) ∧ ∀ l ∈ t.localOf, l < 2 ^ 32
  sized : ∀ (c : ℕ) (cls : SizeClass) (group : List UInt64), t.classes[c]? = some cls →
    t.globalOf[c]? = some group → cls.rows.toNat = group.length
  budgets : ∀ cls ∈ t.classes,
    min (2 * t.config.maxBatchRows.toNat) cls.rows.toNat ≤ cls.budgetRows.toNat ∧
      cls.budgetRows.toNat ≤ cls.rows.toNat
  registered : ∀ (c : ℕ) (cls : SizeClass) (group : List UInt64) (table : ClassTable),
    t.classes[c]? = some cls → t.globalOf[c]? = some group → t.tables[c]? = some table →
      table.config = t.config.tableConfig resolver group cls table.slice ∧
        table.slice.size.toNat = cls.budgetRows.toNat * cls.slotBytes.toNat ∧
        table.config.Accepted

/-- Routing a row through the resolver of its class resolves that row. -/
def Routes (t : SizeClassedTable) (resolver : RowExtentResolver) : Prop :=
  ∀ row < t.config.rowCount, ∃ (c l : ℕ) (table : ClassTable) (routed : RowExtentResolver),
    t.classOf[row.toNat]? = some c ∧ t.localOf[row.toNat]? = some l ∧
      t.tables[c]? = some table ∧ UInt64.ofNat l < table.config.rowCount ∧
      table.config.resolveExtent = some routed ∧
      routed.resolve (UInt64.ofNat l) = resolver.resolve row

/-- Every slice begins on the alignment. -/
def Aligned (t : SizeClassedTable) : Prop :=
  t.config.fillAlignment ≠ 0 → ∀ table ∈ t.tables,
    (t.config.outputStorage.subspan table.slice).data % t.config.fillAlignment = 0

/-- Every slice is inside the storage. -/
def SlicesInside (t : SizeClassedTable) : Prop :=
  ∀ table ∈ t.tables, table.place.1 + table.place.2 ≤ t.config.outputStorage.size.toNat

/-- No two slices share a byte. -/
def SlicesApart (t : SizeClassedTable) : Prop :=
  t.tables.Pairwise fun table later => table.place.1 + table.place.2 ≤ later.place.1 ∨
    later.place.1 + later.place.2 ≤ table.place.1

variable {cfg : SizeClassedTableConfig} {share : List SizeClass → ℕ → UInt64}
  {t : SizeClassedTable} {resolver : RowExtentResolver}

/-- An entry of one list and of another that go together. -/
theorem forall₂_getElem? {α β : Type} {R : α → β → Prop} {xs : List α} {ys : List β}
    (h : List.Forall₂ R xs ys) {i : ℕ} {x : α} {y : β} (hx : xs[i]? = some x)
    (hy : ys[i]? = some y) : R x y := by
  obtain ⟨hi, rfl⟩ := List.getElem?_eq_some_iff.mp hx
  obtain ⟨hj, rfl⟩ := List.getElem?_eq_some_iff.mp hy
  exact h.get hi hj

/-- The classes are those of the widths and the groups, with their budgets. -/
theorem class_budgeted {widths : List UInt64} {globalOf : List (List UInt64)}
    {classes : List SizeClass}
    (h : List.Forall₂ (SizeClass.Budgeted cfg) (cfg.sizeClasses widths globalOf) classes) {c : ℕ}
    {cls : SizeClass} (hc : classes[c]? = some cls) :
    ∃ width group, widths[c]? = some width ∧ globalOf[c]? = some group ∧
      SizeClass.Budgeted cfg ⟨width, cfg.slotBytes width, UInt64.ofNat group.length, 0⟩ cls := by
  have hlt : c < (cfg.sizeClasses widths globalOf).length := by
    rw [h.length_eq]
    exact (List.getElem?_eq_some_iff.mp hc).1
  have hbudgeted := forall₂_getElem? h (List.getElem?_eq_getElem hlt) hc
  have hplain := List.getElem?_eq_getElem hlt
  generalize (cfg.sizeClasses widths globalOf)[c] = plain at hplain hbudgeted
  rw [SizeClassedTableConfig.sizeClasses, List.getElem?_zipWith_eq_some] at hplain
  obtain ⟨width, group, hwidth, hgroup, rfl⟩ := hplain
  exact ⟨width, group, hwidth, hgroup, hbudgeted⟩

theorem partitions_of_create (h : cfg.create share = .ok t) :
    t.config = cfg ∧ ∃ resolver, cfg.resolveExtent = some resolver ∧ t.Partitions resolver := by
  obtain ⟨resolver, met, metOf, plain, used, hresolver, hrows, hdiscover, hplain, hsplit, hused,
    htables, rfl, hnumbers⟩ := SizeClassedTableConfig.create_eq_ok h
  refine ⟨rfl, resolver, hresolver, ?_⟩
  obtain ⟨hmet, hcount⟩ := SizeClassedTableConfig.discover_met met_nil (Nat.zero_le _)
    hdiscover
  rw [List.nil_append] at hmet
  obtain ⟨hrenumbered, hlength⟩ := renumber_renumbered hmet
  rw [hnumbers] at hrenumbered
  obtain ⟨hbudgeted, -⟩ := SizeClassedTableConfig.split_budgeted hsplit
  rw [← hplain] at hbudgeted
  have hregistered := SizeClassedTableConfig.createTables_registered htables
  generalize (renumber t.config.rowList met metOf).1 = widths at *
  obtain ⟨hgrouped, hgroups, hincreasing, hclassed⟩ := hrenumbered
  dsimp only at hgrouped hgroups hclassed
  have hclasses : t.classes.length = widths.length := by
    rw [← hbudgeted.length_eq, SizeClassedTableConfig.sizeClasses, List.length_zipWith, hgroups,
      Nat.min_self]
  have hwidths : t.classes.map SizeClass.width = widths := by
    apply List.ext_getElem?
    intro c
    rw [List.getElem?_map]
    cases hc : t.classes[c]? with
    | none =>
        rw [Option.map_none, List.getElem?_eq_none]
        rw [← hclasses]
        exact List.getElem?_eq_none_iff.mp hc
    | some cls =>
        obtain ⟨width, group, hwidth, -, hcls⟩ := class_budgeted hbudgeted hc
        rw [Option.map_some, hcls.width, hwidth]
  have hfew : ∀ (c : ℕ) group, t.globalOf[c]? = some group →
      group.length ≤ t.config.rowCount.toNat := by
    intro c group hgroup
    have hle := hgrouped.length_le SizeClassedTableConfig.rowList_nodup hgroup
    rwa [SizeClassedTableConfig.length_rowList] at hle
  have hrows : t.config.rowCount.toNat < 2 ^ 32 - 1 := UInt64.lt_iff_toNat_lt.mp hrows
  have hitem : ∀ row < t.config.rowCount, t.config.rowList[row.toNat]? = some row :=
    fun row hrow => SizeClassedTableConfig.getElem?_rowList.mpr ⟨hrow, rfl⟩
  have hplaced : ∀ i < t.config.rowCount.toNat, ∃ (c l : ℕ) (group : List UInt64) (row : UInt64),
      t.classOf[i]? = some c ∧ t.localOf[i]? = some l ∧ t.globalOf[c]? = some group ∧
        group[l]? = some row := by
    intro i hi
    have hlt : i < t.config.rowList.length := by
      rwa [SizeClassedTableConfig.length_rowList]
    obtain ⟨c, l, group, hc, hl, hgroup, hplace⟩ :=
      hgrouped.placed i _ (List.getElem?_eq_getElem hlt)
    exact ⟨c, l, group, _, hc, hl, hgroup, hplace⟩
  exact {
    increasing := hwidths ▸ hincreasing
    count := by omega
    groups := by rw [hgroups, hclasses]
    tables := by
      rw [← hregistered.length_eq, List.length_zip, hgroups, hclasses, Nat.min_self]
    classed := fun row hrow => by
      obtain ⟨c, l, group, hc, -, hgroup, -⟩ := hgrouped.placed _ _ (hitem row hrow)
      obtain ⟨width, hwidth, hkey⟩ := hclassed _ c row (hitem row hrow) hc
      obtain ⟨location, hlocation, hlength⟩ := widthOf_eq_some.mp hkey
      rw [← hwidths, List.getElem?_map, Option.map_eq_some_iff] at hwidth
      obtain ⟨cls, hcls, rfl⟩ := hwidth
      exact ⟨c, cls, location, hc, hcls, hlocation, hlength⟩
    placed := fun row hrow => hgrouped.placed _ _ (hitem row hrow)
    found := fun c l group row hgroup hrow => by
      obtain ⟨i, hi, hc, hl⟩ := hgrouped.found c l group row hgroup hrow
      obtain ⟨hlt, rfl⟩ := SizeClassedTableConfig.getElem?_rowList.mp hi
      exact ⟨hlt, hc, hl⟩
    ordered := fun group hgroup =>
      SizeClassedTableConfig.rowList_increasing.sublist (hgrouped.ordered group hgroup)
    small := by
      constructor
      · intro c hmem
        obtain ⟨i, hi⟩ := List.mem_iff_getElem?.mp hmem
        have hlt := (List.getElem?_eq_some_iff.mp hi).1
        rw [hgrouped.classes, SizeClassedTableConfig.length_rowList] at hlt
        obtain ⟨c', l, group, row, hc, -, hgroup, -⟩ := hplaced i hlt
        rw [hi] at hc
        cases hc
        have hbound := (List.getElem?_eq_some_iff.mp hgroup).1
        have hmany := t.config.maxClasses.toNat_lt
        omega
      · intro l hmem
        obtain ⟨i, hi⟩ := List.mem_iff_getElem?.mp hmem
        have hlt := (List.getElem?_eq_some_iff.mp hi).1
        rw [hgrouped.locals, SizeClassedTableConfig.length_rowList] at hlt
        obtain ⟨c, l', group, row, -, hl, hgroup, hrow⟩ := hplaced i hlt
        rw [hi] at hl
        cases hl
        have hbound := (List.getElem?_eq_some_iff.mp hrow).1
        have hsmall := hfew c group hgroup
        omega
    sized := fun c cls group hc hgroup => by
      obtain ⟨width, group', -, hgroup', hcls⟩ := class_budgeted hbudgeted hc
      rw [hgroup] at hgroup'
      cases hgroup'
      have hsmall := hfew c group hgroup
      rw [hcls.rows, UInt64.toNat_ofNat', Nat.mod_eq_of_lt (by omega)]
    budgets := fun cls hmem => by
      obtain ⟨c, hc⟩ := List.mem_iff_getElem?.mp hmem
      obtain ⟨width, group, -, -, hcls⟩ := class_budgeted hbudgeted hc
      rw [hcls.rows]
      exact ⟨hcls.least, hcls.most⟩
    registered := fun c cls group table hc hgroup htable => by
      have hpair : (t.classes.zip t.globalOf)[c]? = some (cls, group) :=
        List.getElem?_zip_eq_some.mpr ⟨hc, hgroup⟩
      obtain ⟨hconfig, hsize, haccepted⟩ := forall₂_getElem? hregistered hpair htable
      obtain ⟨width, group', -, -, hcls⟩ := class_budgeted hbudgeted hc
      exact ⟨hconfig, by rw [hsize, hcls.bytes], haccepted⟩ }

/-- What goes with a row that is routed. -/
theorem Partitions.row (hparts : t.Partitions resolver) {row : UInt64}
    (hrow : row < t.config.rowCount) :
    ∃ (c l : ℕ) (cls : SizeClass) (group : List UInt64) (table : ClassTable),
      t.classOf[row.toNat]? = some c ∧ t.localOf[row.toNat]? = some l ∧
        t.classes[c]? = some cls ∧ t.globalOf[c]? = some group ∧ t.tables[c]? = some table ∧
        group[l]? = some row ∧ l < 2 ^ 32 := by
  obtain ⟨c, l, group, hc, hl, hgroup, hplace⟩ := hparts.placed row hrow
  have hclass : c < t.classes.length := by
    rw [← hparts.groups]
    exact (List.getElem?_eq_some_iff.mp hgroup).1
  have htable : c < t.tables.length := by rwa [hparts.tables]
  exact ⟨c, l, _, group, _, hc, hl, List.getElem?_eq_getElem hclass, hgroup,
    List.getElem?_eq_getElem htable, hplace, hparts.small.2 l (List.mem_of_getElem? hl)⟩

/-- A row is routed to a table that resolves it as the caller does. -/
theorem Partitions.routes (hparts : t.Partitions resolver) : t.Routes resolver := by
  intro row hrow
  obtain ⟨c, l, cls, group, table, hc, hl, hclass, hgroup, htable, hplace, hsmall⟩ :=
    hparts.row hrow
  obtain ⟨hconfig, -, -⟩ := hparts.registered c cls group table hclass hgroup htable
  have hsize := hparts.sized c cls group hclass hgroup
  have hlt := (List.getElem?_eq_some_iff.mp hplace).1
  have hlocal : (UInt64.ofNat l).toNat = l := by
    rw [UInt64.toNat_ofNat', Nat.mod_eq_of_lt (by omega)]
  refine ⟨c, l, table, classResolver resolver group, hc, hl, htable, ?_, by rw [hconfig]; rfl, ?_⟩
  · have hcount : table.config.rowCount = cls.rows := by
      rw [hconfig]
      rfl
    rw [hcount, UInt64.lt_iff_toNat_lt, hlocal, hsize]
    exact hlt
  · dsimp only [classResolver]
    rw [hlocal, List.getD_eq_getElem?_getD, hplace, Option.getD_some]

/-- An accepted table with an alignment has its storage on it. -/
theorem storage_aligned {config : TableConfig} (h : config.Accepted)
    (halign : config.fillAlignment ≠ 0) :
    config.outputStorage.data % config.fillAlignment = 0 := by
  obtain ⟨-, h⟩ := TableConfig.passed_of_ite h nofun
  obtain ⟨-, h⟩ := TableConfig.passed_of_ite h nofun
  obtain ⟨-, h⟩ := TableConfig.passed_of_ite h nofun
  obtain ⟨-, h⟩ := TableConfig.passed_of_ite h id
  obtain ⟨-, h⟩ := TableConfig.passed_of_ite h nofun
  obtain ⟨-, h⟩ := TableConfig.passed_of_ite h nofun
  obtain ⟨-, h⟩ := TableConfig.passed_of_ite h nofun
  obtain ⟨-, h⟩ := TableConfig.passed_of_ite h nofun
  obtain ⟨hpow, -⟩ := TableConfig.passed_of_ite h nofun
  push Not at hpow
  exact (hpow halign).2.1

theorem Partitions.aligned (hparts : t.Partitions resolver) : t.Aligned := by
  intro halign table hmem
  obtain ⟨c, htable⟩ := List.mem_iff_getElem?.mp hmem
  have hlt := (List.getElem?_eq_some_iff.mp htable).1
  have hclass : c < t.classes.length := by rwa [← hparts.tables]
  have hgroup : c < t.globalOf.length := by rwa [hparts.groups]
  obtain ⟨hconfig, -, haccepted⟩ := hparts.registered c _ _ table
    (List.getElem?_eq_getElem hclass) (List.getElem?_eq_getElem hgroup) htable
  have haligned := storage_aligned haccepted (by rw [hconfig]; exact halign)
  rw [hconfig] at haligned
  exact haligned

end SizeClassedTable

end TieredCache
