/-
# What the leases of several classes show

A lease that a table of a few row sizes hands out shows the bytes of the row that was asked for:
its class's table resolves the row's number in the class as the caller's resolver resolves the row.
The lease is one of the class's table, and the row it names is that number.
-/

import TieredCache.Table.ClassedLeases
import TieredCache.Table.Contents
import TieredCache.Table.Shares

namespace TieredCache

open Math Math.Families Math.Memory Math.Numbering Math.Runs

/-! ## Tables that keep their generation -/

namespace World

variable {cfg : TableConfig} {w w' : World cfg} {contents : Contents} {order : ByteOrder}
  {m m' : Buffers}

/-- Without a change of generation every binding is the one the table was registered with. -/
theorem origin_of_reaches {h : cfg.Accepted} {allowed : World cfg → Action cfg → Prop}
    (hkeeps : ∀ w action, allowed w action → ¬ action.Invalidates)
    (hw : Reaches World.step allowed (World.start cfg h) w) (b : BindingId) :
    w.table.origin b = (cfg.sources, cfg.resolveExtent.get h.checked.resolver) := by
  induction hw with
  | start => rfl
  | step hs hallowed hstep ih =>
      have hsame := step_bindings (fillInv_of_reachable hs.reachable) hstep fun hinstalls => by
        rename_i action
        cases action with
        | invalidate creation generation sources resolver => exact hkeeps _ _ hallowed trivial
        | _ => exact hinstalls
      rw [hsame.origin]
      exact ih

/-- A lease that `try_get` hands out is on the row that was asked for. -/
theorem tryGet_row {row : UInt64} {v : LeaseVar} (hstep : w.step (.tryGet row v) = some w')
    {l : Lease cfg} (hbefore : w.leases v = none) (hl : w'.leases v = some l) :
    l.rowIndex = row := by
  unfold World.step at hstep
  split_ifs at hstep
  have hstep : w.tryGet row v = some w' := hstep
  unfold World.tryGet at hstep
  split_ifs at hstep
  · cases hstep
    rw [hbefore] at hl
    cases hl
  · split at hstep <;> cases hstep
    · have hl : w.leases v = some l := hl
      rw [hbefore] at hl
      cases hl
    · have hl : Function.update w.leases v _ v = some l := hl
      rw [Function.update_self] at hl
      cases hl
      rfl

end World

/-! ## What the classes' tables are registered with -/

namespace SizeClassedTable

variable {t : SizeClassedTable} {resolver : RowExtentResolver}

/-- A class's table is registered for its rows, with the caller's sources. -/
theorem Partitions.classConfig (hparts : t.Partitions resolver) (c : t.ClassId) :
    ∃ cls group slice, t.globalOf[c.val]? = some group ∧
      t.classConfig c = t.config.tableConfig resolver group cls slice ∧
      (t.classConfig c).Accepted := by
  have hclass : c.val < t.classes.length := by
    rw [← hparts.tables]
    exact c.isLt
  have hgroup : c.val < t.globalOf.length := by rwa [hparts.groups]
  obtain ⟨hconfig, -, haccepted⟩ := hparts.registered c.val _ _ (t.tables.get c)
    (List.getElem?_eq_getElem hclass) (List.getElem?_eq_getElem hgroup)
    (List.getElem?_eq_getElem c.isLt)
  exact ⟨_, _, _, List.getElem?_eq_getElem hgroup, hconfig, haccepted⟩

theorem Partitions.accepted (hparts : t.Partitions resolver) (c : t.ClassId) :
    (t.classConfig c).Accepted := by
  obtain ⟨cls, group, slice, -, -, haccepted⟩ := hparts.classConfig c
  exact haccepted

theorem Partitions.converting (hparts : t.Partitions resolver) (c : t.ClassId) :
    (t.classConfig c).converting = false := by
  obtain ⟨cls, group, slice, -, hconfig, -⟩ := hparts.classConfig c
  rw [hconfig]
  rfl

theorem Partitions.sources (hparts : t.Partitions resolver) (c : t.ClassId) :
    (t.classConfig c).sources = t.config.sources := by
  obtain ⟨cls, group, slice, -, hconfig, -⟩ := hparts.classConfig c
  rw [hconfig]
  rfl

theorem routeOf_eq_some {row : UInt64} {c : t.ClassId} (h : t.routeOf row = some c) :
    t.classOf[row.toNat]? = some c.val := by
  unfold routeOf at h
  split at h
  · cases h
  · rename_i c' hc'
    split_ifs at h with hlt
    cases h
    exact hc'

/-- Every addressable row is routed. -/
theorem Partitions.routed (hparts : t.Partitions resolver) {row : UInt64}
    (hrow : row < t.config.rowCount) : ∃ c, t.routeOf row = some c := by
  obtain ⟨c, l, cls, group, table, hc, -, -, -, htable, -⟩ := hparts.row hrow
  have hlt := (List.getElem?_eq_some_iff.mp htable).1
  refine ⟨⟨c, hlt⟩, ?_⟩
  unfold routeOf
  rw [hc]
  exact dif_pos hlt

/-- The table of a row's class resolves the row's number there as the caller's resolver resolves
the row. -/
theorem Partitions.resolves (hparts : t.Partitions resolver) {row : UInt64} {c : t.ClassId}
    (hrow : row < t.config.rowCount) (hroute : t.routeOf row = some c)
    (hsome : (t.classConfig c).resolveExtent.isSome) :
    ((t.classConfig c).resolveExtent.get hsome).resolve (t.localRow row) =
      resolver.resolve row := by
  obtain ⟨c', l, table, routed, hc, hl, htable, -, hextent, hresolve⟩ := hparts.routes row hrow
  rw [routeOf_eq_some hroute] at hc
  cases hc
  obtain ⟨hlt, hget⟩ := List.getElem?_eq_some_iff.mp htable
  have hconfig : t.classConfig c = table.config := congrArg ClassTable.config hget
  have hrouted : (t.classConfig c).resolveExtent.get hsome = routed :=
    Option.get_of_eq_some hsome (by rw [hconfig, hextent])
  rw [hrouted, localRow, List.getD_eq_getElem?_getD, hl, Option.getD_some, hresolve]

/-- Rows are in one class if and only if they have one length. -/
theorem Partitions.classOf_eq_iff (hparts : t.Partitions resolver) {row row' : UInt64}
    (hrow : row < t.config.rowCount) (hrow' : row' < t.config.rowCount) :
    t.classOf[row.toNat]? = t.classOf[row'.toNat]? ↔
      widthOf resolver row = widthOf resolver row' := by
  obtain ⟨c, cls, location, hc, hcls, hlocation, hlength⟩ := hparts.classed row hrow
  obtain ⟨c', cls', location', hc', hcls', hlocation', hlength'⟩ := hparts.classed row' hrow'
  have hwidth : widthOf resolver row = some cls.width :=
    widthOf_eq_some.mpr ⟨location, hlocation, hlength⟩
  have hwidth' : widthOf resolver row' = some cls'.width :=
    widthOf_eq_some.mpr ⟨location', hlocation', hlength'⟩
  rw [hc, hc', hwidth, hwidth', Option.some.injEq, Option.some.injEq]
  constructor
  · rintro rfl
    rw [hcls] at hcls'
    cases hcls'
    rfl
  · intro heq
    have hat : (t.classes.map SizeClass.width)[c]? = some cls.width := by
      rw [List.getElem?_map, hcls, Option.map_some]
    have hat' : (t.classes.map SizeClass.width)[c']? = some cls.width := by
      rw [List.getElem?_map, hcls', Option.map_some, heq]
    have hnodup : (t.classes.map SizeClass.width).Nodup :=
      hparts.increasing.imp UInt64.ne_of_lt
    exact (List.getElem?_inj (List.getElem?_eq_some_iff.mp hat).1 hnodup).mp
      (hat.trans hat'.symm)

/-- A row is in a group if and only if it is in the group's class. -/
theorem Partitions.mem_group_iff (hparts : t.Partitions resolver) {row : UInt64} {c : ℕ}
    {group : List UInt64} (hrow : row < t.config.rowCount) (hgroup : t.globalOf[c]? = some group) :
    row ∈ group ↔ t.classOf[row.toNat]? = some c := by
  constructor
  · intro hmem
    obtain ⟨l, hl⟩ := List.mem_iff_getElem?.mp hmem
    exact (hparts.found c l group row hgroup hl).2.1
  · intro hc
    obtain ⟨c', l, group', hc', -, hgroup', hl⟩ := hparts.placed row hrow
    rw [hc] at hc'
    cases hc'
    rw [hgroup] at hgroup'
    cases hgroup'
    exact List.mem_of_getElem? hl

/-- A row has its own number in its class if and only if all rows before it have its length. -/
theorem Partitions.localRow_eq_iff (hparts : t.Partitions resolver) {row : UInt64}
    (hrow : row < t.config.rowCount) :
    t.localRow row = row ↔
      ∀ lower < row, widthOf resolver lower = widthOf resolver row := by
  obtain ⟨c, l, cls, group, table, hc, hl, -, hgroup, -, hplace, hsmall⟩ := hparts.row hrow
  have hincreasing : (group.map UInt64.toNat).Pairwise (· < ·) := by
    rw [List.pairwise_map]
    exact (hparts.ordered group (List.mem_of_getElem? hgroup)).imp UInt64.lt_iff_toNat_lt.mp
  have hat : (group.map UInt64.toNat)[l]? = some row.toNat := by
    rw [List.getElem?_map, hplace, Option.map_some]
  have hnumber : t.localRow row = row ↔ l = row.toNat := by
    rw [localRow, List.getD_eq_getElem?_getD, hl, Option.getD_some, ← UInt64.toNat_inj,
      UInt64.toNat_ofNat', Nat.mod_eq_of_lt (by omega)]
  rw [hnumber, place_eq_iff hincreasing hat]
  constructor
  · intro hall lower hlower
    have hlt := UInt64.lt_trans hlower hrow
    obtain ⟨met, hmem, heq⟩ :=
      List.mem_map.mp (hall lower.toNat (UInt64.lt_iff_toNat_lt.mp hlower))
    cases UInt64.toNat_inj.mp heq
    rw [← hparts.classOf_eq_iff hlt hrow, hc, (hparts.mem_group_iff hlt hgroup).mp hmem]
  · intro hall m hm
    have hlower : UInt64.ofNat m < row := by
      rw [UInt64.lt_iff_toNat_lt, UInt64.toNat_ofNat', Nat.mod_eq_of_lt (hm.trans row.toNat_lt)]
      exact hm
    have hlt := UInt64.lt_trans hlower hrow
    rw [List.mem_map]
    refine ⟨UInt64.ofNat m, (hparts.mem_group_iff hlt hgroup).mpr ?_, ?_⟩
    · rw [(hparts.classOf_eq_iff hlt hrow).mpr (hall _ hlower), hc]
    · rw [UInt64.toNat_ofNat', Nat.mod_eq_of_lt (hm.trans row.toNat_lt)]

end SizeClassedTable

/-! ## The machine with its storage -/

namespace ClassedWorld

variable {t : SizeClassedTable} {w w' : ClassedWorld t} {contents : Contents} {order : ByteOrder}
  {m m' : t.ClassId → Buffers} {action : ClassedAction t}

/-- The storage of every class's table during one step; the slices share no byte. -/
def Fills (contents : Contents) (order : ByteOrder) (w : ClassedWorld t)
    (action : ClassedAction t) (w' : ClassedWorld t) (m m' : t.ClassId → Buffers) : Prop :=
  ∀ plan ∈ w.act action, ∀ c, (plan.1 c = none → m' c = m c) ∧
    ∀ a ∈ plan.1 c, (w.tables c).Fills contents order a (w'.tables c) (m c) (m' c)

/-- The states the machine and its storage reach by steps that are all allowed. -/
inductive Loaded (contents : Contents) (order : ByteOrder)
    (allowed : ClassedWorld t → ClassedAction t → Prop) (h : ∀ c, (t.classConfig c).Accepted) :
    ClassedWorld t → (t.ClassId → Buffers) → Prop
  | start (m : t.ClassId → Buffers) : Loaded contents order allowed h (.start t h) m
  | writes {w : ClassedWorld t} {m m' : t.ClassId → Buffers}
      (hw : Loaded contents order allowed h w m)
      (htransfers : ∀ c, Table.Transfers contents (w.tables c).table (w.tables c).table (m c)
        (m' c)) : Loaded contents order allowed h w m'
  | step {w w' : ClassedWorld t} {action : ClassedAction t} {m m' : t.ClassId → Buffers}
      (hw : Loaded contents order allowed h w m) (hallowed : allowed w action)
      (hstep : w.step action = some w') (hfills : w.Fills contents order action w' m m') :
      Loaded contents order allowed h w' m'

/-- The machine runs as it does without its storage. -/
theorem Loaded.reaches {allowed : ClassedWorld t → ClassedAction t → Prop}
    {h : ∀ c, (t.classConfig c).Accepted} (hw : Loaded contents order allowed h w m) :
    Reaches ClassedWorld.step allowed (ClassedWorld.start t h) w := by
  induction hw with
  | start m => exact .start
  | writes _ _ ih => exact ih
  | step _ hallowed hstep _ ih => exact ih.step hallowed hstep

/-- Every class's table takes an orderly step and keeps its generation. -/
abbrev Orderly : ClassedWorld t → ClassedAction t → Prop := EachMove fun _ => World.Orderly

/-- Each class's table and its storage run as on their own. -/
theorem Loaded.table {h : ∀ c, (t.classConfig c).Accepted}
    (hw : Loaded contents order Orderly h w m) (c : t.ClassId) :
    World.Loaded contents order (fun w a => w.Orderly a ∧ ¬ a.Invalidates) (h c) (w.tables c)
      (m c) := by
  induction hw with
  | start m => exact .start _
  | writes _ htransfers ih => exact ih.writes (htransfers c)
  | step hw hallowed hstep hfills ih =>
      rename_i w w' action m m'
      obtain ⟨moves, hact, hturn⟩ := act_of_step hstep
      have hcalls := callsInv_of_reachable hw.reaches.reachable
      have hkeeps := (kind_of_act hact).moves_keep hcalls c
      obtain ⟨hnone, hsome⟩ := hfills _ hact c
      have hpart := hturn c
      cases hmove : moves c with
      | none =>
          rw [hmove] at hpart
          rw [← Option.some.inj hpart, hnone hmove]
          exact ih
      | some a =>
          rw [hmove] at hpart
          exact ih.step ⟨hallowed _ hact c a hmove, hkeeps a hmove⟩ hpart (hsome a hmove)

/-- Every run has a storage that goes with it, where no class converts its rows. -/
theorem exists_loaded {allowed : ClassedWorld t → ClassedAction t → Prop}
    {h : ∀ c, (t.classConfig c).Accepted} (contents : Contents) (order : ByteOrder)
    (hid : ∀ c, (t.classConfig c).converting = false)
    (hw : Reaches ClassedWorld.step allowed (ClassedWorld.start t h) w) :
    ∃ m, Loaded contents order allowed h w m := by
  induction hw with
  | start => exact ⟨fun _ _ _ => 0, .start _⟩
  | step hrun hallowed hstep ih =>
      rename_i w w' action
      obtain ⟨m, hm⟩ := ih
      obtain ⟨moves, hact, hturn⟩ := act_of_step hstep
      have hclass : ∀ c, ∃ n : Buffers, (moves c = none → n = m c) ∧
          ∀ a ∈ moves c, (w.tables c).Fills contents order a (w'.tables c) (m c) n := by
        intro c
        cases hmove : moves c with
        | none => exact ⟨m c, fun _ => rfl, fun a ha => by cases ha⟩
        | some a =>
            have hpart := hturn c
            rw [hmove] at hpart
            obtain ⟨n, hn⟩ := World.exists_fills contents order (hid c)
              (reachable_table hrun.reachable c) hpart (m c)
            refine ⟨n, fun hnone => (by cases hnone), fun b hb => ?_⟩
            cases hb
            exact hn
      choose n hn using hclass
      refine ⟨n, hm.step hallowed hstep fun plan hplan c => ?_⟩
      rw [hact] at hplan
      cases hplan
      exact hn c

/-! ## Leases and their rows -/

/-- The variable holds a lease on the row, of the row's class and of no other, and the lease shows
the bytes the caller's resolver finds the row at. -/
def LeaseShows (w : ClassedWorld t) (resolver : RowExtentResolver) (contents : Contents)
    (m : t.ClassId → Buffers) (v : LeaseVar) (row : UInt64) : Prop :=
  ∃ c l location source, t.routeOf row = some c ∧ (w.tables c).leases v = some l ∧
    (∀ d, d ≠ c → (w.tables d).leases v = none) ∧ resolver.resolve row = .ok location ∧
    t.config.sources[location.shard.toNat]? = some source ∧
    l.bytes.of (m c .output) = location.range.of (contents source.source)

/-- The lease in the variable names the row. -/
def LeaseReports (w : ClassedWorld t) (v : LeaseVar) (row : UInt64) : Prop :=
  ∃ c l, (w.tables c).leases v = some l ∧ l.rowIndex = row

/-- What holds of a class's table in every orderly run. -/
theorem Loaded.bytes {h : ∀ c, (t.classConfig c).Accepted}
    (hsizes : ∀ c, (t.classConfig c).SizesBelow) (hw : Loaded contents order Orderly h w m)
    (c : t.ClassId) :
    Table.BytesInv contents order (w.tables c).table (m c) (w.tables c).Done :=
  World.bytesInv_of_loaded (hsizes c) ((hw.table c).mono fun _ _ hallowed => hallowed.1)

theorem Loaded.room {h : ∀ c, (t.classConfig c).Accepted}
    (hw : Loaded contents order Orderly h w m) :
    Reaches ClassedWorld.step LeaseRoom (ClassedWorld.start t h) w :=
  hw.reaches.mono fun _ _ hallowed plan hplan c a ha => (hallowed plan hplan c a ha).2.2

/-- The variable holds a lease on the row's number in its class, of that class alone. -/
structure Numbered (w : ClassedWorld t) (v : LeaseVar) (row : UInt64) (c : t.ClassId)
    (l : Lease (t.classConfig c)) : Prop where
  lt : row < t.config.rowCount
  routed : t.routeOf row = some c
  held : (w.tables c).leases v = some l
  alone : ∀ d, d ≠ c → (w.tables d).leases v = none
  number : l.rowIndex = t.localRow row

theorem LeasesInv.numbered (h : w.LeasesInv) {row : UInt64} (hrow : row < t.config.rowCount)
    {c : t.ClassId} (hroute : t.routeOf row = some c) {v : LeaseVar}
    {l : Lease (t.classConfig c)} (hl : (w.tables c).leases v = some l)
    (hnumber : l.rowIndex = t.localRow row) : w.Numbered v row c l where
  lt := hrow
  routed := hroute
  held := hl
  alone := fun d hd => by
    by_contra hne
    exact hd (h.single v d c hne (by rw [hl]; exact Option.some_ne_none l))
  number := hnumber

/-- The lease names the row if and only if the row has its own number in its class. -/
theorem Numbered.reports_iff {row : UInt64} {c : t.ClassId} {v : LeaseVar}
    {l : Lease (t.classConfig c)} (h : w.Numbered v row c l) :
    w.LeaseReports v row ↔ t.localRow row = row := by
  constructor
  · rintro ⟨d, l', hl', hreports⟩
    have hd : d = c := by
      by_contra hne
      rw [h.alone d hne] at hl'
      cases hl'
    subst hd
    rw [h.held] at hl'
    cases hl'
    rw [← h.number, hreports]
  · intro hsame
    exact ⟨c, l, h.held, h.number.trans hsame⟩

/-- A settled lease on a row's number in its class shows the row. -/
theorem Numbered.shows {h : ∀ c, (t.classConfig c).Accepted} {resolver : RowExtentResolver}
    (hparts : t.Partitions resolver) (hsizes : ∀ c, (t.classConfig c).SizesBelow)
    (hw : Loaded contents order Orderly h w m) {row : UInt64} {c : t.ClassId} {v : LeaseVar}
    {l : Lease (t.classConfig c)} (hl : w.Numbered v row c l)
    (hsettled : ¬ (w.tables c).Unsettled v) : w.LeaseShows resolver contents m v row := by
  obtain ⟨location, source, hlocate, hencodes⟩ := World.shows_of_settled (hw.bytes hsizes c)
    (tables_callsInv hw.room c) hl.held hsettled
  have horigin := World.origin_of_reaches (fun _ _ hallowed => hallowed.2) (hw.table c).reaches
    l.through
  rw [horigin] at hlocate
  obtain ⟨hresolve, hsource, -⟩ := TableConfig.locate_eq_ok _ hlocate
  rw [hl.number, hparts.resolves hl.lt hl.routed] at hresolve
  rw [hparts.sources] at hsource
  have hrepr : (t.classConfig c).representation = .identity := by
    obtain ⟨cls, group, slice, -, hconfig, -⟩ := hparts.classConfig c
    rw [hconfig]
    rfl
  unfold TableConfig.Encodes TableConfig.activeCodec at hencodes
  rw [hrepr] at hencodes
  exact ⟨c, l, location, source, hl.routed, hl.held, hl.alone, hresolve, hsource, hencodes⟩

/-- An entry of a call that is inside no class table's call is settled. -/
theorem CallsInv.settled (h : w.CallsInv) {thread : ThreadId} {call : ClassedCall}
    {pc : ClassedResolvePc t} (hpc : w.threads thread = .resolving call pc)
    (hout : ∀ i c, pc ≠ .inside i c) {v : LeaseVar} (hv : call.InSpan v) (c : t.ClassId) :
    ¬ (w.tables c).Unsettled v := by
  rintro ⟨k, inner, p, hinner, hin, -⟩
  obtain ⟨call', i, hcall, hserves⟩ := h.serving c k inner p hinner
  have hv' : call'.InSpan v := by
    rw [hserves.inSpan_iff.mp hin]
    exact ClassedCall.inSpan_add hserves.lt
  have hk := h.apart k thread call' call _ pc hcall hpc v hv' hv
  rw [hk, hpc] at hcall
  cases hcall
  exact hout i c rfl

/-- A variable that no call uses is settled. -/
theorem CallsInv.settled_of_free (h : w.CallsInv) {v : LeaseVar} (hv : w.inUse v = false)
    (c : t.ClassId) : ¬ (w.tables c).Unsettled v := by
  rintro ⟨k, inner, p, hinner, hin, -⟩
  obtain ⟨call, i, hcall, hserves⟩ := h.serving c k inner p hinner
  have huse := h.inUse k call _ hcall v (by
    rw [hserves.inSpan_iff.mp hin]
    exact ClassedCall.inSpan_add hserves.lt)
  rw [hv] at huse
  cases huse

/-- What a step of `try_get` puts into its variable. -/
theorem tryGet_lease {row : UInt64} {v : LeaseVar} (hstep : w.step (.tryGet row v) = some w')
    {c : t.ClassId} {l : Lease (t.classConfig c)} (hl : (w'.tables c).leases v = some l) :
    w'.inUse v = false ∧ row < t.config.rowCount ∧ t.routeOf row = some c ∧
      l.rowIndex = t.localRow row := by
  obtain ⟨moves, hact, hturn⟩ := act_of_step hstep
  have hact : w.tryGet row v = some (moves, w'.toClassedClients) := hact
  unfold ClassedWorld.tryGet at hact
  split_ifs at hact with hbusy hout
  · rw [not_or, not_exists] at hbusy
    obtain ⟨hmoves, -⟩ := Prod.mk.inj (Option.some.inj hact)
    rw [same_of_none hturn (by rw [← hmoves]; rfl)] at hl
    exact absurd (by rw [hl]; rfl) (hbusy.2 c)
  · rw [not_or, not_exists] at hbusy
    obtain ⟨d, hroute, heq⟩ := Option.map_eq_some_iff.mp hact
    obtain ⟨hmoves, hclients⟩ := Prod.mk.inj heq
    have hbefore : ∀ c, (w.tables c).leases v = none := fun c =>
      Option.not_isSome_iff_eq_none.mp (hbusy.2 c)
    have hcd : c = d := by
      by_contra hne
      rw [same_of_none hturn (by rw [← hmoves]; exact only_of_ne hne _), hbefore c] at hl
      cases hl
    subst hcd
    have hpart := hturn c
    rw [← hmoves, only_self] at hpart
    refine ⟨?_, UInt64.not_le.mp hout, hroute, World.tryGet_row hpart (hbefore c) hl⟩
    rw [show w'.inUse = w.inUse from (congrArg ClassedClients.inUse hclients).symm]
    exact Bool.not_eq_true _ ▸ hbusy.1

/-- `resolve_into` returned the lease in the variable for the row, or `try_get` just did. -/
inductive HandedOut (w : ClassedWorld t) : LeaseVar → UInt64 → Prop
  | resolved {thread : ThreadId} {call : ClassedCall} {n j : ℕ} {row : UInt64}
      (hpc : w.threads thread = .resolving call (.returned (.ok n)))
      (hrow : call.rows[j]? = some row) : HandedOut w (call.out + j) row
  | got {w₀ : ClassedWorld t} {row : UInt64} {v : LeaseVar}
      (hstep : w₀.step (.tryGet row v) = some w) (hsome : ∃ c, ((w.tables c).leases v).isSome) :
      HandedOut w v row

/-- What is handed out for a row is a settled lease on the row's number in its class. -/
theorem HandedOut.numbered {v : LeaseVar} {row : UInt64} (h : w.HandedOut v row)
    (hcalls : w.CallsInv) (hleases : w.LeasesInv) :
    ∃ c l, w.Numbered v row c l ∧ ¬ (w.tables c).Unsettled v := by
  cases h with
  | @resolved thread call n j row hpc hrow =>
      obtain ⟨hn, hhas⟩ := hleases.calls thread call _ hpc
      have hj := (List.getElem?_eq_some_iff.mp hrow).1
      obtain ⟨row', c, l, hrow', hlt, hroute, hl, hnumber⟩ := hhas j (hn ▸ hj)
      rw [hrow] at hrow'
      cases hrow'
      exact ⟨c, l, hleases.numbered hlt hroute hl hnumber,
        hcalls.settled hpc (fun i c hin => by cases hin) (ClassedCall.inSpan_add hj) c⟩
  | @got w₀ row v hstep hsome =>
      obtain ⟨c, hc⟩ := hsome
      obtain ⟨l, hl⟩ := Option.isSome_iff_exists.mp hc
      obtain ⟨hfree, hlt, hroute, hnumber⟩ := tryGet_lease hstep hl
      exact ⟨c, l, hleases.numbered hlt hroute hl hnumber, hcalls.settled_of_free hfree c⟩

end ClassedWorld

/-- In every run with room for its leases, a lease that `resolve_into` or `try_get` hands out for a
row names the row if and only if the row has its own number in its class, which is when all rows
before it have its length.  If the sizes are below `2 ^ 63` and the steps are orderly it shows the
row's bytes in any case. -/
theorem leases_report_rows_iff {cfg : SizeClassedTableConfig}
    {share : List SizeClass → ℕ → UInt64} {t : SizeClassedTable} (hcreate : cfg.create share = .ok t)
    {h : ∀ c, (t.classConfig c).Accepted} {w : ClassedWorld t}
    (hw : Reaches ClassedWorld.step ClassedWorld.LeaseRoom (.start t h) w) :
    ∃ resolver, cfg.resolveExtent = some resolver ∧
      (∀ thread call n, w.threads thread = .resolving call (.returned (.ok n)) →
        n = call.rows.length) ∧
      ∀ v row, w.HandedOut v row → (w.LeaseReports v row ↔ t.localRow row = row) ∧
        (t.localRow row = row ↔
          ∀ lower < row, widthOf resolver lower = widthOf resolver row) ∧
        ∀ contents order m, (∀ c, (t.classConfig c).SizesBelow) →
          ClassedWorld.Loaded contents order ClassedWorld.Orderly h w m →
          w.LeaseShows resolver contents m v row := by
  obtain ⟨-, resolver, hresolver, hparts⟩ := SizeClassedTable.partitions_of_create hcreate
  have hleases := ClassedWorld.leasesInv_of_room hw
  refine ⟨resolver, hresolver, fun thread call n hpc => (hleases.calls thread call _ hpc).1,
    fun v row hgiven => ?_⟩
  obtain ⟨c, l, hnumbered, hsettled⟩ :=
    hgiven.numbered (ClassedWorld.callsInv_of_reachable hw.reachable) hleases
  exact ⟨hnumbered.reports_iff, hparts.localRow_eq_iff hnumbered.lt,
    fun contents order m hsizes hloaded => hnumbered.shows hparts hsizes hloaded hsettled⟩

/-! ## A run -/

/-- Six rows of two widths, with the shares of the storage that the code computes. -/
def twoWidthsTable : SizeClassedTable :=
  ((twoWidths.create (shareBytes Rounding.nearest 84)).toOption).get (by decide +kernel)

theorem twoWidthsTable_created :
    twoWidths.create (shareBytes Rounding.nearest 84) = .ok twoWidthsTable :=
  eq_ok_of_toOption (Option.some_get _).symm

theorem twoWidthsTable_accepted (c : twoWidthsTable.ClassId) :
    (twoWidthsTable.classConfig c).Accepted := by
  revert c
  decide +kernel

/-- The class of the odd rows. -/
def oddClass : twoWidthsTable.ClassId := ⟨1, by decide +kernel⟩

/-- Row 1 is resolved, read in one request. -/
def oddRun : List (ClassedAction twoWidthsTable) :=
  [.resolveInto 0 [1] 0 1] ++ List.replicate 5 (.advance 0 {}) ++ [.deliver oddClass 0 .ok] ++
    List.replicate 8 (.advance 0 {}) ++ [.leave 0]

/-- A lease on row 1 shows row 1. -/
theorem leases_report_rows_odd :
    ∃ w m, ClassedWorld.Loaded (fun _ i => UInt8.ofNat i) .little ClassedWorld.Orderly
        twoWidthsTable_accepted w m ∧
      w.LeaseShows twoWidthResolver (fun _ i => UInt8.ofNat i) m 1 1 ∧
      (w.LeaseReports 1 1 ↔ twoWidthsTable.localRow 1 = 1) := by
  have hrun : (exec ClassedWorld.step oddRun (.start _ twoWidthsTable_accepted)).any fun w₀ =>
      ClassedWorld.Orderly w₀ (.tryGet 1 1) ∧ ∃ w ∈ w₀.step (.tryGet 1 1),
        ((w.tables oddClass).leases 1).isSome := by
    decide +kernel
  have hallowed : AllAllowed ClassedWorld.step ClassedWorld.Orderly oddRun
      (.start _ twoWidthsTable_accepted) := by
    decide +kernel
  obtain ⟨w₀, hw₀, hfacts⟩ := (Option.any_eq_true _ _).mp hrun
  obtain ⟨horderly, w, hstep, hsome⟩ := of_decide_eq_true hfacts
  have hreaches := (reaches_of_exec .start hallowed hw₀).step horderly hstep
  obtain ⟨m, hm⟩ := ClassedWorld.exists_loaded (fun _ i => UInt8.ofNat i) .little
    (by decide +kernel) hreaches
  obtain ⟨resolver, hresolver, -, hgiven⟩ :=
    leases_report_rows_iff twoWidthsTable_created hm.room
  cases hresolver
  obtain ⟨hreports, -, hshows⟩ := hgiven 1 1 (.got hstep ⟨oddClass, hsome⟩)
  exact ⟨w, m, hm, hshows _ _ m (by decide +kernel) hm, hreports⟩

/-- The lease that `try_get` hands out for row 1 names another row. -/
theorem leases_report_other_rows :
    ∃ w₀ w, Reachable ClassedWorld.step (.start _ twoWidthsTable_accepted) w₀ ∧
      w₀.step (.tryGet 1 1) = some w ∧ w.HandedOut 1 1 ∧ ¬ w.LeaseReports 1 1 := by
  have hrun : (exec ClassedWorld.step oddRun (.start _ twoWidthsTable_accepted)).any fun w₀ =>
      ∃ w ∈ w₀.step (.tryGet 1 1), ((w.tables oddClass).leases 1).isSome ∧
        ∀ c, ∀ l ∈ (w.tables c).leases 1, l.rowIndex ≠ 1 := by
    decide +kernel
  obtain ⟨w₀, hw₀, hfacts⟩ := (Option.any_eq_true _ _).mp hrun
  obtain ⟨w, hstep, hsome, hother⟩ := of_decide_eq_true hfacts
  refine ⟨w₀, w, reachable_of_exec .start hw₀, hstep, .got hstep ⟨oddClass, hsome⟩, ?_⟩
  rintro ⟨c, l, hl, hreports⟩
  exact hother c l hl hreports

end TieredCache
