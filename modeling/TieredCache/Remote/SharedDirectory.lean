/-
# Several stores over one directory

Any number of stores publish into one directory, in one process or in several, and each
store's constructor first removes what it takes for leftovers: every name with the prefix of
temporary files that it has listed.  Constructors, publishes and crashes may interleave in
any way.
-/

import TieredCache.Math.Runs
import TieredCache.Remote.Publication

namespace TieredCache.Remote

open Math Math.Files Math.Runs

variable {order : ByteOrder}

/-! ## The machine -/

/-- Where a store is.  A constructor has names it has listed and not yet looked at. -/
inductive StorePc
  | absent
  | scanning (listed : List FileName)
  | idle
  | publishing (call : PublishCall) (io : PublishIo) (pc : PublishPc)
  | gone
  deriving DecidableEq, Repr

/-- A store: `chunk_size_`, `temp_counter_` and where it is. -/
structure Store where
  chunkSize : UInt32 := 0
  counter : UInt64 := 0
  pc : StorePc := .absent
  deriving DecidableEq, Repr

/-- A publish that has returned. -/
structure Outcome where
  chunkSize : UInt32
  call : PublishCall
  io : PublishIo
  status : Status
  deriving DecidableEq, Repr

/-- The directory and its stores; a store goes by its nonce. -/
structure Shared where
  directory : Directory
  stores : UInt64 → Store
  /-- Ghost: the publishes that have returned, latest first. -/
  outcomes : List Outcome

/-- What can happen next. -/
inductive StoreAction
  /-- A constructor begins. -/
  | construct (nonce : UInt64) (chunkSize : UInt32)
  /-- The directory iterator of a constructor reads some entries. -/
  | list (nonce : UInt64) (names : List FileName)
  /-- A constructor looks at its next entry; `ok` is whether a removal succeeds. -/
  | look (nonce : UInt64) (ok : Bool)
  /-- A constructor returns. -/
  | constructed (nonce : UInt64)
  | publish (nonce : UInt64) (source : SourceIdentity) (index : UInt32) (payload : Bytes)
      (io : PublishIo)
  /-- A publish takes its next step. -/
  | advance (nonce : UInt64)
  /-- A store is destroyed, or its process dies. -/
  | stop (nonce : UInt64)

namespace Shared

/-- A directory in which no store has been opened yet. -/
def start (d : Directory) : Shared := ⟨d, fun _ => {}, []⟩

def setStore (s : Shared) (nonce : UInt64) (store : Store) : Shared :=
  { s with stores := Function.update s.stores nonce store }

def setPc (s : Shared) (nonce : UInt64) (pc : StorePc) : Shared :=
  s.setStore nonce { s.stores nonce with pc := pc }

/-- The entry of a constructor's loop. -/
def cleaned (d : Directory) (name : FileName) (ok : Bool) : Directory :=
  if IsTemp name ∧ ok then d.unlink name else d

/-- One step; `none` if it cannot happen. -/
def step (order : ByteOrder) (s : Shared) : StoreAction → Option Shared
  | .construct nonce chunkSize =>
      match (s.stores nonce).pc with
      -- A chunk size of zero makes the store invalid, and the directory is not listed.
      | .absent => some (s.setStore nonce
          { s.stores nonce with
            chunkSize := chunkSize
            pc := if chunkSize = 0 then .idle else .scanning [] })
      | _ => none
  | .list nonce names =>
      match (s.stores nonce).pc with
      | .scanning listed =>
          if ∀ name ∈ names, (s.directory.links name).isSome then
            some (s.setPc nonce (.scanning (listed ++ names)))
          else none
      | _ => none
  | .look nonce ok =>
      match (s.stores nonce).pc with
      | .scanning (name :: listed) =>
          some { s.setPc nonce (.scanning listed) with directory := cleaned s.directory name ok }
      | _ => none
  | .constructed nonce =>
      match (s.stores nonce).pc with
      | .scanning [] => some (s.setPc nonce .idle)
      | _ => none
  | .publish nonce source index payload io =>
      let store := s.stores nonce
      match store.pc with
      | .idle =>
          if store.chunkSize.toNat < payload.length then some s
          else some (s.setStore nonce ⟨store.chunkSize, store.counter + 1,
            .publishing ⟨source, index, payload, nonce, store.counter⟩ io .opening⟩)
      | _ => none
  | .advance nonce =>
      match (s.stores nonce).pc with
      | .publishing call io pc =>
          match publishStep order call (io.step pc) s.directory pc with
          | some (d, .returned status) =>
              some ⟨d, (s.setPc nonce .idle).stores,
                ⟨(s.stores nonce).chunkSize, call, io, status⟩ :: s.outcomes⟩
          | some (d, pc) => some { s.setPc nonce (.publishing call io pc) with directory := d }
          | none => none
      | _ => none
  | .stop nonce =>
      match (s.stores nonce).pc with
      | .absent => none
      | .gone => none
      | _ => some (s.setPc nonce .gone)

/-- The name belongs to a publish in progress. -/
def Live (s : Shared) (name : FileName) : Prop :=
  ∃ nonce call io pc, (s.stores nonce).pc = .publishing call io pc ∧ call.temp = name

/-- The publish that last put its file under a name. -/
def latest (s : Shared) (name : FileName) : Option Outcome :=
  s.outcomes.find? fun o => o.status = .ok ∧ o.call.final = name

end Shared

/-! ## A publish among others -/

variable {call : PublishCall} {io : PublishIo} {d d' : Directory} {pc pc' : PublishPc}

/-- What a publish in progress relies on in a directory others use as well. -/
structure Publishing (order : ByteOrder) (call : PublishCall) (io : PublishIo) (d : Directory)
    (pc : PublishPc) : Prop where
  running : ∀ status, pc ≠ .returned status
  written : PublishPc.Written order call d pc
  reached : io.Reached call pc
  linked : ∀ file, pc.file = some file → d.links call.temp = some file
  moving : ∀ file, pc = .moving file → (d.contents file = call.whole order ↔ ¬ io.Leaves call)

namespace Publishing

theorem start (order : ByteOrder) (call : PublishCall) (io : PublishIo) (d : Directory) :
    Publishing order call io d .opening :=
  ⟨nofun, trivial, trivial, nofun, nofun⟩

/-- Seen from where it is, it is a publish that has just begun. -/
theorem runInv (h : Publishing order call io d pc) : RunInv order call io d (d, pc) where
  written := h.written
  reached := h.reached
  opening := fun _ => rfl
  linked := h.linked
  others := fun _ _ _ => rfl
  moving := h.moving
  renamed := fun hpc => absurd hpc (h.running .ok)
  removed := fun status hpc => absurd hpc (h.running status)

/-- Its own step. -/
theorem step (h : Publishing order call io d pc)
    (hstep : publishStep order call (io.step pc) d pc = some (d', pc'))
    (hrunning : ∀ status, pc' ≠ .returned status) : Publishing order call io d' pc' := by
  have hnext := h.runInv.step hstep
  exact ⟨hrunning, hnext.written, hnext.reached, hnext.linked, hnext.moving⟩

/-- What others do away from its temporary file. -/
theorem congr (h : Publishing order call io d pc) (hlinks : d'.links call.temp = d.links call.temp)
    (hread : d'.read call.temp = d.read call.temp) : Publishing order call io d' pc := by
  have hcontents : ∀ file, pc.file = some file → d'.contents file = d.contents file := by
    intro file hfile
    have hlink := h.linked file hfile
    rw [Disk.read_of_links hlink, Disk.read_of_links (hlinks.trans hlink)] at hread
    exact Option.some_inj.mp hread
  refine ⟨h.running, ?_, h.reached, fun file hfile => hlinks.trans (h.linked file hfile), ?_⟩
  · have hwritten := h.written
    cases pc with
    | writing file buffer part =>
        rw [PublishPc.Written, hcontents file rfl]
        exact hwritten
    | syncing file buffer =>
        rw [PublishPc.Written, hcontents file rfl]
        exact hwritten
    | closing file buffer ok =>
        rw [PublishPc.Written, hcontents file rfl]
        exact hwritten
    | moving file =>
        rw [PublishPc.Written, hcontents file rfl]
        exact hwritten
    | _ => trivial
  · rintro file rfl
    rw [hcontents file rfl]
    exact h.moving file rfl

end Publishing

/-- A step of a publish changes no name but its own two. -/
theorem PublishMove.keeps (h : PublishMove call d pc d' pc')
    (hlinked : ∀ file, pc.file = some file → d.links call.temp = some file) {name : FileName}
    (hname : name ≠ call.temp) (hfinal : pc' = .returned .ok → name ≠ call.final) :
    d'.links name = d.links name ∧ d'.read name = d.read name := by
  cases h with
  | stays => exact ⟨rfl, rfl⟩
  | created => exact ⟨Disk.create_links_other hname, Disk.read_create_other hname⟩
  | appended file bytes _ hfile =>
      refine ⟨rfl, Disk.read_append_other fun hlink => ?_⟩
      exact hname (d.alone name call.temp file hlink (hlinked file hfile))
  | renamed file _ _ hrename =>
      obtain ⟨moved, -, -, -, hkept, hcontents⟩ := Disk.rename_eq_some hrename call.temp_ne_final
      have hlinks := hkept name hname (hfinal rfl)
      exact ⟨hlinks, by rw [Disk.read, Disk.read, hlinks, hcontents]⟩
  | unlinked => exact ⟨Disk.links_unlink_other hname, Disk.read_unlink_other hname⟩

/-- A step of a publish links no new name but its own two. -/
theorem PublishMove.temps (h : PublishMove call d pc d' pc') {name : FileName}
    (hlink : (d'.links name).isSome) (htemp : IsTemp name) :
    (d.links name).isSome ∨ name = call.temp ∧ pc = .opening := by
  cases h with
  | stays => exact Or.inl hlink
  | created hpc =>
      by_cases hname : name = call.temp
      · exact Or.inr ⟨hname, hpc⟩
      · rw [Disk.create_links_other hname] at hlink
        exact Or.inl hlink
  | appended => exact Or.inl hlink
  | renamed file _ _ hrename =>
      obtain ⟨moved, hsource, -, hgone, hkept, -⟩ := Disk.rename_eq_some hrename call.temp_ne_final
      have hfinal : name ≠ call.final := fun heq => by
        rw [heq] at htemp
        exact not_isTemp_chunkFileName call.source call.index htemp
      by_cases hname : name = call.temp
      · rw [hname, hgone] at hlink
        cases hlink
      · rw [hkept name hname hfinal] at hlink
        exact Or.inl hlink
  | unlinked =>
      by_cases hname : name = call.temp
      · have hgone := Disk.read_eq_none_iff.mp (d.read_unlink_self call.temp)
        rw [hname, hgone] at hlink
        cases hlink
      · rw [Disk.links_unlink_other hname] at hlink
        exact Or.inl hlink

/-- A publish whose temporary file another store has removed cannot succeed any more. -/
theorem PublishMove.fails_once_removed (h : PublishMove call d pc d' pc') (hfile : pc.file ≠ none)
    (hgone : d.links call.temp = none) : pc' ≠ .returned .ok ∧ d'.links call.temp = none := by
  cases h with
  | stays _ _ hok => exact ⟨hok, hgone⟩
  | created hpc => exact absurd (by rw [hpc]; rfl) hfile
  | appended file bytes _ _ hfile' =>
      refine ⟨?_, hgone⟩
      rintro rfl
      cases hfile'
  | renamed file _ _ hrename =>
      obtain ⟨moved, hsource, -⟩ := Disk.rename_eq_some hrename call.temp_ne_final
      rw [hgone] at hsource
      cases hsource
  | unlinked => exact ⟨nofun, Disk.read_eq_none_iff.mp (Disk.read_unlink_self ..)⟩

/-! ## What holds among orderly stores -/

namespace Shared

variable {s s' : Shared} {nonce : UInt64} {name : FileName}

/-- A constructor removes no temporary file of a publish in progress, and a publish is not its
store's last but one before the counter wraps, nor under a validator too long to be read. -/
def Orderly (s : Shared) : StoreAction → Prop
  | .look nonce ok => ok = true → ∀ name listed,
      (s.stores nonce).pc = .scanning (name :: listed) → ¬ s.Live name
  | .publish nonce source _ _ _ =>
      (s.stores nonce).counter.toNat + 1 < 2 ^ 64 ∧
        (canonicalValidator source.validator).length < 2 ^ 32
  | _ => True

/-- A store that publishes. -/
structure Busy (order : ByteOrder) (s : Shared) (nonce : UInt64) (call : PublishCall)
    (io : PublishIo) (pc : PublishPc) : Prop where
  publishing : Publishing order call io s.directory pc
  nonce_eq : call.nonce = nonce
  counter_lt : call.counter < (s.stores nonce).counter
  fits : call.payload.length ≤ (s.stores nonce).chunkSize.toNat
  short : (canonicalValidator call.source.validator).length < 2 ^ 32

end Shared

/-- A publish that has returned success exactly if it would have returned it alone. -/
structure Outcome.Sound (o : Outcome) : Prop where
  fits : o.call.payload.length ≤ o.chunkSize.toNat
  short : (canonicalValidator o.call.source.validator).length < 2 ^ 32
  succeeds : o.status = .ok ↔ o.io.Succeeds o.call

namespace Shared

variable {s s' : Shared} {nonce : UInt64} {name : FileName} {o : Outcome}

/-- What holds in every state that orderly stores reach. -/
structure Inv (order : ByteOrder) (s : Shared) : Prop where
  busy : ∀ nonce call io pc, (s.stores nonce).pc = .publishing call io pc →
    s.Busy order nonce call io pc
  temps : ∀ nonce counter, (s.directory.links (tempName nonce counter)).isSome →
    counter < (s.stores nonce).counter
  returned : ∀ o ∈ s.outcomes, o.Sound
  complete : ∀ name o, s.latest name = some o → ¬ o.io.Leaves o.call →
    s.directory.read name = some (o.call.whole order)

theorem latest_eq_some (h : s.latest name = some o) :
    o ∈ s.outcomes ∧ o.status = .ok ∧ o.call.final = name := by
  have hfound := List.find?_some h
  exact ⟨List.mem_of_find?_eq_some h, by simpa using hfound⟩

/-- A published chunk has no temporary name. -/
theorem latest_not_temp (h : s.latest name = some o) : ¬ IsTemp name := by
  rw [← (latest_eq_some h).2.2]
  exact not_isTemp_chunkFileName _ _

@[simp]
theorem setStore_self (s : Shared) (nonce : UInt64) (store : Store) :
    (s.setStore nonce store).stores nonce = store := Function.update_self ..

theorem setStore_other {nonce' : UInt64} (h : nonce' ≠ nonce) (s : Shared) (store : Store) :
    (s.setStore nonce store).stores nonce' = s.stores nonce' := Function.update_of_ne h ..

namespace Inv

theorem start (hd : ∀ nonce counter, d.links (tempName nonce counter) = none) :
    (Shared.start d).Inv order where
  busy := fun nonce call io pc hpc => by cases hpc
  temps := fun nonce counter hlink => by simp [Shared.start, hd] at hlink
  returned := fun o ho => by cases ho
  complete := fun name o h => by cases h

/-- One store goes on without publishing, and the directory loses no more than a temporary name
that no publish is using. -/
theorem quiet (h : s.Inv order) {store : Store} {d : Directory}
    (hcounter : store.counter = (s.stores nonce).counter)
    (hpc : ∀ call io pc, store.pc ≠ .publishing call io pc)
    (hd : d = s.directory ∨ ∃ name, ¬ s.Live name ∧ IsTemp name ∧ d = s.directory.unlink name) :
    ({ s.setStore nonce store with directory := d } : Shared).Inv order := by
  have hcounters : ∀ nonce', ((s.setStore nonce store).stores nonce').counter =
      (s.stores nonce').counter := fun nonce' => by
    by_cases hn : nonce' = nonce
    · rw [hn, setStore_self, hcounter]
    · rw [setStore_other hn]
  have hothers : ∀ {nonce' call io pc},
      ((s.setStore nonce store).stores nonce').pc = .publishing call io pc →
        nonce' ≠ nonce ∧ (s.stores nonce').pc = .publishing call io pc := by
    intro nonce' call io pc hpublishing
    by_cases hn : nonce' = nonce
    · rw [hn, setStore_self] at hpublishing
      exact absurd hpublishing (hpc call io pc)
    · rw [setStore_other hn] at hpublishing
      exact ⟨hn, hpublishing⟩
  have hread : ∀ name, s.Live name ∨ ¬ IsTemp name →
      d.links name = s.directory.links name ∧ d.read name = s.directory.read name := by
    intro name hname
    rcases hd with rfl | ⟨gone, hgone, htemp, rfl⟩
    · exact ⟨rfl, rfl⟩
    · have hne : name ≠ gone := by
        rintro rfl
        exact hname.elim hgone fun hnot => hnot htemp
      exact ⟨Disk.links_unlink_other hne, Disk.read_unlink_other hne⟩
  refine ⟨fun nonce' call io pc hpublishing => ?_, fun nonce' counter hlink => ?_, h.returned,
    fun name o hlatest hleaves => ?_⟩
  · obtain ⟨hn, hbefore⟩ := hothers hpublishing
    obtain ⟨hpub, hnonce, hlt, hfits, hshort⟩ := h.busy nonce' call io pc hbefore
    have hlive : s.Live call.temp := ⟨nonce', call, io, pc, hbefore, rfl⟩
    obtain ⟨hlinks, hreads⟩ := hread call.temp (Or.inl hlive)
    refine ⟨hpub.congr hlinks hreads, hnonce, ?_, ?_, hshort⟩
    · exact (hcounters nonce').symm ▸ hlt
    · show _ ≤ ((s.setStore nonce store).stores nonce').chunkSize.toNat
      rw [setStore_other hn]
      exact hfits
  · show counter < ((s.setStore nonce store).stores nonce').counter
    rw [hcounters]
    apply h.temps
    rcases hd with rfl | ⟨gone, -, -, rfl⟩
    · exact hlink
    · by_cases hne : tempName nonce' counter = gone
      · have hgone : (s.directory.unlink gone).links gone = none := Function.update_self ..
        rw [hne] at hlink
        exact absurd hlink (by simp [hgone])
      · have hlink : ((s.directory.unlink gone).links (tempName nonce' counter)).isSome := hlink
        rwa [Disk.links_unlink_other hne] at hlink
  · have hlatest : s.latest name = some o := hlatest
    rw [(hread name (Or.inr (latest_not_temp hlatest))).2]
    exact h.complete name o hlatest hleaves

/-- A publish begins, under a temporary name that was never used. -/
theorem begin (h : s.Inv order) {call : PublishCall} {io : PublishIo} (hnonce : call.nonce = nonce)
    (hcounter : call.counter = (s.stores nonce).counter)
    (hroom : (s.stores nonce).counter.toNat + 1 < 2 ^ 64)
    (hfits : call.payload.length ≤ (s.stores nonce).chunkSize.toNat)
    (hshort : (canonicalValidator call.source.validator).length < 2 ^ 32) :
    (s.setStore nonce ⟨(s.stores nonce).chunkSize, (s.stores nonce).counter + 1,
      .publishing call io .opening⟩).Inv order := by
  have hnext : (s.stores nonce).counter < (s.stores nonce).counter + 1 := by
    rw [UInt64.lt_iff_toNat_lt, UInt64.toNat_add, UInt64.toNat_one, Nat.mod_eq_of_lt hroom]
    exact Nat.lt_succ_self _
  generalize hstore : (⟨(s.stores nonce).chunkSize, (s.stores nonce).counter + 1,
    .publishing call io .opening⟩ : Store) = store
  have hcounters : ∀ nonce' counter, counter < (s.stores nonce').counter →
      counter < ((s.setStore nonce store).stores nonce').counter := by
    intro nonce' counter hlt
    by_cases hn : nonce' = nonce
    · subst hn
      rw [setStore_self, ← hstore]
      exact UInt64.lt_trans hlt hnext
    · rwa [setStore_other hn]
  refine ⟨fun nonce' call' io' pc hpublishing => ?_, fun nonce' counter hlink => ?_, h.returned,
    h.complete⟩
  · by_cases hn : nonce' = nonce
    · subst hn
      rw [setStore_self, ← hstore] at hpublishing
      cases hpublishing
      refine ⟨.start .., hnonce, ?_, ?_, hshort⟩
      · rw [setStore_self, ← hstore, hcounter]
        exact hnext
      · rw [setStore_self, ← hstore]
        exact hfits
    · rw [setStore_other hn] at hpublishing
      obtain ⟨hpub, hnonce', hlt, hfits', hshort'⟩ := h.busy nonce' call' io' pc hpublishing
      refine ⟨hpub, hnonce', hcounters nonce' _ hlt, ?_, hshort'⟩
      rwa [setStore_other hn]
  · exact hcounters nonce' counter (h.temps nonce' counter hlink)

/-- What a step of one publish leaves for the other stores. -/
theorem others (h : s.Inv order) {call : PublishCall} {io : PublishIo} {pc pc' : PublishPc}
    {d : Directory} (hbusy : s.Busy order nonce call io pc)
    (hmove : PublishMove call s.directory pc d pc') {nonce' : UInt64} (hn : nonce' ≠ nonce)
    {call' : PublishCall} {io' : PublishIo} {pc'' : PublishPc}
    (hpc : (s.stores nonce').pc = .publishing call' io' pc'') :
    Publishing order call' io' d pc'' := by
  have hother := h.busy nonce' call' io' pc'' hpc
  have hne : call'.temp ≠ call.temp := fun heq =>
    hn (hother.nonce_eq.symm.trans ((tempName_inj heq).1.trans hbusy.nonce_eq))
  obtain ⟨hlinks, hread⟩ := hmove.keeps hbusy.publishing.linked hne fun _ heq =>
    chunkFileName_ne_temp call.source call.index call' heq.symm
  exact hother.publishing.congr hlinks hread

/-- A publish takes a step: it goes on, or it returns. -/
theorem advance (h : s.Inv order) {call : PublishCall} {io : PublishIo} {pc pc' : PublishPc}
    {d : Directory} (hpc : (s.stores nonce).pc = .publishing call io pc)
    (hstep : publishStep order call (io.step pc) s.directory pc = some (d, pc'))
    {store : Store} {outcomes : List Outcome}
    (hsize : store.chunkSize = (s.stores nonce).chunkSize)
    (hcounter : store.counter = (s.stores nonce).counter)
    (hgoes : (∀ status, pc' ≠ .returned status) ∧ store.pc = .publishing call io pc' ∧
        outcomes = s.outcomes ∨
      ∃ status, pc' = .returned status ∧ store.pc = .idle ∧
        outcomes = ⟨(s.stores nonce).chunkSize, call, io, status⟩ :: s.outcomes) :
    (⟨d, (s.setStore nonce store).stores, outcomes⟩ : Shared).Inv order := by
  have hbusy := h.busy nonce call io pc hpc
  have hmove := publishStep_move hstep
  have hrun := hbusy.publishing.runInv.step hstep
  have hcounters : ∀ nonce', ((s.setStore nonce store).stores nonce').counter =
      (s.stores nonce').counter := fun nonce' => by
    by_cases hn : nonce' = nonce
    · rw [hn, setStore_self, hcounter]
    · rw [setStore_other hn]
  have hsame : ∀ {call' io' pc''}, store.pc = .publishing call' io' pc'' →
      call' = call ∧ io' = io ∧ pc'' = pc' ∧ ∀ status, pc' ≠ .returned status := by
    intro call' io' pc'' hpublishing
    rcases hgoes with ⟨hrunning, hstore, -⟩ | ⟨status, -, hstore, -⟩ <;> rw [hstore] at hpublishing
    · cases hpublishing
      exact ⟨rfl, rfl, rfl, hrunning⟩
    · cases hpublishing
  refine ⟨fun nonce' call' io' pc'' hpublishing => ?_, fun nonce' counter hlink => ?_,
    fun o ho => ?_, fun name o hlatest hleaves => ?_⟩
  · by_cases hn : nonce' = nonce
    · subst hn
      dsimp only at hpublishing
      rw [setStore_self] at hpublishing
      obtain ⟨rfl, rfl, rfl, hrunning⟩ := hsame hpublishing
      refine ⟨hbusy.publishing.step hstep hrunning, hbusy.nonce_eq, ?_, ?_, hbusy.short⟩
      · dsimp only
        rw [hcounters]
        exact hbusy.counter_lt
      · dsimp only
        rw [setStore_self, hsize]
        exact hbusy.fits
    · dsimp only at hpublishing
      rw [setStore_other hn] at hpublishing
      have hother := h.busy nonce' call' io' pc'' hpublishing
      refine ⟨h.others hbusy hmove hn hpublishing, hother.nonce_eq, ?_, ?_, hother.short⟩
      · dsimp only
        rw [hcounters]
        exact hother.counter_lt
      · dsimp only
        rw [setStore_other hn]
        exact hother.fits
  · dsimp only
    rw [hcounters]
    rcases hmove.temps hlink (isTemp_tempName ..) with hbefore | ⟨heq, -⟩
    · exact h.temps nonce' counter hbefore
    · obtain ⟨rfl, rfl⟩ := tempName_inj heq
      rw [hbusy.nonce_eq]
      exact hbusy.counter_lt
  · rcases hgoes with ⟨-, -, rfl⟩ | ⟨status, rfl, -, rfl⟩
    · exact h.returned o ho
    · rcases List.mem_cons.mp ho with rfl | ho
      · have hreached := hrun.reached
        refine ⟨hbusy.fits, hbusy.short, ?_⟩
        dsimp only [PublishIo.Reached] at hreached
        split_ifs at hreached with hok
        · exact iff_of_true hok hreached
        · exact iff_of_false hok hreached
      · exact h.returned o ho
  · have hold : ∀ o, s.latest name = some o → ¬ o.io.Leaves o.call →
        (pc' = .returned .ok → name ≠ call.final) →
        d.read name = some (o.call.whole order) := by
      intro o hlatest hleaves hfinal
      have hne : name ≠ call.temp := fun heq => latest_not_temp hlatest (by
        rw [heq]
        exact isTemp_tempName ..)
      rw [(hmove.keeps hbusy.publishing.linked hne hfinal).2]
      exact h.complete name o hlatest hleaves
    rcases hgoes with ⟨hrunning, -, rfl⟩ | ⟨status, rfl, -, rfl⟩
    · exact hold o hlatest hleaves fun hok => absurd hok (hrunning .ok)
    · rw [latest, List.find?_cons] at hlatest
      split at hlatest
      · rename_i hfound
        cases hlatest
        obtain ⟨rfl, rfl⟩ : status = .ok ∧ call.final = name := by simpa using hfound
        obtain ⟨⟨file, hread, -, hwhole⟩, -, -⟩ := hrun.renamed rfl
        dsimp only at hread hwhole hleaves ⊢
        rw [hread, hwhole.mpr hleaves]
      · rename_i hother
        apply hold o hlatest hleaves
        rintro hok heq
        cases hok
        simp [heq] at hother

theorem step (h : s.Inv order) {a : StoreAction} (horderly : s.Orderly a)
    (hstep : s.step order a = some s') : s'.Inv order := by
  unfold Shared.step at hstep
  cases a with
  | construct nonce chunkSize =>
      dsimp only at hstep
      split at hstep <;> cases hstep
      refine h.quiet rfl (fun call io pc hpc => ?_) (Or.inl rfl)
      dsimp only at hpc
      split_ifs at hpc
  | list nonce names =>
      dsimp only at hstep
      split at hstep
      · split_ifs at hstep
        cases hstep
        exact h.quiet rfl (fun call io pc hpc => by cases hpc) (Or.inl rfl)
      · cases hstep
  | look nonce ok =>
      dsimp only at hstep
      split at hstep
      · rename_i name listed hscanning
        cases hstep
        refine h.quiet rfl (fun call io pc hpc => by cases hpc) ?_
        unfold cleaned
        split_ifs with hremoves
        · exact Or.inr ⟨name, horderly hremoves.2 name listed hscanning, hremoves.1, rfl⟩
        · exact Or.inl rfl
      · cases hstep
  | constructed nonce =>
      dsimp only at hstep
      split at hstep <;> cases hstep
      exact h.quiet rfl (fun call io pc hpc => by cases hpc) (Or.inl rfl)
  | publish nonce source index payload io =>
      dsimp only at hstep
      split at hstep
      · split_ifs at hstep with hlarge
        · cases hstep
          exact h
        · cases hstep
          exact h.begin rfl rfl horderly.1 (Nat.le_of_not_lt hlarge) horderly.2
      · cases hstep
  | advance nonce =>
      dsimp only at hstep
      split at hstep
      · rename_i call io pc hpc
        split at hstep
        · rename_i d status hpublish
          cases hstep
          exact h.advance hpc hpublish rfl rfl (Or.inr ⟨status, rfl, rfl, rfl⟩)
        · rename_i d pc' hrunning hpublish
          cases hstep
          refine h.advance hpc hpublish rfl rfl (Or.inl ⟨?_, rfl, rfl⟩)
          rintro status rfl
          exact hrunning status rfl
        · cases hstep
      · cases hstep
  | stop nonce =>
      dsimp only at hstep
      split at hstep <;> cases hstep
      exact h.quiet rfl (fun call io pc hpc => by cases hpc) (Or.inl rfl)

end Inv

/-! ## Publishes among other stores -/

/-- Every publish goes as it would alone, and its chunk can be read until another one takes
its place; temporary files in use are not removed. -/
structure Undisturbed (order : ByteOrder) (s : Shared) : Prop where
  returns : ∀ o ∈ s.outcomes, ∀ d,
    o.status = .ok ↔ (publishChunk order o.chunkSize o.call o.io d).1 = .ok
  readable : ∀ name o, s.latest name = some o → ¬ o.io.Leaves o.call → ∀ dest : Bytes,
    o.call.payload.length ≤ dest.length →
    readChunk order o.chunkSize s.directory o.call.source o.call.index dest =
      (⟨.ok, UInt32.ofNat o.call.payload.length⟩,
        o.call.payload ++ dest.drop o.call.payload.length)
  temps : ∀ nonce call io pc file, (s.stores nonce).pc = .publishing call io pc →
    pc.file = some file → s.directory.links call.temp = some file
  /-- A publish in progress can go on, and comes to its end. -/
  goesOn : ∀ nonce call io pc, (s.stores nonce).pc = .publishing call io pc →
    ∃ s', s.step order (.advance nonce) = some s' ∧
      ((s'.stores nonce).pc = .idle ∨
        ∃ pc', (s'.stores nonce).pc = .publishing call io pc' ∧ pc'.stepsLeft < pc.stepsLeft)

theorem Inv.goesOn (h : s.Inv order) {call : PublishCall} {io : PublishIo} {pc : PublishPc}
    (hpc : (s.stores nonce).pc = .publishing call io pc) :
    ∃ s', s.step order (.advance nonce) = some s' ∧
      ((s'.stores nonce).pc = .idle ∨
        ∃ pc', (s'.stores nonce).pc = .publishing call io pc' ∧ pc'.stepsLeft < pc.stepsLeft) := by
  have hrunning := (h.busy nonce call io pc hpc).publishing.running
  cases hstep : publishStep order call (io.step pc) s.directory pc with
  | none =>
      obtain ⟨status, hreturned⟩ := publishStep_eq_none_iff.mp hstep
      exact absurd hreturned (hrunning status)
  | some next =>
      obtain ⟨d, pc'⟩ := next
      have hleft := publishStep_stepsLeft hstep
      simp only [Shared.step, hpc, hstep]
      cases pc' with
      | returned status => exact ⟨_, rfl, Or.inl (by simp [setPc])⟩
      | _ => exact ⟨_, rfl, Or.inr ⟨_, by simp [setPc], hleft⟩⟩

theorem Inv.undisturbed (h : s.Inv order) : s.Undisturbed order where
  returns := fun o ho d => by
    have hsound := h.returned o ho
    rw [hsound.succeeds, publishChunk_status_ok_iff]
    exact (and_iff_right hsound.fits).symm
  readable := fun name o hlatest hleaves dest hdest => by
    obtain ⟨hmem, -, hname⟩ := latest_eq_some hlatest
    have hsound := h.returned o hmem
    have hread := h.complete name o hlatest hleaves
    rw [← hname] at hread
    rw [readChunk_of_read hread]
    exact readFile_chunkFile ⟨rfl, rfl, rfl, rfl⟩ hsound.short hsound.fits hdest
  temps := fun nonce call io pc file hpc hfile =>
    (h.busy nonce call io pc hpc).publishing.linked file hfile
  goesOn := fun _ _ _ _ hpc => h.goesOn hpc

theorem inv_of_reaches {d : Directory}
    (hd : ∀ nonce counter, d.links (tempName nonce counter) = none)
    (hs : Reaches (Shared.step order) Orderly (Shared.start d) s) : s.Inv order :=
  hs.invariant (.start hd) fun _ _ _ hinv horderly hstep => hinv.step horderly hstep

/-- Orderly stores do not disturb each other's publishes. -/
theorem stores_undisturbed {d : Directory}
    (hd : ∀ nonce counter, d.links (tempName nonce counter) = none)
    (hs : Reaches (Shared.step order) Orderly (Shared.start d) s) : s.Undisturbed order :=
  (inv_of_reaches hd hs).undisturbed

/-- The temporary names of a store that does not publish are not in use. -/
theorem Inv.not_live (h : s.Inv order) (hpc : (s.stores nonce).pc = .gone) (counter : UInt64) :
    ¬ s.Live (tempName nonce counter) := by
  rintro ⟨nonce', call, io, pc, hpublishing, htemp⟩
  have hnonce : call.nonce = nonce := (tempName_inj htemp).1
  rw [← (h.busy nonce' call io pc hpublishing).nonce_eq, hnonce, hpc] at hpublishing
  cases hpublishing

/-- An orderly step that removes nothing. -/
def RemovesNothing (s : Shared) : StoreAction → Prop
  | .look _ ok => ok = false
  | .publish nonce source _ _ _ =>
      (s.stores nonce).counter.toNat + 1 < 2 ^ 64 ∧
        (canonicalValidator source.validator).length < 2 ^ 32
  | _ => True

instance (s : Shared) : (action : StoreAction) → Decidable (s.RemovesNothing action)
  | .look _ _ => inferInstanceAs (Decidable (_ = _))
  | .publish _ _ _ _ _ => inferInstanceAs (Decidable (_ ∧ _))
  | .construct .. | .list .. | .constructed .. | .advance .. | .stop .. => .isTrue trivial

theorem RemovesNothing.orderly {a : StoreAction} (h : s.RemovesNothing a) : s.Orderly a := by
  cases a with
  | look nonce ok =>
      intro hok
      have hnot : ok = false := h
      rw [hok] at hnot
      cases hnot
  | publish => exact h
  | _ => trivial

/-- A store publishes a chunk and dies while it publishes the next.  Another one is opened while a
third publishes, and lists the chunk, the dead store's temporary file and the one in use. -/
def listedRun : List StoreAction :=
  [.construct 2 1, .constructed 2, .publish 2 ⟨[], {}⟩ 1 [9] {}] ++ List.replicate 7 (.advance 2) ++
    [.publish 2 ⟨[], {}⟩ 2 [8] {}, .advance 2, .stop 2, .construct 0 1, .constructed 0,
      .publish 0 ⟨[], {}⟩ 0 [7] {}, .advance 0, .construct 1 1,
      .list 1 [chunkFileName ⟨[], {}⟩ 1, tempName 2 1, tempName 0 0], .look 1 false]

/-- It does not succeed in removing the one in use, and the third store's publish ends. -/
def endedRun : List StoreAction :=
  [.look 1 false, .constructed 1] ++ List.replicate 6 (.advance 0)

/-- The dead store's file is removed, and both chunks can be read. -/
theorem stores_undisturbed_listed :
    ∃ s, Reaches (Shared.step .little) Orderly (Shared.start (Disk.empty FileName)) s ∧
      s.directory.links (tempName 2 1) = none ∧ s.outcomes.map Outcome.status = [.ok, .ok] ∧
      s.Undisturbed .little := by
  have hrun : (exec (Shared.step .little) listedRun (Shared.start (Disk.empty FileName))).any
      fun s₁ => (s₁.stores 2).pc = .gone ∧
        (s₁.stores 1).pc = .scanning [tempName 2 1, tempName 0 0] ∧
        (s₁.directory.links (tempName 2 1)).isSome ∧
        ∃ s₂ ∈ s₁.step .little (.look 1 true), AllAllowed (Shared.step .little) RemovesNothing
          endedRun s₂ ∧ ∃ s ∈ exec (Shared.step .little) endedRun s₂,
            s.directory.links (tempName 2 1) = none ∧
              s.outcomes.map Outcome.status = [.ok, .ok] := by
    decide +kernel
  have hallowed : AllAllowed (Shared.step .little) RemovesNothing listedRun
      (Shared.start (Disk.empty FileName)) := by
    decide +kernel
  have hempty : ∀ nonce counter, (Disk.empty FileName).links (tempName nonce counter) = none :=
    fun _ _ => rfl
  obtain ⟨s₁, h₁, hfacts⟩ := (Option.any_eq_true _ _).mp hrun
  obtain ⟨hgone, hscanning, -, s₂, h₂, hrest, s, hs, hremoved, hstatus⟩ := of_decide_eq_true hfacts
  have hs₁ := (reaches_of_exec .start hallowed h₁).mono fun _ _ h => h.orderly
  have hlook : s₁.Orderly (.look 1 true) := by
    intro _ name listed hpc
    rw [hscanning] at hpc
    cases hpc
    exact (inv_of_reaches hempty hs₁).not_live hgone 1
  have hreaches := reaches_of_exec (hs₁.step hlook h₂) (hrest.mono fun _ _ h => h.orderly) hs
  exact ⟨s, hreaches, hremoved, hstatus, stores_undisturbed hempty hreaches⟩

/-- While one store publishes, another one is opened, lists the temporary file and removes
it. -/
def sweptRun : List StoreAction :=
  [.construct 0 1, .constructed 0, .publish 0 ⟨[], {}⟩ 0 [7] {}, .advance 0, .construct 1 1,
    .list 1 [tempName 0 0], .look 1 true, .constructed 1, .advance 0, .advance 0, .advance 0,
    .advance 0, .advance 0, .advance 0, .advance 0]

/-- The publish fails, though nothing of its own does. -/
theorem opening_breaks_publish :
    ∃ s, Reachable (Shared.step .little) (Shared.start (Disk.empty FileName)) s ∧
      s.outcomes = [⟨1, ⟨⟨[], {}⟩, 0, [7], 0, 0⟩, {}, .publishFailed⟩] ∧ ¬ s.Undisturbed .little := by
  have hrun : (exec (Shared.step .little) sweptRun (Shared.start (Disk.empty FileName))).any
      fun s => s.outcomes = [⟨1, ⟨⟨[], {}⟩, 0, [7], 0, 0⟩, {}, .publishFailed⟩] := by
    decide +kernel
  obtain ⟨s, hs, hfacts⟩ := (Option.any_eq_true _ _).mp hrun
  have houtcomes := of_decide_eq_true hfacts
  refine ⟨s, reachable_of_exec .start hs, houtcomes, fun hundisturbed => ?_⟩
  have halone : (publishChunk .little 1 ⟨⟨[], {}⟩, 0, [7], 0, 0⟩ {} (Disk.empty FileName)).1 = .ok :=
    (publishChunk_undisturbed .little _ (by decide)).1
  have hmem : ⟨1, ⟨⟨[], {}⟩, 0, [7], 0, 0⟩, {}, .publishFailed⟩ ∈ s.outcomes := by simp [houtcomes]
  have hok := (hundisturbed.returns _ hmem (Disk.empty FileName)).mpr halone
  cases hok

end Shared

end TieredCache.Remote
