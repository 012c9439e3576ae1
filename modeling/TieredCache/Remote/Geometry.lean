/-
# Chunk files of mirrors with different chunk sizes

Mirrors of one source are opened over one directory in turn.  A chunk file is named by its
index only, and its payload may be shorter than a chunk, so that a mirror takes the file of
another chunk size for its own.  Reads are exact as long as the files they find were cut
like the mirror's own chunks, or are too long for it.
-/

import TieredCache.Math.Runs
import TieredCache.Remote.MirrorReads
import TieredCache.Remote.Provenance

namespace TieredCache.Remote

open Math Math.Files Math.Runs Math.Slices

variable {order : ByteOrder} {S : Bytes} {source : SourceIdentity} {m : Mirror} {index : UInt32}
  {d d' : Directory} {buffer : Bytes} {s : MirrorState}

/-! ## Chunks of a source -/

/-- The bytes of a source that a mirror of some chunk size takes an index for. -/
def chunkOf (S : Bytes) (chunkSize index : UInt32) : Bytes :=
  slice S (index.toNat * chunkSize.toNat)
    (min chunkSize.toNat (S.length - index.toNat * chunkSize.toNat))

/-- Two chunk sizes give an index the same start and length. -/
def SameChunk (S : Bytes) (chunkSize chunkSize' index : UInt32) : Prop :=
  index.toNat * chunkSize'.toNat = index.toNat * chunkSize.toNat ∧
    min chunkSize'.toNat (S.length - index.toNat * chunkSize'.toNat) =
      min chunkSize.toNat (S.length - index.toNat * chunkSize.toNat)

instance (S : Bytes) (chunkSize chunkSize' index : UInt32) :
    Decidable (SameChunk S chunkSize chunkSize' index) :=
  inferInstanceAs (Decidable (_ ∧ _))

/-- A transport that returns the bytes of the source whenever it reports success. -/
def Honest (S : Bytes) (transport : RangeTransport) : Prop :=
  ∀ request, (transport request).1.status = .ok → (transport request).1.bytes = request.length →
    (transport request).2 = slice S request.offset.toNat request.length.toNat

theorem SameChunk.chunkOf_eq {chunkSize chunkSize' : UInt32}
    (h : SameChunk S chunkSize chunkSize' index) :
    chunkOf S chunkSize' index = chunkOf S chunkSize index := by
  rw [chunkOf, chunkOf, h.1, ← h.1, h.2, h.1]

theorem length_chunkOf_lt (S : Bytes) (chunkSize index : UInt32) :
    (chunkOf S chunkSize index).length < 2 ^ 32 := by
  have hsize := chunkSize.toNat_lt
  rw [chunkOf, slice, List.length_take]
  omega

/-! ## Making a chunk local -/

/-- What a mirror finds under an index: nothing, its own chunk or a part of it, or a payload
too long for it. -/
def Serves (order : ByteOrder) (S : Bytes) (m : Mirror) (d : Directory) (index : UInt32) : Prop :=
  ∀ file, d.read (chunkFileName m.source index) = some file →
    ∃ payload, payload.length < 2 ^ 32 ∧ file <+: chunkFile order m.source index payload ∧
      (payload = chunkOf S m.chunkSize index ∨ m.chunkSize.toNat < payload.length)

/-- A file is left alone or has been replaced by the mirror's own chunk, or a part of it. -/
def Kept (order : ByteOrder) (S : Bytes) (m : Mirror) (d d' : Directory) (index : UInt32) : Prop :=
  d'.read (chunkFileName m.source index) = d.read (chunkFileName m.source index) ∨
    ∃ file, d'.read (chunkFileName m.source index) = some file ∧
      file <+: chunkFile order m.source index (chunkOf S m.chunkSize index)

theorem Serves.kept (h : Serves order S m d index) (hkept : Kept order S m d d' index) :
    Serves order S m d' index := by
  intro file hfile
  rcases hkept with hsame | ⟨file', hfile', hbegins⟩
  · exact h file (hsame ▸ hfile)
  · rw [hfile'] at hfile
    cases hfile
    exact ⟨_, length_chunkOf_lt .., hbegins, Or.inl rfl⟩

/-- A file of a source is accepted only if its canonical validator has a length of 32 bits. -/
theorem short_of_readFile_ok {chunkSize : UInt32} {file dest payload : Bytes}
    (hfile : file <+: chunkFile order source index payload)
    (h : (readFile order chunkSize source index file dest).1.status = .ok) :
    (canonicalValidator source.validator).length < 2 ^ 32 := by
  have hlength := congrArg List.length (readFile_prefix_validator hfile h).2
  have hmod := Nat.mod_lt (canonicalValidator source.validator).length (show 0 < 2 ^ 32 by decide)
  rw [List.length_take] at hlength
  omega

/-- What is read from such a directory is the mirror's own chunk. -/
theorem Serves.readChunk_ok (h : Serves order S m d index)
    (hok : (readChunk order m.chunkSize d m.source index buffer).1.status = .ok) :
    (readChunk order m.chunkSize d m.source index buffer).2 =
      chunkOf S m.chunkSize index ++ buffer.drop (chunkOf S m.chunkSize index).length := by
  cases hread : d.read (chunkFileName m.source index) with
  | none =>
      rw [readChunk, hread] at hok
      cases hok
  | some file =>
      obtain ⟨payload, hpayload, hbegins, hcases⟩ := h file hread
      rw [readChunk_of_read hread] at hok ⊢
      obtain ⟨-, hsize, -, hresult⟩ :=
        readFile_prefix hbegins hpayload (short_of_readFile_ok hbegins hok) hok
      rw [hresult]
      rcases hcases with rfl | hlong
      · rfl
      · exact absurd hsize (not_le.mpr hlong)

/-- A publish leaves every other chunk file alone. -/
theorem publish_kept {io : PublishIo} {payload : Bytes}
    (hpayload : payload = chunkOf S m.chunkSize index) (other : UInt32) :
    Kept order S m s.directory (m.publish order io index payload s).2.directory other := by
  subst hpayload
  have htemp := chunkFileName_ne_temp m.source other
    (m.publishCall index (chunkOf S m.chunkSize index) s)
  by_cases hok : (publishChunk order m.chunkSize
      (m.publishCall index (chunkOf S m.chunkSize index) s) io s.directory).1 = .ok
  · obtain ⟨-, -, ⟨file, hread, hbegins, -⟩, -, hothers⟩ := publishChunk_ok (Prod.ext hok rfl)
    by_cases hindex : other = index
    · rw [hindex]
      exact Or.inr ⟨file, hread, hbegins⟩
    · refine Or.inl (hothers _ htemp fun hname => hindex ?_)
      exact (chunkFileName_eq_iff.mp hname).2.2
  · exact Or.inl ((publishChunk_failed rfl hok).1 _ htemp)

/-- The directory after a fetch. -/
theorem fetchAndPublish_kept (order : ByteOrder) (s : MirrorState) {around : Surroundings}
    (hhonest : Honest S around.transport)
    (hstart : (chunkStart m.chunkSize index).toNat = index.toNat * m.chunkSize.toNat)
    (hlen : (chunkLen m.source.validator.totalSize m.chunkSize index).toNat =
      min m.chunkSize.toNat (S.length - index.toNat * m.chunkSize.toNat)) (other : UInt32) :
    Kept order S m s.directory (m.fetchAndPublish order around index
      (chunkLen m.source.validator.totalSize m.chunkSize index) s).2.directory other := by
  unfold Mirror.fetchAndPublish
  dsimp only
  split_ifs with hfetched
  · exact Or.inl rfl
  · rw [not_not] at hfetched
    unfold Mirror.fetchStatus at hfetched
    split_ifs at hfetched with hstatus hbytes
    · exact absurd hfetched hstatus
    · have hpayload := hhonest _ (not_not.mp hstatus) (not_not.mp hbytes)
      refine publish_kept (s := { s with stats := _ }) (hpayload.trans ?_) other
      rw [chunkOf, ← hlen, ← hstart]
      rfl

/-- Making a chunk local changes no file but the chunk's own. -/
theorem ensureChunkLocal_kept (order : ByteOrder) (buffer : Bytes) (s : MirrorState)
    {around : UInt32 → Surroundings}
    (hhonest : Honest S (around index).transport)
    (hstart : (chunkStart m.chunkSize index).toNat = index.toNat * m.chunkSize.toNat)
    (hlen : (chunkLen m.source.validator.totalSize m.chunkSize index).toNat =
      min m.chunkSize.toNat (S.length - index.toNat * m.chunkSize.toNat)) (other : UInt32) :
    Kept order S m s.directory (m.ensureChunkLocal order around index
      (chunkLen m.source.validator.totalSize m.chunkSize index) buffer s).2.2.directory other := by
  unfold Mirror.ensureChunkLocal
  dsimp only
  split_ifs with hfirst hsecond hfetched hfetched
  · exact Or.inl (by rw [Mirror.directory_countLocal])
  · exact absurd rfl hfetched
  · exact Or.inl (by rw [Mirror.directory_countLocal])
  all_goals
    have hkept := fetchAndPublish_kept order
      (Mirror.countLocal (readChunk order m.chunkSize s.directory m.source index buffer).1.status s)
      hhonest hstart hlen other
    rwa [Mirror.directory_countLocal] at hkept

/-- A chunk made local is the mirror's own. -/
theorem ensureChunkLocal_own {around : UInt32 → Surroundings}
    (hhonest : Honest S (around index).transport)
    (hstart : (chunkStart m.chunkSize index).toNat = index.toNat * m.chunkSize.toNat)
    (hlen : (chunkLen m.source.validator.totalSize m.chunkSize index).toNat =
      min m.chunkSize.toNat (S.length - index.toNat * m.chunkSize.toNat))
    (hserves : Serves order S m s.directory index)
    (hok : (m.ensureChunkLocal order around index
      (chunkLen m.source.validator.totalSize m.chunkSize index) buffer s).1 = .ok) :
    ∃ behind, (m.ensureChunkLocal order around index
      (chunkLen m.source.validator.totalSize m.chunkSize index) buffer s).2.1 =
        chunkOf S m.chunkSize index ++ behind := by
  have hkept := ensureChunkLocal_kept order buffer s hhonest hstart hlen index
  obtain ⟨buffer', hread, hbuffer⟩ := m.ensureChunkLocal_ok hok
  rw [hbuffer]
  exact ⟨_, (hserves.kept hkept).readChunk_ok hread⟩

theorem Kept.trans {d'' : Directory} (h : Kept order S m d d' index)
    (h' : Kept order S m d' d'' index) : Kept order S m d d'' index := by
  rcases h' with hsame | hnew
  · rcases h with hsame' | ⟨file, hfile, hbegins⟩
    · exact Or.inl (hsame.trans hsame')
    · exact Or.inr ⟨file, hsame.trans hfile, hbegins⟩
  · exact Or.inr hnew

/-- A mirror with honest fetches makes its own chunks local, in a directory that serves it. -/
theorem ensures_ensureChunkLocal (order : ByteOrder) {offset length : UInt64}
    {around : UInt32 → Surroundings} (hS : m.source.validator.totalSize.toNat = S.length)
    (hhonest : ∀ index, Honest S (around index).transport)
    (hserves : ∀ index : UInt32, offset.toNat / m.chunkSize.toNat ≤ index.toNat →
      index.toNat ≤ (offset.toNat + length.toNat - 1) / m.chunkSize.toNat →
      Serves order S m d index)
    (h : Covered offset length m.source.validator.totalSize m.chunkSize) :
    Ensures (fun s : MirrorState => ∀ index, Kept order S m d s.directory index) S m.chunkSize
      m.source.validator.totalSize (m.ensureChunkLocal order around)
      (offset.toNat / m.chunkSize.toNat)
      ((offset.toNat + length.toNat - 1) / m.chunkSize.toNat) := by
  intro index buffer s hfirst hlast hkept hbuffer
  have hstart := h.toNat_chunkStart hlast
  have hlen := h.toNat_chunkLen hlast
  rw [hS] at hlen
  refine ⟨fun other => (hkept other).trans
    (ensureChunkLocal_kept order buffer s (hhonest index) hstart hlen other), ?_, fun hok => ?_⟩
  · rw [m.length_ensureChunkLocal, hbuffer]
  · obtain ⟨behind, hown⟩ := ensureChunkLocal_own (hhonest index) hstart hlen
      ((hserves index hfirst hlast).kept (hkept index)) hok
    have hinside : index.toNat * m.chunkSize.toNat +
        min m.chunkSize.toNat (S.length - index.toNat * m.chunkSize.toNat) ≤ S.length := by
      have hle := h.start_le hlast
      have hlt := h.last_lt_total
      omega
    rw [hown, hlen]
    exact List.take_left' (length_slice hinside)

/-! ## Mirrors opened in turn -/

/-- The directory, the mirror that is open, and the chunk size of the mirror that last changed
the file of an index. -/
structure Shelf where
  mirror : Option Mirror
  state : MirrorState
  cutWith : UInt32 → Option UInt32

/-- What happens at a directory: a mirror of the source is opened, or it reads. -/
inductive ShelfAction
  | start (chunkSize : UInt32) (storeValid : Bool) (nonce : UInt64) (names : List FileName)
  | read (offset length : UInt64) (dest : Bytes) (around : UInt32 → Surroundings)

namespace Shelf

/-- A directory no mirror has been opened over. -/
def fresh (d : Directory) : Shelf := ⟨none, ⟨d, 0, {}⟩, fun _ => none⟩

/-- Open a mirror over the directory; a store that can be used removes temporary files. -/
def opened (source : SourceIdentity) (chunkSize : UInt32) (storeValid : Bool) (nonce : UInt64)
    (names : List FileName) (shelf : Shelf) : Shelf where
  mirror := some ⟨source, chunkSize, storeValid, nonce⟩
  state :=
    ⟨if storeValid && chunkSize ≠ 0 then cleanup names shelf.state.directory
      else shelf.state.directory, 0, {}⟩
  cutWith := shelf.cutWith

/-- The shelf after a read of a mirror. -/
def after (source : SourceIdentity) (m : Mirror) (state : MirrorState) (shelf : Shelf) : Shelf where
  mirror := shelf.mirror
  state := state
  cutWith := fun index =>
    if state.directory.read (chunkFileName source index) =
        shelf.state.directory.read (chunkFileName source index) then shelf.cutWith index
    else some m.chunkSize

/-- One step at a directory. -/
def step (order : ByteOrder) (source : SourceIdentity) (shelf : Shelf) :
    ShelfAction → Option Shelf
  | .start chunkSize storeValid nonce names =>
      some (shelf.opened source chunkSize storeValid nonce names)
  | .read offset length dest around => do
      let m ← shelf.mirror
      let (_, _, state) ← m.read order around offset length dest shelf.state
      some (shelf.after source m state)

/-- The fetches of a read are honest, and every file it finds was cut like the mirror's own
chunk, or is too long for the mirror. -/
structure Fits (S : Bytes) (shelf : Shelf) (m : Mirror) (offset length : UInt64)
    (around : UInt32 → Surroundings) : Prop where
  honest : ∀ index, Honest S (around index).transport
  cut : ∀ index : UInt32, offset.toNat / m.chunkSize.toNat ≤ index.toNat →
    index.toNat ≤ (offset.toNat + length.toNat - 1) / m.chunkSize.toNat →
    ∀ chunkSize, shelf.cutWith index = some chunkSize →
      SameChunk S m.chunkSize chunkSize index ∨
        m.chunkSize.toNat < (chunkOf S chunkSize index).length

/-- The condition on a step. -/
def Allowed (S : Bytes) (shelf : Shelf) : ShelfAction → Prop
  | .start .. => True
  | .read offset length _ around => ∀ m, shelf.mirror = some m → shelf.Fits S m offset length around

/-- Every chunk file of the source is a chunk, or a part of one, of the chunk size noted for
it. -/
structure Sliced (order : ByteOrder) (source : SourceIdentity) (S : Bytes) (shelf : Shelf) :
    Prop where
  mirror : ∀ m, shelf.mirror = some m → m.source = source
  file : ∀ index file, shelf.state.directory.read (chunkFileName source index) = some file →
    ∃ chunkSize, shelf.cutWith index = some chunkSize ∧
      file <+: chunkFile order source index (chunkOf S chunkSize index)

variable {shelf : Shelf} {offset length : UInt64} {dest : Bytes} {around : UInt32 → Surroundings}

theorem Sliced.serves (h : Sliced order source S shelf) (hm : shelf.mirror = some m)
    (hfits : shelf.Fits S m offset length around)
    (hfirst : offset.toNat / m.chunkSize.toNat ≤ index.toNat)
    (hlast : index.toNat ≤ (offset.toNat + length.toNat - 1) / m.chunkSize.toNat) :
    Serves order S m shelf.state.directory index := by
  have hsource := h.mirror m hm
  subst hsource
  intro file hfile
  obtain ⟨chunkSize, hcut, hbegins⟩ := h.file index file hfile
  refine ⟨_, length_chunkOf_lt .., hbegins, ?_⟩
  exact (hfits.cut index hfirst hlast chunkSize hcut).imp_left fun hsame => hsame.chunkOf_eq

/-- What a read that meets the condition does. -/
theorem Sliced.read_done (h : Sliced order source S shelf) (dest : Bytes)
    (hS : source.validator.totalSize.toNat = S.length) (hm : shelf.mirror = some m)
    (hfits : shelf.Fits S m offset length around) :
    ∃ result, m.read order around offset length dest shelf.state = some result ∧
      (∀ index, Kept order S m shelf.state.directory result.2.2.directory index) ∧
      (result.1.status = .ok → ReadsSource S offset dest result.2.1 length.toNat) := by
  have hsource := h.mirror m hm
  have hS : m.source.validator.totalSize.toNat = S.length := hsource ▸ hS
  obtain ⟨result, hresult, hkept, hok⟩ := readWith_done dest hS
    (ensures_ensureChunkLocal order hS hfits.honest fun index => h.serves hm hfits)
    (fun index => Or.inl rfl)
  exact ⟨result, hresult, hkept, fun hstatus => (hok hstatus).2⟩

theorem Sliced.step (h : Sliced order source S shelf)
    (hS : source.validator.totalSize.toNat = S.length) {a : ShelfAction} {shelf' : Shelf}
    (ha : Allowed S shelf a) (hstep : shelf.step order source a = some shelf') :
    Sliced order source S shelf' := by
  cases a with
  | start chunkSize storeValid nonce names =>
      cases hstep
      refine ⟨fun m hm => ?_, fun index file hfile => h.file index file ?_⟩
      · cases hm
        rfl
      · rw [← hfile]
        unfold opened
        dsimp only
        split_ifs
        · exact (read_cleanup (not_isTemp_chunkFileName source index) names _).symm
        · rfl
  | read offset length dest around =>
      obtain ⟨m, hm, hstep⟩ := Option.bind_eq_some_iff.mp hstep
      obtain ⟨result, hresult, hkept, -⟩ := h.read_done dest hS hm (ha m hm)
      rw [hresult] at hstep
      cases hstep
      have hsource := h.mirror m hm
      subst hsource
      refine ⟨h.mirror, fun index file hfile => ?_⟩
      have hfile : result.2.2.directory.read (chunkFileName m.source index) = some file := hfile
      show ∃ chunkSize, (if result.2.2.directory.read (chunkFileName m.source index) =
        shelf.state.directory.read (chunkFileName m.source index) then shelf.cutWith index
          else some m.chunkSize) = some chunkSize ∧ _
      split_ifs with hsame
      · exact h.file index file (hsame ▸ hfile)
      · rcases hkept index with hunchanged | ⟨file', hfile', hbegins⟩
        · exact absurd hunchanged hsame
        · rw [hfile] at hfile'
          cases hfile'
          exact ⟨_, rfl, hbegins⟩

/-- Every read of a source's mirrors that returns success is exact, in every run from a
directory without its chunk files whose reads all meet the condition. -/
theorem read_exact {start : Directory} {outcome : ReadOutcome} {dest' : Bytes} {state : MirrorState}
    (hS : source.validator.totalSize.toNat = S.length)
    (hstart : ∀ index, start.read (chunkFileName source index) = none)
    (hs : Reaches (Shelf.step order source) (Allowed S) (fresh start) shelf)
    (hm : shelf.mirror = some m) (hfits : shelf.Fits S m offset length around)
    (h : m.read order around offset length dest shelf.state = some (outcome, dest', state))
    (hok : outcome.status = .ok) :
    dest'.take length.toNat = slice S offset.toNat length.toNat ∧
      dest'.drop length.toNat = dest.drop length.toNat := by
  have hsliced : Sliced order source S shelf := by
    refine hs.invariant ⟨nofun, fun index file hfile => ?_⟩ fun _ _ _ hinv ha hstep =>
      hinv.step hS ha hstep
    have hfile : start.read (chunkFileName source index) = some file := hfile
    rw [hstart index] at hfile
    cases hfile
  obtain ⟨result, hresult, -, hreads⟩ := hsliced.read_done dest hS hm hfits
  rw [hresult] at h
  cases h
  exact ⟨(hreads hok).take, (hreads hok).drop⟩

end Shelf

/-! ## A file of another chunk size -/

/-- A source of four bytes. -/
def fourBytes : Bytes := [1, 2, 3, 4]

def fourByteSource : SourceIdentity := ⟨ascii "u", ⟨ascii "x", [], 4⟩⟩

/-- A transport that returns the bytes of the source, and a disk on which nothing fails. -/
def calm : UInt32 → Surroundings := fun _ =>
  ⟨fun request => (⟨.ok, request.length, {}, 0⟩,
    slice fourBytes request.offset.toNat request.length.toNat), {}⟩

theorem honest_calm (index : UInt32) : Honest fourBytes (calm index).transport :=
  fun _ _ _ => rfl

/-- A mirror of four-byte chunks, and then one of two-byte chunks that finds the first's chunk too
long and reads its own: the read is exact. -/
theorem read_exact_in_turn : ∃ shelf : Shelf,
    Reaches (Shelf.step .little fourByteSource) (Shelf.Allowed fourBytes)
        (Shelf.fresh (Disk.empty _)) shelf ∧
      shelf.mirror = some ⟨fourByteSource, 2, true, 1⟩ ∧ shelf.cutWith 0 = some 4 ∧
      ∃ result, Mirror.read ⟨fourByteSource, 2, true, 1⟩ .little calm 0 2 [0, 0] shelf.state =
          some result ∧ result.1.status = .ok ∧ result.2.1.take 2 = slice fourBytes 0 2 ∧
        result.2.1.drop 2 = ([0, 0] : Bytes).drop 2 := by
  have hrun : (exec (Shelf.step .little fourByteSource)
      [.start 4 true 0 [], .read 1 1 [0] calm, .start 2 true 1 []]
      (Shelf.fresh (Disk.empty _))).any (fun shelf =>
        shelf.mirror = some ⟨fourByteSource, 2, true, 1⟩ ∧ shelf.cutWith 0 = some 4 ∧
          (Mirror.read ⟨fourByteSource, 2, true, 1⟩ .little calm 0 2 [0, 0] shelf.state).any
            (fun result => result.1.status = .ok) = true) = true := by
    decide +kernel
  obtain ⟨shelf, hexec, hrest⟩ := (Option.any_eq_true _ _).mp hrun
  obtain ⟨hm, hcut, hread⟩ := of_decide_eq_true hrest
  obtain ⟨⟨outcome, dest', state⟩, hresult, hok⟩ := (Option.any_eq_true _ _).mp hread
  have hok := of_decide_eq_true hok
  have hreaches : Reaches (Shelf.step .little fourByteSource) (Shelf.Allowed fourBytes)
      (Shelf.fresh (Disk.empty _)) shelf := by
    refine reaches_of_exec .start ?_ hexec
    refine ⟨trivial, fun _ hopened => ⟨?_, fun _ _ => ⟨trivial, fun _ _ => trivial⟩⟩⟩
    cases hopened
    exact fun m hm => ⟨honest_calm, nofun⟩
  have hfits : shelf.Fits fourBytes ⟨fourByteSource, 2, true, 1⟩ 0 2 calm := by
    refine ⟨honest_calm, fun index _ hlast chunkSize hcutWith => ?_⟩
    have hindex : index = 0 := UInt32.toNat_inj.mp (Nat.le_zero.mp hlast)
    subst hindex
    cases hcut.symm.trans hcutWith
    exact Or.inr (by decide)
  have hfresh : ∀ index, (Disk.empty FileName).read (chunkFileName fourByteSource index) = none :=
    fun _ => rfl
  exact ⟨shelf, hreaches, hm, hcut, _, hresult, hok,
    Shelf.read_exact rfl hfresh hreaches hm hfits hresult hok⟩

/-- A mirror of one-byte chunks, and then one of two-byte chunks that takes a chunk of the
first for its own. -/
theorem read_foreign_chunk : ∃ shelf : Shelf,
    Reaches (Shelf.step .little fourByteSource)
        (fun _ a => ∀ offset length dest around, a = .read offset length dest around →
          ∀ index, Honest fourBytes (around index).transport)
        (Shelf.fresh (Disk.empty _)) shelf ∧
      shelf.mirror = some ⟨fourByteSource, 2, true, 1⟩ ∧
      ∃ result, Mirror.read ⟨fourByteSource, 2, true, 1⟩ .little calm 2 2 [0, 0] shelf.state =
          some result ∧ result.1.status = .ok ∧ result.2.1.take 2 ≠ slice fourBytes 2 2 := by
  have hrun : (exec (Shelf.step .little fourByteSource)
      [.start 1 true 0 [], .read 1 1 [0] calm, .start 2 true 1 []]
      (Shelf.fresh (Disk.empty _))).any (fun shelf =>
        shelf.mirror = some ⟨fourByteSource, 2, true, 1⟩ ∧
          (Mirror.read ⟨fourByteSource, 2, true, 1⟩ .little calm 2 2 [0, 0] shelf.state).any
            (fun result => result.1.status = .ok ∧ result.2.1.take 2 ≠ slice fourBytes 2 2) =
              true) = true := by
    decide +kernel
  obtain ⟨shelf, hexec, hrest⟩ := (Option.any_eq_true _ _).mp hrun
  obtain ⟨hm, hread⟩ := of_decide_eq_true hrest
  obtain ⟨result, hresult, hwrong⟩ := (Option.any_eq_true _ _).mp hread
  refine ⟨shelf, reaches_of_exec .start ?_ hexec, hm, result, hresult, of_decide_eq_true hwrong⟩
  refine ⟨nofun, fun _ _ => ⟨?_, fun _ _ => ⟨nofun, fun _ _ => trivial⟩⟩⟩
  rintro offset length dest around ⟨⟩ index
  exact honest_calm index

end TieredCache.Remote
