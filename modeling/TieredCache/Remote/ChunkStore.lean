/-
# The chunk store

`read_chunk` and `publish_chunk` over the cache directory.  A publish is a sequence of
steps on a buffered output file, each of which may fail: bytes a write has accepted may
stay in the buffer and be lost when the file is closed.
-/

import TieredCache.Math.Files
import TieredCache.Remote.ChunkFile

namespace TieredCache.Remote

open Math Math.Files

/-- The cache directory. -/
abbrev Directory := Disk FileName

/-- `read_chunk`. -/
def readChunk (order : ByteOrder) (chunkSize : UInt32) (d : Directory) (source : SourceIdentity)
    (index : UInt32) (dest : Bytes) : ReadResult × Bytes :=
  match d.read (chunkFileName source index) with
  | none => (⟨.notFound, 0⟩, dest)
  | some file => readFile order chunkSize source index file dest

theorem readChunk_of_read {order : ByteOrder} {chunkSize index : UInt32} {d : Directory}
    {source : SourceIdentity} {file dest : Bytes}
    (h : d.read (chunkFileName source index) = some file) :
    readChunk order chunkSize d source index dest =
      readFile order chunkSize source index file dest := by
  rw [readChunk, h]

theorem length_readChunk (order : ByteOrder) (chunkSize : UInt32) (d : Directory)
    (source : SourceIdentity) (index : UInt32) (dest : Bytes) :
    (readChunk order chunkSize d source index dest).2.length = dest.length := by
  unfold readChunk
  split
  · rfl
  · exact length_readFile ..

/-- What the constructor removes: of the names it has listed and could remove, those of
temporary files. -/
def cleanup (names : List FileName) (d : Directory) : Directory :=
  names.foldl (fun d name => if IsTemp name then d.unlink name else d) d

theorem read_cleanup {name : FileName} (hname : ¬ IsTemp name) (names : List FileName)
    (d : Directory) : (cleanup names d).read name = d.read name := by
  unfold cleanup
  induction names generalizing d with
  | nil => rfl
  | cons head tail ih =>
      rw [List.foldl_cons, ih]
      split_ifs with htemp
      · apply Disk.read_unlink_other
        rintro rfl
        exact hname htemp
      · rfl

/-! ## Publishing -/

/-- One call of `publish_chunk`; the store's nonce and counter name its temporary file. -/
structure PublishCall where
  source : SourceIdentity
  index : UInt32
  payload : Bytes
  nonce : UInt64
  counter : UInt64
  deriving DecidableEq, Repr

/-- How one step on a file goes: whether the call succeeds, how many bytes a write does not
accept, and how many buffered bytes do not reach the file. -/
structure Io where
  ok : Bool := true
  lost : ℕ := 0
  kept : ℕ := 0
  deriving DecidableEq, Repr

/-- The three writes. -/
inductive Part
  | header
  | validator
  | payload
  deriving DecidableEq, Repr

/-- Where in `publish_chunk` a publish is: the file it holds open, and what is still in the
buffer of that file. -/
inductive PublishPc
  | opening
  | writing (file : ℕ) (buffer : Bytes) (part : Part)
  | syncing (file : ℕ) (buffer : Bytes)
  | closing (file : ℕ) (buffer : Bytes) (ok : Bool)
  | moving (file : ℕ)
  | removing (file : ℕ)
  | returned (status : Status)
  deriving DecidableEq, Repr

namespace PublishCall

variable (call : PublishCall)

/-- `temp_path`. -/
def temp : FileName := tempName call.nonce call.counter

/-- `final_path`. -/
def final : FileName := chunkFileName call.source call.index

/-- The bytes of one write. -/
def part (order : ByteOrder) : Part → Bytes
  | .header => (publishedHeader call.source call.index call.payload).bytes order
  | .validator => canonicalValidator call.source.validator
  | .payload => call.payload

/-- All bytes of the chunk file. -/
def whole (order : ByteOrder) : Bytes := chunkFile order call.source call.index call.payload

theorem whole_eq (order : ByteOrder) :
    call.whole order =
      call.part order .header ++ (call.part order .validator ++ call.part order .payload) := rfl

end PublishCall

/-- What comes after a write that has accepted everything. -/
def Part.next (file : ℕ) (buffer : Bytes) : Part → PublishPc
  | .header => .writing file buffer .validator
  | .validator => .writing file buffer .payload
  | .payload => .syncing file buffer

/-- Write buffered bytes to the file, as far as it goes: the directory, and the bytes still
buffered. -/
def flush (d : Directory) (file : ℕ) (buffer : Bytes) (io : Io) : Directory × Bytes :=
  (d.append file (buffer.take (buffer.length - io.kept)), buffer.drop (buffer.length - io.kept))

/-- One step of `publish_chunk`; `none` once it has returned. -/
def publishStep (order : ByteOrder) (call : PublishCall) (io : Io) (d : Directory) :
    PublishPc → Option (Directory × PublishPc)
  | .opening =>
      if io.ok then
        let (file, d) := d.create call.temp
        some (d, .writing file [] .header)
      else some (d, .returned .publishFailed)
  | .writing file buffer part =>
      let data := call.part order part
      if data = [] then some (d, part.next file buffer)
      else
        let accepted := data.take (data.length - io.lost)
        let (d, buffer) := flush d file (buffer ++ accepted) io
        if accepted.length = data.length then some (d, part.next file buffer)
        else some (d, .closing file buffer false)
  | .syncing file buffer =>
      -- The result of `fflush` is not looked at.
      let (d, buffer) := flush d file buffer io
      some (d, .closing file buffer io.ok)
  | .closing file buffer ok =>
      let (d, _) := flush d file buffer io
      some (d, if ok then .moving file else .removing file)
  | .moving file =>
      if io.ok then
        match d.rename call.temp call.final with
        | some d => some (d, .returned .ok)
        | none => some (d, .removing file)
      else some (d, .removing file)
  | .removing _ => some (if io.ok then d.unlink call.temp else d, .returned .publishFailed)
  | .returned _ => none

/-- How every step of one publish goes. -/
structure PublishIo where
  opened : Io := {}
  header : Io := {}
  validator : Io := {}
  payload : Io := {}
  synced : Io := {}
  closed : Io := {}
  renamed : Io := {}
  removed : Io := {}
  deriving DecidableEq, Repr

/-- The outcome for the step a publish is at. -/
def PublishIo.step (io : PublishIo) : PublishPc → Io
  | .opening => io.opened
  | .writing _ _ .header => io.header
  | .writing _ _ .validator => io.validator
  | .writing _ _ .payload => io.payload
  | .syncing _ _ => io.synced
  | .closing _ _ _ => io.closed
  | .moving _ => io.renamed
  | .removing _ => io.removed
  | .returned _ => {}

/-- Directory and program counter after some steps. -/
def publishRun (order : ByteOrder) (call : PublishCall) (io : PublishIo) (d : Directory) :
    ℕ → Directory × PublishPc
  | 0 => (d, .opening)
  | n + 1 =>
      let (d', pc) := publishRun order call io d n
      (publishStep order call (io.step pc) d' pc).getD (d', pc)

/-- The steps a publish takes at most. -/
def publishSteps : ℕ := 8

/-- `publish_chunk` as a whole. -/
def publishChunk (order : ByteOrder) (chunkSize : UInt32) (call : PublishCall) (io : PublishIo)
    (d : Directory) : Status × Directory :=
  if chunkSize.toNat < call.payload.length then (.invalidArgument, d)
  else
    match publishRun order call io d publishSteps with
    | (d', .returned status) => (status, d')
    | (d', _) => (.ioError, d')

variable {order : ByteOrder} {call : PublishCall} {io : Io} {d d' : Directory}
  {pc pc' : PublishPc}

/-- A chunk file is not the temporary file of a publish. -/
theorem chunkFileName_ne_temp (source : SourceIdentity) (index : UInt32) (call : PublishCall) :
    chunkFileName source index ≠ call.temp := by
  intro h
  apply not_isTemp_chunkFileName source index
  rw [h]
  exact isTemp_tempName ..

theorem PublishCall.temp_ne_final (call : PublishCall) : call.temp ≠ call.final :=
  (chunkFileName_ne_temp call.source call.index call).symm

namespace PublishPc

/-- The file a publish in progress holds. -/
def file : PublishPc → Option ℕ
  | .writing file _ _ => some file
  | .syncing file _ => some file
  | .closing file _ _ => some file
  | .moving file => some file
  | .removing file => some file
  | _ => none

/-- The bytes before a write. -/
def before (order : ByteOrder) (call : PublishCall) : Part → Bytes
  | .header => []
  | .validator => call.part order .header
  | .payload => call.part order .header ++ call.part order .validator

/-- What the file holds and what is buffered, by where the publish is.  As long as no write
has failed, both together are what has been written so far. -/
def Written (order : ByteOrder) (call : PublishCall) (d : Directory) : PublishPc → Prop
  | .writing file buffer part => d.contents file ++ buffer = before order call part
  | .syncing file buffer => d.contents file ++ buffer = call.whole order
  | .closing file buffer ok => ok = true → d.contents file ++ buffer = call.whole order
  | .moving file => d.contents file <+: call.whole order
  | _ => True

/-- How many steps are left at most. -/
def stepsLeft : PublishPc → ℕ
  | .opening => 8
  | .writing _ _ .header => 7
  | .writing _ _ .validator => 6
  | .writing _ _ .payload => 5
  | .syncing _ _ => 4
  | .closing _ _ _ => 3
  | .moving _ => 2
  | .removing _ => 1
  | .returned _ => 0

theorem stepsLeft_le (pc : PublishPc) : pc.stepsLeft ≤ publishSteps := by
  cases pc with
  | writing file buffer part => cases part <;> simp [stepsLeft, publishSteps]
  | _ => simp [stepsLeft, publishSteps]

end PublishPc

/-! ## What one step does -/

/-- What a step does to the directory. -/
inductive PublishMove (call : PublishCall) (d : Directory) (pc : PublishPc) :
    Directory → PublishPc → Prop
  | stays (pc' : PublishPc) (hfile : pc'.file = pc.file ∨ pc'.file = none)
      (hok : pc' ≠ .returned .ok) : PublishMove call d pc d pc'
  | created (hpc : pc = .opening) :
      PublishMove call d pc (d.create call.temp).2 (.writing (d.create call.temp).1 [] .header)
  | appended (file : ℕ) (bytes : Bytes) (pc' : PublishPc) (hfile : pc.file = some file)
      (hfile' : pc'.file = some file) : PublishMove call d pc (d.append file bytes) pc'
  | renamed (file : ℕ) (d' : Directory) (hpc : pc = .moving file)
      (h : d.rename call.temp call.final = some d') : PublishMove call d pc d' (.returned .ok)
  | unlinked (file : ℕ) (hpc : pc = .removing file) :
      PublishMove call d pc (d.unlink call.temp) (.returned .publishFailed)

theorem Part.next_file (file : ℕ) (buffer : Bytes) (part : Part) :
    (part.next file buffer).file = some file := by
  cases part <;> rfl

theorem publishStep_move (h : publishStep order call io d pc = some (d', pc')) :
    PublishMove call d pc d' pc' := by
  cases pc with
  | opening =>
      unfold publishStep at h
      split_ifs at h <;> cases h
      · exact .created rfl
      · exact .stays _ (Or.inr rfl) nofun
  | writing file buffer part =>
      unfold publishStep at h
      dsimp only at h
      split_ifs at h <;> cases h
      · refine .stays _ (Or.inl (part.next_file file buffer)) ?_
        cases part <;> nofun
      · exact .appended file _ _ rfl (part.next_file file _)
      · exact .appended file _ _ rfl rfl
  | syncing file buffer =>
      cases h
      exact .appended file _ _ rfl rfl
  | closing file buffer ok =>
      cases h
      refine .appended file _ _ rfl ?_
      cases ok <;> rfl
  | moving file =>
      unfold publishStep at h
      dsimp only at h
      split_ifs at h
      · split at h <;> cases h
        · rename_i hrename
          exact .renamed file d' rfl hrename
        · exact .stays _ (Or.inl rfl) nofun
      · cases h
        exact .stays _ (Or.inl rfl) nofun
  | removing file =>
      unfold publishStep at h
      split_ifs at h <;> cases h
      · exact .unlinked file rfl
      · exact .stays _ (Or.inr rfl) nofun
  | returned status => cases h

/-- A flush moves bytes from the buffer to the file. -/
theorem contents_flush (d : Directory) (file : ℕ) (buffer : Bytes) (io : Io) :
    (flush d file buffer io).1.contents file ++ (flush d file buffer io).2 =
      d.contents file ++ buffer := by
  rw [flush, Disk.contents_append, List.append_assoc, List.take_append_drop]

theorem flush_eq_nil_iff {file : ℕ} {buffer : Bytes} :
    (flush d file buffer io).2 = [] ↔ buffer = [] ∨ io.kept = 0 := by
  rw [flush, List.drop_eq_nil_iff, ← List.length_eq_zero_iff]
  omega

/-- A write that has accepted everything. -/
theorem Part.next_written {file : ℕ} {buffer : Bytes} {part : Part}
    (h : d.contents file ++ buffer = PublishPc.before order call part ++ call.part order part) :
    PublishPc.Written order call d (part.next file buffer) := by
  cases part with
  | header =>
      rw [PublishPc.before, List.nil_append] at h
      exact h
  | validator => exact h
  | payload =>
      rw [PublishPc.before, List.append_assoc, ← call.whole_eq] at h
      exact h

/-- Every step keeps track of what has been written. -/
theorem PublishPc.Written.step (h : PublishPc.Written order call d pc)
    (hstep : publishStep order call io d pc = some (d', pc')) :
    PublishPc.Written order call d' pc' := by
  cases pc with
  | opening =>
      unfold publishStep at hstep
      split_ifs at hstep <;> cases hstep
      · show (d.create call.temp).2.contents (d.create call.temp).1 ++ [] = []
        rw [(d.create_links call.temp).2]
        rfl
      · trivial
  | writing file buffer part =>
      have hwritten : d.contents file ++ buffer = PublishPc.before order call part := h
      unfold publishStep at hstep
      dsimp only at hstep
      split_ifs at hstep with hempty hall <;> cases hstep
      · apply Part.next_written
        rw [hwritten, hempty, List.append_nil]
      · apply Part.next_written
        have haccepted : (call.part order part).take ((call.part order part).length - io.lost) =
            call.part order part :=
          (List.take_prefix _ _).eq_of_length hall
        rw [contents_flush, haccepted, ← List.append_assoc, hwritten]
      · exact nofun
  | syncing file buffer =>
      cases hstep
      intro _
      exact (contents_flush d file buffer io).trans h
  | closing file buffer ok =>
      cases hstep
      cases ok with
      | false => trivial
      | true =>
          exact ⟨(flush d file buffer io).2, (contents_flush d file buffer io).trans (h rfl)⟩
  | moving file =>
      unfold publishStep at hstep
      dsimp only at hstep
      split_ifs at hstep
      · split at hstep <;> cases hstep <;> trivial
      · cases hstep
        trivial
  | removing file =>
      cases hstep
      trivial
  | returned status => cases hstep

/-- Every step leaves fewer steps. -/
theorem publishStep_stepsLeft (h : publishStep order call io d pc = some (d', pc')) :
    pc'.stepsLeft < pc.stepsLeft := by
  cases pc with
  | opening =>
      unfold publishStep at h
      split_ifs at h <;> cases h <;> simp [PublishPc.stepsLeft]
  | writing file buffer part =>
      unfold publishStep at h
      dsimp only at h
      cases part <;> split_ifs at h <;> cases h <;>
        simp [Part.next, PublishPc.stepsLeft]
  | syncing file buffer =>
      cases h
      simp [PublishPc.stepsLeft]
  | closing file buffer ok =>
      cases h
      cases ok <;> simp [PublishPc.stepsLeft]
  | moving file =>
      unfold publishStep at h
      dsimp only at h
      split_ifs at h
      · split at h <;> cases h <;> simp [PublishPc.stepsLeft]
      · cases h
        simp [PublishPc.stepsLeft]
  | removing file =>
      cases h
      simp [PublishPc.stepsLeft]
  | returned status => cases h

/-- A publish goes on until it has returned. -/
theorem publishStep_eq_none_iff :
    publishStep order call io d pc = none ↔ ∃ status, pc = .returned status := by
  cases pc with
  | returned status => exact ⟨fun _ => ⟨status, rfl⟩, fun _ => rfl⟩
  | opening =>
      unfold publishStep
      split_ifs <;> simp
  | writing file buffer part =>
      unfold publishStep
      dsimp only
      split_ifs <;> simp
  | syncing file buffer => simp [publishStep]
  | closing file buffer ok => simp [publishStep]
  | moving file =>
      unfold publishStep
      dsimp only
      split_ifs
      · split <;> simp
      · simp
  | removing file => simp [publishStep]

end TieredCache.Remote
