/-
# A publish from start to end

What a whole `publish_chunk` does for every choice of the steps that fail.  The result
of the flush is not looked at, so a publish can return success and have lost bytes.
-/

import TieredCache.Remote.ChunkStore

namespace TieredCache.Remote

open Math Math.Files

variable {order : ByteOrder} {chunkSize : UInt32} {call : PublishCall} {io : PublishIo}
  {d d' : Directory} {pc pc' : PublishPc}

namespace PublishIo

/-- Every call whose result the publish looks at succeeds. -/
structure Succeeds (io : PublishIo) (call : PublishCall) : Prop where
  opened : io.opened.ok = true
  header : io.header.lost = 0
  validator : io.validator.lost = 0
  payload : call.payload = [] ∨ io.payload.lost = 0
  synced : io.synced.ok = true
  renamed : io.renamed.ok = true

/-- Bytes are still in the buffer when all writes are done. -/
def Buffers (io : PublishIo) (call : PublishCall) : Prop :=
  call.payload = [] ∧ 0 < io.validator.kept ∨ call.payload ≠ [] ∧ 0 < io.payload.kept

/-- Bytes are still in the buffer when the file has been flushed and closed. -/
def Leaves (io : PublishIo) (call : PublishCall) : Prop :=
  io.Buffers call ∧ 0 < io.synced.kept ∧ 0 < io.closed.kept

instance (io : PublishIo) (call : PublishCall) : Decidable (io.Buffers call) :=
  inferInstanceAs (Decidable (_ ∨ _))

instance (io : PublishIo) (call : PublishCall) : Decidable (io.Leaves call) :=
  inferInstanceAs (Decidable (_ ∧ _ ∧ _))

/-- What the choices have been so far, by where the publish is. -/
def Reached (io : PublishIo) (call : PublishCall) : PublishPc → Prop
  | .opening => True
  | .writing _ buffer .header => buffer = [] ∧ io.opened.ok = true
  | .writing _ buffer .validator =>
      (buffer ≠ [] ↔ 0 < io.header.kept) ∧ io.opened.ok = true ∧ io.header.lost = 0
  | .writing _ buffer .payload =>
      (buffer ≠ [] ↔ 0 < io.validator.kept) ∧ io.opened.ok = true ∧ io.header.lost = 0 ∧
        io.validator.lost = 0
  | .syncing _ buffer =>
      (buffer ≠ [] ↔ io.Buffers call) ∧ io.opened.ok = true ∧ io.header.lost = 0 ∧
        io.validator.lost = 0 ∧ (call.payload = [] ∨ io.payload.lost = 0)
  | .closing _ buffer true =>
      (buffer ≠ [] ↔ io.Buffers call ∧ 0 < io.synced.kept) ∧ io.opened.ok = true ∧
        io.header.lost = 0 ∧ io.validator.lost = 0 ∧ (call.payload = [] ∨ io.payload.lost = 0) ∧
        io.synced.ok = true
  | .closing _ _ false => ¬ io.Succeeds call ∧ io.opened.ok = true
  | .moving _ =>
      io.opened.ok = true ∧ io.header.lost = 0 ∧ io.validator.lost = 0 ∧
        (call.payload = [] ∨ io.payload.lost = 0) ∧ io.synced.ok = true
  | .removing _ => ¬ io.Succeeds call ∧ io.opened.ok = true
  | .returned status => if status = .ok then io.Succeeds call else ¬ io.Succeeds call

end PublishIo

/-- Directory and choices so far. -/
structure RunInv (order : ByteOrder) (call : PublishCall) (io : PublishIo) (d : Directory)
    (s : Directory × PublishPc) : Prop where
  written : PublishPc.Written order call s.1 s.2
  reached : io.Reached call s.2
  opening : s.2 = .opening → s.1 = d
  linked : ∀ file, s.2.file = some file → s.1.links call.temp = some file
  /-- Until the rename no name but the temporary one has changed. -/
  others : s.2 ≠ .returned .ok → ∀ name, name ≠ call.temp → s.1.read name = d.read name
  moving : ∀ file, s.2 = .moving file →
    (s.1.contents file = call.whole order ↔ ¬ io.Leaves call)
  /-- After the rename the file is complete unless bytes were left in the buffer. -/
  renamed : s.2 = .returned .ok →
    (∃ file, s.1.read call.final = some file ∧ file <+: call.whole order ∧
      (file = call.whole order ↔ ¬ io.Leaves call)) ∧ s.1.read call.temp = none ∧
      ∀ name, name ≠ call.temp → name ≠ call.final → s.1.read name = d.read name
  /-- A publish that has failed has removed its temporary file, if it could. -/
  removed : ∀ status, s.2 = .returned status → status ≠ .ok →
    status = .publishFailed ∧ (io.opened.ok = false → s.1 = d) ∧
      (io.opened.ok = true → io.removed.ok = true → s.1.read call.temp = none)

/-! ## The choices behind a program counter -/

/-- A write that has accepted everything leaves bytes in the buffer if it keeps some. -/
theorem flush_ne_nil_iff {file : ℕ} {buffer data : Bytes} {io : Io} (hdata : data ≠ []) :
    (flush d file (buffer ++ data) io).2 ≠ [] ↔ 0 < io.kept := by
  rw [ne_eq, flush_eq_nil_iff, not_or, Nat.pos_iff_ne_zero]
  exact ⟨fun h => h.2, fun h => ⟨fun hnil => hdata (List.append_eq_nil_iff.mp hnil).2, h⟩⟩

theorem length_take_sub_eq_iff {data : Bytes} {lost : ℕ} (hdata : data ≠ []) :
    (data.take (data.length - lost)).length = data.length ↔ lost = 0 := by
  have hpos := List.length_pos_of_ne_nil hdata
  rw [List.length_take]
  omega

/-- A flush leaves bytes in the buffer if there were some and it keeps some. -/
theorem flush_again_ne_nil_iff (d : Directory) (file : ℕ) (buffer : Bytes) (io : Io) :
    (flush d file buffer io).2 ≠ [] ↔ buffer ≠ [] ∧ 0 < io.kept := by
  rw [ne_eq, flush_eq_nil_iff, not_or, Nat.pos_iff_ne_zero]

/-- A write that loses nothing leaves bytes in the buffer if it keeps some. -/
theorem flush_accepted_ne_nil_iff {file : ℕ} {buffer data : Bytes} {io : Io} (hdata : data ≠ [])
    (hlost : io.lost = 0) :
    (flush d file (buffer ++ data.take (data.length - io.lost)) io).2 ≠ [] ↔ 0 < io.kept := by
  rw [hlost, Nat.sub_zero, List.take_length]
  exact flush_ne_nil_iff hdata

theorem part_header_ne_nil (order : ByteOrder) (call : PublishCall) :
    call.part order .header ≠ [] := by
  intro h
  have hlength := ChunkFileHeader.length_bytes order
    (publishedHeader call.source call.index call.payload)
  have h : (publishedHeader call.source call.index call.payload).bytes order = [] := h
  rw [h] at hlength
  cases hlength

theorem part_validator_ne_nil (order : ByteOrder) (call : PublishCall) :
    call.part order .validator ≠ [] := by
  show canonicalValidator call.source.validator ≠ []
  simp [canonicalValidator, ascii]

theorem PublishIo.Reached.step (h : io.Reached call pc)
    (hlinked : ∀ file, pc.file = some file → d.links call.temp = some file)
    (hstep : publishStep order call (io.step pc) d pc = some (d', pc')) : io.Reached call pc' := by
  cases pc with
  | opening =>
      unfold publishStep at hstep
      split_ifs at hstep with hok <;> cases hstep
      · exact ⟨rfl, hok⟩
      · exact fun hsucceeds => hok hsucceeds.opened
  | writing file buffer part =>
      unfold publishStep at hstep
      cases part with
      | header =>
          obtain ⟨rfl, hopened⟩ := h
          have hdata := part_header_ne_nil order call
          dsimp only at hstep
          rw [if_neg hdata] at hstep
          split_ifs at hstep with hall <;> cases hstep <;>
            rw [length_take_sub_eq_iff hdata] at hall
          · refine ⟨?_, hopened, hall⟩
            exact flush_accepted_ne_nil_iff hdata hall
          · exact ⟨fun hsucceeds => hall hsucceeds.header, hopened⟩
      | validator =>
          obtain ⟨-, hopened, hheader⟩ := h
          have hdata := part_validator_ne_nil order call
          dsimp only at hstep
          rw [if_neg hdata] at hstep
          split_ifs at hstep with hall <;> cases hstep <;>
            rw [length_take_sub_eq_iff hdata] at hall
          · refine ⟨?_, hopened, hheader, hall⟩
            exact flush_accepted_ne_nil_iff hdata hall
          · exact ⟨fun hsucceeds => hall hsucceeds.validator, hopened⟩
      | payload =>
          obtain ⟨hbuffer, hopened, hheader, hvalidator⟩ := h
          dsimp only at hstep
          split_ifs at hstep with hdata hall <;> cases hstep
          · refine ⟨?_, hopened, hheader, hvalidator, Or.inl hdata⟩
            rw [hbuffer, PublishIo.Buffers]
            have hpayload : call.payload = [] := hdata
            simp [hpayload]
          · rw [length_take_sub_eq_iff hdata] at hall
            refine ⟨?_, hopened, hheader, hvalidator, Or.inr hall⟩
            have hpayload : call.payload ≠ [] := hdata
            refine (flush_accepted_ne_nil_iff hdata hall).trans ?_
            simp [PublishIo.Buffers, hpayload, PublishIo.step]
          · rw [length_take_sub_eq_iff hdata] at hall
            refine ⟨fun hsucceeds => hsucceeds.payload.elim ?_ hall, hopened⟩
            exact hdata
  | syncing file buffer =>
      obtain ⟨hbuffer, hopened, hheader, hvalidator, hpayload⟩ := h
      cases hstep
      cases hsynced : io.synced.ok with
      | true =>
          show PublishIo.Reached io call (.closing file _ io.synced.ok)
          rw [hsynced]
          refine ⟨?_, hopened, hheader, hvalidator, hpayload, hsynced⟩
          exact (flush_again_ne_nil_iff d file buffer io.synced).trans (and_congr_left fun _ => hbuffer)
      | false =>
          show PublishIo.Reached io call (.closing file _ io.synced.ok)
          rw [hsynced]
          refine ⟨fun hsucceeds => ?_, hopened⟩
          rw [hsucceeds.synced] at hsynced
          cases hsynced
  | closing file buffer ok =>
      cases hstep
      cases ok with
      | true => exact h.2
      | false => exact h
  | moving file =>
      obtain ⟨hopened, hheader, hvalidator, hpayload, hsynced⟩ := h
      unfold publishStep at hstep
      dsimp only at hstep
      split_ifs at hstep with hok
      · split at hstep <;> cases hstep
        · exact ⟨hopened, hheader, hvalidator, hpayload, hsynced, hok⟩
        · rename_i hrename
          rw [Disk.rename_eq_none_iff, hlinked file rfl] at hrename
          cases hrename
      · cases hstep
        exact ⟨fun hsucceeds => hok hsucceeds.renamed, hopened⟩
  | removing file =>
      cases hstep
      exact h.1
  | returned status => cases hstep

/-! ## The run -/

namespace RunInv

theorem start : RunInv order call io d (d, .opening) where
  written := trivial
  reached := trivial
  opening := fun _ => rfl
  linked := nofun
  others := fun _ _ _ => rfl
  moving := nofun
  renamed := nofun
  removed := nofun

/-- A publish in progress holds the file of its temporary name. -/
theorem linked_step (h : RunInv order call io d (d', pc)) {d'' : Directory}
    (hmove : PublishMove call d' pc d'' pc') {file : ℕ} (hfile : pc'.file = some file) :
    d''.links call.temp = some file := by
  cases hmove with
  | stays _ hsame _ =>
      rcases hsame with hsame | hnone
      · exact h.linked file (hsame.symm.trans hfile)
      · rw [hnone] at hfile
        cases hfile
  | created _ =>
      cases hfile
      exact (d'.create_links call.temp).1
  | appended held bytes _ hheld hheld' =>
      rw [hheld'] at hfile
      cases hfile
      exact h.linked file hheld
  | renamed => cases hfile
  | unlinked => cases hfile

/-- Before the rename only the temporary name changes. -/
theorem others_step (h : RunInv order call io d (d', pc)) {d'' : Directory}
    (hmove : PublishMove call d' pc d'' pc') (hnot : pc' ≠ .returned .ok) {name : FileName}
    (hname : name ≠ call.temp) : d''.read name = d'.read name := by
  cases hmove with
  | stays => rfl
  | created _ => exact Disk.read_create_other hname
  | appended file bytes _ hheld _ =>
      apply Disk.read_append_other
      intro hlink
      exact hname (d'.alone name call.temp file hlink (h.linked file hheld))
  | renamed => exact absurd rfl hnot
  | unlinked => exact Disk.read_unlink_other hname

/-- The file is complete before the rename unless bytes were left in the buffer. -/
theorem moving_step (h : RunInv order call io d (d', pc)) {d'' : Directory} {file : ℕ}
    (hstep : publishStep order call (io.step pc) d' pc = some (d'', .moving file)) :
    d''.contents file = call.whole order ↔ ¬ io.Leaves call := by
  cases pc with
  | closing held buffer ok =>
      cases ok with
      | false => cases hstep
      | true =>
          cases hstep
          have hwritten := (contents_flush d' file buffer io.closed).trans (h.written rfl)
          have hleft : (flush d' file buffer io.closed).2 = [] ↔ ¬ io.Leaves call := by
            rw [← not_iff_not, not_not, ← ne_eq, flush_again_ne_nil_iff, h.reached.1, and_assoc]
            rfl
          rw [← hleft]
          refine ⟨fun hwhole => ?_, fun hnil => ?_⟩
          · have hwhole : (flush d' file buffer io.closed).1.contents file = call.whole order :=
              hwhole
            rw [hwhole] at hwritten
            exact List.append_right_eq_self.mp hwritten
          · rw [hnil, List.append_nil] at hwritten
            exact hwritten
  | opening =>
      unfold publishStep at hstep
      split_ifs at hstep <;> cases hstep
  | writing held buffer part =>
      unfold publishStep at hstep
      dsimp only at hstep
      cases part <;> split_ifs at hstep <;> cases hstep
  | syncing held buffer => cases hstep
  | moving held =>
      unfold publishStep at hstep
      dsimp only at hstep
      split_ifs at hstep
      · split at hstep <;> cases hstep
      · cases hstep
  | removing held => cases hstep
  | returned status => cases hstep

/-- What the rename leaves behind. -/
theorem renamed_step (h : RunInv order call io d (d', pc)) {d'' : Directory}
    (hmove : PublishMove call d' pc d'' (.returned .ok)) :
    (∃ file, d''.read call.final = some file ∧ file <+: call.whole order ∧
      (file = call.whole order ↔ ¬ io.Leaves call)) ∧ d''.read call.temp = none ∧
      ∀ name, name ≠ call.temp → name ≠ call.final → d''.read name = d.read name := by
  cases hmove with
  | stays _ _ hok => exact absurd rfl hok
  | appended file bytes _ _ hheld => cases hheld
  | renamed file _ hpc hrename =>
      subst hpc
      obtain ⟨moved, hsource, htarget, hgone, hkept, hcontents⟩ :=
        Disk.rename_eq_some hrename call.temp_ne_final
      have hmoved := hsource.symm.trans (h.linked file rfl)
      cases hmoved
      refine ⟨⟨d'.contents file, ?_, h.written, h.moving file rfl⟩, Disk.read_eq_none_iff.mpr hgone,
        fun name hs ht => ?_⟩
      · rw [Disk.read_of_links htarget, hcontents]
      · rw [← h.others nofun name hs, Disk.read, Disk.read, hkept name hs ht, hcontents]

/-- What a failing step leaves behind. -/
theorem removed_step (h : RunInv order call io d (d', pc)) {d'' : Directory} {status : Status}
    (hstep : publishStep order call (io.step pc) d' pc = some (d'', .returned status))
    (hfailed : status ≠ .ok) :
    status = .publishFailed ∧ (io.opened.ok = false → d'' = d) ∧
      (io.opened.ok = true → io.removed.ok = true → d''.read call.temp = none) := by
  cases pc with
  | opening =>
      unfold publishStep at hstep
      split_ifs at hstep with hok <;> cases hstep
      exact ⟨rfl, fun _ => h.opening rfl, fun hopened => absurd hopened hok⟩
  | writing held buffer part =>
      unfold publishStep at hstep
      dsimp only at hstep
      cases part <;> split_ifs at hstep <;> cases hstep
  | syncing held buffer => cases hstep
  | closing held buffer ok => cases ok <;> cases hstep
  | moving held =>
      unfold publishStep at hstep
      dsimp only at hstep
      split_ifs at hstep
      · split at hstep <;> cases hstep
        exact absurd rfl hfailed
      · cases hstep
  | removing held =>
      cases hstep
      refine ⟨rfl, fun hclosed => ?_, fun _ hremoved => ?_⟩
      · rw [h.reached.2] at hclosed
        cases hclosed
      · show (if io.removed.ok then d'.unlink call.temp else d').read call.temp = none
        rw [if_pos hremoved]
        exact Disk.read_unlink_self ..
  | returned status => cases hstep

theorem step {s s' : Directory × PublishPc} (h : RunInv order call io d s)
    (hstep : publishStep order call (io.step s.2) s.1 s.2 = some s') :
    RunInv order call io d s' := by
  obtain ⟨d', pc⟩ := s
  obtain ⟨d'', pc'⟩ := s'
  have hmove := publishStep_move hstep
  have hnot : pc ≠ .returned .ok := by
    rintro rfl
    cases hstep
  refine ⟨h.written.step hstep, h.reached.step h.linked hstep, ?_, fun file hfile =>
    h.linked_step hmove hfile, fun hok name hname => (h.others_step hmove hok hname).trans
      (h.others hnot name hname), ?_, ?_, ?_⟩
  · rintro rfl
    have hleft := lt_of_lt_of_le (publishStep_stepsLeft hstep) (PublishPc.stepsLeft_le pc)
    exact absurd hleft (lt_irrefl _)
  · rintro file rfl
    exact h.moving_step hstep
  · rintro rfl
    exact h.renamed_step hmove
  · rintro status rfl hfailed
    exact h.removed_step hstep hfailed

end RunInv

theorem publishRun_succ (order : ByteOrder) (call : PublishCall) (io : PublishIo) (d : Directory)
    (n : ℕ) :
    publishRun order call io d (n + 1) =
      (publishStep order call (io.step (publishRun order call io d n).2)
        (publishRun order call io d n).1 (publishRun order call io d n).2).getD
        (publishRun order call io d n) := rfl

/-- Every state of a publish is in order. -/
theorem runInv_publishRun (order : ByteOrder) (call : PublishCall) (io : PublishIo)
    (d : Directory) (n : ℕ) : RunInv order call io d (publishRun order call io d n) := by
  induction n with
  | zero => exact .start
  | succ n ih =>
      rw [publishRun_succ]
      cases hstep : publishStep order call (io.step (publishRun order call io d n).2)
          (publishRun order call io d n).1 (publishRun order call io d n).2 with
      | none => exact ih
      | some s' => exact ih.step hstep

/-- A publish returns within its steps. -/
theorem publishRun_stepsLeft (order : ByteOrder) (call : PublishCall) (io : PublishIo)
    (d : Directory) (n : ℕ) : (publishRun order call io d n).2.stepsLeft ≤ publishSteps - n := by
  induction n with
  | zero => exact le_rfl
  | succ n ih =>
      rw [publishRun_succ]
      cases hstep : publishStep order call (io.step (publishRun order call io d n).2)
          (publishRun order call io d n).1 (publishRun order call io d n).2 with
      | none =>
          obtain ⟨status, hreturned⟩ := publishStep_eq_none_iff.mp hstep
          rw [Option.getD_none, hreturned]
          exact Nat.zero_le _
      | some s' =>
          have hleft := publishStep_stepsLeft hstep
          rw [Option.getD_some]
          omega

theorem publishRun_returned (order : ByteOrder) (call : PublishCall) (io : PublishIo)
    (d : Directory) : ∃ status, (publishRun order call io d publishSteps).2 = .returned status := by
  have hleft := publishRun_stepsLeft order call io d publishSteps
  rw [Nat.sub_self, Nat.le_zero] at hleft
  cases hpc : (publishRun order call io d publishSteps).2 with
  | returned status => exact ⟨status, rfl⟩
  | writing file buffer part =>
      rw [hpc] at hleft
      cases part <;> cases hleft
  | _ =>
      rw [hpc] at hleft
      cases hleft

/-! ## The call as a whole -/

theorem publishChunk_eq (order : ByteOrder) (io : PublishIo) (d : Directory)
    (hsize : ¬ chunkSize.toNat < call.payload.length) :
    ∃ status, (publishRun order call io d publishSteps).2 = .returned status ∧
      publishChunk order chunkSize call io d =
        (status, (publishRun order call io d publishSteps).1) := by
  obtain ⟨status, hreturned⟩ := publishRun_returned order call io d
  refine ⟨status, hreturned, ?_⟩
  rw [publishChunk, if_neg hsize]
  split
  · rename_i d' status' hrun
    rw [hrun] at hreturned ⊢
    cases hreturned
    rfl
  · rename_i d' pc hnot hrun
    rw [hrun] at hreturned
    exact absurd hreturned (hnot status)

/-- What a publish that has returned success leaves behind. -/
theorem publishChunk_ok {d' : Directory}
    (h : publishChunk order chunkSize call io d = (.ok, d')) :
    call.payload.length ≤ chunkSize.toNat ∧ io.Succeeds call ∧
      (∃ file, d'.read call.final = some file ∧ file <+: call.whole order ∧
        (file = call.whole order ↔ ¬ io.Leaves call)) ∧ d'.read call.temp = none ∧
      ∀ name, name ≠ call.temp → name ≠ call.final → d'.read name = d.read name := by
  by_cases hsize : chunkSize.toNat < call.payload.length
  · rw [publishChunk, if_pos hsize] at h
    cases h
  · obtain ⟨status, hreturned, heq⟩ := publishChunk_eq order io d hsize
    rw [heq] at h
    cases h
    have hinv := runInv_publishRun order call io d publishSteps
    have hreached := hinv.reached
    rw [hreturned] at hreached
    exact ⟨not_lt.mp hsize, hreached, hinv.renamed hreturned⟩

/-- What a publish that has failed leaves behind. -/
theorem publishChunk_failed {d' : Directory} {status : Status}
    (h : publishChunk order chunkSize call io d = (status, d')) (hfailed : status ≠ .ok) :
    (∀ name, name ≠ call.temp → d'.read name = d.read name) ∧
      (chunkSize.toNat < call.payload.length ∨ io.opened.ok = false → d' = d) ∧
      (call.payload.length ≤ chunkSize.toNat → io.opened.ok = true → io.removed.ok = true →
        d'.read call.temp = none) := by
  by_cases hsize : chunkSize.toNat < call.payload.length
  · rw [publishChunk, if_pos hsize] at h
    cases h
    exact ⟨fun _ _ => rfl, fun _ => rfl, fun hle => absurd hsize (not_lt.mpr hle)⟩
  · obtain ⟨status', hreturned, heq⟩ := publishChunk_eq order io d hsize
    rw [heq] at h
    cases h
    have hinv := runInv_publishRun order call io d publishSteps
    have hnot : (publishRun order call io d publishSteps).2 ≠ .returned .ok := by
      rw [hreturned]
      rintro ⟨⟩
      exact hfailed rfl
    obtain ⟨-, hunopened, hremoved⟩ := hinv.removed _ hreturned hfailed
    exact ⟨hinv.others hnot, fun hcase => hunopened (hcase.resolve_left hsize), fun _ => hremoved⟩

/-- A publish succeeds exactly if the payload fits and every result it looks at is good. -/
theorem publishChunk_status_ok_iff :
    (publishChunk order chunkSize call io d).1 = .ok ↔
      call.payload.length ≤ chunkSize.toNat ∧ io.Succeeds call := by
  by_cases hsize : chunkSize.toNat < call.payload.length
  · rw [publishChunk, if_pos hsize]
    exact iff_of_false nofun fun h => absurd hsize (not_lt.mpr h.1)
  · obtain ⟨status, hreturned, heq⟩ := publishChunk_eq order io d hsize
    have hreached := (runInv_publishRun order call io d publishSteps).reached
    rw [hreturned] at hreached
    rw [heq]
    show status = .ok ↔ _
    unfold PublishIo.Reached at hreached
    dsimp only at hreached
    split_ifs at hreached with hok
    · exact ⟨fun _ => ⟨not_lt.mp hsize, hreached⟩, fun _ => hok⟩
    · exact ⟨fun h => absurd h hok, fun h => absurd h.2 hreached⟩

/-- A publish that succeeds and loses nothing leaves the complete file. -/
theorem publishChunk_complete (hsize : call.payload.length ≤ chunkSize.toNat)
    (hsucceeds : io.Succeeds call) (hleaves : ¬ io.Leaves call) :
    (publishChunk order chunkSize call io d).1 = .ok ∧
      (publishChunk order chunkSize call io d).2.read call.final = some (call.whole order) := by
  have hok : (publishChunk order chunkSize call io d).1 = .ok :=
    publishChunk_status_ok_iff.mpr ⟨hsize, hsucceeds⟩
  obtain ⟨-, -, ⟨file, hread, -, hwhole⟩, -⟩ := publishChunk_ok (Prod.ext hok rfl)
  rw [hwhole.mpr hleaves] at hread
  exact ⟨hok, hread⟩

/-- A publish in which nothing fails leaves the complete file. -/
theorem publishChunk_undisturbed (order : ByteOrder) (d : Directory)
    (hsize : call.payload.length ≤ chunkSize.toNat) :
    (publishChunk order chunkSize call {} d).1 = .ok ∧
      (publishChunk order chunkSize call {} d).2.read call.final = some (call.whole order) :=
  publishChunk_complete hsize ⟨rfl, rfl, rfl, Or.inr rfl, rfl, rfl⟩
    fun hleaves => Nat.lt_irrefl 0 hleaves.2.1

/-! ## Atomicity -/

/-- Publication is atomic for one choice of the steps that fail: success means a complete
file, failure changes no name but the temporary one and leaves that one gone if it could
be removed, and at no time is there a partial file under the final name. -/
structure Atomic (order : ByteOrder) (chunkSize : UInt32) (call : PublishCall) (io : PublishIo)
    (d : Directory) : Prop where
  complete : (publishChunk order chunkSize call io d).1 = .ok →
    (publishChunk order chunkSize call io d).2.read call.final = some (call.whole order) ∧
      ∀ name, name ≠ call.temp → name ≠ call.final →
        (publishChunk order chunkSize call io d).2.read name = d.read name
  unchanged : (publishChunk order chunkSize call io d).1 ≠ .ok →
    ∀ name, name ≠ call.temp → (publishChunk order chunkSize call io d).2.read name = d.read name
  cleaned : (publishChunk order chunkSize call io d).1 ≠ .ok → io.removed.ok = true →
    (publishChunk order chunkSize call io d).2.read call.temp = none ∨
      (publishChunk order chunkSize call io d).2 = d
  partless : call.payload.length ≤ chunkSize.toNat → ∀ n,
    (publishRun order call io d n).1.read call.final = d.read call.final ∨
      (publishRun order call io d n).1.read call.final = some (call.whole order)

/-- A publish that succeeds with bytes left in the buffer is not atomic. -/
theorem not_atomic_of_leaves (hsize : call.payload.length ≤ chunkSize.toNat)
    (hsucceeds : io.Succeeds call) (hleaves : io.Leaves call) :
    ¬ Atomic order chunkSize call io d := by
  intro h
  have hok : (publishChunk order chunkSize call io d).1 = .ok :=
    publishChunk_status_ok_iff.mpr ⟨hsize, hsucceeds⟩
  obtain ⟨-, -, ⟨file, hread, -, hwhole⟩, -⟩ := publishChunk_ok (Prod.ext hok rfl)
  rw [(h.complete hok).1] at hread
  cases hread
  exact hwhole.mp rfl hleaves

/-- Publication is atomic exactly if it fails or leaves no bytes in the buffer. -/
theorem publish_atomic_iff (order : ByteOrder) (chunkSize : UInt32) (call : PublishCall)
    (io : PublishIo) (d : Directory) :
    Atomic order chunkSize call io d ↔
      ¬ (call.payload.length ≤ chunkSize.toNat ∧ io.Succeeds call ∧ io.Leaves call) := by
  constructor
  · rintro h ⟨hsize, hsucceeds, hleaves⟩
    exact not_atomic_of_leaves hsize hsucceeds hleaves h
  · intro hnot
    refine ⟨fun hok => ?_, fun hfailed => ?_, fun hfailed hremoved => ?_, fun hsize n => ?_⟩
    · obtain ⟨hsize, hsucceeds, ⟨file, hread, -, hwhole⟩, -, hothers⟩ :=
        publishChunk_ok (Prod.ext hok rfl)
      have hall : file = call.whole order :=
        hwhole.mpr fun hleaves => hnot ⟨hsize, hsucceeds, hleaves⟩
      rw [hall] at hread
      exact ⟨hread, hothers⟩
    · exact (publishChunk_failed rfl hfailed).1
    · obtain ⟨-, hunopened, hgone⟩ := publishChunk_failed rfl hfailed
      by_cases hsize : call.payload.length ≤ chunkSize.toNat
      · cases hopened : io.opened.ok with
        | false => exact Or.inr (hunopened (Or.inr hopened))
        | true => exact Or.inl (hgone hsize hopened hremoved)
      · exact Or.inr (hunopened (Or.inl (not_le.mp hsize)))
    · have hinv := runInv_publishRun order call io d n
      by_cases hreturned : (publishRun order call io d n).2 = .returned .ok
      · have hreached := hinv.reached
        rw [hreturned] at hreached
        obtain ⟨⟨file, hread, -, hwhole⟩, -⟩ := hinv.renamed hreturned
        have hall : file = call.whole order :=
          hwhole.mpr fun hleaves => hnot ⟨hsize, hreached, hleaves⟩
        rw [hall] at hread
        exact Or.inr hread
      · exact Or.inl (hinv.others hreturned _ call.temp_ne_final.symm)

/-- A full disk: every write is accepted, but the flush and the close leave the last byte
in the buffer. -/
def fullDisk : PublishIo where
  payload := { kept := 1 }
  synced := { kept := 1 }
  closed := { kept := 1 }

/-- One byte published as chunk 0. -/
def oneByte : PublishCall where
  source := ⟨[], {}⟩
  index := 0
  payload := [7]
  nonce := 0
  counter := 0

/-- A publish that returns success and leaves a file without its last byte. -/
theorem publish_not_atomic : ¬ Atomic .little 1 oneByte fullDisk (Disk.empty FileName) :=
  not_atomic_of_leaves (by decide) ⟨rfl, rfl, rfl, Or.inr rfl, rfl, rfl⟩ (by decide)

end TieredCache.Remote
