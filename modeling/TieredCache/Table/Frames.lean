/-
# What the operations leave alone

Each operation of a slot's life touches few fields.  The statements here say which,
so that an invariant about other fields follows without opening the operation again.
-/

import TieredCache.Table.Sections

namespace TieredCache

/-- A projection that the new value does not change at the place it is written to. -/
theorem proj_update {ι β γ : Type} [DecidableEq ι] (proj : β → γ) (f : ι → β) {i : ι} {b : β}
    (h : proj b = proj (f i)) (j : ι) : proj (Function.update f i b j) = proj (f j) := by
  by_cases hj : j = i
  · subst hj
    rw [Function.update_self, h]
  · rw [Function.update_of_ne hj]

/-! ## Requests over time -/

/-- The request as it may be found later: it may have been delivered. -/
def Request.Later (r r' : Request) : Prop :=
  r' = r ∨ r.Live ∧ ∃ status, r' = { r with outcome := some status }

namespace Request.Later

variable {r r' r'' : Request}

/-- Nothing happened to the request. -/
theorem refl (r : Request) : r.Later r := Or.inl rfl

/-- A request is delivered at most once. -/
theorem trans (h : r.Later r') (h' : r'.Later r'') : r.Later r'' := by
  rcases h with rfl | ⟨hlive, status, rfl⟩
  · exact h'
  · rcases h' with rfl | ⟨hlive', -⟩
    · exact Or.inr ⟨hlive, status, rfl⟩
    · cases hlive'

/-- A request that is live later was live before, and is the same. -/
theorem eq_of_live (h : r.Later r') (hlive : r'.Live) : r' = r := by
  rcases h with rfl | ⟨-, status, rfl⟩
  · rfl
  · cases hlive

/-- A delivered request stays as it is. -/
theorem eq_of_delivered (h : r.Later r') (hdone : ¬ r.Live) : r' = r := by
  rcases h with rfl | ⟨hlive, -⟩
  · rfl
  · exact absurd hlive hdone

/-- What a request asks for never changes. -/
theorem read_eq (h : r.Later r') : r'.read = r.read := by
  rcases h with rfl | ⟨-, status, rfl⟩ <;> rfl

/-- The transfer set of a request never changes. -/
theorem sameSet (h : r.Later r') : r'.SameSet r := by
  rcases h with rfl | ⟨-, status, rfl⟩ <;> exact ⟨rfl, rfl, rfl⟩

end Request.Later

namespace Table

variable {cfg : TableConfig} {t t' t'' : Table cfg} {slot : cfg.SlotId}

/-- The transport has delivered some requests, and nothing else has happened. -/
inductive Deliveries (t : Table cfg) : Table cfg → Prop
  | mk (requests : RequestId → Request) (h : ∀ id, (t.requests id).Later (requests id)) :
      Deliveries t { t with requests := requests }

theorem Deliveries.refl (t : Table cfg) : Deliveries t t := .mk t.requests fun _ => .refl _

theorem Deliveries.trans (h : Deliveries t t') (h' : Deliveries t' t'') : Deliveries t t'' := by
  cases h with
  | mk requests h =>
      cases h' with
      | mk requests' h' => exact .mk requests' fun id => (h id).trans (h' id)

/-- Deliveries touch nothing but the requests. -/
theorem Deliveries.fields (h : Deliveries t t') :
    t'.slots = t.slots ∧ t'.requestCount = t.requestCount ∧
      t'.currentBinding = t.currentBinding ∧ t'.lostChunks = t.lostChunks := by
  cases h with
  | mk requests h => exact ⟨rfl, rfl, rfl, rfl⟩

theorem deliver_deliveries (t : Table cfg) (id : RequestId) (status : MemStatus) :
    Deliveries t (t.deliver id status) := by
  unfold deliver
  split_ifs with h
  · apply Deliveries.mk
    intro id'
    by_cases hid : id' = id
    · subst hid
      rw [Function.update_self]
      exact Or.inr ⟨h.2.1, status, rfl⟩
    · rw [Function.update_of_ne hid]
      exact .refl _
  · exact .refl t

theorem deliverAll_deliveries (t : Table cfg) (deliveries : List (RequestId × MemStatus)) :
    Deliveries t (t.deliverAll deliveries) := by
  unfold deliverAll
  induction deliveries generalizing t with
  | nil => exact .refl t
  | cons delivery rest ih => exact (t.deliver_deliveries delivery.1 delivery.2).trans (ih _)

/-- A submit is refused or accepted, after some deliveries.  An accepted request does
not overlap a live one of its transfer set. -/
theorem submit_cases (t : Table cfg) (answers : Answers) (r : Request) :
    ∃ u, Deliveries t u ∧
      ((t.submit answers r = (.ok, u.accept r) ∧ ¬ u.Busy r) ∨
        ∃ status, status ≠ .ok ∧ t.submit answers r = (status, u.refuse)) := by
  refine ⟨_, t.deliverAll_deliveries (answers t.submits).deliveries, ?_⟩
  unfold submit
  dsimp only
  split_ifs with hbusy hok
  · exact Or.inr ⟨.busy, by decide, rfl⟩
  · exact Or.inl ⟨rfl, hbusy⟩
  · exact Or.inr ⟨_, hok, rfl⟩

/-! ## Submitting the reads of a slot -/

/-- What submitting a slot's reads may change: the slot's claims and scratch row, the
scratch pool, and the transport's side, where requests are added and delivered. -/
inductive Submission (slot : cfg.SlotId) (t : Table cfg) : Table cfg → Prop
  | mk (slots : cfg.SlotId → Slot cfg) (scratchUsed : cfg.ScratchId → Bool)
      (requests : RequestId → Request) (count submits lost : ℕ)
      (claim : Option RequestId) (scratch : Option cfg.ScratchId) (chunks : List RequestId)
      (hother : ∀ s, s ≠ slot → slots s = t.slots s)
      (hslot : slots slot =
        { t.slots slot with claim := claim, scratchSlot := scratch, chunkClaims := chunks })
      (hcount : t.requestCount ≤ count)
      (hlater : ∀ id < t.requestCount, (t.requests id).Later (requests id))
      (hlost : t.lostChunks ≤ lost) :
      Submission slot t
        { t with
          slots := slots
          scratchUsed := scratchUsed
          requests := requests
          requestCount := count
          submits := submits
          lostChunks := lost }

theorem Submission.refl (slot : cfg.SlotId) (t : Table cfg) : Submission slot t t :=
  .mk t.slots t.scratchUsed t.requests t.requestCount t.submits t.lostChunks _ _ _
    (fun _ _ => rfl) rfl le_rfl (fun _ _ => .refl _) le_rfl

theorem Submission.trans (h : Submission slot t t') (h' : Submission slot t' t'') :
    Submission slot t t'' := by
  cases h with
  | mk slots used requests count submits lost claim scratch chunks hother hslot hcount hlater
      hlost =>
      cases h' with
      | mk slots' used' requests' count' submits' lost' claim' scratch' chunks' hother' hslot'
          hcount' hlater' hlost' =>
          dsimp only at hother' hslot' hcount' hlater' hlost'
          refine .mk slots' used' requests' count' submits' lost' claim' scratch' chunks' ?_ ?_
            (hcount.trans hcount') ?_ (hlost.trans hlost')
          · intro s hs
            exact (hother' s hs).trans (hother s hs)
          · rw [hslot', hslot]
          · intro id hid
            exact (hlater id hid).trans (hlater' id (lt_of_lt_of_le hid hcount))

theorem Submission.of_deliveries (slot : cfg.SlotId) (h : Deliveries t t') :
    Submission slot t t' := by
  cases h with
  | mk requests h =>
      exact .mk t.slots t.scratchUsed requests t.requestCount t.submits t.lostChunks _ _ _
        (fun _ _ => rfl) rfl le_rfl (fun id _ => h id) le_rfl

theorem submission_refuse (slot : cfg.SlotId) (t : Table cfg) : Submission slot t t.refuse :=
  .mk t.slots t.scratchUsed t.requests t.requestCount (t.submits + 1) t.lostChunks _ _ _
    (fun _ _ => rfl) rfl le_rfl (fun _ _ => .refl _) le_rfl

theorem submission_accept (slot : cfg.SlotId) (t : Table cfg) (r : Request) :
    Submission slot t (t.accept r) := by
  refine .mk t.slots t.scratchUsed (Function.update t.requests t.requestCount r)
    (t.requestCount + 1) (t.submits + 1) t.lostChunks _ _ _ (fun _ _ => rfl) rfl (Nat.le_succ _)
    ?_ le_rfl
  intro id hid
  rw [Function.update_of_ne (Nat.ne_of_lt hid)]
  exact .refl _

theorem submission_submit (slot : cfg.SlotId) (t : Table cfg) (answers : Answers) (r : Request) :
    Submission slot t (t.submit answers r).2 := by
  obtain ⟨u, hu, ⟨h, -⟩ | ⟨status, -, h⟩⟩ := t.submit_cases answers r
  · rw [h]
    exact (Submission.of_deliveries slot hu).trans (submission_accept slot u r)
  · rw [h]
    exact (Submission.of_deliveries slot hu).trans (submission_refuse slot u)

theorem submission_dropChunks (t : Table cfg) (slot : cfg.SlotId) :
    Submission slot t (t.dropChunks slot) := by
  refine .mk _ t.scratchUsed t.requests t.requestCount t.submits _ _ _ []
    (fun _ hs => Function.update_of_ne hs _ _) (Function.update_self ..) le_rfl
    (fun _ _ => .refl _) ?_
  split_ifs
  · exact Nat.le_succ _
  · exact le_rfl

/-- Writing the claims of the slot. -/
theorem submission_modify (t : Table cfg) (slot : cfg.SlotId) (claim : Option RequestId)
    (scratch : Option cfg.ScratchId) (chunks : List RequestId) :
    Submission slot t (t.modify slot fun s =>
      { s with claim := claim, scratchSlot := scratch, chunkClaims := chunks }) :=
  .mk _ t.scratchUsed t.requests t.requestCount t.submits t.lostChunks claim scratch chunks
    (fun _ hs => Function.update_of_ne hs _ _) (Function.update_self ..) le_rfl
    (fun _ _ => .refl _) le_rfl

theorem submission_setScratch (slot : cfg.SlotId) (t : Table cfg) (scratch : cfg.ScratchId)
    (used : Bool) : Submission slot t (t.setScratch scratch used) :=
  .mk t.slots _ t.requests t.requestCount t.submits t.lostChunks _ _ _
    (fun _ _ => rfl) rfl le_rfl (fun _ _ => .refl _) le_rfl

theorem submission_submitChunks (answers : Answers) (slot : cfg.SlotId) (shard : ℕ)
    (reads : List Read) (t : Table cfg) :
    Submission slot t (submitChunks answers slot shard reads t).2 := by
  induction reads generalizing t with
  | nil => exact .refl slot t
  | cons read rest ih =>
      have hsubmit := submission_submit slot t answers ⟨t.currentBinding, shard, .output, read, none⟩
      unfold submitChunks
      split
      · rename_i t' h
        rw [h] at hsubmit
        exact (hsubmit.trans (t'.submission_modify slot _ _ _)).trans (ih _)
      · rename_i status t' hne h
        rw [h] at hsubmit
        exact hsubmit.trans (t'.submission_dropChunks slot)

theorem submission_submitFill (t : Table cfg) (answers : Answers) (slot : cfg.SlotId)
    (location : RowLocation) (shard : ShardSource) :
    Submission slot t (t.submitFill answers slot location shard).2 := by
  unfold submitFill
  dsimp only
  split
  · exact submission_submitChunks answers slot _ _ t
  · split
    · have hsubmit := submission_submit slot t answers ⟨t.currentBinding, location.shard.toNat,
        .output, ⟨(fillWindow cfg.fillAlignment shard.bytes location.range).fill,
          cfg.slotBase slot⟩, none⟩
      split
      · rename_i t' h
        rw [h] at hsubmit
        exact hsubmit.trans (t'.submission_modify slot _ _ _)
      · rename_i status t' hne h
        rw [h] at hsubmit
        exact hsubmit
    · split
      · exact .refl slot t
      · rename_i scratch hscratch
        have hsubmit := (submission_setScratch slot t scratch true).trans
          (submission_submit slot (t.setScratch scratch true) answers ⟨t.currentBinding,
            location.shard.toNat, .scratch, ⟨location.range, cfg.scratchBase scratch⟩, none⟩)
        split
        · rename_i t' h
          rw [h] at hsubmit
          exact hsubmit.trans (t'.submission_modify slot _ _ _)
        · rename_i status t' hne h
          rw [h] at hsubmit
          exact hsubmit.trans (submission_setScratch slot t' scratch false)

/-- A fill begins, its reads are submitted, and it is either committed or failed. -/
theorem startFillLocked_cases (t : Table cfg) (answers : Answers) (slot : cfg.SlotId)
    (row : UInt64) :
    ∃ u, Submission slot (t.beginAdmission slot row) u ∧
      ((∃ length head,
          t.startFillLocked answers slot row = (.ok, u.commitFill slot length head)) ∨
        ∃ status, status ≠ .ok ∧
          t.startFillLocked answers slot row = (status, u.failFill slot status)) := by
  unfold startFillLocked
  dsimp only
  split
  · rename_i status hlocate
    refine ⟨_, .refl slot _, Or.inr ⟨status, ?_, rfl⟩⟩
    rintro rfl
    exact cfg.locate_ne_error_ok _ _ _ hlocate
  · rename_i location shard hlocate
    have hsubmission :=
      submission_submitFill (t.beginAdmission slot row) answers slot location shard
    split
    · rename_i u hsubmit
      rw [hsubmit] at hsubmission
      exact ⟨u, hsubmission, Or.inl ⟨_, _, rfl⟩⟩
    · rename_i status u hne hsubmit
      rw [hsubmit] at hsubmission
      exact ⟨u, hsubmission, Or.inr ⟨status, hne, rfl⟩⟩

/-! ## Bookkeeping -/

/-- Only second-chance bits, the clock hand, tickets, counters and notifications have
changed. -/
inductive Bookkeeping (t : Table cfg) : Table cfg → Prop
  | mk (slots : cfg.SlotId → Slot cfg) (tickets : cfg.RecordId → TicketRecord)
      (waiters : cfg.RecordId → ℕ → WaiterEntry cfg) (clockHand : cfg.SlotId)
      (ticketsHeld : UInt32) (counters : TableStats) (notifications : ℕ)
      (hslots : ∀ s, ∃ referenced, slots s = { t.slots s with referenced := referenced })
      (hnotifications : t.notifications ≤ notifications) :
      Bookkeeping t
        { t with
          slots := slots
          tickets := tickets
          waiters := waiters
          clockHand := clockHand
          ticketsHeld := ticketsHeld
          counters := counters
          notifications := notifications }

/-- Bookkeeping that leaves the slots and the notifications alone. -/
theorem Bookkeeping.of_records (t : Table cfg) (tickets : cfg.RecordId → TicketRecord)
    (waiters : cfg.RecordId → ℕ → WaiterEntry cfg) (clockHand : cfg.SlotId)
    (ticketsHeld : UInt32) (counters : TableStats) :
    Bookkeeping t
      { t with
        tickets := tickets
        waiters := waiters
        clockHand := clockHand
        ticketsHeld := ticketsHeld
        counters := counters } :=
  .mk t.slots tickets waiters clockHand ticketsHeld counters t.notifications
    (fun _ => ⟨_, rfl⟩) le_rfl

/-- Bookkeeping that only clears or sets one second-chance bit. -/
theorem Bookkeeping.of_referenced (t : Table cfg) (slot : cfg.SlotId) (referenced : Bool) :
    Bookkeeping t (t.modify slot fun s => { s with referenced := referenced }) := by
  refine .mk _ t.tickets t.waiters t.clockHand t.ticketsHeld t.counters t.notifications ?_ le_rfl
  intro s
  by_cases hs : s = slot
  · subst hs
    exact ⟨referenced, Function.update_self ..⟩
  · exact ⟨(t.slots s).referenced, Function.update_of_ne hs _ _⟩

end Table

end TieredCache
