/-
# The bound on prefetch batches

A ticket record is free again as soon as its ticket is dropped, also while fills of the batch go
on.  The machine with its batches counts those whose ticket is held, and those that were dropped
and still have a fill in flight.
-/

import TieredCache.Table.Ages
import TieredCache.Table.Histories

namespace TieredCache

open Math.Runs Math.Tally

variable {cfg : TableConfig}

/-! ## Records -/

namespace Table

variable {t t' : Table cfg} {answers : Answers} {rows : List UInt64}

/-- How many ticket records are held. -/
def heldRecords (t : Table cfg) : ℕ :=
  (List.finRange cfg.maxTickets.toNat).countP fun record => (t.tickets record).held = true

theorem heldRecords_eq (t : Table cfg) :
    t.heldRecords = tally (fun record : TicketRecord => record.held = true) t.tickets :=
  countP_finRange fun record : TicketRecord => record.held = true

/-- A record is in use while its ticket is held. -/
def RecordsInv (t : Table cfg) : Prop :=
  ∀ record, (t.tickets record).inUse = (t.tickets record).held

/-- The batch passes the checks of `prefetch`. -/
def ValidBatch (cfg : TableConfig) (rows : List UInt64) : Prop :=
  batchStatus cfg rows = .ok ∧ anyOutOfRange cfg rows = false

instance (cfg : TableConfig) (rows : List UInt64) : Decidable (ValidBatch cfg rows) :=
  inferInstanceAs (Decidable (_ ∧ _))

theorem prefetch_invalid (h : ¬ ValidBatch cfg rows) (t : Table cfg) (answers : Answers) :
    (t.prefetch answers rows).2 = t ∧ ∀ ticket, (t.prefetch answers rows).1 ≠ .ok ticket := by
  unfold prefetch
  split_ifs with hstatus hrange
  · exact ⟨rfl, fun ticket heq => by cases heq⟩
  · exact ⟨rfl, fun ticket heq => by cases heq⟩
  · exact absurd ⟨not_not.mp hstatus, Bool.not_eq_true _ ▸ hrange⟩ h

/-- A valid batch is refused if every record is in use, and otherwise takes one. -/
theorem prefetch_valid (h : ValidBatch cfg rows) (t : Table cfg) (answers : Answers) :
    (t.freeRecord = none ∧ t.prefetch answers rows = (.error .ticketExhausted, t)) ∨
      ∃ record ticket t', t.freeRecord = some record ∧
        t.prefetch answers rows = (.ok ticket, t') ∧
        t'.tickets = Function.update t.tickets record
          ⟨(t.tickets record).generation + 1, rows.length, true, true⟩ := by
  unfold prefetch
  rw [if_neg (not_not.mpr h.1), if_neg (by rw [h.2]; exact Bool.false_ne_true)]
  cases hfree : t.freeRecord with
  | none => exact Or.inl ⟨rfl, rfl⟩
  | some record =>
      exact Or.inr ⟨record, _, _, rfl, rfl,
        (prefetchRows_records answers record rows 0 (t.openRecord record rows.length)).1⟩

theorem freeRecord_spec {record : cfg.RecordId} (hrecords : t.RecordsInv)
    (h : t.freeRecord = some record) : (t.tickets record).held = false := by
  rw [← hrecords record]
  simpa using List.find?_some h

/-- No record is free if and only if all are held. -/
theorem freeRecord_eq_none_iff (hrecords : t.RecordsInv) :
    t.freeRecord = none ↔ t.heldRecords = cfg.maxTickets.toNat := by
  have hall := List.countP_eq_length (l := List.finRange cfg.maxTickets.toNat)
    (p := fun record => decide ((t.tickets record).held = true))
  rw [List.length_finRange] at hall
  rw [freeRecord, List.find?_eq_none, heldRecords, hall]
  refine forall₂_congr fun record _ => ?_
  rw [hrecords record]
  simp

theorem heldRecords_le (t : Table cfg) : t.heldRecords ≤ cfg.maxTickets.toNat := by
  have h := List.countP_le_length (l := List.finRange cfg.maxTickets.toNat)
    (p := fun record => decide ((t.tickets record).held = true))
  rwa [List.length_finRange] at h

/-- A record is taken. -/
theorem heldRecords_take {record : cfg.RecordId} {entry : TicketRecord}
    (htickets : t'.tickets = Function.update t.tickets record entry)
    (hold : (t.tickets record).held = false) (hnew : entry.held = true) :
    t'.heldRecords = t.heldRecords + 1 := by
  rw [heldRecords_eq, heldRecords_eq, htickets]
  exact tally_update_gain (Set.toFinite _) (by rw [hold]; exact Bool.false_ne_true) hnew

/-- A record is given back. -/
theorem heldRecords_give {record : cfg.RecordId} {entry : TicketRecord}
    (htickets : t'.tickets = Function.update t.tickets record entry)
    (hold : (t.tickets record).held = true) (hnew : entry.held = false) :
    t'.heldRecords + 1 = t.heldRecords := by
  rw [heldRecords_eq, heldRecords_eq, htickets]
  exact tally_update_loss (Set.toFinite _) hold (by rw [hnew]; exact Bool.false_ne_true)

theorem RecordsInv.update (h : t.RecordsInv) {record : cfg.RecordId} {entry : TicketRecord}
    (htickets : t'.tickets = Function.update t.tickets record entry)
    (hentry : entry.inUse = entry.held) : t'.RecordsInv := by
  intro r
  rw [htickets]
  by_cases hr : r = record
  · subst hr
    rw [Function.update_self]
    exact hentry
  · rw [Function.update_of_ne hr]
    exact h r

theorem RecordsInv.congr (h : t.RecordsInv) (htickets : t'.tickets = t.tickets) :
    t'.RecordsInv := by
  intro r
  rw [htickets]
  exact h r

theorem discardTicket_update {ticket : Ticket cfg} (h : t.discardTicket ticket = some t') :
    (t.tickets ticket.record).held = true ∧ t'.slots = t.slots ∧
      t'.tickets = Function.update t.tickets ticket.record
        { t.tickets ticket.record with held := false, inUse := false } := by
  unfold discardTicket at h
  dsimp only at h
  split_ifs at h with hguard
  cases h
  rw [not_or, Bool.not_eq_true', Bool.not_eq_false] at hguard
  exact ⟨hguard.2, rfl, rfl⟩

end Table

/-! ## The machine with its batches -/

/-- A batch, by the admissions its `prefetch` made: from `first` on, before `last`. -/
structure Batch where
  first : ℕ
  last : ℕ
  deriving DecidableEq, Repr

/-- A fill the batch started is in flight. -/
def Batch.Filling (t : Table cfg) (batch : Batch) : Prop :=
  ∃ slot, (t.slots slot).state = .filling ∧ batch.first ≤ (t.slots slot).admission ∧
    (t.slots slot).admission < batch.last

instance (t : Table cfg) (batch : Batch) : Decidable (batch.Filling t) :=
  inferInstanceAs (Decidable (∃ _ : cfg.SlotId, _))

/-- The state of the machine, the batches whose tickets are in the variables, and those whose
tickets have been dropped. -/
structure Batched (cfg : TableConfig) where
  world : World cfg
  started : TicketVar → Batch
  dropped : List Batch

namespace Batched

/-- No batch yet. -/
def start (cfg : TableConfig) (h : cfg.Accepted) : Batched cfg where
  world := World.start cfg h
  started := fun _ => ⟨0, 0⟩
  dropped := []

/-- The batches in the variables once the machine has got to `w'`. -/
def startedAfter (s : Batched cfg) (w' : World cfg) : Action cfg → TicketVar → Batch
  | .prefetch _ v _ =>
      Function.update s.started v ⟨s.world.table.admissions, w'.table.admissions⟩
  | .moveTicket source target => Function.update s.started target (s.started source)
  | _ => s.started

/-- The batch of a variable that is reset. -/
def dropsFrom (s : Batched cfg) (v : TicketVar) : List Batch :=
  if (s.world.tickets v).ticket.isSome then [s.started v] else []

/-- The batches an action drops. -/
def drops (s : Batched cfg) : Action cfg → List Batch
  | .dropTicket v => s.dropsFrom v
  | .moveTicket source target => if source = target then [] else s.dropsFrom target
  | _ => []

/-- The machine takes a step, and its batches are followed. -/
def step (s : Batched cfg) (action : Action cfg) : Option (Batched cfg) :=
  (s.world.step action).map fun w' =>
    ⟨w', s.startedAfter w' action, if w'.crashed then s.dropped else s.drops action ++ s.dropped⟩

/-- How many dropped batches have a fill in flight. -/
def lingering (s : Batched cfg) : ℕ := s.dropped.countP fun batch => batch.Filling s.world.table

/-- How many batches are in flight: held, or dropped with a fill in flight. -/
def inFlight (s : Batched cfg) : ℕ := s.world.table.heldRecords + s.lingering

/-- A record is free although as many batches are in flight as there may be. -/
def Overdrawn (s : Batched cfg) : Prop :=
  s.world.table.heldRecords < cfg.maxTickets.toNat ∧ cfg.maxTickets.toNat ≤ s.inFlight

/-- No batch is prefetched while the records are overdrawn. -/
def Spares (s : Batched cfg) : Action cfg → Prop
  | .prefetch rows _ _ => Table.ValidBatch cfg rows → ¬ s.Overdrawn
  | _ => True

instance (s : Batched cfg) : Decidable s.Overdrawn := inferInstanceAs (Decidable (_ ∧ _))

instance (s : Batched cfg) : (action : Action cfg) → Decidable (s.Spares action)
  | .prefetch _ _ _ => inferInstanceAs (Decidable (_ → _))
  | .resolveInto .. | .wait .. | .drain .. | .advance .. | .leave .. | .work .. | .tryGet ..
  | .reset .. | .move .. | .dropTicket .. | .moveTicket .. | .invalidate .. | .deliver .. =>
      .isTrue trivial

/-- No ticket is dropped while a fill of its batch is in flight. -/
def Patient (s : Batched cfg) (action : Action cfg) : Prop :=
  ∀ batch ∈ s.drops action, ¬ batch.Filling s.world.table

variable {s s' : Batched cfg} {action : Action cfg} {h : cfg.Accepted}

theorem reachable_world {allowed : Batched cfg → Action cfg → Prop}
    (hs : Reaches step allowed (start cfg h) s) :
    Reachable World.step (World.start cfg h) s.world := by
  induction hs with
  | start => exact .start
  | @step u u' action hs ha hstep ih =>
      obtain ⟨w', hworld, rfl⟩ := Option.map_eq_some_iff.mp hstep
      exact ih.step trivial hworld

/-! ### Batches of the past -/

/-- Batches are made of past admissions, and records are in use while they are held. -/
structure BatchedInv (s : Batched cfg) : Prop where
  started : ∀ v, (s.started v).last ≤ s.world.table.admissions
  dropped : ∀ batch ∈ s.dropped, batch.last ≤ s.world.table.admissions
  records : s.world.table.RecordsInv

/-- A batch of the past that has a fill in flight had it before. -/
theorem filling_before {t t' : Table cfg} (hages : Table.Ages t t') {batch : Batch}
    (hpast : batch.last ≤ t.admissions) (hfilling : batch.Filling t') : batch.Filling t := by
  obtain ⟨slot, hstate, hfirst, hlast⟩ := hfilling
  obtain ⟨hstate, hadmission⟩ := hages.filling hstate (by omega)
  exact ⟨slot, hstate, by omega, by omega⟩

theorem lingering_le {batches : List Batch} {t t' : Table cfg} (hages : Table.Ages t t')
    (hpast : ∀ batch ∈ batches, batch.last ≤ t.admissions) :
    batches.countP (fun batch => batch.Filling t') ≤
      batches.countP fun batch => batch.Filling t := by
  apply List.countP_mono_left
  intro batch hbatch hfilling
  exact decide_eq_true (filling_before hages (hpast batch hbatch) (of_decide_eq_true hfilling))

/-- What a step does to the records. -/
inductive RecordMove (s : Batched cfg) (w' : World cfg) : Action cfg → Prop
  | prefetched {rows : List UInt64} {v : TicketVar} {answers : Answers} {record : cfg.RecordId}
      {entry : TicketRecord} (hvalid : Table.ValidBatch cfg rows)
      (hfree : s.world.table.freeRecord = some record)
      (hprefetch : w'.table = (s.world.table.prefetch answers rows).2)
      (htickets : w'.table.tickets = Function.update s.world.table.tickets record entry)
      (hentry : entry.held = true ∧ entry.inUse = true) :
      RecordMove s w' (.prefetch rows v answers)
  | dropped {action : Action cfg} {batch : Batch} {record : cfg.RecordId} {entry : TicketRecord}
      (hdrops : s.drops action = [batch]) (hstarted : ∃ v, batch = s.started v)
      (hheld : (s.world.table.tickets record).held = true)
      (htickets : w'.table.tickets = Function.update s.world.table.tickets record entry)
      (hentry : entry.held = false ∧ entry.inUse = false)
      (hslots : w'.table.slots = s.world.table.slots) : RecordMove s w' action
  | others {action : Action cfg} (hdrops : w'.crashed = true ∨ s.drops action = [])
      (htickets : w'.table.tickets = s.world.table.tickets)
      (hrefused : ∀ rows v answers, action = .prefetch rows v answers →
        Table.ValidBatch cfg rows → s.world.table.freeRecord = none) : RecordMove s w' action

/-- A ticket variable is reset. -/
theorem resetTicket_moved (s : Batched cfg) (v : TicketVar) :
    ((s.world.resetTicket v).crashed = true ∨ s.dropsFrom v = []) ∧
        (s.world.resetTicket v).table.tickets = s.world.table.tickets ∨
      ∃ record entry, s.dropsFrom v = [s.started v] ∧
        (s.world.table.tickets record).held = true ∧
        (s.world.resetTicket v).table.tickets =
          Function.update s.world.table.tickets record entry ∧
        (entry.held = false ∧ entry.inUse = false) ∧
        (s.world.resetTicket v).table.slots = s.world.table.slots := by
  unfold World.resetTicket dropsFrom
  cases hticket : (s.world.tickets v).ticket with
  | none => exact Or.inl ⟨Or.inr rfl, rfl⟩
  | some ticket =>
      dsimp only
      cases hdiscard : s.world.table.discardTicket ticket with
      | none => exact Or.inl ⟨Or.inl rfl, rfl⟩
      | some t =>
          obtain ⟨hheld, hslots, htickets⟩ := Table.discardTicket_update hdiscard
          exact Or.inr ⟨ticket.record, _, rfl, hheld, htickets, ⟨rfl, rfl⟩, hslots⟩

theorem step_recordMove {w' : World cfg} (hworld : s.world.step action = some w') :
    RecordMove s w' action := by
  by_cases hhandles : action.HandlesTickets
  · unfold World.step at hworld
    split_ifs at hworld with hcrashed
    cases action with
    | prefetch rows v answers =>
        have hworld : s.world.prefetch rows v answers = some w' := hworld
        by_cases hvalid : Table.ValidBatch cfg rows
        · rcases Table.prefetch_valid hvalid s.world.table answers with
            ⟨hfree, hprefetch⟩ | ⟨record, ticket, t', hfree, hprefetch, htickets⟩
          · simp only [World.prefetch, hprefetch, Option.ite_none_left_eq_some,
              Option.some.injEq] at hworld
            obtain ⟨-, rfl⟩ := hworld
            exact .others (Or.inr rfl) rfl fun _ _ _ _ _ => hfree
          · simp only [World.prefetch, hprefetch, Option.ite_none_left_eq_some,
              Option.some.injEq] at hworld
            obtain ⟨-, rfl⟩ := hworld
            refine .prefetched hvalid hfree ?_ htickets ⟨rfl, rfl⟩
            rw [hprefetch]
            rfl
        · obtain ⟨hsame, hnone⟩ := Table.prefetch_invalid hvalid s.world.table answers
          have htickets : w'.table.tickets = s.world.table.tickets := by
            unfold World.prefetch at hworld
            split_ifs at hworld
            split at hworld <;> rename_i heq <;> rw [heq] at hsame hnone <;> cases hworld
            · rw [← hsame]
            · exact absurd rfl (hnone _)
          refine .others (Or.inr rfl) htickets ?_
          intro rows' v' answers' heq hvalid'
          cases heq
          exact absurd hvalid' hvalid
    | dropTicket v =>
        have hworld : (if (s.world.tickets v).users ≠ 0 then none
          else some (s.world.resetTicket v)) = some w' := hworld
        split_ifs at hworld
        cases hworld
        rcases s.resetTicket_moved v with
          ⟨hdrops, htickets⟩ | ⟨record, entry, hdrops, hheld, htickets, hentry, hslots⟩
        · exact .others hdrops htickets fun _ _ _ heq => by cases heq
        · exact .dropped hdrops ⟨v, rfl⟩ hheld htickets hentry hslots
    | moveTicket source target =>
        have hworld : (if (s.world.tickets source).users ≠ 0 ∨ (s.world.tickets target).users ≠ 0
          then none else some (s.world.moveTicket source target)) = some w' := hworld
        split_ifs at hworld
        cases hworld
        unfold World.moveTicket
        split_ifs with hsame
        · exact .others (Or.inr (if_pos hsame)) rfl fun _ _ _ heq => by cases heq
        · have hdropped : s.drops (.moveTicket source target) = s.dropsFrom target := if_neg hsame
          rcases s.resetTicket_moved target with
            ⟨hdrops, htickets⟩ | ⟨record, entry, hdrops, hheld, htickets, hentry, hslots⟩
          · rw [← hdropped] at hdrops
            exact .others hdrops htickets fun _ _ _ heq => by cases heq
          · rw [← hdropped] at hdrops
            exact .dropped hdrops ⟨target, rfl⟩ hheld htickets hentry hslots
    | _ => exact hhandles.elim
  · refine .others (Or.inr ?_) (World.step_records hworld hhandles).1.tickets ?_
    · cases action <;> first | rfl | exact absurd trivial hhandles
    · rintro rows v answers rfl
      exact absurd trivial hhandles

theorem BatchedInv.step (hinv : s.BatchedInv) (hfill : s.world.FillInv)
    (hstep : s.step action = some s') : s'.BatchedInv := by
  obtain ⟨w', hworld, rfl⟩ := Option.map_eq_some_iff.mp hstep
  have hle := (World.step_ages hfill hworld).admissions
  have hdrops : ∀ batch ∈ s.drops action, batch.last ≤ w'.table.admissions := by
    have hfrom : ∀ v, ∀ batch ∈ s.dropsFrom v, batch.last ≤ w'.table.admissions := by
      intro v batch hbatch
      unfold dropsFrom at hbatch
      split_ifs at hbatch
      · rw [List.mem_singleton.mp hbatch]
        exact (hinv.started v).trans hle
      · cases hbatch
    cases action with
    | dropTicket v => exact hfrom v
    | moveTicket source target =>
        intro batch hbatch
        have hbatch : batch ∈ if source = target then [] else s.dropsFrom target := hbatch
        split_ifs at hbatch
        · cases hbatch
        · exact hfrom target batch hbatch
    | _ =>
        intro batch hbatch
        cases hbatch
  refine ⟨fun v => ?_, fun batch hbatch => ?_, ?_⟩
  · have hold := (hinv.started v).trans hle
    cases action with
    | prefetch rows target answers =>
        by_cases hv : v = target
        · subst hv
          dsimp only [startedAfter]
          rw [Function.update_self]
        · dsimp only [startedAfter]
          rw [Function.update_of_ne hv]
          exact hold
    | moveTicket source target =>
        by_cases hv : v = target
        · subst hv
          dsimp only [startedAfter]
          rw [Function.update_self]
          exact (hinv.started source).trans hle
        · dsimp only [startedAfter]
          rw [Function.update_of_ne hv]
          exact hold
    | _ => exact hold
  · dsimp only at hbatch
    split_ifs at hbatch
    · exact (hinv.dropped batch hbatch).trans hle
    · rcases List.mem_append.mp hbatch with hnew | hold
      · exact hdrops batch hnew
      · exact (hinv.dropped batch hold).trans hle
  · cases step_recordMove hworld with
    | prefetched hvalid hfree hprefetch htickets hentry =>
        exact hinv.records.update htickets (hentry.2.trans hentry.1.symm)
    | dropped hdropped hstarted hheld htickets hentry hslots =>
        exact hinv.records.update htickets (hentry.2.trans hentry.1.symm)
    | others hdropped htickets hrefused => exact hinv.records.congr htickets

theorem batchedInv_of_reaches {allowed : Batched cfg → Action cfg → Prop}
    (hs : Reaches step allowed (start cfg h) s) : s.BatchedInv := by
  refine hs.invariant_of (fun _ hu => World.fillInv_of_reachable (reachable_world hu)) ?_
    fun u action u' hfill hinv _ hstep => hinv.step hfill hstep
  exact ⟨fun _ => Nat.zero_le _, fun batch hbatch => (List.not_mem_nil hbatch).elim, fun _ => rfl⟩

/-- What the bound rests on, in every state reached. -/
theorem batchedKnown {allowed : Batched cfg → Action cfg → Prop}
    (hs : Reaches step allowed (start cfg h) s) : s.BatchedInv ∧ s.world.FillInv :=
  ⟨batchedInv_of_reaches hs, World.fillInv_of_reachable (reachable_world hs)⟩

/-! ### The bound -/

/-- The batch is refused where it would exceed the bound, and does not exceed it. -/
structure Bounded (s : Batched cfg) (answers : Answers) (rows : List UInt64) : Prop where
  refused : cfg.maxTickets.toNat ≤ s.inFlight →
    (s.world.table.prefetch answers rows).1 = .error .ticketExhausted
  bounded : ∀ v s', s.step (.prefetch rows v answers) = some s' →
    s'.inFlight ≤ cfg.maxTickets.toNat

/-- Dropping a ticket and everything else but a prefetch adds no batch, and a prefetch adds one
where a record is free. -/
theorem inFlight_step (hinv : s.BatchedInv) (hfill : s.world.FillInv)
    (hstep : s.step action = some s') (hspares : s.Spares action)
    (hle : s.inFlight ≤ cfg.maxTickets.toNat) : s'.inFlight ≤ cfg.maxTickets.toNat := by
  obtain ⟨w', hworld, rfl⟩ := Option.map_eq_some_iff.mp hstep
  have hages := World.step_ages hfill hworld
  have hold := lingering_le hages hinv.dropped
  unfold inFlight lingering at hle ⊢
  dsimp only
  cases step_recordMove hworld with
  | prefetched hvalid hfree hprefetch htickets hentry =>
      have htake := Table.heldRecords_take htickets
        (Table.freeRecord_spec hinv.records hfree) hentry.1
      have hroom : s.world.table.heldRecords < cfg.maxTickets.toNat := by
        refine lt_of_le_of_ne s.world.table.heldRecords_le fun hfull => ?_
        rw [(Table.freeRecord_eq_none_iff hinv.records).mpr hfull] at hfree
        cases hfree
      have hfew : s.inFlight < cfg.maxTickets.toNat := by
        by_contra hmany
        exact hspares hvalid ⟨hroom, Nat.le_of_not_lt hmany⟩
      unfold inFlight lingering at hfew
      have hdropped : (if w'.crashed then s.dropped else [] ++ s.dropped) = s.dropped := by
        split_ifs <;> rfl
      dsimp only [drops]
      rw [hdropped]
      omega
  | @dropped _ batch record entry hdrops hstarted hheld htickets hentry hslots =>
      have hgive := Table.heldRecords_give htickets hheld hentry.1
      rw [hdrops]
      split_ifs
      · omega
      · have hone : [batch].countP (fun batch => batch.Filling w'.table) ≤ 1 :=
          List.countP_le_length
        rw [List.countP_append]
        omega
  | others hdrops htickets hrefused =>
      have hsame : w'.table.heldRecords = s.world.table.heldRecords := by
        rw [Table.heldRecords_eq, Table.heldRecords_eq, htickets]
      have hdropped : (if w'.crashed then s.dropped else s.drops action ++ s.dropped) =
          s.dropped := by
        split_ifs with hcrashed
        · rfl
        · rw [hdrops.resolve_left hcrashed, List.nil_append]
      rw [hdropped]
      omega

/-- In a run that never prefetches while the records are overdrawn, at most `max_tickets` batches
are in flight, and the next one is refused where it would exceed that, if and only if the records
are not overdrawn. -/
theorem bounded_iff_of_spares (hs : Reaches step Spares (start cfg h) s) :
    s.inFlight ≤ cfg.maxTickets.toNat ∧
      ∀ answers rows, Table.ValidBatch cfg rows → (s.Bounded answers rows ↔ ¬ s.Overdrawn) := by
  obtain ⟨hinv, hfill⟩ := batchedKnown hs
  have hbound : s.inFlight ≤ cfg.maxTickets.toNat := by
    refine hs.invariant_of (fun _ => batchedKnown) (World.start cfg h).table.heldRecords_le
      fun u action u' hknown hle hspares hstep => inFlight_step hknown.1 hknown.2 hstep hspares hle
  refine ⟨hbound, fun answers rows hvalid => ⟨fun hbounded hoverdrawn => ?_, fun hspares => ?_⟩⟩
  · obtain ⟨hroom, hmany⟩ := hoverdrawn
    have hrefused := hbounded.refused hmany
    rcases Table.prefetch_valid hvalid s.world.table answers with
      ⟨hfree, -⟩ | ⟨record, ticket, t', -, hprefetch, -⟩
    · exact absurd ((Table.freeRecord_eq_none_iff hinv.records).mp hfree) (Nat.ne_of_lt hroom)
    · rw [hprefetch] at hrefused
      cases hrefused
  · refine ⟨fun hmany => ?_, fun v s' hstep => ?_⟩
    · have hfull : s.world.table.heldRecords = cfg.maxTickets.toNat := by
        by_contra hne
        exact hspares ⟨lt_of_le_of_ne s.world.table.heldRecords_le hne, hmany⟩
      rcases Table.prefetch_valid hvalid s.world.table answers with
        ⟨-, hprefetch⟩ | ⟨record, ticket, t', hfree, -, -⟩
      · rw [hprefetch]
      · rw [(Table.freeRecord_eq_none_iff hinv.records).mpr hfull] at hfree
        cases hfree
    · exact inFlight_step hinv hfill hstep (fun _ => hspares) hbound

/-- Where no ticket is dropped while a fill of its batch is in flight, no dropped batch lingers,
and the records are never overdrawn. -/
theorem lingering_eq_zero_of_patient (hs : Reaches step Patient (start cfg h) s) :
    s.lingering = 0 := by
  induction hs with
  | start => rfl
  | @step u u' action hu hpatient hstep hzero =>
      have hknown := batchedKnown hu
      obtain ⟨w', hworld, rfl⟩ := Option.map_eq_some_iff.mp hstep
      have hages := World.step_ages hknown.2 hworld
      have hold := lingering_le hages hknown.1.dropped
      unfold lingering at hzero ⊢
      rw [hzero] at hold
      have hnone := List.countP_eq_zero.mp (Nat.le_zero.mp hold)
      apply List.countP_eq_zero.mpr
      intro batch hbatch
      dsimp only at hbatch
      split_ifs at hbatch
      · exact hnone batch hbatch
      · rcases List.mem_append.mp hbatch with hnew | hpast
        · cases hmove : u.drops action with
          | nil =>
              rw [hmove] at hnew
              cases hnew
          | cons first rest =>
              have hnot := hpatient batch hnew
              cases step_recordMove hworld with
              | prefetched hvalid hfree hprefetch htickets hentry => cases hnew
              | dropped hdrops hstarted hheld htickets hentry hslots =>
                  intro hfilling
                  obtain ⟨slot, hstate, hbetween⟩ := of_decide_eq_true hfilling
                  dsimp only at hstate hbetween
                  rw [hslots] at hstate hbetween
                  exact hnot ⟨slot, hstate, hbetween⟩
              | others hdrops htickets hrefused =>
                  rename_i hcrashed
                  rw [hdrops.resolve_left hcrashed] at hnew
                  cases hnew
        · exact hnone batch hpast

theorem not_overdrawn_of_patient (hs : Reaches step Patient (start cfg h) s) : ¬ s.Overdrawn := by
  rintro ⟨hroom, hmany⟩
  rw [inFlight, lingering_eq_zero_of_patient hs, Nat.add_zero] at hmany
  exact Nat.not_lt.mpr hmany hroom

theorem spares_of_patient (hs : Reaches step Patient (start cfg h) s) :
    Reaches step Spares (start cfg h) s := by
  induction hs with
  | start => exact .start
  | @step u u' action hu hpatient hstep ih =>
      refine ih.step ?_ hstep
      cases action with
      | prefetch rows v answers => exact fun _ => not_overdrawn_of_patient hu
      | _ => trivial

/-- In a run that never prefetches while the records are overdrawn, at most `max_tickets` batches
are in flight, and the next one is treated as documented if and only if the records are not
overdrawn.  It always is in a run that drops no ticket while a fill of its batch is in flight. -/
theorem batches_bounded_iff (h : cfg.Accepted) :
    (∀ s, Reaches step Spares (start cfg h) s → s.inFlight ≤ cfg.maxTickets.toNat ∧
      ∀ answers rows, Table.ValidBatch cfg rows → (s.Bounded answers rows ↔ ¬ s.Overdrawn)) ∧
    ∀ s, Reaches step Patient (start cfg h) s → s.inFlight ≤ cfg.maxTickets.toNat ∧
      ∀ answers rows, Table.ValidBatch cfg rows → s.Bounded answers rows := by
  refine ⟨fun s hs => bounded_iff_of_spares hs, fun s hs => ?_⟩
  obtain ⟨hbound, hiff⟩ := bounded_iff_of_spares (spares_of_patient hs)
  exact ⟨hbound, fun answers rows hvalid =>
    (hiff answers rows hvalid).mpr (not_overdrawn_of_patient hs)⟩

/-! ### Two tickets and one slot -/

/-- A batch is dropped while its fill is in flight, and another one is held. -/
def lingeringRun : List (Action twoShards) :=
  [.prefetch [0] 0 fun _ => {}, .dropTicket 0, .prefetch [0] 1 fun _ => {}]

/-- Two batches are in flight, as many as there may be, and no further one may be asked for. -/
theorem batches_bounded_lingering :
    ∃ s, Reaches step Spares (start twoShards twoShards_accepted) s ∧ s.lingering = 1 ∧
      s.world.table.heldRecords = 1 ∧ s.inFlight ≤ twoShards.maxTickets.toNat ∧
      ∀ answers, ¬ s.Bounded answers [0] := by
  have hrun : (exec step lingeringRun (start twoShards twoShards_accepted)).any fun s =>
      s.lingering = 1 ∧ s.world.table.heldRecords = 1 ∧ s.Overdrawn := by
    decide +kernel
  have hallowed : AllAllowed step Spares lingeringRun (start twoShards twoShards_accepted) := by
    decide +kernel
  obtain ⟨s, hs, hfacts⟩ := (Option.any_eq_true _ _).mp hrun
  obtain ⟨hlingering, hheld, hoverdrawn⟩ := of_decide_eq_true hfacts
  have hreaches := reaches_of_exec .start hallowed hs
  obtain ⟨hbound, hiff⟩ := (batches_bounded_iff twoShards_accepted).1 s hreaches
  exact ⟨s, hreaches, hlingering, hheld, hbound, fun answers hbounded =>
    (hiff answers [0] (by decide)).mp hbounded hoverdrawn⟩

/-- The first batch is dropped while its fill is in flight, and its record is taken again. -/
def overdrawnRun : List (Action twoShards) :=
  [.prefetch [0] 0 fun _ => {}, .prefetch [0] 1 fun _ => {}, .dropTicket 0,
    .prefetch [0] 0 fun _ => {}]

/-- Three batches are in flight where two may be. -/
theorem three_batches_in_flight :
    ∃ s, Reachable step (start twoShards twoShards_accepted) s ∧
      twoShards.maxTickets.toNat < s.inFlight := by
  have hrun : (exec step overdrawnRun (start twoShards twoShards_accepted)).any
      fun s => twoShards.maxTickets.toNat < s.inFlight := by
    decide +kernel
  obtain ⟨s, hs, hmany⟩ := (Option.any_eq_true _ _).mp hrun
  exact ⟨s, reachable_of_exec .start hs, of_decide_eq_true hmany⟩

end Batched

end TieredCache
