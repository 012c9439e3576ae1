/-
# What `stats` reports

The snapshot `stats` takes balances in every reachable state.  `codec_failures` stays
below `failed` until `failed` has wrapped: the module ends with a run that gets there.
-/

import TieredCache.Table.Statistics

namespace TieredCache

open Math.Runs Math.Tally Math.Words

variable {cfg : TableConfig}

/-- The snapshot `stats` returns. -/
structure StatsSnapshot extends TableStats where
  resident : UInt64
  leased : UInt64
  deriving DecidableEq, Repr

namespace Table

variable {t : Table cfg}

/-- `stats`. -/
def stats (t : Table cfg) : StatsSnapshot :=
  { t.counters with resident := .ofNat t.resident, leased := .ofNat t.leased }

/-- As many slots as there are, at most. -/
theorem countP_le_budget (p : cfg.SlotId → Bool) :
    (List.finRange cfg.budgetRows.toNat).countP p ≤ cfg.budgetRows.toNat := by
  have h := List.countP_le_length (p := p) (l := List.finRange cfg.budgetRows.toNat)
  rwa [List.length_finRange] at h

/-- A count of slots as a 64-bit word. -/
theorem toNat_ofNat_le_budget {n : ℕ} (h : n ≤ cfg.budgetRows.toNat) : (UInt64.ofNat n).toNat = n := by
  have hword := cfg.budgetRows.toNat_lt
  exact UInt64.toNat_ofNat_of_lt' (by show n < 2 ^ 64; omega)

/-- What the snapshot says in a table whose accounts are right. -/
theorem LedgerInv.balance (h : t.LedgerInv) (hbook : t.BookInv) :
    t.stats.fetches = t.inFlight.toUInt64 + t.stats.failed + t.stats.evictions + t.stats.resident ∧
      (cfg.converting = true → t.stats.conversions = t.stats.evictions + t.stats.resident) ∧
      (t.fetchLog.length < 2 ^ 64 → t.stats.codecFailures ≤ t.stats.failed) := by
  obtain ⟨failed, codec, evicted, ha⟩ := h.accounts
  have hresident : t.resident = tally Slot.Ready t.slots :=
    countP_finRange (f := t.slots) Slot.Ready
  have hflight : t.inFlight.toUInt64 = .ofNat (tally Slot.Filling t.slots) := by
    rw [← hbook.inFlight]
    apply UInt64.toNat_inj.mp
    have hword := t.inFlight.toNat_lt
    rw [UInt32.toNat_toUInt64, UInt64.toNat_ofNat_of_lt' (by show _ < 2 ^ 64; omega)]
  refine ⟨?_, fun hc => ?_, fun hlength => ?_⟩
  · show t.counters.fetches = _ + t.counters.failed + t.counters.evictions + .ofNat t.resident
    rw [ha.fetches, ha.fetched, hflight, ha.failures, ha.evictions, hresident, UInt64.ofNat_add,
      UInt64.ofNat_add, UInt64.ofNat_add]
  · show t.counters.conversions = t.counters.evictions + .ofNat t.resident
    rw [ha.conversions hc, ha.evictions, hresident, UInt64.ofNat_add]
  · have hfetched := ha.fetched
    have hle := ha.codec_le
    show t.counters.codecFailures ≤ t.counters.failed
    rw [ha.codecFailures, ha.failures, UInt64.le_iff_toNat_le,
      UInt64.toNat_ofNat_of_lt' (by show codec < 2 ^ 64; omega),
      UInt64.toNat_ofNat_of_lt' (by show failed < 2 ^ 64; omega)]
    exact hle

end Table

/-! ## The balance -/

/-- The one row, at the start of the one shard. -/
def oneRowResolver : RowExtentResolver where
  resolve := fun _ => .ok ⟨0, ⟨0, 2⟩⟩
  failure_ne_ok := fun _ h => by cases h

/-- One row, one slot, one scratch row and a codec that refuses every row. -/
def failingCodec : TableConfig where
  rowCount := 1
  sourceRowBytes := 2
  outputRowBytes := 4
  representation := .custom
  codec := some fun _ => none
  sources := [⟨0, 2⟩]
  resolveExtent := some oneRowResolver
  outputStorage := ⟨0, 4⟩
  budgetRows := 1
  scratchStorage := ⟨0, 2⟩
  scratchRows := 1
  maxTickets := 1
  maxBatchRows := 1

theorem failingCodec_accepted : failingCodec.Accepted := by decide +kernel

/-- The counters balance in every reachable state. -/
theorem counters_balance {h : cfg.Accepted} {w : World cfg}
    (hw : Reachable World.step (World.start cfg h) w) :
    w.table.stats.fetches =
        w.table.inFlight.toUInt64 + w.table.stats.failed + w.table.stats.evictions +
          w.table.stats.resident ∧
      (cfg.converting = true →
        w.table.stats.conversions = w.table.stats.evictions + w.table.stats.resident ∧
          (w.table.fetchLog.length < 2 ^ 64 → w.table.stats.codecFailures ≤ w.table.stats.failed)) ∧
      w.table.stats.resident.toNat ≤ cfg.budgetRows.toNat ∧
      w.table.stats.leased.toNat ≤ cfg.budgetRows.toNat ∧
      w.table.nonFree.toNat = w.table.occupied := by
  have hledger := World.ledgerInv_of_reachable hw
  obtain ⟨hfetches, hconversions, hcodec⟩ := hledger.balance (World.bookInv_of_reachable hw)
  have hresident : w.table.resident ≤ cfg.budgetRows.toNat := Table.countP_le_budget _
  have hleased : w.table.leased ≤ cfg.budgetRows.toNat := Table.countP_le_budget _
  refine ⟨hfetches, fun hc => ⟨hconversions hc, hcodec⟩, ?_, ?_, ?_⟩
  · show (UInt64.ofNat w.table.resident).toNat ≤ _
    rw [Table.toNat_ofNat_le_budget hresident]
    exact hresident
  · show (UInt64.ofNat w.table.leased).toNat ≤ _
    rw [Table.toNat_ofNat_le_budget hleased]
    exact hleased
  · rw [hledger.nonFree]
    exact (countP_finRange (f := w.table.slots) Slot.InUse).symm

/-- The row is fetched twice: its first fill fails in the codec, its second is published. -/
def failedOnceRun : List (Action failingCodec) :=
  [.prefetch [0] 0 fun _ => {}, .dropTicket 0, .deliver 0 .ok, .work {}, .work {}, .work {},
    .work {}, .work { codecOk := false }, .work {}, .prefetch [0] 0 fun _ => {}, .deliver 1 .ok,
    .work {}, .work {}, .work {}, .work {}, .work {}, .work {}, .tryGet 0 0]

theorem counters_balance_failed_once :
    ∃ w, exec World.step failedOnceRun (World.start failingCodec failingCodec_accepted) = some w ∧
      w.table.stats.fetches = 2 ∧ w.table.stats.codecFailures = 1 ∧
      w.table.stats.conversions = w.table.stats.evictions + w.table.stats.resident ∧
      w.table.stats.codecFailures ≤ w.table.stats.failed ∧
      w.table.nonFree.toNat = w.table.occupied := by
  have hrun : (exec World.step failedOnceRun
      (World.start failingCodec failingCodec_accepted)).any fun w =>
        w.table.stats.fetches = 2 ∧ w.table.stats.codecFailures = 1 ∧
          w.table.fetchLog.length = 2 := by
    decide +kernel
  obtain ⟨w, hw, hfacts⟩ := (Option.any_eq_true _ _).mp hrun
  obtain ⟨hfetches, hcodec, hlog⟩ := of_decide_eq_true hfacts
  obtain ⟨-, hconverting, -, -, hnonFree⟩ := counters_balance (reachable_of_exec .start hw)
  obtain ⟨hconversions, hle⟩ := hconverting (by decide)
  exact ⟨w, hw, hfetches, hcodec, hconversions, hle (by rw [hlog]; decide), hnonFree⟩

/-! ## Failing over and over -/

namespace FailingCodec

/-- The states reached from the start. -/
abbrev Reached : World failingCodec → Prop :=
  Reachable World.step (World.start failingCodec failingCodec_accepted)

/-- The slot, the ticket record and the scratch row there are. -/
def oneSlot : failingCodec.SlotId := ⟨0, by decide⟩

def oneRecord : failingCodec.RecordId := ⟨0, by decide⟩

def oneScratch : failingCodec.ScratchId := ⟨0, by decide⟩

theorem eq_oneSlot (s : failingCodec.SlotId) : s = oneSlot := by
  have hlt : s.val < 1 := s.isLt
  exact Fin.ext (Nat.lt_one_iff.mp hlt)

/-- Nothing is going on, and this many fills have failed. -/
structure Idle (w : World failingCodec) (failed codec : ℕ) : Prop where
  reached : Reached w
  alive : w.crashed = false
  worker : w.worker = .scan
  ticket : w.tickets 0 = {}
  record : (w.table.tickets oneRecord).inUse = false
  state : (w.table.slots oneSlot).state = .free ∨ (w.table.slots oneSlot).state = .failed
  pins : (w.table.slots oneSlot).pins = 0
  chunkClaims : (w.table.slots oneSlot).chunkClaims = []
  scratch : w.table.scratchUsed oneScratch = false
  ended : ∀ id < w.table.requestCount, ¬ (w.table.requests id).Live
  sources : (w.table.bindings w.table.currentBinding).sources = failingCodec.sources
  resolver : (w.table.bindings w.table.currentBinding).resolver = oneRowResolver
  failed : w.table.counters.failed = .ofNat failed
  codec : w.table.counters.codecFailures = .ofNat codec

theorem idle_start : Idle (World.start failingCodec failingCodec_accepted) 0 0 where
  reached := .start
  alive := rfl
  worker := rfl
  ticket := rfl
  record := rfl
  state := Or.inl rfl
  pins := rfl
  chunkClaims := rfl
  scratch := rfl
  ended := fun id hid => absurd hid (Nat.not_lt_zero id)
  sources := rfl
  resolver := rfl
  failed := rfl
  codec := rfl

/-! ### The row is fetched -/

variable {t u : Table failingCodec} {w w' : World failingCodec} {id : RequestId} {failed codec : ℕ}

/-- A transport with no deliveries to make takes a request that is not in its way. -/
theorem submit_default {r : Request} (h : ¬ t.Busy r) :
    t.submit (fun _ => {}) r = (.ok, t.accept r) := by
  simp [Table.submit, Table.deliverAll, h]

/-- The transport takes the one read of a fill. -/
theorem submitFill_eq (hscratch : t.scratchUsed oneScratch = false)
    (hended : ∀ id < t.requestCount, ¬ (t.requests id).Live) :
    ∃ r : Request, r.Live ∧
      t.submitFill (fun _ => {}) oneSlot ⟨0, ⟨0, 2⟩⟩ ⟨0, 2⟩ =
        (.ok, ((t.setScratch oneScratch true).accept r).modify oneSlot fun s =>
          { s with scratchSlot := some oneScratch, claim := some t.requestCount }) := by
  have hacquire : t.acquireScratch = some oneScratch := by
    have hrows : List.finRange failingCodec.scratchRows.toNat = [oneScratch] := by decide
    rw [Table.acquireScratch, hrows]
    simp [hscratch]
  have hidle : ∀ r, ¬ (t.setScratch oneScratch true).Busy r := by
    rintro r ⟨id, hid, hlive, -⟩
    exact hended id hid hlive
  have hplain : failingCodec.chunked = false := by decide
  have hconverting : failingCodec.converting = true := by decide
  refine ⟨⟨t.currentBinding, 0, .scratch, ⟨⟨0, 2⟩, failingCodec.scratchBase oneScratch⟩, none⟩, rfl, ?_⟩
  simp [Table.submitFill, hplain, hconverting, hacquire, submit_default (hidle _)]

/-- The fill of the one slot has been submitted as request `id`. -/
structure Fetched (t : Table failingCodec) (id : RequestId) : Prop where
  state : (t.slots oneSlot).state = .filling
  finishing : (t.slots oneSlot).finishing = false
  pins : (t.slots oneSlot).pins = 0
  chunkClaims : (t.slots oneSlot).chunkClaims = []
  claim : (t.slots oneSlot).claim = some id
  scratchSlot : (t.slots oneSlot).scratchSlot = some oneScratch
  pending : id < t.requestCount ∧ (t.requests id).Live
  ended : ∀ other < t.requestCount, other ≠ id → ¬ (t.requests other).Live
  sources : (t.bindings t.currentBinding).sources = failingCodec.sources
  resolver : (t.bindings t.currentBinding).resolver = oneRowResolver

/-- Starting a fill in the free slot. -/
theorem startFillLocked_fetched (hpins : (t.slots oneSlot).pins = 0)
    (hchunks : (t.slots oneSlot).chunkClaims = []) (hscratch : t.scratchUsed oneScratch = false)
    (hended : ∀ id < t.requestCount, ¬ (t.requests id).Live)
    (hsources : (t.bindings t.currentBinding).sources = failingCodec.sources)
    (hresolver : (t.bindings t.currentBinding).resolver = oneRowResolver) :
    ∃ u, t.startFillLocked (fun _ => {}) oneSlot 0 = (.ok, u) ∧ Fetched u t.requestCount ∧
      u.tickets = t.tickets ∧
      u.counters = { t.counters with fetches := t.counters.fetches + 1 } := by
  have hlocate : failingCodec.locate failingCodec.sources oneRowResolver 0 =
      .ok (⟨0, ⟨0, 2⟩⟩, ⟨0, 2⟩) := rfl
  obtain ⟨r, hlive, hsubmit⟩ := submitFill_eq (t := t.beginAdmission oneSlot 0) hscratch hended
  have hstart : t.startFillLocked (fun _ => {}) oneSlot 0 = (.ok,
      ((((t.beginAdmission oneSlot 0).setScratch oneScratch true).accept r).modify oneSlot fun s =>
        { s with scratchSlot := some oneScratch, claim := some t.requestCount }).commitFill oneSlot 2 0) := by
    rw [Table.startFillLocked]
    dsimp only
    rw [hsources, hresolver, hlocate]
    dsimp only
    rw [hsubmit]
    rfl
  refine ⟨_, hstart, ⟨?_, ?_, ?_, ?_, ?_, ?_, ⟨?_, ?_⟩, fun other hother hne => ?_, ?_, ?_⟩, rfl, rfl⟩
  all_goals simp [Table.commitFill, Table.modify, Table.accept, Table.setScratch, Table.beginAdmission]
  · exact hpins
  · exact hchunks
  · exact hlive
  · rw [Function.update_of_ne hne]
    exact hended other (Nat.lt_of_le_of_ne (Nat.le_of_lt_succ hother) hne)
  · exact hsources
  · exact hresolver

/-- The sweep finds the one slot at once. -/
theorem claimVictim_eq (hstate : (t.slots oneSlot).state = .free ∨ (t.slots oneSlot).state = .failed)
    (hpins : (t.slots oneSlot).pins = 0) (hchunks : (t.slots oneSlot).chunkClaims = []) :
    ∃ u, t.claimVictim = (some oneSlot, u) ∧ (u.slots oneSlot).pins = 0 ∧
      (u.slots oneSlot).chunkClaims = [] ∧ u.scratchUsed = t.scratchUsed ∧ u.requests = t.requests ∧
      u.requestCount = t.requestCount ∧ u.bindings = t.bindings ∧
      u.currentBinding = t.currentBinding ∧ u.tickets = t.tickets ∧ u.counters = t.counters := by
  have hhand : t.clockHand = oneSlot := eq_oneSlot _
  have hsteps : (2 * failingCodec.budgetRows).toNat = 1 + 1 := by decide
  rw [Table.claimVictim, hsteps, Table.claimVictimLoop, hhand]
  rcases hstate with hstate | hstate
  · exact ⟨{ t with clockHand := Table.nextHand oneSlot }, by simp [hstate], hpins, hchunks, rfl, rfl,
      rfl, rfl, rfl, rfl, rfl⟩
  · refine ⟨({ t with clockHand := Table.nextHand oneSlot }).makeFree oneSlot, by simp [hstate, hpins],
      ?_, ?_, rfl, rfl, rfl, rfl, rfl, rfl, rfl⟩ <;> simp [Table.makeFree, hpins]

/-- A prefetch of the row submits its fill. -/
theorem prefetch_eq (h : Idle w failed codec) :
    ∃ t, w.table.prefetch (fun _ => {}) [0] =
        (.ok ⟨oneRecord, (w.table.tickets oneRecord).generation + 1⟩, t) ∧
      Fetched t w.table.requestCount ∧
      t.tickets oneRecord = ⟨(w.table.tickets oneRecord).generation + 1, 1, true, true⟩ ∧
      t.counters = { w.table.counters with fetches := w.table.counters.fetches + 1 } := by
  have hindex := (World.fillInv_of_reachable h.reached).index
  have hrecord : w.table.freeRecord = some oneRecord := by
    have hrecords : List.finRange failingCodec.maxTickets.toNat = [oneRecord] := by decide
    rw [Table.freeRecord, hrecords]
    simp [h.record]
  have hfind : (w.table.openRecord oneRecord 1).indexFind (0, w.table.currentGeneration) = none := by
    refine (Table.IndexInv.indexFind_eq_none_iff (t := w.table) hindex).mpr fun s hs => ?_
    have hoccupied := (hindex.occupied s).mp hs
    rw [eq_oneSlot s] at hoccupied
    rcases hoccupied with hs | hs <;> rcases h.state with hstate | hstate <;> rw [hstate] at hs <;> cases hs
  obtain ⟨u, hclaim, hpins, hchunks, hscratch, hrequests, hcount, hbindings, hcurrent, htickets,
    hcounters⟩ := claimVictim_eq (t := w.table.openRecord oneRecord 1) h.state h.pins h.chunkClaims
  obtain ⟨t, hstart, hfetched, htickets', hcounters'⟩ := startFillLocked_fetched (t := u) hpins
    hchunks (by rw [hscratch]; exact h.scratch) (by rw [hrequests, hcount]; exact h.ended)
    (by rw [hbindings, hcurrent]; exact h.sources) (by rw [hbindings, hcurrent]; exact h.resolver)
  have hself : t.tickets oneRecord = ⟨(w.table.tickets oneRecord).generation + 1, 1, true, true⟩ := by
    rw [htickets', htickets]
    simp [Table.openRecord]
  refine ⟨t.noteWaiter oneRecord 0 oneSlot, ?_, ?_, hself, ?_⟩
  · have hrow : (w.table.openRecord oneRecord 1).prefetchRow (fun _ => {}) oneRecord 0 0 =
        t.noteWaiter oneRecord 0 oneSlot := by
      rw [Table.prefetchRow]
      rw [show (w.table.openRecord oneRecord 1).currentGeneration = w.table.currentGeneration from rfl,
        hfind]
      dsimp only
      rw [hclaim]
      dsimp only
      rw [hstart]
    have hbatch : Table.batchStatus failingCodec [0] = .ok := by decide
    have hrange : Table.anyOutOfRange failingCodec [0] = false := by decide
    rw [Table.prefetch, hbatch, hrange, hrecord]
    simp only [ne_eq, not_true_eq_false, if_false, Bool.false_eq_true, List.length_singleton]
    rw [Table.prefetchRows, Table.prefetchRows, hrow,
      show (t.noteWaiter oneRecord 0 oneSlot).tickets oneRecord = _ from hself]
  · rw [hcount] at hfetched
    exact ⟨hfetched.state, hfetched.finishing, hfetched.pins, hfetched.chunkClaims, hfetched.claim,
      hfetched.scratchSlot, hfetched.pending, hfetched.ended, hfetched.sources, hfetched.resolver⟩
  · show t.counters = _
    rw [hcounters', hcounters]
    rfl

/-- The fill is under way and nobody waits for it. -/
structure Started (w : World failingCodec) (id : RequestId) (failed codec : ℕ) : Prop where
  reached : Reached w
  alive : w.crashed = false
  worker : w.worker = .scan
  ticket : w.tickets 0 = {}
  record : (w.table.tickets oneRecord).inUse = false
  fetched : Fetched w.table id
  failed : w.table.counters.failed = .ofNat failed
  codec : w.table.counters.codecFailures = .ofNat codec

theorem Idle.started (h : Idle w failed codec) : ∃ w' id, Started w' id failed codec := by
  obtain ⟨t, hprefetch, hfetched, hrecord, hcounters⟩ := prefetch_eq h
  have hopened : w.step (.prefetch [0] 0 fun _ => {}) = some (({ w with table := t }).setTicket 0
      { ticket := some ⟨oneRecord, (w.table.tickets oneRecord).generation + 1⟩ }) := by
    show (if w.crashed then none else w.prefetch [0] 0 fun _ => {}) = _
    simp [h.alive, World.prefetch, h.ticket, hprefetch]
  have hdropped : (({ w with table := t }).setTicket 0
      { ticket := some ⟨oneRecord, (w.table.tickets oneRecord).generation + 1⟩ }).step (.dropTicket 0) =
      some { w with
        table :=
          { t with
            tickets := Function.update t.tickets oneRecord
              ⟨(w.table.tickets oneRecord).generation + 1, 1, false, false⟩
            ticketsHeld := t.ticketsHeld - 1 }
        tickets := Function.update w.tickets 0 {} } := by
    simp [World.step, World.act, h.alive, World.setTicket, World.resetTicket, Table.discardTicket,
      hrecord]
  refine ⟨_, _, (h.reached.step trivial hopened).step trivial hdropped, h.alive, h.worker, ?_, ?_,
    ⟨hfetched.state, hfetched.finishing, hfetched.pins, hfetched.chunkClaims, hfetched.claim,
      hfetched.scratchSlot, hfetched.pending, hfetched.ended, hfetched.sources, hfetched.resolver⟩,
    ?_, ?_⟩
  · simp
  · simp
  · show t.counters.failed = _
    rw [hcounters]
    exact h.failed
  · show t.counters.codecFailures = _
    rw [hcounters]
    exact h.codec

/-! ### The fill fails -/

/-- A step of the worker. -/
theorem step_work (choice : Choice) (pc : WorkerPc failingCodec) (halive : w.crashed = false)
    (h : World.workerStep w.table choice w.worker = some (pc, t)) :
    w.step (.work choice) = some { w with table := t, worker := pc } := by
  simp [World.step, World.act, halive, h]

/-- The table once the worker has taken the fill over and its request has ended. -/
def afterDelivery (t : Table failingCodec) (id : RequestId) (status : MemStatus) : Table failingCodec :=
  { t.takeOver oneSlot with
    requests := Function.update t.requests id { t.requests id with outcome := some status } }

/-- The worker takes the fill over, and the transport delivers its request. -/
theorem Started.landed (h : Started w id failed codec) (status : MemStatus)
    (hterminal : status.Terminal) :
    Reached { w with
      table := afterDelivery w.table id status
      worker := .finishing oneSlot (.waiting [id]) } := by
  have hfetched := h.fetched
  have htaken : World.workerStep w.table {} w.worker =
      some (.finishing oneSlot .enter, w.table.takeOver oneSlot) := by
    have hslots : List.finRange failingCodec.budgetRows.toNat = [oneSlot] := by decide
    simp [h.worker, World.workerStep, Table.findUnclaimedFilling, hslots, hfetched.state,
      hfetched.finishing]
  have hentered : World.workerStep (w.table.takeOver oneSlot) {} (.finishing oneSlot .enter) =
      some (.finishing oneSlot (.waiting [id]), w.table.takeOver oneSlot) := by
    simp [World.workerStep, Table.finishStep, Table.awaited, Table.takeOver, Table.modify,
      hfetched.state, hfetched.claim, hfetched.chunkClaims]
  have hdelivered : (w.table.takeOver oneSlot).deliver id status =
      afterDelivery w.table id status :=
    if_pos ⟨hfetched.pending.1, hfetched.pending.2, hterminal⟩
  refine ((h.reached.step trivial (step_work {} _ h.alive htaken)).step trivial
    (step_work {} _ h.alive hentered)).step (a := .deliver id status) trivial ?_
  simp [World.step, World.act, h.alive, hdelivered]

/-- The worker publishes a failure, and nothing is going on again. -/
theorem Started.idle (h : Started w id failed codec) {status : MemStatus} (result : Status)
    (hresult : result ≠ .ok)
    (hpublishing : Reached { w with
      table := afterDelivery w.table id status
      worker := .finishing oneSlot (.publish result) }) :
    Idle { w with table := (afterDelivery w.table id status).publish oneSlot result, worker := .scan }
      (failed + 1) (if result = .codecFailed then codec + 1 else codec) := by
  have hfetched := h.fetched
  have hpublished := hpublishing.step trivial
    (step_work (t := (afterDelivery w.table id status).publish oneSlot result) {} .scan h.alive rfl)
  have hconverting : failingCodec.converting = true := by decide
  have hreleased : ∀ (t : Table failingCodec) b c,
      (t.releasedBinding b c).origin = (t.bindings c).origin := by
    intro t b c
    cases b with
    | none => rfl
    | some b => exact proj_update Binding.origin t.bindings (by rfl) c
  have horigin := hreleased (afterDelivery w.table id status)
    ((afterDelivery w.table id status).slots oneSlot).fillBinding w.table.currentBinding
  obtain ⟨hsources, hresolver⟩ := Prod.mk.inj horigin
  refine ⟨hpublished, h.alive, rfl, h.ticket, h.record, Or.inr ?_, ?_, ?_, ?_, fun other hother => ?_,
    hsources.trans hfetched.sources, hresolver.trans hfetched.resolver, ?_, ?_⟩
  all_goals
    simp only [Table.publish, afterDelivery, Table.takeOver, Table.modify, hresult, hconverting,
      hfetched.scratchSlot, hfetched.pins, if_false, if_true, Function.update_self]
  · by_cases hid : other = id
    · rw [hid, Function.update_self]
      exact Option.some_ne_none status
    · rw [Function.update_of_ne hid]
      exact hfetched.ended other hother hid
  · rw [h.failed, Table.LedgerInv.ofNat_succ]
  · rw [h.codec]
    split_ifs
    · rw [Table.LedgerInv.ofNat_succ]
    · rfl

/-- One more fill fails, in the codec or before. -/
theorem Idle.next (h : Idle w failed codec) (inCodec : Bool) :
    ∃ w', Idle w' (failed + 1) (if inCodec then codec + 1 else codec) := by
  obtain ⟨v, id, hv⟩ := h.started
  have houtcome : ∀ status, ((afterDelivery v.table id status).requests id).outcome = some status :=
    fun status => by simp [afterDelivery]
  cases inCodec with
  | true =>
      have hlanded := hv.landed .ok (by decide)
      have hread : World.workerStep (afterDelivery v.table id .ok) {} (.finishing oneSlot (.waiting [id])) =
          some (.finishing oneSlot (.waiting []), afterDelivery v.table id .ok) := by
        simp [World.workerStep, Table.finishStep, houtcome]
      have hconverts : World.workerStep (afterDelivery v.table id .ok) {} (.finishing oneSlot (.waiting [])) =
          some (.finishing oneSlot .convert, afterDelivery v.table id .ok) := rfl
      have hrefused : World.workerStep (afterDelivery v.table id .ok) { codecOk := false }
          (.finishing oneSlot .convert) =
          some (.finishing oneSlot (.publish .codecFailed), afterDelivery v.table id .ok) := rfl
      exact ⟨_, hv.idle .codecFailed (by decide)
        (((hlanded.step trivial (step_work {} _ hv.alive hread)).step trivial
          (step_work {} _ hv.alive hconverts)).step trivial (step_work _ _ hv.alive hrefused))⟩
  | false =>
      have hlanded := hv.landed .ioError (by decide)
      have hread : World.workerStep (afterDelivery v.table id .ioError) {}
          (.finishing oneSlot (.waiting [id])) =
          some (.finishing oneSlot (.publish .ioError), afterDelivery v.table id .ioError) := by
        simp [World.workerStep, Table.finishStep, houtcome, fromMempage]
      exact ⟨_, hv.idle .ioError (by decide)
        (hlanded.step trivial (step_work {} _ hv.alive hread))⟩

/-- A fill fails in the transport, and any number of fills fail in the codec after it. -/
theorem idle_after (n : ℕ) : ∃ w, Idle w (n + 1) n := by
  induction n with
  | zero => exact idle_start.next false
  | succ n ih =>
      obtain ⟨w, hw⟩ := ih
      exact hw.next true

end FailingCodec

/-- After `2 ^ 64` failed fills `failed` is back at zero, and `codec_failures` is not. -/
theorem codec_failures_exceed_failed :
    ∃ w, Reachable World.step (World.start failingCodec failingCodec_accepted) w ∧
      failingCodec.converting = true ∧ ¬ w.table.stats.codecFailures ≤ w.table.stats.failed := by
  obtain ⟨w, hw⟩ := FailingCodec.idle_after (2 ^ 64 - 1)
  refine ⟨w, hw.reached, by decide, ?_⟩
  show ¬ w.table.counters.codecFailures ≤ w.table.counters.failed
  rw [hw.failed, hw.codec]
  decide +kernel

end TieredCache
