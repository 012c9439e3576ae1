/-
# The mirror backend

A queue of fill requests in a ring, worker threads that take them from it and read them
through mirrors, and one call of `shutdown`.  What a section under the mutex does is one step; a
delivery, which is made outside it, is another one.
-/

import TieredCache.Math.Ring
import TieredCache.Math.Runs
import TieredCache.Remote.Mirror
import TieredCache.Status

namespace TieredCache.Remote

open Math Math.Runs

/-! ## Requests and what is delivered for them -/

/-- `FillRequest`, as far as the backend looks at it: the destination is known by its size, the
sink by its identity. -/
structure FillRequest where
  source : ℕ
  sourceOffset : UInt64
  destinationSize : UInt64
  token : UInt64
  sink : ℕ
  deriving DecidableEq, Repr

/-- What a sink is told of a request. -/
structure Completion where
  status : MemStatus
  bytes : UInt64
  deriving DecidableEq, Repr

/-- `WorkItem`.  The number is ghost: the calls of `submit` are numbered in order. -/
structure WorkItem where
  request : FillRequest
  mirror : Option ℕ
  sourceKnown : Bool
  number : ℕ
  deriving DecidableEq, Repr

/-- What `perform` delivers for the outcome of `Mirror::read`. -/
def ReadOutcome.reported (outcome : ReadOutcome) : Completion :=
  if outcome.status = .ok then ⟨.ok, outcome.bytes⟩
  else if outcome.status = .truncated then ⟨.ok, outcome.bytes⟩
  else ⟨.ioError, 0⟩

/-- What `perform` delivers for an item. -/
def WorkItem.performed (item : WorkItem) (outcome : ReadOutcome) : Completion :=
  if !item.sourceKnown then ⟨.invalidArgument, 0⟩ else outcome.reported

/-! ## The backend -/

/-- `MirrorBackendConfig`. -/
structure MirrorBackendConfig where
  workers : UInt32 := 1
  queueCapacity : UInt32 := 0
  maxSources : UInt32 := 0
  deriving DecidableEq, Repr

/-- The parameters that `create` accepts. -/
structure MirrorBackendConfig.Accepted (cfg : MirrorBackendConfig) : Prop where
  workers : cfg.workers ≠ 0
  queueCapacity : cfg.queueCapacity ≠ 0
  maxSources : cfg.maxSources ≠ 0

/-- `MirrorBackendStats`. -/
structure MirrorBackendStats where
  accepted : UInt64 := 0
  rejectedQueueFull : UInt64 := 0
  completedOk : UInt64 := 0
  shortReads : UInt64 := 0
  errors : UInt64 := 0
  cancelled : UInt64 := 0
  bytesRead : UInt64 := 0
  queueHighWater : UInt32 := 0
  inFlight : UInt32 := 0
  deriving DecidableEq, Repr

/-- `SourceEntry`; mirrors are known by numbers. -/
structure SourceEntry where
  source : ℕ
  mirror : ℕ
  deriving DecidableEq, Repr

/-- What the mutex guards. -/
structure MirrorBackend (cfg : MirrorBackendConfig) where
  sources : List SourceEntry := []
  ring : Ring WorkItem cfg.queueCapacity.toNat
  shuttingDown : Bool := false
  stats : MirrorBackendStats := {}

namespace MirrorBackend

variable {cfg : MirrorBackendConfig} (b : MirrorBackend cfg)

/-- `register_mirror`. -/
def registerMirror (source mirror : ℕ) : MemStatus × MirrorBackend cfg :=
  if b.sources.any fun entry => entry.source = source then (.invalidArgument, b)
  else if b.sources.length = cfg.maxSources.toNat then (.ticketExhausted, b)
  else (.ok, { b with sources := b.sources ++ [⟨source, mirror⟩] })

/-- `find_source_locked`. -/
def findSourceLocked (source : ℕ) : Option ℕ :=
  (b.sources.find? fun entry => entry.source = source).map (·.mirror)

/-- The item `submit` makes of a request. -/
def itemFor (request : FillRequest) (number : ℕ) : WorkItem where
  request := request
  mirror := b.findSourceLocked request.source
  sourceKnown := (b.findSourceLocked request.source).isSome
  number := number

/-- The queue after `submit`, if it takes the request. -/
def enqueued (request : FillRequest) (number : ℕ) :
    Option (Ring WorkItem cfg.queueCapacity.toNat) :=
  if b.shuttingDown then none else b.ring.push (b.itemFor request number)

/-- `submit` of a request that is taken. -/
def accept (ring : Ring WorkItem cfg.queueCapacity.toNat) : MirrorBackend cfg :=
  { b with
    ring := ring
    stats :=
      { b.stats with
        accepted := b.stats.accepted + 1
        queueHighWater := max b.stats.queueHighWater (UInt32.ofNat ring.size) } }

/-- `submit` of a request that is not taken. -/
def reject : MirrorBackend cfg :=
  { b with stats := { b.stats with rejectedQueueFull := b.stats.rejectedQueueFull + 1 } }

/-- A worker has taken an item. -/
def begin (ring : Ring WorkItem cfg.queueCapacity.toNat) : MirrorBackend cfg :=
  { b with
    ring := ring
    stats := { b.stats with inFlight := b.stats.inFlight + 1 } }

/-- The last section of `perform`: count what was delivered. -/
def record (item : WorkItem) (completion : Completion) : MirrorBackend cfg :=
  { b with
    stats :=
      if !item.sourceKnown then
        { b.stats with
          errors := b.stats.errors + 1
          inFlight := b.stats.inFlight - 1 }
      else
        let stats :=
          { b.stats with
            bytesRead := b.stats.bytesRead + completion.bytes
            inFlight := b.stats.inFlight - 1 }
        if completion.status ≠ .ok then { stats with errors := stats.errors + 1 }
        else if completion.bytes = item.request.destinationSize then
          { stats with completedOk := stats.completedOk + 1 }
        else { stats with shortReads := stats.shortReads + 1 } }

/-- The first section of `shutdown`: the queue is emptied. -/
def beginShutdown : MirrorBackend cfg :=
  { b with
    shuttingDown := true
    ring := (b.ring.popAll b.ring.size).2 }

/-- What `shutdown` takes from the queue. -/
def queued : List WorkItem := (b.ring.popAll b.ring.size).1

/-- `shutdown` counts one of them. -/
def recordCancelled : MirrorBackend cfg :=
  { b with stats := { b.stats with cancelled := b.stats.cancelled + 1 } }

end MirrorBackend

/-! ## Threads -/

/-- Where a worker is: about to look at the queue, waiting for a signal, reading for an item,
about to count what it has delivered, or gone. -/
inductive WorkerPc
  | awake
  | asleep
  | performing (item : WorkItem)
  | recording (item : WorkItem) (completion : Completion)
  | exited
  deriving DecidableEq

/-- Where the call of `shutdown` is. -/
inductive ShutdownPc
  | idle
  | delivering (queued : List WorkItem)
  | counting (queued : List WorkItem)
  | joining
  | returned
  deriving DecidableEq

/-- Ghost: one call of `submit`, whether its source was registered, and the answer. -/
structure Submission where
  request : FillRequest
  known : Bool
  accepted : Bool
  deriving DecidableEq, Repr

/-- Ghost: one call of `deliver`. -/
structure Delivery where
  number : ℕ
  sink : ℕ
  token : UInt64
  completion : Completion
  deriving DecidableEq, Repr

/-- A backend with its threads, and what has happened. -/
structure BackendWorld (cfg : MirrorBackendConfig) where
  backend : MirrorBackend cfg
  workers : Fin cfg.workers.toNat → WorkerPc := fun _ => .awake
  shutdown : ShutdownPc := .idle
  submitted : List Submission := []
  /-- The items that have left the queue, in order. -/
  left : List ℕ := []
  deliveries : List Delivery := []

/-- What can happen next. -/
inductive BackendAction (cfg : MirrorBackendConfig)
  /-- `notify_one` wakes this worker. -/
  | submit (request : FillRequest) (notified : Option (Fin cfg.workers.toNat))
  | register (source mirror : ℕ)
  /-- The outcome is that of the read, where the worker reads. -/
  | work (worker : Fin cfg.workers.toNat) (outcome : ReadOutcome)
  /-- A wait may end without a signal. -/
  | wake (worker : Fin cfg.workers.toNat)
  | shutdown
  | advance

namespace BackendWorld

variable {cfg : MirrorBackendConfig} (w : BackendWorld cfg)

/-- A backend as `create` makes it. -/
def start (cfg : MirrorBackendConfig) (h : cfg.Accepted) : BackendWorld cfg where
  backend :=
    { ring := .empty (Nat.pos_of_ne_zero fun hzero => h.queueCapacity (UInt32.toNat_inj.mp hzero))
        ⟨⟨0, 0, 0, 0, 0⟩, none, false, 0⟩ }

/-- `notify_one`: one worker that waits is woken, if there is one. -/
def notifyOne (notified : Option (Fin cfg.workers.toNat)) :
    Option (Fin cfg.workers.toNat → WorkerPc) :=
  match notified with
  | some i => if w.workers i = .asleep then some (Function.update w.workers i .awake) else none
  | none => if ∃ i, w.workers i = .asleep then none else some w.workers

/-- `notify_all`. -/
def notifyAll : Fin cfg.workers.toNat → WorkerPc := fun i =>
  if w.workers i = .asleep then .awake else w.workers i

/-- Move one worker. -/
def setWorker (i : Fin cfg.workers.toNat) (pc : WorkerPc) : BackendWorld cfg :=
  { w with workers := Function.update w.workers i pc }

/-- A call of `sink.deliver` for an item. -/
def deliver (item : WorkItem) (completion : Completion) : BackendWorld cfg :=
  { w with
    deliveries := w.deliveries ++
      [⟨item.number, item.request.sink, item.request.token, completion⟩] }

/-- `submit`. -/
def submit (request : FillRequest) (notified : Option (Fin cfg.workers.toNat)) :
    Option (BackendWorld cfg) :=
  let known := (w.backend.findSourceLocked request.source).isSome
  match w.backend.enqueued request w.submitted.length with
  | none =>
      some { w with
        backend := w.backend.reject
        submitted := w.submitted ++ [⟨request, known, false⟩] }
  | some ring =>
      (w.notifyOne notified).map fun workers =>
        { w with
          backend := w.backend.accept ring
          workers := workers
          submitted := w.submitted ++ [⟨request, known, true⟩] }

/-- One step of a worker: of `worker_loop`, or of the `perform` it calls. -/
def work (i : Fin cfg.workers.toNat) (outcome : ReadOutcome) : Option (BackendWorld cfg) :=
  match w.workers i with
  | .awake =>
      match w.backend.ring.pop with
      | none => some (w.setWorker i (if w.backend.shuttingDown then .exited else .asleep))
      | some (item, ring) =>
          some { w.setWorker i (.performing item) with
            backend := w.backend.begin ring
            left := w.left ++ [item.number] }
  | .performing item =>
      let completion := item.performed outcome
      some ((w.deliver item completion).setWorker i (.recording item completion))
  | .recording item completion =>
      some { w.setWorker i .awake with backend := w.backend.record item completion }
  | .asleep => none
  | .exited => none

/-- One step of `shutdown` after its first section. -/
def advance : Option (BackendWorld cfg) :=
  match w.shutdown with
  | .delivering [] => some { w with shutdown := .joining }
  | .delivering (item :: rest) =>
      some { w.deliver item ⟨.cancelled, 0⟩ with shutdown := .counting rest }
  | .counting rest =>
      some { w with backend := w.backend.recordCancelled, shutdown := .delivering rest }
  | .joining =>
      if ∀ i, w.workers i = .exited then some { w with shutdown := .returned } else none
  | .idle => none
  | .returned => none

/-- The steps of the system.  There is one call of `shutdown`. -/
def step : BackendAction cfg → Option (BackendWorld cfg)
  | .submit request notified => w.submit request notified
  | .register source mirror =>
      some { w with backend := (w.backend.registerMirror source mirror).2 }
  | .work i outcome => w.work i outcome
  | .wake i => if w.workers i = .asleep then some (w.setWorker i .awake) else none
  | .shutdown =>
      if w.shutdown = .idle then
        some { w with
          backend := w.backend.beginShutdown
          workers := w.notifyAll
          shutdown := .delivering w.backend.queued
          left := w.left ++ w.backend.queued.map (·.number) }
      else none
  | .advance => w.advance

end BackendWorld

end TieredCache.Remote
