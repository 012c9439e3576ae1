/-
# A table of a few row sizes and its clients as one machine

Each class's table is a machine of its own; a call of the whole table is a series of calls of class
tables, all made by the calling thread.  In one step every class's machine takes one of its own
actions or stands still: most steps are one critical section of one class.  A lease variable may
hold a lease of any class, so what a client does to a variable is done in every class, and only the
class of its lease has anything to do.
-/

import TieredCache.Math.Families
import TieredCache.Table.Machine
import TieredCache.Table.SizeClasses

namespace TieredCache

open Math.Families

/-! ## Routing -/

namespace SizeClassedTable

variable (t : SizeClassedTable)

/-- A class, by the number of its table. -/
abbrev ClassId := Fin t.tables.length

/-- The registration of a class's table. -/
abbrev classConfig (c : t.ClassId) : TableConfig := (t.tables.get c).config

/-- `class_of_`. -/
def routeOf (row : UInt64) : Option t.ClassId :=
  match t.classOf[row.toNat]? with
  | none => none
  | some c => if h : c < t.tables.length then some ⟨c, h⟩ else none

/-- `local_of_`. -/
def localRow (row : UInt64) : UInt64 := UInt64.ofNat (t.localOf.getD row.toNat 0)

/-- The rows of a batch that are in one class, by their numbers in it: what `prefetch` writes into
the scratch list of the class. -/
def scratchRows (rows : List UInt64) (c : t.ClassId) : List UInt64 :=
  (rows.filter fun row => t.routeOf row = some c).map t.localRow

end SizeClassedTable

/-! ## Program counters -/

/-- One call of `resolve_into`. -/
structure ClassedCall where
  rows : List UInt64
  /-- The variable of `out[0]`. -/
  out : LeaseVar
  deriving DecidableEq, Repr

/-- Where in `resolve_into` a thread is: before row `i`, inside the class table's call for row `i`,
or giving back the entries before row `i`. -/
inductive ClassedResolvePc (t : SizeClassedTable)
  | row (i : ℕ)
  | inside (i : ℕ) (c : t.ClassId)
  | unwind (j i : ℕ) (failure : Status)
  | returned (result : Except Status ℕ)
  deriving DecidableEq

/-- Where in `prefetch` a thread is: before class `c`, or about to drop the ticket of class `c`. -/
inductive ClassedPrefetchPc (t : SizeClassedTable)
  | table (c : ℕ)
  | dropping (c : t.ClassId)
  | returned (result : Status)
  deriving DecidableEq

/-- Where in `drain` a thread is. -/
inductive ClassedDrainPc (t : SizeClassedTable)
  | table (c : ℕ)
  | inside (c : t.ClassId)
  | returned (result : Status)
  deriving DecidableEq

/-- Where a client thread is. -/
inductive ClassedPc (t : SizeClassedTable)
  | idle
  | refused (status : Status)
  | resolving (call : ClassedCall) (pc : ClassedResolvePc t)
  | prefetching (rows : List UInt64) (pc : ClassedPrefetchPc t)
  | draining (deadline : Bool) (pc : ClassedDrainPc t)
  deriving DecidableEq

/-- What the clients are doing. -/
structure ClassedClients (t : SizeClassedTable) where
  /-- The variables that belong to the `out` span of a running call. -/
  inUse : LeaseVar → Bool := fun _ => false
  threads : ThreadId → ClassedPc t := fun _ => .idle
  /-- The caller of `prefetch`, which takes one caller at a time. -/
  prefetcher : Option ThreadId := none

/-- The whole state. -/
structure ClassedWorld (t : SizeClassedTable) extends ClassedClients t where
  tables : ∀ c : t.ClassId, World (t.classConfig c)

/-- The steps of the machine. -/
inductive ClassedAction (t : SizeClassedTable)
  | resolveInto (thread : ThreadId) (rows : List UInt64) (out : LeaseVar) (outSize : ℕ)
  | prefetch (thread : ThreadId) (rows : List UInt64)
  | drain (thread : ThreadId) (deadline : Bool)
  | advance (thread : ThreadId) (choice : Choice)
  | leave (thread : ThreadId)
  | tryGet (row : UInt64) (lease : LeaseVar)
  | reset (lease : LeaseVar)
  | move (source target : LeaseVar)
  | work (c : t.ClassId) (choice : Choice)
  | deliver (c : t.ClassId) (id : RequestId) (status : MemStatus)

/-- What the class tables do in one step. -/
abbrev ClassMoves (t : SizeClassedTable) := ∀ c : t.ClassId, Option (Action (t.classConfig c))

namespace ClassedWorld

variable {t : SizeClassedTable}

/-- No class's table does anything. -/
def still : ClassMoves t := fun _ => none

/-- `RowLease::reset`, in whichever class the lease is. -/
def resetAll (v : LeaseVar) : ClassMoves t := fun _ => some (.reset v)

/-- The state before any client has done anything. -/
def start (t : SizeClassedTable) (h : ∀ c, (t.classConfig c).Accepted) : ClassedWorld t where
  tables := fun c => World.start (t.classConfig c) (h c)

/-! ## resolve_into -/

/-- One step of `resolve_into`: what the class tables do, and where the call goes. -/
def resolveStep (w : ClassedWorld t) (thread : ThreadId) (call : ClassedCall) (choice : Choice) :
    ClassedResolvePc t → Option (ClassMoves t × ClassedResolvePc t)
  | .row i =>
      match call.rows[i]? with
      | none => some (still, .returned (.ok call.rows.length))
      | some row =>
          if t.config.rowCount ≤ row then some (still, .unwind 0 i .outOfRange)
          else
            (t.routeOf row).map fun c =>
              (only c (.resolveInto thread [t.localRow row] (call.out + i) 1), .inside i c)
  | .inside i c =>
      match (w.tables c).threads thread with
      | .resolving _ (.returned (.ok _)) => some (only c (.leave thread), .row (i + 1))
      | .resolving _ (.returned (.error failure)) =>
          some (only c (.leave thread), .unwind 0 i failure)
      | .refused failure => some (only c (.leave thread), .unwind 0 i failure)
      | .resolving _ (.releasing 0) =>
          -- The lease in `out[i]` may be of any class.
          some (Function.update (resetAll (call.out + i)) c (some (.advance thread choice)),
            .inside i c)
      | _ => some (only c (.advance thread choice), .inside i c)
  | .unwind j i failure =>
      if j < i then some (resetAll (call.out + j), .unwind (j + 1) i failure)
      else some (still, .returned (.error failure))
  | .returned _ => none

/-! ## prefetch -/

/-- One step of `prefetch`.  The ticket of a class is dropped as soon as it is there; it is held in
the variable numbered as the thread. -/
def prefetchStep (w : ClassedWorld t) (thread : ThreadId) (rows : List UInt64) (choice : Choice) :
    ClassedPrefetchPc t → Option (ClassMoves t × ClassedPrefetchPc t)
  | .table c =>
      if h : c < t.tables.length then
        let c' : t.ClassId := ⟨c, h⟩
        if rows.any fun row => t.config.rowCount ≤ row then some (still, .returned .outOfRange)
        else
          let scratch := t.scratchRows rows c'
          if scratch = [] then some (still, .table (c + 1))
          else
            match ((w.tables c').table.prefetch choice.answers scratch).1 with
            | .error status =>
                some (only c' (.prefetch scratch thread choice.answers), .returned status)
            | .ok _ => some (only c' (.prefetch scratch thread choice.answers), .dropping c')
      else some (still, .returned .ok)
  | .dropping c => some (only c (.dropTicket thread), .table (c + 1))
  | .returned _ => none

/-! ## drain -/

/-- One step of `drain`. -/
def drainStep (w : ClassedWorld t) (thread : ThreadId) (deadline : Bool) (choice : Choice) :
    ClassedDrainPc t → Option (ClassMoves t × ClassedDrainPc t)
  | .table c =>
      if h : c < t.tables.length then
        some (only (⟨c, h⟩ : t.ClassId) (.drain thread deadline), .inside ⟨c, h⟩)
      else some (still, .returned .ok)
  | .inside c =>
      match (w.tables c).threads thread with
      | .draining _ (.returned .ok) => some (only c (.leave thread), .table (c + 1))
      | .draining _ (.returned status) => some (only c (.leave thread), .returned status)
      | _ => some (only c (.advance thread choice), .inside c)
  | .returned _ => none

/-! ## The step function -/

/-- Put a thread somewhere. -/
def setThread (w : ClassedWorld t) (thread : ThreadId) (pc : ClassedPc t) : ClassedClients t :=
  { w.toClassedClients with threads := Function.update w.threads thread pc }

/-- Mark the variables of an `out` span as used by a call, or no longer. -/
def setInUse (w : ClassedWorld t) (out : LeaseVar) (count : ℕ) (used : Bool) : ClassedWorld t :=
  { w with inUse := fun v => if out ≤ v ∧ v < out + count then used else w.inUse v }

/-- A thread calls `resolve_into`.  No entry of `out` may be in use by another call. -/
def callResolve (w : ClassedWorld t) (thread : ThreadId) (rows : List UInt64) (out : LeaseVar)
    (outSize : ℕ) : Option (ClassMoves t × ClassedClients t) :=
  match w.threads thread with
  | .idle =>
      if rows = [] then some (still, w.setThread thread (.refused .emptyRange))
      else if outSize < rows.length then
        some (still, w.setThread thread (.refused .invalidArgument))
      else if ∃ i < rows.length, w.inUse (out + i) then none
      else
        some (still, (w.setInUse out rows.length true).setThread thread
          (.resolving ⟨rows, out⟩ (.row 0)))
  | _ => none

/-- A thread calls `prefetch`, while no other thread is in it. -/
def callPrefetch (w : ClassedWorld t) (thread : ThreadId) (rows : List UInt64) :
    Option (ClassMoves t × ClassedClients t) :=
  match w.threads thread, w.prefetcher with
  | .idle, none =>
      if t.config.maxBatchRows.toNat < rows.length then
        some (still, w.setThread thread (.refused .batchTooLarge))
      else
        some (still,
          { w.setThread thread (.prefetching rows (.table 0)) with prefetcher := some thread })
  | _, _ => none

/-- A thread calls `drain`. -/
def callDrain (w : ClassedWorld t) (thread : ThreadId) (deadline : Bool) :
    Option (ClassMoves t × ClassedClients t) :=
  match w.threads thread with
  | .idle => some (still, w.setThread thread (.draining deadline (.table 0)))
  | _ => none

/-- A thread inside a call takes its next step. -/
def advance (w : ClassedWorld t) (thread : ThreadId) (choice : Choice) :
    Option (ClassMoves t × ClassedClients t) :=
  match w.threads thread with
  | .resolving call pc =>
      (w.resolveStep thread call choice pc).map fun (moves, pc') =>
        (moves, w.setThread thread (.resolving call pc'))
  | .prefetching rows pc =>
      (w.prefetchStep thread rows choice pc).map fun (moves, pc') =>
        (moves, w.setThread thread (.prefetching rows pc'))
  | .draining deadline pc =>
      (w.drainStep thread deadline choice pc).map fun (moves, pc') =>
        (moves, w.setThread thread (.draining deadline pc'))
  | _ => none

/-- The caller takes the result of a finished call. -/
def leave (w : ClassedWorld t) (thread : ThreadId) : Option (ClassMoves t × ClassedClients t) :=
  match w.threads thread with
  | .refused _ => some (still, w.setThread thread .idle)
  | .resolving call (.returned _) =>
      some (still, (w.setInUse call.out call.rows.length false).setThread thread .idle)
  | .prefetching _ (.returned _) =>
      some (still, { w.setThread thread .idle with prefetcher := none })
  | .draining _ (.returned _) => some (still, w.setThread thread .idle)
  | _ => none

/-- `try_get`; the lease goes to an empty variable. -/
def tryGet (w : ClassedWorld t) (row : UInt64) (v : LeaseVar) :
    Option (ClassMoves t × ClassedClients t) :=
  if w.inUse v ∨ ∃ c, ((w.tables c).leases v).isSome then none
  else if t.config.rowCount ≤ row then some (still, w.toClassedClients)
  else (t.routeOf row).map fun c => (only c (.tryGet (t.localRow row) v), w.toClassedClients)

/-- What an action asks of the class tables, and what becomes of the clients. -/
def act (w : ClassedWorld t) : ClassedAction t → Option (ClassMoves t × ClassedClients t)
  | .resolveInto thread rows out outSize => w.callResolve thread rows out outSize
  | .prefetch thread rows => w.callPrefetch thread rows
  | .drain thread deadline => w.callDrain thread deadline
  | .advance thread choice => w.advance thread choice
  | .leave thread => w.leave thread
  | .tryGet row lease => w.tryGet row lease
  | .reset lease => if w.inUse lease then none else some (resetAll lease, w.toClassedClients)
  | .move source target =>
      if w.inUse source ∨ w.inUse target then none
      else some (fun _ => some (.move source target), w.toClassedClients)
  | .work c choice => some (only c (.work choice), w.toClassedClients)
  | .deliver c id status => some (only c (.deliver id status), w.toClassedClients)

/-- One step of the machine.  Nothing happens after `std::terminate`. -/
def step (w : ClassedWorld t) (action : ClassedAction t) : Option (ClassedWorld t) :=
  if ∃ c, (w.tables c).crashed then none
  else
    (w.act action).bind fun (moves, clients) =>
      (turns (fun _ => World.step) w.tables moves).map fun tables => ⟨clients, tables⟩

end ClassedWorld

end TieredCache
