/-
# Outcomes of the row cache and of the transport below it

`Status` is the vocabulary every row-cache call reports in.  `MemStatus` is the
vocabulary of the page transport the cache submits its reads to; the cache never
hands one of its values to a caller without translating it first.
-/

namespace TieredCache

/-- Every outcome a row-cache call can report. -/
inductive Status
  | ok
  | pending
  | notResident
  | poolExhausted
  | batchTooLarge
  | ticketExhausted
  | outOfRange
  | emptyRange
  | invalidArgument
  | busy
  | shortRead
  | ioError
  | cancelled
  | timeout
  | codecFailed
  | unsupportedConversion
  | declined
  deriving DecidableEq, Repr

/-- Every outcome the page transport can report. -/
inductive MemStatus
  | ok
  | pending
  | notResident
  | poolExhausted
  | batchTooLarge
  | queueExhausted
  | ticketExhausted
  | outOfRange
  | emptyRange
  | invalidArgument
  | busy
  | shortRead
  | ioError
  | cancelled
  | timeout
  | declined
  deriving DecidableEq, Repr

/-- An outcome a request can end with. -/
def MemStatus.Terminal (status : MemStatus) : Prop := status ≠ .pending ∧ status ≠ .timeout

instance (status : MemStatus) : Decidable status.Terminal :=
  inferInstanceAs (Decidable (_ ∧ _))

/-- The row cache's reading of a transport outcome. -/
def fromMempage : MemStatus → Status
  | .ok => .ok
  | .pending => .pending
  | .notResident => .notResident
  | .poolExhausted => .poolExhausted
  | .batchTooLarge => .batchTooLarge
  | .queueExhausted => .poolExhausted
  | .ticketExhausted => .ticketExhausted
  | .outOfRange => .outOfRange
  | .emptyRange => .emptyRange
  | .invalidArgument => .invalidArgument
  | .busy => .busy
  | .shortRead => .shortRead
  | .ioError => .ioError
  | .cancelled => .cancelled
  | .timeout => .timeout
  | .declined => .declined

/-- Only success is translated to success. -/
theorem fromMempage_eq_ok_iff {status : MemStatus} :
    fromMempage status = .ok ↔ status = .ok := by
  cases status <;> simp [fromMempage]

end TieredCache
