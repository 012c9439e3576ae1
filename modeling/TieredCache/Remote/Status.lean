/-
# Outcomes of the remote mirror

One vocabulary for the transport, the chunk store and the mirror on top of both.
-/

namespace TieredCache.Remote

/-- Every outcome of the remote mirror. -/
inductive Status
  | ok
  | invalidArgument
  | outOfRange
  | connectFailed
  | sendFailed
  | timeout
  | truncated
  | serverError
  | unexpectedStatus
  | badContentRange
  | unsupportedResponse
  | sourceChanged
  | sizeMismatch
  | retriesExhausted
  | notFound
  | corrupt
  | publishFailed
  | ioError
  deriving DecidableEq, Repr

/-- `is_transient`: the failures a transport retries. -/
def Status.isTransient : Status → Bool
  | .connectFailed | .sendFailed | .timeout | .truncated | .serverError => true
  | _ => false

end TieredCache.Remote
