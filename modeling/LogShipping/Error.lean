import LogShipping.Decimal

/-!
# Errors

Every operation that can fail answers with one `Error`, which names the cause. `Error.message` is the
text shown to an operator, `Error.isRetryable` tells a failure that may pass from one that will not,
and `Error.isStale` singles out the loss of a queue by the one working on it.
-/

namespace LogShipping

/-- Why the file system refused a call. -/
inductive FileFault
  | notFound
  | invalidInput
  | invalidFileName
  | isDirectory
  | notDirectory
  | other (text : String)
  deriving Repr, DecidableEq

namespace FileFault

def message : FileFault → String
  | notFound => "No such file or directory (os error 2)"
  | invalidInput => "invalid argument"
  | invalidFileName => "File name too long (os error 36)"
  | isDirectory => "Is a directory (os error 21)"
  | notDirectory => "Not a directory (os error 20)"
  | other text => text

/-- The word for the kind of fault. -/
def kind : FileFault → String
  | notFound => "NotFound"
  | invalidInput => "InvalidInput"
  | invalidFileName => "InvalidFilename"
  | isDirectory => "IsADirectory"
  | notDirectory => "NotADirectory"
  | other _ => "Other"

end FileFault

inductive Error
  | duplicatePeer (peer : String)
  | unknownPeer (peer : String)
  | staleOwnership (queue caller : String)
  | sourceStillAlive (node : String)
  | queueNotFound (queue : String)
  | nonMonotonicOffset (queue : String) (current requested : Nat)
  | ship (peer detail : String)
  | timeout (operation : String) (milliseconds : Nat)
  | stream (operation detail : String)
  | log (detail : String)
  | file (fault : FileFault)
  | store (detail : String)
  | config (detail : String)
  | invalidState (expected actual : String)
  | shutdown
  | internal (detail : String)
  deriving Repr, DecidableEq

namespace Error

def message : Error → String
  | duplicatePeer peer => "Peer already exists: " ++ peer
  | unknownPeer peer => "Unknown peer: " ++ peer
  | staleOwnership queue caller =>
    "Stale ownership of queue " ++ queue ++ ": caller " ++ caller ++ " is not the owner"
  | sourceStillAlive node => "Source node still alive: " ++ node
  | queueNotFound queue => "Queue not found: " ++ queue
  | nonMonotonicOffset queue current requested =>
    "Non-monotonic offset for queue " ++ queue ++ ": current " ++ Decimal.text current ++
      ", requested " ++ Decimal.text requested
  | ship peer detail => "Ship to peer " ++ peer ++ " failed: " ++ detail
  | timeout operation milliseconds =>
    "Timeout after " ++ Decimal.text milliseconds ++ "ms: " ++ operation
  | stream operation detail => "Redis error (" ++ operation ++ "): " ++ detail
  | log detail => "WAL error: " ++ detail
  | file fault => "IO error: " ++ fault.message
  | store detail => "Store error: " ++ detail
  | config detail => "Configuration error: " ++ detail
  | invalidState expected actual => "Invalid state: expected " ++ expected ++ ", got " ++ actual
  | shutdown => "Shutdown in progress"
  | internal detail => "Internal error: " ++ detail

/-- The word for the kind of error. -/
def kind : Error → String
  | duplicatePeer .. => "DuplicatePeer"
  | unknownPeer .. => "UnknownPeer"
  | staleOwnership .. => "StaleOwnership"
  | sourceStillAlive .. => "SourceStillAlive"
  | queueNotFound .. => "QueueNotFound"
  | nonMonotonicOffset .. => "NonMonotonicOffset"
  | ship .. => "Ship"
  | timeout .. => "Timeout"
  | stream .. => "Redis"
  | log .. => "Wal"
  | file .. => "Io"
  | store .. => "Store"
  | config .. => "Config"
  | invalidState .. => "InvalidState"
  | shutdown => "Shutdown"
  | internal .. => "Internal"

/-- Failures on the way to a peer may pass; everything else needs attention or a new decision. -/
def isRetryable : Error → Bool
  | ship .. | timeout .. | stream .. => true
  | _ => false

/-- The caller no longer owns the queue it was working on. -/
def isStale : Error → Bool
  | staleOwnership .. => true
  | _ => false

end Error

/-- The answer of an operation that can fail. -/
abbrev Outcome (α : Type) := Except Error α

end LogShipping
