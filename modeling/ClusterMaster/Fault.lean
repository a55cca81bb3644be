/-!
# Faults: why a call is refused, and the code a client gets

A `Fault` names what went wrong; `Fault.message` is its wording and `Fault.code` the result code
reported to clients. Only a missing leadership and a busy row are worth retrying elsewhere or
later (`Fault.isRetryable`).
-/

namespace ClusterMaster

/-- Result code carried by every answer to a client. -/
inductive Code where
  | success
  | badRequest
  | unknownNode
  | internalError
  | notLeader
  deriving DecidableEq, Repr

def Code.number : Code → Nat
  | .success => 200
  | .badRequest => 400
  | .unknownNode => 411
  | .internalError => 500
  | .notLeader => 503

/-- The name of a code and its number in brackets. -/
def Code.label : Code → String
  | .success => "SUCCESS(200)"
  | .badRequest => "BAD_REQUEST(400)"
  | .unknownNode => "HB_NO_NODE(411)"
  | .internalError => "INTERNAL_ERROR(500)"
  | .notLeader => "NOT_LEADER(503)"

/-- Why a call is refused. -/
inductive Fault where
  /-- Malformed or inconsistent request. -/
  | badRequest (context reason : String)
  /-- A heartbeat from a node that is not registered. -/
  | noSuchNode (node : String)
  /-- This master is not the active primary. -/
  | notLeader (master : String)
  /-- A row stayed locked for the whole time a call may wait. -/
  | lockTimeout (lock key : String)
  /-- The store has no configuration for the broker. -/
  | brokerNotConfigured (broker : UInt32)
  /-- Invalid settings or manifest. -/
  | invalidConfig (context reason : String)
  /-- A settings or manifest file could not be read. -/
  | configIo (context reason : String)
  | internal (context reason : String)
  deriving DecidableEq, Repr

namespace Fault

def message : Fault → String
  | badRequest context reason => s!"Bad request in {context}: {reason}"
  | noSuchNode node => s!"Node {node} is not registered"
  | notLeader master => s!"Master {master} is not the current leader"
  | lockTimeout lock key => s!"Timed out acquiring {lock} row lock for '{key}'"
  | brokerNotConfigured broker => s!"Broker with ID {broker} has no configuration"
  | invalidConfig context reason => s!"Invalid configuration in {context}: {reason}"
  | configIo context reason => s!"Configuration I/O error in {context}: {reason}"
  | internal context reason => s!"Internal error in {context}: {reason}"

def code : Fault → Code
  | badRequest .. | brokerNotConfigured .. => .badRequest
  | noSuchNode .. => .unknownNode
  | notLeader .. => .notLeader
  | lockTimeout .. | invalidConfig .. | configIo .. | internal .. => .internalError

/-- The request itself is at fault. -/
def isClientError : Fault → Bool
  | badRequest .. | noSuchNode .. | brokerNotConfigured .. => true
  | _ => false

/-- The caller may try again later, possibly with another master. -/
def isRetryable : Fault → Bool
  | notLeader .. | lockTimeout .. => true
  | _ => false

end Fault

end ClusterMaster
