import ClusterMaster.Brokers
import ClusterMaster.Groups
import ClusterMaster.Holding
import ClusterMaster.Liveness
import ClusterMaster.RowLock
import ClusterMaster.Store
import ClusterMaster.Topology

/-!
# The state of a master

Everything one master knows, as one value. Calls are functions from this state to an outcome: an
answer or a fault, together with the state afterwards. Calls run one after the other; the rows in
`consumerRows`, `producerRows` and `topicRows` are those held by calls that have stopped midway.

Two clocks are kept apart, both in milliseconds: `clock` is the one by which silence is judged,
`stepClock` the one by which a broker's waits are.
-/

namespace ClusterMaster

structure Master where
  settings : Settings
  store : Store
  offsets : Offsets := {}
  liveness : Liveness := {}
  events : EventQueues := {}
  brokers : Brokers := {}
  runs : BrokerRuns := {}
  producers : Table String Producer := Table.empty
  groups : Groups := {}
  topology : Topology := {}
  /-- What each consumer holds, as it last acknowledged or reported. -/
  holdings : Holdings := Table.empty
  consumerRows : RowLock := { name := "consumer" }
  producerRows : RowLock := { name := "producer" }
  topicRows : RowLock := { name := "topic" }
  /-- The number of the last rebalance pass; zero before the first one. -/
  lastPass : Nat := 0
  /-- How many shards of a pass have not finished. -/
  inFlight : Nat := 0
  /-- No pass has decided anything yet. -/
  firstPass : Bool := true
  /-- Periodic work has been stopped. -/
  stopped : Bool := false
  clock : Nat := 0
  stepClock : Nat := 0
  deriving DecidableEq

/-- What a call leads to: its answer or the fault it is refused with, and the state afterwards. -/
abbrev Outcome (α : Type) := Except Fault α × Master

namespace Master

/-- A master with nothing registered yet. -/
def create (settings : Settings) (store : Store) : Except Fault Master :=
  match settings.validate with
  | .error e => .error e
  | .ok () => .ok { settings, store }

/-- Only the primary answers requests. -/
def checkPrimary (m : Master) : Except Fault Unit :=
  if m.store.primary then .ok () else .error (.notLeader m.settings.address)

/-- Go on with a call that passes its checks; a call that does not changes nothing. -/
def allow {α : Type} (m : Master) (check : Except Fault Unit) (call : Outcome α) : Outcome α :=
  match check with
  | .error e => (.error e, m)
  | .ok () => call

/-- Stamp a node as heard of just now. -/
def hear (m : Master) (c : NodeClass) (key : String) : Master :=
  { m with liveness := m.liveness.register c key m.clock }

/-- Stop tracking a node. -/
def forget (m : Master) (c : NodeClass) (key : String) : Master :=
  { m with liveness := m.liveness.unregister c key }

end Master

/-- The key under which a broker's liveness is tracked. -/
def brokerKey (id : BrokerId) : String := toString id.toNat

end ClusterMaster
