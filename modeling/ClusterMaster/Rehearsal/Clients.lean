import ClusterMaster.Master.Consuming
import ClusterMaster.Master.Serving

/-!
# What clients do over several calls

A consumer that drains its queue acknowledges event after event until none comes back. A broker
that comes up registers with its configuration and sends heartbeats until it has settled. Both
stop at the first fault.
-/

namespace ClusterMaster

/-! ## Running with the stored configuration -/

/-- The same request from a broker that runs with the configuration in the store. -/
def BrokerRegister.inSync (r : BrokerRegister) (s : Store) : BrokerRegister :=
  match s.config? r.broker with
  | some c => { r with revision := c.revision, checksum := c.checksum }
  | none => r

/-- The same heartbeat from a broker that runs with the configuration in the store. -/
def BrokerHeartbeat.inSync (r : BrokerHeartbeat) (s : Store) : BrokerHeartbeat :=
  match s.config? r.broker with
  | some c => { r with revision := c.revision, checksum := c.checksum }
  | none => r

/-- The registration of a broker that does what its configuration says. -/
def BrokerConfig.registration (c : BrokerConfig) : BrokerRegister :=
  { broker := c.id
    host := c.host
    port := c.port
    tlsEnabled := c.tlsPort != 0
    tlsPort := c.tlsPort
    revision := c.revision
    checksum := c.checksum }

namespace Master

/-! ## Draining a queue -/

/-- Acknowledge a pass, then every event that comes back, for so many heartbeats at most. -/
def drainFrom (m : Master) (consumer group : String) : Nat → Nat → Outcome (List Event)
  | 0, _ => (.ok [], m)
  | fuel + 1, acknowledged =>
    match m.consumerHeartbeat { consumer, group, acknowledged } with
    | (.error e, m) => (.error e, m)
    | (.ok answer, m) =>
      match answer.event with
      | none => (.ok [], m)
      | some e =>
        match m.drainFrom consumer group fuel e.pass with
        | (.error e, m) => (.error e, m)
        | (.ok es, m) => (.ok (e :: es), m)

/-- The most heartbeats a consumer sends to drain its queue. -/
def drainLimit : Nat := 20

/-- Send heartbeats until no event comes back. Answers with the events received. -/
def drain (m : Master) (consumer group : String) : Outcome (List Event) :=
  m.drainFrom consumer group drainLimit 0

/-! ## Coming up -/

/-- Send heartbeats of a ready broker until it has settled, so many at most. -/
def settleBroker (m : Master) (r : BrokerHeartbeat) : Nat → Outcome (List Phase)
  | 0 => (.ok [], m)
  | fuel + 1 =>
    match m.brokerHeartbeat r with
    | (.error e, m) => (.error e, m)
    | (.ok answer, m) =>
      if answer.phase = .settled then (.ok [.settled], m)
      else
        match m.settleBroker r fuel with
        | (.error e, m) => (.error e, m)
        | (.ok phases, m) => (.ok (answer.phase :: phases), m)

/-- The most heartbeats a broker sends to settle. -/
def settleLimit : Nat := 9

/-- Register a configured broker and let it settle. Answers with the steps it takes. -/
def bringUp (m : Master) (c : BrokerConfig) : Outcome (List Phase) :=
  match m.brokerRegister c.registration with
  | (.error e, m) => (.error e, m)
  | (.ok answer, m) =>
    let heartbeat : BrokerHeartbeat :=
      { broker := c.id, revision := c.revision, checksum := c.checksum }
    match m.settleBroker heartbeat settleLimit with
    | (.error e, m) => (.error e, m)
    | (.ok phases, m) => (.ok (answer.phase :: phases), m)

end Master

end ClusterMaster
