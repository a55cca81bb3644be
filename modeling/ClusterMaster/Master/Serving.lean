import ClusterMaster.Master.Offering
import ClusterMaster.Master.Release
import ClusterMaster.Request

/-!
# Calls of brokers

A broker registers under the address its configuration gives, then sends heartbeats. Each
heartbeat records what the broker reports, follows the operator's intent and takes at most one
lifecycle step. A topology push that a held row stops is left to the next heartbeat.
-/

namespace ClusterMaster.Master

/-- The configuration is sent along until the broker runs with it. -/
def brokerAnswer (l : Lifecycle) (c : BrokerConfig) : BrokerAnswer :=
  { intent := l.intent
    phase := l.phase
    push :=
      if l.needsPush then
        some { revision := c.revision, checksum := c.checksum, topics := c.topics }
      else none
    wantReport := l.needsPush }

/-! ## Registering -/

/-- A broker may register from its configured address, once it has been activated. -/
def checkAddress (r : BrokerRegister) (c : BrokerConfig) : Except Fault Unit :=
  let label := brokerLabel r.broker
  let refuse (reason : String) := Except.error (Fault.badRequest "broker register" reason)
  if c.host ≠ r.host ∨ c.port ≠ r.port then
    refuse s!"{label} registered from {r.host}:{r.port} but is configured at {c.host}:{c.port}"
  else if r.tlsEnabled ∧ c.tlsPort ≠ r.tlsPort then
    refuse s!"{label} TLS port {r.tlsPort} differs from configured {c.tlsPort}"
  else if c.intent = .apply then
    refuse s!"{label} is still in {c.intent.label}"
  else .ok ()

/-- The configuration of a broker that may register. -/
def checkBrokerRegister (m : Master) (r : BrokerRegister) : Except Fault BrokerConfig := do
  m.checkPrimary
  r.validate
  match m.store.config? r.broker with
  | none => throw (.brokerNotConfigured r.broker)
  | some c =>
    checkAddress r c
    return c

/-- The lifecycle a registering broker begins. -/
def begunLifecycle (m : Master) (r : BrokerRegister) (c : BrokerConfig) : Lifecycle :=
  (Lifecycle.begin c m.settings.fastStart m.stepClock).report c r.revision r.checksum

/-- Register a broker or register it anew, still without touching the topology. -/
def enrolBroker (m : Master) (r : BrokerRegister) (c : BrokerConfig) : Master :=
  let info : Broker :=
    { id := r.broker
      host := r.host
      port := r.port
      tlsEnabled := r.tlsEnabled
      tlsPort := if r.tlsEnabled then r.tlsPort else 0 }
  { m with
    brokers := m.brokers.register info
    runs := m.runs.register (m.begunLifecycle r c) }.hear .broker (brokerKey r.broker)

def brokerRegister (m : Master) (r : BrokerRegister) : Outcome BrokerAnswer :=
  match m.checkBrokerRegister r with
  | .error e => (.error e, m)
  | .ok c =>
    let pushed := (m.enrolBroker r c).pushOffer r.broker
    (.ok (brokerAnswer (m.begunLifecycle r c) c), pushed.2)

/-! ## Heartbeats -/

/-- A lifecycle after a heartbeat: report, intent, then at most one step. -/
def pulse (m : Master) (r : BrokerHeartbeat) (c : BrokerConfig) (l : Lifecycle) : Lifecycle :=
  let l := { l with brokerOnline := r.online }.report c r.revision r.checksum
  (l.setIntent c.intent m.stepClock).advance m.stepClock m.settings

def brokerHeartbeat (m : Master) (r : BrokerHeartbeat) : Outcome BrokerAnswer :=
  let id := r.broker
  m.allow (do
    m.checkPrimary
    m.liveness.checkKnown .broker (brokerKey id)) <|
    let m := m.hear .broker (brokerKey id)
    match m.store.config? id with
    | none => (.error (.brokerNotConfigured id), (m.releaseBroker id).2)
    | some c =>
      if c.intent = .apply then
        (.error (.badRequest "broker heartbeat"
          s!"{brokerLabel id} is in {c.intent.label} and must register again"),
          (m.releaseBroker id).2)
      else
        let report : Report := { readable := r.readable, writable := r.writable }
        let m := { m with brokers := m.brokers.report id report }
        match m.runs.lifecycle? id with
        | none => (.error (.noSuchNode s!"broker {brokerLabel id}"), m)
        | some l =>
          let l := m.pulse r c l
          let m := { m with runs := m.runs.register l }
          (.ok (brokerAnswer l c), (m.pushOffer id).2)

/-! ## Closing and administration -/

def brokerClose (m : Master) (id : BrokerId) : Outcome Unit :=
  m.allow m.checkPrimary (m.releaseBroker id)

/-- Change what the operator wants of a broker; its next heartbeat follows. -/
def setBrokerIntent (m : Master) (id : BrokerId) (intent : Intent) : Outcome Unit :=
  m.allow m.checkPrimary <|
    match m.store.setIntent id intent with
    | .error e => (.error e, m)
    | .ok store => (.ok (), { m with store })

end ClusterMaster.Master
