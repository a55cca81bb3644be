import ClusterMaster.Master.Release
import ClusterMaster.Request

/-!
# Calls of consumers

A consumer registers with its group, then sends heartbeats. A heartbeat acknowledges the event
the consumer has applied, which changes what it holds, may report everything it holds, which
corrects the master's view, and is answered with the next event, one at a time.
-/

namespace ClusterMaster.Master

/-! ## Registering -/

def checkConsumerRegister (m : Master) (r : ConsumerRegister) : Except Fault Unit := do
  m.checkPrimary
  r.validate
  m.consumerRows.checkFree r.consumer
  m.groups.checkJoin r.toConsumer

/-- Register a consumer or register it anew. It starts over: what it was sent before is void, and
it holds what it says it holds. -/
def enrolConsumer (m : Master) (r : ConsumerRegister) : Master :=
  let c := r.toConsumer
  let joined := m.groups.join c
  let allocated := !r.subscribed.isEmpty || !r.notAllocated
  { m with
    groups := if allocated then joined.setAllocated c.group else joined
    events := m.events.clear c.id
    holdings :=
      if r.subscribed.isEmpty then m.holdings.erase c.id
      else m.holdings.insert c.id (Holding.ofSubscriptions r.subscribed)
    topology := m.topology.subscribe c.group c.topics }.hear .consumer c.livenessKey

def consumerAdmitted (m : Master) (group : String) : ConsumerAdmitted :=
  { notAllocated := m.groups.isNotAllocated group, brokers := m.brokers.all }

def consumerRegister (m : Master) (r : ConsumerRegister) : Outcome ConsumerAdmitted :=
  m.allow (m.checkConsumerRegister r) <|
    let m := m.enrolConsumer r
    (.ok (m.consumerAdmitted r.group), m)

/-! ## Heartbeats -/

/-- Take an acknowledgement: the group is allocated, and the event that is taken out of the queue
has changed what the consumer holds. -/
def takeAcknowledgement (m : Master) (r : ConsumerHeartbeat) : Master :=
  if r.acknowledged = 0 then m
  else
    let m := { m with groups := m.groups.setAllocated r.group }
    match m.events.acknowledge r.consumer r.acknowledged with
    | (none, _) => m
    | (some e, events) =>
      let held := (m.holdings.getD r.consumer Table.empty).apply e
      { m with events, holdings := m.holdings.insert r.consumer held }

/-- Take a report of everything a consumer holds. When it names other partitions than the master
knows of, the report counts. -/
def takeReport (m : Master) (consumer : String) (subs : List Subscription) : Master :=
  let reported := Holding.ofSubscriptions subs
  let consistent :=
    match m.holdings.get? consumer with
    | some held => decide (held.partitionKeys = reported.partitionKeys)
    | none => reported.isEmpty
  if consistent then m
  else if reported.isEmpty then { m with holdings := m.holdings.erase consumer }
  else { m with holdings := m.holdings.insert consumer reported }

def checkConsumerHeartbeat (m : Master) (r : ConsumerHeartbeat) : Except Fault Unit := do
  m.checkPrimary
  r.validate
  m.consumerRows.checkFree r.consumer
  m.liveness.checkKnown .consumer (livenessKey r.consumer r.group)

def consumerHeartbeat (m : Master) (r : ConsumerHeartbeat) : Outcome ConsumerPulse :=
  m.allow (m.checkConsumerHeartbeat r) <|
    let m := (m.hear .consumer (livenessKey r.consumer r.group)).takeAcknowledgement r
    let m :=
      match r.reported with
      | some subs => m.takeReport r.consumer subs
      | none => m
    let delivered := m.events.deliver r.consumer
    (.ok { notAllocated := m.groups.isNotAllocated r.group, event := delivered.1 },
      { m with events := delivered.2 })

/-! ## Closing -/

/-- A consumer closes in its own group; one that is not registered may close too. -/
def checkConsumerClose (m : Master) (r : ConsumerClose) : Except Fault Unit := do
  m.checkPrimary
  if r.consumer = "" ∨ r.group = "" then
    throw (.badRequest "consumer close" "consumer_id and group are required")
  match m.groups.groupOf? r.consumer with
  | some g =>
    if g ≠ r.group then
      throw (.badRequest "consumer close"
        s!"consumer {r.consumer} belongs to group {g}, not {r.group}")
  | none => pure ()

def consumerClose (m : Master) (r : ConsumerClose) : Outcome Unit :=
  m.allow (m.checkConsumerClose r) <|
    match m.releaseConsumer r.consumer with
    | (.error e, m) => (.error e, m)
    | (.ok _, m) => (.ok (), m)

end ClusterMaster.Master
