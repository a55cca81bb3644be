import ClusterMaster.Master.State

/-!
# Releasing nodes

A node that closes or falls silent is dropped together with everything tracked for it. A consumer
or producer whose row is held is not dropped at all. A broker leaves the topology topic by topic,
and is forgotten once nothing it offered is left: when a topic's row is held, the release stops
there, what is still offered stays recorded, and the release can be tried again.
-/

namespace ClusterMaster.Master

/-! ## Consumers -/

/-- Drop a consumer: its holding, its events, its membership, its liveness, and what its group
subscribed to when it was the last member. -/
def dropConsumer (m : Master) (id : String) : Option Consumer × Master :=
  let m := { m with holdings := m.holdings.erase id, events := m.events.clear id }
  match m.groups.leave id with
  | (none, groups) => (none, { m with groups })
  | (some (c, dissolved), groups) =>
    let m := { m with groups }.forget .consumer c.livenessKey
    let m :=
      if dissolved then { m with topology := m.topology.unsubscribe c.group c.topics } else m
    (some c, m)

def releaseConsumer (m : Master) (id : String) : Outcome (Option Consumer) :=
  m.allow (m.consumerRows.checkFree id) <|
    let dropped := m.dropConsumer id
    (.ok dropped.1, dropped.2)

/-! ## Producers -/

/-- Drop a producer: its liveness, its registration and its publications. -/
def dropProducer (m : Master) (id : String) : Master :=
  let m := m.forget .producer id
  match m.producers.get? id with
  | none => m
  | some p =>
    { m with
      producers := m.producers.erase id
      topology := m.topology.unpublish p.id p.topics }

def releaseProducer (m : Master) (id : String) : Outcome Unit :=
  m.allow (m.producerRows.checkFree id) (.ok (), m.dropProducer id)

/-! ## Brokers -/

/-- Withdraw topics one by one, up to the first whose row is held. -/
def withdrawTopics (m : Master) (id : BrokerId) : List String → Outcome Unit
  | [] => (.ok (), m)
  | t :: ts =>
    match m.topicRows.checkFree t with
    | .error e => (.error e, m)
    | .ok () =>
      let m := { m with
        topology := m.topology.withdraw t id
        runs := m.runs.setOffer id ((m.runs.offer id).erase t) }
      m.withdrawTopics id ts

/-- The topics a broker must leave: those it has published and those it is found under. -/
def topicsToWithdraw (m : Master) (id : BrokerId) : NameSet :=
  (m.runs.offer id).keys.insertAll (m.topology.topicsOf id).toList

/-- Forget a broker that no longer offers anything. -/
def forgetBroker (m : Master) (id : BrokerId) : Master :=
  { m.forget .broker (brokerKey id) with
    runs := m.runs.remove id
    brokers := m.brokers.remove id }

def releaseBroker (m : Master) (id : BrokerId) : Outcome Unit :=
  match m.withdrawTopics id (m.topicsToWithdraw id).toList with
  | (.error e, m) => (.error e, m)
  | (.ok (), m) => (.ok (), m.forgetBroker id)

end ClusterMaster.Master
