import ClusterMaster.Master.Release
import ClusterMaster.Request

/-!
# Calls of producers

A producer learns which brokers accept publishing to its topics and, when its list of brokers is
out of date, who the registered brokers are.
-/

namespace ClusterMaster.Master

/-- The brokers that accept publishing to a topic, among the registered ones. -/
def publishable (m : Master) (topic : String) : List HostedTopic :=
  (m.topology.offersOf topic).filter fun h => h.acceptPublish && m.brokers.contains h.broker

def producerAnswer (m : Master) (topics : NameSet) (version : UInt64) : ProducerAnswer :=
  { version := m.store.version
    brokers := if version.toNat = m.store.version then none else some m.brokers.all
    topics := Table.ofList (topics.toList.map fun t => (t, m.publishable t)) }

/-- Register a producer or register it anew, in place of what it published before. -/
def enrolProducer (m : Master) (r : ProducerRegister) : Master :=
  let producer : Producer :=
    { id := r.producer, host := r.host, topics := r.topics, overTls := r.overTls }
  let topology :=
    match m.producers.get? r.producer with
    | some before => m.topology.unpublish before.id before.topics
    | none => m.topology
  { m with
    producers := m.producers.insert r.producer producer
    topology := topology.publish r.producer r.topics }.hear .producer r.producer

def checkProducerRegister (m : Master) (r : ProducerRegister) : Except Fault Unit := do
  m.checkPrimary
  r.validate
  m.producerRows.checkFree r.producer

def producerRegister (m : Master) (r : ProducerRegister) : Outcome ProducerAnswer :=
  m.allow (m.checkProducerRegister r) <|
    let m := m.enrolProducer r
    (.ok (m.producerAnswer r.topics r.version), m)

/-- Publish to other topics than before. -/
def retopicProducer (m : Master) (p : Producer) (topics : NameSet) : Master :=
  if p.topics = topics then m
  else
    { m with
      topology := (m.topology.unpublish p.id p.topics).publish p.id topics
      producers := m.producers.insert p.id { p with topics := topics } }

def checkProducerHeartbeat (m : Master) (r : ProducerHeartbeat) : Except Fault Unit := do
  m.checkPrimary
  r.validate
  m.producerRows.checkFree r.producer
  m.liveness.checkKnown .producer r.producer

def producerHeartbeat (m : Master) (r : ProducerHeartbeat) : Outcome ProducerAnswer :=
  m.allow (m.checkProducerHeartbeat r) <|
    let m := m.hear .producer r.producer
    match m.producers.get? r.producer with
    | none => (.error (.noSuchNode s!"producer {r.producer}"), m)
    | some p =>
      let m := m.retopicProducer p r.topics
      (.ok (m.producerAnswer r.topics r.version), m)

def producerClose (m : Master) (id : String) : Outcome Unit :=
  m.allow (do
    m.checkPrimary
    if id = "" then .error (.badRequest "producer close" "producer_id is required"))
    (m.releaseProducer id)

end ClusterMaster.Master
