import ClusterMaster.Master.Operation

/-!
# Calls that stop midway

A call may stop while it holds a row. A registering client stops when all its effects are there
and only its answer is missing; a registering broker stops in its push, before one of the writes.
Meanwhile other calls that need the row are refused. A stopped call that goes on gives the row back
and answers.
-/

namespace ClusterMaster

/-- A call that has stopped, with what it still has to do. -/
inductive StoppedCall where
  | producer (id : String) (topics : NameSet) (version : UInt64)
  | consumer (id group : String)
  /-- The topic whose row is held is that of the first write that is left. -/
  | broker (topic : String) (push : Push) (answer : BrokerAnswer)
  deriving DecidableEq

/-- How far a call has come that was asked to stop. -/
inductive Progress where
  /-- It ended before the place where it was to stop. -/
  | ended (answer : Answer)
  | stopped (call : StoppedCall)
  deriving DecidableEq

namespace Master

/-! ## Stopping -/

/-- Register a producer up to its answer. -/
def stopProducer (m : Master) (r : ProducerRegister) : Outcome Progress :=
  m.allow (m.checkProducerRegister r) <|
    let m := m.enrolProducer r
    (.ok (.stopped (.producer r.producer r.topics r.version)),
      { m with producerRows := m.producerRows.take r.producer })

/-- Register a consumer up to its answer. -/
def stopConsumer (m : Master) (r : ConsumerRegister) : Outcome Progress :=
  m.allow (m.checkConsumerRegister r) <|
    let m := m.enrolConsumer r
    (.ok (.stopped (.consumer r.consumer r.group)),
      { m with consumerRows := m.consumerRows.take r.consumer })

/-- A write that offers a topic. -/
def offersTopic (topic : String) : OfferWrite → Bool
  | .offer hosted => hosted.topic == topic
  | .withdraw _ => false

/-- Carry out a push up to the write that offers a topic; none is left when there is no such
write, when the push stops before it, or when the row of the topic is held. -/
def stopPush (m : Master) (p : Push) (topic : String) : Option Push × Master :=
  let before := p.writes.takeWhile fun w => !offersTopic topic w
  let left := p.writes.dropWhile fun w => !offersTopic topic w
  match m.writeAll p.broker before with
  | (.error _, m) => (none, m)
  | (.ok (), m) =>
    if left.isEmpty then (none, { m with runs := m.runs.setOffer p.broker p.target })
    else if m.topicRows.isLocked topic then (none, m)
    else
      (some { p with writes := left }, { m with topicRows := m.topicRows.take topic })

/-- Register a broker up to the write that offers a topic. -/
def stopBroker (m : Master) (r : BrokerRegister) (topic : String) : Outcome Progress :=
  match m.checkBrokerRegister r with
  | .error e => (.error e, m)
  | .ok c =>
    let answer := brokerAnswer (m.begunLifecycle r c) c
    let m := m.enrolBroker r c
    match m.duePush? r.broker with
    | none => (.ok (.ended (.broker answer)), m)
    | some p =>
      match m.stopPush p topic with
      | (none, m) => (.ok (.ended (.broker answer)), m)
      | (some left, m) => (.ok (.stopped (.broker topic left answer)), m)

/-! ## Going on -/

/-- Let a stopped call finish. -/
def resume (m : Master) : StoppedCall → Answer × Master
  | .producer id topics version =>
    (.producer (m.producerAnswer topics version),
      { m with producerRows := m.producerRows.release id })
  | .consumer id group =>
    (.admitted (m.consumerAdmitted group), { m with consumerRows := m.consumerRows.release id })
  | .broker topic push answer =>
    let m := { m with topicRows := m.topicRows.release topic }
    (.broker answer, (m.carryOut push).2)

end Master

end ClusterMaster
