import ClusterMaster.Codec.Request
import ClusterMaster.Master.Operation

/-!
# Documents of answers

How answers, faults and what a master knows are written. In answers a partition is written short,
by the address at which it is reached and the offset to start from.
-/

namespace ClusterMaster

/-! ## Faults -/

namespace Fault

/-- The name of the kind of a fault. -/
def kind : Fault → String
  | badRequest .. => "BadRequest"
  | noSuchNode .. => "NoSuchNode"
  | notLeader .. => "NotLeader"
  | lockTimeout .. => "LockTimeout"
  | brokerNotConfigured .. => "BrokerNotConfigured"
  | invalidConfig .. => "InvalidConfig"
  | configIo .. => "ConfigIo"
  | internal .. => "Internal"

end Fault

/-! ## What a master knows -/

def Partition.toSummary (p : Partition) (overTls : Bool) : List Document :=
  [.text (p.address overTls), .ofOption .int p.resetOffset]

def Partition.toShortDocument (p : Partition) : Document := .list (p.toSummary false)

def Subscription.toShortDocument (s : Subscription) : Document :=
  .list ([.text s.consumer, .text s.group, .bool s.overTls] ++ s.partition.toSummary s.overTls)

def Event.toDocument (e : Event) : Document :=
  .record [("rebalance_id", .ofNat e.pass), ("event_type", .text e.kind.label),
    ("status", .text e.status.label),
    ("infos", .list (e.subscriptions.map Subscription.toShortDocument))]

def Report.toDocument (r : Report) : Document := .list [.bool r.readable, .bool r.writable]

def Lifecycle.toDocument (l : Lifecycle) : Document :=
  .record [("broker_id", .ofNat l.broker.toNat), ("manage", .text l.intent.name),
    ("run", .text l.phase.name), ("publish", .bool l.visibility.publish),
    ("subscribe", .bool l.visibility.subscribe), ("conf_id", .ofNat l.revision.toNat),
    ("reported_conf_id", .ofOption (fun r => .ofNat r.1.toNat) l.reported),
    ("reported", .bool l.reported.isSome), ("conf_changed", .bool l.changed),
    ("loaded", .bool l.loaded), ("fast_start", .bool l.fastStart),
    ("broker_online", .bool l.brokerOnline), ("push", .bool l.needsPush)]

def Producer.toDocument (p : Producer) : Document :=
  .record [("producer_id", .text p.id), ("host", .text p.host), ("topics", .ofSet p.topics),
    ("over_tls", .bool p.overTls)]

/-- The members of a group are written by their ids. -/
def Group.toDocument (g : Group) : Document :=
  .record [("group", .text g.name), ("topics", .ofSet g.topics),
    ("topic_conditions", .ofTable .ofSet g.topicConditions), ("bound", .bool g.bound),
    ("select_big", .bool g.selectBig), ("session_key", .text g.sessionKey),
    ("source_count", .ofNat g.sourceCount.toNat), ("not_allocated", .bool g.notAllocated),
    ("consumers", .ofSet g.members.keys)]

/-- A holding is written topic by topic. -/
def Holding.toDocument (h : Holding) : Document :=
  let ofTopic (t : String) : List (String × Document) := h.entries.filterMap fun e =>
    if e.1.1 = t then some (e.1.2, e.2.toShortDocument) else none
  .record (h.topics.toList.map fun t => (t, .record (ofTopic t)))

def Target.toDocument (t : Target) : Document :=
  .ofTable (fun ps => .list (ps.map Partition.toShortDocument)) t

/-! ## Answers to requests -/

def Document.ofBrokers (bs : List Broker) : Document := .list (bs.map Broker.toDocument)

def Document.ofHosted (ts : List HostedTopic) : Document := .list (ts.map HostedTopic.toDocument)

def ProducerAnswer.toDocument (a : ProducerAnswer) : Document :=
  .record [("broker_checksum", .ofNat a.version), ("brokers", .ofOption .ofBrokers a.brokers),
    ("topic_partitions", .ofTable .ofHosted a.topics)]

def ConsumerAdmitted.toDocument (a : ConsumerAdmitted) : Document :=
  .record [("not_allocated", .bool a.notAllocated), ("brokers", .ofBrokers a.brokers)]

def ConsumerPulse.toDocument (a : ConsumerPulse) : Document :=
  .record [("not_allocated", .bool a.notAllocated), ("event", .ofOption Event.toDocument a.event)]

def ConfigPush.toDocument (p : ConfigPush) : Document :=
  .record [("conf_id", .ofNat p.revision.toNat), ("conf_checksum", .ofNat p.checksum.toNat),
    ("topics", .list (p.topics.map TopicConfig.toDocument))]

def BrokerAnswer.toDocument (a : BrokerAnswer) : Document :=
  .record [("manage_status", .text a.intent.name), ("run_status", .text a.phase.name),
    ("conf", .ofOption ConfigPush.toDocument a.push), ("need_report_data", .bool a.wantReport)]

def Answer.toDocument : Answer → Document
  | .done => .text "ok"
  | .producer a => a.toDocument
  | .admitted a => a.toDocument
  | .pulse a => a.toDocument
  | .broker a => a.toDocument
  | .expired keys => .ofNames keys
  | .pass p => .record [("rebalance_id", .ofNat p.pass), ("shards", .ofNat p.shards.length)]

end ClusterMaster
