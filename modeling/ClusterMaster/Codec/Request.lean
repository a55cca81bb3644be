import ClusterMaster.Codec.Cluster
import ClusterMaster.Request

/-!
# Documents of requests

For each request the field names and the values of missing fields.
-/

namespace ClusterMaster

def ProducerRegister.ofDocument? : Decoder ProducerRegister := fun l d => do
  let fs ← Fields.of ["producer_id", "host", "topics", "over_tls", "broker_checksum"] l d
  return {
    producer := ← fs.required "producer_id" .text
    host := ← fs.required "host" .text
    topics := ← fs.required "topics" .nameSet
    overTls := ← fs.optional "over_tls" .bool false
    version := ← fs.optional "broker_checksum" .uint64 0 }

def ProducerRegister.toDocument (r : ProducerRegister) : Document :=
  .record [("producer_id", .text r.producer), ("host", .text r.host), ("topics", .ofSet r.topics),
    ("over_tls", .bool r.overTls), ("broker_checksum", .ofNat r.version.toNat)]

def ProducerHeartbeat.ofDocument? : Decoder ProducerHeartbeat := fun l d => do
  let fs ← Fields.of ["producer_id", "topics", "broker_checksum"] l d
  return {
    producer := ← fs.required "producer_id" .text
    topics := ← fs.required "topics" .nameSet
    version := ← fs.optional "broker_checksum" .uint64 0 }

def ProducerHeartbeat.toDocument (r : ProducerHeartbeat) : Document :=
  .record [("producer_id", .text r.producer), ("topics", .ofSet r.topics),
    ("broker_checksum", .ofNat r.version.toNat)]

/-- A consumer as a record; a list of its fields is not accepted. -/
def Consumer.ofDocument? : Decoder Consumer := fun l d => do
  let fs ← Fields.of ["consumer_id", "group", "host", "topics", "topic_conditions", "over_tls",
    "bound", "required_partitions", "session_key", "source_count", "select_big"]
    { l with listsAsRecords := false } d
  return {
    id := ← fs.required "consumer_id" .text
    group := ← fs.required "group" .text
    host := ← fs.required "host" .text
    topics := ← fs.required "topics" .nameSet
    topicConditions := ← fs.optional "topic_conditions" (.table .nameSet) Table.empty
    overTls := ← fs.optional "over_tls" .bool false
    bound := ← fs.optional "bound" .bool false
    requiredPartitions := ← fs.optional "required_partitions" (.table .int64) Table.empty
    sessionKey := ← fs.optional "session_key" .text ""
    sourceCount := ← fs.optional "source_count" .uint32 0
    selectBig := ← fs.optional "select_big" .bool false }

def Consumer.toDocument (c : Consumer) : Document :=
  .record [("consumer_id", .text c.id), ("group", .text c.group), ("host", .text c.host),
    ("topics", .ofSet c.topics), ("topic_conditions", .ofTable .ofSet c.topicConditions),
    ("over_tls", .bool c.overTls), ("bound", .bool c.bound),
    ("required_partitions", .ofTable .int c.requiredPartitions),
    ("session_key", .text c.sessionKey), ("source_count", .ofNat c.sourceCount.toNat),
    ("select_big", .bool c.selectBig)]

def ConsumerRegister.ofDocument? : Decoder ConsumerRegister := fun l d => do
  let fs ← Fields.of ["consumer_id", "group", "host", "topics", "topic_conditions", "over_tls",
    "bound", "required_partitions", "session_key", "source_count", "select_big", "subscribed",
    "not_allocated"] l d
  return {
    consumer := ← fs.required "consumer_id" .text
    group := ← fs.required "group" .text
    host := ← fs.required "host" .text
    topics := ← fs.required "topics" .nameSet
    topicConditions := ← fs.optional "topic_conditions" (.table .nameSet) Table.empty
    overTls := ← fs.optional "over_tls" .bool false
    bound := ← fs.optional "bound" .bool false
    requiredPartitions := ← fs.optional "required_partitions" (.table .int64) Table.empty
    sessionKey := ← fs.optional "session_key" .text ""
    sourceCount := ← fs.optional "source_count" .uint32 0
    selectBig := ← fs.optional "select_big" .bool false
    subscribed := ← fs.optional "subscribed" (.list Subscription.ofDocument?) []
    notAllocated := ← fs.optional "not_allocated" .bool true }

def ConsumerRegister.toDocument (r : ConsumerRegister) : Document :=
  .record [("consumer_id", .text r.consumer), ("group", .text r.group), ("host", .text r.host),
    ("topics", .ofSet r.topics), ("topic_conditions", .ofTable .ofSet r.topicConditions),
    ("over_tls", .bool r.overTls), ("bound", .bool r.bound),
    ("required_partitions", .ofTable .int r.requiredPartitions),
    ("session_key", .text r.sessionKey), ("source_count", .ofNat r.sourceCount.toNat),
    ("select_big", .bool r.selectBig),
    ("subscribed", .list (r.subscribed.map Subscription.toDocument)),
    ("not_allocated", .bool r.notAllocated)]

def ConsumerHeartbeat.ofDocument? : Decoder ConsumerHeartbeat := fun l d => do
  let fs ← Fields.of ["consumer_id", "group", "acked_rebalance_id", "reported_subscriptions"] l d
  return {
    consumer := ← fs.required "consumer_id" .text
    group := ← fs.required "group" .text
    acknowledged := ← fs.optional "acked_rebalance_id" (.natBelow UInt64.size) 0
    reported :=
      ← fs.optional "reported_subscriptions" (.option (.list Subscription.ofDocument?)) none }

def ConsumerHeartbeat.toDocument (r : ConsumerHeartbeat) : Document :=
  .record [("consumer_id", .text r.consumer), ("group", .text r.group),
    ("acked_rebalance_id", .ofNat r.acknowledged),
    ("reported_subscriptions",
      .ofOption (fun ss => .list (ss.map Subscription.toDocument)) r.reported)]

def ConsumerClose.ofDocument? : Decoder ConsumerClose := fun l d => do
  let fs ← Fields.of ["consumer_id", "group"] l d
  return { consumer := ← fs.required "consumer_id" .text, group := ← fs.required "group" .text }

def ConsumerClose.toDocument (r : ConsumerClose) : Document :=
  .record [("consumer_id", .text r.consumer), ("group", .text r.group)]

def BrokerRegister.ofDocument? : Decoder BrokerRegister := fun l d => do
  let fs ← Fields.of ["broker_id", "host", "port", "tls_enabled", "tls_port", "conf_id",
    "conf_checksum"] l d
  return {
    broker := ← fs.required "broker_id" .uint32
    host := ← fs.required "host" .text
    port := ← fs.required "port" .uint16
    tlsEnabled := ← fs.optional "tls_enabled" .bool false
    tlsPort := ← fs.optional "tls_port" .uint16 0
    revision := ← fs.optional "conf_id" .uint64 0
    checksum := ← fs.optional "conf_checksum" .uint64 0 }

def BrokerRegister.toDocument (r : BrokerRegister) : Document :=
  .record [("broker_id", .ofNat r.broker.toNat), ("host", .text r.host),
    ("port", .ofNat r.port.toNat), ("tls_enabled", .bool r.tlsEnabled),
    ("tls_port", .ofNat r.tlsPort.toNat), ("conf_id", .ofNat r.revision.toNat),
    ("conf_checksum", .ofNat r.checksum.toNat)]

def BrokerHeartbeat.ofDocument? : Decoder BrokerHeartbeat := fun l d => do
  let fs ← Fields.of ["broker_id", "online", "readable", "writable", "conf_id",
    "conf_checksum"] l d
  return {
    broker := ← fs.required "broker_id" .uint32
    online := ← fs.optional "online" .bool true
    readable := ← fs.optional "readable" .bool true
    writable := ← fs.optional "writable" .bool true
    revision := ← fs.optional "conf_id" .uint64 0
    checksum := ← fs.optional "conf_checksum" .uint64 0 }

def BrokerHeartbeat.toDocument (r : BrokerHeartbeat) : Document :=
  .record [("broker_id", .ofNat r.broker.toNat), ("online", .bool r.online),
    ("readable", .bool r.readable), ("writable", .bool r.writable),
    ("conf_id", .ofNat r.revision.toNat), ("conf_checksum", .ofNat r.checksum.toNat)]

end ClusterMaster
