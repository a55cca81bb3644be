import ClusterMaster.Codec.Basic
import ClusterMaster.EventQueue
import ClusterMaster.Lifecycle

/-!
# Documents of settings, manifests and cluster data

For each type the field names and the values of missing fields; fields are listed in the order in
which a list of them would be read.
-/

namespace ClusterMaster

/-! ## Names of enumerations -/

def Intent.names : List (String × Intent) :=
  [("apply", .apply), ("online", .online), ("online_not_write", .onlineNotWrite),
    ("online_not_read", .onlineNotRead), ("offline", .offline)]

def Intent.name : Intent → String
  | apply => "apply"
  | online => "online"
  | onlineNotWrite => "online_not_write"
  | onlineNotRead => "online_not_read"
  | offline => "offline"

def Phase.names : List (String × Phase) :=
  [("WAIT_REGISTER", .waitRegister), ("WAIT_ONLINE", .waitOnline), ("ONLY_READ", .onlyRead),
    ("ONLY_WRITE", .onlyWrite), ("READ_AND_WRITE", .readAndWrite),
    ("PART_WAIT_REGISTER", .partWaitRegister), ("PART_WAIT_ONLINE", .partWaitOnline),
    ("PART_ONLY_READ", .partOnlyRead), ("NOT_WRITE", .notWrite),
    ("NOT_READ_WRITE", .notReadWrite), ("WAIT_REBALANCE", .waitRebalance),
    ("UNDEFINED", .settled)]

def Phase.name : Phase → String
  | waitRegister => "WAIT_REGISTER"
  | waitOnline => "WAIT_ONLINE"
  | onlyRead => "ONLY_READ"
  | onlyWrite => "ONLY_WRITE"
  | readAndWrite => "READ_AND_WRITE"
  | partWaitRegister => "PART_WAIT_REGISTER"
  | partWaitOnline => "PART_WAIT_ONLINE"
  | partOnlyRead => "PART_ONLY_READ"
  | notWrite => "NOT_WRITE"
  | notReadWrite => "NOT_READ_WRITE"
  | waitRebalance => "WAIT_REBALANCE"
  | settled => "UNDEFINED"

def EventKind.names : List (String × EventKind) :=
  [connect, disconnect, onlyConnect, onlyDisconnect].map fun k => (k.label, k)

def EventStatus.names : List (String × EventStatus) :=
  [todo, processing, done].map fun s => (s.label, s)

def Code.name : Code → String
  | success => "Success"
  | badRequest => "BadRequest"
  | unknownNode => "HbNoNode"
  | internalError => "InternalError"
  | notLeader => "NotLeader"

def Code.names : List (String × Code) :=
  [success, badRequest, unknownNode, internalError, notLeader].map fun c => (c.name, c)

/-! ## Brokers and partitions -/

def Broker.ofDocument? : Decoder Broker := fun l d => do
  let fs ← Fields.of ["id", "host", "port", "tls_enabled", "tls_port"] l d
  return {
    id := ← fs.required "id" .uint32
    host := ← fs.required "host" .text
    port := ← fs.required "port" .uint16
    tlsEnabled := ← fs.optional "tls_enabled" .bool false
    tlsPort := ← fs.optional "tls_port" .uint16 0 }

def Broker.toDocument (b : Broker) : Document :=
  .record [("id", .ofNat b.id.toNat), ("host", .text b.host), ("port", .ofNat b.port.toNat),
    ("tls_enabled", .bool b.tlsEnabled), ("tls_port", .ofNat b.tlsPort.toNat)]

def Partition.ofDocument? : Decoder Partition := fun l d => do
  let fs ← Fields.of ["broker", "topic", "partition_id", "reset_offset"] l d
  return {
    broker := ← fs.required "broker" Broker.ofDocument?
    topic := ← fs.required "topic" .text
    number := ← fs.required "partition_id" (.natBelow UInt32.size)
    resetOffset := ← fs.optional "reset_offset" (.option .int64) none }

/-- The start offset is written only when there is one. -/
def Partition.toDocument (p : Partition) : Document :=
  let offset := match p.resetOffset with
    | some n => [("reset_offset", .int n)]
    | none => []
  .record ([("broker", p.broker.toDocument), ("topic", .text p.topic),
    ("partition_id", .ofNat p.number)] ++ offset)

def Subscription.ofDocument? : Decoder Subscription := fun l d => do
  let fs ← Fields.of ["consumer_id", "group", "over_tls", "partition"] l d
  return {
    consumer := ← fs.required "consumer_id" .text
    group := ← fs.required "group" .text
    overTls := ← fs.optional "over_tls" .bool false
    partition := ← fs.required "partition" Partition.ofDocument? }

def Subscription.toDocument (s : Subscription) : Document :=
  .record [("consumer_id", .text s.consumer), ("group", .text s.group),
    ("over_tls", .bool s.overTls), ("partition", s.partition.toDocument)]

def HostedTopic.ofDocument? : Decoder HostedTopic := fun l d => do
  let fs ← Fields.of ["broker_id", "topic", "partition_count", "store_count", "accept_publish",
    "accept_subscribe"] l d
  return {
    broker := ← fs.required "broker_id" .uint32
    topic := ← fs.required "topic" .text
    partitionCount := ← fs.required "partition_count" .uint32
    storeCount := ← fs.required "store_count" .uint32
    acceptPublish := ← fs.required "accept_publish" .bool
    acceptSubscribe := ← fs.required "accept_subscribe" .bool }

def HostedTopic.toDocument (t : HostedTopic) : Document :=
  .record [("broker_id", .ofNat t.broker.toNat), ("topic", .text t.topic),
    ("partition_count", .ofNat t.partitionCount.toNat),
    ("store_count", .ofNat t.storeCount.toNat), ("accept_publish", .bool t.acceptPublish),
    ("accept_subscribe", .bool t.acceptSubscribe)]

def Visibility.ofDocument? : Decoder Visibility := fun l d => do
  let fs ← Fields.of ["accept_publish", "accept_subscribe"] l d
  return {
    publish := ← fs.required "accept_publish" .bool
    subscribe := ← fs.required "accept_subscribe" .bool }

def Visibility.toDocument (v : Visibility) : Document :=
  .record [("accept_publish", .bool v.publish), ("accept_subscribe", .bool v.subscribe)]

/-! ## Manifests -/

def TopicConfig.ofDocument? : Decoder TopicConfig := fun l d => do
  let fs ← Fields.of ["topic", "partition_count", "store_count", "accept_publish",
    "accept_subscribe"] l d
  return {
    topic := ← fs.required "topic" .text
    partitionCount := ← fs.required "partition_count" .uint32
    storeCount := ← fs.optional "store_count" .uint32 1
    acceptPublish := ← fs.optional "accept_publish" .bool true
    acceptSubscribe := ← fs.optional "accept_subscribe" .bool true }

def TopicConfig.toDocument (t : TopicConfig) : Document :=
  .record [("topic", .text t.topic), ("partition_count", .ofNat t.partitionCount.toNat),
    ("store_count", .ofNat t.storeCount.toNat), ("accept_publish", .bool t.acceptPublish),
    ("accept_subscribe", .bool t.acceptSubscribe)]

def BrokerConfig.ofDocument? : Decoder BrokerConfig := fun l d => do
  let fs ← Fields.of ["broker_id", "host", "port", "tls_port", "manage_status", "topics",
    "conf_id"] l d
  return {
    id := ← fs.required "broker_id" .uint32
    host := ← fs.required "host" .text
    port := ← fs.required "port" .uint16
    tlsPort := ← fs.optional "tls_port" .uint16 0
    intent := ← fs.optional "manage_status" (.name Intent.names) .online
    topics := ← fs.optional "topics" (.list TopicConfig.ofDocument?) []
    revision := ← fs.optional "conf_id" .uint64 0 }

def BrokerConfig.toDocument (c : BrokerConfig) : Document :=
  .record [("broker_id", .ofNat c.id.toNat), ("host", .text c.host),
    ("port", .ofNat c.port.toNat), ("tls_port", .ofNat c.tlsPort.toNat),
    ("manage_status", .text c.intent.name),
    ("topics", .list (c.topics.map TopicConfig.toDocument)),
    ("conf_id", .ofNat c.revision.toNat)]

def Manifest.ofDocument? : Decoder Manifest := fun l d => do
  let fs ← Fields.of ["brokers", "black_topics"] l d
  return {
    brokers := ← fs.optional "brokers" (.list BrokerConfig.ofDocument?) []
    blackTopics := ← fs.optional "black_topics" (.table .nameSet) Table.empty }

def Manifest.toDocument (m : Manifest) : Document :=
  .record [("brokers", .list (m.brokers.map BrokerConfig.toDocument)),
    ("black_topics", .ofTable .ofSet m.blackTopics)]

/-! ## Settings -/

def Settings.ofDocument? : Decoder Settings := fun l d => do
  let fs ← Fields.of ["host", "port", "producer_heartbeat_timeout_ms",
    "consumer_heartbeat_timeout_ms", "broker_heartbeat_timeout_ms",
    "heartbeat_check_interval_ms", "rebalance_parallelism", "consumer_balance_period_ms",
    "first_balance_delay_after_start_ms", "max_unfinished_balance_rounds",
    "max_group_broker_consume_rate", "step_change_wait_period_ms",
    "online_only_read_to_rw_period_ms", "offline_only_read_to_rw_period_ms",
    "fast_start_enabled", "row_lock_wait_ms"] l d
  let standard : Settings := {}
  return {
    host := ← fs.optional "host" .text standard.host
    port := ← fs.optional "port" .uint16 standard.port
    producerTimeout :=
      ← fs.optional "producer_heartbeat_timeout_ms" .uint64 standard.producerTimeout
    consumerTimeout :=
      ← fs.optional "consumer_heartbeat_timeout_ms" .uint64 standard.consumerTimeout
    brokerTimeout := ← fs.optional "broker_heartbeat_timeout_ms" .uint64 standard.brokerTimeout
    scanInterval := ← fs.optional "heartbeat_check_interval_ms" .uint64 standard.scanInterval
    parallelism := ← fs.optional "rebalance_parallelism" .uint64 standard.parallelism
    balancePeriod := ← fs.optional "consumer_balance_period_ms" .uint64 standard.balancePeriod
    firstBalanceDelay :=
      ← fs.optional "first_balance_delay_after_start_ms" .uint64 standard.firstBalanceDelay
    maxUnfinishedRounds :=
      ← fs.optional "max_unfinished_balance_rounds" .uint32 standard.maxUnfinishedRounds
    maxBrokersPerConsumer :=
      ← fs.optional "max_group_broker_consume_rate" .uint32 standard.maxBrokersPerConsumer
    stepWait := ← fs.optional "step_change_wait_period_ms" .uint64 standard.stepWait
    readToWriteWait :=
      ← fs.optional "online_only_read_to_rw_period_ms" .uint64 standard.readToWriteWait
    settleWait := ← fs.optional "offline_only_read_to_rw_period_ms" .uint64 standard.settleWait
    fastStart := ← fs.optional "fast_start_enabled" .bool standard.fastStart
    rowLockWait := ← fs.optional "row_lock_wait_ms" .uint64 standard.rowLockWait }

def Settings.toDocument (s : Settings) : Document :=
  .record [("host", .text s.host), ("port", .ofNat s.port.toNat),
    ("producer_heartbeat_timeout_ms", .ofNat s.producerTimeout.toNat),
    ("consumer_heartbeat_timeout_ms", .ofNat s.consumerTimeout.toNat),
    ("broker_heartbeat_timeout_ms", .ofNat s.brokerTimeout.toNat),
    ("heartbeat_check_interval_ms", .ofNat s.scanInterval.toNat),
    ("rebalance_parallelism", .ofNat s.parallelism.toNat),
    ("consumer_balance_period_ms", .ofNat s.balancePeriod.toNat),
    ("first_balance_delay_after_start_ms", .ofNat s.firstBalanceDelay.toNat),
    ("max_unfinished_balance_rounds", .ofNat s.maxUnfinishedRounds.toNat),
    ("max_group_broker_consume_rate", .ofNat s.maxBrokersPerConsumer.toNat),
    ("step_change_wait_period_ms", .ofNat s.stepWait.toNat),
    ("online_only_read_to_rw_period_ms", .ofNat s.readToWriteWait.toNat),
    ("offline_only_read_to_rw_period_ms", .ofNat s.settleWait.toNat),
    ("fast_start_enabled", .bool s.fastStart),
    ("row_lock_wait_ms", .ofNat s.rowLockWait.toNat)]

end ClusterMaster
