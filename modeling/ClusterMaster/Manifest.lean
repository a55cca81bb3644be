import ClusterMaster.Fault
import ClusterMaster.Intent
import ClusterMaster.SipHash
import ClusterMaster.Topic

/-!
# Configured brokers and the manifest

A manifest lists the configured brokers with their topics, and the topics that consumer groups
are blocked from. `TopicConfig.validate` keeps partition numbers apart and within 32 bits,
`BrokerConfig.validate` asks for an address and distinct topics, `Manifest.validate` for distinct
brokers. `BrokerConfig.checksum` is what a broker reports to show which topics it runs with.
-/

namespace ClusterMaster

/-- How a topic is configured on a broker. -/
structure TopicConfig where
  topic : String
  partitionCount : UInt32
  storeCount : UInt32 := 1
  acceptPublish : Bool := true
  acceptSubscribe : Bool := true
  deriving DecidableEq, Repr

/-- The operator's configuration of one broker. -/
structure BrokerConfig where
  id : BrokerId
  host : String
  port : UInt16
  /-- Zero when the broker does not serve TLS. -/
  tlsPort : UInt16 := 0
  intent : Intent := .online
  topics : List TopicConfig := []
  /-- Goes up whenever the topics are edited. -/
  revision : UInt64 := 0
  deriving DecidableEq, Repr

/-- Seed data for a store. -/
structure Manifest where
  brokers : List BrokerConfig := []
  /-- The blocked topics of each group. -/
  blackTopics : Table String NameSet := Table.empty
  deriving DecidableEq

/-! ## Checksum -/

/-- The bytes a topic adds to the checksum: its name and an end mark, its counts, its flags. -/
def TopicConfig.bytes (t : TopicConfig) : List UInt8 :=
  t.topic.toUTF8.toList ++ [0xff] ++ SipHash.bytesOf 4 t.partitionCount.toNat ++
    SipHash.bytesOf 4 t.storeCount.toNat ++
    [if t.acceptPublish then 1 else 0, if t.acceptSubscribe then 1 else 0]

/-- The checksum of a broker's topics, in their configured order. -/
def BrokerConfig.checksum (c : BrokerConfig) : UInt64 :=
  SipHash.sipHash 1 3 0 0
    (SipHash.bytesOf 8 c.topics.length ++ c.topics.flatMap TopicConfig.bytes)

/-! ## What a broker offers -/

/-- A configured topic as a broker offers it at some visibility. -/
def TopicConfig.hosted (t : TopicConfig) (broker : BrokerId) (v : Visibility) : HostedTopic :=
  { broker := broker
    topic := t.topic
    partitionCount := t.partitionCount
    storeCount := t.storeCount
    acceptPublish := t.acceptPublish && v.publish
    acceptSubscribe := t.acceptSubscribe && v.subscribe }

/-- The topics a broker offers at some visibility, in their configured order. -/
def BrokerConfig.hostedTopics (c : BrokerConfig) (v : Visibility) : List HostedTopic :=
  c.topics.map fun t => t.hosted c.id v

/-- The topics a broker offers at some visibility, by name. -/
def BrokerConfig.offer (c : BrokerConfig) (v : Visibility) : Table String HostedTopic :=
  Table.ofList ((c.hostedTopics v).map fun t => (t.topic, t))

/-! ## Validation -/

/-- A fault in a manifest. -/
def invalidManifest (reason : String) : Fault := .invalidConfig "manifest" reason

/-- The largest number of stores whose partition numbers fit in 32 bits. -/
def maxStoreCount : Nat := (UInt32.size - 1) / storeStride

/-- A topic needs a name, fewer partitions than the distance between stores, and no more stores
than fit in 32 bits. -/
def TopicConfig.validate (t : TopicConfig) : Except Fault Unit :=
  if t.topic = "" then
    .error (invalidManifest "topic name must not be empty")
  else if t.partitionCount = 0 ∨ storeStride ≤ t.partitionCount.toNat then
    .error (invalidManifest
      s!"topic {t.topic} partition_count {t.partitionCount} must be between 1 and {storeStride - 1}")
  else if t.storeCount = 0 ∨ maxStoreCount < t.storeCount.toNat then
    .error (invalidManifest
      s!"topic {t.topic} store_count {t.storeCount} must be between 1 and {maxStoreCount}")
  else
    .ok ()

/-- Every topic is valid and named only once; the first offence counts. -/
def validateTopics (id : BrokerId) (seen : List String) : List TopicConfig → Except Fault Unit
  | [] => .ok ()
  | t :: ts =>
    match t.validate with
    | .error e => .error e
    | .ok () =>
      if t.topic ∈ seen then
        .error (invalidManifest s!"{brokerLabel id} configures topic {t.topic} twice")
      else
        validateTopics id (t.topic :: seen) ts

def BrokerConfig.validate (c : BrokerConfig) : Except Fault Unit :=
  if c.host = "" ∨ c.port = 0 then
    .error (invalidManifest s!"{brokerLabel c.id} has no valid address")
  else
    validateTopics c.id [] c.topics

/-- Every broker is valid and listed only once; the first offence counts. -/
def validateBrokers (seen : List BrokerId) : List BrokerConfig → Except Fault Unit
  | [] => .ok ()
  | c :: cs =>
    match c.validate with
    | .error e => .error e
    | .ok () =>
      if c.id ∈ seen then
        .error (invalidManifest s!"duplicate broker id {brokerLabel c.id}")
      else
        validateBrokers (c.id :: seen) cs

def Manifest.validate (m : Manifest) : Except Fault Unit := validateBrokers [] m.brokers

end ClusterMaster
