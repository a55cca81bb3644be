import ClusterMaster.EventQueue
import ClusterMaster.Fault
import ClusterMaster.Manifest
import ClusterMaster.Text.Blank

/-!
# Requests of producers, consumers and brokers, and the answers to them

Every request type says which requests are well formed (`validate`); the first offence counts.
Ids, groups and topics must be neither blank nor hold an at sign, which separates the parts of a
liveness key.
-/

namespace ClusterMaster

/-! ## Rules shared by requests -/

/-- A usable name is neither blank nor holds an at sign. -/
def requireName (context field value : String) : Except Fault Unit :=
  if Text.isBlank value then
    .error (.badRequest context s!"{field} is required")
  else if value.toList.contains '@' then
    .error (.badRequest context s!"{field} '{value}' must not contain '@'")
  else .ok ()

/-- Every name of a list is usable. -/
def requireNames (context field : String) : List String → Except Fault Unit
  | [] => .ok ()
  | n :: ns =>
    match requireName context field n with
    | .error e => .error e
    | .ok () => requireNames context field ns

def requireTopics (context : String) (topics : NameSet) : Except Fault Unit :=
  if topics.isEmpty then .error (.badRequest context "at least one topic is required")
  else requireNames context "topic" topics.toList

/-- A consumer reports only what it holds itself. -/
def requireOwn (context consumer group : String) (subs : List Subscription) : Except Fault Unit :=
  match subs.find? fun s => s.consumer != consumer || s.group != group with
  | some s =>
    .error (.badRequest context
      s!"reported partition {s.partition.key} belongs to {s.consumer}@{s.group}")
  | none => .ok ()

/-! ## Producers -/

structure ProducerRegister where
  producer : String
  host : String
  topics : NameSet
  overTls : Bool := false
  /-- The version of the broker list the producer has. -/
  version : UInt64 := 0
  deriving DecidableEq

def ProducerRegister.validate (r : ProducerRegister) : Except Fault Unit := do
  requireName "producer register" "producer_id" r.producer
  requireTopics "producer register" r.topics

structure ProducerHeartbeat where
  producer : String
  topics : NameSet
  version : UInt64 := 0
  deriving DecidableEq

def ProducerHeartbeat.validate (r : ProducerHeartbeat) : Except Fault Unit := do
  requireName "producer heartbeat" "producer_id" r.producer
  requireTopics "producer heartbeat" r.topics

/-- What a producer is told. -/
structure ProducerAnswer where
  version : Nat
  /-- The registered brokers, when the producer's list is stale. -/
  brokers : Option (List Broker)
  /-- For each topic, who accepts publishing. -/
  topics : Table String (List HostedTopic)
  deriving DecidableEq

/-! ## Consumers -/

structure ConsumerRegister where
  consumer : String
  group : String
  host : String
  topics : NameSet
  topicConditions : Table String NameSet := Table.empty
  overTls : Bool := false
  bound : Bool := false
  requiredPartitions : Table String Int := Table.empty
  sessionKey : String := ""
  sourceCount : UInt32 := 0
  selectBig : Bool := false
  /-- What the consumer holds already, for instance after this master took over. -/
  subscribed : List Subscription := []
  /-- The consumer knows of no allocation of its group. -/
  notAllocated : Bool := true
  deriving DecidableEq

namespace ConsumerRegister

/-- The consumer that registers. -/
def toConsumer (r : ConsumerRegister) : Consumer :=
  { id := r.consumer
    group := r.group
    host := r.host
    topics := r.topics
    topicConditions := r.topicConditions
    overTls := r.overTls
    bound := r.bound
    requiredPartitions := r.requiredPartitions
    sessionKey := r.sessionKey
    sourceCount := r.sourceCount
    selectBig := r.selectBig }

/-- Filter conditions are given for subscribed topics only. -/
def requireConditions (r : ConsumerRegister) : Except Fault Unit :=
  match r.topicConditions.keys.toList.find? fun t => decide (t ∉ r.topics) with
  | some t =>
    .error (.badRequest "consumer register"
      s!"filter conditions given for unsubscribed topic {t}")
  | none => .ok ()

/-- Bound consumption needs a session and a member count; without it nothing is declared. -/
def requireBinding (r : ConsumerRegister) : Except Fault Unit :=
  let refuse (reason : String) := Except.error (Fault.badRequest "consumer register" reason)
  if r.bound then
    if r.sessionKey = "" then refuse "bound consumption requires a session key"
    else if r.sourceCount = 0 then refuse "bound consumption requires a positive source count"
    else .ok ()
  else if r.requiredPartitions.isEmpty then .ok ()
  else refuse "required partitions are only allowed for bound consumption"

def validate (r : ConsumerRegister) : Except Fault Unit := do
  requireName "consumer register" "consumer_id" r.consumer
  requireName "consumer register" "group" r.group
  requireTopics "consumer register" r.topics
  r.requireConditions
  r.requireBinding
  requireOwn "consumer register" r.consumer r.group r.subscribed

end ConsumerRegister

structure ConsumerAdmitted where
  notAllocated : Bool
  brokers : List Broker
  deriving DecidableEq

structure ConsumerHeartbeat where
  consumer : String
  group : String
  /-- The pass of the last event the consumer has applied; zero when there is none. -/
  acknowledged : Nat := 0
  /-- Everything the consumer holds, when it chooses to report it. -/
  reported : Option (List Subscription) := none
  deriving DecidableEq

def ConsumerHeartbeat.validate (r : ConsumerHeartbeat) : Except Fault Unit := do
  requireName "consumer heartbeat" "consumer_id" r.consumer
  requireName "consumer heartbeat" "group" r.group
  match r.reported with
  | some subs => requireOwn "consumer heartbeat" r.consumer r.group subs
  | none => .ok ()

structure ConsumerPulse where
  notAllocated : Bool
  event : Option Event
  deriving DecidableEq

structure ConsumerClose where
  consumer : String
  group : String
  deriving DecidableEq

/-! ## Brokers -/

structure BrokerRegister where
  broker : BrokerId
  host : String
  port : UInt16
  tlsEnabled : Bool := false
  tlsPort : UInt16 := 0
  /-- The configuration the broker runs with. -/
  revision : UInt64 := 0
  checksum : UInt64 := 0
  deriving DecidableEq

def BrokerRegister.validate (r : BrokerRegister) : Except Fault Unit :=
  let refuse (reason : String) := Except.error (Fault.badRequest "broker register" reason)
  if Text.isBlank r.host then refuse "host is required"
  else if r.port = 0 then refuse "port is required"
  else if r.tlsEnabled ∧ r.tlsPort = 0 then refuse "tls_port is required when TLS is enabled"
  else .ok ()

structure BrokerHeartbeat where
  broker : BrokerId
  /-- The broker considers itself ready to serve. -/
  online : Bool := true
  readable : Bool := true
  writable : Bool := true
  revision : UInt64 := 0
  checksum : UInt64 := 0
  deriving DecidableEq

/-- The configuration sent to a broker that runs with another one. -/
structure ConfigPush where
  revision : UInt64
  checksum : UInt64
  topics : List TopicConfig
  deriving DecidableEq

structure BrokerAnswer where
  intent : Intent
  phase : Phase
  push : Option ConfigPush
  /-- The broker should report its configuration with the next heartbeat. -/
  wantReport : Bool
  deriving DecidableEq

end ClusterMaster
