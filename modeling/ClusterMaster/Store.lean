import ClusterMaster.Manifest

/-!
# The metadata store

The store holds what operators decide: which brokers there are and with which topics, which
topics a group is blocked from, and whether this master is the primary. Every change of the set
of brokers raises its version. A change that would leave an invalid configuration is refused and
leaves the store as it was.
-/

namespace ClusterMaster

/-- Operator-side state. -/
structure Store where
  primary : Bool := true
  brokers : Table BrokerId BrokerConfig := Table.empty
  blackTopics : Table String NameSet := Table.empty
  /-- Raised whenever the set of configured brokers is edited. -/
  version : Nat := 0
  deriving DecidableEq

namespace Store

def empty : Store := {}

def config? (s : Store) (id : BrokerId) : Option BrokerConfig := s.brokers.get? id

def setPrimary (s : Store) (primary : Bool) : Store := { s with primary }

/-- Add or replace a broker. -/
def upsert (s : Store) (c : BrokerConfig) : Except Fault Store :=
  match c.validate with
  | .error e => .error e
  | .ok () => .ok { s with brokers := s.brokers.insert c.id c, version := s.version + 1 }

def remove (s : Store) (id : BrokerId) : Store :=
  if s.brokers.contains id then
    { s with brokers := s.brokers.erase id, version := s.version + 1 }
  else s

/-- Replace a broker's topics and raise its revision. -/
def setTopics (s : Store) (id : BrokerId) (topics : List TopicConfig) : Except Fault Store :=
  match s.config? id with
  | none => .error (.brokerNotConfigured id)
  | some c =>
    match { c with topics := topics }.validate with
    | .error e => .error e
    | .ok () =>
      .ok { s with
        brokers := s.brokers.insert id { c with topics := topics, revision := c.revision + 1 } }

/-- Record the operator's intent for a broker. -/
def setIntent (s : Store) (id : BrokerId) (intent : Intent) : Except Fault Store :=
  match s.config? id with
  | none => .error (.brokerNotConfigured id)
  | some c => .ok { s with brokers := s.brokers.insert id { c with intent := intent } }

/-- The topics a group is blocked from. -/
def blackTopicsOf (s : Store) (group : String) : NameSet := s.blackTopics.getD group KeySet.empty

def addBlackTopic (s : Store) (group topic : String) : Store :=
  { s with blackTopics := s.blackTopics.insert group ((s.blackTopicsOf group).insert topic) }

/-- Unblock a topic; a group without blocked topics is forgotten. -/
def removeBlackTopic (s : Store) (group topic : String) : Store :=
  let left := (s.blackTopicsOf group).erase topic
  { s with
    blackTopics :=
      if left.isEmpty then s.blackTopics.erase group else s.blackTopics.insert group left }

/-- Replace brokers and blocked topics by those of a manifest. -/
def load (s : Store) (m : Manifest) : Except Fault Store :=
  match m.validate with
  | .error e => .error e
  | .ok () =>
    .ok { s with
      brokers := Table.ofList (m.brokers.map fun c => (c.id, c))
      blackTopics := m.blackTopics
      version := s.version + 1 }

def ofManifest (m : Manifest) : Except Fault Store := empty.load m

/-! ## Edits -/

/-- What can be done to a store. -/
inductive Edit where
  | upsert (config : BrokerConfig)
  | remove (broker : BrokerId)
  | setTopics (broker : BrokerId) (topics : List TopicConfig)
  | setIntent (broker : BrokerId) (intent : Intent)
  | addBlackTopic (group topic : String)
  | removeBlackTopic (group topic : String)
  | load (manifest : Manifest)
  | setPrimary (primary : Bool)
  deriving DecidableEq

/-- Carry out an edit; a refused one leaves the store as it was. -/
def edit (s : Store) : Edit → Except Fault Store
  | .upsert c => s.upsert c
  | .remove id => .ok (s.remove id)
  | .setTopics id topics => s.setTopics id topics
  | .setIntent id intent => s.setIntent id intent
  | .addBlackTopic group topic => .ok (s.addBlackTopic group topic)
  | .removeBlackTopic group topic => .ok (s.removeBlackTopic group topic)
  | .load m => s.load m
  | .setPrimary primary => .ok (s.setPrimary primary)

/-- The current brokers, by id, and blocked topics. -/
def toManifest (s : Store) : Manifest :=
  { brokers := s.brokers.values, blackTopics := s.blackTopics }

end Store

/-- The offsets each group has committed, by partition key. -/
structure Offsets where
  committed : Table (String × String) Int := Table.empty
  deriving DecidableEq

namespace Offsets

def get? (o : Offsets) (group key : String) : Option Int := o.committed.get? (group, key)

def commit (o : Offsets) (group key : String) (offset : Int) : Offsets :=
  { committed := o.committed.insert (group, key) offset }

end Offsets

end ClusterMaster
