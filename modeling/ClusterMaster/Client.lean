import ClusterMaster.Partition

/-!
# Clients: producers and consumers

A consumer is tracked by a liveness key made of its id and its group with an at sign between
them. Names may not hold that sign, so `splitLivenessKey` finds the two parts again: the group is
what follows the last one.
-/

namespace ClusterMaster

/-- A registered producer. -/
structure Producer where
  id : String
  host : String
  topics : NameSet
  overTls : Bool
  deriving DecidableEq

/-- A registered consumer. -/
structure Consumer where
  id : String
  group : String
  host : String
  topics : NameSet
  /-- Filter conditions per topic; topics without filters are absent. -/
  topicConditions : Table String NameSet := Table.empty
  overTls : Bool := false
  /-- Bound consumption: the consumer declares which partitions it wants. -/
  bound : Bool := false
  /-- Declared partition key to requested start offset; a negative one asks for no reset. -/
  requiredPartitions : Table String Int := Table.empty
  sessionKey : String := ""
  /-- How many members a bound group waits for. -/
  sourceCount : UInt32 := 0
  selectBig : Bool := false
  deriving DecidableEq

/-- A partition as it is told to the consumer that takes it up or drops it. -/
structure Subscription where
  consumer : String
  group : String
  overTls : Bool := false
  partition : Partition
  deriving DecidableEq

/-- The key under which a consumer's liveness is tracked. -/
def livenessKey (consumer group : String) : String := consumer ++ "@" ++ group

/-- What stands before and after the last occurrence of a character. -/
def splitLast (c : Char) : List Char → Option (List Char × List Char)
  | [] => none
  | x :: xs =>
    match splitLast c xs with
    | some (l, r) => some (x :: l, r)
    | none => if x = c then some ([], xs) else none

/-- The consumer id and the group of a liveness key. -/
def splitLivenessKey (key : String) : Option (String × String) :=
  (splitLast '@' key.toList).map fun p => (String.ofList p.1, String.ofList p.2)

namespace Consumer

def livenessKey (c : Consumer) : String := ClusterMaster.livenessKey c.id c.group

def isSubscribed (c : Consumer) (topic : String) : Bool := decide (topic ∈ c.topics)

/-- A consumer that talks TLS reaches only brokers that do so too. -/
def canReach (c : Consumer) (b : Broker) : Bool := !c.overTls || b.tlsEnabled

/-- A partition as it is told to this consumer. -/
def subscription (c : Consumer) (p : Partition) : Subscription :=
  { consumer := c.id, group := c.group, overTls := c.overTls, partition := p }

end Consumer

end ClusterMaster
