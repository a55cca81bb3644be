import ClusterMaster.Holding

/-!
# What a balancer sees, and what it decides

A `GroupView` is a picture of one consumer group and of the partitions it may read, taken when a
rebalance pass begins. An `Assignment` gives every consumer a target.
-/

namespace ClusterMaster

/-- One consumer group as a balancer sees it. -/
structure GroupView where
  name : String
  members : List Consumer
  topics : NameSet
  /-- The topics the group is blocked from. -/
  black : NameSet := KeySet.empty
  /-- The partitions that may be subscribed to, per topic. -/
  partitions : Target
  bound : Bool := false
  sourceCount : UInt32 := 0
  deriving DecidableEq

namespace GroupView

/-- The partitions of a topic the group may read. -/
def partitionsOf (g : GroupView) (topic : String) : List Partition :=
  if topic ∈ g.black then [] else g.partitions.getD topic []

/-- The partitions of a topic the group may read, by key. -/
def eligible (g : GroupView) (topic : String) : Table String Partition :=
  Table.ofList ((g.partitionsOf topic).map fun p => (p.key, p))

/-- The members that subscribe to a topic, in their order. -/
def candidates (g : GroupView) (topic : String) : List Consumer :=
  g.members.filter fun c => c.isSubscribed topic

/-- How many brokers host the group's partitions. -/
def brokerCount (g : GroupView) : Nat :=
  (KeySet.ofList (g.partitions.values.flatten.map fun p => p.broker.id)).size

/-- The members can read from all brokers without one of them reading from more than `rate`; a
rate of zero is no limit. -/
def withinRate (g : GroupView) (rate : UInt32) : Bool :=
  rate == 0 || g.members.isEmpty || decide (g.brokerCount ≤ g.members.length * rate.toNat)

/-- The group shares its partitions freely and has somebody to share them. -/
def isShared (g : GroupView) (rate : UInt32) : Bool :=
  !g.bound && !g.members.isEmpty && g.withinRate rate

/-- The members declare their partitions, and all expected members are there, counted in the width
of the expected number. -/
def isBoundReady (g : GroupView) : Bool :=
  g.bound && !g.members.isEmpty && decide (g.sourceCount ≤ UInt32.ofNat g.members.length)

end GroupView

/-- The target of every consumer. -/
abbrev Assignment := Table String Target

namespace Assignment

/-- Every member has a target for each topic it subscribes to, still empty. -/
def vacant (g : GroupView) : Assignment :=
  Table.ofList (g.members.map fun c =>
    (c.id, Table.ofList (c.topics.toList.map fun t => (t, []))))

/-- The partitions of a topic in a consumer's target. -/
def of (a : Assignment) (consumer topic : String) : List Partition :=
  (a.getD consumer Table.empty).getD topic []

/-- Give a consumer one more partition of a topic. -/
def give (a : Assignment) (consumer topic : String) (p : Partition) : Assignment :=
  let target := a.getD consumer Table.empty
  a.insert consumer (target.insert topic (target.getD topic [] ++ [p]))

/-- How many partitions a consumer gets, over all topics. -/
def load (a : Assignment) (consumer : String) : Nat :=
  (a.getD consumer Table.empty).values.flatten.length

/-- Take the targets of another assignment over one's own. -/
def extend (a b : Assignment) : Assignment := a.insertAll b.entries

/-- Decide group by group; of a consumer in two groups the later group's target counts. -/
def ofGroups (decideGroup : GroupView → Assignment) (gs : List GroupView) : Assignment :=
  gs.foldl (fun a g => a.extend (decideGroup g)) Table.empty

/-- What consumers hold once they hold exactly their targets. -/
def toHoldings (a : Assignment) : Holdings :=
  a.map fun _ target =>
    Table.ofList (target.entries.flatMap fun e => e.2.map fun p => ((e.1, p.key), p))

end Assignment

end ClusterMaster
