import ClusterMaster.EventQueue

/-!
# What a consumer holds, and how it changes

A `Holding` files every partition a consumer holds under the partition's own topic and key.

* `HoldingChange.between` : what to drop and what to take up to get from a holding to a target;
* `Holding.apply` : a holding once an event has been carried out.
-/

namespace ClusterMaster

/-- The partitions a consumer holds, by topic and key. -/
abbrev Holding := Table (String × String) Partition

/-- The partitions a consumer should hold, per topic. -/
abbrev Target := Table String (List Partition)

/-- The holdings of all consumers that have one. -/
abbrev Holdings := Table String Holding

namespace Holding

def add (h : Holding) (p : Partition) : Holding := h.insert (p.topic, p.key) p

def remove (h : Holding) (p : Partition) : Holding := h.erase (p.topic, p.key)

/-- The holding of a consumer that reports these subscriptions. -/
def ofSubscriptions (subs : List Subscription) : Holding :=
  subs.foldl (fun h s => add h s.partition) Table.empty

/-- The topics of which something is held. -/
def topics (h : Holding) : NameSet := KeySet.ofList (h.entries.map fun e => e.1.1)

/-- The held partitions that are filed under a topic. -/
def ofTopic (h : Holding) (topic : String) : List Partition :=
  h.entries.filterMap fun e => if e.1.1 = topic then some e.2 else none

/-- The keys under which partitions of a topic are held. -/
def keysOf (h : Holding) (topic : String) : List String :=
  h.entries.filterMap fun e => if e.1.1 = topic then some e.1.2 else none

/-- The keys of all held partitions. -/
def partitionKeys (h : Holding) : NameSet := KeySet.ofList (h.entries.map fun e => e.1.2)

/-- The holding once an event has been carried out. -/
def apply (h : Holding) (e : Event) : Holding :=
  if e.kind.isConnect then e.subscriptions.foldl (fun h s => h.add s.partition) h
  else e.subscriptions.foldl (fun h s => h.remove s.partition) h

end Holding

/-- The partitions a consumer must drop and those it must take up. -/
structure HoldingChange where
  disconnect : List Partition := []
  connect : List Partition := []
  deriving DecidableEq

namespace HoldingChange

def isEmpty (d : HoldingChange) : Bool := d.disconnect.isEmpty && d.connect.isEmpty

/-- What a consumer should hold of a topic: nothing of a blocked one, and without a target what
it holds already. -/
def wanted (held : Holding) (target : Option Target) (black : NameSet) (topic : String) :
    List Partition :=
  if topic ∈ black then []
  else
    match target with
    | some t => t.getD topic []
    | none => held.ofTopic topic

/-- The topics that a holding or a target mentions. -/
def topicsOf (held : Holding) (target : Option Target) : NameSet :=
  held.topics.insertAll ((target.map fun t => t.keys.toList).getD [])

/-- The partitions of one list whose diff key does not occur in another. -/
def without (overTls : Bool) (ps qs : List Partition) : List Partition :=
  let keys := qs.map fun q => q.diffKey overTls
  ps.filter fun p => !keys.contains (p.diffKey overTls)

/-- Compare what a consumer holds with its target, topic by topic. -/
def between (overTls : Bool) (held : Holding) (target : Option Target) (black : NameSet) :
    HoldingChange :=
  let topics := (topicsOf held target).toList
  { disconnect := Partition.sort (topics.flatMap fun t =>
      without overTls (held.ofTopic t) (wanted held target black t))
    connect := Partition.sort (topics.flatMap fun t =>
      without overTls (wanted held target black t) (held.ofTopic t)) }

end HoldingChange

end ClusterMaster
