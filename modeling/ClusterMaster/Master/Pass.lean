import ClusterMaster.Balancer
import ClusterMaster.Master.State

/-!
# Rebalance passes

A pass selects the groups to balance and deals them out to shards. Each shard takes a picture of
its groups, asks the balancer for targets, and queues for every member the events that lead from
what it holds to its target. No pass begins while a shard of an earlier one is unfinished.

* `Master.beginPass` : take the next number and select the groups;
* `Master.viewShard` : the picture a shard takes;
* `Master.finishShard` : decide the targets and queue the events;
* `Master.runPass` : all of that, one shard after the other.
-/

namespace ClusterMaster

/-- Cut a list into pieces of one size; the last piece may be shorter. -/
def chunks {α : Type} (size : Nat) (xs : List α) : List (List α) :=
  if _h : xs = [] ∨ size = 0 then []
  else xs.take size :: chunks size (xs.drop size)
termination_by xs.length
decreasing_by
  have := List.length_pos_iff.mpr fun e => _h (.inl e)
  have : size ≠ 0 := fun e => _h (.inr e)
  simp only [List.length_drop]
  omega

/-- A pass that has begun: its number, whether it is the first one, and its shards. -/
structure PassPlan where
  pass : Nat
  first : Bool
  shards : List (List String)
  deriving DecidableEq

/-- The picture a shard works from. -/
structure ShardView where
  groups : List GroupView
  holdings : Holdings
  deriving DecidableEq

namespace Master

/-! ## Selecting groups -/

/-- The groups of live members that have events in their queues. -/
def stalledGroups (m : Master) : NameSet :=
  KeySet.ofList <| m.events.waitingConsumers.filterMap fun id =>
    match m.groups.consumer? id with
    | some c => if m.liveness.isRegistered .consumer c.livenessKey then some c.group else none
    | none => none

/-- A stalled group is waited for until it has been left out for the allowed number of passes. -/
def isWaitedFor (m : Master) (group : String) : Bool :=
  decide (m.events.unfinishedCount group < m.settings.maxUnfinishedRounds.toNat)

/-- Drop the events of a group's members, except for members whose row is held. -/
def dropBacklog (m : Master) (group : String) : Master :=
  { m with
    events := (m.groups.membersOf group).foldl
      (fun q c => if m.consumerRows.isLocked c.id then q else q.clear c.id) m.events }

/-- The groups a later pass balances. Stalled groups are left out, except that those which have
been left out for long enough lose their backlog and are balanced. -/
def groupsDue (m : Master) : List String × Master :=
  let stalled := m.stalledGroups
  let waiting := stalled.filter m.isWaitedFor
  let overdue := stalled.filter fun g => !m.isWaitedFor g
  let m := overdue.toList.foldl dropBacklog m
  (m.groups.names.filter fun g => decide (g ∉ waiting),
    { m with events := m.events.countUnfinished waiting })

/-- Deal group names out to as many shards as allowed, evenly. -/
def shardsOf (m : Master) (groups : List String) : List (List String) :=
  let parallelism := max m.settings.parallelism.toNat 1
  chunks ((groups.length + parallelism - 1) / parallelism) groups

/-- Begin a pass. It takes the next number; while shards are unfinished it has none of its own. -/
def beginPass (m : Master) : PassPlan × Master :=
  let pass := m.lastPass + 1
  let m := { m with lastPass := pass }
  if m.inFlight ≠ 0 then ({ pass, first := false, shards := [] }, m)
  else
    let first := m.firstPass
    let m := { m with firstPass := false }
    let due := if first then (m.groups.names, m) else m.groupsDue
    let shards := due.2.shardsOf due.1
    ({ pass, first, shards }, { due.2 with inFlight := shards.length })

/-! ## Taking a picture -/

/-- The partitions of a topic that may be subscribed to, on registered brokers, in order. -/
def subscribable (m : Master) (topic : String) : List Partition :=
  Partition.sort <| (m.topology.offersOf topic).flatMap fun h =>
    if h.acceptSubscribe then
      match m.brokers.broker? h.broker with
      | some b => h.partitions b
      | none => []
    else []

def viewGroup (m : Master) (g : Group) : GroupView :=
  { name := g.name
    members := g.members.values
    topics := g.topics
    black := m.store.blackTopicsOf g.name
    partitions := Table.ofList (g.topics.toList.map fun t => (t, m.subscribable t))
    bound := g.bound
    sourceCount := g.sourceCount }

/-- The picture of a shard: its groups as they are now, and what their members hold. -/
def viewShard (m : Master) (names : List String) : ShardView :=
  let groups := names.filterMap fun n => (m.groups.group? n).map m.viewGroup
  let members := groups.flatMap GroupView.members
  { groups
    holdings := Table.ofList <| members.filterMap fun c =>
      (m.holdings.get? c.id).map fun h => (c.id, h) }

/-! ## Queueing events -/

/-- The events that carry out a change: first drop, then take up. -/
def changeEvents (pass : Nat) (c : Consumer) (change : HoldingChange) : List Event :=
  let event (kind : EventKind) (ps : List Partition) : Event :=
    { pass, kind, subscriptions := ps.map c.subscription }
  match change.disconnect, change.connect with
  | [], [] => []
  | ds, [] => [event .onlyDisconnect ds]
  | [], cs => [event .onlyConnect cs]
  | ds, cs => [event .disconnect ds, event .connect cs]

/-- Queue events for a consumer, unless its row is held or it has left meanwhile. -/
def queueEvents (m : Master) (consumer : String) (es : List Event) : Master :=
  if m.consumerRows.isLocked consumer || !m.groups.contains consumer then m
  else { m with events := es.foldl (fun q e => q.push consumer e) m.events }

/-- Queue what leads one member from its holding to its target. -/
def queueChange (m : Master) (pass : Nat) (view : ShardView) (targets : Assignment)
    (g : GroupView) (c : Consumer) : Master :=
  let held := view.holdings.getD c.id Table.empty
  m.queueEvents c.id
    (changeEvents pass c (HoldingChange.between c.overTls held (targets.get? c.id) g.black))

/-- Queue what leads the members of all groups of one kind to their targets. -/
def queueChanges (m : Master) (pass : Nat) (view : ShardView) (targets : Assignment)
    (bound : Bool) : Master :=
  (view.groups.filter fun g => g.bound == bound).foldl
    (fun m g => g.members.foldl (fun m c => m.queueChange pass view targets g c) m) m

/-! ## Shards and passes -/

/-- A shard ends, whether it has queued anything or not. -/
def endShard (m : Master) : Master := { m with inFlight := m.inFlight - 1 }

/-- Decide the targets for a picture and queue the events: bound groups first. -/
def finishShard (m : Master) (b : Balancer) (plan : PassPlan) (view : ShardView) : Master :=
  let boundTargets :=
    if plan.first then b.freshBound view.groups m.offsets
    else b.steadyBound view.groups view.holdings m.offsets
  let freeTargets :=
    if plan.first then b.fresh view.groups else b.steady view.groups view.holdings
  let m := m.queueChanges plan.pass view boundTargets true
  (m.queueChanges plan.pass view freeTargets false).endShard

/-- Run one shard of a pass. -/
def runShard (m : Master) (b : Balancer) (plan : PassPlan) (names : List String) : Master :=
  m.finishShard b plan (m.viewShard names)

/-- The balancer a master uses by itself. -/
def balancer (m : Master) : Balancer := .standard m.settings.maxBrokersPerConsumer

/-- Run a whole pass, shard after shard. -/
def runPass (m : Master) (b : Balancer) : PassPlan × Master :=
  let begun := m.beginPass
  (begun.1, begun.1.shards.foldl (fun m names => m.runShard b begun.1 names) begun.2)

end Master

end ClusterMaster
