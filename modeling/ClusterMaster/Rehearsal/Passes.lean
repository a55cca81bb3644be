import ClusterMaster.Master.Pass
import ClusterMaster.Rehearsal.Stopped

/-!
# Rehearsals: passes under chosen conditions

A `Rehearsal` runs a master under conditions that one chooses: fixed targets in place of the
balancer's, a group whose shard fails, calls that stop midway. It notes the groups of every shard
that runs.

* `Rehearsal.runPass` : a pass, shard after shard;
* `Rehearsal.runOverlapping` : a pass whose shards have taken their pictures while other things
  happen and a second pass is tried.
-/

namespace ClusterMaster

/-- A master and the conditions it runs under. -/
structure Rehearsal where
  master : Master
  /-- Targets that are used whatever the groups look like. -/
  targets : Option Assignment := none
  /-- A shard with this group fails. -/
  failing : Option String := none
  stopped : Table String StoppedCall := Table.empty
  /-- The groups of each shard that has run, since they were last asked for. -/
  ran : List (List String) := []
  deriving DecidableEq

namespace Rehearsal

/-! ## Conditions -/

/-- The balancer that decides. -/
def balancer (r : Rehearsal) : Balancer :=
  match r.targets with
  | some a => .fixed a
  | none => r.master.balancer

def fails (r : Rehearsal) (view : ShardView) : Bool :=
  r.failing.any fun name => view.groups.any fun g => g.name == name

/-- The groups of the shards that ran, in ascending order; they are forgotten. -/
def takeRan (r : Rehearsal) : List (List String) × Rehearsal :=
  (r.ran.mergeSort fun x y => !decide (y < x), { r with ran := [] })

/-! ## Stopped calls -/

/-- Keep a call that has stopped under a name. -/
def keep (r : Rehearsal) (name : String) (call : StoppedCall) : Rehearsal :=
  { r with stopped := r.stopped.insert name call }

/-- Let the call with a name finish. -/
def release (r : Rehearsal) (name : String) : Option Answer × Rehearsal :=
  match r.stopped.get? name with
  | none => (none, r)
  | some call =>
    let resumed := r.master.resume call
    (some resumed.1, { r with master := resumed.2, stopped := r.stopped.erase name })

/-! ## Passes -/

/-- Begin a pass. -/
def beginPass (r : Rehearsal) : PassPlan × Rehearsal :=
  let begun := r.master.beginPass
  (begun.1, { r with master := begun.2 })

/-- Take the picture of a shard, and note its groups. -/
def viewShard (r : Rehearsal) (names : List String) : ShardView × Rehearsal :=
  let view := r.master.viewShard names
  (view, { r with ran := r.ran ++ [view.groups.map GroupView.name] })

/-- Finish a shard; one that fails ends without queueing anything. -/
def finishShard (r : Rehearsal) (plan : PassPlan) (view : ShardView) : Rehearsal :=
  { r with
    master :=
      if r.fails view then r.master.endShard else r.master.finishShard r.balancer plan view }

/-- Take the pictures of several shards. -/
def viewShards (r : Rehearsal) : List (List String) → List ShardView × Rehearsal
  | [] => ([], r)
  | names :: rest =>
    let viewed := r.viewShard names
    let more := viewed.2.viewShards rest
    (viewed.1 :: more.1, more.2)

/-- Run the shards of a pass that has begun. -/
def runShards (r : Rehearsal) (plan : PassPlan) : Rehearsal :=
  let viewed := r.viewShards plan.shards
  viewed.1.foldl (fun r view => r.finishShard plan view) viewed.2

/-- Run a pass. -/
def runPass (r : Rehearsal) : PassPlan × Rehearsal :=
  let begun := r.beginPass
  (begun.1, begun.2.runShards begun.1)

/-- Begin a pass and take its pictures; then let something happen and try a second pass; then
finish both. Answers with the two plans, the shards in flight before it happened, and with what
came of it. -/
def runOverlapping {α : Type} (r : Rehearsal) (meanwhile : Rehearsal → α × Rehearsal) :
    (PassPlan × PassPlan × Nat × α) × Rehearsal :=
  let (first, r) := r.beginPass
  let (views, r) := r.viewShards first.shards
  let inFlight := r.master.inFlight
  let (result, r) := meanwhile r
  let (second, r) := r.beginPass
  let r := r.runShards second
  ((first, second, inFlight, result), views.foldl (fun r view => r.finishShard first view) r)

end Rehearsal

end ClusterMaster
