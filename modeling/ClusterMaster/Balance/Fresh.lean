import ClusterMaster.Balance.View
import ClusterMaster.Choice

/-!
# Sharing partitions from scratch

The partitions of a topic are dealt out one by one. Each goes to the subscribed member that can
reach its broker and has the fewest partitions of this topic so far; ties go to the member with
the fewest partitions of all topics, then to the lowest id.
-/

namespace ClusterMaster.Balance

/-- How much a consumer has been given so far: of the topic, of all topics; then its id. -/
def burden (a : Assignment) (topic : String) (c : Consumer) : Nat × Nat × String :=
  ((a.of c.id topic).length, a.load c.id, c.id)

/-- The candidate that gets the next partition on a broker. -/
def leastBurdened (a : Assignment) (topic : String) (b : Broker) (candidates : List Consumer) :
    Option Consumer :=
  pick? (fun c d => Key.before (burden a topic c) (burden a topic d))
    (candidates.filter fun c => c.canReach b)

/-- Deal one partition out; nobody gets one that nobody can reach. -/
def dealOne (topic : String) (candidates : List Consumer) (a : Assignment) (p : Partition) :
    Assignment :=
  match leastBurdened a topic p.broker candidates with
  | some c => a.give c.id topic p
  | none => a

/-- Deal the partitions of one topic out. -/
def dealTopic (g : GroupView) (a : Assignment) (topic : String) : Assignment :=
  (g.partitionsOf topic).foldl (dealOne topic (g.candidates topic)) a

/-- Share the partitions of a group out among its members. -/
def freshGroup (g : GroupView) : Assignment :=
  g.topics.toList.foldl (dealTopic g) (Assignment.vacant g)

/-- Share the partitions of every free group out. -/
def fresh (rate : UInt32) (gs : List GroupView) : Assignment :=
  Assignment.ofGroups freshGroup (gs.filter fun g => g.isShared rate)

end ClusterMaster.Balance
