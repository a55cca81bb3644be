import ClusterMaster.Balance.View
import ClusterMaster.Store

/-!
# Handing out declared partitions

Members of a bound group declare which partitions they want and from which offset. The first
member that declares a partition and can reach it gets it. It must start reading at the declared
offset unless it holds the partition already, asks for no reset, or the group has committed just
that offset.
-/

namespace ClusterMaster.Balance

/-- The partition as the member gets it, with the offset to start from. -/
def withStart (offsets : Offsets) (current : Holdings) (group : String) (c : Consumer)
    (topic : String) (key : String) (offset : Int) (p : Partition) : Partition :=
  let held := (current.getD c.id Table.empty).contains (topic, key)
  if !held && decide (0 ≤ offset) && decide (offsets.get? group key ≠ some offset) then
    { p with resetOffset := some offset }
  else p

/-- Serve one declaration of a member; a partition that is gone already is not given twice. -/
def serveOne (parts : Table String Partition) (group topic : String) (offsets : Offsets)
    (current : Holdings) (c : Consumer) (state : Assignment × NameSet) (want : String × Int) :
    Assignment × NameSet :=
  match parts.get? want.1 with
  | none => state
  | some p =>
    if c.canReach p.broker ∧ want.1 ∉ state.2 then
      (state.1.give c.id topic (withStart offsets current group c topic want.1 want.2 p),
        state.2.insert want.1)
    else state

/-- Serve the declarations for one topic, member by member. -/
def serveTopic (g : GroupView) (offsets : Offsets) (current : Holdings) (a : Assignment)
    (topic : String) : Assignment :=
  let serve := serveOne (g.eligible topic) g.name topic offsets current
  ((g.candidates topic).foldl (fun state c => c.requiredPartitions.entries.foldl (serve c) state)
    (a, KeySet.empty)).1

/-- Serve the declarations of one group. -/
def boundGroup (offsets : Offsets) (current : Holdings) (g : GroupView) : Assignment :=
  g.topics.toList.foldl (serveTopic g offsets current) (Assignment.vacant g)

/-- Serve the declarations of every bound group whose members are complete. -/
def bound (gs : List GroupView) (offsets : Offsets) (current : Holdings) : Assignment :=
  Assignment.ofGroups (boundGroup offsets current) (gs.filter GroupView.isBoundReady)

end ClusterMaster.Balance
