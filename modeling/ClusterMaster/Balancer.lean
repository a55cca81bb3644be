import ClusterMaster.Balance.Bound
import ClusterMaster.Balance.Fresh
import ClusterMaster.Balance.Steady

/-!
# Balancers

A balancer decides the targets of consumers from pictures of their groups. It is asked twice in a
rebalance pass: for bound groups, whose members declare their partitions, and for the free ones.
The first pass of a master starts from scratch; later ones start from what consumers hold.
-/

namespace ClusterMaster

/-- How targets are decided. -/
structure Balancer where
  /-- Free groups, from scratch. -/
  fresh : List GroupView → Assignment
  /-- Free groups, starting from what consumers hold. -/
  steady : List GroupView → Holdings → Assignment
  /-- Bound groups, from scratch. -/
  freshBound : List GroupView → Offsets → Assignment
  /-- Bound groups, starting from what consumers hold. -/
  steadyBound : List GroupView → Holdings → Offsets → Assignment

namespace Balancer

/-- Even shares for free groups, declared partitions for bound ones. -/
def standard (rate : UInt32) : Balancer where
  fresh gs := Balance.fresh rate gs
  steady gs current := Balance.steady rate gs current
  freshBound gs offsets := Balance.bound gs offsets Table.empty
  steadyBound gs current offsets := Balance.bound gs offsets current

/-- The same targets whatever the groups look like. -/
def fixed (a : Assignment) : Balancer where
  fresh _ := a
  steady _ _ := a
  freshBound _ _ := a
  steadyBound _ _ _ := a

end Balancer

end ClusterMaster
