import ClusterMaster.Balance.View
import ClusterMaster.Choice

/-!
# Sharing partitions evenly while moving as few as possible

For each topic, every member first keeps what it validly holds, up to its quota; then the
partitions that nobody keeps are dealt out, in ascending key order.

* `Balance.claims` : what each candidate validly holds; a partition held twice counts for the
  first of its holders;
* `Balance.quotas` : equal shares, the ones left over going to those that hold the most;
* `Balance.receiver?` : who takes up a partition that nobody keeps.
-/

namespace ClusterMaster.Balance

/-! ## Claims and quotas -/

/-- The keys a consumer holds of a topic that are still on offer and within its reach. -/
def stillHeld (parts : Table String Partition) (current : Holdings) (topic : String)
    (c : Consumer) : List String :=
  ((current.getD c.id Table.empty).keysOf topic).filter fun k =>
    (parts.get? k).any fun p => c.canReach p.broker

/-- What each candidate counts as holding, given what earlier ones have claimed. -/
def claims (parts : Table String Partition) (current : Holdings) (topic : String) :
    NameSet → List Consumer → List (List String)
  | _, [] => []
  | taken, c :: cs =>
    let held := (stillHeld parts current topic c).filter fun k => decide (k ∉ taken)
    held :: claims parts current topic (taken.insertAll held) cs

/-- The places of the candidates in the order in which left-over shares are given out: who holds
the most comes first, ties go by id. -/
def shareOrder (candidates : List Consumer) (held : List (List String)) : List Nat :=
  let ranked := ((candidates.zip held).zipIdx.map fun e => ((e.1.2.length, e.1.1.id), e.2))
  let notAfter (x y : (Nat × String) × Nat) : Bool :=
    decide (y.1.1 < x.1.1) || (x.1.1 == y.1.1 && !Key.before y.1.2 x.1.2)
  (ranked.mergeSort notAfter).map Prod.snd

/-- The share of each candidate in so many partitions. -/
def quotas (total : Nat) (candidates : List Consumer) (held : List (List String)) : List Nat :=
  let base := total / candidates.length
  let favoured := (shareOrder candidates held).take (total % candidates.length)
  (List.range candidates.length).map fun i => if favoured.contains i then base + 1 else base

/-! ## Dealing the rest out -/

/-- A candidate with the keys it has so far and the number it should have. -/
structure Seat where
  member : Consumer
  kept : List String
  quota : Nat
  deriving DecidableEq

/-- Every candidate keeps what it holds, up to its quota. -/
def seats (parts : Table String Partition) (current : Holdings) (topic : String)
    (candidates : List Consumer) : List Seat :=
  let held := claims parts current topic KeySet.empty candidates
  let quotas := quotas parts.size candidates held
  (candidates.zip (held.zip quotas)).map fun e =>
    { member := e.1, kept := e.2.1.take e.2.2, quota := e.2.2 }

/-- The place of the seat that takes up a partition on a broker: of the reachable seats the one
that lacks the most, and if none lacks any the one that has the fewest. -/
def receiver? (seats : List Seat) (b : Broker) : Option Nat :=
  let reachable := seats.zipIdx.filter fun e => e.1.member.canReach b
  let lacking := reachable.filter fun e => decide (e.1.kept.length < e.1.quota)
  let lack (e : Seat × Nat) : Nat := e.1.quota - e.1.kept.length
  match pick? (fun x y => decide (lack y < lack x)) lacking with
  | some e => some e.2
  | none =>
    (pick? (fun x y => decide (x.1.kept.length < y.1.kept.length)) reachable).map Prod.snd

/-- Give a partition to the seat that takes it up. -/
def seatOne (seats : List Seat) (key : String) (p : Partition) : List Seat :=
  match receiver? seats p.broker with
  | some i => seats.modify i fun s => { s with kept := s.kept ++ [key] }
  | none => seats

/-- Deal out the partitions that nobody keeps. -/
def seatAll (parts : Table String Partition) (seats : List Seat) : List Seat :=
  let kept := seats.flatMap Seat.kept
  (parts.filter fun k _ => !kept.contains k).entries.foldl (fun s e => seatOne s e.1 e.2) seats

/-! ## Groups -/

/-- Give every seat its partitions, in ascending key order. -/
def settleSeats (topic : String) (parts : Table String Partition) (a : Assignment)
    (seats : List Seat) : Assignment :=
  seats.foldl (fun a s =>
    ((KeySet.ofList s.kept).toList.filterMap parts.get?).foldl
      (fun a p => a.give s.member.id topic p) a) a

/-- Share one topic out. -/
def steadyTopic (g : GroupView) (current : Holdings) (a : Assignment) (topic : String) :
    Assignment :=
  let parts := g.eligible topic
  settleSeats topic parts a (seatAll parts (seats parts current topic (g.candidates topic)))

/-- Share the partitions of a group out, starting from what its members hold. -/
def steadyGroup (current : Holdings) (g : GroupView) : Assignment :=
  g.topics.toList.foldl (steadyTopic g current) (Assignment.vacant g)

/-- Share the partitions of every free group out, starting from what consumers hold. -/
def steady (rate : UInt32) (gs : List GroupView) (current : Holdings) : Assignment :=
  Assignment.ofGroups (steadyGroup current) (gs.filter fun g => g.isShared rate)

end ClusterMaster.Balance
