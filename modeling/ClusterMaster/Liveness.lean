import ClusterMaster.Settings
import ClusterMaster.Table

/-!
# Liveness: when each node was last heard of

Producers, consumers and brokers are tracked under a key of their class. A node whose silence is
longer than its class allows is overdue (`Liveness.overdue`); the scan that finds it removes it,
so that it is released once.
-/

namespace ClusterMaster

inductive NodeClass where
  | producer
  | consumer
  | broker
  deriving DecidableEq, Repr

namespace NodeClass

def label : NodeClass → String
  | producer => "producer"
  | consumer => "consumer"
  | broker => "broker"

def all : List NodeClass := [producer, consumer, broker]

/-- The place of a class in the listing order. -/
def rank : NodeClass → Nat
  | producer => 0
  | consumer => 1
  | broker => 2

instance : Key NodeClass where
  before a b := decide (a.rank < b.rank)
  before_irrefl := by simp
  before_trans := by simp; omega
  eq_of_not_before := by intro a b; cases a <;> cases b <;> simp [rank]

end NodeClass

/-- How long a node of a class may stay silent. -/
def Settings.timeout (s : Settings) : NodeClass → Nat
  | .producer => s.producerTimeout.toNat
  | .consumer => s.consumerTimeout.toNat
  | .broker => s.brokerTimeout.toNat

/-- When each tracked node was last heard of. -/
structure Liveness where
  lastSeen : Table (NodeClass × String) Nat := Table.empty
  deriving DecidableEq

namespace Liveness

/-- Start or restart tracking a node. -/
def register (l : Liveness) (c : NodeClass) (key : String) (now : Nat) : Liveness :=
  { lastSeen := l.lastSeen.insert (c, key) now }

def isRegistered (l : Liveness) (c : NodeClass) (key : String) : Bool :=
  l.lastSeen.contains (c, key)

def unregister (l : Liveness) (c : NodeClass) (key : String) : Liveness :=
  { lastSeen := l.lastSeen.erase (c, key) }

/-- A heartbeat of an unknown node is refused: it must register again. -/
def checkKnown (l : Liveness) (c : NodeClass) (key : String) : Except Fault Unit :=
  if l.isRegistered c key then .ok () else .error (.noSuchNode s!"{c.label} {key}")

/-- Hear of a tracked node. -/
def refresh (l : Liveness) (c : NodeClass) (key : String) (now : Nat) : Except Fault Liveness :=
  match l.checkKnown c key with
  | .error e => .error e
  | .ok () => .ok (l.register c key now)

/-- The tracked nodes of a class, in ascending order. -/
def keysOf (l : Liveness) (c : NodeClass) : List String :=
  l.lastSeen.keys.toList.filterMap fun k => if k.1 = c then some k.2 else none

/-- The node is tracked and was silent for longer than allowed. -/
def isOverdue (l : Liveness) (c : NodeClass) (key : String) (timeout now : Nat) : Bool :=
  (l.lastSeen.get? (c, key)).any fun seen => decide (timeout < now - seen)

/-- The overdue nodes of a class, in ascending order. -/
def overdue (l : Liveness) (c : NodeClass) (timeout now : Nat) : List String :=
  (l.keysOf c).filter fun key => l.isOverdue c key timeout now

/-! ## Lemmas -/

section Lemmas

variable {l : Liveness} {c d : NodeClass} {key k : String} {timeout now : Nat}

theorem lastSeen_register : (l.register c key now).lastSeen.get? (d, k) =
    if (c, key) = (d, k) then some now else l.lastSeen.get? (d, k) :=
  Table.get?_insert

theorem lastSeen_unregister : (l.unregister c key).lastSeen.get? (d, k) =
    if (c, key) = (d, k) then none else l.lastSeen.get? (d, k) :=
  Table.get?_erase

theorem isRegistered_iff :
    l.isRegistered c key = true ↔ ∃ seen, l.lastSeen.get? (c, key) = some seen :=
  Table.contains_iff

theorem isOverdue_iff : l.isOverdue c key timeout now = true ↔
    ∃ seen, l.lastSeen.get? (c, key) = some seen ∧ timeout < now - seen := by
  simp [isOverdue, Option.any_eq_true]

theorem refresh_eq : l.refresh c key now = if l.isRegistered c key = true
    then .ok (l.register c key now) else .error (.noSuchNode s!"{c.label} {key}") := by
  unfold refresh checkKnown
  cases l.isRegistered c key <;> rfl

/-- Who is overdue is tracked. -/
theorem isRegistered_of_isOverdue (h : l.isOverdue c key timeout now = true) :
    l.isRegistered c key = true := by
  obtain ⟨seen, hseen, -⟩ := isOverdue_iff.mp h
  exact isRegistered_iff.mpr ⟨seen, hseen⟩

theorem isOverdue_congr {l' : Liveness}
    (h : l'.lastSeen.get? (c, key) = l.lastSeen.get? (c, key)) :
    l'.isOverdue c key timeout now = l.isOverdue c key timeout now := by
  unfold isOverdue
  rw [h]

theorem mem_keysOf : key ∈ l.keysOf c ↔ l.isRegistered c key = true := by
  unfold keysOf isRegistered
  rw [← Table.mem_keys, ← KeySet.mem_toList, List.mem_filterMap]
  constructor
  · rintro ⟨⟨d, k⟩, hk, hsome⟩
    simp only [Option.ite_none_right_eq_some, Option.some.injEq] at hsome
    obtain ⟨rfl, rfl⟩ := hsome
    exact hk
  · intro hk
    exact ⟨(c, key), hk, if_pos rfl⟩

theorem mem_overdue : key ∈ l.overdue c timeout now ↔ l.isOverdue c key timeout now = true := by
  unfold overdue
  rw [List.mem_filter, mem_keysOf]
  exact ⟨fun h => h.2, fun h => ⟨isRegistered_of_isOverdue h, h⟩⟩

theorem nodup_keysOf : (l.keysOf c).Nodup := by
  unfold keysOf List.Nodup
  rw [List.pairwise_filterMap]
  refine l.lastSeen.nodup_keys.imp fun hne name hname name' hname' heq => hne ?_
  simp only [Option.ite_none_right_eq_some, Option.some.injEq] at hname hname'
  exact Prod.ext (hname.1.trans hname'.1.symm) (hname.2.trans (heq.trans hname'.2.symm))

theorem nodup_overdue : (l.overdue c timeout now).Nodup := List.Pairwise.filter _ nodup_keysOf

end Lemmas

end Liveness

end ClusterMaster
