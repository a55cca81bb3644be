import ClusterMaster.Proofs.Offers

/-!
# A small cluster

One broker with one topic is enough to see what a master does with the consumers of a group. Where
a theorem asks something of a master, a history of this cluster shows that there are such masters.
Whatever happens in it, its master is `Reachable` (`reachable_run`) and has `Grown` from an edited
store (`grown_run`).
-/

namespace ClusterMaster.SmallCluster

/-- The broker may be read from, and its only topic has so many partitions. -/
def config (partitions : UInt32) : BrokerConfig :=
  { id := 1
    host := "h"
    port := 1
    intent := .onlineNotWrite
    topics := [{ topic := "t", partitionCount := partitions }] }

def store (partitions : UInt32) : Store :=
  { brokers := Table.empty.insert 1 (config partitions), version := 1 }

/-- The master before anything has happened. -/
def fresh (partitions : UInt32) (settings : Settings := {}) : Master :=
  { settings, store := store partitions }

/-- The broker registers. -/
def serving : Operation := .brokerRegister { broker := 1, host := "h", port := 1 }

/-- A consumer wants to read the topic together with its group. -/
def joining (consumer group : String) : ConsumerRegister :=
  { consumer, group, host := "h", topics := KeySet.ofList ["t"] }

section

variable {partitions : UInt32} {settings : Settings}

theorem store_edited (h : (config partitions).validate = .ok ()) : (store partitions).Edited := by
  refine .edit .empty (e := .upsert (config partitions)) ?_
  show Store.empty.upsert (config partitions) = .ok (store partitions)
  rw [Store.upsert, h]
  rfl

theorem create_fresh (h : settings.validate = .ok ()) :
    Master.create settings (store partitions) = .ok (fresh partitions settings) := by
  rw [Master.create, h]
  rfl

theorem reachable_run (h : settings.validate = .ok ()) (ops : List Operation) :
    ((fresh partitions settings).run ops).Reachable :=
  ⟨settings, store partitions, fresh partitions settings, ops, create_fresh h, rfl⟩

theorem grown_run (hc : (config partitions).validate = .ok ()) (hs : settings.validate = .ok ())
    (ops : List Operation) : ((fresh partitions settings).run ops).Grown :=
  ⟨settings, store partitions, fresh partitions settings, ops, store_edited hc, create_fresh hs, rfl⟩

end

end ClusterMaster.SmallCluster
