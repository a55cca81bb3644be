import ClusterMaster.Partition

/-!
# Topics as brokers host them

A topic is spread over stores of equally many partitions. Partition numbers count up within a
store and start again at the next multiple of `storeStride` in the next one
(`HostedTopic.partitionNumbers`).
-/

namespace ClusterMaster

/-- The distance between the first partition numbers of neighbouring stores. -/
def storeStride : Nat := 10000

/-- What a broker currently offers of one topic. -/
structure HostedTopic where
  broker : BrokerId
  topic : String
  partitionCount : UInt32
  storeCount : UInt32
  acceptPublish : Bool
  acceptSubscribe : Bool
  deriving DecidableEq, Repr

namespace HostedTopic

/-- The partition numbers, store by store. -/
def partitionNumbers (t : HostedTopic) : List Nat :=
  (List.range t.storeCount.toNat).flatMap fun store =>
    (List.range t.partitionCount.toNat).map fun p => store * storeStride + p

/-- The partitions of the topic on a broker. -/
def partitions (t : HostedTopic) (b : Broker) : List Partition :=
  t.partitionNumbers.map fun n => { broker := b, topic := t.topic, number := n }

def totalPartitions (t : HostedTopic) : Nat := t.partitionCount.toNat * t.storeCount.toNat

end HostedTopic

end ClusterMaster
