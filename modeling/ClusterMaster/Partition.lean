import ClusterMaster.Table

/-!
# Brokers and the partitions they host

A partition is identified by its broker, its topic and its number; the broker's address and the
offset to start from are carried along and do not tell two partitions apart. `Partition.key`
writes the identity as a text, `Partition.address` the way a client reaches it.
-/

namespace ClusterMaster

/-- Brokers are numbered. -/
abbrev BrokerId := UInt32

/-- How messages name a broker. -/
def brokerLabel (id : BrokerId) : String := s!"broker-{id}"

/-- A registered broker and its address. -/
structure Broker where
  id : BrokerId
  host : String
  port : UInt16
  tlsEnabled : Bool := false
  tlsPort : UInt16 := 0
  deriving DecidableEq, Repr

/-- The port a client connects to, depending on whether it talks TLS. -/
def Broker.portFor (b : Broker) (overTls : Bool) : UInt16 := if overTls then b.tlsPort else b.port

/-- One partition of a topic on one broker. -/
structure Partition where
  broker : Broker
  topic : String
  number : Nat
  /-- Where a consumer must start reading when it connects. -/
  resetOffset : Option Int := none
  deriving DecidableEq, Repr

namespace Partition

/-- What tells partitions apart. -/
def identity (p : Partition) : BrokerId × String × Nat := (p.broker.id, p.topic, p.number)

/-- The identity as a text: broker, topic and number. -/
def key (p : Partition) : String :=
  toString p.broker.id.toNat ++ "-" ++ p.topic ++ "-" ++ toString p.number

/-- Where a client reaches the partition: broker, host and port, then topic and number. -/
def address (p : Partition) (overTls : Bool) : String :=
  toString p.broker.id.toNat ++ ":" ++ p.broker.host ++ ":" ++
    toString (p.broker.portFor overTls).toNat ++ "#" ++ p.topic ++ ":" ++ toString p.number

/-- What counts as the same partition when holdings are compared: over TLS a moved address is
another partition. -/
def diffKey (p : Partition) (overTls : Bool) : String := if overTls then p.address true else p.key

/-- Partitions are listed by broker, then topic, then number. -/
def before (p q : Partition) : Bool := Key.before p.identity q.identity

/-- Partitions in listing order; those of one identity keep their places. -/
def sort (ps : List Partition) : List Partition := ps.mergeSort fun p q => !before q p

end Partition

end ClusterMaster
