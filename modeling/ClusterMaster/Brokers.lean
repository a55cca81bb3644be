import ClusterMaster.Lifecycle

/-!
# Registered brokers

For every registered broker the master keeps its address, what it last said about being readable
and writable, its lifecycle, and the offer it has published to the topology. The published offer
survives a new registration, so that the next push starts from what clients can still see.
-/

namespace ClusterMaster

/-- Whether a broker can be read from and written to, by its own account. -/
structure Report where
  readable : Bool := true
  writable : Bool := true
  deriving DecidableEq, Repr

/-- Addresses and reports of the registered brokers. -/
structure Brokers where
  registered : Table BrokerId Broker := Table.empty
  reports : Table BrokerId Report := Table.empty
  deriving DecidableEq

namespace Brokers

def broker? (b : Brokers) (id : BrokerId) : Option Broker := b.registered.get? id

def report? (b : Brokers) (id : BrokerId) : Option Report := b.reports.get? id

def contains (b : Brokers) (id : BrokerId) : Bool := b.registered.contains id

/-- All registered brokers, by id. -/
def all (b : Brokers) : List Broker := b.registered.values

/-- Register or replace a broker, which counts as readable and writable until it reports. -/
def register (b : Brokers) (info : Broker) : Brokers :=
  { registered := b.registered.insert info.id info, reports := b.reports.insert info.id {} }

def remove (b : Brokers) (id : BrokerId) : Brokers :=
  { registered := b.registered.erase id, reports := b.reports.erase id }

/-- Take down the report of a registered broker. -/
def report (b : Brokers) (id : BrokerId) (r : Report) : Brokers :=
  if b.contains id then { b with reports := b.reports.insert id r } else b

end Brokers

/-- Lifecycles and published offers of the registered brokers. -/
structure BrokerRuns where
  lifecycles : Table BrokerId Lifecycle := Table.empty
  offers : Table BrokerId (Table String HostedTopic) := Table.empty
  deriving DecidableEq

namespace BrokerRuns

def lifecycle? (r : BrokerRuns) (id : BrokerId) : Option Lifecycle := r.lifecycles.get? id

/-- The offer a broker has published. -/
def offer (r : BrokerRuns) (id : BrokerId) : Table String HostedTopic :=
  r.offers.getD id Table.empty

def register (r : BrokerRuns) (l : Lifecycle) : BrokerRuns :=
  { r with lifecycles := r.lifecycles.insert l.broker l }

def setOffer (r : BrokerRuns) (id : BrokerId) (offer : Table String HostedTopic) : BrokerRuns :=
  { r with offers := r.offers.insert id offer }

def remove (r : BrokerRuns) (id : BrokerId) : BrokerRuns :=
  { lifecycles := r.lifecycles.erase id, offers := r.offers.erase id }

end BrokerRuns

end ClusterMaster
