import ClusterMaster.Client
import ClusterMaster.Topic

/-!
# The publish/subscribe topology

What each broker offers of each topic, which groups subscribe to a topic and which producers
publish to it. The three are plain relations: an offer is filed under its topic and broker, a
subscription under topic and group, a publication under topic and producer.
-/

namespace ClusterMaster

structure Topology where
  hosted : Table (String × BrokerId) HostedTopic := Table.empty
  subscriptions : KeySet (String × String) := KeySet.empty
  publications : KeySet (String × String) := KeySet.empty
  deriving DecidableEq

namespace Topology

/-! ## What brokers offer -/

def hosted? (t : Topology) (topic : String) (broker : BrokerId) : Option HostedTopic :=
  t.hosted.get? (topic, broker)

/-- Insert or replace what a broker offers of a topic. -/
def offer (t : Topology) (h : HostedTopic) : Topology :=
  { t with hosted := t.hosted.insert (h.topic, h.broker) h }

def withdraw (t : Topology) (topic : String) (broker : BrokerId) : Topology :=
  { t with hosted := t.hosted.erase (topic, broker) }

/-- What every broker offers of a topic, by broker. -/
def offersOf (t : Topology) (topic : String) : List HostedTopic :=
  t.hosted.entries.filterMap fun e => if e.1.1 = topic then some e.2 else none

/-- The topics a broker offers, in ascending order. -/
def topicsOf (t : Topology) (broker : BrokerId) : NameSet :=
  KeySet.ofList (t.hosted.entries.filterMap fun e => if e.1.2 = broker then some e.1.1 else none)

/-! ## Who subscribes and who publishes -/

def subscribe (t : Topology) (group : String) (topics : NameSet) : Topology :=
  { t with subscriptions := t.subscriptions.insertAll (topics.toList.map fun x => (x, group)) }

def unsubscribe (t : Topology) (group : String) (topics : NameSet) : Topology :=
  { t with
    subscriptions := t.subscriptions.filter fun p => !(p.2 == group && decide (p.1 ∈ topics)) }

/-- The groups that subscribe to a topic, in ascending order. -/
def subscribersOf (t : Topology) (topic : String) : List String :=
  t.subscriptions.toList.filterMap fun p => if p.1 = topic then some p.2 else none

def publish (t : Topology) (producer : String) (topics : NameSet) : Topology :=
  { t with publications := t.publications.insertAll (topics.toList.map fun x => (x, producer)) }

def unpublish (t : Topology) (producer : String) (topics : NameSet) : Topology :=
  { t with
    publications := t.publications.filter fun p => !(p.2 == producer && decide (p.1 ∈ topics)) }

/-- The producers that publish to a topic, in ascending order. -/
def publishersOf (t : Topology) (topic : String) : List String :=
  t.publications.toList.filterMap fun p => if p.1 = topic then some p.2 else none

/-! ## Lemmas -/

theorem mem_subscribersOf {t : Topology} {topic group : String} :
    group ∈ t.subscribersOf topic ↔ (topic, group) ∈ t.subscriptions := by
  simp only [subscribersOf, List.mem_filterMap, KeySet.mem_toList, Option.ite_none_right_eq_some,
    Option.some.injEq]
  constructor
  · rintro ⟨⟨a, b⟩, hm, rfl, rfl⟩
    exact hm
  · intro h
    exact ⟨(topic, group), h, rfl, rfl⟩

theorem mem_publishersOf {t : Topology} {topic producer : String} :
    producer ∈ t.publishersOf topic ↔ (topic, producer) ∈ t.publications := by
  simp only [publishersOf, List.mem_filterMap, KeySet.mem_toList, Option.ite_none_right_eq_some,
    Option.some.injEq]
  constructor
  · rintro ⟨⟨a, b⟩, hm, rfl, rfl⟩
    exact hm
  · intro h
    exact ⟨(topic, producer), h, rfl, rfl⟩

end Topology

/-! ## Changes of an offer -/

/-- What must change for a broker's offer to become another one. -/
structure OfferChange where
  removed : List String
  changed : List HostedTopic
  deriving DecidableEq, Repr

namespace OfferChange

/-- The topics that go, and the topics that come or look different, each in ascending order. -/
def between (old new : Table String HostedTopic) : OfferChange :=
  { removed := old.keys.toList.filter fun t => !new.contains t
    changed := (new.filter fun t h => decide (old.get? t ≠ some h)).values }

def isEmpty (d : OfferChange) : Bool := d.removed.isEmpty && d.changed.isEmpty

end OfferChange

end ClusterMaster
