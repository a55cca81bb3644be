import ClusterMaster.Master.State

/-!
# Publishing what brokers offer

A push brings the topology in line with what a broker should offer: its configured topics at the
visibility of its lifecycle step, masked by its own report. Only what differs from the offer it
has published is written, one topic at a time, and the new offer is recorded after the last write;
a push that stops at a held row is made good by the next one.

A push is data, so that it can be stopped before any of its writes and taken up again.
-/

namespace ClusterMaster

/-- One change of the topology on behalf of a broker. -/
inductive OfferWrite where
  | withdraw (topic : String)
  | offer (hosted : HostedTopic)
  deriving DecidableEq

def OfferWrite.topic : OfferWrite → String
  | withdraw topic => topic
  | offer hosted => hosted.topic

/-- The writes that are still to be done for a broker, and the offer to record after them. -/
structure Push where
  broker : BrokerId
  writes : List OfferWrite
  target : Table String HostedTopic
  deriving DecidableEq

namespace Master

/-- What clients may see of a broker: what its lifecycle allows and its report does not deny. -/
def maskedVisibility (m : Master) (l : Lifecycle) : Visibility :=
  let report := (m.brokers.report? l.broker).getD {}
  { publish := l.visibility.publish && report.writable
    subscribe := l.visibility.subscribe && report.readable }

/-- The offer a broker should have: only a registered and configured broker offers anything. -/
def dueOffer? (m : Master) (id : BrokerId) : Option (Table String HostedTopic) :=
  match m.store.config? id, m.runs.lifecycle? id with
  | some c, some l => some (c.offer (m.maskedVisibility l))
  | _, _ => none

/-- The push that is due for a broker, if its offer has to change: first the topics that go, then
those that come or change, each in ascending order. -/
def duePush? (m : Master) (id : BrokerId) : Option Push :=
  (m.dueOffer? id).bind fun target =>
    let change := OfferChange.between (m.runs.offer id) target
    if change.isEmpty then none
    else some
      { broker := id
        writes := change.removed.map .withdraw ++ change.changed.map .offer
        target := target }

/-- Carry out one write. -/
def write (m : Master) (id : BrokerId) (w : OfferWrite) : Master :=
  match w with
  | .withdraw topic => { m with topology := m.topology.withdraw topic id }
  | .offer hosted => { m with topology := m.topology.offer hosted }

/-- Carry out writes one by one, up to the first whose row is held. -/
def writeAll (m : Master) (id : BrokerId) : List OfferWrite → Outcome Unit
  | [] => (.ok (), m)
  | w :: ws =>
    match m.topicRows.checkFree w.topic with
    | .error e => (.error e, m)
    | .ok () => (m.write id w).writeAll id ws

/-- Carry out a push, and record the offer if every write went through. -/
def carryOut (m : Master) (p : Push) : Outcome Unit :=
  match m.writeAll p.broker p.writes with
  | (.error e, m) => (.error e, m)
  | (.ok (), m) => (.ok (), { m with runs := m.runs.setOffer p.broker p.target })

/-- Bring the topology in line with what a broker should offer. -/
def pushOffer (m : Master) (id : BrokerId) : Outcome Unit :=
  match m.duePush? id with
  | some p => m.carryOut p
  | none => (.ok (), m)

end Master

end ClusterMaster
