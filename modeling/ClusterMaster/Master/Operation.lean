import ClusterMaster.Master.Consuming
import ClusterMaster.Master.Expiry
import ClusterMaster.Master.Pass
import ClusterMaster.Master.Publishing
import ClusterMaster.Master.Serving

/-!
# Everything that can happen to a master

An `Operation` is one atomic thing that happens to a master: a call of a client or an operator, an
edit of its store, a scan for silent nodes, a rebalance pass, or time that passes. Rows are held and
given back by calls that run beside the others.

* `Master.perform` : what an operation is answered with, and the master afterwards;
* `Master.run` : the master after a list of operations;
* `Master.Reachable` : the masters that a history can lead to.
-/

namespace ClusterMaster

/-- The three kinds of rows. -/
inductive RowKind where
  | consumer
  | producer
  | topic
  deriving DecidableEq, Repr

inductive Operation where
  | producerRegister (request : ProducerRegister)
  | producerHeartbeat (request : ProducerHeartbeat)
  | producerClose (producer : String)
  | consumerRegister (request : ConsumerRegister)
  | consumerHeartbeat (request : ConsumerHeartbeat)
  | consumerClose (request : ConsumerClose)
  | brokerRegister (request : BrokerRegister)
  | brokerHeartbeat (request : BrokerHeartbeat)
  | brokerClose (broker : BrokerId)
  | setIntent (broker : BrokerId) (intent : Intent)
  | edit (edit : Store.Edit)
  | commit (group key : String) (offset : Int)
  | expire (nodes : NodeClass)
  | pass
  /-- Time passes for those who wait to hear of a node. -/
  | wait (milliseconds : Nat)
  /-- Time passes for brokers that wait in a step. -/
  | stepWait (milliseconds : Nat)
  | hold (kind : RowKind) (key : String)
  | giveBack (kind : RowKind) (key : String)
  deriving DecidableEq

/-- What an operation is answered with. -/
inductive Answer where
  | done
  | producer (answer : ProducerAnswer)
  | admitted (answer : ConsumerAdmitted)
  | pulse (answer : ConsumerPulse)
  | broker (answer : BrokerAnswer)
  /-- The liveness keys of the nodes that were overdue. -/
  | expired (keys : List String)
  | pass (plan : PassPlan)
  deriving DecidableEq

/-- The same outcome with another answer. -/
def Outcome.map {α β : Type} (f : α → β) (o : Outcome α) : Outcome β := (o.1.map f, o.2)

namespace Master

/-- Change the rows of one kind. -/
def mapRows (m : Master) (kind : RowKind) (f : RowLock → RowLock) : Master :=
  match kind with
  | .consumer => { m with consumerRows := f m.consumerRows }
  | .producer => { m with producerRows := f m.producerRows }
  | .topic => { m with topicRows := f m.topicRows }

/-- Edit the store, outside of any call. -/
def editStore (m : Master) (e : Store.Edit) : Outcome Unit :=
  match m.store.edit e with
  | .error fault => (.error fault, m)
  | .ok store => (.ok (), { m with store })

/-- Carry out one operation. -/
def perform (m : Master) : Operation → Outcome Answer
  | .producerRegister r => (m.producerRegister r).map .producer
  | .producerHeartbeat r => (m.producerHeartbeat r).map .producer
  | .producerClose id => (m.producerClose id).map fun _ => .done
  | .consumerRegister r => (m.consumerRegister r).map .admitted
  | .consumerHeartbeat r => (m.consumerHeartbeat r).map .pulse
  | .consumerClose r => (m.consumerClose r).map fun _ => .done
  | .brokerRegister r => (m.brokerRegister r).map .broker
  | .brokerHeartbeat r => (m.brokerHeartbeat r).map .broker
  | .brokerClose id => (m.brokerClose id).map fun _ => .done
  | .setIntent id intent => (m.setBrokerIntent id intent).map fun _ => .done
  | .edit e => (m.editStore e).map fun _ => .done
  | .commit group key offset =>
    (.ok .done, { m with offsets := m.offsets.commit group key offset })
  | .expire c => (.ok (.expired (m.expire c).1), (m.expire c).2)
  | .pass => (.ok (.pass (m.runPass m.balancer).1), (m.runPass m.balancer).2)
  | .wait ms => (.ok .done, { m with clock := m.clock + ms })
  | .stepWait ms => (.ok .done, { m with stepClock := m.stepClock + ms })
  | .hold kind key => (.ok .done, m.mapRows kind fun l => l.take key)
  | .giveBack kind key => (.ok .done, m.mapRows kind fun l => l.release key)

/-- The master after an operation. -/
def after (m : Master) (op : Operation) : Master := (m.perform op).2

/-- The master after operations, one after the other. -/
def run (m : Master) (ops : List Operation) : Master := ops.foldl after m

/-- The masters that start fresh from valid settings and a store, and what a history of operations
makes of them. -/
def Reachable (m : Master) : Prop :=
  ∃ settings store fresh ops, create settings store = .ok fresh ∧ fresh.run ops = m

/-- What one more operation makes of a reachable master is reachable. -/
theorem Reachable.after {m : Master} (h : m.Reachable) (op : Operation) : (m.after op).Reachable := by
  obtain ⟨settings, store, fresh, ops, hf, rfl⟩ := h
  exact ⟨settings, store, fresh, ops ++ [op], hf, by simp [run]⟩

/-- A property of fresh masters that every operation keeps holds of all reachable ones. -/
theorem Reachable.induction {p : Master → Prop}
    (fresh : ∀ settings store m, create settings store = .ok m → p m)
    (keep : ∀ m op, p m → p (m.after op)) {m : Master} (h : m.Reachable) : p m := by
  obtain ⟨settings, store, m, ops, hm, rfl⟩ := h
  have base := fresh settings store m hm
  clear hm
  induction ops generalizing m with
  | nil => exact base
  | cons op ops ih => exact ih (m.after op) (keep m op base)

end Master

end ClusterMaster
