import ClusterMaster.Client

/-!
# Event queues: what each consumer must still take up or drop

Every consumer has a queue of events. Only the head of a queue is ever handed out; it stays there
until the consumer acknowledges it, and nothing else is handed out meanwhile.

* `EventQueues.push` : an event joins the end of a queue;
* `EventQueues.deliver` : the head is handed out, once;
* `EventQueues.acknowledge` : a head that was handed out leaves;
* `EventQueues.popFirst`, `EventQueues.clear` : events are dropped unseen.

The queues also count, per group, for how many passes its events have been waiting.
-/

namespace ClusterMaster

/-- What an event asks of a consumer; the "only" kinds come without a partner. -/
inductive EventKind where
  | connect
  | disconnect
  | onlyConnect
  | onlyDisconnect
  deriving DecidableEq, Repr

namespace EventKind

def isConnect : EventKind → Bool
  | connect | onlyConnect => true
  | disconnect | onlyDisconnect => false

def label : EventKind → String
  | connect => "CONNECT"
  | disconnect => "DISCONNECT"
  | onlyConnect => "ONLY_CONNECT"
  | onlyDisconnect => "ONLY_DISCONNECT"

end EventKind

/-- How far an event has come. -/
inductive EventStatus where
  | todo
  | processing
  | done
  deriving DecidableEq, Repr

def EventStatus.label : EventStatus → String
  | todo => "TODO"
  | processing => "PROCESSING"
  | done => "DONE"

/-- Partitions a consumer must take up or drop, as decided by one rebalance pass. -/
structure Event where
  pass : Nat
  kind : EventKind
  subscriptions : List Subscription
  status : EventStatus := .todo
  deriving DecidableEq

/-- The queues of all consumers; a consumer without events has none. -/
structure EventQueues where
  queues : Table String (List Event) := Table.empty
  /-- For how many passes in a row a group has waited for acknowledgements. -/
  unfinished : Table String Nat := Table.empty
  deriving DecidableEq

namespace EventQueues

/-- A consumer's queue, head first. -/
def queue (q : EventQueues) (consumer : String) : List Event := q.queues.getD consumer []

/-- Replace a consumer's queue. -/
def setQueue (q : EventQueues) (consumer : String) (es : List Event) : EventQueues :=
  { q with queues := if es.isEmpty then q.queues.erase consumer else q.queues.insert consumer es }

def push (q : EventQueues) (consumer : String) (e : Event) : EventQueues :=
  q.setQueue consumer (q.queue consumer ++ [e])

def peek (q : EventQueues) (consumer : String) : Option Event := (q.queue consumer).head?

def pendingCount (q : EventQueues) (consumer : String) : Nat := (q.queue consumer).length

/-- The consumers with a queue. -/
def waitingConsumers (q : EventQueues) : List String := q.queues.keys.toList

/-- Hand out the head of a queue unless it has been handed out already. -/
def deliver (q : EventQueues) (consumer : String) : Option Event × EventQueues :=
  match q.queue consumer with
  | [] => (none, q)
  | e :: es =>
    if e.status = .processing then (none, q)
    else
      let e := { e with status := .processing }
      (some e, q.setQueue consumer (e :: es))

/-- Drop the head of a queue. -/
def popFirst (q : EventQueues) (consumer : String) : Option Event × EventQueues :=
  match q.queue consumer with
  | [] => (none, q)
  | e :: es => (some e, q.setQueue consumer es)

/-- Take out the head that a consumer reports as applied: it was handed out, and is of the
acknowledged pass or an earlier one. -/
def acknowledge (q : EventQueues) (consumer : String) (pass : Nat) : Option Event × EventQueues :=
  match q.queue consumer with
  | [] => (none, q)
  | e :: es =>
    if e.status = .processing ∧ e.pass ≤ pass then
      (some { e with status := .done }, q.setQueue consumer es)
    else (none, q)

/-- Drop every event of a consumer. -/
def clear (q : EventQueues) (consumer : String) : EventQueues := q.setQueue consumer []

def unfinishedCount (q : EventQueues) (group : String) : Nat := q.unfinished.getD group 0

/-- Count one more pass for every waiting group and forget the others. -/
def countUnfinished (q : EventQueues) (waiting : NameSet) : EventQueues :=
  { q with
    unfinished := Table.ofList (waiting.toList.map fun g => (g, q.unfinishedCount g + 1)) }

/-! ## Lemmas -/

theorem queue_setQueue {q : EventQueues} {c d : String} {es : List Event} :
    (q.setQueue c es).queue d = if c = d then es else q.queue d := by
  unfold setQueue queue Table.getD
  cases es with
  | nil => by_cases h : c = d <;> simp [Table.get?_erase, h]
  | cons e es => by_cases h : c = d <;> simp [Table.get?_insert, h]

theorem queue_push {q : EventQueues} {c d : String} {e : Event} :
    (q.push c e).queue d = if c = d then q.queue d ++ [e] else q.queue d := by
  rw [push, queue_setQueue]
  by_cases h : c = d <;> simp [h]

theorem queue_clear {q : EventQueues} {c d : String} :
    (q.clear c).queue d = if c = d then [] else q.queue d := by
  rw [clear, queue_setQueue]

end EventQueues

end ClusterMaster
