import ClusterMaster.Manifest
import ClusterMaster.Settings

/-!
# The lifecycle of a broker

A broker walks step by step towards its intent. Each call of `Lifecycle.advance` takes at most
one step, and a step that waits is left only after its wait has passed. The visibility of the
step it has reached decides what the broker's topics accept.

* `firstStep` : where the way to an intent begins;
* `Lifecycle.nextStep` : the step that is due, if any;
* `Lifecycle.report`, `Lifecycle.setIntent`, `Lifecycle.advance` : what changes a lifecycle.

Times are in milliseconds on one clock.
-/

namespace ClusterMaster

/-- The lifecycle and configuration state of one registered broker. -/
structure Lifecycle where
  broker : BrokerId
  intent : Intent
  phase : Phase
  visibility : Visibility
  /-- Revision and checksum of the configuration the broker should run with. -/
  revision : UInt64
  checksum : UInt64
  /-- Revision and checksum the broker last reported. -/
  reported : Option (UInt64 × UInt64) := none
  /-- The configuration changed since the broker last settled online. -/
  changed : Bool := false
  /-- The broker runs with the configuration it should run with. -/
  loaded : Bool := false
  /-- Waits are skipped while set. -/
  fastStart : Bool
  /-- The broker considers itself ready to serve. -/
  brokerOnline : Bool := true
  /-- The last recorded configuration has topics. -/
  hasTopics : Bool
  /-- When the current step was entered. -/
  since : Nat
  deriving DecidableEq, Repr

/-- The first step towards an intent, and its visibility, for a broker that comes from another
intent (or from none) with some visibility. -/
def firstStep (target : Intent) (previous : Option Intent) (current : Visibility) :
    Phase × Visibility :=
  match target with
  | .online => (if previous.any Intent.isPartial then .partWaitRegister else .waitRegister, current)
  | .onlineNotWrite => (.onlyRead, .subscribeOnly)
  | .onlineNotRead => (.onlyWrite, .publishOnly)
  | .offline => (.notWrite, { current with publish := false })
  | .apply => (.settled, .none)

namespace Lifecycle

/-- The lifecycle of a broker that registers now. -/
def begin (c : BrokerConfig) (fastStartEnabled : Bool) (now : Nat) : Lifecycle :=
  let step := firstStep c.intent none .none
  { broker := c.id
    intent := c.intent
    phase := step.1
    visibility := step.2
    revision := c.revision
    checksum := c.checksum
    fastStart := fastStartEnabled && c.topics.isEmpty
    hasTopics := !c.topics.isEmpty
    since := now }

/-- Record the configuration the broker reports to run with, next to the one it should run with. -/
def report (l : Lifecycle) (c : BrokerConfig) (revision checksum : UInt64) : Lifecycle :=
  { l with
    revision := c.revision
    checksum := c.checksum
    changed := l.changed || decide (c.revision ≠ l.revision ∨ c.checksum ≠ l.checksum)
    hasTopics := !c.topics.isEmpty
    reported := some (revision, checksum)
    loaded := decide (revision = c.revision ∧ checksum = c.checksum) }

/-- The broker must be sent its configuration again. -/
def needsPush (l : Lifecycle) : Bool := !l.loaded

def timeInStep (l : Lifecycle) (now : Nat) : Nat := now - l.since

/-- Begin the way to a new intent; the same intent changes nothing. -/
def setIntent (l : Lifecycle) (intent : Intent) (now : Nat) : Lifecycle :=
  if intent = l.intent then l
  else
    let step := firstStep intent (some l.intent) l.visibility
    { l with intent := intent, phase := step.1, visibility := step.2, since := now }

/-- A wait, which fast start skips. -/
def gate (l : Lifecycle) (wait : UInt64) : Nat := if l.fastStart then 0 else wait.toNat

/-- How long a readable broker waits before it turns writable: not at all when it runs with an
unchanged configuration. -/
def readToWrite (l : Lifecycle) (s : Settings) : Nat :=
  if l.changed || !l.loaded then l.gate s.readToWriteWait else 0

/-- The step that is due now, with its visibility. -/
def nextStep (l : Lifecycle) (now : Nat) (s : Settings) : Option (Phase × Visibility) :=
  let dwell := l.timeInStep now
  let step := l.gate s.stepWait
  let settle := l.gate s.settleWait
  let due (wait : Nat) (next : Phase × Visibility) := if wait ≤ dwell then some next else none
  match l.intent, l.phase with
  | .online, .waitRegister => due step (.waitOnline, l.visibility)
  | .online, .partWaitRegister => due step (.partWaitOnline, l.visibility)
  | .online, .waitOnline =>
    if l.brokerOnline then due step (.onlyRead, .subscribeOnly) else none
  | .online, .partWaitOnline =>
    if l.brokerOnline then due step (.partOnlyRead, { l.visibility with subscribe := true })
    else none
  | .online, .onlyRead | .online, .partOnlyRead =>
    if l.brokerOnline then due (l.readToWrite s) (.readAndWrite, .both)
    else some (.waitOnline, .none)
  | .online, .readAndWrite =>
    if l.brokerOnline then due step (.settled, .both) else some (.waitOnline, .none)
  | .onlineNotWrite, .onlyRead => due step (.waitRebalance, l.visibility)
  | .onlineNotRead, .onlyWrite => due step (.waitRebalance, l.visibility)
  | .offline, .notWrite => some (.notReadWrite, .none)
  | .offline, .notReadWrite => due step (.waitRebalance, l.visibility)
  | .onlineNotWrite, .waitRebalance | .onlineNotRead, .waitRebalance | .offline, .waitRebalance =>
    due settle (.settled, l.visibility)
  | _, _ => none

/-- Enter a step. Once settled, later sequences start fast only without topics, and a broker
settled online counts as unchanged. -/
def enter (l : Lifecycle) (step : Phase × Visibility) (now : Nat) (s : Settings) : Lifecycle :=
  { l with
    phase := step.1
    visibility := step.2
    since := now
    fastStart := if step.1 = .settled then s.fastStart && !l.hasTopics else l.fastStart
    changed := if step.1 = .settled ∧ l.intent = .online then false else l.changed }

/-- Take the step that is due now, if there is one. -/
def advance (l : Lifecycle) (now : Nat) (s : Settings) : Lifecycle :=
  match l.nextStep now s with
  | some step => l.enter step now s
  | none => l

end Lifecycle

end ClusterMaster
