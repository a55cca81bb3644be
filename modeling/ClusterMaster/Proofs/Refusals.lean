import ClusterMaster.Proofs.Accounts

/-!
# A refused request leaves no trace

A request is checked before it changes anything. Two heartbeats look something up once more after
they have been heard: that of a producer its registration, that of a broker its lifecycle. Both find
it, because nobody is tracked who is not registered, and so neither is refused that late. What is
left are the refusals by which a master gets rid of a broker (`Operation.releasesOn`). All others
leave it as it was, whatever rows are held:

    m.Grown → m.perform op is refused, and no broker is released → m.after op = m   (after_refused)
-/

namespace ClusterMaster

/-- An operation refused so has set about releasing a broker: the operator does not want it any
more, or it closes, and a row that is held has stopped its release midway. -/
def Operation.releasesOn : Operation → Fault → Bool
  | .brokerHeartbeat _, .brokerNotConfigured _ => true
  | .brokerHeartbeat _, .badRequest _ _ => true
  | .brokerClose _, .lockTimeout _ _ => true
  | _, _ => false

namespace Master

variable {α β : Type} {m : Master} {releases : Fault → Bool} {o : Outcome α}

/-- When the outcome is a refusal, and not one that releases a broker, the master is as before. -/
def Traceless (m : Master) (releases : Fault → Bool) (o : Outcome α) : Prop :=
  ∀ e, o.1 = .error e → releases e = false → o.2 = m

namespace Traceless

theorem ok (a : α) (m' : Master) : Traceless m releases (.ok a, m') :=
  fun _ he => nomatch he

theorem unchanged (answer : Except Fault α) : Traceless m releases (answer, m) :=
  fun _ _ _ => rfl

theorem released {e : Fault} (he : releases e = true) (m' : Master) :
    Traceless m releases ((.error e, m') : Outcome α) := by
  intro e' heq hno
  obtain rfl : e = e' := Except.error.inj heq
  rw [he] at hno
  cases hno

/-- What is refused by a check has not begun. -/
theorem allow {check : Except Fault Unit} (h : check = .ok () → Traceless m releases o) :
    Traceless m releases (m.allow check o) := by
  rcases allow_cases m check o with ⟨hcheck, he⟩ | ⟨e, -, he⟩
  · rw [he]
    exact h hcheck
  · rw [he]
    exact unchanged _

theorem map {f : α → β} (h : Traceless m releases o) : Traceless m releases (o.map f) := by
  intro e he
  obtain ⟨answer, m'⟩ := o
  cases answer with
  | ok a => cases he
  | error e' =>
    obtain rfl : e' = e := Except.error.inj he
    exact h e' rfl

end Traceless

/-! ## Late lookups -/

/-- A producer whose heartbeat passes its checks is registered. -/
theorem ProducersAttended.registered (h : ProducersAttended m) {r : ProducerHeartbeat}
    (hcheck : m.checkProducerHeartbeat r = .ok ()) : ∃ p, m.producers.get? r.producer = some p := by
  unfold checkProducerHeartbeat at hcheck
  obtain ⟨-, hcheck⟩ := bind_eq_ok_iff.mp hcheck
  obtain ⟨-, hcheck⟩ := bind_eq_ok_iff.mp hcheck
  obtain ⟨-, hknown⟩ := bind_eq_ok_iff.mp hcheck
  exact Table.contains_iff.mp ((h.attended r.producer).mp (checkKnown_ok_iff.mp hknown))

/-- A broker that is tracked has a lifecycle. -/
theorem Hosting.lifecycle_of_tracked (h : Hosting m) (hb : Attended .broker m) {id : BrokerId}
    (ht : m.liveness.isRegistered .broker (brokerKey id) = true) :
    ∃ l, m.runs.lifecycle? id = some l := by
  obtain ⟨j, hj, hkey⟩ := (hb (brokerKey id)).mp ht
  obtain rfl : j = id := brokerKey_inj.mp hkey
  exact (h.together j).mp (Table.contains_iff.mp hj)

/-! ## Calls -/

theorem traceless_producerHeartbeat (h : ProducersAttended m) (r : ProducerHeartbeat) :
    Traceless m releases (m.producerHeartbeat r) := by
  refine .allow fun hcheck => ?_
  obtain ⟨p, hp⟩ := h.registered hcheck
  have hp : (m.hear .producer r.producer).producers.get? r.producer = some p := hp
  simp only [hp]
  exact .ok _ _

theorem traceless_consumerClose (r : ConsumerClose) :
    Traceless m releases (m.consumerClose r) := by
  refine .allow fun _ => ?_
  rcases releaseConsumer_cases m r.consumer with ⟨c, he⟩ | ⟨e, he⟩
  · simp only [he]
    exact .ok _ _
  · simp only [he]
    exact .unchanged _

theorem traceless_brokerRegister (r : BrokerRegister) :
    Traceless m releases (m.brokerRegister r) := by
  unfold brokerRegister
  split
  · exact .unchanged _
  · exact .ok _ _

theorem traceless_brokerHeartbeat (h : Hosting m) (hb : Attended .broker m) (r : BrokerHeartbeat) :
    Traceless m (Operation.brokerHeartbeat r).releasesOn (m.brokerHeartbeat r) := by
  refine .allow fun hcheck => ?_
  obtain ⟨-, hknown⟩ := bind_eq_ok_iff.mp hcheck
  obtain ⟨l, hl⟩ := h.lifecycle_of_tracked hb (checkKnown_ok_iff.mp hknown)
  simp only []
  split
  · exact .released rfl _
  · split
    · exact .released rfl _
    · split
      · rename_i hnone
        rw [show m.runs.lifecycle? r.broker = none from hnone] at hl
        cases hl
      · exact .ok _ _

theorem withdrawTopics_error (m : Master) (id : BrokerId) (ts : List String) {e : Fault}
    (he : (m.withdrawTopics id ts).1 = .error e) : ∃ t, e = .lockTimeout m.topicRows.name t := by
  rcases withdrawTopics_cases m id ts with ⟨-, heq⟩ | ⟨_, t, _, -, -, -, heq⟩
  · rw [heq] at he
    cases he
  · rw [heq] at he
    exact ⟨t, (Except.error.inj he).symm⟩

theorem traceless_brokerClose (id : BrokerId) :
    Traceless m (Operation.brokerClose id).releasesOn (m.brokerClose id) := by
  refine .allow fun _ => ?_
  unfold releaseBroker
  split
  · rename_i e m' heq
    -- a release is stopped by nothing but a held row
    obtain ⟨t, rfl⟩ := m.withdrawTopics_error id _ (congrArg Prod.fst heq)
    exact .released rfl _
  · exact .ok _ _

theorem traceless_setBrokerIntent (id : BrokerId) (intent : Intent) :
    Traceless m releases (m.setBrokerIntent id intent) := by
  refine .allow fun _ => ?_
  split
  · exact .unchanged _
  · exact .ok _ _

theorem traceless_editStore (edit : Store.Edit) : Traceless m releases (m.editStore edit) := by
  unfold editStore
  split
  · exact .unchanged _
  · exact .ok _ _

/-! ## All operations -/

theorem traceless_perform (h : m.Grown) (op : Operation) :
    Traceless m op.releasesOn (m.perform op) := by
  cases op with
  | producerRegister r => exact .map (.allow fun _ => .ok _ _)
  | producerHeartbeat r => exact (traceless_producerHeartbeat h.reachable.producersAttended r).map
  | producerClose id => exact .map (.allow fun _ => .allow fun _ => .ok _ _)
  | consumerRegister r => exact .map (.allow fun _ => .ok _ _)
  | consumerHeartbeat r => exact .map (.allow fun _ => .ok _ _)
  | consumerClose r => exact (traceless_consumerClose r).map
  | brokerRegister r => exact (traceless_brokerRegister r).map
  | brokerHeartbeat r =>
    exact (traceless_brokerHeartbeat h.hosting h.reachable.brokersAttended r).map
  | brokerClose id => exact (traceless_brokerClose id).map
  | setIntent id intent => exact (traceless_setBrokerIntent id intent).map
  | edit e => exact (traceless_editStore e).map
  | _ => exact .ok _ _

/-- A refused operation that does not release a broker changes nothing at all. -/
theorem after_refused {op : Operation} {e : Fault} (h : m.Grown) (he : (m.perform op).1 = .error e)
    (hop : op.releasesOn e = false) : m.after op = m :=
  traceless_perform h op e he hop

end Master

/-! ## Turned away

A group has two members, and a third consumer wants to join with other topics, while a call that
has stopped midway holds a row.
-/

namespace TurnedAway

open Master SmallCluster

def history : List Operation :=
  [serving,
   .consumerRegister (joining "a" "g"),
   .consumerRegister (joining "b" "g"),
   .pass,
   .wait 1000,
   .hold .consumer "a"]

def third : ConsumerRegister := { joining "c" "g" with topics := KeySet.ofList ["u"] }

theorem after_history : ((fresh 2).run history).Grown ∧
    (((fresh 2).run history).perform (.consumerRegister third)).1 =
      .error (.badRequest "consumer register"
        "topics \x7b\"u\"\x7d of c differ from group g topics \x7b\"t\"\x7d") ∧
    ((fresh 2).run history).after (.consumerRegister third) = (fresh 2).run history :=
  have hgrown : ((fresh 2).run history).Grown := grown_run rfl rfl history
  have hrefused : (((fresh 2).run history).perform (.consumerRegister third)).1 =
      .error (.badRequest "consumer register"
        "topics \x7b\"u\"\x7d of c differ from group g topics \x7b\"t\"\x7d") := by cbv
  ⟨hgrown, hrefused, after_refused hgrown hrefused rfl⟩

end TurnedAway

end ClusterMaster
