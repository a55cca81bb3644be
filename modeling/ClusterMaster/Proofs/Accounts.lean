import ClusterMaster.Proofs.Attendance
import ClusterMaster.Proofs.SmallCluster

/-!
# Everything a master keeps belongs to a registered node

The release of a broker stops at the first topic whose row is held: what it has not withdrawn by
then stays on offer, and the broker stays registered and tracked, so that a later release can take
up the rest. A push that stops midway leaves entries of a broker that is registered all the same.
With what is known of producers and consumers, a master that has grown from edits, calls, scans and
passes, whatever rows were held meanwhile, is `Accounted`: it tracks exactly the registered nodes of
each class, and offers, lifecycles, holdings and queued events all belong to one.

    m.Grown → m.Accounted                                                        (accounted_of_grown)
-/

namespace ClusterMaster

namespace Master

open Liveness (mem_keysOf)

variable {m m' : Master} {op : Operation} {id : BrokerId} {key : String}

/-! ## Brokers -/

theorem writeAll_frame (m : Master) (id : BrokerId) (ws : List OfferWrite) :
    ∃ hosted, (m.writeAll id ws).2 = { m with topology := { m.topology with hosted } } := by
  induction ws generalizing m with
  | nil => exact ⟨m.topology.hosted, rfl⟩
  | cons w ws ih =>
    unfold writeAll
    split
    · exact ⟨m.topology.hosted, rfl⟩
    · obtain ⟨hosted, he⟩ := ih (m.write id w)
      refine ⟨hosted, ?_⟩
      rw [he]
      cases w <;> rfl

/-- A push changes offers, and what is recorded of them. -/
theorem pushOffer_frame (m : Master) (id : BrokerId) : ∃ hosted offers, (m.pushOffer id).2 =
    { m with topology := { m.topology with hosted }, runs := { m.runs with offers } } := by
  unfold pushOffer
  split
  · rename_i p _
    obtain ⟨hosted, hw⟩ := writeAll_frame m p.broker p.writes
    unfold carryOut
    split
    · rename_i heq
      rw [heq] at hw
      exact ⟨hosted, m.runs.offers, hw⟩
    · rename_i m₁ heq
      rw [heq] at hw
      obtain rfl : m₁ = _ := hw
      exact ⟨hosted, (m.runs.setOffer p.broker p.target).offers, rfl⟩
  · exact ⟨m.topology.hosted, m.runs.offers, rfl⟩

theorem Attended.pushOffer (h : Attended .broker m) (id : BrokerId) :
    Attended .broker (m.pushOffer id).2 := by
  obtain ⟨hosted, offers, he⟩ := pushOffer_frame m id
  rw [he]
  exact h

/-- A release that goes through takes the broker and its key away, one that stops neither. -/
theorem departs_releaseBroker (m : Master) (id : BrokerId) :
    ((m.releaseBroker id).1 = .ok () →
      Departs .broker (· = brokerKey id) m (m.releaseBroker id).2) ∧
    ((m.releaseBroker id).1 ≠ .ok () →
      Departs .broker (fun _ => False) m (m.releaseBroker id).2) := by
  obtain ⟨hosted, offers, hframe⟩ := (withdrawn_withdrawTopics m id (m.topicsToWithdraw id).toList).frame
  unfold releaseBroker
  split
  · rename_i e m₁ heq
    rw [heq] at hframe
    obtain rfl : m₁ = _ := hframe
    refine ⟨fun hok => (nomatch hok), fun _ => ⟨fun k => ?_, fun k => ?_⟩⟩
    · exact (and_iff_right fun hf => hf).symm
    · exact (and_iff_right fun hf => hf).symm
  · rename_i u m₁ heq
    rw [heq] at hframe
    obtain rfl : m₁ = _ := hframe
    refine ⟨fun _ => ⟨fun k => ?_, fun k => ?_⟩, fun hno => absurd rfl hno⟩
    · have hforget : (m.forget .broker (brokerKey id)).liveness.isRegistered .broker k = true ↔
          k ≠ brokerKey id ∧ m.liveness.isRegistered .broker k = true := by
        rw [isRegistered_forget_iff, ne_comm]
      exact hforget
    · show (∃ j, (m.brokers.registered.erase id).contains j = true ∧ brokerKey j = k) ↔
        k ≠ brokerKey id ∧ ∃ j, m.brokers.registered.contains j = true ∧ brokerKey j = k
      constructor
      · rintro ⟨j, hj, rfl⟩
        obtain ⟨hne, hj⟩ := Table.contains_erase_iff.mp hj
        exact ⟨fun heq => hne (brokerKey_inj.mp heq).symm, j, hj, rfl⟩
      · rintro ⟨hne, j, hj, rfl⟩
        exact ⟨j, Table.contains_erase_iff.mpr ⟨fun heq => hne (heq ▸ rfl), hj⟩, rfl⟩

namespace Attended

theorem releaseBroker (h : Attended .broker m) (id : BrokerId) :
    Attended .broker (m.releaseBroker id).2 := by
  obtain ⟨hgone, hkept⟩ := departs_releaseBroker m id
  by_cases hok : (m.releaseBroker id).1 = .ok ()
  · exact (hgone hok).attended h
  · exact (hkept hok).attended h

theorem brokerRegister (h : Attended .broker m) (r : BrokerRegister) :
    Attended .broker (m.brokerRegister r).2 := by
  unfold Master.brokerRegister
  split
  · exact h
  · rename_i c _
    have hjoins : Joins .broker (brokerKey r.broker) m (m.enrolBroker r c) := by
      refine ⟨fun k => isRegistered_hear_iff (m := m), fun k => ?_⟩
      show (∃ j, (m.brokers.registered.insert r.broker _).contains j = true ∧ brokerKey j = k) ↔
        brokerKey r.broker = k ∨ ∃ j, m.brokers.registered.contains j = true ∧ brokerKey j = k
      constructor
      · rintro ⟨j, hj, rfl⟩
        rcases Table.contains_insert_iff.mp hj with rfl | hj
        · exact .inl rfl
        · exact .inr ⟨j, hj, rfl⟩
      · rintro (rfl | ⟨j, hj, rfl⟩)
        · exact ⟨r.broker, Table.contains_insert_iff.mpr (.inl rfl), rfl⟩
        · exact ⟨j, Table.contains_insert_iff.mpr (.inr hj), rfl⟩
    exact (hjoins.attended h).pushOffer r.broker

theorem brokerHeartbeat (h : Attended .broker m) (r : BrokerHeartbeat) :
    Attended .broker (m.brokerHeartbeat r).2 := by
  rcases allow_cases m (do
    m.checkPrimary
    m.liveness.checkKnown .broker (brokerKey r.broker)) _ with ⟨hcheck, he⟩ | ⟨e, -, he⟩
  · rw [Master.brokerHeartbeat, he]
    obtain ⟨-, hknown⟩ := bind_eq_ok_iff.mp hcheck
    have hheard := h.hear (checkKnown_ok_iff.mp hknown)
    have hreport : ∀ report runs, Attended .broker { m.hear .broker (brokerKey r.broker) with
        brokers := m.brokers.report r.broker report
        runs := runs } := by
      intro report runs k
      refine (hheard k).trans ?_
      show (∃ j, m.brokers.contains j = true ∧ brokerKey j = k) ↔
        ∃ j, (m.brokers.report r.broker report).contains j = true ∧ brokerKey j = k
      have hsame : (m.brokers.report r.broker report).registered = m.brokers.registered := by
        unfold Brokers.report
        split <;> rfl
      unfold Brokers.contains
      rw [hsame]
    simp only []
    split
    · exact hheard.releaseBroker r.broker
    · split
      · exact hheard.releaseBroker r.broker
      · split
        · exact hreport _ _
        · exact Attended.pushOffer (hreport _ _) r.broker
  · rw [Master.brokerHeartbeat, he]
    exact h

theorem letGo_broker (h : Attended .broker m) (ht : m.liveness.isRegistered .broker key = true) :
    Attended .broker (m.letGo .broker key) := by
  obtain ⟨id, -, rfl⟩ := (h key).mp ht
  have hnode : (m.forget .broker (brokerKey id)).releaseNode .broker (brokerKey id) =
      (m.forget .broker (brokerKey id)).releaseBroker id := by
    unfold releaseNode
    simp only [parseBrokerId_brokerKey]
  obtain ⟨hgone, hkept⟩ := departs_releaseBroker (m.forget .broker (brokerKey id)) id
  exact h.letGo ht (hnode ▸ hgone) (hnode ▸ hkept)

/-- Every operation keeps track of the brokers. -/
theorem after_broker (h : Attended .broker m) (op : Operation) : Attended .broker (m.after op) := by
  by_cases hop : op.class? = some .broker
  · cases op with
    | brokerRegister r => exact h.brokerRegister r
    | brokerHeartbeat r => exact h.brokerHeartbeat r
    | brokerClose id => exact allow_snd h (h.releaseBroker id)
    | expire c =>
      cases hop
      exact letGoAll_induction (fun m key ht hm => hm.letGo_broker ht) m _ h
    | _ => cases hop
  · exact (sameIn_after hop m).attended h

end Attended

/-! ## Offers -/

/-- Whoever is found in the topology is a registered broker. -/
def OfferedByRegistered (m : Master) : Prop :=
  ∀ topic id t, m.topology.hosted? topic id = some t → ∃ b, m.brokers.broker? id = some b

namespace OfferedByRegistered

theorem create {settings : Settings} {store : Store} (h : Master.create settings store = .ok m) :
    OfferedByRegistered m := by
  obtain rfl := eq_of_create h
  intro topic id t ht
  cases ht

/-- Brokers of which the same is known keep it, so only one has to be looked at. -/
theorem of_alike (h : OfferedByRegistered m) (id : BrokerId) (hothers : ∀ j, id ≠ j → Alike j m m')
    (hown : ∀ topic t, m'.topology.hosted? topic id = some t → ∃ b, m'.brokers.broker? id = some b) :
    OfferedByRegistered m' := by
  intro topic j t ht
  by_cases hj : id = j
  · subst hj
    exact hown topic t ht
  · rw [(hothers j hj).broker?]
    exact h topic j t ((hothers j hj).hosted? topic ▸ ht)

theorem releaseBroker (h : OfferedByRegistered m) (id : BrokerId) :
    OfferedByRegistered (m.releaseBroker id).2 := by
  have hr := released_releaseBroker m id
  refine h.of_alike id hr.others fun topic t ht => ?_
  by_cases hok : (m.releaseBroker id).1 = .ok ()
  · rw [((hr.gone hok).2.2 topic).1] at ht
    cases ht
  · rw [(hr.failed hok).1]
    exact h topic id t (hr.hosted? ht)

/-- Every operation keeps it. -/
theorem after (h : OfferedByRegistered m) (hm : Hosting m) (op : Operation) :
    OfferedByRegistered (m.after op) := by
  rcases hm.quiet_or_heard op with hquiet | ⟨id, report, b, c, l, m₁, -, -, hh, he, -⟩
  · refine hm.quiet_induction (p := OfferedByRegistered) hquiet (fun m m' hs hp => ?_)
      (fun m e store _ hp => hp) (fun m topic _ hp => hp) (fun m topic hp => hp)
      (fun m id hp => hp.releaseBroker id) h
    intro topic id t ht
    rw [(hs.alike id).broker?]
    exact hp topic id t ((hs.alike id).hosted? topic ▸ ht)
  · rw [he]
    have hp := hm.pushed hh
    refine h.of_alike id (fun j hj => (hh.others j hj).trans (hp.others j hj)) fun topic t _ => ?_
    exact ⟨b, by rw [hp.brokers, hh.broker?]⟩

theorem run (h : OfferedByRegistered m) (hm : Hosting m) (ops : List Operation) :
    OfferedByRegistered (m.run ops) := by
  induction ops generalizing m with
  | nil => exact h
  | cons op ops ih => exact ih (h.after hm op) (hm.after op)

end OfferedByRegistered

/-! ## Together -/

/-- Exactly the registered nodes are tracked, and whatever is kept belongs to one of them. -/
structure Accounted (m : Master) : Prop where
  consumers : ∀ key, key ∈ m.liveness.keysOf .consumer ↔
    ∃ c, m.groups.consumer? c.id = some c ∧ key = livenessKey c.id c.group
  producers : ∀ key, key ∈ m.liveness.keysOf .producer ↔
    ∃ p, m.producers.get? p.id = some p ∧ key = p.id
  brokers : ∀ key, key ∈ m.liveness.keysOf .broker ↔
    ∃ b, m.brokers.broker? b.id = some b ∧ key = brokerKey b.id
  lifecycles : ∀ id, (∃ b, m.brokers.broker? id = some b) ↔ ∃ l, m.runs.lifecycle? id = some l
  held : ∀ id held, m.holdings.get? id = some held → ∃ c, m.groups.consumer? id = some c
  queued : ∀ id, m.events.queue id ≠ [] → ∃ c, m.groups.consumer? id = some c
  offered : ∀ topic id t, m.topology.hosted? topic id = some t →
    t.topic = topic ∧ t.broker = id ∧ ∃ b, m.brokers.broker? id = some b

theorem Reachable.consumersAttended (h : m.Reachable) : ConsumersAttended m :=
  (h.induction (p := fun m => Registry m ∧ ConsumersAttended m)
    (fun _ _ _ hm => ⟨.create hm, .create hm⟩)
    fun _ op hm => ⟨hm.1.after op, hm.2.after hm.1 op⟩).2

theorem Reachable.producersAttended (h : m.Reachable) : ProducersAttended m :=
  h.induction (fun _ _ _ hm => .create hm) fun _ op hm => hm.after op

theorem Reachable.brokersAttended (h : m.Reachable) : Attended .broker m :=
  h.induction (fun _ _ _ hm => .create _ hm) fun _ op hm => hm.after_broker op

theorem Grown.offeredByRegistered (h : m.Grown) : OfferedByRegistered m := by
  obtain ⟨settings, store, fresh, ops, hs, hf, rfl⟩ := h
  exact (OfferedByRegistered.create hf).run (.create hs.sound hf) ops

/-- Whatever happens to a master, and whatever rows are held meanwhile, nothing is orphaned. -/
theorem accounted_of_grown (h : m.Grown) : m.Accounted := by
  have hregistry := h.registry
  have hoffers := h.offers
  have hconsumers := h.reachable.consumersAttended
  have hproducers := h.reachable.producersAttended
  refine ⟨fun key => ?_, fun key => ?_, fun key => ?_, h.hosting.together, fun id held hheld => ?_,
    hregistry.owned, fun topic id t ht => ?_⟩
  · rw [mem_keysOf, hconsumers.attended]
    constructor
    · rintro ⟨id, c, hc, rfl⟩
      exact ⟨c, by rw [hregistry.coherent.id_eq hc, hc], rfl⟩
    · rintro ⟨c, hc, rfl⟩
      exact ⟨c.id, c, hc, rfl⟩
  · rw [mem_keysOf, hproducers.attended]
    constructor
    · intro hkey
      obtain ⟨p, hp⟩ := Table.contains_iff.mp hkey
      have hid : p.id = key := hproducers.filed key p hp
      exact ⟨p, by rw [hid, hp], hid.symm⟩
    · rintro ⟨p, hp, rfl⟩
      exact Table.contains_iff.mpr ⟨p, hp⟩
  · rw [mem_keysOf, h.reachable.brokersAttended]
    constructor
    · rintro ⟨id, hid, rfl⟩
      obtain ⟨b, hb⟩ := Table.contains_iff.mp hid
      have hbid : b.id = id := hoffers.registered id b hb
      exact ⟨b, by rw [hbid]; exact hb, by rw [hbid]⟩
    · rintro ⟨b, hb, rfl⟩
      exact ⟨b.id, Table.contains_iff.mpr ⟨b, hb⟩, rfl⟩
  · exact hconsumers.held id (Table.contains_iff.mpr ⟨held, hheld⟩)
  · have hplace := (hoffers.hosted (topic, id) t ht).1
    exact ⟨congrArg Prod.fst hplace, congrArg Prod.snd hplace, h.offeredByRegistered topic id t ht⟩

end Master

/-! ## Silent nodes that cannot leave

A broker serves a topic, a producer and a consumer use it, and a pass has queued an event. Then all
of them fall silent while the rows of the consumer and of the topic are held.
-/

namespace Detained

open Master SmallCluster

def history : List Operation :=
  [serving,
   .producerRegister { producer := "p", host := "h", topics := KeySet.ofList ["t"] },
   .consumerRegister (joining "a" "g"),
   .pass,
   .hold .consumer "a",
   .hold .topic "t",
   .wait 1000000,
   .expire .producer,
   .expire .consumer,
   .expire .broker]

/-- The producer has been let go, the others are tracked again with all that they had. -/
theorem accounted_history : ((fresh 1).run history).Grown ∧
    NodeClass.all.map ((fresh 1).run history).liveness.keysOf = [[], ["a@g"], ["1"]] ∧
    ((fresh 1).run history).Accounted :=
  have hgrown : ((fresh 1).run history).Grown := grown_run rfl rfl history
  ⟨hgrown, by cbv, accounted_of_grown hgrown⟩

end Detained

end ClusterMaster
