import ClusterMaster.Proofs.Answers
import ClusterMaster.Proofs.Hosting

/-!
# What the topology shows of brokers

As long as nobody keeps the row of a topic from a push, the topology shows of every registered
broker exactly what it should: the topics of the configuration that the broker was last heard with,
each with its configured counts, and with flags that configuration, lifecycle and the broker's own
report all agree to. Who was last heard with which configuration, and said what of itself, is read
off the history (`standingsAfter`).

    m.topology.hosted? topic id = some h ↔ m.Due n id topic h                    (ShowsExactly.hosted)
    a producer is told of the offers that accept publishing                   (ShowsExactly.answered)
    consumers are given the partitions that accept subscribing, in order   (ShowsExactly.subscribable)

The invariant is `Exact`: topology and records agree on every topic, and the record of a broker is
the offer that its standing calls for. Every operation that holds no topic's row keeps it
(`Exact.after`).
-/

namespace ClusterMaster

/-- What a broker was last heard with: its configuration then, and its own report. -/
structure Standing where
  config : BrokerConfig
  report : Report

/-- How a topic of its configuration is to be shown of a broker at some visibility. -/
def Standing.shown (s : Standing) (id : BrokerId) (v : Visibility) (t : TopicConfig) : HostedTopic :=
  { broker := id
    topic := t.topic
    partitionCount := t.partitionCount
    storeCount := t.storeCount
    acceptPublish := t.acceptPublish && v.publish && s.report.writable
    acceptSubscribe := t.acceptSubscribe && v.subscribe && s.report.readable }

theorem Standing.hosted_eq_shown {s : Standing} {id : BrokerId} (hid : s.config.id = id)
    (v : Visibility) (t : TopicConfig) :
    t.hosted s.config.id (s.report.mask v) = s.shown id v t := by
  subst hid
  unfold TopicConfig.hosted Standing.shown Report.mask
  simp only [Bool.and_assoc]

namespace Master

variable {m m' m₁ : Master} {op : Operation} {id : BrokerId} {topic : String} {report : Report}

/-! ## Standings -/

abbrev Standings := BrokerId → Option Standing

/-- The standings once an operation has been carried out: a registration or a heartbeat that is
accepted gives its broker a new one. -/
def standing (m : Master) (op : Operation) (n : Standings) : Standings := fun id =>
  match op.hears? with
  | some (broker, report) =>
    if broker = id ∧ (m.perform op).1.isOk = true then
      (m.store.config? id).map fun config => { config, report }
    else n id
  | none => n id

/-- The standings after operations, one after the other. -/
def standingsAfter (m : Master) (n : Standings) : List Operation → Standings
  | [] => n
  | op :: ops => (m.after op).standingsAfter (m.standing op n) ops

/-- What is to be shown of a topic of a registered broker. -/
def Due (m : Master) (n : Standings) (id : BrokerId) (topic : String) (h : HostedTopic) : Prop :=
  ∃ l s t, m.brokers.contains id = true ∧ m.runs.lifecycle? id = some l ∧ n id = some s ∧
    t ∈ s.config.topics ∧ t.topic = topic ∧ h = s.shown id l.visibility t

variable {n : Standings}

theorem standing_of_quiet (hop : m.Quiet op) :
    m.standing op n = n := by
  funext id
  unfold standing
  rcases hop with hop | hop
  · rw [hop]
  · split
    · rw [if_neg fun h => by rw [hop] at h; cases h.2]
    · rfl

theorem standing_of_heard {c : BrokerConfig} (hop : op.hears? = some (id, report))
    (hok : (m.perform op).1.isOk = true) (hc : m.store.config? id = some c) (j : BrokerId) :
    m.standing op n j = if id = j then some { config := c, report := report } else n j := by
  unfold standing
  rw [hop]
  simp only []
  by_cases hj : id = j
  · subst hj
    rw [if_pos ⟨rfl, hok⟩, if_pos rfl, hc, Option.map_some]
  · rw [if_neg fun h => hj h.1, if_neg hj]

/-! ## The invariant -/

structure Exact (m : Master) (n : Standings) : Prop where
  free : ∀ topic, m.topicRows.isLocked topic = false
  recorded : ∀ id topic, m.topology.hosted? topic id = (m.runs.offer id).get? topic
  gone : ∀ id, m.runs.lifecycle? id = none → ∀ topic, (m.runs.offer id).get? topic = none
  stands : ∀ id l, m.runs.lifecycle? id = some l → ∃ s, n id = some s ∧ s.config.id = id ∧
    s.config.Distinct ∧ m.runs.offer id = s.config.offer (s.report.mask l.visibility)

namespace Exact

theorem create {settings : Settings} {store : Store} (h : Master.create settings store = .ok m) :
    Exact m fun _ => none := by
  obtain rfl := eq_of_create h
  refine ⟨fun _ => rfl, fun _ _ => rfl, fun _ _ _ => rfl, fun id l hl => ?_⟩
  cases hl

/-- What holds of all brokers but one, and of that one, too, holds of all of them. -/
theorem of_alike {n' : Standings} (h : Exact m n) (id : BrokerId) (hrows : m'.topicRows = m.topicRows)
    (hothers : ∀ j, id ≠ j → Alike j m m') (hn : ∀ j, id ≠ j → n' j = n j)
    (hrecorded : ∀ topic, m'.topology.hosted? topic id = (m'.runs.offer id).get? topic)
    (hgone : m'.runs.lifecycle? id = none → ∀ topic, (m'.runs.offer id).get? topic = none)
    (hstands : ∀ l, m'.runs.lifecycle? id = some l → ∃ s, n' id = some s ∧ s.config.id = id ∧
      s.config.Distinct ∧ m'.runs.offer id = s.config.offer (s.report.mask l.visibility)) :
    Exact m' n' where
  free := hrows ▸ h.free
  recorded j topic := by
    by_cases hj : id = j
    · exact hj ▸ hrecorded topic
    · rw [(hothers j hj).hosted?, (hothers j hj).offer]
      exact h.recorded j topic
  gone j hl topic := by
    by_cases hj : id = j
    · subst hj
      exact hgone hl topic
    · rw [(hothers j hj).lifecycle?] at hl
      rw [(hothers j hj).offer]
      exact h.gone j hl topic
  stands j l hl := by
    by_cases hj : id = j
    · subst hj
      exact hstands l hl
    · rw [(hothers j hj).lifecycle?] at hl
      rw [(hothers j hj).offer, hn j hj]
      exact h.stands j l hl

theorem same (h : Exact m n) (hs : SameBrokers m m') : Exact m' n where
  free := hs.topicRows ▸ h.free
  recorded id topic := by
    rw [(hs.alike id).hosted?, (hs.alike id).offer]
    exact h.recorded id topic
  gone id hl topic := by
    rw [(hs.alike id).lifecycle?] at hl
    rw [(hs.alike id).offer]
    exact h.gone id hl topic
  stands id l hl := by
    rw [(hs.alike id).lifecycle?] at hl
    rw [(hs.alike id).offer]
    exact h.stands id l hl

theorem releaseBroker (h : Exact m n) (id : BrokerId) : Exact (m.releaseBroker id).2 n := by
  have hr := released_releaseBroker m id
  obtain ⟨-, hlifecycle, hgone⟩ := hr.gone (hr.free h.free)
  refine h.of_alike id hr.topicRows hr.others (fun _ _ => rfl)
    (fun topic => (hgone topic).1.trans (hgone topic).2.symm) (fun _ topic => (hgone topic).2)
    fun l hl => ?_
  rw [hlifecycle] at hl
  cases hl

/-- A push that goes through brings topology and record in line with what is due. -/
theorem pushOffer (h : Exact m n) (hh : Hosting m) {b : Broker} {c : BrokerConfig} {l : Lifecycle}
    (hheard : HeardOf m id b c l report m₁) {n' : Standings}
    (hn : ∀ j, n' j = if id = j then some { config := c, report := report } else n j) :
    Exact (m₁.pushOffer id).2 n' := by
  have hp := hh.pushed hheard
  have hok : (m₁.pushOffer id).1 = .ok () := hp.free (by rw [hheard.topicRows]; exact h.free)
  have hl : (m₁.pushOffer id).2.runs.lifecycle? id = some l := by
    rw [← hheard.lifecycle?]
    unfold BrokerRuns.lifecycle?
    rw [hp.lifecycles]
  have hshown : ∀ topic, (m₁.pushOffer id).2.topology.hosted? topic id =
      (c.offer (report.mask l.visibility)).get? topic := by
    intro topic
    by_cases hdiff : (m₁.runs.offer id).get? topic = (c.offer (report.mask l.visibility)).get? topic
    · -- what is recorded as due has been there before the push
      rcases hp.either topic with hsame | ⟨-, hdue⟩
      · rw [hsame, hheard.hosted?, h.recorded, ← hheard.offer, hdiff]
      · exact hdue
    · exact hp.written hok topic hdiff
  obtain ⟨hid, hdistinct, -⟩ := hh.sound id c hheard.config
  refine h.of_alike id (hp.topicRows.trans hheard.topicRows)
    (fun j hj => (hheard.others j hj).trans (hp.others j hj)) (fun j hj => ?_)
    (fun topic => ?_) (fun hnone => ?_) fun l' hl' => ?_
  · rw [hn, if_neg hj]
  · rw [hp.recorded hok]
    exact hshown topic
  · rw [hl] at hnone
    cases hnone
  · rw [hl] at hl'
    obtain rfl := Option.some.inj hl'
    exact ⟨{ config := c, report := report }, by rw [hn, if_pos rfl], hid, hdistinct,
      hp.recorded hok⟩

/-- Every operation that holds no topic's row keeps the invariant. -/
theorem after (h : Exact m n) (hh : Hosting m) (hop : ∀ topic, op ≠ .hold .topic topic) :
    Exact (m.after op) (m.standing op n) := by
  rcases hh.quiet_or_heard op with hquiet | ⟨id, report, b, c, l, m₁, hheard, hok, hof, he, -⟩
  · rw [standing_of_quiet hquiet]
    refine hh.quiet_induction (p := (Exact · n)) hquiet (fun m m' hs hm => hm.same hs)
      (fun m e store _ hm => ⟨hm.free, hm.recorded, hm.gone, hm.stands⟩)
      (fun m topic he _ => absurd he (hop topic)) (fun m topic hm => ?_)
      (fun m id hm => hm.releaseBroker id) h
    refine ⟨fun t => ?_, hm.recorded, hm.gone, hm.stands⟩
    have ht := hm.free t
    unfold RowLock.isLocked at ht ⊢
    rw [decide_eq_false_iff_not] at ht ⊢
    exact fun hmem => ht (KeySet.mem_erase.mp hmem).1
  · rw [he]
    exact h.pushOffer hh hof (standing_of_heard hheard hok hof.config)

theorem run (h : Exact m n) (hh : Hosting m) {ops : List Operation}
    (hops : ∀ topic, .hold .topic topic ∉ ops) : Exact (m.run ops) (m.standingsAfter n ops) := by
  induction ops generalizing m n with
  | nil => exact h
  | cons op ops ih =>
    refine ih (h.after hh fun topic he => hops topic ?_) (hh.after op)
      fun topic hmem => hops topic (List.mem_cons_of_mem _ hmem)
    exact he ▸ List.mem_cons_self

/-- The topology shows what is due, and nothing else. -/
theorem hosted_iff (h : Exact m n) (hh : Hosting m) {hosted : HostedTopic} :
    m.topology.hosted? topic id = some hosted ↔ m.Due n id topic hosted := by
  rw [h.recorded]
  constructor
  · intro hget
    cases hl : m.runs.lifecycle? id with
    | none =>
      rw [h.gone id hl] at hget
      cases hget
    | some l =>
      obtain ⟨s, hs, hid, hdistinct, hoffer⟩ := h.stands id l hl
      rw [hoffer, BrokerConfig.get?_offer_iff hdistinct] at hget
      obtain ⟨t, ht, htopic, rfl⟩ := hget
      refine ⟨l, s, t, ?_, hl, hs, ht, htopic, Standing.hosted_eq_shown hid _ t⟩
      exact Table.contains_iff.mpr ((hh.together id).mpr ⟨l, hl⟩)
  · rintro ⟨l, s, t, -, hl, hs, ht, htopic, rfl⟩
    obtain ⟨s', hs', hid, hdistinct, hoffer⟩ := h.stands id l hl
    obtain rfl := Option.some.inj (hs.symm.trans hs')
    rw [hoffer, BrokerConfig.get?_offer_iff hdistinct]
    exact ⟨t, ht, htopic, (Standing.hosted_eq_shown hid _ t).symm⟩

end Exact

/-! ## What is shown -/

/-- Topology, answers to producers and the partitions for consumers show what is due. -/
structure ShowsExactly (m : Master) (n : Standings) : Prop where
  stands : ∀ id, m.brokers.contains id = true → ∃ l s, m.runs.lifecycle? id = some l ∧ n id = some s
  hosted : ∀ id topic h, m.topology.hosted? topic id = some h ↔ m.Due n id topic h
  answered : ∀ op topics version a, op.publishes? = some (topics, version) →
    (m.perform op).1 = .ok (.producer a) → ∀ topic,
      if topic ∈ topics then ∃ offers, a.topics.get? topic = some offers ∧ offers.Nodup ∧
        ∀ h, h ∈ offers ↔ h.acceptPublish = true ∧ ∃ id, m.Due n id topic h
      else a.topics.get? topic = none
  subscribable : ∀ topic, (m.subscribable topic).Pairwise (fun p q => p.before q = true) ∧
    ∀ p, p ∈ m.subscribable topic ↔ ∃ id b h, m.brokers.broker? id = some b ∧
      m.Due n id topic h ∧ h.acceptSubscribe = true ∧ p ∈ h.partitions b

theorem Due.broker {h : HostedTopic} (hd : m.Due n id topic h) :
    h.broker = id ∧ m.brokers.contains id = true := by
  obtain ⟨l, s, t, hreg, -, -, -, -, rfl⟩ := hd
  exact ⟨rfl, hreg⟩

theorem Exact.showsExactly (h : Exact m n) (hh : Hosting m) (ho : Offers m) : m.ShowsExactly n where
  stands id hreg := by
    obtain ⟨l, hl⟩ := (hh.together id).mp (Table.contains_iff.mp hreg)
    obtain ⟨s, hs, -⟩ := h.stands id l hl
    exact ⟨l, s, hl, hs⟩
  hosted id topic hosted := h.hosted_iff hh
  answered op topics version a hop ha topic := by
    have hs := sameBrokers_of_publishes hop m
    have hpublishable : (m.after op).publishable topic = m.publishable topic := by
      unfold publishable Topology.offersOf
      rw [hs.hosted, hs.brokers]
    rw [answer_of_publishes hop ha, get?_producerAnswer, hpublishable]
    split
    · refine ⟨_, rfl, ho.nodup_publishable topic, fun hosted => ?_⟩
      rw [mem_publishable]
      constructor
      · rintro ⟨⟨id, hget⟩, hpublish, -⟩
        exact ⟨hpublish, id, (h.hosted_iff hh).mp hget⟩
      · rintro ⟨hpublish, id, hd⟩
        refine ⟨⟨id, (h.hosted_iff hh).mpr hd⟩, hpublish, ?_⟩
        rw [hd.broker.1]
        exact hd.broker.2
    · rfl
  subscribable topic := by
    refine ⟨ho.pairwise_before_subscribable topic, fun p => ?_⟩
    rw [mem_subscribable]
    constructor
    · rintro ⟨hosted, hmem, hsubscribe, b, hb, hp⟩
      obtain ⟨id, hget⟩ := mem_offersOf.mp hmem
      have hd := (h.hosted_iff hh).mp hget
      exact ⟨id, b, hosted, hd.broker.1 ▸ hb, hd, hsubscribe, hp⟩
    · rintro ⟨id, b, hosted, hb, hd, hsubscribe, hp⟩
      refine ⟨hosted, mem_offersOf.mpr ⟨id, (h.hosted_iff hh).mpr hd⟩, hsubscribe, b, ?_, hp⟩
      rw [hd.broker.1]
      exact hb

/-- After any history in which nobody keeps the row of a topic, every registered broker is shown
exactly with the topics of the configuration that it was last heard with. -/
theorem shows_exactly {settings : Settings} {store : Store} {fresh : Master}
    (hstore : store.Edited) (hfresh : Master.create settings store = .ok fresh)
    {ops : List Operation} (hops : ∀ topic, .hold .topic topic ∉ ops) :
    (fresh.run ops).ShowsExactly (fresh.standingsAfter (fun _ => none) ops) := by
  have hgrown : (fresh.run ops).Grown := ⟨settings, store, fresh, ops, hstore, hfresh, rfl⟩
  have hexact := (Exact.create hfresh).run (Hosting.create hstore.sound hfresh) hops
  exact hexact.showsExactly hgrown.hosting hgrown.offers

end Master

/-! ## A broker whose topics change -/

namespace Serving

def config (topics : List String) : BrokerConfig :=
  { id := 1
    host := "h"
    port := 1
    intent := .onlineNotRead
    topics := topics.map fun topic => { topic := topic, partitionCount := 1 } }

def store : Store := { brokers := Table.empty.insert 1 (config ["t", "u"]), version := 1 }

def fresh : Master := { settings := {}, store := store }

def registering : Operation := .brokerRegister { broker := 1, host := "h", port := 1 }

def beating (writable : Bool) : Operation := .brokerHeartbeat { broker := 1, writable := writable }

/-- One of the two topics grows, the other one goes, and the broker is heard of again. -/
def history : List Operation :=
  [registering, .edit (.setTopics 1 [{ topic := "t", partitionCount := 3 }]), beating true]

/-- A topic as the broker is shown with it. -/
def shown (topic : String) (partitionCount : UInt32) (writable : Bool) : HostedTopic :=
  { broker := 1
    topic := topic
    partitionCount := partitionCount
    storeCount := 1
    acceptPublish := writable
    acceptSubscribe := false }

theorem store_edited : store.Edited := .edit .empty (e := .upsert (config ["t", "u"])) rfl

theorem create_fresh : Master.create {} store = .ok fresh := rfl

theorem follows_config : store.Edited ∧ Master.create {} store = .ok fresh ∧
    (∀ topic, .hold .topic topic ∉ history) ∧
    (fresh.run history).ShowsExactly (fresh.standingsAfter (fun _ => none) history) ∧
    (fresh.run history).topology.hosted? "t" 1 = some (shown "t" 3 true) ∧
    (fresh.run history).topology.hosted? "u" 1 = none := by
  have hheld : ∀ topic, .hold .topic topic ∉ history := by
    intro topic hmem
    simp [history, registering, beating] at hmem
  exact ⟨store_edited, create_fresh, hheld,
    Master.shows_exactly store_edited create_fresh hheld, rfl, rfl⟩

end Serving

end ClusterMaster
