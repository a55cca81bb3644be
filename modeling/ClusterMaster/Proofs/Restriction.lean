import ClusterMaster.Proofs.Rounds

/-!
# A master as one group knows it

`Party` is a group together with the ids its consumers use. `Master.restrict` leaves of a master what
such a party has to do with: its own group, queues, holdings and offsets, when its own consumers
were last heard of, and all that is not about consumers. Producers, brokers, the store, held rows and
the clocks are common to all groups, and what happens to them does not depend on what is left out:

    (m.restrict p).after op = (m.after op).restrict p      for what no consumer asks    (after_restrict)

The tables themselves are restricted to keys (`Table.restrict`), one component after the other.
-/

namespace ClusterMaster

/-! ## Tables -/

namespace Table

variable {κ ν : Type} [Key κ] [DecidableEq κ] {t t' : Table κ ν} {p : κ → Bool} {k : κ} {v : ν}

/-- The entries whose key passes a test. -/
def restrict (t : Table κ ν) (p : κ → Bool) : Table κ ν := t.filter fun k _ => p k

theorem get?_restrict : (t.restrict p).get? k = if p k then t.get? k else none := by
  unfold restrict
  rw [get?_filter]
  by_cases h : p k = true <;> cases t.get? k <;> simp [h]

theorem get?_restrict_of (h : p k = true) : (t.restrict p).get? k = t.get? k := by
  rw [get?_restrict, if_pos h]

/-- Only the keys that pass count. -/
theorem restrict_congr (h : ∀ k, p k = true → t'.get? k = t.get? k) : t'.restrict p = t.restrict p := by
  refine ext_get? fun k => ?_
  rw [get?_restrict, get?_restrict]
  split
  · rename_i hk
    exact h k hk
  · rfl

theorem restrict_insert (h : p k = true) : (t.insert k v).restrict p = (t.restrict p).insert k v := by
  refine ext_get? fun j => ?_
  rw [get?_restrict, get?_insert, get?_insert, get?_restrict]
  by_cases hj : k = j
  · subst hj
    simp [h]
  · simp [hj]

theorem restrict_insert_of_not (h : p k = false) : (t.insert k v).restrict p = t.restrict p := by
  refine restrict_congr fun j hj => get?_insert_of_ne ?_
  rintro rfl
  simp [h] at hj

theorem restrict_erase : (t.erase k).restrict p = (t.restrict p).erase k := by
  refine ext_get? fun j => ?_
  rw [get?_restrict, get?_erase, get?_erase, get?_restrict]
  by_cases hj : k = j <;> simp [hj]

theorem restrict_erase_of_not (h : p k = false) : (t.erase k).restrict p = t.restrict p := by
  refine restrict_congr fun j hj => get?_erase_of_ne ?_
  rintro rfl
  simp [h] at hj

theorem restrict_modify {f : ν → ν} : (t.modify k f).restrict p = (t.restrict p).modify k f := by
  refine ext_get? fun j => ?_
  rw [get?_restrict, get?_modify, get?_modify, get?_restrict]
  by_cases hj : k = j <;> by_cases hp : p j = true <;> simp [hj, hp]

theorem restrict_modify_of_not {f : ν → ν} (h : p k = false) :
    (t.modify k f).restrict p = t.restrict p := by
  refine restrict_congr fun j hj => ?_
  rw [get?_modify, if_neg]
  rintro rfl
  simp [h] at hj

end Table

/-! ## One group -/

/-- A group, and the ids that its consumers use. -/
structure Party where
  group : String
  uses : String → Bool

namespace Party

variable (p : Party)

/-- The liveness keys of nodes that are no consumers, and of the consumers of the group. -/
def tracks (c : NodeClass) (key : String) : Bool :=
  decide (c ≠ .consumer) || (splitLivenessKey key).any fun parts => parts.2 == p.group

def ofLiveness (l : Liveness) : Liveness :=
  { lastSeen := l.lastSeen.restrict fun k => p.tracks k.1 k.2 }

def ofGroups (gs : Groups) : Groups :=
  { groups := gs.groups.restrict fun name => name == p.group
    groupOf := gs.groupOf.restrict p.uses }

def ofEvents (q : EventQueues) : EventQueues :=
  { queues := q.queues.restrict p.uses
    unfinished := q.unfinished.restrict fun name => name == p.group }

def ofOffsets (o : Offsets) : Offsets :=
  { committed := o.committed.restrict fun k => k.1 == p.group }

def ofTopology (t : Topology) : Topology :=
  { t with subscriptions := t.subscriptions.filter fun s => s.2 == p.group }

variable {p} {l : Liveness} {c : NodeClass} {key : String} {now : Nat}

theorem register_ofLiveness (hk : p.tracks c key = true) :
    (p.ofLiveness l).register c key now = p.ofLiveness (l.register c key now) := by
  have hinsert : (l.lastSeen.insert (c, key) now).restrict (fun k => p.tracks k.1 k.2) =
      (l.lastSeen.restrict fun k => p.tracks k.1 k.2).insert (c, key) now :=
    Table.restrict_insert hk
  exact congrArg Liveness.mk hinsert.symm

theorem register_ofLiveness_of_not (hk : p.tracks c key = false) :
    p.ofLiveness (l.register c key now) = p.ofLiveness l :=
  congrArg Liveness.mk (Table.restrict_insert_of_not hk)

theorem unregister_ofLiveness (c : NodeClass) (key : String) :
    (p.ofLiveness l).unregister c key = p.ofLiveness (l.unregister c key) :=
  congrArg Liveness.mk Table.restrict_erase.symm

theorem unregister_ofLiveness_of_not (hk : p.tracks c key = false) :
    p.ofLiveness (l.unregister c key) = p.ofLiveness l :=
  congrArg Liveness.mk (Table.restrict_erase_of_not hk)

/-- Nobody but consumers is kept from the party. -/
theorem tracks_of_ne (hc : c ≠ .consumer) : p.tracks c key = true := by
  unfold tracks
  simp [hc]

end Party

namespace Master

/-- What a master knows apart from the consumers of other groups. -/
def restrict (p : Party) (m : Master) : Master :=
  { m with
    liveness := p.ofLiveness m.liveness
    groups := p.ofGroups m.groups
    events := p.ofEvents m.events
    holdings := m.holdings.restrict p.uses
    offsets := p.ofOffsets m.offsets
    topology := p.ofTopology m.topology }

end Master

/-- What a call leads to, as a party knows it. -/
def Outcome.restrict {α : Type} (p : Party) (o : Outcome α) : Outcome α := (o.1, o.2.restrict p)

namespace Master

variable {p : Party} {m : Master} {c : NodeClass} {op : Operation} {key : String}

section Fields

variable (p : Party) (m : Master)

@[simp] theorem restrict_settings : (m.restrict p).settings = m.settings := rfl
@[simp] theorem restrict_store : (m.restrict p).store = m.store := rfl
@[simp] theorem restrict_runs : (m.restrict p).runs = m.runs := rfl
@[simp] theorem restrict_producers : (m.restrict p).producers = m.producers := rfl
@[simp] theorem restrict_topicRows : (m.restrict p).topicRows = m.topicRows := rfl
@[simp] theorem restrict_consumerRows : (m.restrict p).consumerRows = m.consumerRows := rfl
@[simp] theorem restrict_checkPrimary : (m.restrict p).checkPrimary = m.checkPrimary := rfl

end Fields

/-! ## Calls -/

theorem allow_restrict {α : Type} (m : Master) (check : Except Fault Unit) (call : Outcome α) :
    (m.restrict p).allow check (call.restrict p) = (m.allow check call).restrict p := by
  cases check <;> rfl

/-- Hearing of a node of which the party keeps track. -/
theorem hear_restrict (hk : p.tracks c key = true) (m : Master) :
    (m.restrict p).hear c key = (m.hear c key).restrict p := by
  simp only [restrict, hear, Party.register_ofLiveness hk]

theorem hear_restrict_of_not (hk : p.tracks c key = false) (m : Master) :
    (m.hear c key).restrict p = m.restrict p := by
  simp only [restrict, hear, Party.register_ofLiveness_of_not hk]

theorem forget_restrict (m : Master) (c : NodeClass) (key : String) :
    (m.restrict p).forget c key = (m.forget c key).restrict p := by
  simp only [restrict, forget, Party.unregister_ofLiveness]

theorem forget_restrict_of_not (hk : p.tracks c key = false) (m : Master) :
    (m.forget c key).restrict p = m.restrict p := by
  simp only [restrict, forget, Party.unregister_ofLiveness_of_not hk]

theorem get?_lastSeen_restrict (hk : p.tracks c key = true) (m : Master) :
    (m.restrict p).liveness.lastSeen.get? (c, key) = m.liveness.lastSeen.get? (c, key) :=
  Table.get?_restrict_of hk

theorem checkKnown_restrict (hk : p.tracks c key = true) (m : Master) :
    (m.restrict p).liveness.checkKnown c key = m.liveness.checkKnown c key := by
  unfold Liveness.checkKnown Liveness.isRegistered Table.contains
  rw [get?_lastSeen_restrict hk]

theorem isOverdue_restrict (hk : p.tracks c key = true) (m : Master) :
    (m.restrict p).liveness.isOverdue c key ((m.restrict p).settings.timeout c) (m.restrict p).clock =
      m.liveness.isOverdue c key (m.settings.timeout c) m.clock :=
  Liveness.isOverdue_congr (get?_lastSeen_restrict hk m)

/-! ## Producers -/

theorem releaseProducer_restrict (m : Master) (id : String) :
    (m.restrict p).releaseProducer id = (m.releaseProducer id).restrict p := by
  have hdrop : (m.restrict p).dropProducer id = (m.dropProducer id).restrict p := by
    unfold dropProducer
    rw [forget_restrict]
    simp only [restrict_producers]
    cases (m.forget .producer id).producers.get? id <;> rfl
  unfold releaseProducer
  rw [hdrop]
  exact allow_restrict m _ (.ok (), m.dropProducer id)

theorem producerRegister_restrict (m : Master) (r : ProducerRegister) :
    (m.restrict p).producerRegister r = (m.producerRegister r).restrict p := by
  have henrol : (m.restrict p).enrolProducer r = (m.enrolProducer r).restrict p := by
    unfold enrolProducer
    rw [← hear_restrict (Party.tracks_of_ne (by decide)), restrict_producers]
    cases m.producers.get? r.producer <;> rfl
  unfold producerRegister
  rw [henrol]
  exact allow_restrict m _
    (.ok ((m.enrolProducer r).producerAnswer r.topics r.version), m.enrolProducer r)

theorem producerHeartbeat_restrict (m : Master) (r : ProducerHeartbeat) :
    (m.restrict p).producerHeartbeat r = (m.producerHeartbeat r).restrict p := by
  have hcheck : (m.restrict p).checkProducerHeartbeat r = m.checkProducerHeartbeat r := by
    unfold checkProducerHeartbeat
    rw [checkKnown_restrict (Party.tracks_of_ne (by decide))]
    rfl
  have hretopic : ∀ (m : Master) (q : Producer), (m.restrict p).retopicProducer q r.topics =
      (m.retopicProducer q r.topics).restrict p := by
    intro m q
    unfold retopicProducer
    split <;> rfl
  unfold producerHeartbeat
  rw [hcheck, hear_restrict (Party.tracks_of_ne (by decide)), ← allow_restrict]
  simp only [restrict_producers]
  cases (m.hear .producer r.producer).producers.get? r.producer with
  | none => rfl
  | some q =>
    simp only [hretopic]
    rfl

/-! ## Brokers -/

theorem writeAll_restrict (m : Master) (id : BrokerId) (ws : List OfferWrite) :
    (m.restrict p).writeAll id ws = (m.writeAll id ws).restrict p := by
  induction ws generalizing m with
  | nil => rfl
  | cons w ws ih =>
    have hwrite : (m.restrict p).write id w = (m.write id w).restrict p := by cases w <;> rfl
    unfold writeAll
    rw [hwrite, ih, restrict_topicRows]
    cases m.topicRows.checkFree w.topic <;> rfl

theorem pushOffer_restrict (m : Master) (id : BrokerId) :
    (m.restrict p).pushOffer id = (m.pushOffer id).restrict p := by
  unfold pushOffer
  rw [show (m.restrict p).duePush? id = m.duePush? id from rfl]
  cases m.duePush? id with
  | none => rfl
  | some push =>
    simp only [carryOut, writeAll_restrict, Outcome.restrict]
    cases m.writeAll push.broker push.writes with
    | mk answer m' => cases answer <;> rfl

theorem withdrawTopics_restrict (m : Master) (id : BrokerId) (ts : List String) :
    (m.restrict p).withdrawTopics id ts = (m.withdrawTopics id ts).restrict p := by
  induction ts generalizing m with
  | nil => rfl
  | cons t ts ih =>
    unfold withdrawTopics
    rw [restrict_topicRows]
    cases m.topicRows.checkFree t with
    | error e => rfl
    | ok u => exact ih { m with
        topology := m.topology.withdraw t id
        runs := m.runs.setOffer id ((m.runs.offer id).erase t) }

theorem releaseBroker_restrict (m : Master) (id : BrokerId) :
    (m.restrict p).releaseBroker id = (m.releaseBroker id).restrict p := by
  have hforget : ∀ m : Master, (m.restrict p).forgetBroker id = (m.forgetBroker id).restrict p := by
    intro m
    unfold forgetBroker
    rw [forget_restrict]
    rfl
  unfold releaseBroker
  rw [show (m.restrict p).topicsToWithdraw id = m.topicsToWithdraw id from rfl,
    withdrawTopics_restrict]
  unfold Outcome.restrict
  cases m.withdrawTopics id (m.topicsToWithdraw id).toList with
  | mk answer m' =>
    cases answer with
    | error e => rfl
    | ok u => simp only [hforget]

theorem brokerRegister_restrict (m : Master) (r : BrokerRegister) :
    (m.restrict p).brokerRegister r = (m.brokerRegister r).restrict p := by
  have henrol : ∀ c, (m.restrict p).enrolBroker r c = (m.enrolBroker r c).restrict p := by
    intro c
    unfold enrolBroker
    rw [← hear_restrict (Party.tracks_of_ne (by decide))]
    rfl
  unfold brokerRegister
  rw [show (m.restrict p).checkBrokerRegister r = m.checkBrokerRegister r from rfl]
  cases m.checkBrokerRegister r with
  | error e => rfl
  | ok c =>
    simp only [henrol, pushOffer_restrict]
    rfl

theorem brokerHeartbeat_restrict (m : Master) (r : BrokerHeartbeat) :
    (m.restrict p).brokerHeartbeat r = (m.brokerHeartbeat r).restrict p := by
  unfold brokerHeartbeat
  simp only []
  rw [checkKnown_restrict (Party.tracks_of_ne (by decide)), hear_restrict (Party.tracks_of_ne (by decide)),
    restrict_checkPrimary, ← allow_restrict]
  congr 1
  generalize m.hear .broker (brokerKey r.broker) = m
  rw [restrict_store]
  cases m.store.config? r.broker with
  | none =>
    simp only [releaseBroker_restrict]
    rfl
  | some c =>
    simp only []
    split
    · simp only [releaseBroker_restrict]
      rfl
    · rw [restrict_runs]
      cases m.runs.lifecycle? r.broker with
      | none => rfl
      | some l =>
        have hpush := pushOffer_restrict (p := p) { m with
          brokers := m.brokers.report r.broker { readable := r.readable, writable := r.writable }
          runs := m.runs.register (m.pulse r c l) } r.broker
        exact congrArg (fun o : Outcome Unit =>
          ((.ok (brokerAnswer (m.pulse r c l) c), o.2) : Outcome BrokerAnswer)) hpush

/-! ## Scans -/

theorem releaseNode_restrict (hc : c ≠ .consumer) (m : Master) (key : String) :
    (m.restrict p).releaseNode c key = (m.releaseNode c key).restrict p := by
  cases c with
  | producer => exact releaseProducer_restrict m key
  | consumer => exact absurd rfl hc
  | broker =>
    unfold releaseNode
    simp only []
    cases parseBrokerId key with
    | none => rfl
    | some id => exact releaseBroker_restrict m id

theorem letGo_restrict_of_ne (hc : c ≠ .consumer) (m : Master) (key : String) :
    (m.restrict p).letGo c key = (m.letGo c key).restrict p := by
  unfold letGo
  rw [forget_restrict, releaseNode_restrict hc]
  unfold Outcome.restrict
  cases (m.forget c key).releaseNode c key with
  | mk answer m' =>
    cases answer with
    | error e => exact hear_restrict (Party.tracks_of_ne hc) m'
    | ok u => rfl

/-- The party finds those tracked of which it keeps track. -/
theorem keysOf_restrict (c : NodeClass) (m : Master) :
    (m.restrict p).liveness.keysOf c = (m.liveness.keysOf c).filter (p.tracks c) := by
  unfold Liveness.keysOf
  show ((m.liveness.lastSeen.entries.filter fun e => p.tracks e.1.1 e.1.2).map Prod.fst).filterMap _ =
    ((m.liveness.lastSeen.entries.map Prod.fst).filterMap _).filter _
  induction m.liveness.lastSeen.entries with
  | nil => rfl
  | cons e es ih =>
    obtain ⟨⟨d, key⟩, seen⟩ := e
    by_cases hd : d = c
    · subst hd
      by_cases hk : p.tracks d key = true
      · simpa [hk] using ih
      · simpa [hk] using ih
    · by_cases hk : p.tracks d key = true
      · simpa [hk, hd] using ih
      · simpa [hk, hd] using ih

/-- A scan that lets everybody go as the party would, or without the party's notice, comes to what
the party makes of it. -/
theorem expire_restrict {q : Master → Prop}
    (keep : ∀ m key, m.liveness.isRegistered c key = true → q m → q (m.letGo c key))
    (own : ∀ m key, m.liveness.isRegistered c key = true → q m → p.tracks c key = true →
      (m.restrict p).letGo c key = (m.letGo c key).restrict p)
    (other : ∀ m key, m.liveness.isRegistered c key = true → q m → p.tracks c key = false →
      (m.letGo c key).restrict p = m.restrict p)
    (hm : q m) : ((m.restrict p).expire c).2 = (m.expire c).2.restrict p := by
  unfold expire
  rw [keysOf_restrict]
  induction m.liveness.keysOf c generalizing m with
  | nil => rfl
  | cons key keys ih =>
    by_cases hk : p.tracks c key = true
    · rw [List.filter_cons_of_pos hk]
      unfold letGoAll
      rw [isOverdue_restrict hk]
      by_cases hover : m.liveness.isOverdue c key (m.settings.timeout c) m.clock = true
      · have hreg := Liveness.isRegistered_of_isOverdue hover
        rw [if_pos hover, if_pos hover]
        simp only []
        rw [own m key hreg hm hk]
        exact ih (keep m key hreg hm)
      · rw [if_neg hover, if_neg hover]
        exact ih hm
    · rw [List.filter_cons_of_neg hk, letGoAll]
      split
      · rename_i hover
        have hreg := Liveness.isRegistered_of_isOverdue hover
        rw [← other m key hreg hm (by simpa using hk)]
        exact ih (keep m key hreg hm)
      · exact ih hm

/-! ## What no consumer asks -/

/-- What is not about consumers, commits nothing and queues nothing does to the part of a party what
it does to the whole. -/
theorem after_restrict (hop : op.class? ≠ some .consumer) (hpass : op ≠ .pass)
    (hcommit : ∀ group key offset, op ≠ .commit group key offset) (m : Master) :
    (m.restrict p).after op = (m.after op).restrict p := by
  cases op with
  | producerRegister r => exact congrArg Prod.snd (producerRegister_restrict m r)
  | producerHeartbeat r => exact congrArg Prod.snd (producerHeartbeat_restrict m r)
  | producerClose id =>
    have hclose : (m.restrict p).producerClose id = (m.producerClose id).restrict p := by
      unfold producerClose
      rw [releaseProducer_restrict]
      exact allow_restrict m _ _
    exact congrArg Prod.snd hclose
  | brokerRegister r => exact congrArg Prod.snd (brokerRegister_restrict m r)
  | brokerHeartbeat r => exact congrArg Prod.snd (brokerHeartbeat_restrict m r)
  | brokerClose id =>
    have hclose : (m.restrict p).brokerClose id = (m.brokerClose id).restrict p := by
      unfold brokerClose
      rw [releaseBroker_restrict]
      exact allow_restrict m _ _
    exact congrArg Prod.snd hclose
  | setIntent id intent =>
    have hset : (m.restrict p).setBrokerIntent id intent =
        (m.setBrokerIntent id intent).restrict p := by
      unfold setBrokerIntent
      rw [← allow_restrict, restrict_checkPrimary, restrict_store]
      cases m.store.setIntent id intent <;> rfl
    exact congrArg Prod.snd hset
  | edit e =>
    have hedit : (m.restrict p).editStore e = (m.editStore e).restrict p := by
      unfold editStore
      rw [restrict_store]
      cases m.store.edit e <;> rfl
    exact congrArg Prod.snd hedit
  | expire c =>
    have hc : c ≠ .consumer := fun hc => hop (congrArg some hc)
    exact expire_restrict (q := fun _ => True) (fun _ _ _ _ => trivial)
      (fun m key _ _ _ => letGo_restrict_of_ne hc m key)
      (fun m key _ _ hk => absurd hk (by rw [Party.tracks_of_ne hc]; decide)) trivial
  | commit group key offset => exact absurd rfl (hcommit group key offset)
  | pass => exact absurd rfl hpass
  | wait ms => rfl
  | stepWait ms => rfl
  | hold kind key => cases kind <;> rfl
  | giveBack kind key => cases kind <;> rfl
  | _ => exact absurd rfl hop

end Master

end ClusterMaster
