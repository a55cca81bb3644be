import ClusterMaster.Proofs.Numbering
import ClusterMaster.Proofs.Pushes
import ClusterMaster.Proofs.Registry

/-!
# What brokers offer

A store that edits have made is valid: no topic has more partitions in a store than the distance
between stores. So the partition numbers a broker offers of a topic are distinct, and because an
offer is filed under its topic and broker, and a broker under its own id, no two partitions that
can be subscribed to share a key:

    partition keys of m.subscribable topic are distinct                (Offers.nodup_key_subscribable)
    a partition in m.subscribable topic is one of that topic            (topic_of_mem_subscribable)

`Offers m` is the invariant behind it. Every operation keeps it (`Offers.after`), so it holds of
every master that has grown from such a store (`Master.Grown`).
-/

namespace ClusterMaster

/-! ## Partition numbers -/

namespace HostedTopic

theorem nodup_key_partitions {t : HostedTopic} (h : t.partitionCount.toNat < storeStride)
    (b : Broker) : ((t.partitions b).map Partition.key).Nodup := by
  unfold partitions
  rw [List.map_map]
  refine (nodup_partitionNumbers h).map fun n n' heq => ?_
  have hid := Partition.identity_eq_identity_iff.mp (Partition.key_eq_key_iff.mp heq)
  exact hid.2.2

theorem of_mem_partitions {t : HostedTopic} {b : Broker} {p : Partition} (h : p ∈ t.partitions b) :
    p.broker = b ∧ p.topic = t.topic := by
  obtain ⟨n, -, rfl⟩ := List.mem_map.mp h
  exact ⟨rfl, rfl⟩

end HostedTopic

namespace Master

variable {m m' : Master} {topic : String}

/-! ## The invariant -/

structure Offers (m : Master) : Prop where
  valid : m.store.Valid
  hosted : ∀ x h, m.topology.hosted.get? x = some h →
    (h.topic, h.broker) = x ∧ h.partitionCount.toNat < storeStride
  registered : ∀ id b, m.brokers.broker? id = some b → b.id = id

namespace Offers

theorem create {settings : Settings} {store : Store} (hs : store.Valid)
    (h : Master.create settings store = .ok m) : Offers m := by
  obtain rfl := eq_of_create h
  refine ⟨hs, fun x h hx => ?_, fun id b hb => ?_⟩
  · cases hx
  · cases hb

/-- What leaves store, offers and brokers alone keeps the invariant. -/
theorem same (h : Offers m) (hs : m'.store = m.store)
    (ht : m'.topology.hosted = m.topology.hosted) (hb : m'.brokers.registered = m.brokers.registered) :
    Offers m' where
  valid := hs ▸ h.valid
  hosted := ht ▸ h.hosted
  registered id b hid := h.registered id b (by
    unfold Brokers.broker? at hid ⊢
    rw [← hb]
    exact hid)

/-! ### Brokers -/

theorem withdraw (h : Offers m) (topic : String) (id : BrokerId) :
    Offers { m with topology := m.topology.withdraw topic id } where
  valid := h.valid
  hosted x t ht := by
    change (m.topology.hosted.erase (topic, id)).get? x = some t at ht
    rw [Table.get?_erase] at ht
    split at ht
    · cases ht
    · exact h.hosted x t ht
  registered := h.registered

theorem offer (h : Offers m) {t : HostedTopic} (ht : t.partitionCount.toNat < storeStride) :
    Offers { m with topology := m.topology.offer t } where
  valid := h.valid
  hosted x s hs := by
    change (m.topology.hosted.insert (t.topic, t.broker) t).get? x = some s at hs
    rw [Table.get?_insert] at hs
    split at hs
    · rename_i hx
      obtain rfl := Option.some.inj hs
      exact ⟨hx, ht⟩
    · exact h.hosted x s hs
  registered := h.registered

theorem writeAll (h : Offers m) (id : BrokerId) {ws : List OfferWrite}
    (hws : ∀ t, .offer t ∈ ws → t.partitionCount.toNat < storeStride) :
    Offers (m.writeAll id ws).2 := by
  induction ws generalizing m with
  | nil => exact h
  | cons w ws ih =>
    unfold Master.writeAll
    split
    · exact h
    · refine ih ?_ fun t ht => hws t (List.mem_cons_of_mem _ ht)
      cases w with
      | withdraw topic => exact h.withdraw topic id
      | offer t => exact h.offer (hws t List.mem_cons_self)

/-- What a push writes has been read off the store. -/
theorem of_duePush? (h : Offers m) {id : BrokerId} {p : Push} (hp : m.duePush? id = some p) :
    ∀ t, .offer t ∈ p.writes → t.partitionCount.toNat < storeStride := by
  intro t ht
  unfold duePush? at hp
  obtain ⟨target, htarget, hp⟩ := Option.bind_eq_some_iff.mp hp
  simp only [Option.ite_none_left_eq_some, Option.some.injEq] at hp
  obtain ⟨-, rfl⟩ := hp
  obtain ⟨topic, hget⟩ := OfferChange.of_offer_mem_writes ht
  unfold dueOffer? at htarget
  split at htarget
  · rename_i c l hc hl
    obtain rfl := Option.some.inj htarget
    obtain ⟨config, hconfig, -, rfl⟩ := BrokerConfig.of_get?_offer hget
    exact h.valid id c hc config hconfig
  · cases htarget

theorem pushOffer (h : Offers m) (id : BrokerId) : Offers (m.pushOffer id).2 := by
  unfold Master.pushOffer
  split
  · rename_i p hp
    have hw := h.writeAll p.broker (h.of_duePush? hp)
    unfold carryOut
    split
    · rename_i heq
      rw [heq] at hw
      exact hw
    · rename_i heq
      rw [heq] at hw
      exact hw.same rfl rfl rfl
  · exact h

theorem releaseBroker (h : Offers m) (id : BrokerId) : Offers (m.releaseBroker id).2 := by
  have hr := released_releaseBroker m id
  exact ⟨hr.store ▸ h.valid, fun x t ht => h.hosted x t (hr.hosted? ht),
    fun j b hb => h.registered j b (hr.broker? hb)⟩

theorem enrolBroker (h : Offers m) (r : BrokerRegister) (c : BrokerConfig) :
    Offers (m.enrolBroker r c) where
  valid := h.valid
  hosted := h.hosted
  registered j b hb := by
    obtain ⟨info, hinfo, hreg⟩ : ∃ info : Broker, info.id = r.broker ∧
        (m.enrolBroker r c).brokers.registered = m.brokers.registered.insert info.id info :=
      ⟨_, rfl, rfl⟩
    unfold Brokers.broker? at hb
    rw [hreg, Table.get?_insert] at hb
    split at hb
    · rename_i hid
      obtain rfl := Option.some.inj hb
      exact hid
    · exact h.registered j b hb

theorem brokerRegister (h : Offers m) (r : BrokerRegister) : Offers (m.brokerRegister r).2 := by
  unfold Master.brokerRegister
  split
  · exact h
  · exact (h.enrolBroker r _).pushOffer _

theorem brokerHeartbeat (h : Offers m) (r : BrokerHeartbeat) : Offers (m.brokerHeartbeat r).2 := by
  refine allow_snd h ?_
  have hear : Offers (m.hear .broker (brokerKey r.broker)) := h.same rfl rfl rfl
  have hreport : ∀ report, Offers { m.hear .broker (brokerKey r.broker) with
      brokers := m.brokers.report r.broker report } := by
    intro report
    refine hear.same rfl rfl ?_
    show (m.brokers.report r.broker report).registered = m.brokers.registered
    unfold Brokers.report
    split <;> rfl
  simp only []
  split
  · exact hear.releaseBroker _
  · split
    · exact hear.releaseBroker _
    · split
      · exact hreport _
      · refine pushOffer ?_ r.broker
        exact (hreport { readable := r.readable, writable := r.writable }).same rfl rfl rfl

/-! ### All operations -/

theorem withStore (h : Offers m) {store : Store} (hs : store.Valid) : Offers { m with store := store } where
  valid := hs
  hosted := h.hosted
  registered := h.registered

/-- Every operation keeps the invariant. -/
theorem after (h : Offers m) (op : Operation) : Offers (m.after op) := by
  by_cases hop : op.concernsBrokers = false
  · have hs := sameBrokers_after hop m
    exact h.same hs.store hs.hosted (congrArg Brokers.registered hs.brokers)
  · cases op with
    | brokerRegister r => exact h.brokerRegister r
    | brokerHeartbeat r => exact h.brokerHeartbeat r
    | brokerClose id => exact allow_snd h (h.releaseBroker id)
    | setIntent id intent =>
      show Offers (m.setBrokerIntent id intent).2
      rcases setBrokerIntent_cases m id intent with ⟨store, hs, he⟩ | he
      · rw [he]
        exact h.withStore (h.valid.edit hs)
      · rw [he]
        exact h
    | edit e =>
      show Offers (m.editStore e).2
      rcases editStore_cases m e with ⟨store, hs, he⟩ | ⟨fault, he⟩
      · rw [he]
        exact h.withStore (h.valid.edit hs)
      · rw [he]
        exact h
    | expire c =>
      cases c with
      | broker =>
        exact expireBrokers_induction (p := Offers) (fun m _ hm => hm.same rfl rfl rfl)
          (fun m id hm => hm.releaseBroker id) h
      | _ => exact absurd rfl hop
    | hold kind key => cases kind <;> exact h.same rfl rfl rfl
    | giveBack kind key => cases kind <;> exact h.same rfl rfl rfl
    | _ => exact absurd rfl hop

theorem run (h : Offers m) (ops : List Operation) : Offers (m.run ops) := by
  induction ops generalizing m with
  | nil => exact h
  | cons op ops ih => exact ih (h.after op)

end Offers

/-- The masters that start fresh from a store that edits have made, and what a history of
operations makes of them. -/
def Grown (m : Master) : Prop :=
  ∃ settings store fresh ops, Store.Edited store ∧ create settings store = .ok fresh ∧
    fresh.run ops = m

theorem Grown.reachable (h : m.Grown) : m.Reachable := by
  obtain ⟨settings, store, fresh, ops, -, hf, hr⟩ := h
  exact ⟨settings, store, fresh, ops, hf, hr⟩

theorem Grown.registry (h : m.Grown) : Registry m := registry_of_reachable h.reachable

theorem Grown.offers (h : m.Grown) : Offers m := by
  obtain ⟨settings, store, fresh, ops, hs, hf, rfl⟩ := h
  exact (Offers.create hs.valid hf).run ops

/-! ## What can be subscribed to -/

theorem mem_subscribable {topic : String} {p : Partition} : p ∈ m.subscribable topic ↔
    ∃ h ∈ m.topology.offersOf topic, h.acceptSubscribe = true ∧
      ∃ b, m.brokers.broker? h.broker = some b ∧ p ∈ h.partitions b := by
  unfold subscribable
  rw [Partition.mem_sort, List.mem_flatMap]
  refine exists_congr fun h => and_congr_right fun _ => ?_
  cases h.acceptSubscribe with
  | false => simp
  | true => cases m.brokers.broker? h.broker <;> simp

/-- The partitions of an offer that can be subscribed to. -/
def subscribableOf (m : Master) (t : HostedTopic) : List Partition :=
  if t.acceptSubscribe then
    match m.brokers.broker? t.broker with
    | some b => t.partitions b
    | none => []
  else []

namespace Offers

theorem of_mem_offersOf (h : Offers m) {t : HostedTopic} (ht : t ∈ m.topology.offersOf topic) :
    t.topic = topic ∧ t.partitionCount.toNat < storeStride := by
  obtain ⟨⟨⟨topic', id⟩, t'⟩, he, hsome⟩ := List.mem_filterMap.mp ht
  simp only [Option.ite_none_right_eq_some, Option.some.injEq] at hsome
  obtain ⟨rfl, rfl⟩ := hsome
  obtain ⟨hplace, hcount⟩ := h.hosted _ _ (Table.get?_eq_some_iff.mpr he)
  exact ⟨congrArg Prod.fst hplace, hcount⟩

theorem topic_of_mem_subscribable (h : Offers m) {p : Partition} (hp : p ∈ m.subscribable topic) :
    p.topic = topic := by
  obtain ⟨t, ht, -, b, -, hmem⟩ := mem_subscribable.mp hp
  exact (HostedTopic.of_mem_partitions hmem).2.trans (h.of_mem_offersOf ht).1

/-- No two offers of a topic are by one broker. -/
theorem nodup_broker_offersOf (h : Offers m) (topic : String) :
    ((m.topology.offersOf topic).map HostedTopic.broker).Nodup := by
  have hsub : (m.topology.offersOf topic).map (fun t => (topic, t.broker)) =
      (m.topology.hosted.entries.filter fun e => e.1.1 == topic).map Prod.fst := by
    unfold Topology.offersOf
    have hplace : ∀ e ∈ m.topology.hosted.entries, (e.2.topic, e.2.broker) = e.1 :=
      fun e he => (h.hosted _ _ (Table.get?_eq_some_iff.mpr he)).1
    generalize m.topology.hosted.entries = es at hplace ⊢
    induction es with
    | nil => rfl
    | cons e es ih =>
      have ih := ih fun e' he' => hplace e' (List.mem_cons_of_mem _ he')
      have he := hplace e List.mem_cons_self
      rw [List.filterMap_cons, List.filter_cons]
      by_cases ht : e.1.1 = topic
      · rw [if_pos ht, if_pos (beq_iff_eq.mpr ht)]
        simp only [List.map_cons, ih]
        rw [← he] at ht ⊢
        rw [← ht]
      · rw [if_neg ht, if_neg (by simpa using ht)]
        exact ih
  have hnodup : ((m.topology.offersOf topic).map fun t => (topic, t.broker)).Nodup := by
    rw [hsub]
    exact m.topology.hosted.nodup_keys.sublist (List.filter_sublist.map _)
  refine List.Nodup.of_map (fun id => (topic, id)) ?_
  rw [List.map_map]
  exact hnodup

/-- No two partitions that can be subscribed to share a key. -/
theorem nodup_key_subscribable (h : Offers m) (topic : String) :
    ((m.subscribable topic).map Partition.key).Nodup := by
  have hperm : ((m.subscribable topic).map Partition.key).Perm
      ((m.topology.offersOf topic).flatMap fun t => (m.subscribableOf t).map Partition.key) := by
    rw [← List.map_flatMap]
    exact (List.mergeSort_perm _ _).map _
  refine hperm.nodup_iff.mpr (List.nodup_flatMap.mpr ⟨fun t ht => ?_, ?_⟩)
  · unfold subscribableOf
    split
    · split
      · exact HostedTopic.nodup_key_partitions (h.of_mem_offersOf ht).2 _
      · exact List.nodup_nil
    · exact List.nodup_nil
  · refine (List.pairwise_map.mp (h.nodup_broker_offersOf topic)).imp fun {t t'} hne => ?_
    -- a key names the broker, which is registered under the id of the offer
    have hid : ∀ t : HostedTopic, ∀ key ∈ (m.subscribableOf t).map Partition.key,
        ∃ p : Partition, p.key = key ∧ p.broker.id = t.broker := by
      intro t key hkey
      obtain ⟨p, hp, rfl⟩ := List.mem_map.mp hkey
      unfold subscribableOf at hp
      split at hp
      · split at hp
        · rename_i b hb
          exact ⟨p, rfl, by rw [(HostedTopic.of_mem_partitions hp).1, h.registered _ b hb]⟩
        · cases hp
      · cases hp
    intro key hkey hkey'
    obtain ⟨p, hp, hpb⟩ := hid t key hkey
    obtain ⟨q, hq, hqb⟩ := hid t' key hkey'
    have hsame := congrArg Prod.fst (Partition.key_eq_key_iff.mp (hp.trans hq.symm))
    exact hne (hpb.symm.trans (hsame.trans hqb))

end Offers

/-! ## Pictures -/

/-- A picture shows what can be subscribed to of the group's topics, except of blocked ones. -/
theorem partitionsOf_viewGroup (m : Master) (g : Group) (topic : String) :
    (m.viewGroup g).partitionsOf topic =
      if topic ∈ g.topics ∧ topic ∉ m.store.blackTopicsOf g.name then m.subscribable topic else [] := by
  have hkeys : ((g.topics.toList.map fun t => (t, m.subscribable t)).map Prod.fst).Nodup := by
    rw [List.map_map]
    simpa [Function.comp_def] using KeySet.nodup_toList g.topics
  have hpart : (m.viewGroup g).partitions.getD topic [] =
      if topic ∈ g.topics then m.subscribable topic else [] := by
    show ((Table.ofList (g.topics.toList.map fun t => (t, m.subscribable t))).get? topic).getD [] = _
    by_cases ht : topic ∈ g.topics
    · have hmem : (topic, m.subscribable topic) ∈ g.topics.toList.map fun t => (t, m.subscribable t) :=
        List.mem_map.mpr ⟨topic, KeySet.mem_toList.mpr ht, rfl⟩
      rw [(Table.get?_ofList_of_nodup hkeys).mpr hmem, if_pos ht, Option.getD_some]
    · rw [if_neg ht]
      cases hget : (Table.ofList (g.topics.toList.map fun t => (t, m.subscribable t))).get? topic with
      | none => rfl
      | some ps =>
        obtain ⟨t, htm, heq⟩ := List.mem_map.mp (Table.mem_of_get?_ofList hget)
        obtain ⟨rfl, -⟩ := Prod.mk.inj heq
        exact absurd (KeySet.mem_toList.mp htm) ht
  unfold GroupView.partitionsOf
  rw [hpart]
  show (if topic ∈ m.store.blackTopicsOf g.name then _ else _) = _
  by_cases hb : topic ∈ m.store.blackTopicsOf g.name <;> simp [hb]

theorem mem_partitionsOf_viewGroup {g : Group} {p : Partition} :
    p ∈ (m.viewGroup g).partitionsOf topic ↔
      (topic ∈ g.topics ∧ topic ∉ m.store.blackTopicsOf g.name) ∧ p ∈ m.subscribable topic := by
  rw [partitionsOf_viewGroup]
  split
  · rename_i h
    exact (and_iff_right h).symm
  · rename_i h
    exact ⟨fun hp => absurd hp List.not_mem_nil, fun hp => absurd hp.1 h⟩

namespace Offers

theorem nodup_key_partitionsOf (h : Offers m) (g : Group) (topic : String) :
    (((m.viewGroup g).partitionsOf topic).map Partition.key).Nodup := by
  rw [partitionsOf_viewGroup]
  split
  · exact h.nodup_key_subscribable topic
  · exact List.nodup_nil

/-- Whatever a target gives of a topic is of that topic. -/
theorem targetIn_wellFiled (h : Offers m) (hr : Registry m) {g : Group} {name : String}
    (hg : m.groups.group? name = some g) (c : String) :
    HoldingChange.Target.WellFiled (m.targetIn (m.viewGroup g) c) := by
  intro target htarget topic p hp
  have hn : (m.viewGroup g).ids.Nodup := Groups.nodup_ids hr.coherent hg
  obtain ⟨q, hq, hqp⟩ := exists_of_mem_targetIn hn (h.nodup_key_partitionsOf g topic) htarget hp
  rw [← Partition.topic_eq_of_key_eq hqp]
  exact h.topic_of_mem_subscribable (mem_partitionsOf_viewGroup.mp hq).2

end Offers

end Master

end ClusterMaster
