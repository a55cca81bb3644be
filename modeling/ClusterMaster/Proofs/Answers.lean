import ClusterMaster.Proofs.Offers

/-!
# What clients are told of brokers

A producer asks with the topics it publishes to and with the version of the broker list that it
has; it is told who accepts publishing to each of them, and is sent the list when its version is
not that of the store. Consumers are given the partitions that can be subscribed to, in order.

    an accepted call is answered from the master it leads to                  (answer_of_publishes)
    h ∈ m.publishable topic ↔
      a registered broker offers h of the topic, and h accepts publishing         (mem_publishable)
    m.subscribable topic is strictly ascending                       (pairwise_before_subscribable)
-/

namespace ClusterMaster

/-- The topics that a producer publishes to by a call, and the version of the list it has. -/
def Operation.publishes? : Operation → Option (NameSet × UInt64)
  | .producerRegister r => some (r.topics, r.version)
  | .producerHeartbeat r => some (r.topics, r.version)
  | _ => none

namespace Master

variable {m : Master} {op : Operation} {topic : String} {topics : NameSet} {version : UInt64}

/-! ## Producers -/

theorem producerRegister_cases (m : Master) (r : ProducerRegister) :
    (∃ m', m.producerRegister r = (.ok (m'.producerAnswer r.topics r.version), m')) ∨
      ∃ e m', m.producerRegister r = (.error e, m') := by
  unfold producerRegister allow
  split
  · exact .inr ⟨_, _, rfl⟩
  · exact .inl ⟨_, rfl⟩

theorem producerHeartbeat_cases (m : Master) (r : ProducerHeartbeat) :
    (∃ m', m.producerHeartbeat r = (.ok (m'.producerAnswer r.topics r.version), m')) ∨
      ∃ e m', m.producerHeartbeat r = (.error e, m') := by
  unfold producerHeartbeat allow
  split
  · exact .inr ⟨_, _, rfl⟩
  · simp only []
    split
    · exact .inr ⟨_, _, rfl⟩
    · exact .inl ⟨_, rfl⟩

/-- The answer to a producer is about the master after the call. -/
theorem answer_of_publishes {a : ProducerAnswer} (hop : op.publishes? = some (topics, version))
    (ha : (m.perform op).1 = .ok (.producer a)) :
    a = (m.after op).producerAnswer topics version := by
  cases op with
  | producerRegister r =>
    obtain ⟨rfl, rfl⟩ := Prod.mk.inj (Option.some.inj hop)
    have hperform : m.perform (.producerRegister r) =
        ((m.producerRegister r).1.map .producer, (m.producerRegister r).2) := rfl
    rcases producerRegister_cases m r with ⟨m', he⟩ | ⟨e, m', he⟩
    · rw [after]
      rw [hperform, he] at ha ⊢
      exact (Answer.producer.inj (Except.ok.inj ha)).symm
    · rw [hperform, he] at ha
      cases ha
  | producerHeartbeat r =>
    obtain ⟨rfl, rfl⟩ := Prod.mk.inj (Option.some.inj hop)
    have hperform : m.perform (.producerHeartbeat r) =
        ((m.producerHeartbeat r).1.map .producer, (m.producerHeartbeat r).2) := rfl
    rcases producerHeartbeat_cases m r with ⟨m', he⟩ | ⟨e, m', he⟩
    · rw [after]
      rw [hperform, he] at ha ⊢
      exact (Answer.producer.inj (Except.ok.inj ha)).symm
    · rw [hperform, he] at ha
      cases ha
  | _ => cases hop

theorem class?_of_publishes (hop : op.publishes? = some (topics, version)) :
    op.class? = some .producer := by
  cases op with
  | producerRegister r => rfl
  | producerHeartbeat r => rfl
  | _ => cases hop

/-- A call of a producer leaves brokers and their configuration as they are. -/
theorem sameBrokers_of_publishes (hop : op.publishes? = some (topics, version)) (m : Master) :
    SameBrokers m (m.after op) :=
  (differsIn_after (class?_of_publishes hop) m).sameBrokers (by decide)

theorem mem_offersOf {h : HostedTopic} :
    h ∈ m.topology.offersOf topic ↔ ∃ id, m.topology.hosted? topic id = some h := by
  unfold Topology.offersOf
  rw [List.mem_filterMap]
  constructor
  · rintro ⟨⟨⟨t, id⟩, h'⟩, he, hsome⟩
    simp only [Option.ite_none_right_eq_some, Option.some.injEq] at hsome
    obtain ⟨rfl, rfl⟩ := hsome
    exact ⟨id, Table.get?_eq_some_iff.mpr he⟩
  · rintro ⟨id, hget⟩
    exact ⟨((topic, id), h), Table.get?_eq_some_iff.mp hget, by simp⟩

theorem mem_publishable {h : HostedTopic} : h ∈ m.publishable topic ↔
    (∃ id, m.topology.hosted? topic id = some h) ∧ h.acceptPublish = true ∧
      m.brokers.contains h.broker = true := by
  unfold publishable
  rw [List.mem_filter, mem_offersOf, Bool.and_eq_true]

theorem get?_producerAnswer : (m.producerAnswer topics version).topics.get? topic =
    if topic ∈ topics then some (m.publishable topic) else none := by
  have hkeys : ((topics.toList.map fun t => (t, m.publishable t)).map Prod.fst).Nodup := by
    rw [List.map_map]
    simpa [Function.comp_def] using KeySet.nodup_toList topics
  apply Option.ext
  intro offers
  show (Table.ofList (topics.toList.map fun t => (t, m.publishable t))).get? topic = some offers ↔ _
  rw [Table.get?_ofList_of_nodup hkeys, List.mem_map]
  simp only [Option.ite_none_right_eq_some, Option.some.injEq, Prod.mk.injEq, KeySet.mem_toList]
  constructor
  · rintro ⟨t, ht, rfl, rfl⟩
    exact ⟨ht, rfl⟩
  · rintro ⟨ht, rfl⟩
    exact ⟨topic, ht, rfl, rfl⟩

namespace Offers

theorem nodup_publishable (h : Offers m) (topic : String) : (m.publishable topic).Nodup :=
  (List.Nodup.of_map _ (h.nodup_broker_offersOf topic)).filter _

/-! ## Consumers -/

/-- The partitions of a topic are sorted, and no two of them have the same place in the order. -/
theorem pairwise_before_subscribable (h : Offers m) (topic : String) :
    (m.subscribable topic).Pairwise fun p q => p.before q = true := by
  have hsorted : (m.subscribable topic).Pairwise fun p q => (!q.before p) = true := by
    refine List.pairwise_mergeSort (fun p q r hpq hqr => ?_) (fun p q => ?_) _
    · rw [Bool.not_eq_true'] at hpq hqr ⊢
      exact Key.not_before_trans hqr hpq
    · cases hqp : q.before p with
      | false => rfl
      | true =>
        have hpq : p.before q = false := Key.before_asymm hqp
        rw [hpq]
        rfl
  refine hsorted.imp₂ (fun p q hle hne => ?_) (List.pairwise_map.mp (h.nodup_key_subscribable topic))
  rw [Bool.not_eq_true'] at hle
  by_contra hnot
  have hid : p.identity = q.identity := Key.eq_of_not_before (Bool.eq_false_iff.mpr hnot) hle
  exact hne (Partition.key_eq_key_iff.mpr hid)

end Offers

end Master

end ClusterMaster
