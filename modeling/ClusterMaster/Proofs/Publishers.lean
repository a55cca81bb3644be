import ClusterMaster.Proofs.Attendance

/-!
# Which producers publish to a topic

The topology lists the producers that publish to a topic, next to what the producers say
themselves. A producer that registers anew, or sends a heartbeat with other topics, has to leave
the lists of its old topics before it enters those of its new ones. Since the topics that are taken
away are those it was registered with, and those are the ones it is listed under, nothing of it is
left behind (`Mirrored.mem_unpublish`), and what comes next starts from a clean list.

    a producer is listed under a topic ↔ it is registered with it         (Reachable.mirrored)
    the list of a topic is the registered producers with that topic       (publishersOf_eq)
-/

namespace ClusterMaster

namespace Topology

variable {t : Topology} {topic producer x : String} {topics : NameSet}

theorem mem_publish : (topic, x) ∈ (t.publish producer topics).publications ↔
    producer = x ∧ topic ∈ topics ∨ (topic, x) ∈ t.publications := by
  show (topic, x) ∈ t.publications.insertAll (topics.toList.map fun y => (y, producer)) ↔ _
  rw [KeySet.mem_insertAll, List.mem_map]
  refine or_congr_left ?_
  constructor
  · rintro ⟨y, hy, he⟩
    obtain ⟨rfl, rfl⟩ := Prod.mk.inj he
    exact ⟨rfl, KeySet.mem_toList.mp hy⟩
  · rintro ⟨rfl, htopic⟩
    exact ⟨topic, KeySet.mem_toList.mpr htopic, rfl⟩

theorem mem_unpublish : (topic, x) ∈ (t.unpublish producer topics).publications ↔
    (topic, x) ∈ t.publications ∧ ¬ (x = producer ∧ topic ∈ topics) := by
  show (topic, x) ∈ t.publications.filter (fun p => !(p.2 == producer && decide (p.1 ∈ topics))) ↔ _
  rw [KeySet.mem_filter, Bool.not_eq_true', Bool.and_eq_false_imp, beq_iff_eq,
    decide_eq_false_iff_not, not_and]

/-- The producers of a topic are listed in ascending order. -/
theorem ascending_publishersOf (t : Topology) (topic : String) :
    (t.publishersOf topic).Pairwise fun a b => Key.before a b = true := by
  unfold publishersOf
  rw [List.pairwise_filterMap]
  refine t.publications.ascending.imp fun {p q} hbefore a ha b hb => ?_
  rw [Option.ite_none_right_eq_some, Option.some.injEq] at ha hb
  obtain ⟨htopic, rfl⟩ := ha
  obtain ⟨htopic', rfl⟩ := hb
  have hor : Key.before p.1 q.1 = true ∨ p.1 = q.1 ∧ Key.before p.2 q.2 = true := by
    simpa [Key.before] using hbefore
  rcases hor with hfirst | ⟨-, hsecond⟩
  · rw [htopic, htopic', Key.before_irrefl] at hfirst
    cases hfirst
  · exact hsecond

end Topology

namespace Master

variable {m m' : Master} {id x topic : String} {p : Producer}

/-! ## Producers and their topics -/

/-- A registered producer has the topic among its topics. -/
def Publishes (m : Master) (id topic : String) : Prop :=
  ∃ p, m.producers.get? id = some p ∧ topic ∈ p.topics

theorem publishes_insert (h : m'.producers = m.producers.insert id p) :
    m'.Publishes x topic ↔ id = x ∧ topic ∈ p.topics ∨ id ≠ x ∧ m.Publishes x topic := by
  unfold Publishes
  rw [h, Table.get?_insert]
  by_cases hx : id = x <;> simp [hx]

theorem publishes_erase (id : String) (h : m'.producers = m.producers.erase id) :
    m'.Publishes x topic ↔ id ≠ x ∧ m.Publishes x topic := by
  unfold Publishes
  rw [h, Table.get?_erase]
  by_cases hx : id = x <;> simp [hx]

/-- Every producer is listed under exactly the topics that it is registered with. -/
def Mirrored (m : Master) : Prop :=
  ∀ id topic, (topic, id) ∈ m.topology.publications ↔ m.Publishes id topic

namespace Mirrored

theorem create {settings : Settings} {store : Store} (h : Master.create settings store = .ok m) :
    Mirrored m := by
  obtain rfl := eq_of_create h
  intro id topic
  constructor
  · exact fun hmem => absurd hmem KeySet.not_mem_empty
  · rintro ⟨p, hp, -⟩
    cases hp

theorem of_eq (h : Mirrored m) (hp : m'.producers = m.producers)
    (ht : m'.topology.publications = m.topology.publications) : Mirrored m' := by
  intro id topic
  unfold Publishes
  rw [ht, hp]
  exact h id topic

section

variable (h : Mirrored m) (hfiled : ∀ id p, m.producers.get? id = some p → p.id = id)

include h hfiled

/-- Taking the topics of a producer away takes it from all lists, and nobody else from any. -/
theorem mem_unpublish (hp : m.producers.get? id = some p) :
    (topic, x) ∈ (m.topology.unpublish p.id p.topics).publications ↔
      id ≠ x ∧ m.Publishes x topic := by
  rw [Topology.mem_unpublish, h x topic, hfiled id p hp]
  constructor
  · rintro ⟨hx, hnot⟩
    refine ⟨?_, hx⟩
    rintro rfl
    obtain ⟨q, hq, ht⟩ := hx
    obtain rfl := Option.some.inj (hp.symm.trans hq)
    exact hnot ⟨rfl, ht⟩
  · rintro ⟨hne, hx⟩
    exact ⟨hx, fun hand => hne hand.1.symm⟩

theorem enrolProducer (r : ProducerRegister) : Mirrored (m.enrolProducer r) := by
  intro x topic
  have hproducers : (m.enrolProducer r).producers = m.producers.insert r.producer _ := rfl
  rw [publishes_insert hproducers]
  unfold Master.enrolProducer
  cases hbefore : m.producers.get? r.producer with
  | none =>
    -- a producer that is not registered is not listed either
    have hnot : m.Publishes x topic → r.producer ≠ x := by
      rintro ⟨q, hq, -⟩ rfl
      rw [hbefore] at hq
      cases hq
    refine Topology.mem_publish.trans (or_congr_right ?_)
    rw [h x topic]
    exact (and_iff_right_of_imp hnot).symm
  | some before =>
    exact Topology.mem_publish.trans (or_congr_right (h.mem_unpublish hfiled hbefore))

theorem retopicProducer (hp : m.producers.get? id = some p) (topics : NameSet) :
    Mirrored (m.retopicProducer p topics) := by
  unfold Master.retopicProducer
  split
  · exact h
  · obtain rfl := hfiled id p hp
    intro x topic
    rw [publishes_insert (p := { p with topics }) rfl]
    exact Topology.mem_publish.trans (or_congr_right (h.mem_unpublish hfiled hp))

theorem dropProducer (id : String) : Mirrored (m.dropProducer id) := by
  unfold Master.dropProducer
  simp only []
  split
  · exact h
  · rename_i p hp
    intro x topic
    rw [publishes_erase (m := m) id rfl]
    exact h.mem_unpublish hfiled hp

theorem producerRegister (r : ProducerRegister) : Mirrored (m.producerRegister r).2 := by
  refine allow_snd h ?_
  exact h.enrolProducer hfiled r

theorem producerHeartbeat (r : ProducerHeartbeat) : Mirrored (m.producerHeartbeat r).2 := by
  refine allow_snd h ?_
  have hheard : Mirrored (m.hear .producer r.producer) := h
  simp only []
  split
  · exact hheard
  · rename_i p hp
    exact hheard.retopicProducer hfiled hp r.topics

theorem releaseProducer (id : String) : Mirrored (m.releaseProducer id).2 :=
  allow_snd h (h.dropProducer hfiled id)

end

/-- What does not concern producers leaves them and the lists alone. -/
theorem of_differsIn {c : NodeClass} (h : Mirrored m) (hd : DiffersIn c m m') (hc : c ≠ .producer) :
    Mirrored m' := by
  have htables := hd.tables
  cases c with
  | producer => exact absurd rfl hc
  | consumer =>
    obtain ⟨_, _, _, _, _, rfl⟩ := htables
    exact h
  | broker =>
    obtain ⟨_, _, _, _, rfl⟩ := htables
    exact h

/-- Every operation keeps the lists in step with the producers. -/
theorem after (h : Mirrored m) (ha : ProducersAttended m) (op : Operation) :
    Mirrored (m.after op) := by
  by_cases hop : op.class? = some .producer
  · cases op with
    | producerRegister r => exact h.producerRegister ha.filed r
    | producerHeartbeat r => exact h.producerHeartbeat ha.filed r
    | producerClose id => exact allow_snd h (h.releaseProducer ha.filed id)
    | expire c =>
      cases hop
      -- a scan may forget a producer before it is released, so it is not attended in between
      refine (expire_induction
        (p := fun m => (∀ id p, m.producers.get? id = some p → p.id = id) ∧ Mirrored m)
        (fun _ _ hm => hm) (fun _ _ hm => hm) (fun m key hm => ?_) ⟨ha.filed, h⟩).2
      exact ⟨filed_releaseProducer hm.1, hm.2.releaseProducer hm.1 key⟩
    | _ => cases hop
  · cases hclass : op.class? with
    | some c =>
      refine h.of_differsIn (differsIn_after hclass m) ?_
      rintro rfl
      exact hop hclass
    | none =>
      have hs := sameNodes_after hclass m
      exact h.of_eq hs.producers (congrArg Topology.publications hs.topology)

end Mirrored

theorem Reachable.mirrored (h : m.Reachable) : Mirrored m :=
  (h.induction (p := fun m => ProducersAttended m ∧ Mirrored m)
    (fun _ _ _ hf => ⟨.create hf, .create hf⟩)
    fun _ op hm => ⟨hm.1.after op, hm.2.after hm.1 op⟩).2

/-- Who publishes to a topic is who is registered with it, in ascending order. -/
theorem publishersOf_eq (h : m.Reachable) (topic : String) : m.topology.publishersOf topic =
    (m.producers.filter fun _ p => decide (topic ∈ p.topics)).keys.toList := by
  refine Key.ascending_ext (m.topology.ascending_publishersOf topic) (KeySet.ascending _) fun id => ?_
  rw [Topology.mem_publishersOf, h.mirrored id topic, KeySet.mem_toList, Table.mem_keys, Table.contains_iff]
  refine exists_congr fun p => ?_
  rw [Table.get?_filter, Option.filter_eq_some_iff, decide_eq_true_iff]

end Master

/-! ## Producers that change their topics -/

namespace Retopicked

open Master

def fresh : Master := { settings := {}, store := {} }

def register (producer : String) (topics : List String) : Operation :=
  .producerRegister { producer := producer, host := "h", topics := KeySet.ofList topics }

def beat (producer : String) (topics : List String) : Operation :=
  .producerHeartbeat { producer := producer, topics := KeySet.ofList topics }

/-- One producer registers anew, another one sends other topics, and both try to leave while the row
of the first is held. -/
def history : List Operation :=
  [register "p" ["t", "u"], register "q" ["u"], register "p" ["u", "v"], beat "q" ["t", "v"],
   .hold .producer "p", .producerClose "p", .producerClose "q"]

theorem reachable_run (ops : List Operation) : (fresh.run ops).Reachable :=
  ⟨{}, {}, fresh, ops, rfl, rfl⟩

theorem publishers_history :
    (fresh.run (history.take 4)).Reachable ∧
    (∀ topic, (fresh.run (history.take 4)).topology.publishersOf topic =
      ((fresh.run (history.take 4)).producers.filter fun _ p =>
        decide (topic ∈ p.topics)).keys.toList) ∧
    ["t", "u", "v"].map (fresh.run (history.take 4)).topology.publishersOf =
      [["q"], ["p"], ["p", "q"]] ∧
    ["t", "u", "v"].map (fresh.run history).topology.publishersOf = [[], ["p"], ["p"]] :=
  ⟨reachable_run _, publishersOf_eq (reachable_run _), by cbv, by cbv⟩

end Retopicked

end ClusterMaster
