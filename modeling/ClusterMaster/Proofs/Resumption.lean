import ClusterMaster.Proofs.Attendance
import ClusterMaster.Proofs.Exactness

/-!
# A release that stops can be taken up again

A release withdraws the topics of a broker one by one, in ascending order, and stops at the first
whose row is held. `withdrawAll` is what it has done by then, and `cleared` the master in which
nothing is left of the broker.

    every topic is withdrawn, or those before the first that is held     (withdrawTopics_cases)
    withdrawing takes nothing away that clearing would leave             (cleared_withdrawAll)
    a release that goes through leaves the broker cleared                (releaseBroker_of_ok)
    one that does not leaves a master that clears to the same            (cleared_releaseBroker)

So it does not matter how often a release has stopped before it goes through, nor where
(`release_of_attempts`). Each time, record and topology of the broker are cut back to the same
topics (`StoppedAt`), and everything else is left alone.
-/

namespace ClusterMaster

namespace Master

variable {m m' : Master} {id j : BrokerId} {topic t : String} {topics : List String}

/-! ## Nothing left of a broker -/

/-- The master without everything that it knows of a broker. -/
def cleared (m : Master) (id : BrokerId) : Master :=
  { m.forgetBroker id with
    topology := { m.topology with hosted := m.topology.hosted.filter fun k _ => decide (k.2 ≠ id) } }

theorem cleared_withdrawTopic (m : Master) (id : BrokerId) (t : String) :
    (m.withdrawTopic id t).cleared id = m.cleared id := by
  have hhosted : (m.topology.hosted.erase (t, id)).filter (fun k _ => decide (k.2 ≠ id)) =
      m.topology.hosted.filter fun k _ => decide (k.2 ≠ id) := by
    refine Table.ext_get? fun k => ?_
    rw [Table.get?_filter, Table.get?_filter, Table.get?_erase]
    by_cases hk : (t, id) = k
    · subst hk
      simp
    · rw [if_neg hk]
  have hoffers : (m.runs.offers.insert id ((m.runs.offer id).erase t)).erase id =
      m.runs.offers.erase id := by
    refine Table.ext_get? fun j => ?_
    rw [Table.get?_erase, Table.get?_erase, Table.get?_insert]
    by_cases hj : id = j
    · rw [if_pos hj, if_pos hj]
    · rw [if_neg hj, if_neg hj, if_neg hj]
  unfold cleared forgetBroker withdrawTopic Topology.withdraw BrokerRuns.remove BrokerRuns.setOffer forget
  simp only [hhosted, hoffers]

theorem cleared_withdrawAll (m : Master) (id : BrokerId) (topics : List String) :
    (m.withdrawAll id topics).cleared id = m.cleared id := by
  induction topics generalizing m with
  | nil => rfl
  | cons t ts ih => exact (ih (m.withdrawTopic id t)).trans (cleared_withdrawTopic m id t)

theorem cleared_cleared (m : Master) (id : BrokerId) : (m.cleared id).cleared id = m.cleared id := by
  have hhosted : (m.topology.hosted.filter fun k _ => decide (k.2 ≠ id)).filter
      (fun k _ => decide (k.2 ≠ id)) = m.topology.hosted.filter fun k _ => decide (k.2 ≠ id) := by
    refine Table.ext_get? fun k => ?_
    rw [Table.get?_filter, Table.get?_filter, Option.filter_filter]
    simp only [Bool.and_self]
  unfold cleared forgetBroker BrokerRuns.remove Brokers.remove forget Liveness.unregister
  simp only [hhosted, Table.erase_erase]

/-- A broker of which no topic is left is cleared by being forgotten. -/
theorem forgetBroker_eq_cleared (h : ∀ topic, m.topology.hosted? topic id = none) :
    m.forgetBroker id = m.cleared id := by
  have hhosted : m.topology.hosted.filter (fun k _ => decide (k.2 ≠ id)) = m.topology.hosted := by
    refine Table.ext_get? fun k => ?_
    rw [Table.get?_filter]
    by_cases hk : k.2 = id
    · have hnone : m.topology.hosted.get? k = none := by
        rw [← hk] at h
        exact h k.1
      rw [hnone]
      rfl
    · rw [decide_eq_true hk]
      cases m.topology.hosted.get? k <;> rfl
  unfold cleared
  rw [hhosted]
  rfl

/-! ## Releases -/

/-- What has been recorded of a broker and what is found of it are withdrawn, or the release stops
at the first topic whose row is held. -/
theorem releaseBroker_cases (m : Master) (id : BrokerId) :
    (∀ t ∈ m.topicsToWithdraw id, m.topicRows.isLocked t = false) ∧
      m.releaseBroker id = (.ok (), m.cleared id) ∨
    ∃ done t rest, (m.topicsToWithdraw id).toList = done ++ t :: rest ∧
      m.topicRows.isLocked t = true ∧ (∀ u ∈ done, m.topicRows.isLocked u = false) ∧
      m.releaseBroker id = (.error (.lockTimeout m.topicRows.name t), m.withdrawAll id done) := by
  unfold releaseBroker
  rcases withdrawTopics_cases m id (m.topicsToWithdraw id).toList with
    ⟨hfree, he⟩ | ⟨done, t, rest, hsplit, ht, hdone, he⟩
  · refine .inl ⟨hfree, ?_⟩
    rw [he]
    have hnone : ∀ topic,
        (m.withdrawAll id (m.topicsToWithdraw id).toList).topology.hosted? topic id = none := by
      intro topic
      rw [hosted?_withdrawAll]
      split
      · rfl
      · rename_i hnot
        rw [KeySet.mem_toList, mem_topicsToWithdraw, not_or, not_not] at hnot
        exact hnot.1
    show (Except.ok (), (m.withdrawAll id (m.topicsToWithdraw id).toList).forgetBroker id) = _
    rw [forgetBroker_eq_cleared hnone, cleared_withdrawAll]
  · refine .inr ⟨done, t, rest, hsplit, ht, hdone, ?_⟩
    rw [he]

theorem releaseBroker_of_ok (h : (m.releaseBroker id).1 = .ok ()) :
    (m.releaseBroker id).2 = m.cleared id := by
  rcases releaseBroker_cases m id with ⟨-, he⟩ | ⟨_, _, _, -, -, -, he⟩
  · rw [he]
  · rw [he] at h
    cases h

/-- However far a release has come, clearing what it leaves is clearing what there was. -/
theorem cleared_releaseBroker (m : Master) (id : BrokerId) :
    (m.releaseBroker id).2.cleared id = m.cleared id := by
  rcases releaseBroker_cases m id with ⟨-, he⟩ | ⟨done, _, _, -, -, -, he⟩
  · rw [he]
    exact cleared_cleared m id
  · rw [he]
    exact cleared_withdrawAll m id done

/-! ## Attempts -/

/-- The same master while the rows of these topics are held by others. -/
def holding (m : Master) (held : NameSet) : Master :=
  { m with topicRows := { m.topicRows with held } }

/-- The master once it has tried to release a broker for each of these sets of topics, whose rows
were held meanwhile. -/
def attempts (m : Master) (id : BrokerId) (helds : List NameSet) : Master :=
  helds.foldl (fun m held => ((m.holding held).releaseBroker id).2) m

theorem cleared_holding (m : Master) (id : BrokerId) (held : NameSet) :
    (m.holding held).cleared id = (m.cleared id).holding held := rfl

/-- Attempts, whether they stop or not, leave a master that clears to the same, apart from the rows
that are held now. -/
theorem cleared_attempts (m : Master) (id : BrokerId) (helds : List NameSet) (held : NameSet) :
    ((m.attempts id helds).cleared id).holding held = (m.cleared id).holding held := by
  induction helds generalizing m with
  | nil => rfl
  | cons first rest ih =>
    show ((((m.holding first).releaseBroker id).2.attempts id rest).cleared id).holding held = _
    rw [ih, cleared_releaseBroker, cleared_holding]
    rfl

/-- A release that goes through after any attempts does what one that goes through at once does. -/
theorem release_of_attempts {helds : List NameSet} {last once : NameSet}
    (hlast : (((m.attempts id helds).holding last).releaseBroker id).1 = .ok ())
    (honce : ((m.holding once).releaseBroker id).1 = .ok ()) :
    (((m.attempts id helds).holding last).releaseBroker id).2.holding once =
      ((m.holding once).releaseBroker id).2 := by
  calc (((m.attempts id helds).holding last).releaseBroker id).2.holding once
      = (((m.attempts id helds).holding last).cleared id).holding once := by
        rw [releaseBroker_of_ok hlast]
    _ = ((m.attempts id helds).cleared id).holding once := rfl
    _ = (m.cleared id).holding once := cleared_attempts m id helds once
    _ = ((m.holding once).releaseBroker id).2 := by rw [releaseBroker_of_ok honce, cleared_holding]

/-! ## All of a broker, or up to a held topic -/

/-- Nothing is left of a broker. -/
structure Vanished (id : BrokerId) (m : Master) : Prop where
  hosted? : ∀ topic, m.topology.hosted? topic id = none
  broker? : m.brokers.broker? id = none
  report? : m.brokers.report? id = none
  lifecycle? : m.runs.lifecycle? id = none
  offer? : m.runs.offers.get? id = none
  untracked : m.liveness.isRegistered .broker (brokerKey id) = false

/-- A release has stopped at a topic: those before it are gone from topology and record, which agree
as they did, and what else is known of the broker is as before. -/
structure StoppedAt (topic : String) (id : BrokerId) (m m' : Master) : Prop where
  brokers : m'.brokers = m.brokers
  lifecycles : m'.runs.lifecycles = m.runs.lifecycles
  liveness : m'.liveness = m.liveness
  hosted? : ∀ t, m'.topology.hosted? t id = if t < topic then none else m.topology.hosted? t id
  recorded : ∀ t, (m'.runs.offer id).get? t = m'.topology.hosted? t id

/-- A release takes everything of a broker away, or can be taken up again where it has stopped. -/
structure Resumes (m : Master) (id : BrokerId) : Prop where
  /-- Which of the two it is depends on the rows of the broker's topics. -/
  either :
    (∀ t, m.topology.hosted? t id ≠ none → m.topicRows.isLocked t = false) ∧
      (m.releaseBroker id).1 = .ok () ∧ Vanished id (m.releaseBroker id).2 ∨
    ∃ topic, m.topology.hosted? topic id ≠ none ∧ m.topicRows.isLocked topic = true ∧
      (∀ t < topic, m.topology.hosted? t id ≠ none → m.topicRows.isLocked t = false) ∧
      (m.releaseBroker id).1 = .error (.lockTimeout m.topicRows.name topic) ∧
      (m.releaseBroker id).2.brokers.contains id = true ∧
      StoppedAt topic id m (m.releaseBroker id).2
  others : ∀ j, id ≠ j → Alike j m (m.releaseBroker id).2 ∧
    (m.releaseBroker id).2.liveness.lastSeen.get? (.broker, brokerKey j) =
      m.liveness.lastSeen.get? (.broker, brokerKey j)
  elsewhere : DiffersIn .broker m (m.releaseBroker id).2
  attempts : ∀ helds last once,
    (((m.attempts id helds).holding last).releaseBroker id).1 = .ok () →
    ((m.holding once).releaseBroker id).1 = .ok () →
    (((m.attempts id helds).holding last).releaseBroker id).2.holding once =
      ((m.holding once).releaseBroker id).2

theorem vanished_cleared (m : Master) (id : BrokerId) : Vanished id (m.cleared id) where
  hosted? topic := by
    show (m.topology.hosted.filter fun k _ => decide (k.2 ≠ id)).get? (topic, id) = none
    rw [Table.get?_filter, Option.filter_eq_none_iff]
    intro _ _ h
    exact of_decide_eq_true h rfl
  broker? := Table.get?_erase_self
  report? := Table.get?_erase_self
  lifecycle? := Table.get?_erase_self
  offer? := Table.get?_erase_self
  untracked := by
    show (m.forget .broker (brokerKey id)).liveness.isRegistered .broker (brokerKey id) = false
    rw [isRegistered_forget, decide_eq_true rfl]
    rfl

/-- The topics that have been listed before another one are those before it. -/
theorem mem_done_iff {s : NameSet} {done rest : List String} (h : s.toList = done ++ t :: rest) :
    topic ∈ done ↔ topic ∈ s ∧ topic < t := by
  have hasc := s.ascending
  rw [h, List.pairwise_append, List.pairwise_cons] at hasc
  obtain ⟨-, ⟨hrest, -⟩, hdone⟩ := hasc
  rw [← KeySet.mem_toList, h, List.mem_append, List.mem_cons]
  constructor
  · exact fun hmem => ⟨.inl hmem, of_decide_eq_true (hdone topic hmem t List.mem_cons_self)⟩
  · rintro ⟨hmem | rfl | hmem, hlt⟩
    · exact hmem
    · exact absurd hlt (String.lt_irrefl topic)
    · exact absurd (String.lt_trans hlt (of_decide_eq_true (hrest topic hmem))) (String.lt_irrefl topic)

/-- Whichever rows are held, a release of a registered broker whose record agrees with the topology
takes everything of it away, or can be taken up again. -/
theorem releaseBroker_resumes (hid : m.brokers.contains id = true)
    (hrecorded : ∀ topic, (m.runs.offer id).get? topic = m.topology.hosted? topic id) :
    Resumes m id where
  either := by
    have hmem : ∀ t, t ∈ m.topicsToWithdraw id ↔ m.topology.hosted? t id ≠ none := by
      intro t
      rw [mem_topicsToWithdraw, hrecorded, or_self]
    rcases releaseBroker_cases m id with ⟨hfree, he⟩ | ⟨done, topic, rest, hsplit, htopic, hdone, he⟩
    · rw [he]
      exact .inl ⟨fun t ht => hfree t ((hmem t).mpr ht), rfl, vanished_cleared m id⟩
    · have hbefore : ∀ t, t ∈ done ↔ m.topology.hosted? t id ≠ none ∧ t < topic := by
        intro t
        rw [mem_done_iff hsplit, hmem]
      have hhosted : m.topology.hosted? topic id ≠ none := by
        rw [← hmem, ← KeySet.mem_toList, hsplit]
        exact List.mem_append_right done List.mem_cons_self
      obtain ⟨hosted, offers, htouches⟩ := withdrawAll_touches m id done
      refine .inr ⟨topic, hhosted, htopic, fun t ht hne => hdone t ((hbefore t).mpr ⟨hne, ht⟩), ?_⟩
      rw [he]
      refine ⟨rfl, ?_, ?_, ?_, ?_, fun t => ?_, fun t => ?_⟩
      · rw [htouches]
        exact hid
      · rw [htouches]
      · rw [htouches]
      · rw [htouches]
      · rw [hosted?_withdrawAll]
        by_cases ht : t < topic
        · rw [if_pos ht]
          by_cases hne : m.topology.hosted? t id = none
          · rw [hne, ite_self]
          · rw [if_pos ((hbefore t).mpr ⟨hne, ht⟩)]
        · rw [if_neg ht, if_neg fun hin => ht ((hbefore t).mp hin).2]
      · rw [hosted?_withdrawAll, offer_withdrawAll, hrecorded]
  others j hj := by
    refine ⟨(released_releaseBroker m id).others j hj, ?_⟩
    have hkey : (NodeClass.broker, brokerKey id) ≠ (.broker, brokerKey j) :=
      fun h => hj (brokerKey_inj.mp (congrArg Prod.snd h))
    rcases releaseBroker_cases m id with ⟨-, he⟩ | ⟨done, _, _, -, -, -, he⟩
    · rw [he]
      exact Table.get?_erase_of_ne hkey
    · obtain ⟨_, _, htouches⟩ := withdrawAll_touches m id done
      rw [he, htouches]
  elsewhere := differsIn_releaseBroker m id
  attempts _ _ _ := release_of_attempts

end Master

/-! ## A release that stops at the second topic -/

namespace Serving

/-- The broker is registered, and the row of its second topic is held. -/
def hindered : Master := fresh.run [registering, .hold .topic "u"]

theorem hindered_resumes : hindered.brokers.contains 1 = true ∧
    (∀ topic, (hindered.runs.offer 1).get? topic = hindered.topology.hosted? topic 1) ∧
    Master.Resumes hindered 1 ∧
    (hindered.releaseBroker 1).1 = .error (.lockTimeout "topic" "u") ∧
    (hindered.releaseBroker 1).2.topology.hosted? "t" 1 = none ∧
    (hindered.releaseBroker 1).2.topology.hosted? "u" 1 = some (shown "u" 1 true) ∧
    (((hindered.attempts 1 [.ofList ["u"]]).holding .empty).releaseBroker 1).1 = .ok () := by
  have hid : hindered.brokers.contains 1 = true := rfl
  have hrecorded : ∀ topic,
      (hindered.runs.offer 1).get? topic = hindered.topology.hosted? topic 1 := by
    -- record and topology are those from before the row was held
    have hexact : (fresh.run [registering]).Exact _ := (Master.Exact.create create_fresh).run
      (Master.Hosting.create store_edited.sound create_fresh) fun topic hmem => by
        simp [registering] at hmem
    exact fun topic => (hexact.recorded 1 topic).symm
  exact ⟨hid, hrecorded, Master.releaseBroker_resumes hid hrecorded, rfl, rfl, rfl, rfl⟩

end Serving

end ClusterMaster
