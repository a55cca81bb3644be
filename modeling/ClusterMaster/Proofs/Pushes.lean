import ClusterMaster.Proofs.BrokerFrames

/-!
# What pushes and releases do to the topology

A push writes the topics in which the due offer of a broker differs from the recorded one, up to
the first whose row is held. Topics in which the two agree are not written, whatever the topology
holds there. A release takes the recorded topics and those found in the topology, and keeps the
record in step with every topic that it withdraws.

    each topic is as before, or differs from the record and is now as due       (Pushed.either)
    after a push that goes through, the due offer is recorded                   (Pushed.recorded)
    after one that does not, the record is what it was                            (Pushed.failed)
    each topic is as before in topology and record, or gone from both         (Released.either)
    after a release that goes through, nothing is known of the broker            (Released.gone)

Where no row is held, pushes and releases go through (`Pushed.free`, `Released.free`).
-/

namespace ClusterMaster

/-! ## Differences of offers -/

/-- What a write leaves of its topic. -/
def OfferWrite.value : OfferWrite → Option HostedTopic
  | withdraw _ => none
  | offer hosted => some hosted

namespace OfferChange

/-- The writes that carry out a change. -/
def writes (d : OfferChange) : List OfferWrite := d.removed.map .withdraw ++ d.changed.map .offer

variable {old new : Table String HostedTopic} {topic : String}

theorem mem_removed : topic ∈ (between old new).removed ↔
    old.get? topic ≠ none ∧ new.get? topic = none := by
  show topic ∈ old.keys.toList.filter (fun t => !new.contains t) ↔ _
  rw [List.mem_filter, KeySet.mem_toList, Table.mem_keys, Table.contains, Table.contains,
    Option.isSome_iff_ne_none, Bool.not_eq_true', Option.isSome_eq_false_iff, Option.isNone_iff_eq_none]

theorem mem_changed {h : HostedTopic} : h ∈ (between old new).changed ↔
    ∃ topic, new.get? topic = some h ∧ old.get? topic ≠ some h := by
  show h ∈ (new.filter fun t h => decide (old.get? t ≠ some h)).entries.map Prod.snd ↔ _
  rw [List.mem_map]
  constructor
  · rintro ⟨⟨t, h'⟩, he, rfl⟩
    rw [Table.mem_entries_iff, Table.get?_filter, Option.filter_eq_some_iff] at he
    exact ⟨t, he.1, of_decide_eq_true he.2⟩
  · rintro ⟨t, hnew, hold⟩
    refine ⟨(t, h), ?_, rfl⟩
    rw [Table.mem_entries_iff, Table.get?_filter, Option.filter_eq_some_iff]
    exact ⟨hnew, decide_eq_true hold⟩

/-- Nothing has to change exactly when the offers are the same. -/
theorem isEmpty_iff : (between old new).isEmpty = true ↔ old = new := by
  unfold isEmpty
  rw [Bool.and_eq_true, List.isEmpty_iff, List.isEmpty_iff]
  constructor
  · rintro ⟨hremoved, hchanged⟩
    refine Table.ext_get? fun t => ?_
    cases hnew : new.get? t with
    | none =>
      by_contra hold
      exact List.not_mem_nil (hremoved ▸ mem_removed.mpr ⟨hold, hnew⟩)
    | some h =>
      by_contra hold
      exact List.not_mem_nil (hchanged ▸ mem_changed.mpr ⟨t, hnew, hold⟩)
  · rintro rfl
    refine ⟨List.eq_nil_iff_forall_not_mem.mpr fun t ht => ?_,
      List.eq_nil_iff_forall_not_mem.mpr fun h hh => ?_⟩
    · obtain ⟨hne, heq⟩ := mem_removed.mp ht
      exact hne heq
    · obtain ⟨t, heq, hne⟩ := mem_changed.mp hh
      exact hne heq

/-- The topics that are written are those in which the offers differ. -/
theorem mem_topics_writes (hnew : ∀ topic h, new.get? topic = some h → h.topic = topic) :
    topic ∈ (between old new).writes.map OfferWrite.topic ↔ old.get? topic ≠ new.get? topic := by
  unfold writes
  rw [List.map_append, List.map_map, List.map_map, List.mem_append]
  constructor
  · rintro (h | h)
    · obtain ⟨t, ht, rfl⟩ := List.mem_map.mp h
      obtain ⟨hold, hnone⟩ := mem_removed.mp ht
      show old.get? t ≠ new.get? t
      rw [hnone]
      exact hold
    · obtain ⟨hosted, hh, rfl⟩ := List.mem_map.mp h
      obtain ⟨t, hsome, hold⟩ := mem_changed.mp hh
      show old.get? hosted.topic ≠ new.get? hosted.topic
      rw [hnew t hosted hsome, hsome]
      exact hold
  · intro hne
    cases hget : new.get? topic with
    | none =>
      rw [hget] at hne
      exact .inl (List.mem_map.mpr ⟨topic, mem_removed.mpr ⟨hne, hget⟩, rfl⟩)
    | some h =>
      rw [hget] at hne
      exact .inr (List.mem_map.mpr ⟨h, mem_changed.mpr ⟨topic, hget, hne⟩, hnew topic h hget⟩)

/-- Every write leaves of its topic what the new offer says. -/
theorem value_of_mem_writes (hnew : ∀ topic h, new.get? topic = some h → h.topic = topic)
    {w : OfferWrite} (hw : w ∈ (between old new).writes) : w.value = new.get? w.topic := by
  rcases List.mem_append.mp hw with h | h
  · obtain ⟨t, ht, rfl⟩ := List.mem_map.mp h
    exact (mem_removed.mp ht).2.symm
  · obtain ⟨hosted, hh, rfl⟩ := List.mem_map.mp h
    obtain ⟨t, hsome, -⟩ := mem_changed.mp hh
    show some hosted = new.get? hosted.topic
    rw [hnew t hosted hsome, hsome]

theorem of_offer_mem_writes {h : HostedTopic} (hw : .offer h ∈ (between old new).writes) :
    ∃ topic, new.get? topic = some h := by
  rcases List.mem_append.mp hw with hw | hw
  · obtain ⟨t, -, ht⟩ := List.mem_map.mp hw
    cases ht
  · obtain ⟨h', hh, heq⟩ := List.mem_map.mp hw
    obtain rfl := OfferWrite.offer.inj heq
    obtain ⟨t, hsome, -⟩ := mem_changed.mp hh
    exact ⟨t, hsome⟩

end OfferChange

namespace Master

variable {m m' m'' : Master} {id j : BrokerId} {topic : String} {topics : List String}

/-! ## What is known of one broker -/

/-- The same is known of a broker, and it offers the same. -/
structure Alike (id : BrokerId) (m m' : Master) : Prop where
  broker? : m'.brokers.broker? id = m.brokers.broker? id
  report? : m'.brokers.report? id = m.brokers.report? id
  lifecycle? : m'.runs.lifecycle? id = m.runs.lifecycle? id
  offer : m'.runs.offer id = m.runs.offer id
  hosted? : ∀ topic, m'.topology.hosted? topic id = m.topology.hosted? topic id

namespace Alike

theorem refl (id : BrokerId) (m : Master) : Alike id m m := ⟨rfl, rfl, rfl, rfl, fun _ => rfl⟩

theorem trans (h : Alike id m m') (h' : Alike id m' m'') : Alike id m m'' where
  broker? := h'.broker?.trans h.broker?
  report? := h'.report?.trans h.report?
  lifecycle? := h'.lifecycle?.trans h.lifecycle?
  offer := h'.offer.trans h.offer
  hosted? topic := (h'.hosted? topic).trans (h.hosted? topic)

theorem of_eq (hb : m'.brokers = m.brokers) (hr : m'.runs = m.runs)
    (ht : m'.topology.hosted = m.topology.hosted) (id : BrokerId) : Alike id m m' where
  broker? := by rw [hb]
  report? := by rw [hb]
  lifecycle? := by rw [hr]
  offer := by rw [hr]
  hosted? topic := by
    unfold Topology.hosted?
    rw [ht]

end Alike

theorem SameBrokers.alike (h : SameBrokers m m') (id : BrokerId) : Alike id m m' :=
  .of_eq h.brokers h.runs h.hosted id

/-! ## Writes -/

theorem hosted?_write {w : OfferWrite} (hw : ∀ h, w = .offer h → h.broker = id) :
    (m.write id w).topology.hosted? topic j =
      if w.topic = topic ∧ id = j then w.value else m.topology.hosted? topic j := by
  cases w with
  | withdraw t =>
    show (m.topology.hosted.erase (t, id)).get? (topic, j) = _
    rw [Table.get?_erase]
    simp only [Prod.mk.injEq, OfferWrite.topic, OfferWrite.value]
    rfl
  | offer h =>
    obtain rfl := hw h rfl
    show (m.topology.hosted.insert (h.topic, h.broker) h).get? (topic, j) = _
    rw [Table.get?_insert]
    simp only [Prod.mk.injEq, OfferWrite.topic, OfferWrite.value]
    rfl

/-- What carrying out writes of a broker leads to, each of which leaves of its topic what is due. -/
structure Written (m : Master) (id : BrokerId) (topics : List String)
    (due : String → Option HostedTopic) (o : Outcome Unit) : Prop where
  frame : ∃ hosted, o.2 = { m with topology := { m.topology with hosted } }
  others : ∀ j, id ≠ j → ∀ topic, o.2.topology.hosted? topic j = m.topology.hosted? topic j
  either : ∀ topic, o.2.topology.hosted? topic id = m.topology.hosted? topic id ∨
    topic ∈ topics ∧ o.2.topology.hosted? topic id = due topic
  written : o.1 = .ok () → ∀ topic ∈ topics, o.2.topology.hosted? topic id = due topic
  free : (∀ topic ∈ topics, m.topicRows.isLocked topic = false) → o.1 = .ok ()

theorem written_writeAll (m : Master) (id : BrokerId) (due : String → Option HostedTopic)
    (ws : List OfferWrite)
    (hws : ∀ w ∈ ws, w.value = due w.topic ∧ ∀ h, w = .offer h → h.broker = id) :
    Written m id (ws.map OfferWrite.topic) due (m.writeAll id ws) := by
  induction ws generalizing m with
  | nil => exact ⟨⟨m.topology.hosted, rfl⟩, fun _ _ _ => rfl, fun _ => .inl rfl,
      fun _ _ h => absurd h List.not_mem_nil, fun _ => rfl⟩
  | cons w ws ih =>
    obtain ⟨hvalue, hbroker⟩ := hws w List.mem_cons_self
    have hstep : ∀ topic j, (m.write id w).topology.hosted? topic j =
        if w.topic = topic ∧ id = j then due w.topic else m.topology.hosted? topic j := by
      intro topic j
      rw [hosted?_write hbroker, hvalue]
    unfold writeAll
    cases hfree : m.topicRows.checkFree w.topic with
    | error e =>
      refine ⟨⟨m.topology.hosted, rfl⟩, fun _ _ _ => rfl, fun _ => .inl rfl, fun hok => ?_,
        fun h => ?_⟩
      · cases hok
      · rw [checkFree_ok_iff.mpr (h w.topic List.mem_cons_self)] at hfree
        cases hfree
    | ok u =>
      have h := ih (m.write id w) fun w' hw' => hws w' (List.mem_cons_of_mem _ hw')
      have hframe : ∃ hosted, m.write id w = { m with topology := { m.topology with hosted } } := by
        cases w <;> exact ⟨_, rfl⟩
      refine ⟨?_, fun j hj topic => ?_, fun topic => ?_, fun hok topic ht => ?_, fun hall => ?_⟩
      · obtain ⟨_, hframe⟩ := hframe
        obtain ⟨hosted, hrest⟩ := h.frame
        exact ⟨hosted, by rw [hrest, hframe]⟩
      · rw [h.others j hj topic, hstep, if_neg fun hw => hj hw.2]
      · rcases h.either topic with hsame | ⟨ht, hdue⟩
        · rw [hstep] at hsame
          by_cases hw : w.topic = topic
          · rw [if_pos ⟨hw, rfl⟩, hw] at hsame
            exact .inr ⟨hw ▸ List.mem_cons_self, hsame⟩
          · rw [if_neg fun h => hw h.1] at hsame
            exact .inl hsame
        · exact .inr ⟨List.mem_cons_of_mem _ ht, hdue⟩
      · rcases List.mem_cons.mp ht with rfl | ht
        · rcases h.either w.topic with hsame | ⟨-, hdue⟩
          · rw [hsame, hstep, if_pos ⟨rfl, rfl⟩]
          · exact hdue
        · exact h.written hok topic ht
      · obtain ⟨_, hframe⟩ := hframe
        refine h.free fun topic ht => ?_
        rw [hframe]
        exact hall topic (List.mem_cons_of_mem _ ht)

/-! ## Pushes -/

/-- What a push of a broker leads to when an offer is due. -/
structure Pushed (m : Master) (id : BrokerId) (due : Table String HostedTopic)
    (o : Outcome Unit) : Prop where
  store : o.2.store = m.store
  topicRows : o.2.topicRows = m.topicRows
  brokers : o.2.brokers = m.brokers
  lifecycles : o.2.runs.lifecycles = m.runs.lifecycles
  others : ∀ j, id ≠ j → Alike j m o.2
  either : ∀ topic, o.2.topology.hosted? topic id = m.topology.hosted? topic id ∨
    (m.runs.offer id).get? topic ≠ due.get? topic ∧ o.2.topology.hosted? topic id = due.get? topic
  written : o.1 = .ok () → ∀ topic, (m.runs.offer id).get? topic ≠ due.get? topic →
    o.2.topology.hosted? topic id = due.get? topic
  recorded : o.1 = .ok () → o.2.runs.offer id = due
  failed : o.1 ≠ .ok () → o.2.runs.offer id = m.runs.offer id
  free : (∀ topic, m.topicRows.isLocked topic = false) → o.1 = .ok ()

theorem offer_setOffer {r : BrokerRuns} {offer : Table String HostedTopic} :
    (r.setOffer id offer).offer j = if id = j then offer else r.offer j := by
  show ((r.offers.insert id offer).get? j).getD _ = _
  rw [Table.get?_insert]
  split <;> rfl

/-- Every topic of the offer that is due is filed under its name and the broker. -/
def Filed (id : BrokerId) (offer : Table String HostedTopic) : Prop :=
  ∀ topic h, offer.get? topic = some h → h.topic = topic ∧ h.broker = id

theorem pushed_pushOffer {due : Table String HostedTopic} (hd : m.dueOffer? id = some due)
    (hfiled : Filed id due) : Pushed m id due (m.pushOffer id) := by
  have htopic : ∀ topic h, due.get? topic = some h → h.topic = topic :=
    fun topic h hh => (hfiled topic h hh).1
  have hpush : m.pushOffer id =
      if (OfferChange.between (m.runs.offer id) due).isEmpty then (.ok (), m)
      else m.carryOut ⟨id, (OfferChange.between (m.runs.offer id) due).writes, due⟩ := by
    unfold pushOffer duePush?
    simp only [hd, Option.bind_some]
    split_ifs <;> rfl
  rw [hpush]
  split
  · -- nothing has to change, because the record is what is due
    rename_i hempty
    have hsame := OfferChange.isEmpty_iff.mp hempty
    exact ⟨rfl, rfl, rfl, rfl, fun j _ => .refl j m, fun _ => .inl rfl,
      fun _ topic hne => absurd (by rw [hsame]) hne, fun _ => hsame, fun h => absurd rfl h,
      fun _ => rfl⟩
  · have hw := written_writeAll m id due.get? (OfferChange.between (m.runs.offer id) due).writes
      fun w hw => ⟨OfferChange.value_of_mem_writes htopic hw, fun h heq => by
        obtain ⟨topic, hsome⟩ := OfferChange.of_offer_mem_writes (heq ▸ hw)
        exact (hfiled topic h hsome).2⟩
    have hmem : ∀ topic, topic ∈ (OfferChange.between (m.runs.offer id) due).writes.map
        OfferWrite.topic ↔ (m.runs.offer id).get? topic ≠ due.get? topic :=
      fun topic => OfferChange.mem_topics_writes htopic
    unfold carryOut
    simp only []
    generalize m.writeAll id (OfferChange.between (m.runs.offer id) due).writes = o at hw
    obtain ⟨hosted, hframe⟩ := hw.frame
    have hothers : ∀ j, id ≠ j → ∀ runs : BrokerRuns, runs.lifecycles = m.runs.lifecycles →
        runs.offer j = m.runs.offer j → Alike j m { o.2 with runs } := by
      intro j hj runs hlifecycles hoffer
      refine ⟨?_, ?_, ?_, hoffer, hw.others j hj⟩
      · rw [hframe]
      · rw [hframe]
      · unfold BrokerRuns.lifecycle?
        rw [hlifecycles]
    obtain ⟨answer, m'⟩ := o
    obtain rfl : m' = _ := hframe
    cases answer with
    | error e =>
      refine ⟨rfl, rfl, rfl, rfl, fun j hj => hothers j hj m.runs rfl rfl, fun topic => ?_,
        (nomatch ·), (nomatch ·), fun _ => rfl, fun hall => hw.free fun topic _ => hall topic⟩
      exact (hw.either topic).imp_right fun h => ⟨(hmem topic).mp h.1, h.2⟩
    | ok u =>
      refine ⟨rfl, rfl, rfl, rfl, fun j hj => hothers j hj _ rfl ?_, fun topic => ?_,
        fun _ topic hne => hw.written rfl topic ((hmem topic).mpr hne), fun _ => ?_,
        fun h => absurd rfl h, fun _ => rfl⟩
      · rw [offer_setOffer, if_neg hj]
      · exact (hw.either topic).imp_right fun h => ⟨(hmem topic).mp h.1, h.2⟩
      · rw [offer_setOffer, if_pos rfl]

/-! ## Releases -/

/-- A topic of a broker that is withdrawn leaves the record, too. -/
def withdrawTopic (m : Master) (id : BrokerId) (topic : String) : Master :=
  { m with
    topology := m.topology.withdraw topic id
    runs := m.runs.setOffer id ((m.runs.offer id).erase topic) }

theorem hosted?_withdrawTopic {t : String} : (m.withdrawTopic id t).topology.hosted? topic j =
    if t = topic ∧ id = j then none else m.topology.hosted? topic j := by
  show (m.topology.hosted.erase (t, id)).get? (topic, j) = _
  rw [Table.get?_erase]
  simp only [Prod.mk.injEq]
  rfl

theorem offer_withdrawTopic {t : String} : ((m.withdrawTopic id t).runs.offer id).get? topic =
    if t = topic then none else (m.runs.offer id).get? topic := by
  show ((m.runs.setOffer id ((m.runs.offer id).erase t)).offer id).get? topic = _
  rw [offer_setOffer, if_pos rfl, Table.get?_erase]

theorem alike_withdrawTopic (m : Master) {id j : BrokerId} (hj : id ≠ j) (t : String) :
    Alike j m (m.withdrawTopic id t) := by
  refine ⟨rfl, rfl, rfl, ?_, fun topic => ?_⟩
  · show (m.runs.setOffer id ((m.runs.offer id).erase t)).offer j = _
    rw [offer_setOffer, if_neg hj]
  · rw [hosted?_withdrawTopic, if_neg fun hw => hj hw.2]

/-- The master once a broker's topics in a list are withdrawn. -/
def withdrawAll (m : Master) (id : BrokerId) (topics : List String) : Master :=
  topics.foldl (fun m t => m.withdrawTopic id t) m

/-- Every topic is withdrawn, or those before the first whose row is held. -/
theorem withdrawTopics_cases (m : Master) (id : BrokerId) (topics : List String) :
    (∀ t ∈ topics, m.topicRows.isLocked t = false) ∧
      m.withdrawTopics id topics = (.ok (), m.withdrawAll id topics) ∨
    ∃ done t rest, topics = done ++ t :: rest ∧ m.topicRows.isLocked t = true ∧
      (∀ u ∈ done, m.topicRows.isLocked u = false) ∧
      m.withdrawTopics id topics = (.error (.lockTimeout m.topicRows.name t), m.withdrawAll id done) := by
  induction topics generalizing m with
  | nil => exact .inl ⟨fun t ht => absurd ht List.not_mem_nil, rfl⟩
  | cons t ts ih =>
    cases hlocked : m.topicRows.isLocked t with
    | true =>
      refine .inr ⟨[], t, ts, rfl, hlocked, fun u hu => absurd hu List.not_mem_nil, ?_⟩
      unfold withdrawTopics RowLock.checkFree
      rw [hlocked]
      rfl
    | false =>
      have hstep : m.withdrawTopics id (t :: ts) = (m.withdrawTopic id t).withdrawTopics id ts := by
        rw [withdrawTopics, checkFree_ok_iff.mpr hlocked]
        rfl
      rw [hstep]
      rcases ih (m.withdrawTopic id t) with ⟨hfree, he⟩ | ⟨done, u, rest, rfl, hu, hdone, he⟩
      · exact .inl ⟨List.forall_mem_cons.mpr ⟨hlocked, hfree⟩, he⟩
      · exact .inr ⟨t :: done, u, rest, rfl, hu, List.forall_mem_cons.mpr ⟨hlocked, hdone⟩, he⟩

/-- Only the offers of brokers are touched, in the topology and in the record. -/
theorem withdrawAll_touches (m : Master) (id : BrokerId) (topics : List String) :
    ∃ hosted offers, m.withdrawAll id topics = { m with
      topology := { m.topology with hosted }
      runs := { m.runs with offers } } := by
  induction topics generalizing m with
  | nil => exact ⟨m.topology.hosted, m.runs.offers, rfl⟩
  | cons t ts ih => exact ih (m.withdrawTopic id t)

theorem hosted?_withdrawAll : (m.withdrawAll id topics).topology.hosted? topic id =
    if topic ∈ topics then none else m.topology.hosted? topic id := by
  induction topics generalizing m with
  | nil => rfl
  | cons t ts ih =>
    show ((m.withdrawTopic id t).withdrawAll id ts).topology.hosted? topic id = _
    rw [ih, hosted?_withdrawTopic]
    by_cases htopic : topic ∈ ts
    · rw [if_pos htopic, if_pos (List.mem_cons_of_mem t htopic)]
    · simp only [List.mem_cons, htopic, or_false, if_false, and_true, eq_comm]

theorem offer_withdrawAll : ((m.withdrawAll id topics).runs.offer id).get? topic =
    if topic ∈ topics then none else (m.runs.offer id).get? topic := by
  induction topics generalizing m with
  | nil => rfl
  | cons t ts ih =>
    show (((m.withdrawTopic id t).withdrawAll id ts).runs.offer id).get? topic = _
    rw [ih, offer_withdrawTopic]
    by_cases htopic : topic ∈ ts
    · rw [if_pos htopic, if_pos (List.mem_cons_of_mem t htopic)]
    · simp only [List.mem_cons, htopic, or_false, if_false, eq_comm]

theorem alike_withdrawAll (m : Master) {id j : BrokerId} (hj : id ≠ j) (topics : List String) :
    Alike j m (m.withdrawAll id topics) := by
  induction topics generalizing m with
  | nil => exact .refl j m
  | cons t ts ih => exact (alike_withdrawTopic m hj t).trans (ih (m.withdrawTopic id t))

/-- What withdrawing topics of a broker leads to. -/
structure Withdrawn (m : Master) (id : BrokerId) (topics : List String) (o : Outcome Unit) : Prop where
  frame : ∃ hosted offers, o.2 = { m with
    topology := { m.topology with hosted }
    runs := { m.runs with offers } }
  others : ∀ j, id ≠ j → Alike j m o.2
  either : ∀ topic, o.2.topology.hosted? topic id = m.topology.hosted? topic id ∧
      (o.2.runs.offer id).get? topic = (m.runs.offer id).get? topic ∨
    o.2.topology.hosted? topic id = none ∧ (o.2.runs.offer id).get? topic = none
  withdrawn : o.1 = .ok () → ∀ topic ∈ topics,
    o.2.topology.hosted? topic id = none ∧ (o.2.runs.offer id).get? topic = none
  free : (∀ topic, m.topicRows.isLocked topic = false) → o.1 = .ok ()

theorem withdrawn_withdrawTopics (m : Master) (id : BrokerId) (topics : List String) :
    Withdrawn m id topics (m.withdrawTopics id topics) := by
  have heither : ∀ done topic,
      (m.withdrawAll id done).topology.hosted? topic id = m.topology.hosted? topic id ∧
        ((m.withdrawAll id done).runs.offer id).get? topic = (m.runs.offer id).get? topic ∨
      (m.withdrawAll id done).topology.hosted? topic id = none ∧
        ((m.withdrawAll id done).runs.offer id).get? topic = none := by
    intro done topic
    rw [hosted?_withdrawAll, offer_withdrawAll]
    by_cases htopic : topic ∈ done
    · rw [if_pos htopic, if_pos htopic]
      exact .inr ⟨rfl, rfl⟩
    · rw [if_neg htopic, if_neg htopic]
      exact .inl ⟨rfl, rfl⟩
  rcases withdrawTopics_cases m id topics with ⟨-, he⟩ | ⟨done, t, rest, -, hlocked, -, he⟩
  · rw [he]
    refine ⟨withdrawAll_touches m id topics, fun j hj => alike_withdrawAll m hj topics,
      heither topics, fun _ topic ht => ?_, fun _ => rfl⟩
    rw [hosted?_withdrawAll, offer_withdrawAll, if_pos ht, if_pos ht]
    exact ⟨rfl, rfl⟩
  · rw [he]
    refine ⟨withdrawAll_touches m id done, fun j hj => alike_withdrawAll m hj done,
      heither done, (nomatch ·), fun hfree => ?_⟩
    rw [hfree t] at hlocked
    cases hlocked

/-- What a release of a broker leads to. -/
structure Released (m : Master) (id : BrokerId) (o : Outcome Unit) : Prop where
  store : o.2.store = m.store
  topicRows : o.2.topicRows = m.topicRows
  others : ∀ j, id ≠ j → Alike j m o.2
  either : ∀ topic, o.2.topology.hosted? topic id = m.topology.hosted? topic id ∧
      (o.2.runs.offer id).get? topic = (m.runs.offer id).get? topic ∨
    o.2.topology.hosted? topic id = none ∧ (o.2.runs.offer id).get? topic = none
  gone : o.1 = .ok () → o.2.brokers.broker? id = none ∧ o.2.runs.lifecycle? id = none ∧
    ∀ topic, o.2.topology.hosted? topic id = none ∧ (o.2.runs.offer id).get? topic = none
  failed : o.1 ≠ .ok () → o.2.brokers = m.brokers ∧ o.2.runs.lifecycles = m.runs.lifecycles
  free : (∀ topic, m.topicRows.isLocked topic = false) → o.1 = .ok ()

namespace Released

variable {o : Outcome Unit}

/-- A release brings no offer back. -/
theorem hosted? (h : Released m id o) {t : HostedTopic}
    (ht : o.2.topology.hosted? topic j = some t) : m.topology.hosted? topic j = some t := by
  by_cases hj : id = j
  · subst hj
    rcases h.either topic with ⟨hsame, -⟩ | ⟨hnone, -⟩
    · exact hsame ▸ ht
    · rw [hnone] at ht
      cases ht
  · exact (h.others j hj).hosted? topic ▸ ht

/-- A release registers nobody. -/
theorem broker? (h : Released m id o) {b : Broker} (hb : o.2.brokers.broker? j = some b) :
    m.brokers.broker? j = some b := by
  by_cases hj : id = j
  · subst hj
    by_cases hok : o.1 = .ok ()
    · rw [(h.gone hok).1] at hb
      cases hb
    · exact (h.failed hok).1 ▸ hb
  · exact (h.others j hj).broker? ▸ hb

end Released

theorem mem_topicsOf {t : Topology} : topic ∈ t.topicsOf id ↔ t.hosted? topic id ≠ none := by
  unfold Topology.topicsOf Topology.hosted?
  rw [KeySet.mem_ofList, List.mem_filterMap, Option.ne_none_iff_exists']
  constructor
  · rintro ⟨⟨⟨t', j⟩, h⟩, he, hsome⟩
    simp only [Option.ite_none_right_eq_some, Option.some.injEq] at hsome
    obtain ⟨rfl, rfl⟩ := hsome
    exact ⟨h, Table.get?_eq_some_iff.mpr he⟩
  · rintro ⟨h, hh⟩
    exact ⟨((topic, id), h), Table.get?_eq_some_iff.mp hh, by simp⟩

theorem mem_topicsToWithdraw : topic ∈ m.topicsToWithdraw id ↔
    m.topology.hosted? topic id ≠ none ∨ (m.runs.offer id).get? topic ≠ none := by
  unfold topicsToWithdraw
  rw [KeySet.mem_insertAll, KeySet.mem_toList, mem_topicsOf, Table.mem_keys, Table.contains,
    Option.isSome_iff_ne_none]

theorem alike_forgetBroker (m : Master) {id j : BrokerId} (hj : id ≠ j) :
    Alike j m (m.forgetBroker id) where
  broker? := Table.get?_erase_of_ne hj
  report? := Table.get?_erase_of_ne hj
  lifecycle? := Table.get?_erase_of_ne hj
  offer := by
    show ((m.runs.offers.erase id).get? j).getD _ = _
    rw [Table.get?_erase_of_ne hj]
    rfl
  hosted? _ := rfl

theorem released_releaseBroker (m : Master) (id : BrokerId) :
    Released m id (m.releaseBroker id) := by
  have hw := withdrawn_withdrawTopics m id (m.topicsToWithdraw id).toList
  unfold releaseBroker
  generalize m.withdrawTopics id (m.topicsToWithdraw id).toList = o at hw
  obtain ⟨hosted, offers, hframe⟩ := hw.frame
  obtain ⟨answer, m'⟩ := o
  simp only [] at hframe
  cases answer with
  | error e =>
    refine ⟨?_, ?_, hw.others, hw.either, (nomatch ·), fun _ => ⟨?_, ?_⟩, hw.free⟩ <;> rw [hframe]
  | ok u =>
    have hgone : ∀ topic, m'.topology.hosted? topic id = none := by
      intro topic
      by_cases ht : topic ∈ m.topicsToWithdraw id
      · exact (hw.withdrawn rfl topic (KeySet.mem_toList.mpr ht)).1
      · -- what is not withdrawn has not been there
        rw [mem_topicsToWithdraw, not_or, not_not, not_not] at ht
        rcases hw.either topic with ⟨hsame, -⟩ | ⟨hnone, -⟩
        · exact hsame.trans ht.1
        · exact hnone
    have hoffer : ∀ topic, ((m'.forgetBroker id).runs.offer id).get? topic = none := by
      intro topic
      show (((m'.runs.offers.erase id).get? id).getD Table.empty).get? topic = none
      rw [Table.get?_erase_self]
      rfl
    refine ⟨?_, ?_, fun j hj => (hw.others j hj).trans (alike_forgetBroker m' hj),
      fun topic => .inr ⟨hgone topic, hoffer topic⟩,
      fun _ => ⟨Table.get?_erase_self, Table.get?_erase_self, fun topic => ⟨hgone topic, hoffer topic⟩⟩,
      fun h => absurd rfl h, fun _ => rfl⟩
    · show m'.store = m.store
      rw [hframe]
    · show m'.topicRows = m.topicRows
      rw [hframe]

end Master

end ClusterMaster
