import ClusterMaster.Proofs.Exactness

/-!
# What a push that stops midway leaves behind

A push that stops at a held row has written some topics already, and leaves the record as it was.
Such a topic is a *stray*: the topology does not hold of it what is recorded. The next push writes
where the due offer differs from the record, so it makes a stray good unless the due offer has
returned to what is recorded, and then the push goes through and the stray stays:

    a push that goes through leaves the topology as it is due ↔
      no stray is due as it is recorded                                              (made_good_iff)
    where there is a stray, a push has stopped at a held row before             (stopped_of_stray)
-/

namespace ClusterMaster.Master

variable {m m₁ : Master} {op : Operation} {id : BrokerId} {topic : String} {report : Report}

/-- The topology does not hold of a topic of a broker what is recorded. -/
def Stray (m : Master) (id : BrokerId) (topic : String) : Prop :=
  m.topology.hosted? topic id ≠ (m.runs.offer id).get? topic

/-! ## Pushes over strays -/

namespace Pushed

variable {due : Table String HostedTopic} {o : Outcome Unit}

/-- A push that goes through leaves a topic that is recorded as due as it was, and of every other
topic what is due. -/
theorem hosted?_of_ok (h : Pushed m id due o) (hok : o.1 = .ok ()) :
    o.2.topology.hosted? topic id = due.get? topic ↔
      ((m.runs.offer id).get? topic = due.get? topic → ¬m.Stray id topic) := by
  by_cases hsame : (m.runs.offer id).get? topic = due.get? topic
  · have hleft : o.2.topology.hosted? topic id = m.topology.hosted? topic id := by
      rcases h.either topic with hleft | ⟨hne, -⟩
      · exact hleft
      · exact absurd hsame hne
    unfold Stray
    rw [hleft, hsame, not_not]
    exact ⟨fun h _ => h, fun h => h rfl⟩
  · exact ⟨fun _ h => absurd h hsame, fun _ => h.written hok topic hsame⟩

end Pushed

/-- What is due to a registered and configured broker: its configured topics, at the visibility of
its lifecycle, masked by its report. -/
theorem Hosting.dueOffer?_eq (h : Hosting m) {c : BrokerConfig} {l : Lifecycle}
    (hc : m.store.config? id = some c) (hl : m.runs.lifecycle? id = some l) :
    m.dueOffer? id = some (c.offer (((m.brokers.report? id).getD {}).mask l.visibility)) := by
  unfold dueOffer?
  rw [hc, hl]
  simp only []
  unfold maskedVisibility
  rw [h.owner id l hl]
  rfl

/-- A push that goes through makes good what earlier ones left behind exactly when no stray is due
as it is recorded. -/
theorem made_good_iff (hm : m.Grown) {c : BrokerConfig} {l : Lifecycle}
    (hc : m.store.config? id = some c) (hl : m.runs.lifecycle? id = some l)
    (hok : (m.pushOffer id).1 = .ok ()) :
    (∀ topic, (m.pushOffer id).2.topology.hosted? topic id =
      (c.offer (((m.brokers.report? id).getD {}).mask l.visibility)).get? topic) ↔
    ∀ topic, m.Stray id topic → (m.runs.offer id).get? topic ≠
      (c.offer (((m.brokers.report? id).getD {}).mask l.visibility)).get? topic := by
  have hh := hm.hosting
  have hp := pushed_pushOffer (hh.dueOffer?_eq hc hl)
    (BrokerConfig.filed_offer (hh.sound id c hc).1 _)
  refine forall_congr' fun topic => ?_
  rw [hp.hosted?_of_ok hok]
  exact imp_not_comm

/-! ## Where strays come from -/

/-- An operation that makes a broker push its offer is stopped at a held row. -/
def Stops (m : Master) (op : Operation) (id : BrokerId) : Prop :=
  ∃ report b c l m₁, op.hears? = some (id, report) ∧ HeardOf m id b c l report m₁ ∧
    m.after op = (m₁.pushOffer id).2 ∧ (m₁.pushOffer id).1 ≠ .ok () ∧
    ∃ topic, m.topicRows.isLocked topic = true

theorem Alike.stray_iff (h : Alike id m m₁) : m₁.Stray id topic ↔ m.Stray id topic := by
  unfold Stray
  rw [h.hosted?, h.offer]

theorem stray_create {settings : Settings} {store : Store} (h : create settings store = .ok m) :
    ¬m.Stray id topic := by
  obtain rfl := eq_of_create h
  exact fun hstray => hstray rfl

/-- A release takes a topic from topology and record alike. -/
theorem stray_of_releaseBroker {j : BrokerId} (h : (m.releaseBroker j).2.Stray id topic) :
    m.Stray id topic := by
  have hr := released_releaseBroker m j
  by_cases hj : j = id
  · subst hj
    unfold Stray at h ⊢
    rcases hr.either topic with ⟨hhosted, hoffer⟩ | ⟨hhosted, hoffer⟩
    · rw [hhosted, hoffer] at h
      exact h
    · rw [hhosted, hoffer] at h
      exact absurd rfl h
  · exact (hr.others id hj).stray_iff.mp h

/-- Only a push that stops leaves a stray where there was none. -/
theorem Hosting.stops_of_stray (h : Hosting m) (hnone : ∀ topic, ¬m.Stray id topic)
    (hstray : (m.after op).Stray id topic) : m.Stops op id := by
  rcases h.quiet_or_heard op with hquiet | ⟨j, report, b, c, l, m₁, hheard, -, hof, he, -⟩
  · have hkept := h.quiet_induction (p := fun m => ∀ topic, ¬m.Stray id topic) hquiet
      (fun m m' hs hm topic => mt (hs.alike id).stray_iff.mp (hm topic))
      (fun m e store _ hm => hm) (fun m t _ hm => hm) (fun m t hm => hm)
      (fun m j hm topic => mt stray_of_releaseBroker (hm topic)) hnone
    exact absurd hstray (hkept topic)
  · have hp := h.pushed hof
    by_cases hj : j = id
    · subst hj
      have hbefore : ∀ topic, ¬m₁.Stray j topic := by
        intro topic
        unfold Stray
        rw [hof.hosted?, hof.offer]
        exact hnone topic
      have hstopped : (m₁.pushOffer j).1 ≠ .ok () := by
        intro hthrough
        -- a push over a topology without strays leaves none
        rw [he] at hstray
        refine hstray ?_
        rw [hp.recorded hthrough]
        exact (hp.hosted?_of_ok hthrough).mpr fun _ => hbefore topic
      refine ⟨report, b, c, l, m₁, hheard, hof, he, hstopped, ?_⟩
      by_contra hfree
      refine hstopped (hp.free fun topic => ?_)
      rw [hof.topicRows]
      exact Bool.eq_false_iff.mpr fun hlocked => hfree ⟨topic, hlocked⟩
    · rw [he] at hstray
      exact absurd (((hof.others id hj).trans (hp.others id hj)).stray_iff.mp hstray) (hnone topic)

/-- Wherever a history leads to a stray, a push has stopped at a held row on the way. -/
theorem stopped_of_stray {settings : Settings} {store : Store} {fresh : Master}
    (hstore : store.Edited) (hfresh : create settings store = .ok fresh) {ops : List Operation}
    (hstray : (fresh.run ops).Stray id topic) :
    ∃ before op after, ops = before ++ op :: after ∧ (fresh.run before).Stops op id := by
  have hnone : ∀ topic, ¬fresh.Stray id topic := fun _ => stray_create hfresh
  have hh := Hosting.create hstore.sound hfresh
  clear hfresh hstore
  induction ops generalizing fresh with
  | nil => exact absurd hstray (hnone topic)
  | cons op ops ih =>
    by_cases hfirst : ∃ topic, (fresh.after op).Stray id topic
    · obtain ⟨t, ht⟩ := hfirst
      exact ⟨[], op, ops, rfl, hh.stops_of_stray hnone ht⟩
    · obtain ⟨before, op', after, rfl, hstops⟩ :=
        ih hstray (fun t ht => hfirst ⟨t, ht⟩) (hh.after op)
      exact ⟨op :: before, op', after, rfl, hstops⟩

end ClusterMaster.Master

/-! ## A stray that stays -/

namespace ClusterMaster.Serving

/-- The broker takes back that it is not writable before the push of it has gone through. -/
def wavering : List Operation :=
  [registering, .hold .topic "u", beating false, .giveBack .topic "u", beating true]

/-- Another push goes through, and the first topic is still shown as not writable. -/
theorem stray_left : (fresh.run wavering).Grown ∧
    ((fresh.run wavering).pushOffer 1).1 = .ok () ∧
    (fresh.run wavering).dueOffer? 1 = some ((config ["t", "u"]).offer .publishOnly) ∧
    ¬∀ topic, ((fresh.run wavering).pushOffer 1).2.topology.hosted? topic 1 =
      ((config ["t", "u"]).offer .publishOnly).get? topic := by
  have hgrown : (fresh.run wavering).Grown :=
    ⟨{}, store, fresh, wavering, store_edited, create_fresh, rfl⟩
  have hconfig : (fresh.run wavering).store.config? 1 = some (config ["t", "u"]) := rfl
  obtain ⟨l, hl, hv⟩ : ∃ l, (fresh.run wavering).runs.lifecycle? 1 = some l ∧
      l.visibility = .publishOnly := ⟨_, rfl, rfl⟩
  have hok : ((fresh.run wavering).pushOffer 1).1 = .ok () := rfl
  have hmask : (((fresh.run wavering).brokers.report? 1).getD {}).mask l.visibility =
      .publishOnly := by
    rw [hv]
    rfl
  have hiff := Master.made_good_iff hgrown hconfig hl hok
  rw [hmask] at hiff
  refine ⟨hgrown, hok, rfl, fun hgood => ?_⟩
  have hstray : (fresh.run wavering).Stray 1 "t" := by
    have hhosted : (fresh.run wavering).topology.hosted? "t" 1 = some (shown "t" 1 false) := rfl
    have hrecorded : ((fresh.run wavering).runs.offer 1).get? "t" = some (shown "t" 1 true) := rfl
    unfold Master.Stray
    rw [hhosted, hrecorded]
    decide
  exact hiff.mp hgood "t" hstray rfl

end ClusterMaster.Serving
