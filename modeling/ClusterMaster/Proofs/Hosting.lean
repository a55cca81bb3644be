import ClusterMaster.Proofs.Offers

/-!
# What can happen to the offer of a broker

The offer of a broker follows a registration or a heartbeat that is accepted: they leave the
broker with a lifecycle and a report, and push what is due by then (`Hosting.heard`). Everything
else leaves every broker as it is or releases it (`Hosting.quiet_induction`).

`Hosting m` is the invariant behind it: configurations are filed under their own ids, each with
distinct topics, lifecycles under the id of their broker, and exactly the registered brokers have
a lifecycle. Every operation keeps it (`Hosting.after`).
-/

namespace ClusterMaster

/-- What a report leaves of what a broker could be seen with. -/
def Report.mask (r : Report) (v : Visibility) : Visibility :=
  { publish := v.publish && r.writable, subscribe := v.subscribe && r.readable }

theorem BrokerConfig.filed_offer {c : BrokerConfig} {id : BrokerId} (hc : c.id = id)
    (v : Visibility) : Master.Filed id (c.offer v) := by
  intro topic h hh
  obtain ⟨t, -, htopic, rfl⟩ := of_get?_offer hh
  exact ⟨htopic, hc⟩

/-- The broker that an operation hears of, and what it says of itself. A broker that registers
counts as readable and writable. -/
def Operation.hears? : Operation → Option (BrokerId × Report)
  | .brokerRegister r => some (r.broker, {})
  | .brokerHeartbeat r => some (r.broker, { readable := r.readable, writable := r.writable })
  | _ => none

namespace Master

variable {m m' m₁ : Master} {op : Operation} {id : BrokerId} {report : Report}

/-! ## Hearing of a broker -/

/-- An operation hears of no broker, or turns it away. -/
def Quiet (m : Master) (op : Operation) : Prop :=
  op.hears? = none ∨ (m.perform op).1.isOk = false

/-- A broker has been heard of, and its offer has not been pushed yet. -/
structure HeardOf (m : Master) (id : BrokerId) (b : Broker) (c : BrokerConfig) (l : Lifecycle)
    (report : Report) (m₁ : Master) : Prop where
  config : m.store.config? id = some c
  store : m₁.store = m.store
  topicRows : m₁.topicRows = m.topicRows
  others : ∀ j, id ≠ j → Alike j m m₁
  offer : m₁.runs.offer id = m.runs.offer id
  hosted? : ∀ topic, m₁.topology.hosted? topic id = m.topology.hosted? topic id
  broker? : m₁.brokers.broker? id = some b
  report? : m₁.brokers.report? id = some report
  lifecycle? : m₁.runs.lifecycle? id = some l
  owner : l.broker = id

/-- The offer that is due then. -/
theorem HeardOf.dueOffer? {b : Broker} {c : BrokerConfig} {l : Lifecycle}
    (h : HeardOf m id b c l report m₁) :
    m₁.dueOffer? id = some (c.offer (report.mask l.visibility)) := by
  unfold Master.dueOffer?
  rw [h.store, h.config, h.lifecycle?]
  simp only []
  unfold maskedVisibility
  rw [h.owner, h.report?]
  rfl

/-! ## The invariant -/

structure Hosting (m : Master) : Prop where
  sound : m.store.Sound
  owner : ∀ id l, m.runs.lifecycle? id = some l → l.broker = id
  together : ∀ id, (∃ b, m.brokers.broker? id = some b) ↔ ∃ l, m.runs.lifecycle? id = some l

namespace Hosting

theorem create {settings : Settings} {store : Store} (hs : store.Sound)
    (h : Master.create settings store = .ok m) : Hosting m := by
  obtain rfl := eq_of_create h
  refine ⟨hs, fun id l hl => ?_, fun id => ⟨?_, ?_⟩⟩
  · cases hl
  · rintro ⟨b, hb⟩
    cases hb
  · rintro ⟨l, hl⟩
    cases hl

theorem withStore (h : Hosting m) {store : Store} (hs : store.Sound) :
    Hosting { m with store := store } where
  sound := hs
  owner := h.owner
  together := h.together

/-- What leaves the brokers alone, or all but one of which the invariant holds, keeps it. -/
theorem of_alike (h : Hosting m) (id : BrokerId) (hs : m'.store = m.store)
    (hothers : ∀ j, id ≠ j → Alike j m m') (howner : ∀ l, m'.runs.lifecycle? id = some l → l.broker = id)
    (htogether : (∃ b, m'.brokers.broker? id = some b) ↔ ∃ l, m'.runs.lifecycle? id = some l) :
    Hosting m' where
  sound := hs ▸ h.sound
  owner j l hl := by
    by_cases hj : id = j
    · subst hj
      exact howner l hl
    · exact h.owner j l ((hothers j hj).lifecycle? ▸ hl)
  together j := by
    by_cases hj : id = j
    · subst hj
      exact htogether
    · rw [(hothers j hj).broker?, (hothers j hj).lifecycle?]
      exact h.together j

theorem same (h : Hosting m) (hs : SameBrokers m m') : Hosting m' where
  sound := hs.store ▸ h.sound
  owner := by
    rw [hs.runs]
    exact h.owner
  together := by
    rw [hs.runs, hs.brokers]
    exact h.together

theorem releaseBroker (h : Hosting m) (id : BrokerId) : Hosting (m.releaseBroker id).2 := by
  have hr := released_releaseBroker m id
  by_cases hok : (m.releaseBroker id).1 = .ok ()
  · obtain ⟨hbroker, hlifecycle, -⟩ := hr.gone hok
    refine h.of_alike id hr.store hr.others (fun l hl => ?_) ?_
    · rw [hlifecycle] at hl
      cases hl
    · rw [hbroker, hlifecycle]
      simp
  · obtain ⟨hbrokers, hlifecycles⟩ := hr.failed hok
    refine h.of_alike id hr.store hr.others (fun l hl => h.owner id l ?_) ?_
    · unfold BrokerRuns.lifecycle? at hl ⊢
      rw [← hlifecycles]
      exact hl
    · unfold BrokerRuns.lifecycle?
      rw [hlifecycles, hbrokers]
      exact h.together id

theorem pushed (h : Hosting m) {b : Broker} {c : BrokerConfig} {l : Lifecycle}
    (hh : HeardOf m id b c l report m₁) :
    Pushed m₁ id (c.offer (report.mask l.visibility)) (m₁.pushOffer id) :=
  pushed_pushOffer hh.dueOffer? (BrokerConfig.filed_offer (h.sound id c hh.config).1 _)

theorem pushOffer (h : Hosting m) {b : Broker} {c : BrokerConfig} {l : Lifecycle}
    (hh : HeardOf m id b c l report m₁) : Hosting (m₁.pushOffer id).2 := by
  have hp := h.pushed hh
  have hl : (m₁.pushOffer id).2.runs.lifecycle? id = some l := by
    rw [← hh.lifecycle?]
    unfold BrokerRuns.lifecycle?
    rw [hp.lifecycles]
  refine h.of_alike id (hp.store.trans hh.store) (fun j hj => (hh.others j hj).trans (hp.others j hj))
    (fun l' hl' => ?_) ?_
  · rw [hl] at hl'
    exact Option.some.inj hl' ▸ hh.owner
  · rw [hp.brokers, hh.broker?, hl]
    exact ⟨fun _ => ⟨l, rfl⟩, fun _ => ⟨b, rfl⟩⟩

/-! ### Registrations and heartbeats -/

theorem of_checkBrokerRegister {r : BrokerRegister} {c : BrokerConfig}
    (h : m.checkBrokerRegister r = .ok c) : m.store.config? r.broker = some c := by
  unfold checkBrokerRegister at h
  cases hp : m.checkPrimary with
  | error e =>
    rw [hp] at h
    cases h
  | ok u =>
    cases hv : r.validate with
    | error e =>
      rw [hp, hv] at h
      cases h
    | ok u =>
      rw [hp, hv] at h
      cases hc : m.store.config? r.broker with
      | none =>
        rw [hc] at h
        cases h
      | some d =>
        cases ha : checkAddress r d with
        | error e =>
          simp only [hc, ha] at h
          cases h
        | ok u =>
          simp only [hc, ha] at h
          exact congrArg some (Except.ok.inj h)

theorem heardOf_enrolBroker (h : Hosting m) {r : BrokerRegister} {c : BrokerConfig}
    (hc : m.store.config? r.broker = some c) :
    ∃ b, HeardOf m r.broker b c (m.begunLifecycle r c) {} (m.enrolBroker r c) := by
  have hid : (m.begunLifecycle r c).broker = r.broker := (h.sound r.broker c hc).1
  obtain ⟨b, hb, hbrokers⟩ : ∃ b : Broker, b.id = r.broker ∧
      (m.enrolBroker r c).brokers = m.brokers.register b := ⟨_, rfl, rfl⟩
  have hruns : (m.enrolBroker r c).runs = m.runs.register (m.begunLifecycle r c) := rfl
  have hlifecycle : ∀ j, (m.enrolBroker r c).runs.lifecycle? j =
      if r.broker = j then some (m.begunLifecycle r c) else m.runs.lifecycle? j := by
    intro j
    rw [hruns]
    show (m.runs.lifecycles.insert (m.begunLifecycle r c).broker _).get? j = _
    rw [hid, Table.get?_insert]
    rfl
  have hbroker : ∀ j, (m.enrolBroker r c).brokers.broker? j =
      if r.broker = j then some b else m.brokers.broker? j := by
    intro j
    rw [hbrokers]
    show (m.brokers.registered.insert b.id b).get? j = _
    rw [hb, Table.get?_insert]
    rfl
  have hreport : ∀ j, (m.enrolBroker r c).brokers.report? j =
      if r.broker = j then some {} else m.brokers.report? j := by
    intro j
    rw [hbrokers]
    show (m.brokers.reports.insert b.id {}).get? j = _
    rw [hb, Table.get?_insert]
    rfl
  refine ⟨b, hc, rfl, rfl, fun j hj => ⟨?_, ?_, ?_, rfl, fun _ => rfl⟩, rfl, fun _ => rfl, ?_, ?_, ?_,
    hid⟩
  · rw [hbroker, if_neg hj]
  · rw [hreport, if_neg hj]
  · rw [hlifecycle, if_neg hj]
  · rw [hbroker, if_pos rfl]
  · rw [hreport, if_pos rfl]
  · rw [hlifecycle, if_pos rfl]

theorem brokerRegister_cases (h : Hosting m) (r : BrokerRegister) :
    (∃ b c l m₁, HeardOf m r.broker b c l {} m₁ ∧
      m.brokerRegister r = (.ok (brokerAnswer l c), (m₁.pushOffer r.broker).2)) ∨
    ∃ e, m.brokerRegister r = (.error e, m) := by
  unfold brokerRegister
  cases hc : m.checkBrokerRegister r with
  | error e => exact .inr ⟨e, rfl⟩
  | ok c =>
    obtain ⟨b, hb⟩ := h.heardOf_enrolBroker (of_checkBrokerRegister hc)
    exact .inl ⟨b, c, _, _, hb, rfl⟩

theorem owner_pulse {r : BrokerHeartbeat} {c : BrokerConfig} {l : Lifecycle} :
    (m.pulse r c l).broker = l.broker := by
  unfold pulse Lifecycle.setIntent Lifecycle.advance
  simp only []
  split <;> split <;> rfl

/-- A heartbeat takes down the report of a registered broker. -/
theorem report?_report {bs : Brokers} {b : Broker} (hb : bs.broker? id = some b) (j : BrokerId) :
    (bs.report id report).report? j = if id = j then some report else bs.report? j := by
  have hc : bs.contains id = true := Table.contains_iff.mpr ⟨b, hb⟩
  unfold Brokers.report
  rw [if_pos hc]
  exact Table.get?_insert

theorem broker?_report {bs : Brokers} (j : BrokerId) :
    (bs.report id report).broker? j = bs.broker? j := by
  unfold Brokers.report
  split <;> rfl

theorem heardOf_heartbeat (h : Hosting m) {r : BrokerHeartbeat} {c : BrokerConfig} {l : Lifecycle}
    (hc : m.store.config? r.broker = some c) (hl : m.runs.lifecycle? r.broker = some l)
    (liveness : Liveness) :
    ∃ b, m.brokers.broker? r.broker = some b ∧
      HeardOf m r.broker b c (m.pulse r c l) { readable := r.readable, writable := r.writable }
        { m with
          liveness := liveness
          brokers := m.brokers.report r.broker { readable := r.readable, writable := r.writable }
          runs := m.runs.register (m.pulse r c l) } := by
  have hid : (m.pulse r c l).broker = r.broker := owner_pulse.trans (h.owner _ l hl)
  obtain ⟨b, hb⟩ := (h.together r.broker).mpr ⟨l, hl⟩
  have hlifecycle : ∀ j, (m.runs.register (m.pulse r c l)).lifecycle? j =
      if r.broker = j then some (m.pulse r c l) else m.runs.lifecycle? j := by
    intro j
    show (m.runs.lifecycles.insert (m.pulse r c l).broker _).get? j = _
    rw [hid, Table.get?_insert]
    rfl
  refine ⟨b, hb, hc, rfl, rfl, fun j hj => ⟨broker?_report j, ?_, ?_, rfl, fun _ => rfl⟩, rfl,
    fun _ => rfl, (broker?_report _).trans hb, ?_, ?_, hid⟩
  · exact (report?_report hb j).trans (if_neg hj)
  · exact (hlifecycle j).trans (if_neg hj)
  · exact (report?_report hb _).trans (if_pos rfl)
  · exact (hlifecycle _).trans (if_pos rfl)

/-- A heartbeat that is refused leaves the brokers as they are, or releases the one it comes from. -/
theorem brokerHeartbeat_cases (h : Hosting m) (r : BrokerHeartbeat) :
    (∃ b c l m₁, m.brokers.broker? r.broker = some b ∧
      HeardOf m r.broker b c l { readable := r.readable, writable := r.writable } m₁ ∧
      m.brokerHeartbeat r = (.ok (brokerAnswer l c), (m₁.pushOffer r.broker).2)) ∨
    ∃ e m₁, SameBrokers m m₁ ∧ (m.brokerHeartbeat r = (.error e, m₁) ∨
      m.brokerHeartbeat r = (.error e, (m₁.releaseBroker r.broker).2)) := by
  have hear : SameBrokers m (m.hear .broker (brokerKey r.broker)) := ⟨rfl, rfl, rfl, rfl, rfl⟩
  unfold brokerHeartbeat allow
  simp only []
  split
  · exact .inr ⟨_, m, ⟨rfl, rfl, rfl, rfl, rfl⟩, .inl rfl⟩
  · split
    · exact .inr ⟨_, _, hear, .inr rfl⟩
    · rename_i c hc
      split
      · exact .inr ⟨_, _, hear, .inr rfl⟩
      · split
        · rename_i hnone
          -- who has no lifecycle is not registered, so there is nothing to take down
          have hcontains : m.brokers.contains r.broker = false := by
            rw [Bool.eq_false_iff]
            intro hreg
            obtain ⟨l, hl⟩ := (h.together r.broker).mp (Table.contains_iff.mp hreg)
            rw [show m.runs.lifecycle? r.broker = none from hnone] at hl
            cases hl
          refine .inr ⟨_, _, ?_, .inl rfl⟩
          refine ⟨rfl, ?_, rfl, rfl, rfl⟩
          show m.brokers.report r.broker _ = m.brokers
          unfold Brokers.report
          rw [hcontains]
          rfl
        · rename_i l hl
          obtain ⟨b, hb, hheard⟩ :=
            h.heardOf_heartbeat hc hl (m.hear .broker (brokerKey r.broker)).liveness
          exact .inl ⟨b, c, m.pulse r c l, _, hb, hheard, rfl⟩

/-! ### All operations -/

/-- A broker that is heard of and accepted: its offer is pushed. -/
theorem heard (h : Hosting m) (hop : op.hears? = some (id, report))
    (hok : (m.perform op).1.isOk = true) :
    ∃ b c l m₁, HeardOf m id b c l report m₁ ∧ m.after op = (m₁.pushOffer id).2 ∧
      ((∃ r, op = .brokerRegister r) ∨ m.brokers.broker? id = some b) := by
  cases op with
  | brokerRegister r =>
    obtain ⟨rfl, rfl⟩ := Prod.mk.inj (Option.some.inj hop)
    have hperform : m.perform (.brokerRegister r) =
        ((m.brokerRegister r).1.map .broker, (m.brokerRegister r).2) := rfl
    rcases h.brokerRegister_cases r with ⟨b, c, l, m₁, hh, he⟩ | ⟨e, he⟩
    · refine ⟨b, c, l, m₁, hh, ?_, .inl ⟨r, rfl⟩⟩
      rw [after, hperform, he]
    · rw [hperform, he] at hok
      cases hok
  | brokerHeartbeat r =>
    obtain ⟨rfl, rfl⟩ := Prod.mk.inj (Option.some.inj hop)
    have hperform : m.perform (.brokerHeartbeat r) =
        ((m.brokerHeartbeat r).1.map .broker, (m.brokerHeartbeat r).2) := rfl
    rcases h.brokerHeartbeat_cases r with ⟨b, c, l, m₁, hb, hh, he⟩ | ⟨e, m₁, -, he | he⟩
    · refine ⟨b, c, l, m₁, hh, ?_, .inr hb⟩
      rw [after, hperform, he]
    · rw [hperform, he] at hok
      cases hok
    · rw [hperform, he] at hok
      cases hok
  | _ => cases hop

/-- What these steps keep is kept by every operation other than a registration or a heartbeat of a
broker that is accepted. -/
theorem quiet_induction {p : Master → Prop}
    (hop : m.Quiet op)
    (same : ∀ m m', SameBrokers m m' → p m → p m')
    (edit : ∀ m e store, m.store.edit e = .ok store → p m → p { m with store })
    (hold : ∀ m topic, op = .hold .topic topic → p m →
      p { m with topicRows := m.topicRows.take topic })
    (giveBack : ∀ m topic, p m → p { m with topicRows := m.topicRows.release topic })
    (release : ∀ m id, p m → p (m.releaseBroker id).2)
    (h : Hosting m) (hp : p m) : p (m.after op) := by
  have hsame : op.concernsBrokers = false → p (m.after op) :=
    fun hc => same m _ (sameBrokers_after hc m) hp
  cases op with
  | brokerRegister r =>
    rcases h.brokerRegister_cases r with ⟨b, c, l, m₁, hh, he⟩ | ⟨e, he⟩
    · rcases hop with hop | hop
      · cases hop
      · rw [show m.perform (.brokerRegister r) =
          ((m.brokerRegister r).1.map .broker, (m.brokerRegister r).2) from rfl, he] at hop
        cases hop
    · rw [show m.after (.brokerRegister r) = (m.brokerRegister r).2 from rfl, he]
      exact hp
  | brokerHeartbeat r =>
    rw [show m.after (.brokerHeartbeat r) = (m.brokerHeartbeat r).2 from rfl]
    rcases h.brokerHeartbeat_cases r with ⟨b, c, l, m₁, hb, hh, he⟩ | ⟨e, m₁, hs, he | he⟩
    · rcases hop with hop | hop
      · cases hop
      · rw [show m.perform (.brokerHeartbeat r) =
          ((m.brokerHeartbeat r).1.map .broker, (m.brokerHeartbeat r).2) from rfl, he] at hop
        cases hop
    · rw [he]
      exact same m m₁ hs hp
    · rw [he]
      exact release m₁ _ (same m m₁ hs hp)
  | brokerClose id => exact allow_snd hp (release m id hp)
  | setIntent id intent =>
    rw [show m.after (.setIntent id intent) = (m.setBrokerIntent id intent).2 from rfl]
    rcases setBrokerIntent_cases m id intent with ⟨store, hs, he⟩ | he
    · rw [he]
      exact edit m _ store hs hp
    · rw [he]
      exact hp
  | edit e =>
    rw [show m.after (.edit e) = (m.editStore e).2 from rfl]
    rcases editStore_cases m e with ⟨store, hs, he⟩ | ⟨fault, he⟩
    · rw [he]
      exact edit m e store hs hp
    · rw [he]
      exact hp
  | expire c =>
    cases c with
    | broker =>
      exact expireBrokers_induction
        (fun m liveness => same m { m with liveness } ⟨rfl, rfl, rfl, rfl, rfl⟩) release hp
    | _ => exact hsame rfl
  | hold kind key =>
    cases kind with
    | topic => exact hold m key rfl hp
    | _ => exact hsame rfl
  | giveBack kind key =>
    cases kind with
    | topic => exact giveBack m key hp
    | _ => exact hsame rfl
  | _ => exact hsame rfl

/-- An operation is quiet, or it hears of a broker and pushes its offer. -/
theorem quiet_or_heard (h : Hosting m) (op : Operation) : m.Quiet op ∨
    ∃ id report b c l m₁, op.hears? = some (id, report) ∧ (m.perform op).1.isOk = true ∧
      HeardOf m id b c l report m₁ ∧ m.after op = (m₁.pushOffer id).2 ∧
      ((∃ r, op = .brokerRegister r) ∨ m.brokers.broker? id = some b) := by
  cases hheard : op.hears? with
  | none => exact .inl (.inl hheard)
  | some said =>
    obtain ⟨id, report⟩ := said
    cases hok : (m.perform op).1.isOk with
    | false => exact .inl (.inr hok)
    | true =>
      obtain ⟨b, c, l, m₁, hh⟩ := h.heard hheard hok
      exact .inr ⟨id, report, b, c, l, m₁, rfl, rfl, hh⟩

/-- Every operation keeps the invariant. -/
theorem after (h : Hosting m) (op : Operation) : Hosting (m.after op) := by
  rcases h.quiet_or_heard op with hquiet | ⟨id, report, b, c, l, m₁, -, -, hh, he, -⟩
  · exact h.quiet_induction (p := Hosting) hquiet (fun m m' hs hm => hm.same hs)
      (fun m e store hs hm => hm.withStore (hm.sound.edit hs))
      (fun m topic _ hm => ⟨hm.sound, hm.owner, hm.together⟩)
      (fun m topic hm => ⟨hm.sound, hm.owner, hm.together⟩)
      (fun m id hm => hm.releaseBroker id) h
  · rw [he]
    exact h.pushOffer hh

theorem run (h : Hosting m) (ops : List Operation) : Hosting (m.run ops) := by
  induction ops generalizing m with
  | nil => exact h
  | cons op ops ih => exact ih (h.after op)

end Hosting

theorem Grown.hosting (h : m.Grown) : Hosting m := by
  obtain ⟨settings, store, fresh, ops, hs, hf, rfl⟩ := h
  exact (Hosting.create hs.sound hf).run ops

end Master

end ClusterMaster
