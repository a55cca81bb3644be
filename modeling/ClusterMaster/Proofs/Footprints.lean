import ClusterMaster.Master.Operation
import Mathlib.Tactic.SplitIfs

/-!
# Which part of a master an operation touches

Producers, consumers and brokers each have a part of a master to themselves: their tables, one of
the three relations of the topology, and what is known of when they were last heard of. Their calls
and their silence touch nothing else (`differsIn_after`), whether they go through, are refused, or
stop midway.
-/

namespace ClusterMaster

/-- The class of the nodes that an operation hears of or lets go. -/
def Operation.class? : Operation → Option NodeClass
  | .producerRegister _ | .producerHeartbeat _ | .producerClose _ => some .producer
  | .consumerRegister _ | .consumerHeartbeat _ | .consumerClose _ => some .consumer
  | .brokerRegister _ | .brokerHeartbeat _ | .brokerClose _ => some .broker
  | .expire c => some c
  | _ => none

namespace Master

variable {m m' m'' : Master} {c : NodeClass}

/-! ## Checks and scans -/

/-- A call that passes its checks goes on, another one changes nothing. -/
theorem allow_cases {α : Type} (m : Master) (check : Except Fault Unit) (call : Outcome α) :
    check = .ok () ∧ m.allow check call = call ∨
      ∃ e, check = .error e ∧ m.allow check call = (.error e, m) := by
  unfold allow
  cases check with
  | ok u => exact .inl ⟨rfl, rfl⟩
  | error e => exact .inr ⟨e, rfl, rfl⟩

/-- Whatever holds of the state before a call and of the state after it holds of the outcome. -/
theorem allow_snd {α : Type} {p : Master → Prop} {m : Master} {check : Except Fault Unit}
    {call : Outcome α} (hm : p m) (hcall : p call.2) : p (m.allow check call).2 := by
  rcases m.allow_cases check call with ⟨-, h⟩ | ⟨e, -, h⟩
  · rw [h]
    exact hcall
  · rw [h]
    exact hm

/-- A consumer that closes is released, unless the call is refused. -/
theorem consumerClose_snd (m : Master) (r : ConsumerClose) :
    (m.consumerClose r).2 = m ∨ (m.consumerClose r).2 = (m.releaseConsumer r.consumer).2 := by
  refine allow_snd (p := fun m' => m' = m ∨ m' = (m.releaseConsumer r.consumer).2) (.inl rfl) ?_
  split
  · rename_i heq
    exact .inr (by rw [heq])
  · rename_i heq
    exact .inr (by rw [heq])

theorem releaseNode_consumer_snd (m : Master) (key : String) :
    (m.releaseNode .consumer key).2 = m ∨
      ∃ id, (m.releaseNode .consumer key).2 = (m.releaseConsumer id).2 := by
  unfold releaseNode
  simp only []
  split
  · exact .inl rfl
  · rename_i id group _
    refine .inr ⟨id, ?_⟩
    split
    · rename_i heq
      rw [heq]
    · rename_i heq
      rw [heq]

theorem releaseNode_broker_snd (m : Master) (key : String) :
    (m.releaseNode .broker key).2 = m ∨
      ∃ id, (m.releaseNode .broker key).2 = (m.releaseBroker id).2 := by
  unfold releaseNode
  simp only []
  split
  · exact .inl rfl
  · exact .inr ⟨_, rfl⟩

/-- A scan is a chain of releases of tracked nodes, of which some go through and some do not. -/
theorem letGoAll_induction {p : Master → Prop} {c : NodeClass}
    (hstep : ∀ m key, m.liveness.isRegistered c key = true → p m → p (m.letGo c key)) (m : Master)
    (keys : List String) (hm : p m) : p (m.letGoAll c keys).2 := by
  induction keys generalizing m with
  | nil => exact hm
  | cons key keys ih =>
    unfold letGoAll
    split
    · rename_i hover
      exact ih _ (hstep m key (Liveness.isRegistered_of_isOverdue hover) hm)
    · exact ih m hm

/-- What a release leaves and hearing of a node keeps is left by letting the node go. -/
theorem letGo_of_release {p : Master → Prop} {m : Master} {c : NodeClass} {key : String}
    (hear : ∀ m, p m → p (m.hear c key)) (h : p ((m.forget c key).releaseNode c key).2) :
    p (m.letGo c key) := by
  unfold letGo
  split
  · rename_i heq
    rw [heq] at h
    exact hear _ h
  · rename_i heq
    rw [heq] at h
    exact h

/-- What hearing, forgetting and releasing keep is kept when the silent nodes of a class are let go. -/
theorem expire_induction {p : Master → Prop} {c : NodeClass}
    (hear : ∀ m key, p m → p (m.hear c key)) (forget : ∀ m key, p m → p (m.forget c key))
    (release : ∀ m key, p m → p (m.releaseNode c key).2) (h : p m) : p (m.expire c).2 :=
  letGoAll_induction (fun m key _ hm => letGo_of_release (fun m => hear m key)
    (release _ key (forget m key hm))) m _ h

/-! ## Footprints -/

/-- Whatever is tracked, the masters differ at most in the tables of a class. -/
def TablesDiffer : NodeClass → Master → Master → Prop
  | .producer, m, m' => ∃ liveness producers publications, m' = { m with
      liveness, producers, topology := { m.topology with publications } }
  | .consumer, m, m' => ∃ liveness groups events holdings subscriptions, m' = { m with
      liveness, groups, events, holdings, topology := { m.topology with subscriptions } }
  | .broker, m, m' => ∃ liveness brokers runs hosted, m' = { m with
      liveness, brokers, runs, topology := { m.topology with hosted } }

theorem TablesDiffer.trans (h : TablesDiffer c m m') (h' : TablesDiffer c m' m'') :
    TablesDiffer c m m'' := by
  cases c with
  | producer =>
    obtain ⟨_, _, _, rfl⟩ := h
    obtain ⟨liveness, producers, publications, rfl⟩ := h'
    exact ⟨liveness, producers, publications, rfl⟩
  | consumer =>
    obtain ⟨_, _, _, _, _, rfl⟩ := h
    obtain ⟨liveness, groups, events, holdings, subscriptions, rfl⟩ := h'
    exact ⟨liveness, groups, events, holdings, subscriptions, rfl⟩
  | broker =>
    obtain ⟨_, _, _, _, rfl⟩ := h
    obtain ⟨liveness, brokers, runs, hosted, rfl⟩ := h'
    exact ⟨liveness, brokers, runs, hosted, rfl⟩

theorem TablesDiffer.of_liveness (c : NodeClass) (m : Master) (liveness : Liveness) :
    TablesDiffer c m { m with liveness } := by
  cases c with
  | producer => exact ⟨liveness, m.producers, m.topology.publications, rfl⟩
  | consumer =>
    exact ⟨liveness, m.groups, m.events, m.holdings, m.topology.subscriptions, rfl⟩
  | broker => exact ⟨liveness, m.brokers, m.runs, m.topology.hosted, rfl⟩

/-- The masters differ at most in what is known of the nodes of a class. -/
structure DiffersIn (c : NodeClass) (m m' : Master) : Prop where
  tables : TablesDiffer c m m'
  lastSeen : ∀ d key, c ≠ d →
    m'.liveness.lastSeen.get? (d, key) = m.liveness.lastSeen.get? (d, key)

namespace DiffersIn

theorem refl (c : NodeClass) (m : Master) : DiffersIn c m m :=
  ⟨.of_liveness c m m.liveness, fun _ _ _ => rfl⟩

theorem trans (h : DiffersIn c m m') (h' : DiffersIn c m' m'') : DiffersIn c m m'' :=
  ⟨h.tables.trans h'.tables, fun d key hd => (h'.lastSeen d key hd).trans (h.lastSeen d key hd)⟩

theorem hear (h : DiffersIn c m m') (key : String) : DiffersIn c m (m'.hear c key) :=
  h.trans ⟨.of_liveness c m' _,
    fun _ _ hd => Table.get?_insert_of_ne fun heq => hd (congrArg Prod.fst heq)⟩

theorem forget (h : DiffersIn c m m') (key : String) : DiffersIn c m (m'.forget c key) :=
  h.trans ⟨.of_liveness c m' _,
    fun _ _ hd => Table.get?_erase_of_ne fun heq => hd (congrArg Prod.fst heq)⟩

end DiffersIn

/-! ## Producers -/

theorem differsIn_releaseProducer (m : Master) (id : String) :
    DiffersIn .producer m (m.releaseProducer id).2 := by
  refine allow_snd (.refl _ m) ?_
  have hforget : DiffersIn .producer m (m.forget .producer id) := .forget (.refl _ m) id
  unfold dropProducer
  simp only []
  split
  · exact hforget
  · exact hforget.trans ⟨⟨_, _, _, rfl⟩, fun _ _ _ => rfl⟩

theorem differsIn_producerRegister (m : Master) (r : ProducerRegister) :
    DiffersIn .producer m (m.producerRegister r).2 := by
  refine allow_snd (.refl _ m) ?_
  show DiffersIn .producer m (m.enrolProducer r)
  unfold enrolProducer
  refine .hear ?_ _
  cases m.producers.get? r.producer <;> exact ⟨⟨_, _, _, rfl⟩, fun _ _ _ => rfl⟩

theorem differsIn_producerHeartbeat (m : Master) (r : ProducerHeartbeat) :
    DiffersIn .producer m (m.producerHeartbeat r).2 := by
  refine allow_snd (.refl _ m) ?_
  have hear : DiffersIn .producer m (m.hear .producer r.producer) := .hear (.refl _ m) _
  simp only []
  split
  · exact hear
  · unfold retopicProducer
    split
    · exact hear
    · exact hear.trans ⟨⟨_, _, _, rfl⟩, fun _ _ _ => rfl⟩

/-! ## Consumers -/

theorem differsIn_releaseConsumer (m : Master) (x : String) :
    DiffersIn .consumer m (m.releaseConsumer x).2 := by
  refine allow_snd (.refl _ m) ?_
  show DiffersIn .consumer m (m.dropConsumer x).2
  unfold dropConsumer
  simp only []
  split
  · exact ⟨⟨_, _, _, _, _, rfl⟩, fun _ _ _ => rfl⟩
  · rename_i c dissolved groups _
    have hleft : DiffersIn .consumer m
        (({ m with
          groups := groups
          events := m.events.clear x
          holdings := m.holdings.erase x } : Master).forget .consumer c.livenessKey) := by
      refine .forget ?_ _
      exact ⟨⟨_, _, _, _, m.topology.subscriptions, rfl⟩, fun _ _ _ => rfl⟩
    split
    · exact hleft.trans ⟨⟨_, _, _, _, _, rfl⟩, fun _ _ _ => rfl⟩
    · exact hleft

theorem differsIn_consumerRegister (m : Master) (r : ConsumerRegister) :
    DiffersIn .consumer m (m.consumerRegister r).2 := by
  refine allow_snd (.refl _ m) ?_
  refine .hear ?_ _
  exact ⟨⟨_, _, _, _, _, rfl⟩, fun _ _ _ => rfl⟩

theorem differsIn_consumerHeartbeat (m : Master) (r : ConsumerHeartbeat) :
    DiffersIn .consumer m (m.consumerHeartbeat r).2 := by
  refine allow_snd (.refl _ m) ?_
  have hack : DiffersIn .consumer m ((m.hear .consumer
      (livenessKey r.consumer r.group)).takeAcknowledgement r) := by
    have hear : DiffersIn .consumer m (m.hear .consumer (livenessKey r.consumer r.group)) :=
      .hear (.refl _ m) _
    unfold takeAcknowledgement
    simp only []
    split
    · exact hear
    · split <;> exact hear.trans ⟨⟨_, _, _, _, m.topology.subscriptions, rfl⟩, fun _ _ _ => rfl⟩
  simp only []
  generalize (m.hear .consumer (livenessKey r.consumer r.group)).takeAcknowledgement r = m₁ at hack
  have hreport : ∀ subs, DiffersIn .consumer m (m₁.takeReport r.consumer subs) := by
    intro subs
    unfold takeReport
    simp only []
    split_ifs
    · exact hack
    · exact hack.trans ⟨⟨_, _, _, _, m₁.topology.subscriptions, rfl⟩, fun _ _ _ => rfl⟩
    · exact hack.trans ⟨⟨_, _, _, _, m₁.topology.subscriptions, rfl⟩, fun _ _ _ => rfl⟩
  cases r.reported with
  | none => exact hack.trans ⟨⟨_, _, _, _, m₁.topology.subscriptions, rfl⟩, fun _ _ _ => rfl⟩
  | some subs =>
    refine (hreport subs).trans ?_
    exact ⟨⟨_, _, _, _, (m₁.takeReport r.consumer subs).topology.subscriptions, rfl⟩,
      fun _ _ _ => rfl⟩

theorem differsIn_consumerClose (m : Master) (r : ConsumerClose) :
    DiffersIn .consumer m (m.consumerClose r).2 := by
  rcases consumerClose_snd m r with h | h
  · rw [h]
    exact .refl _ m
  · rw [h]
    exact differsIn_releaseConsumer m r.consumer

/-! ## Brokers -/

theorem differsIn_writeAll (m : Master) (id : BrokerId) (ws : List OfferWrite) :
    DiffersIn .broker m (m.writeAll id ws).2 := by
  induction ws generalizing m with
  | nil => exact .refl _ m
  | cons w ws ih =>
    unfold writeAll
    split
    · exact .refl _ m
    · have hw : DiffersIn .broker m (m.write id w) := by
        cases w <;> exact ⟨⟨_, _, _, _, rfl⟩, fun _ _ _ => rfl⟩
      exact hw.trans (ih _)

theorem differsIn_pushOffer (m : Master) (id : BrokerId) :
    DiffersIn .broker m (m.pushOffer id).2 := by
  unfold pushOffer
  split
  · rename_i p _
    have hw := differsIn_writeAll m p.broker p.writes
    unfold carryOut
    split
    · rename_i heq
      rw [heq] at hw
      exact hw
    · rename_i heq
      rw [heq] at hw
      exact hw.trans ⟨⟨_, _, _, _, rfl⟩, fun _ _ _ => rfl⟩
  · exact .refl _ m

theorem differsIn_withdrawTopics (m : Master) (id : BrokerId) (ts : List String) :
    DiffersIn .broker m (m.withdrawTopics id ts).2 := by
  induction ts generalizing m with
  | nil => exact .refl _ m
  | cons t ts ih =>
    unfold withdrawTopics
    split
    · exact .refl _ m
    · refine .trans ?_ (ih _)
      exact ⟨⟨_, _, _, _, rfl⟩, fun _ _ _ => rfl⟩

theorem differsIn_releaseBroker (m : Master) (id : BrokerId) :
    DiffersIn .broker m (m.releaseBroker id).2 := by
  have hw := differsIn_withdrawTopics m id (m.topicsToWithdraw id).toList
  unfold releaseBroker
  split
  · rename_i heq
    rw [heq] at hw
    exact hw
  · rename_i heq
    rw [heq] at hw
    exact (hw.forget _).trans ⟨⟨_, _, _, _, rfl⟩, fun _ _ _ => rfl⟩

theorem differsIn_brokerRegister (m : Master) (r : BrokerRegister) :
    DiffersIn .broker m (m.brokerRegister r).2 := by
  unfold brokerRegister
  split
  · exact .refl _ m
  · rename_i c _
    have he : DiffersIn .broker m (m.enrolBroker r c) := by
      refine .hear ?_ _
      exact ⟨⟨_, _, _, m.topology.hosted, rfl⟩, fun _ _ _ => rfl⟩
    exact he.trans (differsIn_pushOffer _ _)

theorem differsIn_brokerHeartbeat (m : Master) (r : BrokerHeartbeat) :
    DiffersIn .broker m (m.brokerHeartbeat r).2 := by
  refine allow_snd (.refl _ m) ?_
  have hear : DiffersIn .broker m (m.hear .broker (brokerKey r.broker)) := .hear (.refl _ m) _
  simp only []
  split
  · exact hear.trans (differsIn_releaseBroker _ _)
  · split
    · exact hear.trans (differsIn_releaseBroker _ _)
    · split
      · exact hear.trans ⟨⟨_, _, _, m.topology.hosted, rfl⟩, fun _ _ _ => rfl⟩
      · refine .trans (hear.trans ?_) (differsIn_pushOffer _ _)
        exact ⟨⟨_, _, _, m.topology.hosted, rfl⟩, fun _ _ _ => rfl⟩

/-! ## Silent nodes -/

theorem differsIn_releaseNode (m : Master) (c : NodeClass) (key : String) :
    DiffersIn c m (m.releaseNode c key).2 := by
  cases c with
  | producer => exact differsIn_releaseProducer m key
  | consumer =>
    rcases releaseNode_consumer_snd m key with h | ⟨id, h⟩
    · rw [h]
      exact .refl _ m
    · rw [h]
      exact differsIn_releaseConsumer m id
  | broker =>
    rcases releaseNode_broker_snd m key with h | ⟨id, h⟩
    · rw [h]
      exact .refl _ m
    · rw [h]
      exact differsIn_releaseBroker m id

theorem differsIn_expire (m : Master) (c : NodeClass) : DiffersIn c m (m.expire c).2 :=
  expire_induction (p := DiffersIn c m) (fun _ key h => h.hear key) (fun _ key h => h.forget key)
    (fun m' key h => h.trans (differsIn_releaseNode m' c key)) (.refl c m)

/-! ## All operations -/

/-- Operations about nodes of a class touch what is known of that class only. -/
theorem differsIn_after {op : Operation} (hop : op.class? = some c) (m : Master) :
    DiffersIn c m (m.after op) := by
  cases op with
  | producerRegister r =>
    cases hop
    exact differsIn_producerRegister m r
  | producerHeartbeat r =>
    cases hop
    exact differsIn_producerHeartbeat m r
  | producerClose id =>
    cases hop
    exact allow_snd (.refl _ m) (differsIn_releaseProducer m id)
  | consumerRegister r =>
    cases hop
    exact differsIn_consumerRegister m r
  | consumerHeartbeat r =>
    cases hop
    exact differsIn_consumerHeartbeat m r
  | consumerClose r =>
    cases hop
    exact differsIn_consumerClose m r
  | brokerRegister r =>
    cases hop
    exact differsIn_brokerRegister m r
  | brokerHeartbeat r =>
    cases hop
    exact differsIn_brokerHeartbeat m r
  | brokerClose id =>
    cases hop
    exact allow_snd (.refl _ m) (differsIn_releaseBroker m id)
  | expire d =>
    obtain rfl := Option.some.inj hop
    exact differsIn_expire m d
  | _ => cases hop

/-- An edit touches the store only, and a refused one nothing. -/
theorem editStore_cases (m : Master) (e : Store.Edit) :
    (∃ store, m.store.edit e = .ok store ∧ m.editStore e = (.ok (), { m with store })) ∨
      ∃ fault, m.editStore e = (.error fault, m) := by
  unfold editStore
  cases m.store.edit e with
  | ok store => exact .inl ⟨store, rfl, rfl⟩
  | error fault => exact .inr ⟨fault, rfl⟩

/-- What an operator wants of a broker is recorded by an edit. -/
theorem setBrokerIntent_cases (m : Master) (id : BrokerId) (intent : Intent) :
    (∃ store, m.store.edit (.setIntent id intent) = .ok store ∧
      (m.setBrokerIntent id intent).2 = { m with store }) ∨
    (m.setBrokerIntent id intent).2 = m := by
  refine allow_snd (p := fun m' => (∃ store, m.store.edit (.setIntent id intent) = .ok store ∧
    m' = { m with store }) ∨ m' = m) (.inr rfl) ?_
  cases hs : m.store.setIntent id intent with
  | ok store => exact .inl ⟨store, hs, rfl⟩
  | error fault => exact .inr rfl

end Master

end ClusterMaster
