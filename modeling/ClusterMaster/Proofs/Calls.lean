import ClusterMaster.Proofs.Frames
import ClusterMaster.Proofs.Holdings
import ClusterMaster.Proofs.Membership

/-!
# What the calls of consumers do

Each accepted call is described by what can be seen afterwards: who is a member, what is queued,
and what is held. A call that is refused changes nothing.

* `consumer?_enrol`, `queue_enrol`, `holdings_enrol` : a consumer that registers starts over;
* `Beaten` : a heartbeat takes out the acknowledged head of the queue (`taken`), applies it to the
  holding, and hands the next head out;
* `DropsConsumer` : a consumer that leaves is gone with its queue and its holding.
-/

namespace ClusterMaster

/-! ## Names -/

/-- A name that requests may use. -/
def Usable (name : String) : Prop := Text.isBlank name = false ∧ '@' ∉ name.toList

theorem requireName_ok_iff {context field name : String} :
    requireName context field name = .ok () ↔ Usable name := by
  unfold requireName Usable
  cases hb : Text.isBlank name with
  | true => simp
  | false =>
    cases hc : name.toList.contains '@' with
    | true =>
      have hmem : '@' ∈ name.toList := by simpa using hc
      simp [hmem]
    | false =>
      have hmem : '@' ∉ name.toList := by simpa using hc
      simp [hmem]

theorem ConsumerRegister.usable_of_validate {r : ConsumerRegister} (h : r.validate = .ok ()) :
    Usable r.consumer ∧ Usable r.group := by
  unfold ConsumerRegister.validate at h
  obtain ⟨hid, h⟩ := bind_eq_ok_iff.mp h
  obtain ⟨hgroup, -⟩ := bind_eq_ok_iff.mp h
  exact ⟨requireName_ok_iff.mp hid, requireName_ok_iff.mp hgroup⟩

/-- Different consumers are tracked under different keys. -/
theorem livenessKey_ne {id id' group group' : String} (hg : '@' ∉ group.toList)
    (hg' : '@' ∉ group'.toList) (h : id ≠ id') : livenessKey id group ≠ livenessKey id' group' :=
  fun e => h ((livenessKey_inj hg hg').mp e).1

/-! ## Queues, as one consumer sees them -/

/-- The head that an acknowledgement takes out of a queue. -/
def taken (q : List Event) (acknowledged : Nat) : Option Event :=
  match q with
  | [] => none
  | e :: _ =>
    if acknowledged ≠ 0 ∧ e.status = .processing ∧ e.pass ≤ acknowledged then some e else none

/-- What an acknowledgement leaves of a queue. -/
def leftOver (q : List Event) (acknowledged : Nat) : List Event :=
  match taken q acknowledged with
  | some _ => q.tail
  | none => q

/-- A queue whose head has been handed out. -/
def handedOut : List Event → List Event
  | [] => []
  | e :: es => { e with status := .processing } :: es

/-- What is handed out of a queue: its head, unless it has been handed out before. -/
def nextEvent : List Event → Option Event
  | [] => none
  | e :: _ => if e.status = .processing then none else some { e with status := .processing }

theorem taken_eq_some_iff {q : List Event} {n : Nat} {e : Event} : taken q n = some e ↔
    ∃ es, q = e :: es ∧ n ≠ 0 ∧ e.status = .processing ∧ e.pass ≤ n := by
  cases q with
  | nil => simp [taken]
  | cons a as =>
    unfold taken
    simp only [Option.ite_none_right_eq_some, Option.some.injEq, List.cons.injEq]
    constructor
    · rintro ⟨h, rfl⟩
      exact ⟨as, ⟨rfl, rfl⟩, h⟩
    · rintro ⟨es, ⟨rfl, -⟩, h⟩
      exact ⟨h, rfl⟩

theorem leftOver_suffix (q : List Event) (n : Nat) : leftOver q n <:+ q := by
  unfold leftOver
  split
  · exact List.tail_suffix q
  · exact List.suffix_refl q

theorem length_handedOut (q : List Event) : (handedOut q).length = q.length := by
  cases q <;> rfl

theorem mem_handedOut {q : List Event} {e : Event} (h : e ∈ handedOut q) :
    ∃ e' ∈ q, e.pass = e'.pass ∧ e.kind = e'.kind ∧ e.subscriptions = e'.subscriptions := by
  cases q with
  | nil => cases h
  | cons a as =>
    rcases List.mem_cons.mp h with rfl | h
    · exact ⟨a, List.mem_cons_self, rfl, rfl, rfl⟩
    · exact ⟨e, List.mem_cons_of_mem _ h, rfl, rfl, rfl⟩

namespace EventQueues

variable {q : EventQueues} {c d : String} {n : Nat}

theorem acknowledge_cases (hn : n ≠ 0) :
    (∃ e, taken (q.queue c) n = some e ∧
      q.acknowledge c n = (some { e with status := .done }, q.setQueue c (q.queue c).tail)) ∨
    (taken (q.queue c) n = none ∧ q.acknowledge c n = (none, q)) := by
  unfold acknowledge taken
  cases q.queue c with
  | nil => exact .inr ⟨rfl, rfl⟩
  | cons e es =>
    by_cases h : e.status = .processing ∧ e.pass ≤ n
    · exact .inl ⟨e, by simp [hn, h], by simp [h]⟩
    · exact .inr ⟨by simp [hn, h], by simp [h]⟩

theorem deliver_fst : (q.deliver c).1 = nextEvent (q.queue c) := by
  unfold deliver nextEvent
  cases q.queue c with
  | nil => rfl
  | cons e es =>
    simp only []
    split <;> rfl

theorem queue_deliver : (q.deliver c).2.queue d =
    if c = d then handedOut (q.queue c) else q.queue d := by
  unfold deliver
  cases hq : q.queue c with
  | nil =>
    by_cases h : c = d
    · subst h
      rw [if_pos rfl, hq]
      rfl
    · rw [if_neg h]
  | cons e es =>
    simp only []
    by_cases hs : e.status = .processing
    · rw [if_pos hs]
      by_cases h : c = d
      · subst h
        rw [if_pos rfl, hq, handedOut, ← hs]
      · rw [if_neg h]
    · rw [if_neg hs]
      exact queue_setQueue

end EventQueues

/-- A holding once the event that was taken out, if any, has been carried out. -/
def Holding.changedBy (h : Holding) : Option Event → Holding
  | some e => h.apply e
  | none => h

theorem Holding.WellFiled.changedBy {h : Holding} (hw : h.WellFiled) (e : Option Event) :
    (h.changedBy e).WellFiled := by
  cases e with
  | some e => exact hw.apply e
  | none => exact hw

theorem Holding.apply_congr {h : Holding} {e e' : Event} (hk : e.kind = e'.kind)
    (hs : e.subscriptions = e'.subscriptions) : h.apply e = h.apply e' := by
  unfold Holding.apply
  rw [hk, hs]

namespace Master

variable {m : Master}

/-- What a consumer holds. -/
def holdingOf (m : Master) (id : String) : Holding := m.holdings.getD id Table.empty

theorem checkPrimary_ok_iff : m.checkPrimary = .ok () ↔ m.store.primary = true := by
  unfold checkPrimary
  cases m.store.primary <;> simp

theorem checkFree_ok_iff {l : RowLock} {key : String} :
    l.checkFree key = .ok () ↔ l.isLocked key = false := by
  unfold RowLock.checkFree
  cases l.isLocked key <;> simp

/-! ## Registering -/

theorem after_consumerRegister (m : Master) (r : ConsumerRegister) :
    m.checkConsumerRegister r = .ok () ∧ m.after (.consumerRegister r) = m.enrolConsumer r ∨
      (∃ e, m.checkConsumerRegister r = .error e) ∧ m.after (.consumerRegister r) = m := by
  have hafter : m.after (.consumerRegister r) = (m.consumerRegister r).2 := rfl
  unfold consumerRegister at hafter
  rcases allow_cases m (m.checkConsumerRegister r)
    ((.ok ((m.enrolConsumer r).consumerAdmitted r.group), m.enrolConsumer r) :
      Outcome ConsumerAdmitted) with ⟨hc, h⟩ | ⟨e, hc, h⟩
  · rw [h] at hafter
    exact .inl ⟨hc, hafter⟩
  · rw [h] at hafter
    exact .inr ⟨⟨e, hc⟩, hafter⟩

theorem of_checkConsumerRegister {r : ConsumerRegister} (h : m.checkConsumerRegister r = .ok ()) :
    Usable r.consumer ∧ Usable r.group ∧ m.groups.checkJoin r.toConsumer = .ok () := by
  unfold checkConsumerRegister at h
  obtain ⟨-, h⟩ := bind_eq_ok_iff.mp h
  obtain ⟨hvalid, h⟩ := bind_eq_ok_iff.mp h
  obtain ⟨-, hjoin⟩ := bind_eq_ok_iff.mp h
  obtain ⟨hid, hgroup⟩ := ConsumerRegister.usable_of_validate hvalid
  exact ⟨hid, hgroup, hjoin⟩

section Enrol

variable {r : ConsumerRegister} {id : String}

theorem groups_enrol : (m.enrolConsumer r).groups = m.groups.join r.toConsumer ∨
    (m.enrolConsumer r).groups = (m.groups.join r.toConsumer).setAllocated r.group := by
  have hgroups : (m.enrolConsumer r).groups =
      if !r.subscribed.isEmpty || !r.notAllocated then
        (m.groups.join r.toConsumer).setAllocated r.group
      else m.groups.join r.toConsumer := rfl
  rw [hgroups]
  split
  · exact .inr rfl
  · exact .inl rfl

theorem consumer?_enrol (h : m.groups.Coherent) (hj : m.groups.checkJoin r.toConsumer = .ok ()) :
    (m.enrolConsumer r).groups.consumer? id =
      if id = r.consumer then some r.toConsumer else m.groups.consumer? id := by
  have hjoin : (m.groups.join r.toConsumer).consumer? id =
      if id = r.consumer then some r.toConsumer else m.groups.consumer? id :=
    Groups.consumer?_join h hj
  rcases groups_enrol (m := m) (r := r) with he | he
  · rw [he]
    exact hjoin
  · rw [he, Groups.consumer?_setAllocated]
    exact hjoin

theorem coherent_enrol (h : m.groups.Coherent) (hj : m.groups.checkJoin r.toConsumer = .ok ()) :
    (m.enrolConsumer r).groups.Coherent := by
  rcases groups_enrol (m := m) (r := r) with he | he
  · rw [he]
    exact h.join hj
  · rw [he]
    exact (h.join hj).setAllocated _

theorem queue_enrol : (m.enrolConsumer r).events.queue id =
    if r.consumer = id then [] else m.events.queue id :=
  EventQueues.queue_clear

theorem holdings_enrol : (m.enrolConsumer r).holdings.get? id =
    if r.consumer = id then
      if r.subscribed.isEmpty then none else some (Holding.ofSubscriptions r.subscribed)
    else m.holdings.get? id := by
  have hholdings : (m.enrolConsumer r).holdings =
      if r.subscribed.isEmpty then m.holdings.erase r.consumer
      else m.holdings.insert r.consumer (Holding.ofSubscriptions r.subscribed) := rfl
  rw [hholdings]
  split
  · exact Table.get?_erase
  · exact Table.get?_insert

theorem isTracked_enrol {group : String} (h : m.isTracked id group = true ∨
    id = r.consumer ∧ group = r.group) : (m.enrolConsumer r).isTracked id group = true := by
  have hear : (m.enrolConsumer r).isTracked id group =
      (decide ((NodeClass.consumer, r.toConsumer.livenessKey) = (.consumer, livenessKey id group)) ||
        m.isTracked id group) :=
    isRegistered_hear (m := m)
  rw [hear, Bool.or_eq_true]
  rcases h with h | ⟨rfl, rfl⟩
  · exact .inr h
  · exact .inl (decide_eq_true rfl)

end Enrol

/-! ## Heartbeats -/

/-- What an accepted heartbeat leads to. -/
structure Beaten (m : Master) (r : ConsumerHeartbeat) (m' : Master) : Prop where
  settings : m'.settings = m.settings
  store : m'.store = m.store
  consumerRows : m'.consumerRows = m.consumerRows
  lastPass : m'.lastPass = m.lastPass
  inFlight : m'.inFlight = m.inFlight
  firstPass : m'.firstPass = m.firstPass
  consumer? : ∀ id, m'.groups.consumer? id = m.groups.consumer? id
  coherent : m.groups.Coherent → m'.groups.Coherent
  tracked : ∀ id group, m.isTracked id group = true → m'.isTracked id group = true
  queue : ∀ id, m'.events.queue id = if r.consumer = id then
    handedOut (leftOver (m.events.queue id) r.acknowledged) else m.events.queue id
  others : ∀ id, r.consumer ≠ id → m'.holdings.get? id = m.holdings.get? id
  holding : r.reported = none → m'.holdingOf r.consumer =
    (m.holdingOf r.consumer).changedBy (taken (m.events.queue r.consumer) r.acknowledged)
  emptied : r.reported = some [] → m'.holdingOf r.consumer = Table.empty ∨
    m'.holdingOf r.consumer =
      (m.holdingOf r.consumer).changedBy (taken (m.events.queue r.consumer) r.acknowledged)
  wellFiled : (m.holdingOf r.consumer).WellFiled → (m'.holdingOf r.consumer).WellFiled

theorem holdingOf_insert {hs : Holdings} {x : String} {h : Holding} :
    (hs.insert x h).getD x Table.empty = h := by
  rw [Table.getD, Table.get?_insert_self, Option.getD_some]

theorem holdingOf_erase {hs : Holdings} {x : String} :
    (hs.erase x).getD x Table.empty = Table.empty := by
  rw [Table.getD, Table.get?_erase_self, Option.getD_none]

/-- What taking an acknowledgement leads to. -/
theorem takeAcknowledgement_spec (m : Master) (r : ConsumerHeartbeat) :
    ∃ groups events holdings, m.takeAcknowledgement r = { m with groups, events, holdings } ∧
      (∀ id, groups.consumer? id = m.groups.consumer? id) ∧
      (m.groups.Coherent → groups.Coherent) ∧
      (∀ id, events.queue id = if r.consumer = id then
        leftOver (m.events.queue id) r.acknowledged else m.events.queue id) ∧
      (∀ id, r.consumer ≠ id → holdings.get? id = m.holdings.get? id) ∧
      holdings.getD r.consumer Table.empty =
        (m.holdingOf r.consumer).changedBy (taken (m.events.queue r.consumer) r.acknowledged) := by
  unfold takeAcknowledgement
  by_cases hack : r.acknowledged = 0
  · have hnone : ∀ q : List Event, taken q 0 = none := by
      intro q
      cases q with
      | nil => rfl
      | cons e es => simp [taken]
    rw [if_pos hack]
    refine ⟨m.groups, m.events, m.holdings, rfl, fun _ => rfl, id, fun id => ?_, fun _ _ => rfl, ?_⟩
    · rw [hack, leftOver, hnone]
      split <;> rfl
    · rw [hack, hnone]
      rfl
  · rw [if_neg hack]
    simp only []
    rcases EventQueues.acknowledge_cases (q := m.events) (c := r.consumer) hack with
      ⟨e, he, hacked⟩ | ⟨hnone, hacked⟩
    · simp only [hacked]
      refine ⟨_, _, _, rfl, fun _ => Groups.consumer?_setAllocated, fun h => h.setAllocated _,
        fun id => ?_, fun id hid => Table.get?_insert_of_ne hid, ?_⟩
      · rw [EventQueues.queue_setQueue]
        by_cases hid : r.consumer = id
        · subst hid
          rw [if_pos rfl, if_pos rfl, leftOver, he]
        · rw [if_neg hid, if_neg hid]
      · rw [holdingOf_insert, he]
        exact Holding.apply_congr rfl rfl
    · simp only [hacked]
      refine ⟨_, _, _, rfl, fun _ => Groups.consumer?_setAllocated, fun h => h.setAllocated _,
        fun id => ?_, fun _ _ => rfl, ?_⟩
      · by_cases hid : r.consumer = id
        · subst hid
          rw [if_pos rfl, leftOver, hnone]
        · rw [if_neg hid]
      · rw [hnone]
        rfl

/-- What taking a report leads to. -/
theorem takeReport_spec (m : Master) (x : String) (subs : List Subscription) :
    ∃ holdings, m.takeReport x subs = { m with holdings } ∧
      (∀ id, x ≠ id → holdings.get? id = m.holdings.get? id) ∧
      (holdings = m.holdings ∨
        holdings.getD x Table.empty = Holding.ofSubscriptions subs) := by
  unfold takeReport
  simp only []
  split_ifs with hsame hempty
  · exact ⟨m.holdings, rfl, fun _ _ => rfl, .inl rfl⟩
  · refine ⟨_, rfl, fun id hid => Table.get?_erase_of_ne hid, .inr ?_⟩
    rw [holdingOf_erase]
    refine (Table.ext_get? fun k => ?_).symm
    rw [Table.isEmpty, List.isEmpty_iff] at hempty
    rw [Table.get?, hempty]
    rfl
  · exact ⟨_, rfl, fun id hid => Table.get?_insert_of_ne hid, .inr holdingOf_insert⟩

theorem consumerHeartbeat_spec {r : ConsumerHeartbeat} (h : m.checkConsumerHeartbeat r = .ok ()) :
    (∃ notAllocated, (m.consumerHeartbeat r).1 = .ok
      { notAllocated := notAllocated
        event := nextEvent (leftOver (m.events.queue r.consumer) r.acknowledged) }) ∧
    m.Beaten r (m.consumerHeartbeat r).2 := by
  obtain ⟨groups, events, holdings, hack, hmembers, hcoherent, hqueue, hothers, hown⟩ :=
    takeAcknowledgement_spec (m.hear .consumer (livenessKey r.consumer r.group)) r
  have hfiled : (m.holdingOf r.consumer).WellFiled →
      (holdings.getD r.consumer Table.empty).WellFiled := by
    intro hw
    rw [hown]
    exact hw.changedBy _
  have hmark : ∀ q : EventQueues, ∀ id, (∀ id, q.queue id = if r.consumer = id then
      leftOver (m.events.queue id) r.acknowledged else m.events.queue id) →
      (q.deliver r.consumer).2.queue id = if r.consumer = id then
        handedOut (leftOver (m.events.queue id) r.acknowledged) else m.events.queue id := by
    intro q id hq
    rw [EventQueues.queue_deliver, hq, hq]
    by_cases hid : r.consumer = id
    · subst hid
      rw [if_pos rfl, if_pos rfl, if_pos rfl]
    · rw [if_neg hid, if_neg hid, if_neg hid]
  have hnext : (events.deliver r.consumer).1 =
      nextEvent (leftOver (m.events.queue r.consumer) r.acknowledged) := by
    rw [EventQueues.deliver_fst, hqueue, if_pos rfl]
    rfl
  have htracked : ∀ id group, m.isTracked id group = true →
      (m.hear .consumer (livenessKey r.consumer r.group)).isTracked id group = true := by
    intro id group ht
    unfold isTracked at ht ⊢
    rw [isRegistered_hear, ht, Bool.or_true]
  unfold consumerHeartbeat
  rw [h]
  simp only [allow, hack]
  cases hr : r.reported with
  | none =>
    refine ⟨⟨_, by rw [← hnext]⟩, ?_⟩
    refine ⟨rfl, rfl, rfl, rfl, rfl, rfl, hmembers, hcoherent, htracked, fun id => hmark _ id hqueue,
      hothers, fun _ => hown, fun h => ?_, hfiled⟩
    rw [hr] at h
    cases h
  | some subs =>
    obtain ⟨reported, hrep, hothers', hcases⟩ := takeReport_spec
      { m.hear .consumer (livenessKey r.consumer r.group) with groups, events, holdings }
      r.consumer subs
    simp only [hrep]
    refine ⟨⟨_, by rw [← hnext]⟩, ?_⟩
    refine ⟨rfl, rfl, rfl, rfl, rfl, rfl, hmembers, hcoherent, htracked, fun id => hmark _ id hqueue,
      fun id hid => (hothers' id hid).trans (hothers id hid), fun h => ?_, fun h => ?_, fun hw => ?_⟩
    · rw [hr] at h
      cases h
    · rw [hr] at h
      obtain rfl := Option.some.inj h
      rcases hcases with rfl | hempty
      · exact .inr hown
      · exact .inl hempty
    · rcases hcases with rfl | hset
      · exact hfiled hw
      · unfold holdingOf
        simp only [hset]
        exact Holding.wellFiled_ofSubscriptions subs

/-- A heartbeat is taken and answered with the next event, or refused. -/
theorem perform_consumerHeartbeat_cases (m : Master) (r : ConsumerHeartbeat) :
    (m.checkConsumerHeartbeat r = .ok () ∧ m.Beaten r (m.after (.consumerHeartbeat r)) ∧
      ∃ notAllocated, (m.perform (.consumerHeartbeat r)).1 = .ok (.pulse
        { notAllocated := notAllocated
          event := nextEvent (leftOver (m.events.queue r.consumer) r.acknowledged) })) ∨
    ∃ e, m.checkConsumerHeartbeat r = .error e ∧
      m.perform (.consumerHeartbeat r) = (.error e, m) := by
  have hperform : m.perform (.consumerHeartbeat r) =
      ((m.consumerHeartbeat r).1.map .pulse, (m.consumerHeartbeat r).2) := rfl
  cases hc : m.checkConsumerHeartbeat r with
  | ok u =>
    obtain ⟨⟨notAllocated, hans⟩, hb⟩ := consumerHeartbeat_spec hc
    refine .inl ⟨rfl, hb, notAllocated, ?_⟩
    rw [hperform, hans]
    rfl
  | error e =>
    refine .inr ⟨e, rfl, ?_⟩
    have hrefused : m.consumerHeartbeat r = (.error e, m) := by
      unfold consumerHeartbeat
      rw [hc]
      rfl
    rw [hperform, hrefused]
    rfl

theorem after_consumerHeartbeat (m : Master) (r : ConsumerHeartbeat) :
    m.checkConsumerHeartbeat r = .ok () ∧ m.Beaten r (m.after (.consumerHeartbeat r)) ∨
      (∃ e, m.checkConsumerHeartbeat r = .error e) ∧ m.after (.consumerHeartbeat r) = m := by
  rcases m.perform_consumerHeartbeat_cases r with ⟨hc, hb, -⟩ | ⟨e, hc, he⟩
  · exact .inl ⟨hc, hb⟩
  · exact .inr ⟨⟨e, hc⟩, congrArg Prod.snd he⟩

theorem takeAcknowledgement_touches (m : Master) (r : ConsumerHeartbeat) :
    ∃ events holdings, m.takeAcknowledgement r = { m with
      groups := if r.acknowledged = 0 then m.groups else m.groups.setAllocated r.group
      events, holdings } := by
  unfold takeAcknowledgement
  by_cases hack : r.acknowledged = 0
  · rw [if_pos hack, if_pos hack]
    exact ⟨_, _, rfl⟩
  · rw [if_neg hack, if_neg hack]
    simp only []
    split <;> exact ⟨_, _, rfl⟩

/-- An accepted heartbeat is heard, changes events and holdings, and may leave a group allocated. -/
theorem consumerHeartbeat_touches {r : ConsumerHeartbeat}
    (h : m.checkConsumerHeartbeat r = .ok ()) :
    ∃ events holdings, m.after (.consumerHeartbeat r) =
      { m.hear .consumer (livenessKey r.consumer r.group) with
        groups := if r.acknowledged = 0 then m.groups else m.groups.setAllocated r.group
        events, holdings } := by
  obtain ⟨events, holdings, hack⟩ :=
    takeAcknowledgement_touches (m.hear .consumer (livenessKey r.consumer r.group)) r
  show ∃ events holdings, (m.consumerHeartbeat r).2 = _
  unfold consumerHeartbeat
  rw [h]
  simp only [allow]
  cases r.reported with
  | none =>
    simp only [hack]
    exact ⟨_, _, rfl⟩
  | some subs =>
    obtain ⟨reported, hrep, -⟩ := takeReport_spec
      ((m.hear .consumer (livenessKey r.consumer r.group)).takeAcknowledgement r) r.consumer subs
    simp only [hrep]
    simp only [hack]
    exact ⟨_, _, rfl⟩

/-! ## Leaving -/

/-- A consumer is gone, and the others are as before. -/
structure DropsConsumer (x : String) (m m' : Master) : Prop where
  settings : m'.settings = m.settings
  groups : m'.groups = (m.groups.leave x).2
  events : m'.events = m.events.clear x
  holdings : m'.holdings = m.holdings.erase x
  consumerRows : m'.consumerRows = m.consumerRows
  lastPass : m'.lastPass = m.lastPass
  inFlight : m'.inFlight = m.inFlight
  firstPass : m'.firstPass = m.firstPass
  tracked : ∀ id group, id ≠ x → '@' ∉ group.toList → m.isTracked id group = true →
    m'.isTracked id group = true

namespace DropsConsumer

variable {x : String}

theorem queue (h : DropsConsumer x m m') (id : String) :
    m'.events.queue id = if x = id then [] else m.events.queue id := by
  rw [h.events, EventQueues.queue_clear]

theorem holdingOf (h : DropsConsumer x m m') (id : String) :
    m'.holdingOf id = if x = id then Table.empty else m.holdingOf id := by
  unfold Master.holdingOf Table.getD
  rw [h.holdings, Table.get?_erase]
  split <;> rfl

theorem consumer?_iff (h : DropsConsumer x m m') (hc : m.groups.Coherent) {id : String}
    {c : Consumer} :
    m'.groups.consumer? id = some c ↔ x ≠ id ∧ m.groups.consumer? id = some c := by
  rw [h.groups, Groups.consumer?_leave hc]
  split
  · rename_i heq
    constructor
    · intro hnone
      cases hnone
    · rintro ⟨hne, -⟩
      exact absurd heq hne
  · rename_i hne
    exact ⟨fun h => ⟨hne, h⟩, fun h => h.2⟩

end DropsConsumer

/-- The groups members are filed under hold no at sign. -/
def GroupsUsable (m : Master) : Prop :=
  ∀ id c, m.groups.consumer? id = some c → '@' ∉ c.group.toList

theorem isTracked_forget {m : Master} {key id group : String} (hne : key ≠ livenessKey id group)
    (ht : m.isTracked id group = true) : (m.forget .consumer key).isTracked id group = true := by
  have hne' : (NodeClass.consumer, key) ≠ (.consumer, livenessKey id group) :=
    fun h => hne (congrArg Prod.snd h)
  unfold isTracked at ht ⊢
  rw [isRegistered_forget, ht, decide_eq_false hne']
  rfl

theorem dropConsumer_spec (hc : m.groups.Coherent) (hu : m.GroupsUsable) (x : String) :
    DropsConsumer x m (m.dropConsumer x).2 := by
  have hfst := Groups.leave_fst m.groups x
  unfold dropConsumer
  simp only []
  split
  · rename_i groups hleave
    exact ⟨rfl, by rw [hleave], rfl, rfl, rfl, rfl, rfl, rfl, fun _ _ _ _ ht => ht⟩
  · rename_i c dissolved groups hleave
    rw [hleave, Option.map_some] at hfst
    have hid := hc.id_eq hfst.symm
    have hgroup := hu x c hfst.symm
    have htracked : ∀ id group, id ≠ x → '@' ∉ group.toList → m.isTracked id group = true →
        (m.forget .consumer c.livenessKey).isTracked id group = true := by
      intro id group hne hg ht
      exact isTracked_forget (livenessKey_ne hgroup hg (hid.symm ▸ hne.symm)) ht
    split <;> exact ⟨rfl, by rw [hleave]; rfl, rfl, rfl, rfl, rfl, rfl, rfl, htracked⟩

theorem releaseConsumer_cases (m : Master) (x : String) :
    (∃ c, m.releaseConsumer x = (.ok c, (m.dropConsumer x).2)) ∨
      ∃ e, m.releaseConsumer x = (.error e, m) := by
  unfold releaseConsumer
  rcases allow_cases m (m.consumerRows.checkFree x)
    ((.ok (m.dropConsumer x).1, (m.dropConsumer x).2) : Outcome (Option Consumer)) with
    ⟨-, h⟩ | ⟨e, -, h⟩
  · exact .inl ⟨_, h⟩
  · exact .inr ⟨e, h⟩

theorem after_consumerClose (hc : m.groups.Coherent) (hu : m.GroupsUsable) (r : ConsumerClose) :
    m.after (.consumerClose r) = m ∨ DropsConsumer r.consumer m (m.after (.consumerClose r)) := by
  have hafter : m.after (.consumerClose r) = (m.consumerClose r).2 := rfl
  rw [hafter]
  unfold consumerClose
  refine allow_snd (p := fun m' => m' = m ∨ DropsConsumer r.consumer m m') (.inl rfl) ?_
  rcases releaseConsumer_cases m r.consumer with ⟨c, h⟩ | ⟨e, h⟩
  · rw [h]
    exact .inr (dropConsumer_spec hc hu r.consumer)
  · rw [h]
    exact .inl rfl

/-- A silent consumer is dropped, unless its row is held or its key names no consumer. -/
theorem letGo_consumer (hc : m.groups.Coherent) (hu : m.GroupsUsable) (key : String) :
    SameConsumers m (m.letGo .consumer key) ∨ ∃ x, DropsConsumer x m (m.letGo .consumer key) := by
  unfold letGo releaseNode
  cases hsplit : splitLivenessKey key with
  | none =>
    refine .inl ⟨rfl, rfl, rfl, rfl, rfl, rfl, rfl, rfl, fun id group hg ht => isTracked_forget ?_ ht⟩
    intro hkey
    rw [hkey, splitLivenessKey_livenessKey _ hg] at hsplit
    cases hsplit
  | some parts =>
    obtain ⟨x, g⟩ := parts
    have hother : ∀ id group, id ≠ x → '@' ∉ group.toList → m.isTracked id group = true →
        (m.forget .consumer key).isTracked id group = true := by
      intro id group hne hg ht
      refine isTracked_forget (fun hkey => hne ?_) ht
      rw [hkey, splitLivenessKey_livenessKey _ hg, Option.some.injEq, Prod.mk.injEq] at hsplit
      exact hsplit.1
    simp only []
    rcases releaseConsumer_cases (m.forget .consumer key) x with ⟨c, h⟩ | ⟨e, h⟩
    · have hdrop := dropConsumer_spec (m := m.forget .consumer key) hc hu x
      simp only [h]
      exact .inr ⟨x, hdrop.settings, hdrop.groups, hdrop.events, hdrop.holdings, hdrop.consumerRows,
        hdrop.lastPass, hdrop.inFlight, hdrop.firstPass,
        fun id group hne hg ht => hdrop.tracked id group hne hg (hother id group hne hg ht)⟩
    · simp only [h]
      refine .inl ⟨rfl, rfl, rfl, rfl, rfl, rfl, rfl, rfl, fun id group _ ht => ?_⟩
      -- the key is tracked again, and the others have been tracked all along
      have hear : ((m.forget .consumer key).hear .consumer key).isTracked id group =
          (decide ((NodeClass.consumer, key) = (.consumer, livenessKey id group)) ||
            (m.forget .consumer key).isTracked id group) := isRegistered_hear
      rw [hear, Bool.or_eq_true]
      by_cases hkey : key = livenessKey id group
      · exact .inl (by rw [hkey]; exact decide_eq_true rfl)
      · exact .inr (isTracked_forget hkey ht)

end Master

end ClusterMaster
