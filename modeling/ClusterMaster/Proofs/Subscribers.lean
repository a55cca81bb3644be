import ClusterMaster.Proofs.Passes

/-!
# Which groups subscribe to a topic

The topology lists the groups that subscribe to a topic, next to what the groups say themselves.
A consumer that registers adds its topics, and the last member that leaves takes its topics away.
But the only member of a group may register anew with other topics, and then nothing takes away
those that it no longer asks for: the group has *abandoned* them. Whether it has can be read off
the history (`abandonedAfter`), and decides whether the list is right:

    the list of a topic is right about a group ↔
      the group has not abandoned the topic                      (subscribersOf_right_iff)

So a list never misses a group, and what it has too many are the abandoned topics
(`Indexed.subscribers`). They stay when the group is dissolved (`Forsaken.still_listed`).
-/

namespace ClusterMaster

/-! ## Groups and their topics -/

namespace Groups

variable {gs : Groups} {x group topic : String} {c : Consumer}

/-- The group has a member, and the topic is one of its topics. -/
def Subscribes (gs : Groups) (group topic : String) : Prop :=
  ∃ g, gs.group? group = some g ∧ g.members.isEmpty = false ∧ topic ∈ g.topics

/-- A group subscribes to what any of its members asks for. -/
theorem subscribes_iff (h : gs.Coherent) : gs.Subscribes group topic ↔
    ∃ id c, gs.consumer? id = some c ∧ c.group = group ∧ topic ∈ c.topics := by
  constructor
  · rintro ⟨g, hg, hm, ht⟩
    obtain ⟨⟨id, c⟩, he⟩ := List.exists_mem_of_ne_nil _ (List.isEmpty_eq_false_iff.mp hm)
    have hc := Table.get?_eq_some_iff.mpr he
    obtain ⟨-, hgroup, htopics, -⟩ := h.agrees hg hc
    refine ⟨id, c, (consumer?_eq_some_iff h).mpr ⟨g, hgroup ▸ hg, hc⟩, hgroup, ?_⟩
    rw [htopics]
    exact ht
  · rintro ⟨id, c, hc, rfl, ht⟩
    obtain ⟨g, hg, hm⟩ := (consumer?_eq_some_iff h).mp hc
    obtain ⟨-, -, htopics, -⟩ := h.agrees hg hm
    refine ⟨g, hg, ?_, htopics ▸ ht⟩
    exact List.isEmpty_eq_false_iff.mpr (List.ne_nil_of_mem (Table.get?_eq_some_iff.mp hm))

/-- The members of a group ask for the same topics. -/
theorem Coherent.topics_eq (h : gs.Coherent) {id id' : String} {d : Consumer}
    (hc : gs.consumer? id = some c) (hd : gs.consumer? id' = some d) (hgroup : c.group = d.group) :
    c.topics = d.topics := by
  obtain ⟨g, hg, hm⟩ := (consumer?_eq_some_iff h).mp hc
  obtain ⟨g', hg', hm'⟩ := (consumer?_eq_some_iff h).mp hd
  obtain rfl := Option.some.inj ((hgroup ▸ hg).symm.trans hg')
  rw [(h.agrees hg hm).2.2.1, (h.agrees hg' hm').2.2.1]

/-- Where there is a member, the group subscribes to what that one asks for. -/
theorem subscribes_iff_of_member (h : gs.Coherent) {id : String} (hc : gs.consumer? id = some c) :
    gs.Subscribes c.group topic ↔ topic ∈ c.topics := by
  rw [subscribes_iff h]
  constructor
  · rintro ⟨id', d, hd, hgroup, ht⟩
    rw [h.topics_eq hc hd hgroup.symm]
    exact ht
  · exact fun ht => ⟨id, c, hc, rfl, ht⟩

theorem subscribes_join (h : gs.Coherent) (hj : gs.checkJoin c = .ok ()) :
    (gs.join c).Subscribes group topic ↔
      if c.group = group then topic ∈ c.topics else gs.Subscribes group topic := by
  split
  · rename_i hgroup
    subst hgroup
    have hc : (gs.join c).consumer? c.id = some c := by rw [consumer?_join h hj, if_pos rfl]
    exact subscribes_iff_of_member (h.join hj) hc
  · rename_i hgroup
    rw [subscribes_iff (h.join hj), subscribes_iff h]
    refine exists_congr fun id => exists_congr fun d => ?_
    rw [consumer?_join h hj]
    split
    · rename_i hid
      subst hid
      -- the consumer is in its own group now, and was in no other before
      constructor
      · rintro ⟨hd, hg, -⟩
        obtain rfl := Option.some.inj hd
        exact absurd hg hgroup
      · rintro ⟨hd, hg, -⟩
        have hof : gs.groupOf? c.id = some d.group := by
          obtain ⟨g, hg, hm⟩ := (consumer?_eq_some_iff h).mp hd
          exact h.placed.mpr ⟨g, hg, Table.contains_iff.mpr ⟨d, hm⟩⟩
        rcases (of_checkJoin hj).1 with hnone | hsome
        · rw [hnone] at hof
          cases hof
        · rw [hsome] at hof
          exact absurd ((Option.some.inj hof).trans hg) hgroup
    · exact Iff.rfl

/-- Who leaves is found under its id, and leaves its group without members or with those that it
had besides. -/
theorem of_leave (h : gs.Coherent) {dissolved : Bool} (hl : (gs.leave x).1 = some (c, dissolved)) :
    gs.consumer? x = some c ∧ if dissolved then (gs.leave x).2.group? c.group = none
      else ∃ g left, gs.group? c.group = some g ∧ left.isEmpty = false ∧
        (gs.leave x).2.group? c.group = some { g with members := left } := by
  have hc : gs.consumer? x = some c := by
    rw [← leave_fst, hl]
    rfl
  obtain ⟨g, hg, hm⟩ := (consumer?_eq_some_iff h).mp hc
  have hof : gs.groupOf? x = some c.group :=
    h.placed.mpr ⟨g, hg, Table.contains_iff.mpr ⟨c, hm⟩⟩
  have hempty : dissolved = (g.members.erase x).isEmpty := by
    have hg' : ({ gs with groupOf := gs.groupOf.erase x } : Groups).group? c.group = some g := hg
    unfold leave at hl
    simp only [hof, hg', hm] at hl
    split at hl
    · rename_i he
      rw [← (Prod.mk.inj (Option.some.inj hl)).2]
      exact he.symm
    · rename_i he
      rw [← (Prod.mk.inj (Option.some.inj hl)).2]
      exact (Bool.eq_false_iff.mpr he).symm
  have hleft := group?_leave h (x := x) (n := c.group)
  rw [if_pos hof, hg, Option.bind_some, ← hempty] at hleft
  refine ⟨hc, ?_⟩
  cases dissolved with
  | true => exact hleft
  | false => exact ⟨g, g.members.erase x, hg, hempty.symm, hleft⟩

/-- A group goes on subscribing to its topics until it is dissolved. -/
theorem subscribes_leave (h : gs.Coherent) : (gs.leave x).2.Subscribes group topic ↔
    gs.Subscribes group topic ∧ ∀ c, (gs.leave x).1 = some (c, true) → c.group ≠ group := by
  constructor
  · intro hs
    refine ⟨?_, fun c hl hgroup => ?_⟩
    · obtain ⟨id, d, hd, hg, ht⟩ := (subscribes_iff (h.leave x)).mp hs
      rw [consumer?_leave h] at hd
      split at hd
      · cases hd
      · exact (subscribes_iff h).mpr ⟨id, d, hd, hg, ht⟩
    · have hnone : (gs.leave x).2.group? c.group = none := (of_leave h hl).2
      obtain ⟨g, hg, -⟩ := hs
      rw [← hgroup, hnone] at hg
      cases hg
  · rintro ⟨hs, hkept⟩
    obtain ⟨id, d, hd, hgroup, ht⟩ := (subscribes_iff h).mp hs
    by_cases hx : x = id
    · -- the one that leaves does not leave an empty group
      subst hx
      obtain ⟨⟨d', dissolved⟩, hl, rfl⟩ := Option.map_eq_some_iff.mp ((leave_fst gs x).trans hd)
      cases dissolved with
      | true => exact absurd hgroup (hkept _ hl)
      | false =>
        obtain ⟨g, left, hg, hempty, hleft⟩ := (of_leave h hl).2
        obtain ⟨g', hg', -, ht'⟩ := hs
        subst hgroup
        obtain rfl := Option.some.inj (hg.symm.trans hg')
        exact ⟨_, hleft, hempty, ht'⟩
    · refine (subscribes_iff (h.leave x)).mpr ⟨id, d, ?_, hgroup, ht⟩
      rw [consumer?_leave h, if_neg hx]
      exact hd

theorem subscribes_setAllocated (h : gs.Coherent) {name : String} :
    (gs.setAllocated name).Subscribes group topic ↔ gs.Subscribes group topic := by
  rw [subscribes_iff (h.setAllocated name), subscribes_iff h]
  simp only [consumer?_setAllocated]

end Groups

namespace Master

variable {m m' : Master} {group topic x : String}

/-! ## What leaves the lists alone -/

theorem DiffersIn.subscriptions {c : NodeClass} (h : DiffersIn c m m') (hc : c ≠ .consumer) :
    m'.topology.subscriptions = m.topology.subscriptions := by
  have htables := h.tables
  cases c with
  | producer =>
    obtain ⟨_, _, _, rfl⟩ := htables
    rfl
  | consumer => exact absurd rfl hc
  | broker =>
    obtain ⟨_, _, _, _, rfl⟩ := htables
    rfl

/-- What does not concern consumers leaves the subscriptions alone. -/
theorem subscriptions_after {op : Operation} (hop : op.concernsConsumers = false) (m : Master) :
    (m.after op).topology.subscriptions = m.topology.subscriptions := by
  cases hclass : op.class? with
  | some c =>
    refine (differsIn_after hclass m).subscriptions ?_
    rintro rfl
    cases op <;> cases hclass <;> cases hop
  | none => rw [(sameNodes_after hclass m).topology]

theorem subscriptions_consumerHeartbeat (m : Master) (r : ConsumerHeartbeat) :
    (m.after (.consumerHeartbeat r)).topology.subscriptions = m.topology.subscriptions := by
  rcases after_consumerHeartbeat m r with ⟨hr, -⟩ | ⟨-, he⟩
  · obtain ⟨events, holdings, he⟩ := consumerHeartbeat_touches hr
    rw [he]
    rfl
  · rw [he]

/-! ## What has been abandoned -/

/-- Which groups have abandoned which topics. -/
abbrev Abandonments := String → String → Prop

/-- A registration that is accepted leaves the group without a topic that it had. -/
def Abandons (m : Master) (op : Operation) (group topic : String) : Prop :=
  match op with
  | .consumerRegister r => m.checkConsumerRegister r = .ok () ∧ r.group = group ∧
      m.groups.Subscribes group topic ∧ topic ∉ r.topics
  | _ => False

/-- A registration that is accepted gives the group a topic. -/
def Adopts (m : Master) (op : Operation) (group topic : String) : Prop :=
  match op with
  | .consumerRegister r => m.checkConsumerRegister r = .ok () ∧ r.group = group ∧ topic ∈ r.topics
  | _ => False

/-- What has been abandoned once an operation has been carried out. -/
def abandonment (m : Master) (op : Operation) (n : Abandonments) : Abandonments := fun group topic =>
  m.Abandons op group topic ∨ (n group topic ∧ ¬m.Adopts op group topic)

/-- What has been abandoned after operations, one after the other. -/
def abandonedAfter (m : Master) (n : Abandonments) : List Operation → Abandonments
  | [] => n
  | op :: ops => (m.after op).abandonedAfter (m.abandonment op n) ops

/-! ## The invariant -/

/-- The lists name the groups that subscribe, and those that have abandoned the topic. -/
structure Indexed (m : Master) (n : Abandonments) : Prop where
  coherent : m.groups.Coherent
  subscribers : ∀ group topic, group ∈ m.topology.subscribersOf topic ↔
    m.groups.Subscribes group topic ∨ n group topic
  apart : ∀ group topic, n group topic → ¬m.groups.Subscribes group topic

/-- The list of a topic is what the subscriptions say. -/
theorem subscribersOf_congr (h : m'.topology.subscriptions = m.topology.subscriptions) :
    m'.topology.subscribersOf topic = m.topology.subscribersOf topic := by
  unfold Topology.subscribersOf
  rw [h]

namespace Indexed

variable {n n' : Abandonments}

theorem create {settings : Settings} {store : Store} (h : Master.create settings store = .ok m) :
    Indexed m fun _ _ => False := by
  obtain rfl := eq_of_create h
  refine ⟨Groups.coherent_empty, fun group topic => ?_, fun _ _ hn => hn.elim⟩
  rw [Topology.mem_subscribersOf]
  constructor
  · intro h
    exact absurd h KeySet.not_mem_empty
  · rintro (⟨g, hg, -⟩ | hn)
    · cases hg
    · exact hn.elim

theorem same (h : Indexed m n) (hc : m'.groups.Coherent)
    (hg : ∀ group topic, m'.groups.Subscribes group topic ↔ m.groups.Subscribes group topic)
    (ht : m'.topology.subscriptions = m.topology.subscriptions) : Indexed m' n where
  coherent := hc
  subscribers group topic := by
    rw [subscribersOf_congr ht, hg]
    exact h.subscribers group topic
  apart group topic := by
    rw [hg]
    exact h.apart group topic

/-- What leaves groups and subscriptions alone keeps the invariant. -/
theorem of_eq (h : Indexed m n) (hg : m'.groups = m.groups)
    (ht : m'.topology.subscriptions = m.topology.subscriptions) : Indexed m' n :=
  h.same (hg ▸ h.coherent) (fun _ _ => by rw [hg]) ht

theorem of_iff (h : Indexed m n) (hn : ∀ group topic, n' group topic ↔ n group topic) :
    Indexed m n' := by
  obtain rfl : n' = n := funext fun group => funext fun topic => propext (hn group topic)
  exact h

/-! ### Registering -/

/-- A group that is registered with subscribes to what is registered, and to nothing else. -/
theorem subscribes_enrol (h : m.groups.Coherent) {r : ConsumerRegister}
    (hr : m.checkConsumerRegister r = .ok ()) :
    (m.enrolConsumer r).groups.Subscribes group topic ↔
      if r.group = group then topic ∈ r.topics else m.groups.Subscribes group topic := by
  obtain ⟨-, -, hj⟩ := of_checkConsumerRegister hr
  have hjoin : (m.groups.join r.toConsumer).Subscribes group topic ↔
      if r.group = group then topic ∈ r.topics else m.groups.Subscribes group topic :=
    Groups.subscribes_join h hj
  rcases groups_enrol (m := m) (r := r) with he | he
  · rw [he]
    exact hjoin
  · rw [he, Groups.subscribes_setAllocated (h.join hj)]
    exact hjoin

theorem mem_subscribersOf_enrol {r : ConsumerRegister} :
    group ∈ (m.enrolConsumer r).topology.subscribersOf topic ↔
      r.group = group ∧ topic ∈ r.topics ∨ group ∈ m.topology.subscribersOf topic := by
  rw [Topology.mem_subscribersOf, Topology.mem_subscribersOf]
  show (topic, group) ∈ m.topology.subscriptions.insertAll
    (r.topics.toList.map fun t => (t, r.group)) ↔ _
  rw [KeySet.mem_insertAll, List.mem_map]
  refine or_congr_left ?_
  constructor
  · rintro ⟨t, ht, he⟩
    obtain ⟨rfl, rfl⟩ := Prod.mk.inj he
    exact ⟨rfl, KeySet.mem_toList.mp ht⟩
  · rintro ⟨rfl, ht⟩
    exact ⟨topic, KeySet.mem_toList.mpr ht, rfl⟩

/-- Registering lists the group under its new topics, and takes it from no list. -/
theorem enrol (h : Indexed m n) {r : ConsumerRegister} (hr : m.checkConsumerRegister r = .ok ()) :
    Indexed (m.enrolConsumer r) (m.abandonment (.consumerRegister r) n) := by
  have hj := (of_checkConsumerRegister hr).2.2
  have hn : ∀ group topic, m.abandonment (.consumerRegister r) n group topic ↔
      (r.group = group → topic ∉ r.topics) ∧
        (r.group = group ∧ m.groups.Subscribes group topic ∨ n group topic) := by
    intro group topic
    unfold abandonment Abandons Adopts
    simp only [hr, true_and]
    by_cases hgroup : r.group = group
    · simp only [hgroup, true_and, forall_const]
      by_cases ht : topic ∈ r.topics <;> simp [ht]
    · simp [hgroup]
  refine ⟨coherent_enrol h.coherent hj, fun group topic => ?_, fun group topic hab => ?_⟩
  · rw [mem_subscribersOf_enrol, subscribes_enrol h.coherent hr, hn, h.subscribers]
    by_cases hgroup : r.group = group
    · by_cases ht : topic ∈ r.topics <;> simp [hgroup, ht]
    · simp [hgroup]
  · obtain ⟨hnot, hcases⟩ := (hn group topic).mp hab
    rw [subscribes_enrol h.coherent hr]
    split
    · rename_i hgroup
      exact hnot hgroup
    · rename_i hgroup
      rcases hcases with ⟨hsame, -⟩ | hold
      · exact absurd hsame hgroup
      · exact h.apart group topic hold

/-! ### Leaving -/

theorem groups_dropConsumer : (m.dropConsumer x).2.groups = (m.groups.leave x).2 := by
  unfold dropConsumer
  simp only []
  split
  · rename_i hl
    rw [hl]
  · rename_i hl
    rw [hl]
    split <;> rfl

/-- The last member takes the topics it asked for from the lists. -/
theorem mem_subscribersOf_dropConsumer :
    group ∈ (m.dropConsumer x).2.topology.subscribersOf topic ↔
      group ∈ m.topology.subscribersOf topic ∧
        ∀ c, (m.groups.leave x).1 = some (c, true) → ¬(c.group = group ∧ topic ∈ c.topics) := by
  rw [Topology.mem_subscribersOf, Topology.mem_subscribersOf]
  unfold dropConsumer
  simp only []
  split
  · rename_i hl
    simp [hl]
  · rename_i c dissolved groups hl
    cases dissolved with
    | false => simp [hl, forget]
    | true =>
      show (topic, group) ∈ m.topology.subscriptions.filter
        (fun p => !(p.2 == c.group && decide (p.1 ∈ c.topics))) ↔ _
      rw [KeySet.mem_filter, hl]
      refine and_congr_right fun _ => ?_
      constructor
      · rintro hp d hd ⟨rfl, ht⟩
        obtain ⟨rfl, -⟩ := Prod.mk.inj (Option.some.inj hd)
        simp [ht] at hp
      · intro hd
        by_contra hp
        simp only [Bool.not_eq_true', Bool.not_eq_false, Bool.and_eq_true, beq_iff_eq,
          decide_eq_true_eq] at hp
        exact hd c rfl ⟨hp.1.symm, hp.2⟩

/-- The list of a dissolved group's topics loses the group, except where it was abandoned. -/
theorem dropConsumer (h : Indexed m n) (x : String) : Indexed (m.dropConsumer x).2 n := by
  have hs : ∀ group topic, (m.dropConsumer x).2.groups.Subscribes group topic ↔
      m.groups.Subscribes group topic ∧
        ∀ c, (m.groups.leave x).1 = some (c, true) → c.group ≠ group := by
    intro group topic
    rw [groups_dropConsumer]
    exact Groups.subscribes_leave h.coherent
  refine ⟨groups_dropConsumer ▸ h.coherent.leave x, fun group topic => ?_,
    fun group topic hn hsub => h.apart group topic hn ((hs group topic).mp hsub).1⟩
  rw [mem_subscribersOf_dropConsumer, hs, h.subscribers]
  constructor
  · rintro ⟨hlisted, hkept⟩
    rcases hlisted with hsub | hn
    · refine .inl ⟨hsub, fun c hl hgroup => hkept c hl ⟨hgroup, ?_⟩⟩
      -- the group subscribes to what its last member asks for
      have hc := (Groups.of_leave h.coherent hl).1
      exact (Groups.subscribes_iff_of_member h.coherent hc).mp (hgroup ▸ hsub)
    · exact .inr hn
  · rintro (⟨hsub, hkept⟩ | hn)
    · exact ⟨.inl hsub, fun c hl hboth => hkept c hl hboth.1⟩
    · refine ⟨.inr hn, ?_⟩
      rintro c hl ⟨rfl, ht⟩
      have hc := (Groups.of_leave h.coherent hl).1
      exact h.apart _ _ hn ((Groups.subscribes_iff_of_member h.coherent hc).mpr ht)

theorem releaseConsumer (h : Indexed m n) (x : String) : Indexed (m.releaseConsumer x).2 n :=
  allow_snd (p := (Indexed · n)) h (h.dropConsumer x)

theorem consumerClose (h : Indexed m n) (r : ConsumerClose) : Indexed (m.consumerClose r).2 n := by
  rcases consumerClose_snd m r with hr | hr
  · rw [hr]
    exact h
  · rw [hr]
    exact h.releaseConsumer r.consumer

theorem expireConsumers (h : Indexed m n) : Indexed (m.expire .consumer).2 n := by
  refine expire_induction (p := (Indexed · n)) (fun m key hm => hm.of_eq rfl rfl)
    (fun m key hm => hm.of_eq rfl rfl) (fun m key hm => ?_) h
  rcases releaseNode_consumer_snd m key with hr | ⟨id, hr⟩
  · rw [hr]
    exact hm
  · rw [hr]
    exact hm.releaseConsumer id

/-! ### All operations -/

/-- Only registrations of consumers abandon and adopt. -/
theorem abandonment_iff {op : Operation} (hop : ∀ r, op ≠ .consumerRegister r) :
    m.abandonment op n group topic ↔ n group topic := by
  unfold abandonment Abandons Adopts
  cases op with
  | consumerRegister r => exact absurd rfl (hop r)
  | _ => simp

theorem consumerHeartbeat (h : Indexed m n) (r : ConsumerHeartbeat) :
    Indexed (m.after (.consumerHeartbeat r)) n := by
  rcases after_consumerHeartbeat m r with ⟨-, hb⟩ | ⟨-, he⟩
  · refine h.same (hb.coherent h.coherent) (fun group topic => ?_)
      (subscriptions_consumerHeartbeat m r)
    rw [Groups.subscribes_iff (hb.coherent h.coherent), Groups.subscribes_iff h.coherent]
    simp only [hb.consumer?]
  · rw [he]
    exact h

/-- Every operation keeps the invariant. -/
theorem after (h : Indexed m n) (op : Operation) : Indexed (m.after op) (m.abandonment op n) := by
  rcases op.cases with hop | ⟨r, rfl⟩ | ⟨r, rfl⟩ | hop | hop | rfl
  · refine of_iff ?_ fun group topic => abandonment_iff fun r hr => ?_
    · exact h.of_eq (sameConsumers_after hop m).groups (subscriptions_after hop m)
    · rw [hr] at hop
      cases hop
  · rcases after_consumerRegister m r with ⟨hr, he⟩ | ⟨⟨e, hr⟩, he⟩
    · rw [he]
      exact h.enrol hr
    · rw [he]
      refine h.of_iff fun group topic => ?_
      unfold abandonment Abandons Adopts
      simp [hr]
  · exact (h.consumerHeartbeat r).of_iff fun _ _ => abandonment_iff fun r hr => by cases hr
  · refine of_iff ?_ fun group topic => abandonment_iff fun r hr => ?_
    · cases op with
      | consumerClose r => exact h.consumerClose r
      | expire c =>
        cases c with
        | consumer => exact h.expireConsumers
        | _ => cases hop
      | _ => cases hop
    · rw [hr] at hop
      cases hop
  · obtain ⟨rows, he⟩ := after_of_isRowing hop m
    refine of_iff (he ▸ h.of_eq rfl rfl) fun group topic => abandonment_iff fun r hr => ?_
    rw [hr] at hop
    cases hop
  · obtain ⟨events, lastPass, inFlight, firstPass, he⟩ := pass_touches m
    refine of_iff (he ▸ h.of_eq rfl rfl) fun group topic => abandonment_iff fun r hr => ?_
    cases hr

theorem run (h : Indexed m n) (ops : List Operation) :
    Indexed (m.run ops) (m.abandonedAfter n ops) := by
  induction ops generalizing m n with
  | nil => exact h
  | cons op ops ih => exact ih (h.after op)

end Indexed

/-- After any history, the list of a topic is right about a group exactly when the group has not
abandoned the topic. -/
theorem subscribersOf_right_iff {settings : Settings} {store : Store} {fresh : Master}
    (hfresh : create settings store = .ok fresh) (ops : List Operation) (group topic : String) :
    (group ∈ (fresh.run ops).topology.subscribersOf topic ↔
      (fresh.run ops).groups.Subscribes group topic) ↔
    ¬fresh.abandonedAfter (fun _ _ => False) ops group topic := by
  have h := (Indexed.create hfresh).run ops
  rw [h.subscribers]
  constructor
  · intro hright hn
    exact h.apart group topic hn (hright.mp (.inr hn))
  · intro hn
    exact ⟨fun hlisted => hlisted.resolve_right hn, .inl⟩

end Master

/-! ## A list that is wrong -/

namespace Forsaken

def joining (topics : List String) : ConsumerRegister :=
  { consumer := "a", group := "g", host := "h", topics := KeySet.ofList topics }

def fresh : Master := { settings := {}, store := {} }

/-- The only member of a group comes back with one of its two topics, and closes. -/
def history : List Operation :=
  [.consumerRegister (joining ["t", "u"]), .consumerRegister (joining ["t"]),
    .consumerClose { consumer := "a", group := "g" }]

theorem create_fresh : Master.create {} {} = .ok fresh := rfl

/-- The group is gone, and is still listed under the topic that it has abandoned. -/
theorem still_listed : Master.create {} {} = .ok fresh ∧
    (fresh.run history).groups.group? "g" = none ∧
    ¬("g" ∈ (fresh.run history).topology.subscribersOf "u" ↔
      (fresh.run history).groups.Subscribes "g" "u") := by
  have habandoned : fresh.abandonedAfter (fun _ _ => False) history "g" "u" := by
    refine .inr ⟨.inl ⟨by cbv, rfl, ⟨_, rfl, rfl, by decide⟩, by decide⟩, id⟩
  refine ⟨create_fresh, by cbv, fun hright => ?_⟩
  exact (Master.subscribersOf_right_iff create_fresh history "g" "u").mp hright habandoned

end Forsaken

end ClusterMaster
