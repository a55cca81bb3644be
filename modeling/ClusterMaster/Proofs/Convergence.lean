import ClusterMaster.Proofs.Changes
import ClusterMaster.Proofs.Ownership

/-!
# Draining a pass

After a pass the members of a group send heartbeats, in any order among themselves, each of them
until it receives no event (`Drains`). Whatever they held before, and in whichever way the pass
decided, they end up with a proper share of what can be subscribed to (`SharesOut`):

    name ∈ m.selected, the group name is free and within the rate,
    Drains (m.after .pass) (every member acknowledges 0) m' → SharesOut m g m'      (converges)

and they can always get there while the master is the primary (`exists_drains`). The argument is
that what a queue will make of a holding never changes: taking the head of the queue out and
applying it are one step (`Owes.beat`).
-/

namespace ClusterMaster

namespace Holding

/-- What a holding becomes once events have been carried out one after the other. -/
def applyAll (h : Holding) (es : List Event) : Holding := es.foldl apply h

end Holding

/-! ## What a change amounts to -/

/-- The events that a pass queues for a change carry it out. -/
theorem Holding.applyAll_changeEvents (h : Holding) (pass : Nat) (c : Consumer)
    (change : HoldingChange) :
    h.applyAll (Master.changeEvents pass c change) = change.carriedOut c pass h := by
  unfold Holding.applyAll Master.changeEvents HoldingChange.carriedOut
  simp only []
  split
  · rename_i hd hc
    rw [hd, hc]
    rfl
  · rename_i hc _
    rw [hc]
    rfl
  · rename_i hd _
    rw [hd]
    rfl
  · rfl

/-- Carrying out the events of a change drops what is to be dropped and adds what is to be taken
up. -/
theorem Holding.contains_applyAll_changeEvents {h : Holding} {pass : Nat} {c : Consumer}
    {change : HoldingChange} {x : String × String} :
    (h.applyAll (Master.changeEvents pass c change)).contains x = true ↔
      (h.contains x = true ∧ ∀ p ∈ change.disconnect, p.place ≠ x) ∨
        ∃ p ∈ change.connect, p.place = x := by
  rw [applyAll_changeEvents, HoldingChange.contains_carriedOut]

namespace Master

variable {m m' m'' : Master} {g : Group}

theorem status_of_mem_changeEvents {pass : Nat} {c : Consumer} {change : HoldingChange} {e : Event}
    (h : e ∈ changeEvents pass c change) : e.status = .todo := by
  unfold changeEvents at h
  simp only [] at h
  split at h <;> simp only [List.mem_cons, List.not_mem_nil, or_false] at h
  · rw [h]
  · rw [h]
  · rcases h with h | h <;> rw [h]

/-! ## One member -/

/-- A member on its way through its queue: all events are of one pass, what the queue will make of
the holding is known, and the member acknowledges next what it has last received. It stops once
it has received nothing. -/
structure Owes (pass : Nat) (goal : Holding) (q : List Event) (held : Holding) (next : Option Nat) :
    Prop where
  passes : ∀ e ∈ q, e.pass = pass
  waiting : ∀ e ∈ q.tail, e.status = .todo
  goal : held.applyAll q = goal
  next : (next = none ∧ q = []) ∨ (next = some 0 ∧ ∀ e ∈ q, e.status = .todo) ∨
    (next = some pass ∧ ∃ e es, q = e :: es ∧ e.status = .processing)

/-- How many heartbeats a member still sends. -/
def heartbeatsLeft (q : List Event) : Option Nat → Nat
  | none => 0
  | some n => if n = 0 then q.length + 1 else q.length

theorem heartbeatsLeft_zero (q : List Event) : heartbeatsLeft q (some 0) = q.length + 1 := rfl

theorem heartbeatsLeft_of_ne {n : Nat} (h : n ≠ 0) (q : List Event) :
    heartbeatsLeft q (some n) = q.length := if_neg h

theorem nextEvent_of_todo {e : Event} (h : e.status = .todo) (es : List Event) :
    nextEvent (e :: es) = some { e with status := .processing } := by
  have hne : e.status ≠ .processing := by
    rw [h]
    decide
  unfold nextEvent
  simp only [if_neg hne]

namespace Owes

variable {pass n : Nat} {goal held : Holding} {q : List Event} {next : Option Nat}

/-- Handing out the head of a queue that has been waiting. -/
theorem handOut (hpos : pass ≠ 0) (hpass : ∀ e ∈ q, e.pass = pass)
    (htodo : ∀ e ∈ q, e.status = .todo) (hgoal : held.applyAll q = goal) :
    Owes pass goal (handedOut q) held ((nextEvent q).map Event.pass) ∧
      heartbeatsLeft (handedOut q) ((nextEvent q).map Event.pass) ≤ q.length := by
  cases q with
  | nil =>
    exact ⟨⟨hpass, fun e he => absurd he List.not_mem_nil, hgoal, .inl ⟨rfl, rfl⟩⟩, Nat.zero_le _⟩
  | cons e es =>
    have hhead := hpass e List.mem_cons_self
    rw [nextEvent_of_todo (htodo e List.mem_cons_self), Option.map_some]
    refine ⟨⟨?_, fun x hx => htodo x (List.mem_cons_of_mem _ hx), hgoal,
      .inr (.inr ⟨congrArg some hhead, _, es, rfl, rfl⟩)⟩, ?_⟩
    · intro x hx
      rcases List.mem_cons.mp hx with rfl | hx
      · exact hhead
      · exact hpass x (List.mem_cons_of_mem _ hx)
    · have hne : e.pass ≠ 0 := hhead ▸ hpos
      exact (heartbeatsLeft_of_ne hne _).trans (length_handedOut _) |>.le

/-- A heartbeat takes the head out and applies it, or hands it out for the first time. -/
theorem beat (hpos : pass ≠ 0) (h : Owes pass goal q held (some n)) :
    Owes pass goal (handedOut (leftOver q n)) (held.changedBy (taken q n))
        ((nextEvent (leftOver q n)).map Event.pass) ∧
      heartbeatsLeft (handedOut (leftOver q n)) ((nextEvent (leftOver q n)).map Event.pass) <
        heartbeatsLeft q (some n) := by
  rcases h.next with ⟨hn, -⟩ | ⟨hn, htodo⟩ | ⟨hn, e, es, rfl, hs⟩
  · cases hn
  · obtain rfl := Option.some.inj hn
    have htaken : taken q 0 = none := by
      cases q with
      | nil => rfl
      | cons e es => simp [taken]
    have hleft : leftOver q 0 = q := by rw [leftOver, htaken]
    rw [hleft, htaken]
    obtain ⟨howes, hle⟩ := handOut hpos h.passes htodo h.goal
    refine ⟨howes, ?_⟩
    rw [heartbeatsLeft_zero]
    omega
  · obtain rfl := Option.some.inj hn
    have htaken : taken (e :: es) n = some e :=
      taken_eq_some_iff.mpr ⟨es, rfl, hpos, hs, (h.passes e List.mem_cons_self).le⟩
    have hleft : leftOver (e :: es) n = es := by rw [leftOver, htaken, List.tail_cons]
    rw [hleft, htaken]
    have hgoal : (held.apply e).applyAll es = goal := h.goal
    obtain ⟨howes, hle⟩ := handOut hpos
      (fun x hx => h.passes x (List.mem_cons_of_mem _ hx)) h.waiting hgoal
    refine ⟨howes, ?_⟩
    rw [heartbeatsLeft_of_ne hpos, List.length_cons]
    omega

end Owes

/-! ## A whole group -/

/-- The members of a group send heartbeats after one another, each of them the acknowledgement of
what it has received last, until all have received nothing. -/
inductive Drains (g : Group) : Master → (String → Option Nat) → Master → Prop
  | done {m : Master} {next : String → Option Nat} (h : ∀ c ∈ g.members.values, next c.id = none) :
    Drains g m next m
  | beat {m m' m'' : Master} {next : String → Option Nat} {c : Consumer} {n : Nat}
    {pulse : ConsumerPulse} (hc : c ∈ g.members.values) (hn : next c.id = some n)
    (hp : m.perform (.consumerHeartbeat
      { consumer := c.id, group := g.name, acknowledged := n }) = (.ok (.pulse pulse), m'))
    (rest : Drains g m' (Function.update next c.id (pulse.event.map Event.pass)) m'') :
    Drains g m next m''

/-- What the queue of a member will make of its holding after the pass of a master. -/
def goalOf (m : Master) (g : Group) (c : Consumer) : Holding :=
  (m.holdingOf c.id).applyAll (m.eventsFor (m.viewGroup g) c)

theorem perform_heartbeat_ok {r : ConsumerHeartbeat} {pulse : ConsumerPulse}
    (h : m.perform (.consumerHeartbeat r) = (.ok (.pulse pulse), m')) :
    m.Beaten r m' ∧ pulse.event = nextEvent (leftOver (m.events.queue r.consumer) r.acknowledged) := by
  have hafter : m.after (.consumerHeartbeat r) = m' := congrArg Prod.snd h
  rcases m.perform_consumerHeartbeat_cases r with ⟨-, hb, notAllocated, hans⟩ | ⟨e, -, he⟩
  · rw [h] at hans
    obtain rfl := Answer.pulse.inj (Except.ok.inj hans)
    exact ⟨hafter ▸ hb, rfl⟩
  · rw [h] at he
    cases he

/-- The members are on their way through what the pass of a master has queued. -/
structure Draining (m : Master) (g : Group) (d : Master) (next : String → Option Nat) : Prop where
  owes : ∀ c ∈ g.members.values, Owes (m.lastPass + 1) (m.goalOf g c) (d.events.queue c.id)
    (d.holdingOf c.id) (next c.id)
  store : d.store = m.store
  consumerRows : d.consumerRows = m.consumerRows
  tracked : ∀ c ∈ g.members.values, d.isTracked c.id c.group = true

namespace Draining

variable {d d' : Master} {next : String → Option Nat} {name : String}

/-- A pass sets the members of a selected group on their way. -/
theorem of_pass (hr : Registry m) (hg : m.groups.group? name = some g) (hsel : name ∈ m.selected)
    (hfree : ∀ c ∈ g.members.values, m.consumerRows.isLocked c.id = false) :
    Draining m g (m.after .pass) fun _ => some 0 := by
  obtain ⟨events, he⟩ := hr.after_pass
  refine ⟨fun c hc => ?_, by rw [he], by rw [he], fun c hc => ?_⟩
  · obtain ⟨hcons, rfl⟩ := (Groups.mem_members_iff hr.coherent hg).mp hc
    have htodo : ∀ e ∈ m.eventsFor (m.viewGroup g) c, e.status = .todo :=
      fun e he => status_of_mem_changeEvents he
    rw [hr.queue_after_pass hcons hsel hg (hfree c hc)]
    refine ⟨fun e he => pass_of_mem_changeEvents he, fun e he => htodo e (List.mem_of_mem_tail he),
      ?_, .inr (.inl ⟨rfl, htodo⟩)⟩
    rw [he]
    rfl
  · obtain ⟨hcons, -⟩ := (Groups.mem_members_iff hr.coherent hg).mp hc
    rw [he]
    exact hr.tracked c.id c hcons

/-- A heartbeat of one member leaves the others where they are. -/
theorem beat (hn : (g.members.values.map Consumer.id).Nodup) (h : Draining m g d next)
    {c : Consumer} {n : Nat} (hc : c ∈ g.members.values) (hnext : next c.id = some n)
    (hb : d.Beaten { consumer := c.id, group := g.name, acknowledged := n } d') :
    Draining m g d' (Function.update next c.id
        ((nextEvent (leftOver (d.events.queue c.id) n)).map Event.pass)) ∧
      heartbeatsLeft (d'.events.queue c.id)
          ((nextEvent (leftOver (d.events.queue c.id) n)).map Event.pass) <
        heartbeatsLeft (d.events.queue c.id) (next c.id) := by
  have howes := h.owes c hc
  rw [hnext] at howes
  obtain ⟨howes, hlt⟩ := howes.beat (Nat.succ_ne_zero _)
  have hqueue : d'.events.queue c.id = handedOut (leftOver (d.events.queue c.id) n) :=
    (hb.queue c.id).trans (if_pos rfl)
  have hheld : d'.holdingOf c.id = (d.holdingOf c.id).changedBy (taken (d.events.queue c.id) n) :=
    hb.holding rfl
  refine ⟨⟨fun x hx => ?_, hb.store.trans h.store, hb.consumerRows.trans h.consumerRows,
    fun x hx => hb.tracked _ _ (h.tracked x hx)⟩, ?_⟩
  · by_cases hid : x.id = c.id
    · obtain rfl := List.inj_on_of_nodup_map hn hx hc hid
      rw [Function.update_self, hqueue, hheld]
      exact howes
    · have hsame : d'.holdingOf x.id = d.holdingOf x.id := by
        unfold holdingOf Table.getD
        rw [hb.others x.id (Ne.symm hid)]
      rw [Function.update_of_ne hid, hb.queue, if_neg (Ne.symm hid), hsame]
      exact h.owes x hx
  · rw [hqueue, hnext]
    exact hlt

/-- In the end every member holds what its queue was to make of its holding. -/
theorem goal_of_drains (hn : (g.members.values.map Consumer.id).Nodup) (h : Draining m g d next)
    (hd : Drains g d next d') : ∀ c ∈ g.members.values, d'.holdingOf c.id = m.goalOf g c := by
  induction hd with
  | done hnone =>
    intro c hc
    have howes := h.owes c hc
    rcases howes.next with ⟨-, hq⟩ | ⟨hs, -⟩ | ⟨hs, -⟩
    · rw [← howes.goal, hq]
      rfl
    · rw [hnone c hc] at hs
      cases hs
    · rw [hnone c hc] at hs
      cases hs
  | beat hc hnext hp _ ih =>
    obtain ⟨hb, hevent⟩ := perform_heartbeat_ok hp
    rw [hevent] at ih
    exact ih (h.beat hn hc hnext hb).1

/-- While the master is the primary, the heartbeat of a member is taken. -/
theorem exists_pulse (hr : Registry m) (hg : m.groups.group? name = some g)
    (hprimary : m.store.primary = true)
    (hfree : ∀ c ∈ g.members.values, m.consumerRows.isLocked c.id = false)
    (h : Draining m g d next) {c : Consumer} (hc : c ∈ g.members.values) (n : Nat) :
    ∃ pulse d', d.perform (.consumerHeartbeat
      { consumer := c.id, group := g.name, acknowledged := n }) = (.ok (.pulse pulse), d') := by
  obtain ⟨hcons, hgroup⟩ := (Groups.mem_members_iff hr.coherent hg).mp hc
  have hname : g.name = c.group := (hr.coherent.named hg).trans hgroup.symm
  obtain ⟨hid, hgr⟩ := hr.usable c.id c hcons
  have hrow : d.consumerRows.isLocked c.id = false := by
    rw [h.consumerRows]
    exact hfree c hc
  have hknown : d.liveness.checkKnown .consumer (livenessKey c.id c.group) = .ok () :=
    if_pos (h.tracked c hc)
  have hcheck : d.checkConsumerHeartbeat
      { consumer := c.id, group := c.group, acknowledged := n } = .ok () := by
    unfold checkConsumerHeartbeat
    refine bind_eq_ok_iff.mpr ⟨checkPrimary_ok_iff.mpr (h.store ▸ hprimary), ?_⟩
    refine bind_eq_ok_iff.mpr ⟨?_, bind_eq_ok_iff.mpr ⟨checkFree_ok_iff.mpr hrow, hknown⟩⟩
    exact bind_eq_ok_iff.mpr ⟨requireName_ok_iff.mpr hid,
      bind_eq_ok_iff.mpr ⟨requireName_ok_iff.mpr hgr, rfl⟩⟩
  rw [hname]
  rcases d.perform_consumerHeartbeat_cases
      { consumer := c.id, group := c.group, acknowledged := n } with ⟨-, -, _, hans⟩ | ⟨e, he, -⟩
  · exact ⟨_, _, Prod.ext hans rfl⟩
  · rw [hcheck] at he
    cases he

/-- Every heartbeat brings the members closer to the end, so they get there. -/
theorem exists_drains (hr : Registry m) (hg : m.groups.group? name = some g)
    (hprimary : m.store.primary = true)
    (hfree : ∀ c ∈ g.members.values, m.consumerRows.isLocked c.id = false)
    (h : Draining m g d next) : ∃ m', Drains g d next m' := by
  have hn := Groups.nodup_ids hr.coherent hg
  induction hlen : (g.members.values.map fun c =>
      heartbeatsLeft (d.events.queue c.id) (next c.id)).sum using Nat.strong_induction_on
    generalizing d next with
  | _ len ih =>
    by_cases hall : ∀ c ∈ g.members.values, next c.id = none
    · exact ⟨d, .done hall⟩
    · obtain ⟨c, hc, hnext⟩ : ∃ c ∈ g.members.values, next c.id ≠ none := by
        by_contra hno
        exact hall fun c hc => by_contra fun hne => hno ⟨c, hc, hne⟩
      obtain ⟨n, hnext⟩ := Option.ne_none_iff_exists'.mp hnext
      obtain ⟨pulse, d', hp⟩ := exists_pulse hr hg hprimary hfree h hc n
      obtain ⟨hb, hevent⟩ := perform_heartbeat_ok hp
      obtain ⟨h', hlt⟩ := h.beat hn hc hnext hb
      rw [← hevent] at h' hlt
      have hless : (g.members.values.map fun x => heartbeatsLeft (d'.events.queue x.id)
          (Function.update next c.id (pulse.event.map Event.pass) x.id)).sum < len := by
        rw [← hlen]
        refine List.sum_lt_sum _ _ (fun x hx => ?_) ⟨c, hc, ?_⟩
        · by_cases hid : x.id = c.id
          · rw [hid, Function.update_self]
            exact hlt.le
          · rw [Function.update_of_ne hid, hb.queue, if_neg (Ne.symm hid)]
        · rw [Function.update_self]
          exact hlt
      obtain ⟨m', hm'⟩ := ih _ hless h' rfl
      exact ⟨m', .beat hc hnext hp hm'⟩

end Draining

/-! ## Where a drained group ends up -/

/-- The members of a group hold a proper share of what can be subscribed to of its topics, in the
eyes of a master: each partition that one of them can reach is held by exactly one of them, who can
reach it, and they hold nothing else. -/
structure SharesOut (m : Master) (g : Group) (held : Consumer → Holding) : Prop where
  once : ∀ topic ∈ g.topics, topic ∉ m.store.blackTopicsOf g.name →
    ∀ p ∈ m.subscribable topic, (∃ c ∈ g.members.values, c.canReach p.broker = true) →
      ∃ c ∈ g.members.values, c.canReach p.broker = true ∧
        (held c).contains (topic, p.key) = true ∧
        ∀ d ∈ g.members.values, (held d).contains (topic, p.key) = true → d = c
  only : ∀ c ∈ g.members.values, ∀ x, (held c).contains x = true →
    ∃ topic ∈ g.topics, topic ∉ m.store.blackTopicsOf g.name ∧
      ∃ p ∈ m.subscribable topic, c.canReach p.broker = true ∧ x = (topic, p.key)

section Goal

variable {name : String} (hr : Registry m) (ho : Offers m)
  (hg : m.groups.group? name = some g) (hbound : g.bound = false)
  (hrate : (m.viewGroup g).withinRate m.settings.maxBrokersPerConsumer = true)

include hr ho hg hbound hrate

/-- The queue of a member of a free group leads it to its share. -/
theorem contains_goalOf_iff {c : Consumer} (hc : c ∈ g.members.values) {topic key : String} :
    (m.goalOf g c).contains (topic, key) = true ↔ topic ∉ m.store.blackTopicsOf g.name ∧
      ∃ p ∈ (m.sharing (m.viewGroup g)).of c.id topic, p.key = key := by
  have hshared : (m.viewGroup g).isShared m.settings.maxBrokersPerConsumer = true := by
    have hmembers : (m.viewGroup g).members.isEmpty = false :=
      List.isEmpty_eq_false_iff_exists_mem.mpr ⟨c, hc⟩
    unfold GroupView.isShared
    rw [show (m.viewGroup g).bound = false from hbound, hmembers, hrate]
    rfl
  have htarget : m.targetIn (m.viewGroup g) c.id = (m.sharing (m.viewGroup g)).get? c.id := by
    unfold targetIn
    rw [if_neg (by rw [show (m.viewGroup g).bound = false from hbound]; decide), if_pos hshared]
  obtain ⟨t, ht⟩ : ∃ t, (m.sharing (m.viewGroup g)).get? c.id = some t :=
    Table.contains_iff.mp (contains_sharing_of_mem_ids (List.mem_map_of_mem hc))
  unfold goalOf eventsFor
  rw [Holding.contains_applyAll_changeEvents, HoldingChange.place_after_iff _ _
    (hr.wellFiled c.id) (ho.targetIn_wellFiled hr hg c.id), htarget, ht]
  unfold HoldingChange.wanted
  show (∃ p ∈ if topic ∈ m.store.blackTopicsOf g.name then [] else t.getD topic [], p.key = key) ↔ _
  rw [getD_eq_of ht]
  by_cases hb : topic ∈ m.store.blackTopicsOf g.name
  · simp [hb]
  · simp [hb]

theorem sharesOut_goal : SharesOut m g (m.goalOf g) := by
  have hn : (m.viewGroup g).ids.Nodup := Groups.nodup_ids hr.coherent hg
  have hids : ∀ c ∈ g.members.values, ∀ d ∈ g.members.values, c.id = d.id → c = d :=
    fun c hc d hd => List.inj_on_of_nodup_map hn hc hd
  have hshares : ∀ topic ∈ g.topics,
      Shares (m.viewGroup g) topic (m.sharing (m.viewGroup g)) :=
    fun topic ht => sharing_shares hn (ho.nodup_key_partitionsOf g topic) ht
  have hsubscribed : ∀ c ∈ g.members.values, ∀ topic ∈ g.topics,
      c ∈ (m.viewGroup g).candidates topic := by
    intro c hc topic ht
    obtain ⟨hcons, rfl⟩ := (Groups.mem_members_iff hr.coherent hg).mp hc
    obtain ⟨g', hg', htopics, -⟩ := hr.coherent.exists_group hcons
    obtain rfl := Option.some.inj (hg.symm.trans hg')
    refine GroupView.mem_candidates.mpr ⟨hc, decide_eq_true ?_⟩
    rw [htopics]
    exact ht
  have hiff : ∀ c ∈ g.members.values, ∀ topic key, (m.goalOf g c).contains (topic, key) = true ↔
      topic ∉ m.store.blackTopicsOf g.name ∧
        ∃ p ∈ (m.sharing (m.viewGroup g)).of c.id topic, p.key = key :=
    fun c hc topic key => contains_goalOf_iff hr ho hg hbound hrate hc
  constructor
  · intro topic ht hblack p hp hreach
    have hoffered : p ∈ (m.viewGroup g).partitionsOf topic :=
      mem_partitionsOf_viewGroup.mpr ⟨⟨ht, hblack⟩, hp⟩
    have hreachable : (m.viewGroup g).reachable topic p.broker = true := by
      obtain ⟨c, hc, hcr⟩ := hreach
      exact List.any_eq_true.mpr ⟨c, hsubscribed c hc topic ht, hcr⟩
    obtain ⟨c, hc, hcr, hpc⟩ := (hshares topic ht).exists_mem hoffered hreachable
    have hcm := (GroupView.mem_candidates.mp hc).1
    refine ⟨c, hcm, hcr, (hiff c hcm _ _).mpr ⟨hblack, p, hpc, rfl⟩, fun d hd hdk => ?_⟩
    obtain ⟨-, q, hq, hqk⟩ := (hiff d hd _ _).mp hdk
    exact hids d hd c hcm
      ((hshares topic ht).eq_of_key_eq (ho.nodup_key_partitionsOf g topic) hq hpc hqk)
  · rintro c hc ⟨topic, key⟩ hk
    obtain ⟨hblack, p, hp, rfl⟩ := (hiff c hc _ _).mp hk
    have ht : topic ∈ g.topics := by
      by_contra hno
      rw [of_sharing_of_not_topic hno] at hp
      cases hp
    obtain ⟨d, hd, hid, hdr⟩ := (hshares topic ht).exists_candidate hp
    obtain rfl := hids d (GroupView.mem_candidates.mp hd).1 c hc hid
    have hoffered := (hshares topic ht).mem_partitionsOf hp
    exact ⟨topic, ht, hblack, p, (mem_partitionsOf_viewGroup.mp hoffered).2, hdr, rfl⟩

end Goal

/-- A pass that is drained converges: whatever the members of a free group held before, they can
all send their heartbeats until they receive nothing, and then they hold a proper share. -/
theorem converges {name : String} (hm : m.Grown) (hg : m.groups.group? name = some g)
    (hsel : name ∈ m.selected) (hbound : g.bound = false)
    (hrate : (m.viewGroup g).withinRate m.settings.maxBrokersPerConsumer = true)
    (hfree : ∀ c ∈ g.members.values, m.consumerRows.isLocked c.id = false) :
    (m.store.primary = true → ∃ m', Drains g (m.after .pass) (fun _ => some 0) m') ∧
      ∀ m', Drains g (m.after .pass) (fun _ => some 0) m' →
        SharesOut m g fun c => m'.holdingOf c.id := by
  have hr := hm.registry
  have hdraining := Draining.of_pass hr hg hsel hfree
  refine ⟨fun hprimary => hdraining.exists_drains hr hg hprimary hfree, fun m' hd => ?_⟩
  have hgoal := hdraining.goal_of_drains (Groups.nodup_ids hr.coherent hg) hd
  have hshare := sharesOut_goal hr hm.offers hg hbound hrate
  refine ⟨fun topic ht hblack p hp hreach => ?_, fun c hc x hx => ?_⟩
  · obtain ⟨c, hc, hcr, hheld, honly⟩ := hshare.once topic ht hblack p hp hreach
    refine ⟨c, hc, hcr, (hgoal c hc) ▸ hheld, fun d hd hdk => honly d hd ?_⟩
    rw [← hgoal d hd]
    exact hdk
  · rw [hgoal c hc] at hx
    exact hshare.only c hc x hx

end Master

/-! ## A second consumer joins -/

namespace Moving

open Master SmallCluster

/-- The group once both consumers are members. -/
def pair : Group :=
  { Group.foundedBy first with
    members := (Table.empty.insert "a" first).insert "b" second
    notAllocated := false }

theorem grown_joined : ∃ runs, (joined runs).Grown := by
  obtain ⟨runs, hrun⟩ := run_gathering
  have hgrown : ((fresh 2).run gathering).Grown := grown_run rfl rfl gathering
  exact ⟨runs, hrun ▸ hgrown⟩

theorem selected_joined (runs : BrokerRuns) : "g" ∈ (joined runs).selected := by
  have h : (joined runs).selected = ["g"] := by cbv
  rw [h]
  exact List.mem_singleton_self _

theorem withinRate_joined (runs : BrokerRuns) :
    ((joined runs).viewGroup pair).withinRate (joined runs).settings.maxBrokersPerConsumer = true := by
  cbv

/-- The pass can be drained, and the two consumers end up with a share each. -/
theorem joined_converges : ∃ runs, (joined runs).Grown ∧
    (joined runs).groups.group? "g" = some pair ∧
    (∃ m', Drains pair ((joined runs).after .pass) (fun _ => some 0) m') ∧
    ∀ m', Drains pair ((joined runs).after .pass) (fun _ => some 0) m' →
      SharesOut (joined runs) pair fun c => m'.holdingOf c.id := by
  obtain ⟨runs, hm⟩ := grown_joined
  have hpair : (joined runs).groups.group? "g" = some pair := rfl
  have h := converges hm hpair (selected_joined runs) rfl (withinRate_joined runs) fun c _ => rfl
  exact ⟨runs, hm, hpair, h.1 rfl, h.2⟩

end Moving

end ClusterMaster
