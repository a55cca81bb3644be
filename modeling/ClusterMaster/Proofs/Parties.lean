import ClusterMaster.Proofs.Accounts
import ClusterMaster.Proofs.Restriction

/-!
# Calls of a group's own consumers, and of others

A master is restricted to a party, a group with the ids its consumers use. When no other group uses
these ids, and the consumers registered under them are the members of the group (`Separate`), then

    what the group's own consumers ask is answered, and done, as by the restricted master
    what other consumers ask leaves the restricted master as it is
    a scan for silent consumers does both                                     (expireConsumers_restrict)

for each table of the master first, then for each step of a call.
-/

namespace ClusterMaster

namespace KeySet

variable {κ : Type} [Key κ] {s : KeySet κ} {p q : κ → Bool}

theorem filter_comm : (s.filter p).filter q = (s.filter q).filter p := by
  refine ext_mem fun x => ?_
  simp only [mem_filter]
  tauto

end KeySet

namespace Groups.Coherent

variable {gs : Groups} {id name : String} {c : Consumer}

theorem groupOf?_eq (h : gs.Coherent) (hc : gs.consumer? id = some c) :
    gs.groupOf? id = some c.group := by
  obtain ⟨g, hg, hm⟩ := (consumer?_eq_some_iff h).mp hc
  exact h.placed.mpr ⟨g, hg, Table.contains_iff.mpr ⟨c, hm⟩⟩

theorem exists_consumer (h : gs.Coherent) (hn : gs.groupOf? id = some name) :
    ∃ c, gs.consumer? id = some c ∧ c.group = name := by
  obtain ⟨g, hg, hm⟩ := h.placed.mp hn
  obtain ⟨c, hc⟩ := Table.contains_iff.mp hm
  obtain rfl := (h.agrees hg hc).2.1
  exact ⟨c, (consumer?_eq_some_iff h).mpr ⟨g, hg, hc⟩, rfl⟩

end Groups.Coherent

/-! ## Tables -/

namespace Party

variable {p : Party} {gs : Groups} {q : EventQueues} {t : Topology} {o : Offsets} {c : Consumer}
  {id name : String} {topics : NameSet} {n : Nat}

/-- The consumers that are registered under the ids of the party are those of its group. -/
def Places (p : Party) (gs : Groups) : Prop :=
  ∀ id name, gs.groupOf? id = some name → (p.uses id = true ↔ name = p.group)

theorem tracks_livenessKey (hg : '@' ∉ name.toList) :
    p.tracks .consumer (livenessKey id name) = decide (name = p.group) := by
  unfold tracks
  rw [splitLivenessKey_livenessKey id hg]
  simp [beq_eq_decide]

/-! ### Groups -/

theorem group?_ofGroups : (p.ofGroups gs).group? p.group = gs.group? p.group :=
  Table.get?_restrict_of (beq_self_eq_true p.group)

theorem group?_ofGroups_of_ne (h : name ≠ p.group) : (p.ofGroups gs).group? name = none := by
  show (gs.groups.restrict _).get? name = none
  rw [Table.get?_restrict, if_neg (by simpa using h)]

theorem groupOf?_ofGroups (h : p.uses id = true) : (p.ofGroups gs).groupOf? id = gs.groupOf? id :=
  Table.get?_restrict_of h

theorem groupOf?_ofGroups_of_not (h : p.uses id = false) : (p.ofGroups gs).groupOf? id = none := by
  show (gs.groupOf.restrict _).get? id = none
  rw [Table.get?_restrict, if_neg (by simp [h])]

theorem consumer?_ofGroups (hp : p.Places gs) (h : p.uses id = true) :
    (p.ofGroups gs).consumer? id = gs.consumer? id := by
  unfold Groups.consumer?
  rw [groupOf?_ofGroups h]
  cases hof : gs.groupOf? id with
  | none => rfl
  | some name =>
    obtain rfl := (hp id name hof).mp h
    rw [Option.bind_some, Option.bind_some, group?_ofGroups]

theorem membersOf_ofGroups : (p.ofGroups gs).membersOf p.group = gs.membersOf p.group := by
  unfold Groups.membersOf
  rw [group?_ofGroups]

theorem isNotAllocated_ofGroups :
    (p.ofGroups gs).isNotAllocated p.group = gs.isNotAllocated p.group := by
  unfold Groups.isNotAllocated
  rw [group?_ofGroups]

theorem setAllocated_ofGroups (name : String) :
    (p.ofGroups gs).setAllocated name = p.ofGroups (gs.setAllocated name) := by
  unfold ofGroups Groups.setAllocated
  rw [Table.restrict_modify]

theorem setAllocated_ofGroups_of_ne (h : name ≠ p.group) :
    p.ofGroups (gs.setAllocated name) = p.ofGroups gs := by
  unfold ofGroups Groups.setAllocated
  rw [Table.restrict_modify_of_not (by simpa using h)]

theorem checkJoin_ofGroups (hg : c.group = p.group) (hid : p.uses c.id = true) :
    (p.ofGroups gs).checkJoin c = gs.checkJoin c := by
  unfold Groups.checkJoin Groups.checkJoin.checkGroup
  rw [groupOf?_ofGroups hid, hg, group?_ofGroups]

theorem join_ofGroups (hg : c.group = p.group) (hid : p.uses c.id = true) :
    (p.ofGroups gs).join c = p.ofGroups (gs.join c) := by
  have hjoined : (p.ofGroups gs).groupJoined c = gs.groupJoined c := by
    unfold Groups.groupJoined
    rw [hg, group?_ofGroups]
  unfold Groups.join
  rw [hjoined]
  unfold ofGroups
  rw [Table.restrict_insert (by simpa using hg), Table.restrict_insert hid]

theorem join_ofGroups_of_not (hg : c.group ≠ p.group) (hid : p.uses c.id = false) :
    p.ofGroups (gs.join c) = p.ofGroups gs := by
  unfold ofGroups Groups.join
  rw [Table.restrict_insert_of_not (by simpa using hg), Table.restrict_insert_of_not hid]

theorem leave_ofGroups (hp : p.Places gs) (hid : p.uses id = true) :
    (p.ofGroups gs).leave id = ((gs.leave id).1, p.ofGroups (gs.leave id).2) := by
  have herased : (gs.groupOf.restrict p.uses).erase id = (gs.groupOf.erase id).restrict p.uses :=
    Table.restrict_erase.symm
  have hgone : (gs.groups.restrict (· == p.group)).erase p.group =
      (gs.groups.erase p.group).restrict (· == p.group) :=
    Table.restrict_erase.symm
  have hgroup : ∀ g, (gs.groups.restrict (· == p.group)).insert p.group g =
      (gs.groups.insert p.group g).restrict (· == p.group) :=
    fun g => (Table.restrict_insert (p := (· == p.group)) (beq_self_eq_true p.group)).symm
  unfold Groups.leave
  rw [groupOf?_ofGroups hid]
  cases hof : gs.groupOf? id with
  | none => rfl
  | some name =>
    obtain rfl := (hp id name hof).mp hid
    simp only []
    rw [show ({ p.ofGroups gs with groupOf := (p.ofGroups gs).groupOf.erase id } : Groups).group?
        p.group = gs.group? p.group from group?_ofGroups,
      show ({ gs with groupOf := gs.groupOf.erase id } : Groups).group? p.group =
        gs.group? p.group from rfl]
    cases gs.group? p.group with
    | none => exact Prod.ext rfl (congrArg (Groups.mk _) herased)
    | some g =>
      simp only []
      cases g.members.get? id with
      | none => exact Prod.ext rfl (congrArg (Groups.mk _) herased)
      | some c =>
        simp only []
        split
        · exact Prod.ext rfl (congrArg₂ Groups.mk hgone herased)
        · exact Prod.ext rfl (congrArg₂ Groups.mk (hgroup _) herased)

theorem leave_ofGroups_of_not (hp : p.Places gs) (hid : p.uses id = false) :
    p.ofGroups (gs.leave id).2 = p.ofGroups gs := by
  unfold Groups.leave
  cases hof : gs.groupOf? id with
  | none => rfl
  | some name =>
    have hne : (name == p.group) = false := by
      have hiff := hp id name hof
      simpa [hid] using hiff
    have herased : (gs.groupOf.erase id).restrict p.uses = gs.groupOf.restrict p.uses :=
      Table.restrict_erase_of_not hid
    have hgroup : ∀ g, (gs.groups.insert name g).restrict (· == p.group) =
        gs.groups.restrict (· == p.group) :=
      fun g => Table.restrict_insert_of_not hne
    have hgone : (gs.groups.erase name).restrict (· == p.group) =
        gs.groups.restrict (· == p.group) :=
      Table.restrict_erase_of_not hne
    simp only []
    split
    · exact congrArg (Groups.mk _) herased
    · split
      · exact congrArg (Groups.mk _) herased
      · split
        · exact congrArg₂ Groups.mk hgone herased
        · exact congrArg₂ Groups.mk (hgroup _) herased

/-! ### Events -/

theorem queue_ofEvents : (p.ofEvents q).queue id = if p.uses id then q.queue id else [] := by
  show ((q.queues.restrict p.uses).get? id).getD [] = _
  rw [Table.get?_restrict]
  split <;> rfl

theorem queue_ofEvents_of (h : p.uses id = true) : (p.ofEvents q).queue id = q.queue id := by
  rw [queue_ofEvents, if_pos h]

theorem unfinishedCount_ofEvents :
    (p.ofEvents q).unfinishedCount p.group = q.unfinishedCount p.group := by
  unfold EventQueues.unfinishedCount Table.getD
  rw [show (p.ofEvents q).unfinished.get? p.group = q.unfinished.get? p.group from
    Table.get?_restrict_of (beq_self_eq_true p.group)]

theorem setQueue_ofEvents (hid : p.uses id = true) (es : List Event) :
    (p.ofEvents q).setQueue id es = p.ofEvents (q.setQueue id es) := by
  unfold EventQueues.setQueue ofEvents
  cases es with
  | nil => simp [Table.restrict_erase]
  | cons e es => simp [Table.restrict_insert hid]

theorem setQueue_ofEvents_of_not (hid : p.uses id = false) (es : List Event) :
    p.ofEvents (q.setQueue id es) = p.ofEvents q := by
  unfold EventQueues.setQueue ofEvents
  cases es with
  | nil => simp [Table.restrict_erase_of_not hid]
  | cons e es => simp [Table.restrict_insert_of_not hid]

theorem acknowledge_ofEvents (hid : p.uses id = true) :
    (p.ofEvents q).acknowledge id n = ((q.acknowledge id n).1, p.ofEvents (q.acknowledge id n).2) := by
  unfold EventQueues.acknowledge
  rw [queue_ofEvents_of hid]
  cases q.queue id with
  | nil => rfl
  | cons e es =>
    simp only []
    split
    · rw [setQueue_ofEvents hid]
    · rfl

theorem acknowledge_ofEvents_of_not (hid : p.uses id = false) :
    p.ofEvents (q.acknowledge id n).2 = p.ofEvents q := by
  unfold EventQueues.acknowledge
  cases q.queue id with
  | nil => rfl
  | cons e es =>
    simp only []
    split
    · exact setQueue_ofEvents_of_not hid es
    · rfl

theorem deliver_ofEvents (hid : p.uses id = true) :
    (p.ofEvents q).deliver id = ((q.deliver id).1, p.ofEvents (q.deliver id).2) := by
  unfold EventQueues.deliver
  rw [queue_ofEvents_of hid]
  cases q.queue id with
  | nil => rfl
  | cons e es =>
    simp only []
    split
    · rfl
    · rw [setQueue_ofEvents hid]

theorem deliver_ofEvents_of_not (hid : p.uses id = false) :
    p.ofEvents (q.deliver id).2 = p.ofEvents q := by
  unfold EventQueues.deliver
  cases q.queue id with
  | nil => rfl
  | cons e es =>
    simp only []
    split
    · rfl
    · exact setQueue_ofEvents_of_not hid _

/-! ### Subscriptions -/

theorem subscribe_ofTopology (topics : NameSet) :
    (p.ofTopology t).subscribe p.group topics = p.ofTopology (t.subscribe p.group topics) := by
  unfold Topology.subscribe ofTopology
  congr 1
  refine KeySet.ext_mem fun x => ?_
  simp only [KeySet.mem_insertAll, KeySet.mem_filter, List.mem_map]
  constructor
  · rintro (⟨topic, ht, rfl⟩ | ⟨hx, hg⟩)
    · exact ⟨.inl ⟨topic, ht, rfl⟩, by simp⟩
    · exact ⟨.inr hx, hg⟩
  · rintro ⟨hx | hx, hg⟩
    · exact .inl hx
    · exact .inr ⟨hx, hg⟩

theorem subscribe_ofTopology_of_ne (h : name ≠ p.group) (topics : NameSet) :
    p.ofTopology (t.subscribe name topics) = p.ofTopology t := by
  unfold Topology.subscribe ofTopology
  congr 1
  refine KeySet.ext_mem fun x => ?_
  simp only [KeySet.mem_insertAll, KeySet.mem_filter, List.mem_map]
  constructor
  · rintro ⟨⟨topic, -, rfl⟩ | hx, hg⟩
    · exact absurd (by simpa using hg) h
    · exact ⟨hx, hg⟩
  · exact fun hx => ⟨.inr hx.1, hx.2⟩

theorem unsubscribe_ofTopology (name : String) (topics : NameSet) :
    (p.ofTopology t).unsubscribe name topics = p.ofTopology (t.unsubscribe name topics) := by
  unfold Topology.unsubscribe ofTopology
  rw [KeySet.filter_comm]

theorem unsubscribe_ofTopology_of_ne (h : name ≠ p.group) (topics : NameSet) :
    p.ofTopology (t.unsubscribe name topics) = p.ofTopology t := by
  rw [← unsubscribe_ofTopology]
  unfold Topology.unsubscribe ofTopology
  congr 1
  refine KeySet.ext_mem fun x => ?_
  simp only [KeySet.mem_filter, and_iff_left_iff_imp]
  rintro ⟨-, hx⟩
  have hne : x.2 ≠ name := fun hname => h (by rw [← hname]; simpa using hx)
  simp [hne]

end Party

namespace Master

variable {p : Party} {m : Master} {x key : String}

/-! ## Leaving -/

theorem dropConsumer_restrict (hp : p.Places m.groups) (hx : p.uses x = true) :
    (m.restrict p).dropConsumer x = ((m.dropConsumer x).1, (m.dropConsumer x).2.restrict p) := by
  have hholdings : (m.holdings.restrict p.uses).erase x = (m.holdings.erase x).restrict p.uses :=
    Table.restrict_erase.symm
  have hevents : (p.ofEvents m.events).clear x = p.ofEvents (m.events.clear x) :=
    Party.setQueue_ofEvents hx []
  have hleave : (p.ofGroups m.groups).leave x = _ := Party.leave_ofGroups hp hx
  unfold dropConsumer
  simp only [restrict, hholdings, hevents, hleave]
  cases m.groups.leave x with
  | mk left groups =>
    cases left with
    | none => rfl
    | some gone =>
      obtain ⟨c, dissolved⟩ := gone
      cases dissolved with
      | true => simp [forget, Party.unregister_ofLiveness, Party.unsubscribe_ofTopology]
      | false => simp [forget, Party.unregister_ofLiveness]

/-- Somebody else leaves. -/
theorem dropConsumer_restrict_of_not (hc : m.groups.Coherent) (hu : m.GroupsUsable)
    (hp : p.Places m.groups) (hx : p.uses x = false) :
    (m.dropConsumer x).2.restrict p = m.restrict p := by
  have hholdings : (m.holdings.erase x).restrict p.uses = m.holdings.restrict p.uses :=
    Table.restrict_erase_of_not hx
  have hevents : p.ofEvents (m.events.clear x) = p.ofEvents m.events :=
    Party.setQueue_ofEvents_of_not hx []
  have hgroups : p.ofGroups (m.groups.leave x).2 = p.ofGroups m.groups :=
    Party.leave_ofGroups_of_not hp hx
  have hgone := Groups.leave_fst m.groups x
  unfold dropConsumer
  simp only [restrict]
  cases hl : m.groups.leave x with
  | mk left groups =>
    rw [hl] at hgroups hgone
    cases left with
    | none => simp only [hholdings, hevents, hgroups]
    | some gone =>
      obtain ⟨c, dissolved⟩ := gone
      have hcons : m.groups.consumer? x = some c := hgone.symm
      have hgroup : c.group ≠ p.group := by
        have hiff := hp x c.group (hc.groupOf?_eq hcons)
        simpa [hx] using hiff
      have hkey : p.tracks .consumer c.livenessKey = false :=
        (Party.tracks_livenessKey (hu x c hcons)).trans (decide_eq_false hgroup)
      cases dissolved with
      | true => simp [forget, hholdings, hevents, hgroups, Party.unregister_ofLiveness_of_not hkey,
          Party.unsubscribe_ofTopology_of_ne hgroup]
      | false => simp [forget, hholdings, hevents, hgroups,
          Party.unregister_ofLiveness_of_not hkey]

theorem releaseConsumer_restrict (hp : p.Places m.groups) (hx : p.uses x = true) :
    (m.restrict p).releaseConsumer x = (m.releaseConsumer x).restrict p := by
  unfold releaseConsumer
  simp only [dropConsumer_restrict hp hx]
  exact allow_restrict m _ (.ok (m.dropConsumer x).1, (m.dropConsumer x).2)

theorem releaseConsumer_restrict_of_not (hc : m.groups.Coherent) (hu : m.GroupsUsable)
    (hp : p.Places m.groups) (hx : p.uses x = false) :
    (m.releaseConsumer x).2.restrict p = m.restrict p :=
  allow_snd (p := fun m' => m'.restrict p = m.restrict p) rfl
    (dropConsumer_restrict_of_not hc hu hp hx)

theorem consumerClose_restrict {r : ConsumerClose} (hp : p.Places m.groups)
    (hx : p.uses r.consumer = true) :
    (m.restrict p).consumerClose r = (m.consumerClose r).restrict p := by
  have hcheck : (m.restrict p).checkConsumerClose r = m.checkConsumerClose r := by
    unfold checkConsumerClose
    rw [show (m.restrict p).groups.groupOf? r.consumer = m.groups.groupOf? r.consumer from
      Party.groupOf?_ofGroups hx]
    rfl
  unfold consumerClose
  rw [hcheck, ← allow_restrict, releaseConsumer_restrict hp hx]
  unfold Outcome.restrict
  cases m.releaseConsumer r.consumer with
  | mk answer m' => cases answer <;> rfl

theorem consumerClose_restrict_of_not {r : ConsumerClose} (hc : m.groups.Coherent)
    (hu : m.GroupsUsable) (hp : p.Places m.groups) (hx : p.uses r.consumer = false) :
    (m.consumerClose r).2.restrict p = m.restrict p := by
  rcases consumerClose_snd m r with he | he
  · rw [he]
  · rw [he]
    exact releaseConsumer_restrict_of_not hc hu hp hx

/-! ## Registering -/

section Register

variable {r : ConsumerRegister}

theorem enrolConsumer_restrict (hid : p.uses r.toConsumer.id = true)
    (hg : r.toConsumer.group = p.group) (hu : '@' ∉ r.group.toList) :
    (m.restrict p).enrolConsumer r = (m.enrolConsumer r).restrict p := by
  have hkey : p.tracks .consumer r.toConsumer.livenessKey = true :=
    (Party.tracks_livenessKey hu).trans (decide_eq_true hg)
  have hjoin : (p.ofGroups m.groups).join r.toConsumer = p.ofGroups (m.groups.join r.toConsumer) :=
    Party.join_ofGroups hg hid
  have hevents : (p.ofEvents m.events).clear r.toConsumer.id =
      p.ofEvents (m.events.clear r.toConsumer.id) :=
    Party.setQueue_ofEvents hid []
  have herased : (m.holdings.restrict p.uses).erase r.toConsumer.id =
      (m.holdings.erase r.toConsumer.id).restrict p.uses := Table.restrict_erase.symm
  have hheld : ∀ h, (m.holdings.restrict p.uses).insert r.toConsumer.id h =
      (m.holdings.insert r.toConsumer.id h).restrict p.uses := fun h => (Table.restrict_insert hid).symm
  have htopology : (p.ofTopology m.topology).subscribe r.toConsumer.group r.toConsumer.topics =
      p.ofTopology (m.topology.subscribe r.toConsumer.group r.toConsumer.topics) := by
    rw [hg]
    exact Party.subscribe_ofTopology r.toConsumer.topics
  unfold enrolConsumer
  simp only []
  rw [← hear_restrict hkey]
  congr 1
  cases r.subscribed.isEmpty <;> cases r.notAllocated <;>
    simp [restrict, hjoin, hevents, herased, hheld, htopology, Party.setAllocated_ofGroups]

/-- Somebody else joins another group. -/
theorem enrolConsumer_restrict_of_not (hid : p.uses r.toConsumer.id = false)
    (hg : r.toConsumer.group ≠ p.group) (hu : '@' ∉ r.group.toList) :
    (m.enrolConsumer r).restrict p = m.restrict p := by
  have hkey : p.tracks .consumer r.toConsumer.livenessKey = false :=
    (Party.tracks_livenessKey hu).trans (decide_eq_false hg)
  have hjoin : p.ofGroups (m.groups.join r.toConsumer) = p.ofGroups m.groups :=
    Party.join_ofGroups_of_not hg hid
  have hevents : p.ofEvents (m.events.clear r.toConsumer.id) = p.ofEvents m.events :=
    Party.setQueue_ofEvents_of_not hid []
  have herased : (m.holdings.erase r.toConsumer.id).restrict p.uses = m.holdings.restrict p.uses :=
    Table.restrict_erase_of_not hid
  have hheld : ∀ h, (m.holdings.insert r.toConsumer.id h).restrict p.uses =
      m.holdings.restrict p.uses := fun h => Table.restrict_insert_of_not hid
  have htopology : p.ofTopology (m.topology.subscribe r.toConsumer.group r.toConsumer.topics) =
      p.ofTopology m.topology :=
    Party.subscribe_ofTopology_of_ne hg r.toConsumer.topics
  unfold enrolConsumer
  simp only []
  rw [hear_restrict_of_not hkey]
  cases r.subscribed.isEmpty <;> cases r.notAllocated <;>
    simp [restrict, hjoin, hevents, herased, hheld, htopology, Party.setAllocated_ofGroups_of_ne hg]

theorem consumerRegister_restrict (hid : p.uses r.consumer = true) (hg : r.group = p.group) :
    (m.restrict p).consumerRegister r = (m.consumerRegister r).restrict p := by
  have hcheck : (m.restrict p).checkConsumerRegister r = m.checkConsumerRegister r := by
    unfold checkConsumerRegister
    rw [show (m.restrict p).groups.checkJoin r.toConsumer = m.groups.checkJoin r.toConsumer from
      Party.checkJoin_ofGroups hg hid]
    rfl
  unfold consumerRegister
  rw [hcheck]
  cases hok : m.checkConsumerRegister r with
  | error e => rfl
  | ok u =>
    have hadmitted : ((m.enrolConsumer r).restrict p).consumerAdmitted r.group =
        (m.enrolConsumer r).consumerAdmitted r.group := by
      unfold consumerAdmitted
      rw [hg, show ((m.enrolConsumer r).restrict p).groups.isNotAllocated p.group =
        (m.enrolConsumer r).groups.isNotAllocated p.group from Party.isNotAllocated_ofGroups]
      rfl
    simp only [allow]
    rw [enrolConsumer_restrict hid hg (of_checkConsumerRegister hok).2.1.2, hadmitted]
    rfl

theorem consumerRegister_restrict_of_not (hid : p.uses r.consumer = false)
    (hg : r.group ≠ p.group) : (m.after (.consumerRegister r)).restrict p = m.restrict p := by
  rcases after_consumerRegister m r with ⟨hok, he⟩ | ⟨-, he⟩
  · rw [he]
    exact enrolConsumer_restrict_of_not hid hg (of_checkConsumerRegister hok).2.1.2
  · rw [he]

end Register

/-! ## Heartbeats -/

section Heartbeat

variable {r : ConsumerHeartbeat}

theorem takeAcknowledgement_restrict (hid : p.uses r.consumer = true) (m : Master) :
    (m.restrict p).takeAcknowledgement r = (m.takeAcknowledgement r).restrict p := by
  have hheld : ∀ h, (m.holdings.restrict p.uses).insert r.consumer h =
      (m.holdings.insert r.consumer h).restrict p.uses := fun h => (Table.restrict_insert hid).symm
  have hget : (m.holdings.restrict p.uses).getD r.consumer Table.empty =
      m.holdings.getD r.consumer Table.empty := by
    unfold Table.getD
    rw [Table.get?_restrict_of hid]
  unfold takeAcknowledgement
  by_cases hack : r.acknowledged = 0
  · rw [if_pos hack, if_pos hack]
  · rw [if_neg hack, if_neg hack]
    simp only [restrict, Party.acknowledge_ofEvents hid, Party.setAllocated_ofGroups]
    cases m.events.acknowledge r.consumer r.acknowledged with
    | mk taken events =>
      cases taken with
      | none => rfl
      | some e => simp only [hheld, hget]

theorem takeAcknowledgement_restrict_of_not (hid : p.uses r.consumer = false)
    (hg : r.group ≠ p.group) (m : Master) :
    (m.takeAcknowledgement r).restrict p = m.restrict p := by
  have hheld : ∀ h, (m.holdings.insert r.consumer h).restrict p.uses = m.holdings.restrict p.uses :=
    fun h => Table.restrict_insert_of_not hid
  have hevents : p.ofEvents (m.events.acknowledge r.consumer r.acknowledged).2 = p.ofEvents m.events :=
    Party.acknowledge_ofEvents_of_not hid
  unfold takeAcknowledgement
  split
  · rfl
  · simp only []
    split
    · simp only [restrict, Party.setAllocated_ofGroups_of_ne hg]
    · rename_i heq
      rw [heq] at hevents
      simp only [restrict, Party.setAllocated_ofGroups_of_ne hg, hheld, hevents]

theorem takeReport_restrict (hid : p.uses x = true) (m : Master) (subs : List Subscription) :
    (m.restrict p).takeReport x subs = (m.takeReport x subs).restrict p := by
  have hget : (m.restrict p).holdings.get? x = m.holdings.get? x := Table.get?_restrict_of hid
  have herased : (m.restrict p).holdings.erase x = (m.holdings.erase x).restrict p.uses :=
    Table.restrict_erase.symm
  have hheld : ∀ h, (m.restrict p).holdings.insert x h = (m.holdings.insert x h).restrict p.uses :=
    fun h => (Table.restrict_insert hid).symm
  unfold takeReport
  simp only [hget, herased, hheld]
  split_ifs <;> rfl

theorem takeReport_restrict_of_not (hid : p.uses x = false) (m : Master)
    (subs : List Subscription) : (m.takeReport x subs).restrict p = m.restrict p := by
  have herased : (m.holdings.erase x).restrict p.uses = m.holdings.restrict p.uses :=
    Table.restrict_erase_of_not hid
  have hheld : ∀ h, (m.holdings.insert x h).restrict p.uses = m.holdings.restrict p.uses :=
    fun h => Table.restrict_insert_of_not hid
  unfold takeReport
  simp only []
  split_ifs
  · rfl
  · simp only [restrict, herased]
  · simp only [restrict, hheld]

theorem checkConsumerHeartbeat_restrict (hg : r.group = p.group) :
    (m.restrict p).checkConsumerHeartbeat r = m.checkConsumerHeartbeat r := by
  unfold checkConsumerHeartbeat
  rw [restrict_checkPrimary, restrict_consumerRows]
  cases hvalid : r.validate with
  | error e => cases m.checkPrimary <;> rfl
  | ok u =>
    have hu : '@' ∉ r.group.toList := by
      unfold ConsumerHeartbeat.validate at hvalid
      obtain ⟨-, hvalid⟩ := bind_eq_ok_iff.mp hvalid
      exact (requireName_ok_iff.mp (bind_eq_ok_iff.mp hvalid).1).2
    rw [checkKnown_restrict ((Party.tracks_livenessKey hu).trans (decide_eq_true hg))]

theorem consumerHeartbeat_restrict (hid : p.uses r.consumer = true) (hg : r.group = p.group) :
    (m.restrict p).consumerHeartbeat r = (m.consumerHeartbeat r).restrict p := by
  unfold consumerHeartbeat
  rw [checkConsumerHeartbeat_restrict hg]
  cases hok : m.checkConsumerHeartbeat r with
  | error e => rfl
  | ok u =>
    have hkey : p.tracks .consumer (livenessKey r.consumer r.group) = true :=
      (Party.tracks_livenessKey (of_checkConsumerHeartbeat hok).2.1.2).trans (decide_eq_true hg)
    have hpulse : ∀ m : Master,
        (((.ok { notAllocated := (m.restrict p).groups.isNotAllocated r.group
                 event := ((m.restrict p).events.deliver r.consumer).1 },
          { m.restrict p with events := ((m.restrict p).events.deliver r.consumer).2 }) :
            Outcome ConsumerPulse)) =
        Outcome.restrict p (.ok { notAllocated := m.groups.isNotAllocated r.group
                                  event := (m.events.deliver r.consumer).1 },
          { m with events := (m.events.deliver r.consumer).2 }) := by
      intro m
      have hdelivered : (m.restrict p).events.deliver r.consumer = _ := Party.deliver_ofEvents hid
      have hgroup : (m.restrict p).groups.isNotAllocated r.group = m.groups.isNotAllocated r.group := by
        rw [hg]
        exact Party.isNotAllocated_ofGroups
      rw [hdelivered, hgroup]
      rfl
    simp only [allow]
    rw [hear_restrict hkey, takeAcknowledgement_restrict hid]
    cases r.reported with
    | none => exact hpulse _
    | some subs =>
      simp only [takeReport_restrict hid]
      exact hpulse _

theorem consumerHeartbeat_restrict_of_not (hid : p.uses r.consumer = false)
    (hg : r.group ≠ p.group) : (m.consumerHeartbeat r).2.restrict p = m.restrict p := by
  unfold consumerHeartbeat
  cases hok : m.checkConsumerHeartbeat r with
  | error e => rfl
  | ok u =>
    have hkey : p.tracks .consumer (livenessKey r.consumer r.group) = false :=
      (Party.tracks_livenessKey (of_checkConsumerHeartbeat hok).2.1.2).trans (decide_eq_false hg)
    have hdelivered : ∀ m : Master,
        ({ m with events := (m.events.deliver r.consumer).2 } : Master).restrict p = m.restrict p := by
      intro m
      simp only [restrict, Party.deliver_ofEvents_of_not hid]
    simp only [allow]
    rw [hdelivered]
    cases r.reported with
    | none =>
      simp only []
      rw [takeAcknowledgement_restrict_of_not hid hg, hear_restrict_of_not hkey]
    | some subs =>
      simp only []
      rw [takeReport_restrict_of_not hid, takeAcknowledgement_restrict_of_not hid hg,
        hear_restrict_of_not hkey]

end Heartbeat

/-! ## Whose ids are whose -/

/-- Nobody but the consumers of the party is registered under its ids, and they are tracked. -/
structure Separate (p : Party) (m : Master) : Prop where
  registry : Registry m
  attended : ConsumersAttended m
  placed : p.Places m.groups

end Master

/-- The consumer that makes a request, and the group it makes it for. -/
def Operation.requester? : Operation → Option (String × String)
  | .consumerRegister r => some (r.consumer, r.group)
  | .consumerHeartbeat r => some (r.consumer, r.group)
  | .consumerClose r => some (r.consumer, r.group)
  | _ => none

/-- Whoever makes the request uses an id of the party exactly when it is of its group. -/
def Operation.Fits (op : Operation) (p : Party) : Prop :=
  ∀ id group, op.requester? = some (id, group) → (p.uses id = true ↔ group = p.group)

theorem Party.Places.mono {p : Party} {gs gs' : Groups} (h : p.Places gs) (hc : gs.Coherent)
    (hc' : gs'.Coherent) (hsub : ∀ id c, gs'.consumer? id = some c → gs.consumer? id = some c) :
    p.Places gs' := by
  intro id name hof
  obtain ⟨c, hget, rfl⟩ := hc'.exists_consumer hof
  exact h id c.group (hc.groupOf?_eq (hsub id c hget))

namespace Master

variable {p : Party} {m : Master} {op : Operation} {key : String}

namespace Separate

theorem create {settings : Settings} {store : Store} (h : Master.create settings store = .ok m) :
    Separate p m := by
  refine ⟨.create h, .create h, ?_⟩
  obtain rfl := eq_of_create h
  intro id name hof
  cases hof

theorem placed_enrol (h : Separate p m) {r : ConsumerRegister}
    (hr : p.uses r.consumer = true ↔ r.group = p.group) : p.Places (m.enrolConsumer r).groups := by
  have hof : ∀ id, (m.enrolConsumer r).groups.groupOf? id =
      if r.consumer = id then some r.group else m.groups.groupOf? id := by
    intro id
    rcases groups_enrol (m := m) (r := r) with he | he <;> rw [he] <;> exact Groups.groupOf?_join
  intro id name hname
  rw [hof] at hname
  split at hname
  · rename_i hid
    obtain rfl := Option.some.inj hname
    exact hid ▸ hr
  · exact h.placed id name hname

/-- Requests that fit keep it, and so does everything else. -/
theorem after (h : Separate p m) (hop : op.Fits p) : Separate p (m.after op) := by
  refine ⟨h.registry.after op, h.attended.after h.registry op, ?_⟩
  rcases op.cases with hno | ⟨r, rfl⟩ | ⟨r, rfl⟩ | hgo | hrow | rfl
  · rw [(sameConsumers_after hno m).groups]
    exact h.placed
  · rcases after_consumerRegister m r with ⟨-, he⟩ | ⟨-, he⟩
    · rw [he]
      exact h.placed_enrol (hop r.consumer r.group rfl)
    · rw [he]
      exact h.placed
  · rcases after_consumerHeartbeat m r with ⟨-, hb⟩ | ⟨-, he⟩
    · exact h.placed.mono h.registry.coherent (hb.coherent h.registry.coherent)
        fun id c hc => hb.consumer? id ▸ hc
    · rw [he]
      exact h.placed
  · refine (Registry.departure_induction (p := fun m => p.Places m.groups) hgo
      (fun m m' _ hsame hp => hsame.groups ▸ hp) (fun x m m' hr hdrop hp => ?_) h.registry h.placed).2
    exact hp.mono hr.coherent (hr.drops hdrop).coherent
      fun id c hc => ((hdrop.consumer?_iff hr.coherent).mp hc).2
  · obtain ⟨rows, he⟩ := after_of_isRowing hrow m
    rw [he]
    exact h.placed
  · obtain ⟨events, he⟩ := h.registry.after_pass
    rw [he]
    exact h.placed

/-! ## Silent consumers -/

/-- A tracked consumer is one of the party's exactly when the party keeps track of it. -/
theorem exists_parts (h : Separate p m) (ht : m.liveness.isRegistered .consumer key = true) :
    ∃ x group, splitLivenessKey key = some (x, group) ∧ p.uses x = p.tracks .consumer key := by
  obtain ⟨x, c, hget, rfl⟩ := (h.attended.attended key).mp ht
  have hid : c.id = x := h.registry.coherent.id_eq hget
  have hu : '@' ∉ c.group.toList := h.registry.groupsUsable x c hget
  have hplaced := h.placed x c.group (h.registry.coherent.groupOf?_eq hget)
  refine ⟨x, c.group, hid ▸ splitLivenessKey_livenessKey c.id hu, ?_⟩
  rw [show p.tracks .consumer c.livenessKey = _ from Party.tracks_livenessKey hu,
    Bool.eq_iff_iff, decide_eq_true_iff]
  exact hplaced

theorem letGo_restrict (h : Separate p m) (ht : m.liveness.isRegistered .consumer key = true)
    (hk : p.tracks .consumer key = true) :
    (m.restrict p).letGo .consumer key = (m.letGo .consumer key).restrict p := by
  obtain ⟨x, group, hsplit, hx⟩ := h.exists_parts ht
  unfold letGo releaseNode
  simp only [hsplit, forget_restrict]
  rw [releaseConsumer_restrict (m := m.forget .consumer key) h.placed (hx.trans hk)]
  unfold Outcome.restrict
  cases (m.forget .consumer key).releaseConsumer x with
  | mk answer m' =>
    cases answer with
    | error e => exact hear_restrict hk m'
    | ok u => rfl

theorem letGo_restrict_of_not (h : Separate p m)
    (ht : m.liveness.isRegistered .consumer key = true) (hk : p.tracks .consumer key = false) :
    (m.letGo .consumer key).restrict p = m.restrict p := by
  obtain ⟨x, group, hsplit, hx⟩ := h.exists_parts ht
  have hrelease := releaseConsumer_restrict_of_not (m := m.forget .consumer key)
    h.registry.coherent h.registry.groupsUsable h.placed (hx.trans hk)
  rw [forget_restrict_of_not hk] at hrelease
  unfold letGo releaseNode
  simp only [hsplit]
  cases hr : (m.forget .consumer key).releaseConsumer x with
  | mk answer m' =>
    rw [hr] at hrelease
    cases answer with
    | error e => exact (hear_restrict_of_not hk m').trans hrelease
    | ok u => exact hrelease

theorem letGo (h : Separate p m) (ht : m.liveness.isRegistered .consumer key = true) :
    Separate p (m.letGo .consumer key) := by
  have hattended := h.attended.letGo h.registry ht
  rcases letGo_consumer h.registry.coherent h.registry.groupsUsable key with hsame | ⟨x, hdrop⟩
  · exact ⟨h.registry.same hsame, hattended, hsame.groups ▸ h.placed⟩
  · have hr := h.registry.drops hdrop
    exact ⟨hr, hattended, h.placed.mono h.registry.coherent hr.coherent
      fun id c hc => ((hdrop.consumer?_iff h.registry.coherent).mp hc).2⟩

/-- Of the silent consumers the party sees its own go. -/
theorem expireConsumers_restrict (h : Separate p m) :
    ((m.restrict p).expire .consumer).2 = (m.expire .consumer).2.restrict p :=
  expire_restrict (fun _ _ ht hm => hm.letGo ht) (fun _ _ ht hm hk => hm.letGo_restrict ht hk)
    (fun _ _ ht hm hk => hm.letGo_restrict_of_not ht hk) h

end Separate

end Master

end ClusterMaster
