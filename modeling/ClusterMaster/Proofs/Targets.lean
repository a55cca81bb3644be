import ClusterMaster.Proofs.BoundShares
import ClusterMaster.Proofs.FreshShares
import ClusterMaster.Proofs.Selection
import ClusterMaster.Proofs.SteadyShares

/-!
# The targets a pass decides

A shard decides for all its groups at once, from a picture of what their members hold. But the
target of a member depends on its own group alone, and on what the members of that group hold, so
it does not matter how the groups are dealt out to shards: `Master.targetIn` decides it for one
group, from all the master knows.

    the target a shard decides for a member of a group is targetIn               (get?_shardTargets)
    two members of a group are never given partitions with one key               (targetIn_exclusive)
-/

namespace ClusterMaster

namespace Balance

/-! ## What holdings matter -/

section Congruence

variable {g : GroupView} {current current' : Holdings}
  (h : ∀ c ∈ g.members, current.getD c.id Table.empty = current'.getD c.id Table.empty)

include h

theorem claims_congr (parts : Table String Partition) (topic : String) (taken : NameSet)
    {cs : List Consumer} (hcs : cs ⊆ g.members) :
    claims parts current topic taken cs = claims parts current' topic taken cs := by
  induction cs generalizing taken with
  | nil => rfl
  | cons c cs ih =>
    have hheld : stillHeld parts current topic c = stillHeld parts current' topic c := by
      rw [stillHeld, stillHeld, h c (hcs List.mem_cons_self)]
    rw [claims, claims, hheld, ih _ fun x hx => hcs (List.mem_cons_of_mem _ hx)]

/-- Sharing evenly looks at the holdings of members only. -/
theorem steadyGroup_congr : steadyGroup current g = steadyGroup current' g := by
  have htopic : steadyTopic g current = steadyTopic g current' := by
    funext a topic
    have hclaims := claims_congr h (g.eligible topic) topic KeySet.empty
      (show g.candidates topic ⊆ g.members from fun c hc => List.mem_of_mem_filter hc)
    simp only [steadyTopic, seats, hclaims]
  rw [steadyGroup, steadyGroup, htopic]

/-- Serving declarations looks at the holdings of members and the offsets of the group only. -/
theorem boundGroup_congr {offsets offsets' : Offsets}
    (ho : ∀ key, offsets.get? g.name key = offsets'.get? g.name key) :
    boundGroup offsets current g = boundGroup offsets' current' g := by
  have hserve : ∀ topic, ∀ c ∈ g.candidates topic,
      serveOne (g.eligible topic) g.name topic offsets current c =
        serveOne (g.eligible topic) g.name topic offsets' current' c := by
    intro topic c hc
    funext state want
    unfold serveOne withStart
    simp only [h c (List.mem_of_mem_filter hc), ho]
  have htopic : serveTopic g offsets current = serveTopic g offsets' current' := by
    funext a topic
    unfold serveTopic
    refine congrArg Prod.fst (List.foldl_ext _ _ _ fun state c hc => ?_)
    rw [hserve topic c hc]
  rw [boundGroup, boundGroup, htopic]

end Congruence

/-- A decision for all groups that pass a test is the decision for each of them. -/
theorem get?_ofGroups_filter {f : GroupView → Assignment} {gs : List GroupView}
    (hf : ∀ g ∈ gs, ∀ c, (f g).contains c = true → c ∈ g.ids)
    (hn : GroupView.DistinctMembers gs) {g : GroupView} (hg : g ∈ gs) {c : String} (hc : c ∈ g.ids)
    (p : GroupView → Bool) : (Assignment.ofGroups f (gs.filter p)).get? c =
      if p g then (f g).get? c else none := by
  have hfp : ∀ g ∈ gs.filter p, ∀ c, (f g).contains c = true → c ∈ g.ids :=
    fun g hg => hf g (List.mem_of_mem_filter hg)
  split
  · rename_i hp
    exact Assignment.get?_ofGroups hfp (hn.filter p) (List.mem_filter.mpr ⟨hg, hp⟩) hc
  · rename_i hp
    refine Assignment.get?_ofGroups_of_none fun g' hg' => ?_
    obtain ⟨hmem, hp'⟩ := List.mem_filter.mp hg'
    by_contra hs
    have hc' := hfp g' hg' c (Option.isSome_iff_ne_none.mpr hs)
    rw [eq_of_nodup_flatMap hn hg hmem hc hc'] at hp
    exact hp hp'

end Balance

namespace Master

open Balance

variable {m : Master}

/-! ## One group -/

/-- How a pass shares the partitions of a free group: from scratch, or starting from what its
members hold. -/
def sharing (m : Master) (v : GroupView) : Assignment :=
  if m.firstPass then freshGroup v else steadyGroup m.holdings v

/-- The target a pass decides for a member of a group, if it decides any: none for a bound group
that is not complete, and none for a free group that would ask too much of its members. -/
def targetIn (m : Master) (v : GroupView) (c : String) : Option Target :=
  if v.bound then
    if v.isBoundReady then
      (boundGroup m.offsets (if m.firstPass then Table.empty else m.holdings) v).get? c
    else none
  else if v.isShared m.settings.maxBrokersPerConsumer then (m.sharing v).get? c
  else none

/-! ## The picture of a shard -/

theorem ids_viewGroup (g : Group) : (m.viewGroup g).ids = g.members.values.map Consumer.id := rfl

theorem mem_groups_viewShard {names : List String} {v : GroupView} :
    v ∈ (m.viewShard names).groups ↔
      ∃ name ∈ names, ∃ g, m.groups.group? name = some g ∧ m.viewGroup g = v := by
  simp only [viewShard, List.mem_filterMap, Option.map_eq_some_iff]

/-- The members in a picture are those of its groups. -/
theorem flatMap_ids_viewShard (names : List String) :
    (m.viewShard names).groups.flatMap GroupView.ids =
      names.flatMap fun name => (m.groups.membersOf name).map Consumer.id := by
  unfold viewShard
  simp only []
  induction names with
  | nil => rfl
  | cons name names ih =>
    rw [List.filterMap_cons, List.flatMap_cons]
    unfold Groups.membersOf
    cases hg : m.groups.group? name with
    | none =>
      simp only [Option.map_none, Option.getD_none, List.map_nil, List.nil_append]
      exact ih
    | some g =>
      simp only [Option.map_some, Option.getD_some, List.flatMap_cons]
      rw [ids_viewGroup]
      exact congrArg _ ih

/-- Nobody is a member of two groups. -/
theorem nodup_members (hco : m.groups.Coherent) {names : List String} (hn : names.Nodup) :
    (names.flatMap fun name => (m.groups.membersOf name).map Consumer.id).Nodup := by
  refine List.nodup_flatMap.mpr ⟨fun name _ => ?_, hn.imp fun hne => ?_⟩
  · unfold Groups.membersOf
    cases hg : m.groups.group? name with
    | none => exact List.nodup_nil
    | some g => exact Groups.nodup_ids hco hg
  · intro id hid hid'
    obtain ⟨c, hc, rfl⟩ := List.mem_map.mp hid
    obtain ⟨d, hd, heq⟩ := List.mem_map.mp hid'
    obtain ⟨hcons, rfl⟩ := (Groups.mem_membersOf hco).mp hc
    obtain ⟨hcons', rfl⟩ := (Groups.mem_membersOf hco).mp hd
    rw [heq, hcons] at hcons'
    exact hne (congrArg _ (Option.some.inj hcons'))

theorem distinctMembers_viewShard (hco : m.groups.Coherent) {names : List String}
    (hn : names.Nodup) : GroupView.DistinctMembers (m.viewShard names).groups := by
  unfold GroupView.DistinctMembers
  rw [flatMap_ids_viewShard]
  exact nodup_members hco hn

/-- The picture shows what the members of its groups hold. -/
theorem holdings_viewShard {names : List String} {v : GroupView}
    (hv : v ∈ (m.viewShard names).groups) {c : Consumer} (hc : c ∈ v.members) :
    (m.viewShard names).holdings.get? c.id = m.holdings.get? c.id := by
  have hmem : c ∈ (m.viewShard names).groups.flatMap GroupView.members :=
    List.mem_flatMap.mpr ⟨v, hv, hc⟩
  have hdef : (m.viewShard names).holdings = Table.ofList
      (((m.viewShard names).groups.flatMap GroupView.members).filterMap fun c =>
        (m.holdings.get? c.id).map fun h => (c.id, h)) := rfl
  rw [hdef]
  generalize (m.viewShard names).groups.flatMap GroupView.members = cs at hmem
  apply Option.ext
  intro h
  constructor
  · intro hget
    obtain ⟨d, -, hd⟩ := List.mem_filterMap.mp (Table.mem_of_get?_ofList hget)
    obtain ⟨h', hh', heq⟩ := Option.map_eq_some_iff.mp hd
    obtain ⟨hid, rfl⟩ := Prod.mk.inj heq
    rw [← hid]
    exact hh'
  · intro hget
    have hin : (c.id, h) ∈ cs.filterMap fun c => (m.holdings.get? c.id).map fun h => (c.id, h) :=
      List.mem_filterMap.mpr ⟨c, hmem, by rw [hget, Option.map_some]⟩
    obtain ⟨h', hh'⟩ := Table.contains_iff.mp
      (Table.contains_ofList.mpr (List.mem_map.mpr ⟨_, hin, rfl⟩))
    obtain ⟨d, -, hd⟩ := List.mem_filterMap.mp (Table.mem_of_get?_ofList hh')
    obtain ⟨h'', hh'', heq⟩ := Option.map_eq_some_iff.mp hd
    obtain ⟨hid, rfl⟩ := Prod.mk.inj heq
    rw [hid] at hh''
    rw [hh', ← hh'', hget]

/-! ## The targets of a shard -/

/-- The targets a shard decides, for bound groups or for free ones. -/
def shardTargets (m : Master) (b : Balancer) (first : Bool) (view : ShardView) (bound : Bool) :
    Assignment :=
  if bound then
    if first then b.freshBound view.groups m.offsets
    else b.steadyBound view.groups view.holdings m.offsets
  else if first then b.fresh view.groups else b.steady view.groups view.holdings

theorem get?_shardTargets (hco : m.groups.Coherent) {names : List String} (hn : names.Nodup)
    {v : GroupView} (hv : v ∈ (m.viewShard names).groups) {c : Consumer} (hc : c ∈ v.members) :
    (m.shardTargets m.balancer m.firstPass (m.viewShard names) v.bound).get? c.id =
      m.targetIn v c.id := by
  have hdist := distinctMembers_viewShard hco hn
  have hid : c.id ∈ v.ids := List.mem_map_of_mem hc
  have hheld : ∀ c ∈ v.members, (m.viewShard names).holdings.getD c.id Table.empty =
      m.holdings.getD c.id Table.empty := by
    intro c hc
    rw [Table.getD, Table.getD, holdings_viewShard hv hc]
  have hbound : ∀ current, (Balance.bound (m.viewShard names).groups m.offsets current).get? c.id =
      if v.isBoundReady then (boundGroup m.offsets current v).get? c.id else none :=
    fun current => get?_ofGroups_filter (fun _ _ _ h => mem_ids_of_contains_boundGroup h) hdist hv hid _
  have hfresh : (Balance.fresh m.settings.maxBrokersPerConsumer (m.viewShard names).groups).get? c.id =
      if v.isShared m.settings.maxBrokersPerConsumer then (freshGroup v).get? c.id else none :=
    get?_ofGroups_filter (fun _ _ _ h => mem_ids_of_contains_freshGroup h) hdist hv hid _
  have hsteady : (Balance.steady m.settings.maxBrokersPerConsumer (m.viewShard names).groups
      (m.viewShard names).holdings).get? c.id =
      if v.isShared m.settings.maxBrokersPerConsumer then
        (steadyGroup (m.viewShard names).holdings v).get? c.id else none :=
    get?_ofGroups_filter (fun _ _ _ h => mem_ids_of_contains_steadyGroup h) hdist hv hid _
  unfold shardTargets targetIn sharing balancer Balancer.standard
  cases v.bound with
  | true =>
    cases m.firstPass with
    | true => exact hbound Table.empty
    | false =>
      rw [if_pos rfl, if_neg (by decide), hbound, boundGroup_congr hheld fun _ => rfl]
      rfl
  | false =>
    cases m.firstPass with
    | true => exact hfresh
    | false =>
      rw [if_neg (by decide), if_neg (by decide), hsteady, steadyGroup_congr hheld]
      rfl

/-! ## What a target gives -/

theorem getD_eq_of {a : Assignment} {c topic : String} {target : Target}
    (h : a.get? c = some target) : target.getD topic [] = a.of c topic := by
  unfold Assignment.of
  rw [show a.getD c Table.empty = target by rw [Table.getD, h, Option.getD_some]]

section Targets

variable {v : GroupView} {c topic : String}

theorem sharing_shares (hn : v.ids.Nodup) (hk : ((v.partitionsOf topic).map Partition.key).Nodup)
    (ht : topic ∈ v.topics) : Shares v topic (m.sharing v) := by
  unfold sharing
  split
  · exact freshGroup_shares hn ht
  · exact steadyGroup_shares hn hk ht

theorem of_sharing_of_not_topic (ht : topic ∉ v.topics) (c : String) :
    (m.sharing v).of c topic = [] := by
  unfold sharing
  split
  · exact of_freshGroup_of_not_topic ht c
  · exact of_steadyGroup_of_not_topic ht c

theorem contains_sharing_of_mem_ids (hc : c ∈ v.ids) : (m.sharing v).contains c = true := by
  unfold sharing
  split
  · exact contains_freshGroup_of_mem_ids hc
  · exact contains_steadyGroup_of_mem_ids hc

/-- Whether there is a target depends on the group alone. -/
theorem exists_targetIn (hc : c ∈ v.ids) {d : String} {s : Target} (hs : m.targetIn v d = some s) :
    ∃ t, m.targetIn v c = some t := by
  unfold targetIn at hs ⊢
  split at hs
  · rename_i hb
    rw [if_pos hb]
    split at hs
    · rename_i hready
      rw [if_pos hready]
      exact Table.contains_iff.mp (contains_boundGroup_of_mem_ids hc)
    · cases hs
  · rename_i hb
    rw [if_neg hb]
    split at hs
    · rename_i hshared
      rw [if_pos hshared]
      exact Table.contains_iff.mp (contains_sharing_of_mem_ids hc)
    · cases hs

variable (hn : v.ids.Nodup) (hk : ((v.partitionsOf topic).map Partition.key).Nodup)

include hn hk

/-- Whatever a target gives is on offer under the same key. -/
theorem exists_of_mem_targetIn {target : Target} (h : m.targetIn v c = some target) {p : Partition}
    (hp : p ∈ target.getD topic []) : ∃ q ∈ v.partitionsOf topic, q.key = p.key := by
  unfold targetIn at h
  split at h
  · split at h
    · rw [getD_eq_of h] at hp
      obtain ⟨gone, hserved⟩ := boundGroup_served v topic m.offsets
        (if m.firstPass then Table.empty else m.holdings)
      obtain ⟨q, hq, hqp, -⟩ := hserved.offered c p hp
      exact ⟨q, hq, hqp⟩
    · cases h
  · split at h
    · rw [getD_eq_of h] at hp
      by_cases htopic : topic ∈ v.topics
      · exact ⟨p, (sharing_shares hn hk htopic).mem_partitionsOf hp, rfl⟩
      · rw [of_sharing_of_not_topic htopic] at hp
        cases hp
    · cases h

/-- Two members of a group are never given partitions of a topic with one key. -/
theorem targetIn_exclusive {d : String} {s t : Target} (hs : m.targetIn v c = some s)
    (ht : m.targetIn v d = some t) {p q : Partition} (hp : p ∈ s.getD topic [])
    (hq : q ∈ t.getD topic []) (h : p.key = q.key) : c = d := by
  unfold targetIn at hs ht
  split at hs
  · rename_i hb
    rw [if_pos hb] at ht
    split at hs
    · rename_i hready
      rw [if_pos hready] at ht
      rw [getD_eq_of hs] at hp
      rw [getD_eq_of ht] at hq
      exact boundGroup_exclusive hp hq h
    · cases hs
  · rename_i hb
    rw [if_neg hb] at ht
    split at hs
    · rename_i hshared
      rw [if_pos hshared] at ht
      rw [getD_eq_of hs] at hp
      rw [getD_eq_of ht] at hq
      by_cases htopic : topic ∈ v.topics
      · exact (sharing_shares hn hk htopic).eq_of_key_eq hk hp hq h
      · rw [of_sharing_of_not_topic htopic] at hp
        cases hp
    · cases hs

end Targets

end Master

end ClusterMaster
