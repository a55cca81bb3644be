import ClusterMaster.Proofs.SteadyAgain

/-!
# What a sharing of all groups leaves nobody without

Both ways of sharing start from vacant targets and only ever give a partition of a topic to a
member that subscribes to it. So a target has one list for each topic of its member, however the
partitions were dealt (`Furnished`). Put together group by group, the targets are `Complete`:
members of free groups have one each, nobody else has any, and together those of a group have
every partition that a subscriber can reach, once.

    DistinctMembers gs → Complete rate gs (fresh rate gs)                     (fresh_complete)
    DistinctMembers gs → keys tell the partitions of each topic apart →
      CompleteInOrder rate gs (steady rate gs current)                        (steady_inOrder)
-/

namespace ClusterMaster

theorem Table.keys_insert_of_mem {κ ν : Type} [Key κ] [DecidableEq κ] {t : Table κ ν} {k : κ}
    (h : k ∈ t.keys) (v : ν) : (t.insert k v).keys = t.keys := by
  refine KeySet.ext_mem fun j => ?_
  rw [mem_keys, mem_keys, contains, get?_insert, contains]
  split
  · rename_i hj
    subst hj
    simpa [contains] using mem_keys.mp h
  · rfl

/-- What only elements that pass a test contribute is what the elements that pass contribute. -/
theorem flatMap_filter_eq {α β : Type} {f : α → List β} {p : α → Bool} {l : List α}
    (h : ∀ x ∈ l, p x = false → f x = []) : (l.filter p).flatMap f = l.flatMap f := by
  induction l with
  | nil => rfl
  | cons x l ih =>
    have ih := ih fun y hy => h y (List.mem_cons_of_mem _ hy)
    rw [List.filter_cons, List.flatMap_cons]
    cases hp : p x with
    | true => rw [if_pos rfl, List.flatMap_cons, ih]
    | false => rw [if_neg (by simp), ih, h x List.mem_cons_self hp, List.nil_append]

theorem Assignment.of_congr {a b : Assignment} {c topic : String} (h : a.get? c = b.get? c) :
    a.of c topic = b.of c topic := by
  unfold of Table.getD
  rw [h]

namespace GroupView

/-- The group shares its partitions freely and is within the rate. -/
def IsFree (g : GroupView) (rate : UInt32) : Prop :=
  g.bound = false ∧ g.withinRate rate = true

instance (g : GroupView) (rate : UInt32) : Decidable (g.IsFree rate) :=
  inferInstanceAs (Decidable (_ ∧ _))

theorem isShared_iff {g : GroupView} {rate : UInt32} {id : String} (h : id ∈ g.ids) :
    g.isShared rate = true ↔ g.IsFree rate := by
  have hne : g.members.isEmpty = false := by
    obtain ⟨c, hc, -⟩ := List.mem_map.mp h
    exact List.isEmpty_eq_false_iff.mpr (List.ne_nil_of_mem hc)
  simp [isShared, IsFree, hne]

theorem mem_filter_isShared {gs : List GroupView} {g : GroupView} {rate : UInt32} {id : String}
    (hg : g ∈ gs) (hfree : g.IsFree rate) (h : id ∈ g.ids) :
    g ∈ gs.filter fun g => g.isShared rate :=
  List.mem_filter.mpr ⟨hg, (isShared_iff h).mpr hfree⟩

end GroupView

/-! ## One list per topic -/

/-- Every member has a target, with one list for each topic it subscribes to. -/
def Furnished (g : GroupView) (a : Assignment) : Prop :=
  ∀ c ∈ g.members, ∃ target, a.get? c.id = some target ∧ target.keys = c.topics

section Furnished

variable {g : GroupView} {topic : String} {a : Assignment} (hn : g.ids.Nodup)

include hn

theorem furnished_vacant : Furnished g (Assignment.vacant g) := by
  intro c hc
  have hids : ((g.members.map fun c =>
      (c.id, Table.ofList (c.topics.toList.map fun t => (t, ([] : List Partition))))).map
        Prod.fst).Nodup := by
    rw [List.map_map]
    exact hn
  refine ⟨_, (Table.get?_ofList_of_nodup hids).mpr (List.mem_map_of_mem hc), ?_⟩
  refine KeySet.ext_mem fun t => ?_
  rw [Table.mem_keys, Table.contains_ofList, List.map_map]
  simp

/-- Giving a subscriber a partition adds it to a list that is there already. -/
theorem Furnished.give (h : Furnished g a) {c : Consumer} (hc : c ∈ g.candidates topic)
    (p : Partition) : Furnished g (a.give c.id topic p) := by
  intro d hd
  obtain ⟨target, ha, hkeys⟩ := h d hd
  obtain ⟨hcm, hsub⟩ := GroupView.mem_candidates.mp hc
  unfold Assignment.give
  rw [Table.get?_insert]
  split
  · rename_i hid
    obtain rfl : c = d := List.inj_on_of_nodup_map hn hcm hd hid
    have htopic : topic ∈ target.keys := by
      rw [hkeys]
      simpa [Consumer.isSubscribed] using hsub
    refine ⟨_, rfl, ?_⟩
    rw [Table.getD, ha, Option.getD_some, Table.keys_insert_of_mem htopic, hkeys]
  · exact ⟨target, ha, hkeys⟩

end Furnished

namespace Balance

/-! ## Both ways of sharing only give to subscribers -/

section Induction

variable {g : GroupView} {P : Assignment → Prop} (hvacant : P (Assignment.vacant g))
  (hgive : ∀ a topic, ∀ c ∈ g.candidates topic, ∀ p, P a → P (a.give c.id topic p))

include hvacant hgive

/-- What holds of vacant targets and is kept whenever a subscriber is given a partition holds of a
group that is shared from scratch. -/
theorem freshGroup_induction : P (freshGroup g) := by
  have hone : ∀ topic a p, P a → P (dealOne topic (g.candidates topic) a p) := by
    intro topic a p h
    unfold dealOne
    split
    · rename_i c hc
      exact hgive a topic c (leastBurdened_mem hc).1 p h
    · exact h
  exact List.foldlRecOn _ _ hvacant fun a h topic _ =>
    List.foldlRecOn _ _ h fun a h p _ => hone topic a p h

/-- The same of a group that is shared evenly. -/
theorem steadyGroup_induction (current : Holdings) : P (steadyGroup current g) := by
  refine List.foldlRecOn _ _ hvacant fun a h topic _ => ?_
  refine List.foldlRecOn _ _ h fun a h s hs => ?_
  have hmember : s.member ∈ g.candidates topic := by
    rw [← map_member_finalSeats current topic g]
    exact List.mem_map_of_mem hs
  exact List.foldlRecOn _ _ h fun a h p _ => hgive a topic s.member hmember p h

end Induction

/-- What a consumer is given of a topic is in ascending key order. -/
theorem steadyGroup_ascending {g : GroupView} {topic : String} {current : Holdings}
    (hn : g.ids.Nodup) (ht : topic ∈ g.topics) (id : String) :
    ((steadyGroup current g).of id topic).Pairwise fun p q => Key.before p.key q.key = true := by
  by_cases hid : id ∈ (g.candidates topic).map Consumer.id
  · rw [← map_id_finalSeats current topic g] at hid
    obtain ⟨s, hs, rfl⟩ := List.mem_map.mp hid
    rw [of_steadyGroup hn ht hs, ← List.pairwise_map (R := fun k l => Key.before k l = true),
      map_key_partitions ((finalSeats_seated current topic g).exists_of_mem_kept hs)]
    exact KeySet.ascending _
  · rw [of_steadyGroup_of_not_candidate ht hid]
    exact List.Pairwise.nil

/-! ## All groups -/

/-- The targets are those of the free groups: exactly their members have one, with one list per
topic that the member subscribes to; of each topic they have together what somebody who subscribes
can reach, each partition as it is on offer and once; and whoever has one subscribes and can reach
it. -/
structure Complete (rate : UInt32) (gs : List GroupView) (a : Assignment) : Prop where
  members : ∀ id, a.contains id = true ↔ ∃ g ∈ gs, g.IsFree rate ∧ id ∈ g.ids
  topics : ∀ g ∈ gs, g.IsFree rate → ∀ c ∈ g.members,
    ∃ target, a.get? c.id = some target ∧ target.keys = c.topics
  perm : ∀ g ∈ gs, g.IsFree rate → ∀ topic ∈ g.topics,
    (g.members.flatMap fun c => a.of c.id topic).Perm
      ((g.partitionsOf topic).filter fun p =>
        g.members.any fun c => c.isSubscribed topic && c.canReach p.broker)
  canReach : ∀ g ∈ gs, g.IsFree rate → ∀ topic ∈ g.topics, ∀ c ∈ g.members,
    ∀ p ∈ a.of c.id topic, c.isSubscribed topic = true ∧ c.canReach p.broker = true

/-- Moreover no key is given twice, and everybody's list is in ascending key order. -/
structure CompleteInOrder (rate : UInt32) (gs : List GroupView) (a : Assignment) : Prop
    extends Complete rate gs a where
  once : ∀ g ∈ gs, g.IsFree rate → ∀ topic ∈ g.topics,
    ((g.members.flatMap fun c => a.of c.id topic).map Partition.key).Nodup
  ascending : ∀ g ∈ gs, g.IsFree rate → ∀ topic ∈ g.topics, ∀ c ∈ g.members,
    (a.of c.id topic).Pairwise fun p q => Key.before p.key q.key = true

/-- What the members have of a topic is what the candidates have. -/
theorem flatMap_members_of_shares {g : GroupView} {topic : String} {a : Assignment}
    (hn : g.ids.Nodup) (h : Shares g topic a) :
    (g.members.flatMap fun c => a.of c.id topic) =
      (g.candidates topic).flatMap fun c => a.of c.id topic := by
  refine (flatMap_filter_eq fun c hc hsub => h.only c.id fun hid => ?_).symm
  obtain ⟨d, hd, hdc⟩ := List.mem_map.mp hid
  obtain ⟨hdm, hds⟩ := GroupView.mem_candidates.mp hd
  rw [List.inj_on_of_nodup_map hn hdm hc hdc, hsub] at hds
  cases hds

section Groups

variable {rate : UInt32} {gs : List GroupView} {f : GroupView → Assignment} {g : GroupView}

/-- What a member of a free group gets is what its own group is decided to give it. -/
theorem get?_sharedOut
    (hf : ∀ g ∈ gs.filter (fun g => g.isShared rate), ∀ c, (f g).contains c = true → c ∈ g.ids)
    (hn : GroupView.DistinctMembers gs) (hg : g ∈ gs) (hfree : g.IsFree rate) {c : Consumer}
    (hc : c ∈ g.members) :
    (Assignment.ofGroups f (gs.filter fun g => g.isShared rate)).get? c.id = (f g).get? c.id := by
  have hid : c.id ∈ g.ids := List.mem_map_of_mem hc
  exact Assignment.get?_ofGroups hf (hn.filter _) (GroupView.mem_filter_isShared hg hfree hid) hid

theorem get?_fresh (hn : GroupView.DistinctMembers gs) (hg : g ∈ gs) (hfree : g.IsFree rate)
    {c : Consumer} (hc : c ∈ g.members) :
    (fresh rate gs).get? c.id = (freshGroup g).get? c.id :=
  get?_sharedOut (fun _ _ _ => mem_ids_of_contains_freshGroup) hn hg hfree hc

theorem get?_steady (current : Holdings) (hn : GroupView.DistinctMembers gs) (hg : g ∈ gs)
    (hfree : g.IsFree rate) {c : Consumer} (hc : c ∈ g.members) :
    (steady rate gs current).get? c.id = (steadyGroup current g).get? c.id :=
  get?_sharedOut (fun _ _ _ => mem_ids_of_contains_steadyGroup) hn hg hfree hc

namespace HandsOut

variable (h : HandsOut (gs.filter fun g => g.isShared rate) f)

include h

/-- A consumer with a target is a member of a free group. -/
theorem exists_isFree {id : String}
    (hid : (Assignment.ofGroups f (gs.filter fun g => g.isShared rate)).contains id = true) :
    ∃ g ∈ gs, g.IsFree rate ∧ id ∈ g.ids := by
  by_contra hno
  have hnone : ∀ g ∈ gs.filter (fun g => g.isShared rate), (f g).get? id = none := by
    intro g hg
    by_contra hs
    have hmem := h.members g hg id (Option.isSome_iff_ne_none.mpr hs)
    obtain ⟨hgs, hshared⟩ := List.mem_filter.mp hg
    exact hno ⟨g, hgs, (GroupView.isShared_iff hmem).mp hshared, hmem⟩
  rw [Table.contains, Assignment.get?_ofGroups_of_none hnone] at hid
  cases hid

/-- Decisions for each free group that hand every topic out make up complete targets. -/
theorem complete (hn : GroupView.DistinctMembers gs) (hfurnished : ∀ g ∈ gs, Furnished g (f g)) :
    Complete rate gs (Assignment.ofGroups f (gs.filter fun g => g.isShared rate)) := by
  have hshares : ∀ g ∈ gs, g.IsFree rate → ∀ topic ∈ g.topics, ∀ c ∈ g.members,
      Shares g topic (f g) := by
    intro g hg hfree topic ht c hc
    exact h.shares g (GroupView.mem_filter_isShared hg hfree (List.mem_map_of_mem hc)) topic ht
  have hof : ∀ g ∈ gs, g.IsFree rate → ∀ topic, ∀ c ∈ g.members,
      (Assignment.ofGroups f (gs.filter fun g => g.isShared rate)).of c.id topic =
        (f g).of c.id topic := fun g hg hfree topic c hc =>
    Assignment.of_congr (get?_sharedOut h.members hn hg hfree hc)
  constructor
  case members =>
    refine fun id => ⟨h.exists_isFree, ?_⟩
    rintro ⟨g, hg, hfree, hid⟩
    obtain ⟨c, hc, rfl⟩ := List.mem_map.mp hid
    obtain ⟨target, ht, -⟩ := hfurnished g hg c hc
    rw [Table.contains, get?_sharedOut h.members hn hg hfree hc, ht]
    rfl
  case topics =>
    intro g hg hfree c hc
    rw [get?_sharedOut h.members hn hg hfree hc]
    exact hfurnished g hg c hc
  case perm =>
    intro g hg hfree topic ht
    rw [List.flatMap_congr fun c hc => hof g hg hfree topic c hc]
    rcases g.members.eq_nil_or_concat with hnil | ⟨_, c, hc⟩
    · simp [hnil]
    · have hsh := hshares g hg hfree topic ht c (by simp [hc])
      rw [flatMap_members_of_shares (hn.nodup hg) hsh]
      refine hsh.perm.trans (List.Perm.of_eq (List.filter_congr fun p _ => ?_))
      simp [GroupView.reachable, GroupView.candidates, List.any_filter]
  case canReach =>
    intro g hg hfree topic ht c hc p hp
    rw [hof g hg hfree topic c hc] at hp
    obtain ⟨d, hd, hid, hr⟩ := (hshares g hg hfree topic ht c hc).exists_candidate hp
    obtain ⟨hdm, hds⟩ := GroupView.mem_candidates.mp hd
    obtain rfl := List.inj_on_of_nodup_map (hn.nodup hg) hdm hc hid
    exact ⟨hds, hr⟩

end HandsOut

/-- Sharing from scratch loses no partition and gives none twice. -/
theorem fresh_complete (rate : UInt32) (hn : GroupView.DistinctMembers gs) :
    Complete rate gs (fresh rate gs) := by
  refine (freshGroup_handsOut (hn.filter _)).complete hn fun g hg => ?_
  exact freshGroup_induction (furnished_vacant (hn.nodup hg))
    fun a topic c hc p h => h.give (hn.nodup hg) hc p

/-- A group whose member talks TLS, with a blocked topic and a partition out of reach. -/
def secureGroup : GroupView where
  name := "h"
  members :=
    [{ id := "c", group := "h", host := "h", topics := KeySet.ofList ["t", "u"], overTls := true }]
  topics := KeySet.ofList ["t", "u"]
  black := KeySet.ofList ["u"]
  partitions := mixedGroup.partitions

/-- Two free groups, the second with a partition out of reach, and a bound one. -/
def threeGroups : List GroupView :=
  [mixedGroup, secureGroup,
    { mixedGroup with
      name := "i"
      members := [{ id := "d", group := "i", host := "h", topics := KeySet.ofList ["t"] }]
      bound := true }]

theorem threeGroups_complete :
    GroupView.DistinctMembers threeGroups ∧ Complete 0 threeGroups (fresh 0 threeGroups) :=
  ⟨by decide, fresh_complete 0 (by decide)⟩

/-- Sharing evenly loses no partition and gives none twice, whatever consumers hold. -/
theorem steady_inOrder (rate : UInt32) (current : Holdings) (hn : GroupView.DistinctMembers gs)
    (hk : ∀ g ∈ gs, ∀ t ∈ g.topics, ((g.partitionsOf t).map Partition.key).Nodup) :
    CompleteInOrder rate gs (steady rate gs current) := by
  have hcomplete : Complete rate gs (steady rate gs current) := by
    refine (steadyGroup_handsOut (hn.filter _)
      (fun g hg => hk g (List.mem_of_mem_filter hg)) current).complete hn fun g hg => ?_
    exact steadyGroup_induction (furnished_vacant (hn.nodup hg))
      (fun a topic c hc p h => h.give (hn.nodup hg) hc p) current
  refine { hcomplete with once := ?_, ascending := ?_ }
  · intro g hg hfree topic ht
    have hperm := (hcomplete.perm g hg hfree topic ht).map Partition.key
    exact hperm.nodup_iff.mpr ((hk g hg topic ht).sublist (List.filter_sublist.map _))
  · intro g hg hfree topic ht c hc
    rw [Assignment.of_congr (get?_steady current hn hg hfree hc)]
    exact steadyGroup_ascending (hn.nodup hg) ht c.id

/-- The plain member holds what the other one of its group could read. -/
theorem threeGroups_inOrder : GroupView.DistinctMembers threeGroups ∧
    (∀ g ∈ threeGroups, ∀ t ∈ g.topics, ((g.partitionsOf t).map Partition.key).Nodup) ∧
    CompleteInOrder 0 threeGroups (steady 0 threeGroups mixedHoldings) :=
  ⟨by decide, by decide, steady_inOrder 0 mixedHoldings (by decide) (by decide)⟩

end Groups

end Balance

end ClusterMaster
