import ClusterMaster.Proofs.FreshShares
import ClusterMaster.Proofs.Surplus

/-!
# Sharing evenly once more

A second sharing starts from the targets of the first one, taken as holdings. All of them are
valid claims, so the candidates sit down with what they were given, in `fullSeats`, under quotas
that depend on it. `Recovers` says of a group and a topic that each partition which a candidate
then gives up goes back to it.

    the targets stay the same ↔ Recovers, for every shared group and topic   (steady_again_iff)
    the targets stay the same → nobody is told to drop or take up anything     (between_isEmpty)
-/

namespace ClusterMaster

/-! ## Targets as holdings -/

namespace Assignment

/-- The keys of the partitions a consumer is given of a topic. -/
def keysOf (a : Assignment) (c topic : String) : NameSet :=
  KeySet.ofList ((a.of c topic).map Partition.key)

variable {a : Assignment} {c topic : String} {p : Partition}

theorem mem_of_iff : p ∈ a.of c topic ↔
    ∃ target, a.get? c = some target ∧ ∃ ps, target.get? topic = some ps ∧ p ∈ ps := by
  unfold of Table.getD
  cases a.get? c with
  | none => simp
  | some target =>
    rw [Option.getD_some]
    cases ht : target.get? topic with
    | none => simp [ht]
    | some ps => simp [ht]

/-- What is filed for a consumer is a partition of its target. -/
theorem exists_of_toHoldings {x : String × String}
    (h : (a.toHoldings.getD c Table.empty).get? x = some p) : p ∈ a.of c x.1 ∧ p.key = x.2 := by
  unfold toHoldings Table.getD at h
  rw [Table.get?_map] at h
  cases ha : a.get? c with
  | none =>
    rw [ha] at h
    cases h
  | some target =>
    rw [ha] at h
    obtain ⟨e, he, hm⟩ := List.mem_flatMap.mp (Table.mem_of_get?_ofList h)
    obtain ⟨q, hq, heq⟩ := List.mem_map.mp hm
    obtain ⟨rfl, rfl⟩ := Prod.mk.inj heq
    exact ⟨mem_of_iff.mpr ⟨target, ha, e.2, Table.mem_entries_iff.mp he, hq⟩, rfl⟩

theorem contains_toHoldings (h : p ∈ a.of c topic) :
    (a.toHoldings.getD c Table.empty).contains (topic, p.key) = true := by
  obtain ⟨target, ha, ps, hps, hp⟩ := mem_of_iff.mp h
  unfold toHoldings Table.getD
  rw [Table.get?_map, ha]
  refine Table.contains_ofList.mpr (List.mem_map.mpr ⟨((topic, p.key), p), ?_, rfl⟩)
  exact List.mem_flatMap.mpr ⟨(topic, ps), Table.get?_eq_some_iff.mp hps, List.mem_map_of_mem hp⟩

theorem keysOf_toHoldings :
    (a.toHoldings.getD c Table.empty).keysOf topic = (a.keysOf c topic).toList := by
  refine Key.ascending_ext Holding.keysOf_ascending (a.keysOf c topic).ascending fun k => ?_
  rw [Holding.mem_keysOf, KeySet.mem_toList, keysOf, KeySet.mem_ofList, List.mem_map]
  constructor
  · intro h
    obtain ⟨p, hp⟩ := Table.contains_iff.mp h
    exact ⟨p, exists_of_toHoldings hp⟩
  · rintro ⟨p, hp, rfl⟩
    exact contains_toHoldings hp

/-- When no key is given twice, what is filed under a topic is what is given of it. -/
theorem mem_ofTopic_toHoldings (hn : ((a.of c topic).map Partition.key).Nodup) :
    p ∈ (a.toHoldings.getD c Table.empty).ofTopic topic ↔ p ∈ a.of c topic := by
  rw [Holding.mem_ofTopic]
  constructor
  · rintro ⟨k, hk⟩
    exact (exists_of_toHoldings hk).1
  · intro hp
    obtain ⟨q, hq⟩ := Table.contains_iff.mp (contains_toHoldings hp)
    obtain ⟨hqa, hkey⟩ := exists_of_toHoldings hq
    rw [List.inj_on_of_nodup_map hn hqa hp hkey] at hq
    exact ⟨p.key, hq⟩

/-- What a member is given is what its own group is decided to give it. -/
theorem of_ofGroups {f : GroupView → Assignment} {gs : List GroupView}
    (hf : ∀ g ∈ gs, ∀ c, (f g).contains c = true → c ∈ g.ids)
    (hn : GroupView.DistinctMembers gs) {g : GroupView} (hg : g ∈ gs) (hc : c ∈ g.ids) :
    (ofGroups f gs).of c topic = (f g).of c topic := by
  unfold of Table.getD
  rw [get?_ofGroups hf hn hg hc]

theorem of_ofGroups_of_not_mem {f : GroupView → Assignment} {gs : List GroupView}
    (hf : ∀ g ∈ gs, ∀ c, (f g).contains c = true → c ∈ g.ids) (hc : ∀ g ∈ gs, c ∉ g.ids) :
    (ofGroups f gs).of c topic = [] := by
  have hnone : ∀ g ∈ gs, (f g).get? c = none := by
    intro g hg
    by_contra hs
    exact hc g hg (hf g hg c (Option.isSome_iff_ne_none.mpr hs))
  unfold of Table.getD
  rw [get?_ofGroups_of_none hnone]
  rfl

end Assignment

namespace Balance

/-! ## One topic -/

section Topic

variable {g : GroupView} {topic : String} {a b : Assignment} {current : Holdings}

/-- The candidates with all they are given of a topic, and the quotas that follow from it. -/
def fullSeats (g : GroupView) (topic : String) (a : Assignment) : List Seat :=
  let held := (g.candidates topic).map fun c => (a.keysOf c.id topic).toList
  let quotas := quotas (g.eligible topic).size (g.candidates topic) held
  ((g.candidates topic).zip (held.zip quotas)).map fun e =>
    { member := e.1, kept := e.2.1, quota := e.2.2 }

/-- Every partition that a candidate gives up goes to it again: nobody within reach lacks any and
nobody within reach stands lower, the first counting as lower of two that stand equal. -/
def Recovers (g : GroupView) (topic : String) (a : Assignment) : Prop :=
  ∀ x ∈ (fullSeats g topic a).zipIdx, ∀ k ∈ x.1.surplus, ∀ p ∈ (g.eligible topic).get? k,
    ∀ y ∈ (fullSeats g topic a).zipIdx, y.1.member.canReach p.broker = true →
      y.1.quota ≤ y.1.kept.length ∧
        (x.1.standing k < y.1.standing k ∨ x.1.standing k = y.1.standing k ∧ x.2 ≤ y.2)

instance : Decidable (Recovers g topic a) :=
  inferInstanceAs (Decidable (∀ x ∈ (fullSeats g topic a).zipIdx, ∀ k ∈ x.1.surplus,
    ∀ p ∈ (g.eligible topic).get? k, ∀ y ∈ (fullSeats g topic a).zipIdx,
      y.1.member.canReach p.broker = true → y.1.quota ≤ y.1.kept.length ∧
        (x.1.standing k < y.1.standing k ∨ x.1.standing k = y.1.standing k ∧ x.2 ≤ y.2)))

theorem recovers_iff : Recovers g topic a ↔
    ∀ (i : Nat) (s : Seat), (fullSeats g topic a)[i]? = some s → ∀ k ∈ s.surplus,
      ∀ p, (g.eligible topic).get? k = some p → GoesTo (fullSeats g topic a) i s (k, p) := by
  constructor
  · intro h i s hi k hk p hp r j hj hr
    exact h (s, i) (List.mem_zipIdx_iff_getElem?.mpr hi) k hk p hp (r, j)
      (List.mem_zipIdx_iff_getElem?.mpr hj) hr
  · rintro h ⟨s, i⟩ hs k hk p hp ⟨r, j⟩ hr hreach
    exact h i s (List.mem_zipIdx_iff_getElem?.mp hs) k hk p hp r j
      (List.mem_zipIdx_iff_getElem?.mp hr) hreach

theorem fullSeats_congr (h : ∀ c ∈ g.candidates topic, a.of c.id topic = b.of c.id topic) :
    fullSeats g topic a = fullSeats g topic b := by
  have hheld : ((g.candidates topic).map fun c => (a.keysOf c.id topic).toList) =
      (g.candidates topic).map fun c => (b.keysOf c.id topic).toList := by
    refine List.map_congr_left fun c hc => ?_
    rw [Assignment.keysOf, Assignment.keysOf, h c hc]
  simp only [fullSeats, hheld]

variable (g topic a) in
theorem map_member_fullSeats : (fullSeats g topic a).map Seat.member = g.candidates topic := by
  unfold fullSeats
  rw [List.map_map]
  refine List.map_fst_zip ?_
  rw [List.length_zip, List.length_map, length_quotas]
  omega

theorem kept_of_fullSeats {i : Nat} {s : Seat} (h : (fullSeats g topic a)[i]? = some s) :
    s.kept = (a.keysOf s.member.id topic).toList := by
  obtain ⟨hi, rfl⟩ := List.getElem?_eq_some_iff.mp h
  simp [fullSeats]

theorem mem_kept_of_fullSeats {s : Seat} (h : s ∈ fullSeats g topic a) :
    s.member ∈ g.candidates topic ∧ s.kept = (a.keysOf s.member.id topic).toList := by
  obtain ⟨i, hi, rfl⟩ := List.getElem_of_mem h
  refine ⟨?_, kept_of_fullSeats (List.getElem?_eq_getElem hi)⟩
  rw [← map_member_fullSeats g topic a]
  exact List.mem_map_of_mem (List.getElem_mem hi)

section Shares

variable (hk : ((g.partitionsOf topic).map Partition.key).Nodup) (h : Shares g topic a)

include hk h

theorem eligible_of_shares {id : String} {k : String} (hkey : k ∈ a.keysOf id topic) :
    ∃ p ∈ a.of id topic, (g.eligible topic).get? k = some p ∧ p.key = k := by
  obtain ⟨p, hp, rfl⟩ := List.mem_map.mp (KeySet.mem_ofList.mp hkey)
  exact ⟨p, hp, (eligible_get?_iff hk).mpr ⟨h.mem_partitionsOf hp, rfl⟩, rfl⟩

theorem fullSeats_seated : Seated (g.eligible topic) (fullSeats g topic a) where
  nodup := by
    have hperm : ((fullSeats g topic a).flatMap Seat.kept).Perm
        ((g.candidates topic).flatMap fun c => (a.of c.id topic).map Partition.key) := by
      rw [← map_member_fullSeats g topic a, List.flatMap_map]
      refine List.Perm.flatMap_left _ fun s hs => ?_
      rw [(mem_kept_of_fullSeats hs).2]
      exact KeySet.toList_ofList_perm (h.nodup_keys_of hk _)
    exact hperm.nodup_iff.mpr (h.nodup_keys hk)
  canReach := by
    intro s hs k hks
    obtain ⟨hc, hkept⟩ := mem_kept_of_fullSeats hs
    rw [hkept] at hks
    obtain ⟨p, hp, hget, -⟩ := eligible_of_shares hk h (KeySet.mem_toList.mp hks)
    exact ⟨p, hget, h.canReach s.member hc p hp⟩

/-- All that was handed out is validly held: nobody claims what another one claims. -/
theorem claims_of_shares (hcur : ∀ c ∈ g.candidates topic,
      (current.getD c.id Table.empty).keysOf topic = (a.keysOf c.id topic).toList) :
    claims (g.eligible topic) current topic KeySet.empty (g.candidates topic) =
      (g.candidates topic).map fun c => (a.keysOf c.id topic).toList := by
  have hheld : ∀ c ∈ g.candidates topic,
      stillHeld (g.eligible topic) current topic c = (a.keysOf c.id topic).toList := by
    intro c hc
    unfold stillHeld
    rw [hcur c hc, List.filter_eq_self]
    intro k hkey
    obtain ⟨p, hp, hget, -⟩ := eligible_of_shares hk h (KeySet.mem_toList.mp hkey)
    simp [hget, h.canReach c hc p hp]
  rw [claims_eq_map_stillHeld KeySet.empty ?_ fun c _ k _ => KeySet.not_mem_empty]
  · exact List.map_congr_left hheld
  · -- a key of two candidates would be handed out twice
    refine (List.nodup_flatMap.mp (h.nodup_keys hk)).2.imp_of_mem fun {c d} hc hd hdisj k hkc hkd => ?_
    rw [hheld c hc, KeySet.mem_toList, Assignment.keysOf, KeySet.mem_ofList] at hkc
    rw [hheld d hd, KeySet.mem_toList, Assignment.keysOf, KeySet.mem_ofList] at hkd
    exact hdisj hkc hkd

omit hk in
/-- What somebody can reach has been handed out, so somebody keeps it. -/
theorem mem_kept_of_reach {k : String} {p : Partition} (hp : (g.eligible topic).get? k = some p)
    (hreach : ∃ s ∈ fullSeats g topic a, s.member.canReach p.broker = true) :
    k ∈ (fullSeats g topic a).flatMap Seat.kept := by
  obtain ⟨s, hs, hr⟩ := hreach
  obtain ⟨hpart, rfl⟩ := mem_partitionsOf_of_eligible hp
  have hreachable : g.reachable topic p.broker = true :=
    List.any_eq_true.mpr ⟨s.member, (mem_kept_of_fullSeats hs).1, hr⟩
  obtain ⟨c, hc, -, hpa⟩ := h.exists_mem hpart hreachable
  rw [← map_member_fullSeats g topic a] at hc
  obtain ⟨s', hs', rfl⟩ := List.mem_map.mp hc
  refine List.mem_flatMap.mpr ⟨s', hs', ?_⟩
  rw [(mem_kept_of_fullSeats hs').2]
  exact KeySet.mem_toList.mpr (KeySet.mem_ofList.mpr (List.mem_map_of_mem hpa))

/-- The candidates sit down with what they were given, and nobody claims anything else. -/
theorem finalSeats_eq (hcur : ∀ c ∈ g.candidates topic,
      (current.getD c.id Table.empty).keysOf topic = (a.keysOf c.id topic).toList) :
    finalSeats g current topic =
      seatAll (g.eligible topic) ((fullSeats g topic a).map (Seat.regaining fun _ => false)) := by
  have hclaims := claims_of_shares hk h hcur
  unfold finalSeats seats fullSeats
  simp only [hclaims, List.map_map]
  refine congrArg _ (List.map_congr_left fun e _ => ?_)
  rw [Function.comp_apply, Seat.regaining_none]

/-- A candidate is given the same partitions when its seat has the same keys. -/
theorem same_partitions_iff (hn : g.ids.Nodup) (ht : topic ∈ g.topics) {i : Nat} {s r : Seat}
    (hs : (fullSeats g topic a)[i]? = some s) (hr : (finalSeats g current topic)[i]? = some r) :
    (∀ p, p ∈ (steadyGroup current g).of s.member.id topic ↔ p ∈ a.of s.member.id topic) ↔
      ∀ k, k ∈ r.kept ↔ k ∈ s.kept := by
  have hmember : r.member = s.member := by
    have hfull := congrArg (·[i]?) (map_member_fullSeats g topic a)
    have hfinal := congrArg (·[i]?) (map_member_finalSeats current topic g)
    simp only [List.getElem?_map, hs, hr, Option.map_some] at hfull hfinal
    exact Option.some.inj (hfinal.trans hfull.symm)
  have hof := of_steadyGroup hn ht (List.mem_of_getElem? hr)
  rw [hmember] at hof
  rw [hof, kept_of_fullSeats hs]
  constructor
  · intro hsame k
    constructor
    · intro hkr
      obtain ⟨p, hp, -⟩ :=
        (finalSeats_seated current topic g).canReach r (List.mem_of_getElem? hr) k hkr
      have hpa := (hsame p).mp (mem_partitions.mpr ⟨k, hkr, hp⟩)
      rw [← (mem_partitionsOf_of_eligible hp).2]
      exact KeySet.mem_ofList.mpr (List.mem_map_of_mem hpa)
    · intro hka
      obtain ⟨p, hpa, hp, rfl⟩ := eligible_of_shares hk h (KeySet.mem_toList.mp hka)
      obtain ⟨k, hkr, hkp⟩ := mem_partitions.mp ((hsame p).mpr hpa)
      rwa [(mem_partitionsOf_of_eligible hkp).2]
  · intro hsame p
    rw [mem_partitions]
    constructor
    · rintro ⟨k, hkr, hkp⟩
      have hka := KeySet.mem_toList.mp ((hsame k).mp hkr)
      obtain ⟨q, hq, hget, -⟩ := eligible_of_shares hk h hka
      rwa [Option.some.inj (hkp.symm.trans hget)]
    · intro hpa
      have hka : p.key ∈ a.keysOf s.member.id topic :=
        KeySet.mem_ofList.mpr (List.mem_map_of_mem hpa)
      exact ⟨p.key, (hsame p.key).mpr (KeySet.mem_toList.mpr hka),
        (eligible_get?_iff hk).mpr ⟨h.mem_partitionsOf hpa, rfl⟩⟩

/-- Sharing a topic once more changes no target exactly when what is given up comes back. -/
theorem steadyGroup_same_iff (hn : g.ids.Nodup) (ht : topic ∈ g.topics)
    (hcur : ∀ c ∈ g.candidates topic,
      (current.getD c.id Table.empty).keysOf topic = (a.keysOf c.id topic).toList) :
    (∀ c ∈ g.candidates topic, ∀ p, p ∈ (steadyGroup current g).of c.id topic ↔
      p ∈ a.of c.id topic) ↔ Recovers g topic a := by
  have hasc : ∀ s ∈ fullSeats g topic a, s.kept.Pairwise fun a b => Key.before a b = true := by
    intro s hs
    rw [(mem_kept_of_fullSeats hs).2]
    exact KeySet.ascending _
  rw [recovers_iff, ← (fullSeats_seated hk h).same_iff hasc fun k p => mem_kept_of_reach h,
    ← finalSeats_eq hk h hcur]
  constructor
  · intro hsame i s r hi hr
    obtain ⟨hc, -⟩ := mem_kept_of_fullSeats (List.mem_of_getElem? hi)
    exact (same_partitions_iff hk h hn ht hi hr).mp (hsame s.member hc)
  · intro hsame c hc
    rw [← map_member_fullSeats g topic a] at hc
    obtain ⟨s, hs, rfl⟩ := List.mem_map.mp hc
    obtain ⟨i, hi, rfl⟩ := List.getElem_of_mem hs
    have hlen : i < (finalSeats g current topic).length := by
      have hfull := congrArg List.length (map_member_fullSeats g topic a)
      have hfinal := congrArg List.length (map_member_finalSeats current topic g)
      rw [List.length_map] at hfull hfinal
      omega
    have hs' := List.getElem?_eq_getElem hi
    have hr' := List.getElem?_eq_getElem hlen
    exact (same_partitions_iff hk h hn ht hs' hr').mpr (hsame i _ _ hs' hr')

end Shares

end Topic

/-! ## All groups -/

/-- A way of deciding groups that hands out every topic of each, and nothing else. -/
structure HandsOut (gs : List GroupView) (f : GroupView → Assignment) : Prop where
  members : ∀ g ∈ gs, ∀ c, (f g).contains c = true → c ∈ g.ids
  shares : ∀ g ∈ gs, ∀ t ∈ g.topics, Shares g t (f g)
  only : ∀ g ∈ gs, ∀ t, t ∉ g.topics → ∀ c, (f g).of c t = []

theorem freshGroup_handsOut {gs : List GroupView} (hn : GroupView.DistinctMembers gs) :
    HandsOut gs freshGroup where
  members _ _ _ hc := mem_ids_of_contains_freshGroup hc
  shares _ hg _ ht := freshGroup_shares (hn.nodup hg) ht
  only _ _ _ ht c := of_freshGroup_of_not_topic ht c

theorem steadyGroup_handsOut {gs : List GroupView} (hn : GroupView.DistinctMembers gs)
    (hk : ∀ g ∈ gs, ∀ t ∈ g.topics, ((g.partitionsOf t).map Partition.key).Nodup)
    (current : Holdings) : HandsOut gs (steadyGroup current) where
  members _ _ _ hc := mem_ids_of_contains_steadyGroup hc
  shares g hg t ht := steadyGroup_shares (hn.nodup hg) (hk g hg t ht) ht
  only _ _ _ ht c := of_steadyGroup_of_not_topic ht c

namespace HandsOut

variable {gs : List GroupView} {f : GroupView → Assignment} {g : GroupView} {c t : String}

theorem of_eq (h : HandsOut gs f) (hn : GroupView.DistinctMembers gs) (hg : g ∈ gs)
    (hc : c ∈ g.ids) : (Assignment.ofGroups f gs).of c t = (f g).of c t :=
  Assignment.of_ofGroups h.members hn hg hc

theorem of_eq_nil (h : HandsOut gs f) (hc : ∀ g ∈ gs, c ∉ g.ids) :
    (Assignment.ofGroups f gs).of c t = [] :=
  Assignment.of_ofGroups_of_not_mem h.members hc

theorem of_eq_nil_of_not_candidate (h : HandsOut gs f) (hg : g ∈ gs)
    (hc : t ∉ g.topics ∨ c ∉ (g.candidates t).map Consumer.id) : (f g).of c t = [] := by
  by_cases ht : t ∈ g.topics
  · exact (h.shares g hg t ht).only c (hc.resolve_left fun hno => hno ht)
  · exact h.only g hg t ht c

/-- What a group is decided to give is also shared out by the decision for all groups. -/
theorem recovers_ofGroups (h : HandsOut gs f) (hn : GroupView.DistinctMembers gs) (hg : g ∈ gs) :
    Recovers g t (Assignment.ofGroups f gs) ↔ Recovers g t (f g) := by
  have heq : fullSeats g t (Assignment.ofGroups f gs) = fullSeats g t (f g) :=
    fullSeats_congr fun c hc => h.of_eq hn hg (List.mem_map_of_mem (List.mem_of_mem_filter hc))
  simp only [Recovers, heq]

variable {current : Holdings} (hn : GroupView.DistinctMembers gs)
  (hk : ∀ g ∈ gs, ∀ t ∈ g.topics, ((g.partitionsOf t).map Partition.key).Nodup)

include hn hk

theorem same_iff (h : HandsOut gs f) :
    (∀ c t p, p ∈ (Assignment.ofGroups
        (steadyGroup (Assignment.ofGroups f gs).toHoldings) gs).of c t ↔
      p ∈ (Assignment.ofGroups f gs).of c t) ↔
    ∀ g ∈ gs, ∀ t ∈ g.topics, Recovers g t (Assignment.ofGroups f gs) := by
  have h' := steadyGroup_handsOut hn hk (Assignment.ofGroups f gs).toHoldings
  have hsame : ∀ g ∈ gs, ∀ t ∈ g.topics,
      (∀ c ∈ g.candidates t, ∀ p,
        p ∈ (steadyGroup (Assignment.ofGroups f gs).toHoldings g).of c.id t ↔
          p ∈ (f g).of c.id t) ↔ Recovers g t (f g) := by
    intro g hg t ht
    refine steadyGroup_same_iff (hk g hg t ht) (h.shares g hg t ht) (hn.nodup hg) ht ?_
    intro c hc
    rw [Assignment.keysOf_toHoldings, Assignment.keysOf, Assignment.keysOf,
      h.of_eq hn hg (List.mem_map_of_mem (List.mem_of_mem_filter hc))]
  constructor
  · intro hall g hg t ht
    rw [h.recovers_ofGroups hn hg]
    refine (hsame g hg t ht).mp fun c hc p => ?_
    have hid : c.id ∈ g.ids := List.mem_map_of_mem (List.mem_of_mem_filter hc)
    rw [← h.of_eq hn hg hid, ← h'.of_eq hn hg hid]
    exact hall c.id t p
  · intro hrec c t p
    by_cases hc : ∃ g ∈ gs, c ∈ g.ids
    · obtain ⟨g, hg, hid⟩ := hc
      rw [h.of_eq hn hg hid, h'.of_eq hn hg hid]
      by_cases hcand : t ∈ g.topics ∧ c ∈ (g.candidates t).map Consumer.id
      · obtain ⟨ht, hcand⟩ := hcand
        obtain ⟨d, hd, rfl⟩ := List.mem_map.mp hcand
        exact (hsame g hg t ht).mpr ((h.recovers_ofGroups hn hg).mp (hrec g hg t ht)) d hd p
      · rw [not_and_or] at hcand
        rw [h.of_eq_nil_of_not_candidate hg hcand, h'.of_eq_nil_of_not_candidate hg hcand]
    · simp only [not_exists, not_and] at hc
      rw [h.of_eq_nil hc, h'.of_eq_nil hc]

/-- Nothing is given twice, whoever gets it. -/
theorem nodup_keys (h : HandsOut gs f) (c t : String) :
    (((Assignment.ofGroups f gs).of c t).map Partition.key).Nodup := by
  by_cases hc : ∃ g ∈ gs, c ∈ g.ids
  · obtain ⟨g, hg, hid⟩ := hc
    rw [h.of_eq hn hg hid]
    by_cases ht : t ∈ g.topics
    · exact (h.shares g hg t ht).nodup_keys_of (hk g hg t ht) c
    · simp [h.only g hg t ht c]
  · simp only [not_exists, not_and] at hc
    simp [h.of_eq_nil hc]

end HandsOut

/-- A member of a group is in no other one. -/
theorem eq_of_mem_ids {gs : List GroupView} (hn : GroupView.DistinctMembers gs) {g g' : GroupView}
    (hg : g ∈ gs) (hg' : g' ∈ gs) {c : String} (hc : c ∈ g.ids) (hc' : c ∈ g'.ids) : g = g' :=
  eq_of_nodup_flatMap hn hg hg' hc hc'

/-- When a consumer holds what it is given and is given the same again, it has nothing to change. -/
theorem between_isEmpty {tls : Bool} {a : Assignment} {c : String} {target : Option Target}
    {black : NameSet} (hn : ∀ t, ((a.of c t).map Partition.key).Nodup)
    (hblack : ∀ t ∈ black, a.of c t = [])
    (hsame : ∀ b ∈ target, ∀ t p, p ∈ b.getD t [] ↔ p ∈ a.of c t) :
    (HoldingChange.between tls (a.toHoldings.getD c Table.empty) target black).isEmpty = true := by
  have hwanted : ∀ t p, p ∈ HoldingChange.wanted (a.toHoldings.getD c Table.empty) target black t ↔
      p ∈ (a.toHoldings.getD c Table.empty).ofTopic t := by
    intro t p
    unfold HoldingChange.wanted
    split
    · rename_i ht
      rw [Assignment.mem_ofTopic_toHoldings (hn t), hblack t ht]
    · cases target with
      | none => rfl
      | some b => rw [Assignment.mem_ofTopic_toHoldings (hn t), hsame b rfl]
  have hdis : (HoldingChange.between tls (a.toHoldings.getD c Table.empty) target
      black).disconnect = [] := by
    refine List.eq_nil_iff_forall_not_mem.mpr fun p hp => ?_
    obtain ⟨t, hpt, hno⟩ := HoldingChange.mem_disconnect.mp hp
    exact hno p ((hwanted t p).mpr hpt) rfl
  have hcon : (HoldingChange.between tls (a.toHoldings.getD c Table.empty) target
      black).connect = [] := by
    refine List.eq_nil_iff_forall_not_mem.mpr fun p hp => ?_
    obtain ⟨t, hpt, hno⟩ := HoldingChange.mem_connect.mp hp
    exact hno p ((hwanted t p).mp hpt) rfl
  rw [HoldingChange.isEmpty, hdis, hcon]
  rfl

/-- Sharing once more what was shared from scratch or evenly changes no target exactly when every
partition that somebody gives up for want of quota goes back to it; then nobody has to change
anything. -/
theorem steady_again_iff {rate : UInt32} {gs : List GroupView} {targets : Assignment}
    (hn : GroupView.DistinctMembers gs)
    (hk : ∀ g ∈ gs, ∀ t ∈ g.topics, ((g.partitionsOf t).map Partition.key).Nodup)
    (htargets : targets = fresh rate gs ∨ ∃ current, targets = steady rate gs current) :
    ((∀ c t p, p ∈ (steady rate gs targets.toHoldings).of c t ↔ p ∈ targets.of c t) ↔
      ∀ g ∈ gs, g.isShared rate = true → ∀ t ∈ g.topics, Recovers g t targets) ∧
    ((∀ g ∈ gs, g.isShared rate = true → ∀ t ∈ g.topics, Recovers g t targets) →
      ∀ g ∈ gs, ∀ c ∈ g.members, (HoldingChange.between c.overTls
        (targets.toHoldings.getD c.id Table.empty)
        ((steady rate gs targets.toHoldings).get? c.id) g.black).isEmpty = true) := by
  have hns : GroupView.DistinctMembers (gs.filter fun g => g.isShared rate) := hn.filter _
  have hks : ∀ g ∈ gs.filter (fun g => g.isShared rate), ∀ t ∈ g.topics,
      ((g.partitionsOf t).map Partition.key).Nodup := fun g hg => hk g (List.mem_of_mem_filter hg)
  obtain ⟨f, hf, rfl⟩ : ∃ f, HandsOut (gs.filter fun g => g.isShared rate) f ∧
      targets = Assignment.ofGroups f (gs.filter fun g => g.isShared rate) := by
    rcases htargets with rfl | ⟨current, rfl⟩
    · exact ⟨freshGroup, freshGroup_handsOut hns, rfl⟩
    · exact ⟨steadyGroup current, steadyGroup_handsOut hns hks current, rfl⟩
  have hiff := hf.same_iff hns hks
  have hfilter : (∀ g ∈ gs.filter (fun g => g.isShared rate), ∀ t ∈ g.topics, Recovers g t
      (Assignment.ofGroups f (gs.filter fun g => g.isShared rate))) ↔
      ∀ g ∈ gs, g.isShared rate = true → ∀ t ∈ g.topics, Recovers g t
        (Assignment.ofGroups f (gs.filter fun g => g.isShared rate)) := by
    constructor
    · exact fun h g hg hs => h g (List.mem_filter.mpr ⟨hg, hs⟩)
    · exact fun h g hg => h g (List.mem_filter.mp hg).1 (List.mem_filter.mp hg).2
  refine ⟨hiff.trans hfilter, fun hrec g hg c hc => ?_⟩
  have hsame := hiff.mpr (hfilter.mpr hrec)
  have hid : c.id ∈ g.ids := List.mem_map_of_mem hc
  refine between_isEmpty (hf.nodup_keys hns hks c.id) (fun t ht => ?_) fun b hb t p => ?_
  · -- nothing of a blocked topic is handed out
    by_cases hs : g.isShared rate = true
    · have hmem : g ∈ gs.filter fun g => g.isShared rate := List.mem_filter.mpr ⟨hg, hs⟩
      rw [hf.of_eq hns hmem hid]
      by_cases htopic : t ∈ g.topics
      · refine List.eq_nil_iff_forall_not_mem.mpr fun p hp => ?_
        have := (hf.shares g hmem t htopic).mem_partitionsOf hp
        rw [GroupView.partitionsOf, if_pos ht] at this
        cases this
      · exact hf.only g hmem t htopic c.id
    · refine hf.of_eq_nil fun g' hg' hid' => hs ?_
      rw [eq_of_mem_ids hn hg (List.mem_of_mem_filter hg') hid hid']
      exact (List.mem_filter.mp hg').2
  · rw [← hsame c.id t p]
    unfold Assignment.of Table.getD
    rw [show (Assignment.ofGroups (steadyGroup (Assignment.ofGroups f
      (gs.filter fun g => g.isShared rate)).toHoldings) (gs.filter fun g => g.isShared rate)).get?
        c.id = some b from hb]
    rfl

/-- A plain member and one that talks TLS share a topic of which one broker serves no TLS. -/
def mixedGroup : GroupView where
  name := "g"
  members :=
    [{ id := "a", group := "g", host := "h", topics := KeySet.ofList ["t"] },
      { id := "b", group := "g", host := "h", topics := KeySet.ofList ["t"], overTls := true }]
  topics := KeySet.ofList ["t"]
  partitions := Table.ofList [("t",
    [{ broker := { id := 1, host := "h", port := 1 }, topic := "t", number := 0 },
      { broker := { id := 2, host := "h", port := 1, tlsEnabled := true, tlsPort := 2 }, topic := "t",
        number := 0 }])]

/-- The plain member holds the partition that the other could read as well. -/
def mixedHoldings : Holdings := Table.ofList [("a", Holding.add Table.empty
  { broker := { id := 2, host := "h", port := 1, tlsEnabled := true, tlsPort := 2 }, topic := "t",
    number := 0 })]

/-- The first sharing leaves the plain member with both partitions, the second one does not. -/
theorem mixedGroup_not_same : ¬ ∀ c t p,
    p ∈ (steady 0 [mixedGroup] (steady 0 [mixedGroup] mixedHoldings).toHoldings).of c t ↔
      p ∈ (steady 0 [mixedGroup] mixedHoldings).of c t := by
  intro hsame
  have hrec := (steady_again_iff (by decide) (by decide) (.inr ⟨mixedHoldings, rfl⟩)).1.mp hsame
    mixedGroup List.mem_cons_self (by decide) "t" (by decide)
  have hseats : (fullSeats mixedGroup "t" (steady 0 [mixedGroup] mixedHoldings)).map
      (fun s => (s.kept, s.quota)) = [(["1-t-0", "2-t-0"], 1), ([], 1)] := by cbv
  rw [recovers_iff] at hrec
  generalize fullSeats mixedGroup "t" (steady 0 [mixedGroup] mixedHoldings) = fs at *
  obtain ⟨s, r, rfl⟩ : ∃ s r, fs = [s, r] :=
    List.length_eq_two.mp (by simpa using congrArg List.length hseats)
  simp only [List.map_cons, List.map_nil, List.cons.injEq, Prod.mk.injEq, and_true] at hseats
  obtain ⟨⟨hs, hsq⟩, hr, hrq⟩ := hseats
  have hsur : "2-t-0" ∈ s.surplus := by
    rw [Seat.surplus, hs, hsq]
    decide
  obtain ⟨p, hp, htls⟩ : ∃ p, (mixedGroup.eligible "t").get? "2-t-0" = some p ∧
      p.broker.tlsEnabled = true := ⟨_, rfl, rfl⟩
  have hlack := (hrec 0 s rfl "2-t-0" hsur p hp r 1 rfl (by simp [Consumer.canReach, htls])).1
  rw [hr, hrq] at hlack
  exact absurd hlack (by decide)

end Balance

end ClusterMaster
