import ClusterMaster.Balancer
import ClusterMaster.Proofs.BoundShares
import ClusterMaster.Proofs.Coverage

/-!
# Declared partitions go to the first who may claim them

The members of a bound group are served in their order, each in one go. What a member gets of a
topic is what its declarations call for, less what is gone by then (`portion?`), and what is gone
is what somebody before it may claim (`mem_gone_foldl_serveMember`). So a partition goes to the
first member that declares it, subscribes to its topic and reaches its broker
(`mem_boundGroup_iff`), and a member that cannot reach it keeps nobody behind it from getting it.

    DistinctMembers gs → keys tell the partitions of each topic apart, and none asks for an offset →
      targets from scratch follow the declarations, as of members that hold nothing, and targets
      that start from holdings follow them too                          (bound_followsDeclarations)
-/

namespace ClusterMaster

/-- The consumer declares the partition, subscribes to the topic and reaches the broker. -/
def Consumer.MayClaim (c : Consumer) (topic : String) (p : Partition) : Prop :=
  c.requiredPartitions.contains p.key = true ∧ c.isSubscribed topic = true ∧
    c.canReach p.broker = true

/-- The members declare their partitions, there is one, and there are as many as are expected. -/
def GroupView.IsComplete (g : GroupView) : Prop :=
  g.bound = true ∧ max 1 g.sourceCount.toNat ≤ g.members.length

instance (g : GroupView) : Decidable g.IsComplete := inferInstanceAs (Decidable (_ ∧ _))

theorem GroupView.isBoundReady_iff {g : GroupView}
    (h : g.bound = true → g.members.length < UInt32.size) :
    g.isBoundReady = true ↔ g.IsComplete := by
  have hpos : g.members.isEmpty = false ↔ 1 ≤ g.members.length := by
    rw [List.isEmpty_eq_false_iff, Nat.one_le_iff_ne_zero]
    exact not_congr List.length_eq_zero_iff.symm
  unfold isBoundReady IsComplete
  rw [Bool.and_eq_true, Bool.and_eq_true, Bool.not_eq_true', decide_eq_true_eq, hpos, max_le_iff,
    and_assoc]
  refine and_congr_right fun hbound => and_congr_right fun _ => ?_
  rw [UInt32.le_iff_toNat_le, UInt32.toNat_ofNat_of_lt' (h hbound)]

namespace Assignment

/-- Whoever is in one of the groups has a target, and nobody else. -/
theorem contains_ofGroups {f : GroupView → Assignment} {gs : List GroupView}
    (hf : ∀ g ∈ gs, ∀ c, (f g).contains c = true ↔ c ∈ g.ids)
    (hn : GroupView.DistinctMembers gs) {id : String} :
    (ofGroups f gs).contains id = true ↔ ∃ g ∈ gs, id ∈ g.ids := by
  constructor
  · intro h
    by_contra hno
    have hnone : ∀ g ∈ gs, (f g).get? id = none := by
      intro g hg
      by_contra hs
      exact hno ⟨g, hg, (hf g hg id).mp (Option.isSome_iff_ne_none.mpr hs)⟩
    rw [Table.contains, get?_ofGroups_of_none hnone] at h
    cases h
  · rintro ⟨g, hg, hid⟩
    have hmembers : ∀ g ∈ gs, ∀ c, (f g).contains c = true → c ∈ g.ids :=
      fun g hg c => (hf g hg c).mp
    rw [Table.contains, get?_ofGroups hmembers hn hg hid]
    exact (hf g hg id).mpr hid

end Assignment

namespace Balance

open Assignment

variable {g : GroupView} {topic : String} {offsets : Offsets} {current : Holdings} {a : Assignment}
  {gone : NameSet} {c : Consumer} {want : String × Int} {p : Partition}

/-! ## One member -/

/-- What a declaration brings: the partition, unless it is not on offer, out of reach or gone. -/
def portion? (g : GroupView) (topic : String) (offsets : Offsets) (current : Holdings)
    (gone : NameSet) (c : Consumer) (want : String × Int) : Option Partition :=
  ((g.eligible topic).get? want.1).bind fun p =>
    if c.canReach p.broker ∧ want.1 ∉ gone then
      some (withStart offsets current g.name c topic want.1 want.2 p)
    else none

theorem portion?_eq_some_iff : portion? g topic offsets current gone c want = some p ↔
    ∃ q, (g.eligible topic).get? want.1 = some q ∧ c.canReach q.broker = true ∧ want.1 ∉ gone ∧
      withStart offsets current g.name c topic want.1 want.2 q = p := by
  simp only [portion?, Option.bind_eq_some_iff, Option.ite_none_right_eq_some, Option.some.injEq,
    and_assoc]

theorem key_of_portion? (h : portion? g topic offsets current gone c want = some p) :
    p.key = want.1 := by
  obtain ⟨q, hq, -, -, rfl⟩ := portion?_eq_some_iff.mp h
  rw [key_withStart, (mem_partitionsOf_of_eligible hq).2]

theorem serveOne_eq (state : Assignment × NameSet) :
    serveOne (g.eligible topic) g.name topic offsets current c state want =
      match portion? g topic offsets current state.2 c want with
      | some p => (state.1.give c.id topic p, state.2.insert want.1)
      | none => state := by
  unfold serveOne portion?
  cases (g.eligible topic).get? want.1 with
  | none => rfl
  | some p =>
    rw [Option.bind_some]
    by_cases h : c.canReach p.broker = true ∧ want.1 ∉ state.2
    · simp only [if_pos h]
    · simp only [if_neg h]

/-- The declarations of a member, served one after the other. -/
def serveMember (g : GroupView) (topic : String) (offsets : Offsets) (current : Holdings)
    (state : Assignment × NameSet) (c : Consumer) : Assignment × NameSet :=
  c.requiredPartitions.entries.foldl (serveOne (g.eligible topic) g.name topic offsets current c) state

/-- Of different declarations none takes away what another one calls for. -/
theorem foldl_serveOne {wants : List (String × Int)} (hn : (wants.map Prod.fst).Nodup)
    (state : Assignment × NameSet) :
    let served := wants.foldl (serveOne (g.eligible topic) g.name topic offsets current c) state
    served.1 = (wants.filterMap (portion? g topic offsets current state.2 c)).foldl
        (fun a p => a.give c.id topic p) state.1 ∧
      ∀ k, k ∈ served.2 ↔ k ∈ state.2 ∨ ∃ want ∈ wants, want.1 = k ∧
        (portion? g topic offsets current state.2 c want).isSome = true := by
  induction wants generalizing state with
  | nil => simp
  | cons want wants ih =>
    obtain ⟨hwant, hn⟩ := List.nodup_cons.mp hn
    simp only [List.foldl_cons, serveOne_eq]
    cases hp : portion? g topic offsets current state.2 c want with
    | none => simpa [hp] using ih hn state
    | some p =>
      -- the others ask for other keys, so they find as much as before
      have hothers : ∀ w ∈ wants,
          portion? g topic offsets current (state.2.insert want.1) c w =
            portion? g topic offsets current state.2 c w := by
        intro w hw
        have hne : w.1 ≠ want.1 := fun e => hwant (e ▸ List.mem_map_of_mem hw)
        unfold portion?
        simp only [KeySet.mem_insert, not_or, hne, not_false_eq_true, true_and]
      obtain ⟨hgiven, hgone⟩ := ih hn (state.1.give c.id topic p, state.2.insert want.1)
      refine ⟨?_, fun k => ?_⟩
      · rw [hgiven, List.filterMap_congr hothers, List.filterMap_cons, hp, List.foldl_cons]
      · rw [hgone, KeySet.mem_insert, List.exists_mem_cons_iff]
        have hsame : (∃ w ∈ wants, w.1 = k ∧
            (portion? g topic offsets current (state.2.insert want.1) c w).isSome = true) ↔
            ∃ w ∈ wants, w.1 = k ∧
              (portion? g topic offsets current state.2 c w).isSome = true :=
          exists_congr fun w => and_congr_right fun hw => by rw [hothers w hw]
        rw [hsame, hp]
        simp only [Option.isSome_some, and_true]
        rw [eq_comm (a := k), or_assoc, or_left_comm]

/-- A member is given what its declarations call for. -/
theorem of_serveMember (state : Assignment × NameSet) (d s : String) :
    (serveMember g topic offsets current state c).1.of d s =
      if c.id = d ∧ topic = s then
        state.1.of c.id topic ++
          c.requiredPartitions.entries.filterMap (portion? g topic offsets current state.2 c)
      else state.1.of d s := by
  unfold serveMember
  rw [(foldl_serveOne c.requiredPartitions.nodup_keys state).1, of_foldl_give]

theorem mem_gone_serveMember (hk : ((g.partitionsOf topic).map Partition.key).Nodup)
    (hsub : c.isSubscribed topic = true) (state : Assignment × NameSet) {k : String} :
    k ∈ (serveMember g topic offsets current state c).2 ↔
      k ∈ state.2 ∨ ∃ p ∈ g.partitionsOf topic, p.key = k ∧ c.MayClaim topic p := by
  unfold serveMember
  rw [(foldl_serveOne c.requiredPartitions.nodup_keys state).2]
  by_cases hgone : k ∈ state.2
  · simp [hgone]
  · simp only [hgone, false_or]
    constructor
    · rintro ⟨want, hwant, rfl, hsome⟩
      obtain ⟨p, hp⟩ := Option.isSome_iff_exists.mp hsome
      obtain ⟨q, hq, hreach, -, -⟩ := portion?_eq_some_iff.mp hp
      obtain ⟨hmem, hkey⟩ := mem_partitionsOf_of_eligible hq
      refine ⟨q, hmem, hkey, ?_, hsub, hreach⟩
      rw [hkey]
      exact Table.contains_iff.mpr ⟨want.2, Table.mem_entries_iff.mp hwant⟩
    · rintro ⟨p, hp, rfl, hdeclared, -, hreach⟩
      obtain ⟨offset, hoffset⟩ := Table.contains_iff.mp hdeclared
      refine ⟨(p.key, offset), Table.mem_entries_iff.mpr hoffset, rfl, ?_⟩
      exact Option.isSome_iff_exists.mpr ⟨_, portion?_eq_some_iff.mpr
        ⟨p, (eligible_get?_iff hk).mpr ⟨hp, rfl⟩, hreach, hgone, rfl⟩⟩

/-! ## One topic -/

theorem serveTopic_eq (a : Assignment) : serveTopic g offsets current a topic =
    ((g.candidates topic).foldl (serveMember g topic offsets current) (a, KeySet.empty)).1 := rfl

/-- Once some members are served, what they may claim is gone. -/
theorem mem_gone_foldl_serveMember (hk : ((g.partitionsOf topic).map Partition.key).Nodup)
    {cs : List Consumer} (hsub : ∀ c ∈ cs, c.isSubscribed topic = true)
    (state : Assignment × NameSet) {k : String} :
    k ∈ (cs.foldl (serveMember g topic offsets current) state).2 ↔
      k ∈ state.2 ∨ ∃ c ∈ cs, ∃ p ∈ g.partitionsOf topic, p.key = k ∧ c.MayClaim topic p := by
  induction cs generalizing state with
  | nil => simp
  | cons c cs ih =>
    obtain ⟨hc, hcs⟩ := List.forall_mem_cons.mp hsub
    rw [List.foldl_cons, ih hcs, mem_gone_serveMember hk hc, List.exists_mem_cons_iff, or_assoc]

theorem of_foldl_serveMember_of_not_mem {cs : List Consumer} {d : String}
    (hd : d ∉ cs.map Consumer.id) (state : Assignment × NameSet) (s : String) :
    (cs.foldl (serveMember g topic offsets current) state).1.of d s = state.1.of d s := by
  induction cs generalizing state with
  | nil => rfl
  | cons c cs ih =>
    simp only [List.map_cons, List.mem_cons, not_or] at hd
    rw [List.foldl_cons, ih hd.2, of_serveMember, if_neg fun h => hd.1 h.1.symm]

/-- What a member is given of a topic depends on those who are served before it, by what they
leave. -/
theorem of_serveTopic {before after : List Consumer} (hn : g.ids.Nodup)
    (hc : g.candidates topic = before ++ c :: after) (a : Assignment) :
    (serveTopic g offsets current a topic).of c.id topic = a.of c.id topic ++
      c.requiredPartitions.entries.filterMap (portion? g topic offsets current
        (before.foldl (serveMember g topic offsets current) (a, KeySet.empty)).2 c) := by
  have hids := GroupView.nodup_candidates hn topic
  rw [hc, List.map_append, List.map_cons, List.nodup_append] at hids
  obtain ⟨-, hlater, hearlier⟩ := hids
  have hafter : c.id ∉ after.map Consumer.id := (List.nodup_cons.mp hlater).1
  have hbefore : c.id ∉ before.map Consumer.id := fun h =>
    hearlier _ h _ List.mem_cons_self rfl
  rw [serveTopic_eq, hc, List.foldl_append, List.foldl_cons, of_foldl_serveMember_of_not_mem hafter,
    of_serveMember, if_pos ⟨rfl, rfl⟩, of_foldl_serveMember_of_not_mem hbefore]

theorem of_serveTopic_of_not_candidate {d : String} (hd : d ∉ (g.candidates topic).map Consumer.id)
    (a : Assignment) : (serveTopic g offsets current a topic).of d topic = a.of d topic :=
  of_foldl_serveMember_of_not_mem hd (a, KeySet.empty) topic

/-! ## One group -/

/-- The offset to start from: the declared one, unless it asks for no reset, is committed already,
or the partition is held. -/
theorem resetOffset_withStart {group t key : String} {offset r : Int} (hp : p.resetOffset = none) :
    (withStart offsets current group c t key offset p).resetOffset = some r ↔
      offset = r ∧ 0 ≤ r ∧ offsets.get? group key ≠ some r ∧ current.holds c.id t key = false := by
  unfold withStart Holdings.holds
  simp only [Bool.and_eq_true, Bool.not_eq_true', decide_eq_true_eq]
  split
  · rename_i h
    rw [Option.some.injEq]
    constructor
    · rintro rfl
      exact ⟨rfl, h.1.2, h.2, h.1.1⟩
    · exact fun h => h.1
  · rename_i h
    rw [hp]
    constructor
    · intro hr
      cases hr
    · rintro ⟨rfl, hpos, hcommitted, hheld⟩
      exact absurd ⟨⟨hheld, hpos⟩, hcommitted⟩ h

theorem withStart_plain {group t key : String} {offset : Int} (hp : p.resetOffset = none) :
    { withStart offsets current group c t key offset p with resetOffset := none } = p := by
  unfold withStart
  simp only []
  split
  · rw [← hp]
  · rw [← hp]

/-- A topic of a group is handed out as declared. `held` tells what members hold. -/
structure HandsDeclared (g : GroupView) (topic : String) (offsets : Offsets)
    (held : String → String → String → Bool) (a : Assignment) : Prop where
  given : ∀ before c after, g.members = before ++ c :: after → ∀ key,
    (∃ p ∈ a.of c.id topic, p.key = key) ↔ ∃ p ∈ g.partitionsOf topic, p.key = key ∧
      c.MayClaim topic p ∧ ∀ d ∈ before, ¬d.MayClaim topic p
  once : ∀ c ∈ g.members, ((a.of c.id topic).map Partition.key).Nodup
  offered : ∀ c ∈ g.members, ∀ p ∈ a.of c.id topic,
    { p with resetOffset := none } ∈ g.partitionsOf topic
  start : ∀ c ∈ g.members, ∀ p ∈ a.of c.id topic, ∀ r, p.resetOffset = some r ↔
    c.requiredPartitions.get? p.key = some r ∧ 0 ≤ r ∧ offsets.get? g.name p.key ≠ some r ∧
      held c.id topic p.key = false

theorem HandsDeclared.congr {held : String → String → String → Bool} {b : Assignment}
    (h : HandsDeclared g topic offsets held a)
    (hof : ∀ c ∈ g.members, b.of c.id topic = a.of c.id topic) :
    HandsDeclared g topic offsets held b where
  given before c after hc := by
    rw [hof c (by simp [hc])]
    exact h.given before c after hc
  once c hc := hof c hc ▸ h.once c hc
  offered c hc p hp := h.offered c hc p (hof c hc ▸ hp)
  start c hc p hp := h.start c hc p (hof c hc ▸ hp)

section Group

variable {before after : List Consumer} (hn : g.ids.Nodup) (ht : topic ∈ g.topics)

include hn ht

/-- What a member is given is what its declarations call for, less what those before it may claim. -/
theorem of_boundGroup (hk : ((g.partitionsOf topic).map Partition.key).Nodup)
    (hc : g.members = before ++ c :: after) (offsets : Offsets) (current : Holdings) :
    ∃ gone : NameSet,
    (∀ k, k ∈ gone ↔ ∃ d ∈ before, ∃ p ∈ g.partitionsOf topic, p.key = k ∧ d.MayClaim topic p) ∧
      (boundGroup offsets current g).of c.id topic =
        if c.isSubscribed topic then
          c.requiredPartitions.entries.filterMap (portion? g topic offsets current gone c)
        else [] := by
  obtain ⟨b, hb, hres⟩ := of_foldl_topics (of_serveTopic_of_ne g offsets current)
    (KeySet.nodup_toList g.topics) (KeySet.mem_toList.mpr ht) (vacant g)
  have hof : (boundGroup offsets current g).of c.id topic =
      (serveTopic g offsets current b topic).of c.id topic := hres c.id
  have hvacant : b.of c.id topic = [] := by rw [hb, of_vacant]
  refine ⟨((before.filter fun d => d.isSubscribed topic).foldl
    (serveMember g topic offsets current) (b, KeySet.empty)).2, fun k => ?_, ?_⟩
  · rw [mem_gone_foldl_serveMember hk (fun d hd => (List.mem_filter.mp hd).2)]
    simp only [KeySet.not_mem_empty, false_or]
    constructor
    · rintro ⟨d, hd, hclaim⟩
      exact ⟨d, List.mem_of_mem_filter hd, hclaim⟩
    · rintro ⟨d, hd, p, hp, hkey, hclaim⟩
      exact ⟨d, List.mem_filter.mpr ⟨hd, hclaim.2.1⟩, p, hp, hkey, hclaim⟩
  · rw [hof]
    split
    · rename_i hsub
      have hcandidates : g.candidates topic = (before.filter fun d => d.isSubscribed topic) ++
          c :: after.filter fun d => d.isSubscribed topic := by
        rw [GroupView.candidates, hc, List.filter_append, List.filter_cons, if_pos hsub]
      rw [of_serveTopic hn hcandidates, hvacant, List.nil_append]
    · rename_i hsub
      have hnot : c.id ∉ (g.candidates topic).map Consumer.id := by
        intro hid
        obtain ⟨d, hd, hdc⟩ := List.mem_map.mp hid
        obtain ⟨hdm, hds⟩ := GroupView.mem_candidates.mp hd
        obtain rfl := List.inj_on_of_nodup_map hn hdm (by simp [hc]) hdc
        exact hsub hds
      rw [of_serveTopic_of_not_candidate hnot, hvacant]

/-- A member is given what it is the first to be able to claim, with the offset to start from. -/
theorem mem_boundGroup_iff (hk : ((g.partitionsOf topic).map Partition.key).Nodup)
    (hc : g.members = before ++ c :: after) :
    p ∈ (boundGroup offsets current g).of c.id topic ↔
      ∃ q ∈ g.partitionsOf topic, (c.MayClaim topic q ∧ ∀ d ∈ before, ¬d.MayClaim topic q) ∧
        ∃ offset, c.requiredPartitions.get? q.key = some offset ∧
          withStart offsets current g.name c topic q.key offset q = p := by
  obtain ⟨gone, hgone, hof⟩ := of_boundGroup hn ht hk hc offsets current
  rw [hof]
  constructor
  · intro hp
    split at hp
    · rename_i hsub
      obtain ⟨⟨key, offset⟩, hwant, hportion⟩ := List.mem_filterMap.mp hp
      have hoffset : c.requiredPartitions.get? key = some offset := Table.mem_entries_iff.mp hwant
      obtain ⟨q, hget, hreach, hleft, hstart⟩ := portion?_eq_some_iff.mp hportion
      obtain ⟨hq, rfl⟩ := mem_partitionsOf_of_eligible hget
      refine ⟨q, hq, ⟨⟨Table.contains_iff.mpr ⟨offset, hoffset⟩, hsub, hreach⟩, ?_⟩, offset, hoffset,
        hstart⟩
      exact fun d hd hclaim => hleft ((hgone _).mpr ⟨d, hd, q, hq, rfl, hclaim⟩)
    · cases hp
  · rintro ⟨q, hq, ⟨⟨-, hsub, hreach⟩, hfirst⟩, offset, hoffset, rfl⟩
    have hleft : q.key ∉ gone := by
      intro hmem
      obtain ⟨d, hd, p, hp, hkey, hclaim⟩ := (hgone _).mp hmem
      obtain rfl := List.inj_on_of_nodup_map hk hp hq hkey
      exact hfirst d hd hclaim
    have hportion : portion? g topic offsets current gone c (q.key, offset) =
        some (withStart offsets current g.name c topic q.key offset q) :=
      portion?_eq_some_iff.mpr ⟨q, (eligible_get?_iff hk).mpr ⟨hq, rfl⟩, hreach, hleft, rfl⟩
    rw [if_pos hsub]
    exact List.mem_filterMap.mpr ⟨(q.key, offset), Table.mem_entries_iff.mpr hoffset, hportion⟩

/-- No member is given a key twice, for it declares no key twice. -/
theorem nodup_keys_boundGroup (hk : ((g.partitionsOf topic).map Partition.key).Nodup)
    (hc : g.members = before ++ c :: after) :
    (((boundGroup offsets current g).of c.id topic).map Partition.key).Nodup := by
  obtain ⟨gone, -, hof⟩ := of_boundGroup hn ht hk hc offsets current
  rw [hof]
  split
  · have hentries := List.pairwise_map.mp c.requiredPartitions.nodup_keys
    refine List.pairwise_map.mpr (hentries.filterMap _ fun w v hne p hp q hq hkey => hne ?_)
    rw [← key_of_portion? hp, ← key_of_portion? hq, hkey]
  · exact List.nodup_nil

/-- Every topic of a group is handed out as its members declare. -/
theorem boundGroup_handsDeclared (hk : ((g.partitionsOf topic).map Partition.key).Nodup)
    (hplain : ∀ p ∈ g.partitionsOf topic, p.resetOffset = none) :
    HandsDeclared g topic offsets current.holds (boundGroup offsets current g) := by
  constructor
  case given =>
    intro before c after hc key
    simp only [mem_boundGroup_iff hn ht hk hc]
    constructor
    · rintro ⟨p, ⟨q, hq, hfirst, offset, -, rfl⟩, rfl⟩
      exact ⟨q, hq, key_withStart.symm, hfirst⟩
    · rintro ⟨q, hq, rfl, hfirst⟩
      obtain ⟨offset, hoffset⟩ := Table.contains_iff.mp hfirst.1.1
      exact ⟨_, ⟨q, hq, hfirst, offset, hoffset, rfl⟩, key_withStart⟩
  case once =>
    intro c hc
    obtain ⟨before, after, hsplit⟩ := List.append_of_mem hc
    exact nodup_keys_boundGroup hn ht hk hsplit
  case offered =>
    intro c hc p hp
    obtain ⟨before, after, hsplit⟩ := List.append_of_mem hc
    obtain ⟨q, hq, -, offset, -, rfl⟩ := (mem_boundGroup_iff hn ht hk hsplit).mp hp
    rw [withStart_plain (hplain q hq)]
    exact hq
  case start =>
    intro c hc p hp r
    obtain ⟨before, after, hsplit⟩ := List.append_of_mem hc
    obtain ⟨q, hq, -, offset, hoffset, rfl⟩ := (mem_boundGroup_iff hn ht hk hsplit).mp hp
    rw [resetOffset_withStart (hplain q hq), key_withStart, hoffset, Option.some.injEq]

end Group

/-- What holds of vacant targets and is kept whenever a subscriber is given a partition holds of a
bound group. -/
theorem boundGroup_induction {P : Assignment → Prop} (hvacant : P (vacant g))
    (hgive : ∀ a topic, ∀ c ∈ g.candidates topic, ∀ p, P a → P (a.give c.id topic p)) :
    P (boundGroup offsets current g) := by
  refine List.foldlRecOn _ _ hvacant fun a h topic _ => ?_
  obtain ⟨gone, hserved⟩ := serveTopic_induction g offsets current topic
    (p := fun state => P state.1) h fun c hc state want hs => by
      rw [serveOne_eq]
      split
      · exact hgive state.1 topic c hc _ hs
      · exact hs
  exact hserved

/-! ## All groups -/

/-- The targets are those of the complete bound groups: exactly their members have one, with one
list per topic that the member subscribes to, and every topic is handed out as declared. -/
structure FollowsDeclarations (gs : List GroupView) (offsets : Offsets)
    (held : String → String → String → Bool) (a : Assignment) : Prop where
  members : ∀ id, a.contains id = true ↔ ∃ g ∈ gs, g.IsComplete ∧ id ∈ g.ids
  topics : ∀ g ∈ gs, g.IsComplete → ∀ c ∈ g.members,
    ∃ target, a.get? c.id = some target ∧ target.keys = c.topics
  declared : ∀ g ∈ gs, g.IsComplete → ∀ topic ∈ g.topics, HandsDeclared g topic offsets held a

section Groups

variable {gs : List GroupView} (hn : GroupView.DistinctMembers gs)
  (hk : ∀ g ∈ gs, ∀ t ∈ g.topics, ((g.partitionsOf t).map Partition.key).Nodup)
  (hplain : ∀ g ∈ gs, ∀ t ∈ g.topics, ∀ p ∈ g.partitionsOf t, p.resetOffset = none)
  (hsize : ∀ g ∈ gs, g.bound = true → g.members.length < UInt32.size)

include hn hk hplain hsize

theorem followsDeclarations (offsets : Offsets) (current : Holdings) :
    FollowsDeclarations gs offsets current.holds (bound gs offsets current) := by
  have hready : ∀ g ∈ gs, (g.isBoundReady = true ↔ g.IsComplete) :=
    fun g hg => GroupView.isBoundReady_iff (hsize g hg)
  have hids : ∀ g ∈ gs.filter GroupView.isBoundReady, ∀ c,
      (boundGroup offsets current g).contains c = true ↔ c ∈ g.ids :=
    fun g _ c => ⟨mem_ids_of_contains_boundGroup, contains_boundGroup_of_mem_ids⟩
  have hget : ∀ g ∈ gs, g.IsComplete → ∀ c ∈ g.members,
      (bound gs offsets current).get? c.id = (boundGroup offsets current g).get? c.id :=
    fun g hg hcomplete c hc => get?_ofGroups (fun g hg c => (hids g hg c).mp) (hn.filter _)
      (List.mem_filter.mpr ⟨hg, (hready g hg).mpr hcomplete⟩) (List.mem_map_of_mem hc)
  constructor
  case members =>
    intro id
    rw [bound, contains_ofGroups hids (hn.filter _)]
    refine exists_congr fun g => ?_
    rw [List.mem_filter, and_assoc]
    exact and_congr_right fun hg => and_congr_left' (hready g hg)
  case topics =>
    intro g hg hcomplete c hc
    rw [hget g hg hcomplete c hc]
    exact boundGroup_induction (furnished_vacant (hn.nodup hg))
      (fun a topic c hc p h => h.give (hn.nodup hg) hc p) c hc
  case declared =>
    intro g hg hcomplete topic ht
    exact (boundGroup_handsDeclared (hn.nodup hg) ht (hk g hg topic ht) (hplain g hg topic ht)).congr
      fun c hc => of_congr (hget g hg hcomplete c hc)

/-- Bound groups follow the declarations of their members. What starts from holdings differs from
what starts from scratch in that nobody must start anew with a partition it holds. -/
theorem bound_followsDeclarations (rate : UInt32) (offsets : Offsets) (current : Holdings) :
    FollowsDeclarations gs offsets (fun _ _ _ => false)
        ((Balancer.standard rate).freshBound gs offsets) ∧
      FollowsDeclarations gs offsets current.holds
        ((Balancer.standard rate).steadyBound gs current offsets) :=
  ⟨followsDeclarations hn hk hplain hsize offsets Table.empty,
    followsDeclarations hn hk hplain hsize offsets current⟩

end Groups

/-- Two members declare the same two partitions, of which the first one reaches only the second. -/
def rivals : GroupView where
  name := "g"
  members :=
    [{ id := "a", group := "g", host := "h", topics := KeySet.ofList ["t"], overTls := true
       bound := true, sourceCount := 2
       requiredPartitions := Table.ofList [("1-t-0", 5), ("2-t-0", 7)] },
      { id := "b", group := "g", host := "h", topics := KeySet.ofList ["t"]
        bound := true, sourceCount := 2
        requiredPartitions := Table.ofList [("1-t-0", 6), ("2-t-0", 8)] }]
  topics := KeySet.ofList ["t"]
  partitions := mixedGroup.partitions
  bound := true
  sourceCount := 2

/-- The rivals, and a group that waits for a second member. -/
def declaringGroups : List GroupView :=
  [rivals,
    { rivals with
      name := "i"
      members := [{ id := "c", group := "i", host := "h", topics := KeySet.ofList ["t"] }] }]

/-- The group of the rivals has committed what the second one asks for. -/
theorem declaringGroups_follow : GroupView.DistinctMembers declaringGroups ∧
    (∀ g ∈ declaringGroups, ∀ t ∈ g.topics, ((g.partitionsOf t).map Partition.key).Nodup) ∧
    (∀ g ∈ declaringGroups, ∀ t ∈ g.topics, ∀ p ∈ g.partitionsOf t, p.resetOffset = none) ∧
    (∀ g ∈ declaringGroups, g.bound = true → g.members.length < UInt32.size) ∧
    FollowsDeclarations declaringGroups (Offsets.commit {} "g" "1-t-0" 6) (fun _ _ _ => false)
      ((Balancer.standard 0).freshBound declaringGroups (Offsets.commit {} "g" "1-t-0" 6)) ∧
    FollowsDeclarations declaringGroups (Offsets.commit {} "g" "1-t-0" 6) mixedHoldings.holds
      ((Balancer.standard 0).steadyBound declaringGroups mixedHoldings
        (Offsets.commit {} "g" "1-t-0" 6)) := by
  have hn : GroupView.DistinctMembers declaringGroups := by decide
  have hk : ∀ g ∈ declaringGroups, ∀ t ∈ g.topics,
      ((g.partitionsOf t).map Partition.key).Nodup := by decide
  have hplain : ∀ g ∈ declaringGroups, ∀ t ∈ g.topics, ∀ p ∈ g.partitionsOf t,
      p.resetOffset = none := by decide
  have hsize : ∀ g ∈ declaringGroups, g.bound = true → g.members.length < UInt32.size := by decide
  exact ⟨hn, hk, hplain, hsize, bound_followsDeclarations hn hk hplain hsize 0 _ mixedHoldings⟩

end Balance

end ClusterMaster
