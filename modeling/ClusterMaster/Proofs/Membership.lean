import ClusterMaster.Groups
import Mathlib

/-!
# Membership

The groups file every member twice: in the table of its group, and under its id with the name of
the group. `Groups.Coherent` says that the two agree and that members agree with the settings of
their group. Joining and leaving keep it, and then `Groups.consumer?` tells all there is to know:

    (gs.join c).consumer? id = if id = c.id then some c else gs.consumer? id       (consumer?_join)
    (gs.leave x).2.consumer? id = if x = id then none else gs.consumer? id         (consumer?_leave)
    c ∈ gs.membersOf name ↔ gs.consumer? c.id = some c ∧ c.group = name            (mem_membersOf)
-/

namespace ClusterMaster

/-! ## Settings -/

/-- A consumer has the settings of a group; session and number of sources count in bound groups. -/
structure Group.Suits (g : Group) (c : Consumer) : Prop where
  topics : c.topics = g.topics
  conditions : c.topicConditions = g.topicConditions
  bound : c.bound = g.bound
  session : g.bound = true → c.sessionKey = g.sessionKey
  sources : g.bound = true → c.sourceCount = g.sourceCount

namespace Group

variable {g : Group} {c : Consumer}

theorem Suits.congr (h : g.Suits c) (members : Table String Consumer) (notAllocated : Bool) :
    Suits { g with members, notAllocated } c :=
  ⟨h.topics, h.conditions, h.bound, h.session, h.sources⟩

theorem suits_foundedBy (c : Consumer) : (foundedBy c).Suits c :=
  ⟨rfl, rfl, rfl, fun _ => rfl, fun _ => rfl⟩

theorem checkMember_eq_ok_iff : g.checkMember c = .ok () ↔ g.Suits c := by
  unfold checkMember
  constructor
  · intro h
    split at h
    · cases h
    · rename_i htopics
      split at h
      · cases h
      · rename_i hconditions
        split at h
        · cases h
        · rename_i hbound
          split at h
          · cases h
          · rename_i hsession
            split at h
            · cases h
            · rename_i hsources
              exact ⟨not_not.mp htopics, not_not.mp hconditions, not_not.mp hbound,
                fun hb => not_not.mp fun hne => hsession ⟨hb, hne⟩,
                fun hb => not_not.mp fun hne => hsources ⟨hb, hne⟩⟩
  · intro h
    rw [if_neg (not_not.mpr h.topics), if_neg (not_not.mpr h.conditions),
      if_neg (not_not.mpr h.bound), if_neg fun hs => hs.2 (h.session hs.1),
      if_neg fun hs => hs.2 (h.sources hs.1)]

end Group

namespace Groups

/-- Both records of the members agree, and members agree with the settings of their group. -/
structure Coherent (gs : Groups) : Prop where
  named : ∀ {name g}, gs.group? name = some g → g.name = name
  agrees : ∀ {name g}, gs.group? name = some g → ∀ {id c}, g.members.get? id = some c →
    c.id = id ∧ c.group = name ∧ c.topics = g.topics ∧ c.bound = g.bound
  placed : ∀ {id name}, gs.groupOf? id = some name ↔
    ∃ g, gs.group? name = some g ∧ g.members.contains id = true

variable {gs : Groups} {id name : String} {c : Consumer} {g : Group}

theorem coherent_empty : Coherent {} where
  named h := by cases h
  agrees h := by cases h
  placed := by
    intro id name
    constructor
    · intro h
      cases h
    · rintro ⟨g, h, -⟩
      cases h

/-! ## One view of the members -/

theorem consumer?_eq_some_iff (h : gs.Coherent) : gs.consumer? id = some c ↔
    ∃ g, gs.group? c.group = some g ∧ g.members.get? id = some c := by
  unfold consumer?
  constructor
  · intro hc
    obtain ⟨name, hname, hc⟩ := Option.bind_eq_some_iff.mp hc
    obtain ⟨g, hg, hc⟩ := Option.bind_eq_some_iff.mp hc
    rw [(h.agrees hg hc).2.1]
    exact ⟨g, hg, hc⟩
  · rintro ⟨g, hg, hc⟩
    have hof : gs.groupOf? id = some c.group := h.placed.mpr ⟨g, hg, Table.contains_iff.mpr ⟨c, hc⟩⟩
    rw [hof, Option.bind_some, hg, Option.bind_some, hc]

theorem Coherent.id_eq (h : gs.Coherent) (hc : gs.consumer? id = some c) : c.id = id := by
  obtain ⟨g, hg, hm⟩ := (consumer?_eq_some_iff h).mp hc
  exact (h.agrees hg hm).1

/-- A consumer has the topics and the kind of its group. -/
theorem Coherent.exists_group (h : gs.Coherent) (hc : gs.consumer? id = some c) :
    ∃ g, gs.group? c.group = some g ∧ c.topics = g.topics ∧ c.bound = g.bound := by
  obtain ⟨g, hg, hm⟩ := (consumer?_eq_some_iff h).mp hc
  exact ⟨g, hg, (h.agrees hg hm).2.2⟩

theorem mem_members_iff (h : gs.Coherent) (hg : gs.group? name = some g) :
    c ∈ g.members.values ↔ gs.consumer? c.id = some c ∧ c.group = name := by
  simp only [Table.values, List.mem_map]
  constructor
  · rintro ⟨⟨k, d⟩, he, rfl⟩
    have hget := Table.get?_eq_some_iff.mpr he
    obtain ⟨hid, hgroup, -⟩ := h.agrees hg hget
    rw [consumer?_eq_some_iff h, hgroup, hid]
    exact ⟨⟨g, hg, hget⟩, rfl⟩
  · rintro ⟨hc, rfl⟩
    obtain ⟨g', hg', hget⟩ := (consumer?_eq_some_iff h).mp hc
    obtain rfl := Option.some.inj (hg.symm.trans hg')
    exact ⟨(c.id, c), Table.get?_eq_some_iff.mp hget, rfl⟩

theorem mem_membersOf (h : gs.Coherent) :
    c ∈ gs.membersOf name ↔ gs.consumer? c.id = some c ∧ c.group = name := by
  unfold membersOf
  cases hg : gs.group? name with
  | none =>
    rw [Option.map_none, Option.getD_none]
    constructor
    · intro hc
      cases hc
    · rintro ⟨hc, rfl⟩
      obtain ⟨g, hg', -⟩ := h.exists_group hc
      rw [hg] at hg'
      cases hg'
  | some g => exact mem_members_iff h hg

theorem contains_iff (h : gs.Coherent) : gs.contains id = true ↔ ∃ c, gs.consumer? id = some c := by
  unfold contains
  rw [Table.contains_iff]
  constructor
  · rintro ⟨name, hname⟩
    obtain ⟨g, hg, hc⟩ := h.placed.mp hname
    obtain ⟨c, hc⟩ := Table.contains_iff.mp hc
    have hof : gs.groupOf? id = some name := hname
    refine ⟨c, ?_⟩
    rw [consumer?, hof, Option.bind_some, hg, Option.bind_some, hc]
  · rintro ⟨c, hc⟩
    obtain ⟨g, hg, hm⟩ := (consumer?_eq_some_iff h).mp hc
    exact ⟨c.group, h.placed.mpr ⟨g, hg, Table.contains_iff.mpr ⟨c, hm⟩⟩⟩

/-- The members of a group have different ids. -/
theorem nodup_ids (h : gs.Coherent) (hg : gs.group? name = some g) :
    (g.members.values.map Consumer.id).Nodup := by
  have hids : g.members.values.map Consumer.id = g.members.entries.map Prod.fst := by
    rw [Table.values, List.map_map]
    refine List.map_congr_left fun e he => ?_
    exact (h.agrees hg (Table.get?_eq_some_iff.mpr he)).1
  rw [hids]
  exact g.members.nodup_keys

/-! ## Joining -/

theorem group?_join {n : String} : (gs.join c).group? n =
    if c.group = n then
      some { gs.groupJoined c with members := (gs.groupJoined c).members.insert c.id c }
    else gs.group? n :=
  Table.get?_insert

theorem groupOf?_join : (gs.join c).groupOf? id = if c.id = id then some c.group else gs.groupOf? id :=
  Table.get?_insert

theorem eq_of_isSoleMember (hs : g.isSoleMember id = true) {k : String}
    (hk : g.members.contains k = true) : k = id := by
  have hall := List.all_eq_true.mp hs k (KeySet.mem_toList.mpr (Table.mem_keys.mpr hk))
  simpa using hall

/-- A consumer that may join is in no other group, and has the settings of the group it joins. -/
theorem joins_of_checkJoin (hj : gs.checkJoin c = .ok ()) :
    (gs.groupOf? c.id = none ∨ gs.groupOf? c.id = some c.group) ∧ (gs.groupJoined c).Suits c := by
  have hof : gs.groupOf? c.id = none ∨ gs.groupOf? c.id = some c.group := by
    unfold checkJoin at hj
    split at hj
    · rename_i g hg
      split at hj
      · cases hj
      · rename_i hne
        rw [hg, not_not.mp hne]
        exact .inr rfl
    · rename_i hnone
      exact .inl hnone
  have hgroup : checkJoin.checkGroup gs c = .ok () := by
    unfold checkJoin at hj
    split at hj
    · split at hj
      · cases hj
      · exact hj
    · exact hj
  refine ⟨hof, ?_⟩
  unfold checkJoin.checkGroup at hgroup
  unfold groupJoined
  split at hgroup
  · rename_i g hg
    split at hgroup
    · rename_i hs
      simp only [if_pos hs]
      exact (Group.suits_foundedBy c).congr _ _
    · rename_i hs
      simp only [if_neg hs]
      exact Group.checkMember_eq_ok_iff.mp hgroup
  · exact Group.suits_foundedBy c

/-- A consumer that may join is in no other group, and the group it joins agrees with it and with
its other members. -/
theorem of_checkJoin (hj : gs.checkJoin c = .ok ()) :
    (gs.groupOf? c.id = none ∨ gs.groupOf? c.id = some c.group) ∧
      (gs.groupJoined c).topics = c.topics ∧ (gs.groupJoined c).bound = c.bound := by
  obtain ⟨hof, hsuits⟩ := joins_of_checkJoin hj
  exact ⟨hof, hsuits.topics.symm, hsuits.bound.symm⟩

/-- The others of the group that is joined stay members, with the settings they agree with. -/
theorem groupJoined_members {k : String} (hk : k ≠ c.id) {d : Consumer} :
    (gs.groupJoined c).members.get? k = some d ↔
      ∃ g, gs.group? c.group = some g ∧ g.members.get? k = some d := by
  unfold groupJoined
  split
  · rename_i g hg
    split
    · rename_i hs
      constructor
      · intro hd
        cases hd
      · rintro ⟨g', hg', hd⟩
        obtain rfl := Option.some.inj (hg.symm.trans hg')
        exact absurd (eq_of_isSoleMember hs (Table.contains_iff.mpr ⟨d, hd⟩)) hk
    · constructor
      · exact fun hd => ⟨g, hg, hd⟩
      · rintro ⟨g', hg', hd⟩
        obtain rfl := Option.some.inj (hg.symm.trans hg')
        exact hd
  · rename_i hg
    constructor
    · intro hd
      cases hd
    · rintro ⟨g', hg', -⟩
      rw [hg] at hg'
      cases hg'

/-- A group that has another member is joined as it is. -/
theorem group?_groupJoined {k : String} (hk : k ≠ c.id) {d : Consumer}
    (hd : (gs.groupJoined c).members.get? k = some d) :
    gs.group? c.group = some (gs.groupJoined c) := by
  obtain ⟨g, hg, hget⟩ := (groupJoined_members hk).mp hd
  have hne : g.isSoleMember c.id = false := by
    by_contra hs
    exact hk (eq_of_isSoleMember (by simpa using hs) (Table.contains_iff.mpr ⟨d, hget⟩))
  unfold groupJoined
  simp [hg, hne]

theorem groupJoined_settings (h : gs.Coherent) {k : String} (hk : k ≠ c.id) {d : Consumer}
    (hd : (gs.groupJoined c).members.get? k = some d) :
    d.id = k ∧ d.group = c.group ∧ d.topics = (gs.groupJoined c).topics ∧
      d.bound = (gs.groupJoined c).bound :=
  h.agrees (group?_groupJoined hk hd) hd

theorem groupJoined_name (h : gs.Coherent) : (gs.groupJoined c).name = c.group := by
  unfold groupJoined
  split
  · rename_i g hg
    split
    · rfl
    · exact h.named hg
  · rfl

/-- Joining keeps the groups coherent. -/
theorem Coherent.join (h : gs.Coherent) (hj : gs.checkJoin c = .ok ()) : (gs.join c).Coherent where
  named := by
    intro n g hg
    rw [group?_join] at hg
    split at hg
    · rename_i hn
      obtain rfl := Option.some.inj hg
      exact (groupJoined_name h).trans hn
    · exact h.named hg
  agrees := by
    intro n g hg k d hd
    rw [group?_join] at hg
    split at hg
    · rename_i hn
      obtain rfl := Option.some.inj hg
      subst hn
      simp only [Table.get?_insert] at hd
      split at hd
      · rename_i hk
        obtain rfl := Option.some.inj hd
        exact ⟨hk, rfl, (of_checkJoin hj).2.1.symm, (of_checkJoin hj).2.2.symm⟩
      · rename_i hk
        exact groupJoined_settings h (Ne.symm hk) hd
    · exact h.agrees hg hd
  placed := by
    intro k n
    rw [groupOf?_join, group?_join]
    by_cases hk : c.id = k
    · subst hk
      rw [if_pos rfl]
      constructor
      · intro hn
        obtain rfl := Option.some.inj hn
        refine ⟨_, if_pos rfl, Table.contains_iff.mpr ⟨c, Table.get?_insert_self⟩⟩
      · rintro ⟨g, hg, hc⟩
        split at hg
        · rename_i hn
          rw [hn]
        · -- it was in no other group
          have hof := h.placed.mpr ⟨g, hg, hc⟩
          rcases (of_checkJoin hj).1 with hnone | hsame
          · rw [hnone] at hof
            cases hof
          · exact hsame.symm.trans hof
    · rw [if_neg hk, h.placed]
      by_cases hn : c.group = n
      · subst hn
        rw [if_pos rfl]
        constructor
        · rintro ⟨g, hg, hc⟩
          obtain ⟨d, hd⟩ := Table.contains_iff.mp hc
          refine ⟨_, rfl, Table.contains_iff.mpr ⟨d, ?_⟩⟩
          rw [Table.get?_insert_of_ne hk]
          exact (groupJoined_members (Ne.symm hk)).mpr ⟨g, hg, hd⟩
        · rintro ⟨g, hg, hc⟩
          obtain rfl := Option.some.inj hg
          obtain ⟨d, hd⟩ := Table.contains_iff.mp hc
          rw [Table.get?_insert_of_ne hk] at hd
          obtain ⟨g, hg, hd⟩ := (groupJoined_members (Ne.symm hk)).mp hd
          exact ⟨g, hg, Table.contains_iff.mpr ⟨d, hd⟩⟩
      · rw [if_neg hn]

theorem consumer?_join (h : gs.Coherent) (hj : gs.checkJoin c = .ok ()) :
    (gs.join c).consumer? id = if id = c.id then some c else gs.consumer? id := by
  have h' := h.join hj
  apply Option.ext
  intro d
  rw [consumer?_eq_some_iff h', group?_join]
  by_cases hid : id = c.id
  · subst hid
    rw [if_pos rfl]
    constructor
    · rintro ⟨g, hg, hd⟩
      have hgroup := (h'.agrees (group?_join.trans hg) hd).2.1
      have hof : (gs.join c).groupOf? c.id = some d.group :=
        h'.placed.mpr ⟨g, group?_join.trans hg, Table.contains_iff.mpr ⟨d, hd⟩⟩
      rw [groupOf?_join, if_pos rfl] at hof
      rw [if_pos (Option.some.inj hof)] at hg
      obtain rfl := Option.some.inj hg
      rw [Table.get?_insert_self] at hd
      exact hd
    · intro hd
      obtain rfl := Option.some.inj hd
      exact ⟨_, if_pos rfl, Table.get?_insert_self⟩
  · rw [if_neg hid, consumer?_eq_some_iff h]
    by_cases hgroup : c.group = d.group
    · rw [if_pos hgroup]
      constructor
      · rintro ⟨g, hg, hd⟩
        obtain rfl := Option.some.inj hg
        rw [Table.get?_insert_of_ne (Ne.symm hid)] at hd
        rw [← hgroup]
        exact (groupJoined_members hid).mp hd
      · rw [← hgroup]
        intro hd
        refine ⟨_, rfl, ?_⟩
        rw [Table.get?_insert_of_ne (Ne.symm hid)]
        exact (groupJoined_members hid).mpr hd
    · rw [if_neg hgroup]

/-! ## Leaving -/

theorem groupOf?_leave {x : String} :
    (gs.leave x).2.groupOf? id = if x = id then none else gs.groupOf? id := by
  have herase : ({ gs with groupOf := gs.groupOf.erase x } : Groups).groupOf? id =
      if x = id then none else gs.groupOf? id := Table.get?_erase
  unfold leave
  cases hof : gs.groupOf? x with
  | none =>
    by_cases hx : x = id
    · subst hx
      rw [if_pos rfl]
      exact hof
    · rw [if_neg hx]
  | some n =>
    simp only []
    split
    · exact herase
    · split
      · exact herase
      · split <;> exact herase

/-- Who leaves is who is found under the id. -/
theorem leave_fst (gs : Groups) (x : String) : (gs.leave x).1.map Prod.fst = gs.consumer? x := by
  unfold leave consumer?
  cases gs.groupOf? x with
  | none => rfl
  | some n =>
    simp only [Option.bind_some]
    rw [show ({ gs with groupOf := gs.groupOf.erase x } : Groups).group? n = gs.group? n from rfl]
    cases gs.group? n with
    | none => rfl
    | some g =>
      simp only [Option.bind_some]
      cases g.members.get? x with
      | none => rfl
      | some c =>
        simp only []
        split <;> rfl

theorem group?_leave (h : gs.Coherent) {x n : String} : (gs.leave x).2.group? n =
    if gs.groupOf? x = some n then
      (gs.group? n).bind fun g =>
        if (g.members.erase x).isEmpty then none else some { g with members := g.members.erase x }
    else gs.group? n := by
  unfold leave
  cases hof : gs.groupOf? x with
  | none => simp
  | some m =>
    obtain ⟨g, hg, hc⟩ := h.placed.mp hof
    obtain ⟨c, hc⟩ := Table.contains_iff.mp hc
    have hg' : ({ gs with groupOf := gs.groupOf.erase x } : Groups).group? m = some g := hg
    simp only [hg', hc, Option.some.injEq]
    by_cases hm : m = n
    · subst hm
      rw [if_pos rfl, hg, Option.bind_some]
      split
      · exact Table.get?_erase_self
      · exact Table.get?_insert_self
    · rw [if_neg hm]
      split
      · exact Table.get?_erase_of_ne hm
      · exact Table.get?_insert_of_ne hm

/-- What is left of a group are its settings and its other members. -/
theorem members_leave (h : gs.Coherent) {x n : String} (hg : (gs.leave x).2.group? n = some g) :
    ∃ g' left, gs.group? n = some g' ∧ g = { g' with members := left } ∧
      ∀ k, left.get? k = if x = k then none else g'.members.get? k := by
  rw [group?_leave h] at hg
  split at hg
  · obtain ⟨g', hg', hg⟩ := Option.bind_eq_some_iff.mp hg
    split at hg
    · cases hg
    · exact ⟨g', _, hg', (Option.some.inj hg).symm, fun k => Table.get?_erase⟩
  · rename_i hof
    refine ⟨g, _, hg, rfl, fun k => ?_⟩
    split
    · rename_i hk
      subst hk
      cases hx : g.members.get? x with
      | none => rfl
      | some c => exact absurd (h.placed.mpr ⟨g, hg, Table.contains_iff.mpr ⟨c, hx⟩⟩) hof
    · rfl

theorem exists_group_leave (h : gs.Coherent) {x n k : String} (hg : gs.group? n = some g)
    (hk : g.members.contains k = true) (hne : x ≠ k) :
    ∃ g', (gs.leave x).2.group? n = some g' ∧ g'.members.get? k = g.members.get? k := by
  rw [group?_leave h]
  split
  · rw [hg, Option.bind_some]
    obtain ⟨c, hc⟩ := Table.contains_iff.mp hk
    have hc' : (g.members.erase x).get? k = some c := by rw [Table.get?_erase_of_ne hne, hc]
    have hnonempty : (g.members.erase x).isEmpty = false := by
      unfold Table.isEmpty
      rw [List.isEmpty_eq_false_iff]
      exact List.ne_nil_of_mem (Table.get?_eq_some_iff.mp hc')
    rw [if_neg (by rw [hnonempty]; decide)]
    exact ⟨_, rfl, Table.get?_erase_of_ne hne⟩
  · exact ⟨g, hg, rfl⟩

/-- Leaving keeps the groups coherent. -/
theorem Coherent.leave (h : gs.Coherent) (x : String) : (gs.leave x).2.Coherent where
  named := by
    intro n g hg
    obtain ⟨g', left, hg', rfl, -⟩ := members_leave h hg
    exact h.named (g := g') hg'
  agrees := by
    intro n g hg k c hc
    obtain ⟨g', left, hg', rfl, hleft⟩ := members_leave h hg
    rw [hleft] at hc
    split at hc
    · cases hc
    · exact h.agrees hg' hc
  placed := by
    intro k n
    rw [groupOf?_leave]
    constructor
    · intro hof
      split at hof
      · cases hof
      · rename_i hne
        obtain ⟨g, hg, hc⟩ := h.placed.mp hof
        obtain ⟨g', hg', hget⟩ := exists_group_leave h hg hc hne
        refine ⟨g', hg', ?_⟩
        rw [Table.contains, hget]
        exact hc
    · rintro ⟨g, hg, hc⟩
      obtain ⟨g', left, hg', rfl, hleft⟩ := members_leave h hg
      rw [Table.contains, hleft] at hc
      split at hc
      · cases hc
      · rename_i hne
        rw [if_neg hne]
        exact h.placed.mpr ⟨g', hg', hc⟩

theorem consumer?_leave (h : gs.Coherent) {x : String} :
    (gs.leave x).2.consumer? id = if x = id then none else gs.consumer? id := by
  apply Option.ext
  intro c
  rw [consumer?_eq_some_iff (h.leave x)]
  split
  · rename_i hx
    constructor
    · rintro ⟨g, hg, hc⟩
      obtain ⟨g', left, hg', rfl, hleft⟩ := members_leave h hg
      rw [hleft, if_pos hx] at hc
      cases hc
    · intro hc
      cases hc
  · rename_i hx
    rw [consumer?_eq_some_iff h]
    constructor
    · rintro ⟨g, hg, hc⟩
      obtain ⟨g', left, hg', rfl, hleft⟩ := members_leave h hg
      rw [hleft, if_neg hx] at hc
      exact ⟨g', hg', hc⟩
    · rintro ⟨g, hg, hc⟩
      obtain ⟨g', hg', hget⟩ := exists_group_leave h hg (Table.contains_iff.mpr ⟨c, hc⟩) hx
      exact ⟨g', hg', hget.trans hc⟩

/-! ## Taking up the first partitions -/

theorem group?_setAllocated {n : String} : (gs.setAllocated name).group? n =
    if name = n then (gs.group? n).map fun g => { g with notAllocated := false } else gs.group? n :=
  Table.get?_modify

theorem consumer?_setAllocated : (gs.setAllocated name).consumer? id = gs.consumer? id := by
  unfold consumer?
  rw [show (gs.setAllocated name).groupOf? id = gs.groupOf? id from rfl]
  cases gs.groupOf? id with
  | none => rfl
  | some n =>
    rw [Option.bind_some, Option.bind_some, group?_setAllocated]
    split
    · cases gs.group? n <;> rfl
    · rfl

theorem Coherent.setAllocated (h : gs.Coherent) (name : String) :
    (gs.setAllocated name).Coherent := by
  have hgroup : ∀ {n g}, (gs.setAllocated name).group? n = some g → ∃ g', gs.group? n = some g' ∧
      g.name = g'.name ∧ g.topics = g'.topics ∧ g.bound = g'.bound ∧ g.members = g'.members := by
    intro n g hg
    rw [group?_setAllocated] at hg
    split at hg
    · obtain ⟨g', hg', rfl⟩ := Option.map_eq_some_iff.mp hg
      exact ⟨g', hg', rfl, rfl, rfl, rfl⟩
    · exact ⟨g, hg, rfl, rfl, rfl, rfl⟩
  refine ⟨fun hg => ?_, fun hg k c hc => ?_, fun {k n} => ?_⟩
  · obtain ⟨g', hg', hname, -⟩ := hgroup hg
    exact hname.trans (h.named hg')
  · obtain ⟨g', hg', -, htopics, hbound, hmembers⟩ := hgroup hg
    rw [htopics, hbound]
    exact h.agrees hg' (hmembers ▸ hc)
  · rw [show (gs.setAllocated name).groupOf? k = gs.groupOf? k from rfl, h.placed]
    constructor
    · rintro ⟨g, hg, hc⟩
      rw [group?_setAllocated, hg]
      split
      · exact ⟨_, rfl, hc⟩
      · exact ⟨g, rfl, hc⟩
    · rintro ⟨g, hg, hc⟩
      obtain ⟨g', hg', -, -, -, hmembers⟩ := hgroup hg
      exact ⟨g', hg', hmembers ▸ hc⟩

end Groups

end ClusterMaster
