import ClusterMaster.Balance.View
import Mathlib

/-!
# Shares: what it means to hand a topic out

A balancer decides group by group and topic by topic, adding partitions to an assignment that
starts vacant. `Shares g topic a` says that the assignment `a` hands the topic out properly: every
partition that some subscribed member can reach goes to one of those members, once, and nothing
else does. Two facts make a balancer's work local:

    (ofGroups f gs).get? c = (f g).get? c     for the group g of c          (Assignment.get?_ofGroups)
    what a fold over topics gives of a topic is what its step gives of it   (Assignment.of_foldl_topics)

From `Shares` follow completeness (`Shares.exists_mem`), soundness (`Shares.exists_candidate`) and,
when the partitions of the topic have distinct keys, exclusiveness (`Shares.eq_of_key_eq`).
-/

namespace ClusterMaster

namespace GroupView

/-- The ids of the members, in their order. -/
def ids (g : GroupView) : List String := g.members.map Consumer.id

/-- No id occurs twice, neither in a group nor in two of them. -/
def DistinctMembers (gs : List GroupView) : Prop := (gs.flatMap ids).Nodup

instance (gs : List GroupView) : Decidable (DistinctMembers gs) :=
  inferInstanceAs (Decidable (gs.flatMap ids).Nodup)

theorem DistinctMembers.nodup {gs : List GroupView} (h : DistinctMembers gs) {g : GroupView}
    (hg : g ∈ gs) : g.ids.Nodup :=
  (List.nodup_flatMap.mp h).1 g hg

theorem DistinctMembers.filter {gs : List GroupView} (h : DistinctMembers gs)
    (p : GroupView → Bool) : DistinctMembers (gs.filter p) := by
  obtain ⟨h₁, h₂⟩ := List.nodup_flatMap.mp h
  exact List.nodup_flatMap.mpr ⟨fun g hg => h₁ g (List.mem_of_mem_filter hg), h₂.filter _⟩

theorem mem_candidates {g : GroupView} {topic : String} {c : Consumer} :
    c ∈ g.candidates topic ↔ c ∈ g.members ∧ c.isSubscribed topic = true := List.mem_filter

theorem nodup_candidates {g : GroupView} (h : g.ids.Nodup) (topic : String) :
    ((g.candidates topic).map Consumer.id).Nodup :=
  h.sublist (List.filter_sublist.map _)

/-- Some candidate can reach the broker. -/
def reachable (g : GroupView) (topic : String) (b : Broker) : Bool :=
  (g.candidates topic).any fun c => c.canReach b

end GroupView

namespace Assignment

/-! ## What is given -/

theorem of_give {a : Assignment} {c d t s : String} {p : Partition} :
    (a.give c t p).of d s = if c = d ∧ t = s then a.of c t ++ [p] else a.of d s := by
  unfold give of Table.getD
  rw [Table.get?_insert]
  by_cases hc : c = d
  · subst hc
    rw [if_pos rfl, Option.getD_some, Table.get?_insert]
    by_cases ht : t = s <;> simp [ht]
  · simp [hc]

theorem contains_give {a : Assignment} {c d t : String} {p : Partition} :
    (a.give c t p).contains d = (decide (c = d) || a.contains d) := by
  unfold give Table.contains
  rw [Table.get?_insert]
  by_cases hc : c = d <;> simp [hc]

/-- Several partitions given to one consumer stand at the end of what it has of their topic. -/
theorem of_foldl_give {ps : List Partition} {a : Assignment} {c d t s : String} :
    (ps.foldl (fun a p => a.give c t p) a).of d s =
      if c = d ∧ t = s then a.of c t ++ ps else a.of d s := by
  induction ps generalizing a with
  | nil =>
    by_cases h : c = d ∧ t = s
    · obtain ⟨rfl, rfl⟩ := h
      simp
    · simp [h]
  | cons p ps ih =>
    rw [List.foldl_cons, ih, of_give, of_give]
    by_cases h : c = d ∧ t = s
    · simp [h]
    · simp [h]

theorem contains_give_of {a : Assignment} {c d t : String} {p : Partition}
    (h : a.contains d = true) : (a.give c t p).contains d = true := by
  rw [contains_give, h, Bool.or_true]

theorem contains_vacant {g : GroupView} {c : String} :
    (vacant g).contains c = true ↔ c ∈ g.ids := by
  rw [vacant, Table.contains_ofList, List.map_map]
  rfl

theorem of_vacant {g : GroupView} {c t : String} : (vacant g).of c t = [] := by
  unfold of Table.getD
  cases h : (vacant g).get? c with
  | none => rfl
  | some v =>
    obtain ⟨m, -, hv⟩ := List.mem_map.mp (Table.mem_of_get?_ofList h)
    obtain rfl := (Prod.mk.inj hv).2
    cases ht : (Table.ofList (m.topics.toList.map fun t => (t, ([] : List Partition)))).get? t with
    | none => simp [ht]
    | some ps =>
      obtain ⟨s, -, hs⟩ := List.mem_map.mp (Table.mem_of_get?_ofList ht)
      simp [ht, ← (Prod.mk.inj hs).2]

/-! ## Group by group -/

theorem get?_extend {a b : Assignment} {c : String} :
    (a.extend b).get? c = (b.get? c).or (a.get? c) :=
  Table.get?_insertAll_entries

section OfGroups

variable {f : GroupView → Assignment} {gs : List GroupView} {c : String}

theorem get?_foldl_extend_of_none (h : ∀ g ∈ gs, (f g).get? c = none) (a : Assignment) :
    (gs.foldl (fun a g => a.extend (f g)) a).get? c = a.get? c := by
  induction gs generalizing a with
  | nil => rfl
  | cons g gs ih =>
    rw [List.foldl_cons, ih (fun g' hg' => h g' (List.mem_cons_of_mem _ hg')), get?_extend,
      h g List.mem_cons_self, Option.none_or]

/-- A consumer that is in no group gets no target. -/
theorem get?_ofGroups_of_none (h : ∀ g ∈ gs, (f g).get? c = none) :
    (ofGroups f gs).get? c = none :=
  get?_foldl_extend_of_none h Table.empty

variable (hf : ∀ g ∈ gs, ∀ c, (f g).contains c = true → c ∈ g.ids)
  (hn : GroupView.DistinctMembers gs)

include hf hn

/-- The target of a member is the one its own group is decided to give it. -/
theorem get?_ofGroups {g : GroupView} (hg : g ∈ gs) (hc : c ∈ g.ids) :
    (ofGroups f gs).get? c = (f g).get? c := by
  have hnone : ∀ g' ∈ gs, c ∉ g'.ids → (f g').get? c = none := by
    intro g' hg' hc'
    by_contra hs
    exact hc' (hf g' hg' c (Option.isSome_iff_ne_none.mpr hs))
  have hpw := (List.nodup_flatMap.mp hn).2
  have main : ∀ (l : List GroupView) (a : Assignment), l ⊆ gs → a.get? c = none → g ∈ l →
      l.Pairwise (Function.onFun List.Disjoint GroupView.ids) →
      (l.foldl (fun a g => a.extend (f g)) a).get? c = (f g).get? c := by
    intro l
    induction l with
    | nil => intro a _ _ h; cases h
    | cons g₀ l ih =>
      intro a hl ha hmem hpw
      obtain ⟨h₀, hpw⟩ := List.pairwise_cons.mp hpw
      rw [List.foldl_cons]
      rcases List.mem_cons.mp hmem with rfl | hmem
      · rw [get?_foldl_extend_of_none, get?_extend, ha, Option.or_none]
        intro g' hg'
        exact hnone g' (hl (List.mem_cons_of_mem _ hg')) fun hc' => h₀ g' hg' hc hc'
      · refine ih _ (fun x hx => hl (List.mem_cons_of_mem _ hx)) ?_ hmem hpw
        rw [get?_extend, ha, Option.or_none]
        exact hnone g₀ (hl List.mem_cons_self) fun hc' => h₀ g hmem hc' hc
  exact main gs Table.empty (fun _ h => h) rfl hg hpw

end OfGroups

/-! ## Topic by topic -/

section Topics

variable {f : Assignment → String → Assignment}

theorem of_foldl_of_not_mem (hf : ∀ a t s, s ≠ t → ∀ c, (f a t).of c s = a.of c s)
    {ts : List String} {s : String} (hs : s ∉ ts) (a : Assignment) (c : String) :
    (ts.foldl f a).of c s = a.of c s := by
  induction ts generalizing a with
  | nil => rfl
  | cons t ts ih =>
    simp only [List.mem_cons, not_or] at hs
    rw [List.foldl_cons, ih hs.2, hf a t s hs.1]

/-- When every step only touches its own topic, what is given of a topic in the end is what its
step gives of it. -/
theorem of_foldl_topics (hf : ∀ a t s, s ≠ t → ∀ c, (f a t).of c s = a.of c s) {ts : List String}
    (hn : ts.Nodup) {t : String} (ht : t ∈ ts) (a : Assignment) :
    ∃ b : Assignment, (∀ c, b.of c t = a.of c t) ∧ ∀ c, (ts.foldl f a).of c t = (f b t).of c t := by
  induction ts generalizing a with
  | nil => cases ht
  | cons s ts ih =>
    rw [List.nodup_cons] at hn
    by_cases hs : t = s
    · subst hs
      exact ⟨a, fun _ => rfl, fun c => of_foldl_of_not_mem hf hn.1 _ c⟩
    · obtain ⟨b, hb, hres⟩ := ih hn.2 ((List.mem_cons.mp ht).resolve_left hs) (f a s)
      exact ⟨b, fun c => by rw [hb c, hf a s t hs c], hres⟩

theorem contains_foldl {α : Type} {f : Assignment → α → Assignment} {P : String → Prop}
    {xs : List α} (hf : ∀ a, ∀ x ∈ xs, ∀ c, (f a x).contains c = true → a.contains c = true ∨ P c)
    (a : Assignment) {c : String} (h : (xs.foldl f a).contains c = true) :
    a.contains c = true ∨ P c := by
  induction xs generalizing a with
  | nil => exact .inl h
  | cons x xs ih =>
    rcases ih (fun a y hy => hf a y (List.mem_cons_of_mem _ hy)) (f a x) h with h | h
    · exact hf a x List.mem_cons_self c h
    · exact .inr h

theorem contains_foldl_of {α : Type} {f : Assignment → α → Assignment} {c : String}
    (hf : ∀ a x, a.contains c = true → (f a x).contains c = true) (xs : List α) {a : Assignment}
    (h : a.contains c = true) : (xs.foldl f a).contains c = true := by
  induction xs generalizing a with
  | nil => exact h
  | cons x xs ih => exact ih (hf a x h)

end Topics

end Assignment

/-! ## Shares -/

/-- A list without repetitions and the set of its elements list the same. -/
theorem KeySet.toList_ofList_perm {κ : Type} [Key κ] {l : List κ} (h : l.Nodup) :
    (KeySet.ofList l).toList.Perm l :=
  (List.perm_ext_iff_of_nodup (KeySet.nodup_toList _) h).mpr
    fun _ => KeySet.mem_toList.trans KeySet.mem_ofList

/-- In lists that together hold nothing twice, an element tells which list it is from. -/
theorem eq_of_nodup_flatMap {α β : Type} {f : α → List β} {l : List α} (h : (l.flatMap f).Nodup)
    {a b : α} (ha : a ∈ l) (hb : b ∈ l) {x : β} (hxa : x ∈ f a) (hxb : x ∈ f b) : a = b := by
  induction l with
  | nil => cases ha
  | cons c l ih =>
    rw [List.flatMap_cons, List.nodup_append] at h
    obtain ⟨-, hl, hdisj⟩ := h
    rcases List.mem_cons.mp ha with rfl | ha' <;> rcases List.mem_cons.mp hb with rfl | hb'
    · rfl
    · exact absurd rfl (hdisj x hxa x (List.mem_flatMap.mpr ⟨b, hb', hxb⟩))
    · exact absurd rfl (hdisj x hxb x (List.mem_flatMap.mpr ⟨a, ha', hxa⟩))
    · exact ih hl ha' hb'

/-- The topic is handed out: together the candidates get each partition that one of them can
reach, each of them gets only partitions it can reach, and nobody else gets any. -/
structure Shares (g : GroupView) (topic : String) (a : Assignment) : Prop where
  perm : ((g.candidates topic).flatMap fun c => a.of c.id topic).Perm
    ((g.partitionsOf topic).filter fun p => g.reachable topic p.broker)
  canReach : ∀ c ∈ g.candidates topic, ∀ p ∈ a.of c.id topic, c.canReach p.broker = true
  only : ∀ id, id ∉ (g.candidates topic).map Consumer.id → a.of id topic = []

namespace Shares

variable {g : GroupView} {topic : String} {a : Assignment}

/-- Whoever gets a partition is a candidate that can reach it. -/
theorem exists_candidate (h : Shares g topic a) {id : String} {p : Partition}
    (hp : p ∈ a.of id topic) : ∃ c ∈ g.candidates topic, c.id = id ∧ c.canReach p.broker = true := by
  by_cases hid : id ∈ (g.candidates topic).map Consumer.id
  · obtain ⟨c, hc, rfl⟩ := List.mem_map.mp hid
    exact ⟨c, hc, rfl, h.canReach c hc p hp⟩
  · rw [h.only id hid] at hp
    cases hp

theorem mem_partitionsOf (h : Shares g topic a) {id : String} {p : Partition}
    (hp : p ∈ a.of id topic) : p ∈ g.partitionsOf topic := by
  obtain ⟨c, hc, rfl, -⟩ := h.exists_candidate hp
  exact List.mem_of_mem_filter (h.perm.mem_iff.mp (List.mem_flatMap.mpr ⟨c, hc, hp⟩))

/-- A partition within somebody's reach is given to somebody. -/
theorem exists_mem (h : Shares g topic a) {p : Partition} (hp : p ∈ g.partitionsOf topic)
    (hr : g.reachable topic p.broker = true) :
    ∃ c ∈ g.candidates topic, c.canReach p.broker = true ∧ p ∈ a.of c.id topic := by
  obtain ⟨c, hc, hpc⟩ := List.mem_flatMap.mp (h.perm.mem_iff.mpr (List.mem_filter.mpr ⟨hp, hr⟩))
  exact ⟨c, hc, h.canReach c hc p hpc, hpc⟩

variable (hk : ((g.partitionsOf topic).map Partition.key).Nodup)

include hk

theorem nodup_keys (h : Shares g topic a) :
    ((g.candidates topic).flatMap fun c => (a.of c.id topic).map Partition.key).Nodup := by
  rw [← List.map_flatMap, (h.perm.map Partition.key).nodup_iff]
  exact hk.sublist (List.filter_sublist.map _)

/-- Two members never get partitions with one key. -/
theorem eq_of_key_eq (h : Shares g topic a) {id id' : String} {p q : Partition}
    (hp : p ∈ a.of id topic) (hq : q ∈ a.of id' topic) (e : p.key = q.key) : id = id' := by
  obtain ⟨c, hc, rfl, -⟩ := h.exists_candidate hp
  obtain ⟨d, hd, rfl, -⟩ := h.exists_candidate hq
  refine congrArg _ (eq_of_nodup_flatMap (h.nodup_keys hk) hc hd (List.mem_map_of_mem hp) ?_)
  exact e ▸ List.mem_map_of_mem hq

theorem nodup_keys_of (h : Shares g topic a) (id : String) :
    ((a.of id topic).map Partition.key).Nodup := by
  by_cases hid : id ∈ (g.candidates topic).map Consumer.id
  · obtain ⟨c, hc, rfl⟩ := List.mem_map.mp hid
    exact (List.nodup_flatMap.mp (h.nodup_keys hk)).1 c hc
  · simp [h.only id hid]

end Shares

end ClusterMaster
