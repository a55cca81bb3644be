import ClusterMaster.Holding
import ClusterMaster.Proofs.Naming

/-!
# Carrying out a change

A partition is filed in a holding under its place: its own topic and key. The change from a
holding to a target, carried out (first drop, then take up), leads to exactly the wanted
partitions, although partitions that talk TLS are compared by address:

    the holding afterwards has something at (topic, key) ↔
      some partition with that key is wanted of that topic          (HoldingChange.place_after_iff)
-/

namespace ClusterMaster

/-- Where a holding files a partition. -/
def Partition.place (p : Partition) : String × String := (p.topic, p.key)

namespace Partition

theorem place_eq_of_key_eq {p q : Partition} (h : p.key = q.key) : p.place = q.place :=
  Prod.ext (topic_eq_of_key_eq h) h

theorem mem_sort {ps : List Partition} {p : Partition} : p ∈ sort ps ↔ p ∈ ps :=
  List.mem_mergeSort

end Partition

namespace Holding

variable {h : Holding} {topic key : String} {p : Partition} {x : String × String}

/-! ## What is held -/

theorem mem_ofTopic : p ∈ h.ofTopic topic ↔ ∃ key, h.get? (topic, key) = some p := by
  simp only [ofTopic, List.mem_filterMap, Option.ite_none_right_eq_some, Option.some.injEq]
  constructor
  · rintro ⟨⟨⟨t, k⟩, q⟩, he, rfl, rfl⟩
    exact ⟨k, Table.get?_eq_some_iff.mpr he⟩
  · rintro ⟨k, hk⟩
    exact ⟨((topic, k), p), Table.get?_eq_some_iff.mp hk, rfl, rfl⟩

theorem mem_keysOf : key ∈ h.keysOf topic ↔ h.contains (topic, key) = true := by
  rw [Table.contains_iff]
  simp only [keysOf, List.mem_filterMap, Option.ite_none_right_eq_some, Option.some.injEq]
  constructor
  · rintro ⟨⟨⟨t, k⟩, q⟩, he, rfl, rfl⟩
    exact ⟨q, Table.get?_eq_some_iff.mpr he⟩
  · rintro ⟨q, hq⟩
    exact ⟨((topic, key), q), Table.get?_eq_some_iff.mp hq, rfl, rfl⟩

/-- The keys of a topic are listed in ascending order. -/
theorem keysOf_ascending : (h.keysOf topic).Pairwise fun a b => Key.before a b = true := by
  unfold keysOf
  refine List.Pairwise.filterMap _ ?_ h.ascending
  intro a b hab k hk l hl
  simp only [Option.ite_none_right_eq_some, Option.some.injEq] at hk hl
  obtain ⟨hat, rfl⟩ := hk
  obtain ⟨hbt, rfl⟩ := hl
  have hlex : (Key.before a.1.1 b.1.1 || (decide (a.1.1 = b.1.1) && Key.before a.1.2 b.1.2)) = true :=
    hab
  rwa [hat, hbt, Key.before_irrefl, Bool.false_or, decide_eq_true rfl, Bool.true_and] at hlex

theorem nodup_keysOf : (h.keysOf topic).Nodup := keysOf_ascending.imp fun h => Key.ne_of_before h

theorem mem_topics_of_mem_ofTopic (hp : p ∈ h.ofTopic topic) : topic ∈ h.topics := by
  obtain ⟨k, hk⟩ := mem_ofTopic.mp hp
  exact KeySet.mem_ofList.mpr (List.mem_map.mpr ⟨_, Table.get?_eq_some_iff.mp hk, rfl⟩)

theorem mem_partitionKeys : key ∈ h.partitionKeys ↔ ∃ topic, h.contains (topic, key) = true := by
  simp only [partitionKeys, KeySet.mem_ofList, List.mem_map, Table.contains_iff]
  constructor
  · rintro ⟨⟨⟨t, k⟩, q⟩, he, rfl⟩
    exact ⟨t, q, Table.get?_eq_some_iff.mpr he⟩
  · rintro ⟨t, q, hq⟩
    exact ⟨((t, key), q), Table.get?_eq_some_iff.mp hq, rfl⟩

/-- Every partition is filed under its own topic and key. -/
def WellFiled (h : Holding) : Prop := ∀ x p, h.get? x = some p → p.place = x

theorem WellFiled.mem_ofTopic (hw : h.WellFiled) :
    p ∈ h.ofTopic topic ↔ h.get? (topic, p.key) = some p ∧ p.topic = topic := by
  rw [Holding.mem_ofTopic]
  constructor
  · rintro ⟨k, hk⟩
    obtain ⟨rfl, rfl⟩ := Prod.mk.inj (hw _ p hk)
    exact ⟨hk, rfl⟩
  · rintro ⟨hk, -⟩
    exact ⟨_, hk⟩

theorem wellFiled_empty : WellFiled Table.empty := by
  intro x p hp
  cases hp

/-! ## Adding and removing -/

theorem get?_add : (h.add p).get? x = if p.place = x then some p else h.get? x :=
  Table.get?_insert

theorem get?_remove : (h.remove p).get? x = if p.place = x then none else h.get? x :=
  Table.get?_erase

theorem WellFiled.add (hw : h.WellFiled) (p : Partition) : (h.add p).WellFiled := by
  intro x q hq
  rw [get?_add] at hq
  split at hq
  · rename_i hx
    obtain rfl := Option.some.inj hq
    exact hx
  · exact hw x q hq

theorem WellFiled.remove (hw : h.WellFiled) (p : Partition) : (h.remove p).WellFiled := by
  intro x q hq
  rw [get?_remove] at hq
  split at hq
  · cases hq
  · exact hw x q hq

theorem wellFiled_foldl {f : Holding → Subscription → Holding}
    (hf : ∀ h s, WellFiled h → WellFiled (f h s)) (hw : h.WellFiled) (subs : List Subscription) :
    (subs.foldl f h).WellFiled := by
  induction subs generalizing h with
  | nil => exact hw
  | cons s subs ih => exact ih (hf h s hw)

theorem wellFiled_ofSubscriptions (subs : List Subscription) : (ofSubscriptions subs).WellFiled :=
  wellFiled_foldl (fun _ s hw => hw.add s.partition) wellFiled_empty subs

theorem WellFiled.apply (hw : h.WellFiled) (e : Event) : (h.apply e).WellFiled := by
  unfold Holding.apply
  split
  · exact wellFiled_foldl (fun _ s hw => hw.add s.partition) hw _
  · exact wellFiled_foldl (fun _ s hw => hw.remove s.partition) hw _

theorem contains_foldl_add {subs : List Subscription} :
    (subs.foldl (fun h s => h.add s.partition) h).contains x = true ↔
      h.contains x = true ∨ ∃ s ∈ subs, s.partition.place = x := by
  induction subs generalizing h with
  | nil => simp
  | cons s subs ih =>
    rw [List.foldl_cons, ih, List.exists_mem_cons_iff, ← or_assoc]
    refine or_congr_left ?_
    unfold Table.contains
    rw [get?_add]
    by_cases hx : s.partition.place = x <;> simp [hx]

theorem contains_foldl_remove {subs : List Subscription} :
    (subs.foldl (fun h s => h.remove s.partition) h).contains x = true ↔
      h.contains x = true ∧ ∀ s ∈ subs, s.partition.place ≠ x := by
  induction subs generalizing h with
  | nil => simp
  | cons s subs ih =>
    rw [List.foldl_cons, ih, List.forall_mem_cons, ← and_assoc]
    refine and_congr_left' ?_
    unfold Table.contains
    rw [get?_remove]
    by_cases hx : s.partition.place = x <;> simp [hx]

/-- Taking up adds the places of an event. -/
theorem contains_apply_of_connect {e : Event} (he : e.kind.isConnect = true) :
    (h.apply e).contains x = true ↔
      h.contains x = true ∨ ∃ s ∈ e.subscriptions, s.partition.place = x := by
  rw [Holding.apply, if_pos he, contains_foldl_add]

/-- Dropping removes the places of an event. -/
theorem contains_apply_of_disconnect {e : Event} (he : e.kind.isConnect = false) :
    (h.apply e).contains x = true ↔
      h.contains x = true ∧ ∀ s ∈ e.subscriptions, s.partition.place ≠ x := by
  rw [Holding.apply, if_neg (by rw [he]; decide), contains_foldl_remove]

end Holding

/-! ## From a holding to a target -/

namespace HoldingChange

variable {tls : Bool} {h : Holding} {target : Option Target} {black : NameSet} {topic : String}
  {p : Partition}

theorem mem_without {ps qs : List Partition} :
    p ∈ without tls ps qs ↔ p ∈ ps ∧ ∀ q ∈ qs, q.diffKey tls ≠ p.diffKey tls := by
  simp only [without, List.mem_filter, Bool.not_eq_true', List.contains_eq_mem, decide_eq_false_iff_not,
    List.mem_map, not_exists, not_and]

theorem mem_topicsOf_of_mem_ofTopic (hp : p ∈ h.ofTopic topic) :
    topic ∈ topicsOf h target :=
  KeySet.mem_insertAll.mpr (.inr (Holding.mem_topics_of_mem_ofTopic hp))

theorem mem_topicsOf_of_mem_wanted (hp : p ∈ wanted h target black topic) :
    topic ∈ topicsOf h target := by
  unfold wanted at hp
  split at hp
  · cases hp
  · cases target with
    | none => exact mem_topicsOf_of_mem_ofTopic hp
    | some t =>
      refine KeySet.mem_insertAll.mpr (.inl ?_)
      rw [Option.map_some, Option.getD_some, KeySet.mem_toList, Table.mem_keys, Table.contains]
      cases ht : t.get? topic with
      | some ps => rfl
      | none =>
        simp only [Table.getD, ht, Option.getD_none] at hp
        cases hp

theorem mem_disconnect : p ∈ (between tls h target black).disconnect ↔
    ∃ topic, p ∈ h.ofTopic topic ∧
      ∀ q ∈ wanted h target black topic, q.diffKey tls ≠ p.diffKey tls := by
  simp only [between, Partition.mem_sort, List.mem_flatMap, mem_without, KeySet.mem_toList]
  constructor
  · rintro ⟨t, -, ht⟩
    exact ⟨t, ht⟩
  · rintro ⟨t, ht, hw⟩
    exact ⟨t, mem_topicsOf_of_mem_ofTopic ht, ht, hw⟩

theorem mem_connect : p ∈ (between tls h target black).connect ↔
    ∃ topic, p ∈ wanted h target black topic ∧
      ∀ q ∈ h.ofTopic topic, q.diffKey tls ≠ p.diffKey tls := by
  simp only [between, Partition.mem_sort, List.mem_flatMap, mem_without, KeySet.mem_toList]
  constructor
  · rintro ⟨t, -, ht⟩
    exact ⟨t, ht⟩
  · rintro ⟨t, ht, hw⟩
    exact ⟨t, mem_topicsOf_of_mem_wanted ht, ht, hw⟩

/-- A target files every partition under the partition's own topic. -/
def Target.WellFiled (target : Option Target) : Prop :=
  ∀ t ∈ target, ∀ topic, ∀ p ∈ t.getD topic [], p.topic = topic

theorem topic_of_mem_wanted (hw : h.WellFiled) (ht : Target.WellFiled target)
    (hp : p ∈ wanted h target black topic) : p.topic = topic := by
  unfold wanted at hp
  split at hp
  · cases hp
  · cases target with
    | none => exact (hw.mem_ofTopic.mp hp).2
    | some t => exact ht t rfl topic p hp

variable (tls black) in
/-- Dropping and then taking up leads from a holding to exactly what is wanted. -/
theorem place_after_iff (hw : h.WellFiled) (ht : Target.WellFiled target) (topic key : String) :
    ((h.contains (topic, key) = true ∧
        ∀ p ∈ (between tls h target black).disconnect, p.place ≠ (topic, key)) ∨
      ∃ p ∈ (between tls h target black).connect, p.place = (topic, key)) ↔
    ∃ p ∈ wanted h target black topic, p.key = key := by
  constructor
  · rintro (⟨hheld, hkept⟩ | ⟨p, hp, hplace⟩)
    · obtain ⟨q, hq⟩ := Table.contains_iff.mp hheld
      have hplace := hw _ q hq
      have hqt : q ∈ h.ofTopic topic := Holding.mem_ofTopic.mpr ⟨key, hq⟩
      by_contra hno
      refine hkept q (mem_disconnect.mpr ⟨topic, hqt, fun w hwt hdiff => hno ⟨w, hwt, ?_⟩⟩) hplace
      have htopic : w.topic = q.topic :=
        (topic_of_mem_wanted hw ht hwt).trans (congrArg Prod.fst hplace).symm
      exact (Partition.key_eq_of_diffKey_eq htopic hdiff).trans (congrArg Prod.snd hplace)
    · obtain ⟨t, hpt, -⟩ := mem_connect.mp hp
      obtain ⟨rfl, rfl⟩ := Prod.mk.inj hplace
      rw [← topic_of_mem_wanted hw ht hpt] at hpt
      exact ⟨p, hpt, rfl⟩
  · rintro ⟨w, hwt, rfl⟩
    have htopic := topic_of_mem_wanted hw ht hwt
    by_cases hconn : ∀ q ∈ h.ofTopic topic, q.diffKey tls ≠ w.diffKey tls
    · exact .inr ⟨w, mem_connect.mpr ⟨topic, hwt, hconn⟩, Prod.ext htopic rfl⟩
    · -- the partition is held already, and what is held under its key is not dropped
      simp only [not_forall, not_not] at hconn
      obtain ⟨q, hq, hdiff⟩ := hconn
      obtain ⟨hget, hqt⟩ := hw.mem_ofTopic.mp hq
      have hkey := Partition.key_eq_of_diffKey_eq (hqt.trans htopic.symm) hdiff
      rw [hkey] at hget
      refine .inl ⟨Table.contains_iff.mpr ⟨q, hget⟩, fun d hd hplace => ?_⟩
      obtain ⟨t, hdt, hnone⟩ := mem_disconnect.mp hd
      obtain ⟨hdget, rfl⟩ := hw.mem_ofTopic.mp hdt
      rw [show (d.topic, d.key) = (topic, w.key) from hplace, hget] at hdget
      obtain rfl := Option.some.inj hdget
      rw [hqt] at hnone
      exact hnone w hwt hdiff.symm

end HoldingChange

end ClusterMaster
