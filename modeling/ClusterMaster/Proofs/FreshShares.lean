import ClusterMaster.Balance.Fresh
import ClusterMaster.Proofs.Shares

/-!
# Sharing from scratch hands everything out

Dealing one partition adds it to the share of a candidate within reach, or drops it when there is
none, so after all of them the candidates have, together, each reachable partition once.

    DistinctMembers gs → g ∈ gs → topic ∈ g.topics → Shares g topic (freshGroup g)   (freshGroup_shares)
-/

namespace ClusterMaster.Balance

open Assignment

variable {g : GroupView} {topic : String} {a : Assignment}

/-! ## One partition -/

theorem leastBurdened_mem {b : Broker} {cs : List Consumer} {c : Consumer}
    (h : leastBurdened a topic b cs = some c) : c ∈ cs ∧ c.canReach b = true :=
  List.mem_filter.mp (pick?_mem h)

theorem leastBurdened_eq_none {b : Broker} {cs : List Consumer}
    (h : leastBurdened a topic b cs = none) : (cs.any fun c => c.canReach b) = false := by
  rw [List.any_eq_false]
  exact List.filter_eq_nil_iff.mp (pick?_eq_none_iff.mp h)

/-- What is given to one of several consumers with distinct ids is added to what they have. -/
theorem flatMap_of_give_perm {cs : List Consumer} (hn : (cs.map Consumer.id).Nodup) {c : Consumer}
    (hc : c ∈ cs) (p : Partition) :
    (cs.flatMap fun d => (a.give c.id topic p).of d.id topic).Perm
      (p :: cs.flatMap fun d => a.of d.id topic) := by
  induction cs with
  | nil => cases hc
  | cons d ds ih =>
    rw [List.map_cons, List.nodup_cons] at hn
    simp only [List.flatMap_cons]
    by_cases hd : c.id = d.id
    · have hrest : (ds.flatMap fun e => (a.give c.id topic p).of e.id topic) =
          ds.flatMap fun e => a.of e.id topic := by
        refine List.flatMap_congr fun e he => ?_
        have hne : c.id ≠ e.id := fun e' => hn.1 (List.mem_map.mpr ⟨e, he, by rw [← e', hd]⟩)
        simp [of_give, hne]
      rw [hrest, of_give, if_pos ⟨hd, rfl⟩, hd, List.append_assoc, List.singleton_append]
      exact List.perm_middle
    · have hmem : c ∈ ds := (List.mem_cons.mp hc).resolve_left fun e => hd (congrArg _ e)
      rw [of_give, if_neg fun h => hd h.1]
      exact ((ih hn.2 hmem).append_left _).trans List.perm_middle

theorem of_dealOne_of_ne {cs : List Consumer} {p : Partition} {s : String} (hs : s ≠ topic)
    (c : String) : (dealOne topic cs a p).of c s = a.of c s := by
  unfold dealOne
  split
  · simp [of_give, Ne.symm hs]
  · rfl

theorem contains_dealOne {cs : List Consumer} {p : Partition} {c : String}
    (h : (dealOne topic cs a p).contains c = true) :
    a.contains c = true ∨ c ∈ cs.map Consumer.id := by
  unfold dealOne at h
  split at h
  · rename_i d hd
    rw [contains_give, Bool.or_eq_true, decide_eq_true_eq] at h
    rcases h with rfl | h
    · exact .inr (List.mem_map_of_mem (leastBurdened_mem hd).1)
    · exact .inl h
  · exact .inl h

/-! ## One topic -/

/-- Dealing partitions out adds those within reach to what the candidates have together. -/
theorem flatMap_of_deal_perm (topic : String) {cs : List Consumer}
    (hn : (cs.map Consumer.id).Nodup) (ps : List Partition) (a : Assignment) :
    (cs.flatMap fun c => (ps.foldl (dealOne topic cs) a).of c.id topic).Perm
      ((cs.flatMap fun c => a.of c.id topic) ++
        ps.filter fun p => cs.any fun c => c.canReach p.broker) := by
  induction ps generalizing a with
  | nil => simp
  | cons p ps ih =>
    rw [List.foldl_cons]
    refine (ih (dealOne topic cs a p)).trans ?_
    unfold dealOne
    cases h : leastBurdened a topic p.broker cs with
    | some c =>
      obtain ⟨hc, hr⟩ := leastBurdened_mem h
      have hany : (cs.any fun c => c.canReach p.broker) = true := List.any_eq_true.mpr ⟨c, hc, hr⟩
      rw [List.filter_cons, if_pos hany]
      exact ((flatMap_of_give_perm hn hc p).append_right _).trans List.perm_middle.symm
    | none =>
      rw [List.filter_cons, if_neg (by simp [leastBurdened_eq_none h])]

theorem canReach_of_deal {cs : List Consumer} (ps : List Partition) (a : Assignment)
    (ha : ∀ c ∈ cs, ∀ p ∈ a.of c.id topic, c.canReach p.broker = true)
    (hn : (cs.map Consumer.id).Nodup) : ∀ c ∈ cs,
    ∀ p ∈ (ps.foldl (dealOne topic cs) a).of c.id topic, c.canReach p.broker = true := by
  induction ps generalizing a with
  | nil => exact ha
  | cons p ps ih =>
    refine ih (dealOne topic cs a p) fun c hc q hq => ?_
    unfold dealOne at hq
    split at hq
    · rename_i d hd
      obtain ⟨hdc, hr⟩ := leastBurdened_mem hd
      rw [of_give] at hq
      split at hq
      · rename_i he
        have hcd : d = c := List.inj_on_of_nodup_map hn hdc hc he.1
        subst hcd
        rcases List.mem_append.mp hq with hq | hq
        · exact ha d hc q hq
        · rw [List.mem_singleton.mp hq]
          exact hr
      · exact ha c hc q hq
    · exact ha c hc q hq

theorem of_deal_of_not_candidate {cs : List Consumer} (ps : List Partition) (a : Assignment)
    {id : String} (hid : id ∉ cs.map Consumer.id) :
    (ps.foldl (dealOne topic cs) a).of id topic = a.of id topic := by
  induction ps generalizing a with
  | nil => rfl
  | cons p ps ih =>
    rw [List.foldl_cons, ih]
    unfold dealOne
    split
    · rename_i d hd
      have hne : d.id ≠ id := fun e => hid (e ▸ List.mem_map_of_mem (leastBurdened_mem hd).1)
      simp [of_give, hne]
    · rfl

theorem of_dealTopic_of_ne (a : Assignment) (t s : String) (hs : s ≠ t) (c : String) :
    (dealTopic g a t).of c s = a.of c s := by
  unfold dealTopic
  generalize g.partitionsOf t = ps
  induction ps generalizing a with
  | nil => rfl
  | cons p ps ih => rw [List.foldl_cons, ih, of_dealOne_of_ne hs]

theorem dealTopic_shares (hn : g.ids.Nodup) (topic : String) {a : Assignment}
    (ha : ∀ c, a.of c topic = []) : Shares g topic (dealTopic g a topic) where
  perm := by
    have h := flatMap_of_deal_perm topic (GroupView.nodup_candidates hn topic)
      (g.partitionsOf topic) a
    have hnil : ((g.candidates topic).flatMap fun c => a.of c.id topic) = [] := by simp [ha]
    rw [hnil, List.nil_append] at h
    exact h
  canReach := canReach_of_deal _ a (by simp [ha]) (GroupView.nodup_candidates hn topic)
  only id hid := by rw [dealTopic, of_deal_of_not_candidate _ a hid, ha]

/-! ## One group -/

/-- Sharing from scratch hands out every topic of a group. -/
theorem freshGroup_shares (hn : g.ids.Nodup) (ht : topic ∈ g.topics) :
    Shares g topic (freshGroup g) := by
  obtain ⟨b, hb, hres⟩ := of_foldl_topics (fun a t s hs c => of_dealTopic_of_ne (g := g) a t s hs c)
    (KeySet.nodup_toList g.topics) (KeySet.mem_toList.mpr ht) (vacant g)
  have hsh := dealTopic_shares hn topic (a := b) fun c => by rw [hb c, of_vacant]
  have hof : ∀ c, (freshGroup g).of c topic = (dealTopic g b topic).of c topic := hres
  exact ⟨by simpa only [hof] using hsh.perm, by simpa only [hof] using hsh.canReach,
    by simpa only [hof] using hsh.only⟩

theorem of_freshGroup_of_not_topic (ht : topic ∉ g.topics) (c : String) :
    (freshGroup g).of c topic = [] := by
  rw [freshGroup, of_foldl_of_not_mem (fun a t s hs c => of_dealTopic_of_ne (g := g) a t s hs c)
    (fun h => ht (KeySet.mem_toList.mp h)), of_vacant]

theorem contains_freshGroup_of_mem_ids {c : String} (h : c ∈ g.ids) :
    (freshGroup g).contains c = true := by
  refine contains_foldl_of (fun a t ha => contains_foldl_of (fun a p ha => ?_) _ ha) _
    (contains_vacant.mpr h)
  unfold dealOne
  split
  · exact contains_give_of ha
  · exact ha

/-- Only members get a target. -/
theorem mem_ids_of_contains_freshGroup {c : String} (h : (freshGroup g).contains c = true) :
    c ∈ g.ids := by
  have hdeal : ∀ a, ∀ t ∈ g.topics.toList, ∀ c, (dealTopic g a t).contains c = true →
      a.contains c = true ∨ c ∈ g.ids := by
    intro a t _ c h
    exact contains_foldl (P := fun c => c ∈ g.ids) (fun a p _ c h => (contains_dealOne h).imp_right
      fun h => (List.filter_sublist.map _).subset h) a h
  rcases contains_foldl hdeal (vacant g) h with h | h
  · exact contains_vacant.mp h
  · exact h

end ClusterMaster.Balance
