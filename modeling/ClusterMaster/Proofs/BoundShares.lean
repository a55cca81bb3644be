import ClusterMaster.Balance.Bound
import ClusterMaster.Proofs.Shares

/-!
# Serving declarations gives nothing twice

Members of a bound group are served one after the other, and a partition that is gone is not given
again. So each partition goes to one member at most, and everything that is given is on offer.

    p ∈ (boundGroup offsets current g).of c topic → q ∈ (boundGroup offsets current g).of d topic →
      p.key = q.key → c = d                                                (boundGroup_exclusive)
-/

namespace ClusterMaster.Balance

open Assignment

variable {g : GroupView} {topic : String} {offsets : Offsets} {current : Holdings}

@[simp] theorem key_withStart {group t key : String} {c : Consumer} {offset : Int} {p : Partition} :
    (withStart offsets current group c t key offset p).key = p.key := by
  unfold withStart
  simp only []
  split <;> rfl

@[simp] theorem topic_withStart {group t key : String} {c : Consumer} {offset : Int} {p : Partition} :
    (withStart offsets current group c t key offset p).topic = p.topic := by
  unfold withStart
  simp only []
  split <;> rfl

/-- What has been given of a topic so far: all of it is taken, on offer, and given once. -/
structure Served (g : GroupView) (topic : String) (a : Assignment) (gone : NameSet) : Prop where
  gone : ∀ c, ∀ p ∈ a.of c topic, p.key ∈ gone
  offered : ∀ c, ∀ p ∈ a.of c topic, ∃ q ∈ g.partitionsOf topic, q.key = p.key ∧ q.topic = p.topic
  once : ∀ c d, ∀ p ∈ a.of c topic, ∀ q ∈ a.of d topic, p.key = q.key → c = d

/-- Serving one declaration. -/
theorem Served.serveOne {state : Assignment × NameSet} (h : Served g topic state.1 state.2)
    (c : Consumer) (want : String × Int) :
    Served g topic (serveOne (g.eligible topic) g.name topic offsets current c state want).1
      (serveOne (g.eligible topic) g.name topic offsets current c state want).2 := by
  unfold Balance.serveOne
  split
  · exact h
  · rename_i p hp
    obtain ⟨q, hq, heq⟩ := List.mem_map.mp (Table.mem_of_get?_ofList hp)
    obtain ⟨hkey, rfl⟩ := Prod.mk.inj heq
    split
    · rename_i hfree
      have hnew : ∀ d, ∀ r ∈ state.1.of d topic, r.key ≠ want.1 := fun d r hr e =>
        hfree.2 (e ▸ h.gone d r hr)
      have hmem : ∀ d r, r ∈ (state.1.give c.id topic
          (withStart offsets current g.name c topic want.1 want.2 q)).of d topic →
          r ∈ state.1.of d topic ∨
            d = c.id ∧ r = withStart offsets current g.name c topic want.1 want.2 q := by
        intro d r hr
        rw [of_give] at hr
        split at hr
        · rename_i hd
          obtain ⟨rfl, -⟩ := hd
          rcases List.mem_append.mp hr with hr | hr
          · exact .inl hr
          · exact .inr ⟨rfl, List.mem_singleton.mp hr⟩
        · exact .inl hr
      refine ⟨fun d r hr => ?_, fun d r hr => ?_, fun d e r hr s hs hrs => ?_⟩
      · rcases hmem d r hr with hr | ⟨rfl, rfl⟩
        · exact KeySet.mem_insert.mpr (.inr (h.gone d r hr))
        · rw [key_withStart, hkey]
          exact KeySet.mem_insert.mpr (.inl rfl)
      · rcases hmem d r hr with hr | ⟨rfl, rfl⟩
        · exact h.offered d r hr
        · exact ⟨q, hq, by simp⟩
      · rcases hmem d r hr with hr | ⟨rfl, rfl⟩
        · rcases hmem e s hs with hs | ⟨rfl, rfl⟩
          · exact h.once d e r hr s hs hrs
          · exact absurd (hrs.trans (key_withStart.trans hkey)) (hnew d r hr)
        · rcases hmem e s hs with hs | ⟨rfl, rfl⟩
          · exact absurd (hrs.symm.trans (key_withStart.trans hkey)) (hnew e s hs)
          · rfl
    · exact h

variable (g offsets current)

/-- A property that serving one declaration keeps is kept by serving a topic. -/
theorem serveTopic_induction (topic : String) {p : Assignment × NameSet → Prop} {a : Assignment}
    (ha : p (a, KeySet.empty))
    (hstep : ∀ c ∈ g.candidates topic, ∀ state want, p state →
      p (serveOne (g.eligible topic) g.name topic offsets current c state want)) :
    ∃ gone, p (serveTopic g offsets current a topic, gone) := by
  have hserve : ∀ (cs : List Consumer), cs ⊆ g.candidates topic → ∀ state, p state →
      p (cs.foldl (fun state c => c.requiredPartitions.entries.foldl
        (serveOne (g.eligible topic) g.name topic offsets current c) state) state) := by
    intro cs
    induction cs with
    | nil => exact fun _ _ h => h
    | cons c cs ih =>
      intro hcs state h
      rw [List.foldl_cons]
      refine ih (fun x hx => hcs (List.mem_cons_of_mem _ hx)) _ ?_
      generalize c.requiredPartitions.entries = wants
      induction wants generalizing state with
      | nil => exact h
      | cons want wants ihw => exact ihw _ (hstep c (hcs List.mem_cons_self) state want h)
  exact ⟨_, hserve _ (fun _ h => h) (a, KeySet.empty) ha⟩

/-- Serving all declarations for one topic. -/
theorem Served.serveTopic (topic : String) {a : Assignment} (ha : ∀ c, a.of c topic = []) :
    ∃ gone, Served g topic (serveTopic g offsets current a topic) gone := by
  refine serveTopic_induction g offsets current topic
    (p := fun state => Served g topic state.1 state.2) ?_
    fun c _ _ want h => h.serveOne c want
  refine ⟨fun c p hp => ?_, fun c p hp => ?_, fun c d p hp => ?_⟩ <;>
    · rw [ha] at hp
      cases hp

variable {g offsets current}

theorem of_serveOne_of_ne {state : Assignment × NameSet} {c : Consumer} {want : String × Int}
    {s d : String} (hs : s ≠ topic) :
    (serveOne (g.eligible topic) g.name topic offsets current c state want).1.of d s =
      state.1.of d s := by
  unfold serveOne
  split
  · rfl
  · split
    · rw [of_give, if_neg fun h => hs h.2.symm]
    · rfl

theorem contains_serveOne {state : Assignment × NameSet} {c : Consumer} {want : String × Int}
    {d : String} (h :
      (serveOne (g.eligible topic) g.name topic offsets current c state want).1.contains d = true) :
    state.1.contains d = true ∨ d = c.id := by
  unfold serveOne at h
  split at h
  · exact .inl h
  · split at h
    · rw [contains_give, Bool.or_eq_true, decide_eq_true_eq] at h
      exact h.symm.imp_right Eq.symm
    · exact .inl h

theorem contains_serveOne_of {state : Assignment × NameSet} {c : Consumer} {want : String × Int}
    {d : String} (h : state.1.contains d = true) :
    (serveOne (g.eligible topic) g.name topic offsets current c state want).1.contains d = true := by
  unfold serveOne
  split
  · exact h
  · split
    · exact contains_give_of h
    · exact h

variable (g offsets current) in
theorem of_serveTopic_of_ne (a : Assignment) (t s : String) (hs : s ≠ t) (c : String) :
    (serveTopic g offsets current a t).of c s = a.of c s := by
  obtain ⟨gone, h⟩ := serveTopic_induction g offsets current t
    (p := fun state => state.1.of c s = a.of c s) rfl
    fun _ _ _ _ h => (of_serveOne_of_ne hs).trans h
  exact h

theorem contains_boundGroup_of_mem_ids {c : String} (h : c ∈ g.ids) :
    (boundGroup offsets current g).contains c = true := by
  refine contains_foldl_of (fun a t ha => ?_) _ (contains_vacant.mpr h)
  obtain ⟨gone, hserved⟩ := serveTopic_induction g offsets current t
    (p := fun state => state.1.contains c = true) ha
    fun _ _ _ _ h => contains_serveOne_of h
  exact hserved

/-- Only members get a target. -/
theorem mem_ids_of_contains_boundGroup {c : String}
    (h : (boundGroup offsets current g).contains c = true) : c ∈ g.ids := by
  have hstep : ∀ a, ∀ t ∈ g.topics.toList, ∀ c,
      (serveTopic g offsets current a t).contains c = true → a.contains c = true ∨ c ∈ g.ids := by
    intro a t _
    have hserve : ∀ d ∈ g.candidates t, ∀ state want,
        (∀ c, state.1.contains c = true → a.contains c = true ∨ c ∈ g.ids) →
        ∀ c, (serveOne (g.eligible t) g.name t offsets current d state want).1.contains c = true →
          a.contains c = true ∨ c ∈ g.ids := by
      intro d hd state want ih c hc
      rcases contains_serveOne hc with hc | rfl
      · exact ih c hc
      · exact .inr (List.mem_map_of_mem (List.mem_of_mem_filter hd))
    obtain ⟨gone, hserved⟩ := serveTopic_induction g offsets current t
      (p := fun state => ∀ c, state.1.contains c = true → a.contains c = true ∨ c ∈ g.ids)
      (fun c hc => .inl hc) hserve
    exact hserved
  rcases contains_foldl hstep (vacant g) h with h | h
  · exact contains_vacant.mp h
  · exact h

theorem of_boundGroup_of_not_topic (ht : topic ∉ g.topics) (c : String) :
    (boundGroup offsets current g).of c topic = [] := by
  rw [boundGroup, of_foldl_of_not_mem
    (of_serveTopic_of_ne g offsets current)
    (fun h => ht (KeySet.mem_toList.mp h)), of_vacant]

variable (g topic offsets current) in
/-- What a bound group is given of a topic. -/
theorem boundGroup_served : ∃ gone, Served g topic (boundGroup offsets current g) gone := by
  by_cases ht : topic ∈ g.topics
  · obtain ⟨b, hb, hres⟩ := of_foldl_topics
      (of_serveTopic_of_ne g offsets current) (KeySet.nodup_toList g.topics)
      (KeySet.mem_toList.mpr ht) (vacant g)
    obtain ⟨gone, h⟩ := Served.serveTopic g offsets current topic (a := b)
      fun c => by rw [hb, of_vacant]
    have hof : ∀ c, (boundGroup offsets current g).of c topic =
        (serveTopic g offsets current b topic).of c topic := hres
    refine ⟨gone, ?_, ?_, ?_⟩
    · simpa only [hof] using h.gone
    · simpa only [hof] using h.offered
    · simpa only [hof] using h.once
  · refine ⟨KeySet.empty, ?_, ?_, ?_⟩ <;> simp [of_boundGroup_of_not_topic ht]

/-- Two members of a bound group never get partitions with one key. -/
theorem boundGroup_exclusive {c d : String} {p q : Partition}
    (hp : p ∈ (boundGroup offsets current g).of c topic)
    (hq : q ∈ (boundGroup offsets current g).of d topic) (h : p.key = q.key) : c = d := by
  obtain ⟨gone, hs⟩ := boundGroup_served g topic offsets current
  exact hs.once c d p hp q hq h

end ClusterMaster.Balance
