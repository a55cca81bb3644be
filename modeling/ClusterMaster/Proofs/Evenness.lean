import ClusterMaster.Proofs.Coverage

/-!
# Sharing from scratch is even

The next partition of a topic goes to a candidate that has no more of the topic than any other
candidate within reach, and no more in total than those who have as many of the topic. Hence two
things are kept by every partition dealt: of a topic nobody has more than one partition beyond
somebody who could read all it has (`EvenlyDealt`), and where everybody reaches everything, the
totals stay level too. The reason for the latter is that whoever is ahead in the topic at hand is
not behind in total (`Level`), so the next one served brings nobody more than one beyond another.

    EvenlyDealt, for every topic; and totals within one of each other,
      where all subscribe to all topics and reach all partitions               (fresh_even)
-/

namespace ClusterMaster

/-! ## Counting what is given -/

theorem Table.length_flatten_insertInto {κ ν : Type} [Key κ] [DecidableEq κ] {k : κ} {v : List ν}
    {l : List (κ × List ν)} (h : l.Pairwise fun a b => Key.before a.1 b.1 = true) :
    ((insertInto k v l).map Prod.snd).flatten.length + ((lookupIn k l).getD []).length =
      (l.map Prod.snd).flatten.length + v.length := by
  induction l with
  | nil => simp [insertInto, lookupIn]
  | cons e es ih =>
    have hes := (List.pairwise_cons.mp h).2
    unfold insertInto
    split
    · -- the key comes before all that are there
      rename_i hk
      have hnone : lookupIn k (e :: es) = none := by
        refine Option.eq_none_iff_forall_not_mem.mpr fun w hw => ?_
        rcases List.mem_cons.mp ((lookupIn_eq_some_iff h).mp hw) with he | he
        · exact absurd (congrArg Prod.fst he) (Key.ne_of_before hk)
        · have hlt := Key.before_trans hk ((List.pairwise_cons.mp h).1 _ he)
          exact absurd rfl (Key.ne_of_before hlt)
      simp [hnone]
      omega
    · split
      · rename_i he
        have hne : e.1 ≠ k := Key.ne_of_before he
        have ih := ih hes
        simp only [lookupIn, if_neg hne, List.map_cons, List.flatten_cons, List.length_append]
        omega
      · rename_i h₁ h₂
        have hk : k = e.1 := Key.eq_of_not_before (by simpa using h₁) (by simpa using h₂)
        simp only [lookupIn, if_pos hk.symm, List.map_cons, List.flatten_cons, List.length_append,
          Option.getD_some]
        omega

namespace Assignment

variable {a : Assignment} {c d topic : String} {p : Partition}

theorem load_give : (a.give c topic p).load d = a.load d + if c = d then 1 else 0 := by
  unfold load give
  rw [Table.getD, Table.get?_insert]
  by_cases hc : c = d
  · subst hc
    have h := Table.length_flatten_insertInto (k := topic)
      (v := (a.getD c Table.empty).getD topic [] ++ [p]) (a.getD c Table.empty).ascending
    rw [List.length_append, Table.getD, Table.get?] at h
    simp only [if_pos, Option.getD_some]
    change ((Table.insertInto _ _ _).map Prod.snd).flatten.length = _
    simp only [Table.values, Table.getD, Table.get?, List.length_singleton] at h ⊢
    omega
  · simp [hc, Table.getD]

theorem length_of_give :
    ((a.give c topic p).of d topic).length = (a.of d topic).length + if c = d then 1 else 0 := by
  rw [of_give]
  by_cases hc : c = d
  · subst hc
    simp
  · simp [hc]

theorem load_congr {b : Assignment} (h : a.get? c = b.get? c) : a.load c = b.load c := by
  unfold load Table.getD
  rw [h]

theorem load_eq_zero (h : ∀ t, a.of c t = []) : a.load c = 0 := by
  rw [load, List.length_eq_zero_iff, List.flatten_eq_nil_iff]
  intro ps hps
  obtain ⟨e, he, rfl⟩ := List.mem_map.mp hps
  have hof := h e.1
  rwa [of, Table.getD, Table.mem_entries_iff.mp he, Option.getD_some] at hof

end Assignment

namespace Balance

variable {g : GroupView} {topic : String} {a b : Assignment} {cs : List Consumer}

/-! ## One partition -/

theorem le_of_not_before {x y : Nat × Nat × String} (h : Key.before y x = false) :
    x.1 < y.1 ∨ x.1 = y.1 ∧ x.2.1 ≤ y.2.1 := by
  simp only [Key.before, Bool.or_eq_false_iff, Bool.and_eq_false_imp, decide_eq_true_eq,
    decide_eq_false_iff_not] at h
  by_cases heq : y.1 = x.1
  · have := (h.2 heq).1
    omega
  · omega

/-- Who is served has no more of the topic than anybody else within reach, and no more in total
than those who have as many of the topic. -/
theorem burden_of_leastBurdened {b : Broker} {c d : Consumer}
    (h : leastBurdened a topic b cs = some c) (hd : d ∈ cs) (hr : d.canReach b = true) :
    (a.of c.id topic).length < (a.of d.id topic).length ∨
      (a.of c.id topic).length = (a.of d.id topic).length ∧ a.load c.id ≤ a.load d.id := by
  have hpick : pick? (fun c d => Key.before (burden a topic c) (burden a topic d))
      (cs.filter fun c => c.canReach b) = some c := h
  have hnot : Key.before (burden a topic d) (burden a topic c) = false := by
    refine not_ahead_of_pick? ?_ ?_ ?_ hpick d (List.mem_filter.mpr ⟨hd, hr⟩)
    · exact fun _ => Key.before_irrefl _
    · exact fun _ _ _ => Key.before_trans
    · exact fun _ _ _ => Key.not_before_trans
  exact le_of_not_before hnot

/-- Who can reach all that another one has of the topic has at most one partition less. -/
def EvenlyDealt (topic : String) (cs : List Consumer) (a : Assignment) : Prop :=
  ∀ c ∈ cs, ∀ d ∈ cs, (∀ p ∈ a.of c.id topic, d.canReach p.broker = true) →
    (a.of c.id topic).length ≤ (a.of d.id topic).length + 1

theorem EvenlyDealt.congr (h : EvenlyDealt topic cs a)
    (hof : ∀ c ∈ cs, b.of c.id topic = a.of c.id topic) : EvenlyDealt topic cs b := by
  intro c hc d hd hreach
  rw [hof c hc] at hreach ⊢
  rw [hof d hd]
  exact h c hc d hd hreach

theorem evenlyDealt_of_nil (h : ∀ c ∈ cs, a.of c.id topic = []) : EvenlyDealt topic cs a := by
  intro c hc d _ _
  simp [h c hc]

theorem EvenlyDealt.dealOne (h : EvenlyDealt topic cs a) (p : Partition) :
    EvenlyDealt topic cs (dealOne topic cs a p) := by
  unfold Balance.dealOne
  split
  · rename_i e he
    intro c hc d hd hreach
    rw [Assignment.length_of_give, Assignment.length_of_give]
    rw [Assignment.of_give] at hreach
    by_cases hid : e.id = c.id
    · -- the other one could have been served as well
      rw [if_pos ⟨hid, rfl⟩] at hreach
      have hle := burden_of_leastBurdened he hd (hreach p (by simp))
      rw [hid] at hle
      rw [if_pos hid]
      omega
    · rw [if_neg fun e => hid e.1] at hreach
      have := h c hc d hd hreach
      rw [if_neg hid]
      omega
  · exact h

/-- A consumer is level with another one: it has at most one partition more, of the topic at hand
and in total, and when it is ahead in the topic it is not behind in total. -/
structure LevelWith (topic : String) (a : Assignment) (c d : Consumer) : Prop where
  total : a.load c.id ≤ a.load d.id + 1
  count : (a.of c.id topic).length ≤ (a.of d.id topic).length + 1
  ahead : (a.of d.id topic).length < (a.of c.id topic).length → a.load d.id ≤ a.load c.id

/-- All candidates are level with each other. -/
def Level (topic : String) (cs : List Consumer) (a : Assignment) : Prop :=
  ∀ c ∈ cs, ∀ d ∈ cs, LevelWith topic a c d

theorem Level.dealOne (h : Level topic cs a) (hn : (cs.map Consumer.id).Nodup) {p : Partition}
    (hreach : ∀ c ∈ cs, c.canReach p.broker = true) : Level topic cs (dealOne topic cs a p) := by
  unfold Balance.dealOne
  split
  · rename_i e he
    have hmem : e ∈ cs := (leastBurdened_mem he).1
    have hserved : ∀ c ∈ cs, e.id = c.id ↔ e = c :=
      fun c hc => ⟨fun hid => List.inj_on_of_nodup_map hn hmem hc hid, congrArg _⟩
    intro c hc d hd
    obtain ⟨htotal, hcount, hahead⟩ := h c hc d hd
    have hback := (h d hd c hc).total
    have hbehind := (h d hd e hmem).ahead
    have hleast := burden_of_leastBurdened he hd (hreach d hd)
    by_cases hec : e = c
    · subst hec
      by_cases hed : e = d
      · -- served or not, everybody is level with itself
        subst hed
        exact ⟨by omega, by omega, fun hlt => absurd hlt (lt_irrefl _)⟩
      · constructor <;>
          simp only [Assignment.load_give, Assignment.length_of_give, hserved d hd, if_neg hed,
            if_pos] <;> omega
    · by_cases hed : e = d
      · subst hed
        constructor <;>
          simp only [Assignment.load_give, Assignment.length_of_give, hserved c hc, if_neg hec,
            if_pos] <;> omega
      · constructor <;>
          simp only [Assignment.load_give, Assignment.length_of_give, hserved c hc, hserved d hd,
            if_neg hec, if_neg hed] <;> omega
  · exact h

/-! ## One group -/

/-- Every topic of a group is evenly dealt. -/
theorem freshGroup_evenlyDealt (topic : String) :
    EvenlyDealt topic (g.candidates topic) (freshGroup g) := by
  by_cases ht : topic ∈ g.topics
  · obtain ⟨b, hb, hres⟩ := Assignment.of_foldl_topics
      (fun a t s hs c => of_dealTopic_of_ne (g := g) a t s hs c)
      (KeySet.nodup_toList g.topics) (KeySet.mem_toList.mpr ht) (Assignment.vacant g)
    have hdealt : EvenlyDealt topic (g.candidates topic) (dealTopic g b topic) :=
      List.foldlRecOn _ _ (evenlyDealt_of_nil fun c _ => by rw [hb, Assignment.of_vacant])
        fun a h p _ => h.dealOne p
    exact hdealt.congr fun c _ => hres c.id
  · exact evenlyDealt_of_nil fun c _ => of_freshGroup_of_not_topic ht c.id

/-- Dealing a topic out of which nothing is given yet keeps the totals level. -/
theorem totals_dealTopic (hn : g.ids.Nodup) (hall : g.candidates topic = g.members)
    (hreach : ∀ c ∈ g.members, ∀ p ∈ g.partitionsOf topic, c.canReach p.broker = true)
    (hempty : ∀ id, a.of id topic = [])
    (h : ∀ c ∈ g.members, ∀ d ∈ g.members, a.load c.id ≤ a.load d.id + 1) :
    ∀ c ∈ g.members, ∀ d ∈ g.members,
      (dealTopic g a topic).load c.id ≤ (dealTopic g a topic).load d.id + 1 := by
  have hstart : Level topic g.members a :=
    fun c hc d hd => ⟨h c hc d hd, by simp [hempty], by simp [hempty]⟩
  have hlevel : Level topic g.members (dealTopic g a topic) := by
    unfold dealTopic
    rw [hall]
    exact List.foldlRecOn _ _ hstart fun a h p hp => h.dealOne hn fun c hc => hreach c hc p hp
  exact fun c hc d hd => (hlevel c hc d hd).total

/-- Where everybody subscribes to everything and reaches it, the totals are level. -/
theorem freshGroup_level (hn : g.ids.Nodup)
    (hall : ∀ t ∈ g.topics, ∀ c ∈ g.members, c.isSubscribed t = true ∧
      ∀ p ∈ g.partitionsOf t, c.canReach p.broker = true) :
    ∀ c ∈ g.members, ∀ d ∈ g.members,
      (freshGroup g).load c.id ≤ (freshGroup g).load d.id + 1 := by
  have main : ∀ (ts : List String) (a : Assignment), ts ⊆ g.topics.toList → ts.Nodup →
      (∀ t ∈ ts, ∀ id, a.of id t = []) →
      (∀ c ∈ g.members, ∀ d ∈ g.members, a.load c.id ≤ a.load d.id + 1) →
      ∀ c ∈ g.members, ∀ d ∈ g.members,
        (ts.foldl (dealTopic g) a).load c.id ≤ (ts.foldl (dealTopic g) a).load d.id + 1 := by
    intro ts
    induction ts with
    | nil => exact fun a _ _ _ h => h
    | cons t ts ih =>
      intro a hts hnts hempty h
      obtain ⟨ht, hnts⟩ := List.nodup_cons.mp hnts
      have htopic := hall t (hts List.mem_cons_self)
      refine ih _ (fun s hs => hts (List.mem_cons_of_mem _ hs)) hnts ?_ ?_
      · intro s hs id
        have hne : s ≠ t := fun e => ht (e ▸ hs)
        rw [of_dealTopic_of_ne a t s hne, hempty s (List.mem_cons_of_mem _ hs)]
      · exact totals_dealTopic hn (List.filter_eq_self.mpr fun c hc => (htopic c hc).1)
          (fun c hc => (htopic c hc).2) (hempty t List.mem_cons_self) h
  exact main _ _ (List.Subset.refl _) (KeySet.nodup_toList _) (fun t _ id => Assignment.of_vacant)
    fun c _ d _ => by simp [Assignment.load_eq_zero fun t => Assignment.of_vacant]

/-! ## All groups -/

/-- Sharing from scratch is even, topic by topic as far as reach allows, and in total where
everybody subscribes to everything and reaches it. -/
theorem fresh_even {rate : UInt32} {gs : List GroupView} (hn : GroupView.DistinctMembers gs)
    (hg : g ∈ gs) (hfree : g.IsFree rate) :
    (∀ topic, EvenlyDealt topic (g.candidates topic) (fresh rate gs)) ∧
    ((∀ topic ∈ g.topics, ∀ c ∈ g.members, c.isSubscribed topic = true ∧
        ∀ p ∈ g.partitionsOf topic, c.canReach p.broker = true) →
      ∀ c ∈ g.members, ∀ d ∈ g.members,
        (fresh rate gs).load c.id ≤ (fresh rate gs).load d.id + 1) := by
  have hget : ∀ c ∈ g.members, (fresh rate gs).get? c.id = (freshGroup g).get? c.id :=
    fun c hc => get?_fresh hn hg hfree hc
  constructor
  · intro topic
    exact (freshGroup_evenlyDealt topic).congr fun c hc =>
      Assignment.of_congr (hget c (List.mem_of_mem_filter hc))
  · intro hall c hc d hd
    rw [Assignment.load_congr (hget c hc), Assignment.load_congr (hget d hd)]
    exact freshGroup_level (hn.nodup hg) hall c hc d hd

/-- Three plain members share two topics, of four partitions and of one. -/
def trio : GroupView where
  name := "g"
  members := ["a", "b", "c"].map fun id =>
    { id, group := "g", host := "h", topics := KeySet.ofList ["t", "u"] }
  topics := KeySet.ofList ["t", "u"]
  partitions := Table.ofList [("t", [0, 1, 2, 3].map (place "t")), ("u", [place "u" 0])]
where
  place (topic : String) (number : Nat) : Partition :=
    { broker := { id := 1, host := "h", port := 1 }, topic, number }

/-- The fifth partition goes to one of the two that have one so far. -/
theorem trio_even : GroupView.DistinctMembers [trio] ∧ trio.IsFree 0 ∧
    (∀ topic ∈ trio.topics, ∀ c ∈ trio.members, c.isSubscribed topic = true ∧
      ∀ p ∈ trio.partitionsOf topic, c.canReach p.broker = true) ∧
    (∀ topic, EvenlyDealt topic (trio.candidates topic) (fresh 0 [trio])) ∧
    ∀ c ∈ trio.members, ∀ d ∈ trio.members,
      (fresh 0 [trio]).load c.id ≤ (fresh 0 [trio]).load d.id + 1 := by
  have hn : GroupView.DistinctMembers [trio] := by decide
  have hfree : trio.IsFree 0 := by decide
  have hall : ∀ topic ∈ trio.topics, ∀ c ∈ trio.members, c.isSubscribed topic = true ∧
      ∀ p ∈ trio.partitionsOf topic, c.canReach p.broker = true := by decide
  have heven := fresh_even hn List.mem_cons_self hfree
  exact ⟨hn, hfree, hall, heven.1, heven.2 hall⟩

end Balance

end ClusterMaster
