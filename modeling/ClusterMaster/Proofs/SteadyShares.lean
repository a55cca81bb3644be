import ClusterMaster.Balance.Steady
import ClusterMaster.Proofs.Holdings
import ClusterMaster.Proofs.Shares

/-!
# Sharing evenly hands everything out

The candidates keep different partitions of what is on offer, each within its reach. Dealing one
of the others out adds it to one seat that can reach it, or drops it when there is none, so in the
end the seats have, together, each reachable partition once. What a seat has is what its member is
given, in ascending key order.

    DistinctMembers gs → g ∈ gs → topic ∈ g.topics → Shares g topic (steadyGroup current g)
                                                                            (steadyGroup_shares)
-/

namespace ClusterMaster

/-! ## Partitions on offer -/

section Eligible

variable {g : GroupView} {topic key : String} {p : Partition}

theorem mem_partitionsOf_of_eligible (h : (g.eligible topic).get? key = some p) :
    p ∈ g.partitionsOf topic ∧ p.key = key := by
  obtain ⟨q, hq, e⟩ := List.mem_map.mp (Table.mem_of_get?_ofList h)
  obtain ⟨rfl, rfl⟩ := Prod.mk.inj e
  exact ⟨hq, rfl⟩

theorem eligible_get?_iff (hk : ((g.partitionsOf topic).map Partition.key).Nodup) :
    (g.eligible topic).get? key = some p ↔ p ∈ g.partitionsOf topic ∧ p.key = key := by
  refine ⟨mem_partitionsOf_of_eligible, ?_⟩
  rintro ⟨hp, rfl⟩
  have hn : (((g.partitionsOf topic).map fun p => (p.key, p)).map Prod.fst).Nodup := by
    rw [List.map_map]
    exact hk
  exact (Table.get?_ofList_of_nodup hn).mpr (List.mem_map.mpr ⟨p, hp, rfl⟩)

end Eligible

/-- A consumer holds something that is filed under a topic and a key. -/
def Holdings.holds (current : Holdings) (consumer topic key : String) : Bool :=
  (current.getD consumer Table.empty).contains (topic, key)

namespace Balance

variable {parts : Table String Partition} {current : Holdings} {topic : String}

/-! ## Claims -/

theorem mem_stillHeld {c : Consumer} {k : String} :
    k ∈ stillHeld parts current topic c ↔ current.holds c.id topic k = true ∧
      ∃ p, parts.get? k = some p ∧ c.canReach p.broker = true := by
  unfold stillHeld
  rw [List.mem_filter, Holding.mem_keysOf, Option.any_eq_true]
  rfl

theorem nodup_stillHeld {c : Consumer} : (stillHeld parts current topic c).Nodup :=
  Holding.nodup_keysOf.filter _

theorem length_claims {taken : NameSet} {cs : List Consumer} :
    (claims parts current topic taken cs).length = cs.length := by
  induction cs generalizing taken with
  | nil => rfl
  | cons c cs ih => simp [claims, ih]

theorem not_mem_taken_of_claims {taken : NameSet} {cs : List Consumer} {k : String}
    (h : k ∈ (claims parts current topic taken cs).flatten) : k ∉ taken := by
  induction cs generalizing taken with
  | nil => cases h
  | cons c cs ih =>
    rw [claims, List.flatten_cons, List.mem_append] at h
    rcases h with h | h
    · simpa using (List.mem_filter.mp h).2
    · intro hk
      exact ih h (KeySet.mem_insertAll.mpr (.inr hk))

/-- No key counts for two candidates. -/
theorem nodup_claims {taken : NameSet} {cs : List Consumer} :
    (claims parts current topic taken cs).flatten.Nodup := by
  induction cs generalizing taken with
  | nil => exact List.nodup_nil
  | cons c cs ih =>
    rw [claims, List.flatten_cons, List.nodup_append]
    refine ⟨nodup_stillHeld.filter _, ih, ?_⟩
    rintro k hk l hl rfl
    exact not_mem_taken_of_claims hl (KeySet.mem_insertAll.mpr (.inl hk))

theorem canReach_of_claims {taken : NameSet} {cs : List Consumer} {c : Consumer}
    {held : List String} (h : (c, held) ∈ cs.zip (claims parts current topic taken cs)) :
    ∀ k ∈ held, ∃ p, parts.get? k = some p ∧ c.canReach p.broker = true := by
  induction cs generalizing taken with
  | nil => cases h
  | cons d cs ih =>
    rw [claims, List.zip_cons_cons, List.mem_cons] at h
    rcases h with h | h
    · obtain ⟨rfl, rfl⟩ := Prod.mk.inj h
      intro k hk
      exact (mem_stillHeld.mp (List.mem_of_mem_filter hk)).2
    · exact ih h

/-- Where no two candidates hold the same, each of them claims all it holds. -/
theorem claims_eq_map_stillHeld (taken : NameSet) {cs : List Consumer}
    (hdisj : cs.Pairwise fun c d =>
      (stillHeld parts current topic c).Disjoint (stillHeld parts current topic d))
    (htaken : ∀ c ∈ cs, ∀ k ∈ stillHeld parts current topic c, k ∉ taken) :
    claims parts current topic taken cs = cs.map (stillHeld parts current topic) := by
  induction cs generalizing taken with
  | nil => rfl
  | cons c cs ih =>
    obtain ⟨hc, hcs⟩ := List.pairwise_cons.mp hdisj
    have hall : ((stillHeld parts current topic c).filter fun k => decide (k ∉ taken)) =
        stillHeld parts current topic c := by
      refine List.filter_eq_self.mpr fun k hk => ?_
      simpa using htaken c List.mem_cons_self k hk
    rw [claims, hall, List.map_cons]
    refine congrArg _ (ih _ hcs fun d hd k hk hmem => ?_)
    rcases KeySet.mem_insertAll.mp hmem with hmem | hmem
    · exact hc d hd hmem hk
    · exact htaken d (List.mem_cons_of_mem _ hd) k hk hmem

/-! ## Seats -/

/-- The seats have different partitions of those on offer, each within reach of its member. -/
structure Seated (parts : Table String Partition) (seats : List Seat) : Prop where
  nodup : (seats.flatMap Seat.kept).Nodup
  canReach : ∀ s ∈ seats, ∀ k ∈ s.kept,
    ∃ p, parts.get? k = some p ∧ s.member.canReach p.broker = true

theorem length_quotas {total : Nat} {cs : List Consumer} {held : List (List String)} :
    (quotas total cs held).length = cs.length := by
  simp [quotas]

variable (parts current topic) in
theorem map_member_seats (cs : List Consumer) :
    (seats parts current topic cs).map Seat.member = cs := by
  unfold seats
  rw [List.map_map]
  refine List.map_fst_zip ?_
  rw [List.length_zip, length_claims, length_quotas]
  omega

theorem flatMap_take_sublist {α β : Type} {as : List α} {held : List (List β)} {ns : List Nat} :
    ((as.zip (held.zip ns)).flatMap fun e => e.2.1.take e.2.2).Sublist held.flatten := by
  induction held generalizing as ns with
  | nil => simp
  | cons h hs ih =>
    cases as with
    | nil => simp
    | cons a as =>
      cases ns with
      | nil => simp
      | cons n ns => exact (List.take_sublist n h).append ih

/-- Keeping what one validly holds is sound. -/
theorem seats_seated {cs : List Consumer} : Seated parts (seats parts current topic cs) where
  nodup := by
    unfold seats
    rw [List.flatMap_map]
    exact nodup_claims.sublist flatMap_take_sublist
  canReach := by
    intro s hs k hk
    obtain ⟨e, he, rfl⟩ := List.mem_map.mp hs
    have hzip : (e.1, e.2.1) ∈ cs.zip (claims parts current topic KeySet.empty cs) := by
      obtain ⟨i, hi, rfl⟩ := List.getElem_of_mem he
      simp only [List.length_zip, length_claims, length_quotas] at hi
      refine List.mem_iff_getElem.mpr ⟨i, ?_, ?_⟩
      · rw [List.length_zip, length_claims]
        omega
      · simp
    exact canReach_of_claims hzip k (List.mem_of_mem_take hk)

/-! ## Dealing out -/

theorem receiver?_mem {ss : List Seat} {b : Broker} {i : Nat} (h : receiver? ss b = some i) :
    ∃ hi : i < ss.length, ss[i].member.canReach b = true := by
  have hmem : ∀ e ∈ ss.zipIdx.filter fun e => e.1.member.canReach b, ∃ hi : e.2 < ss.length,
      ss[e.2].member.canReach b = true := by
    intro e he
    obtain ⟨hz, hr⟩ := List.mem_filter.mp he
    obtain ⟨hi, hs⟩ := List.mem_zipIdx' hz
    exact ⟨hi, hs ▸ hr⟩
  simp only [receiver?] at h
  split at h
  · rename_i e he
    cases h
    exact hmem e (List.mem_of_mem_filter (pick?_mem he))
  · obtain ⟨e, he, rfl⟩ := Option.map_eq_some_iff.mp h
    exact hmem e (pick?_mem he)

theorem receiver?_eq_none {ss : List Seat} {b : Broker} (h : receiver? ss b = none) :
    ∀ s ∈ ss, s.member.canReach b = false := by
  simp only [receiver?] at h
  split at h
  · cases h
  · rw [Option.map_eq_none_iff, pick?_eq_none_iff, List.filter_eq_nil_iff] at h
    intro s hs
    obtain ⟨i, hi, rfl⟩ := List.getElem_of_mem hs
    simpa using h (ss[i], i) (List.mem_zipIdx_iff_getElem?.mpr (List.getElem?_eq_getElem hi))

/-- Dealing a partition out adds it to what the receiver has, and changes nothing else. -/
theorem getElem?_seatOne {ss : List Seat} {key : String} {p : Partition} {i : Nat} :
    (seatOne ss key p)[i]? = ss[i]?.map fun s =>
      { s with kept := s.kept ++ if receiver? ss p.broker = some i then [key] else [] } := by
  unfold seatOne
  cases receiver? ss p.broker with
  | some j =>
    rw [List.getElem?_modify, Option.map_eq_map]
    by_cases hij : j = i <;> simp [hij]
  | none => simp

/-- Seat by seat, dealing only adds to what is there. -/
theorem exists_getElem?_deal (ss : List Seat) (es : List (String × Partition)) :
    ∃ more : Nat → List String, ∀ i : Nat, (es.foldl (fun ss e => seatOne ss e.1 e.2) ss)[i]? =
      ss[i]?.map fun s => { s with kept := s.kept ++ more i } := by
  induction es generalizing ss with
  | nil => exact ⟨fun _ => [], by simp⟩
  | cons e es ih =>
    obtain ⟨more, hmore⟩ := ih (seatOne ss e.1 e.2)
    refine ⟨fun i => (if receiver? ss e.2.broker = some i then [e.1] else []) ++ more i,
      fun i => ?_⟩
    rw [List.foldl_cons, hmore, getElem?_seatOne, Option.map_map]
    simp only [Function.comp_def, List.append_assoc]

theorem map_seatOne {β : Type} {f : Seat → β} (hf : ∀ s kept, f { s with kept } = f s)
    {ss : List Seat} {key : String} {p : Partition} : (seatOne ss key p).map f = ss.map f := by
  refine List.ext_getElem? fun i => ?_
  rw [List.getElem?_map, List.getElem?_map, getElem?_seatOne, Option.map_map]
  exact congrArg (Option.map · ss[i]?) (funext fun s => hf s _)

theorem map_deal {β : Type} {f : Seat → β} (hf : ∀ s kept, f { s with kept } = f s)
    {ss : List Seat} {es : List (String × Partition)} :
    (es.foldl (fun ss e => seatOne ss e.1 e.2) ss).map f = ss.map f := by
  induction es generalizing ss with
  | nil => rfl
  | cons e es ih => rw [List.foldl_cons, ih, map_seatOne hf]

theorem map_member_seatOne {ss : List Seat} {key : String} {p : Partition} :
    (seatOne ss key p).map Seat.member = ss.map Seat.member := map_seatOne fun _ _ => rfl

theorem flatMap_kept_modify_perm {ss : List Seat} {i : Nat} (hi : i < ss.length) (key : String) :
    ((ss.modify i fun s => { s with kept := s.kept ++ [key] }).flatMap Seat.kept).Perm
      (key :: ss.flatMap Seat.kept) := by
  induction ss generalizing i with
  | nil => exact absurd hi (Nat.not_lt_zero i)
  | cons s ss ih =>
    cases i with
    | zero =>
      simp only [List.modify_zero_cons, List.flatMap_cons, List.append_assoc,
        List.singleton_append]
      exact List.perm_middle
    | succ i =>
      simp only [List.modify_succ_cons, List.flatMap_cons]
      exact ((ih (Nat.lt_of_succ_lt_succ hi)).append_left _).trans List.perm_middle

/-- Dealing partitions out adds those within reach to what the seats have together. -/
theorem flatMap_kept_deal_perm {ms : List Consumer} (ss : List Seat)
    (hms : ss.map Seat.member = ms) (es : List (String × Partition)) :
    ((es.foldl (fun ss e => seatOne ss e.1 e.2) ss).flatMap Seat.kept).Perm
      (ss.flatMap Seat.kept ++
        (es.filter fun e => ms.any fun c => c.canReach e.2.broker).map Prod.fst) := by
  induction es generalizing ss with
  | nil => simp
  | cons e es ih =>
    rw [List.foldl_cons]
    refine (ih _ (map_member_seatOne.trans hms)).trans ?_
    unfold seatOne
    cases h : receiver? ss e.2.broker with
    | some i =>
      obtain ⟨hi, hr⟩ := receiver?_mem h
      have hany : (ms.any fun c => c.canReach e.2.broker) = true := by
        rw [← hms]
        exact List.any_eq_true.mpr ⟨_, List.mem_map_of_mem (List.getElem_mem hi), hr⟩
      rw [List.filter_cons, if_pos hany, List.map_cons]
      exact ((flatMap_kept_modify_perm hi e.1).append_right _).trans List.perm_middle.symm
    | none =>
      have hany : ¬(ms.any fun c => c.canReach e.2.broker) = true := by
        rw [← hms, List.any_map, List.any_eq_true]
        rintro ⟨s, hs, hr⟩
        rw [Function.comp_apply, receiver?_eq_none h s hs] at hr
        cases hr
      rw [List.filter_cons, if_neg hany]

theorem canReach_deal {ss : List Seat}
    (h : ∀ s ∈ ss, ∀ k ∈ s.kept, ∃ p, parts.get? k = some p ∧ s.member.canReach p.broker = true)
    {es : List (String × Partition)} (hes : ∀ e ∈ es, parts.get? e.1 = some e.2) :
    ∀ s ∈ es.foldl (fun ss e => seatOne ss e.1 e.2) ss, ∀ k ∈ s.kept,
      ∃ p, parts.get? k = some p ∧ s.member.canReach p.broker = true := by
  induction es generalizing ss with
  | nil => exact h
  | cons e es ih =>
    refine ih ?_ fun e' he' => hes e' (List.mem_cons_of_mem _ he')
    intro r hr k hk
    obtain ⟨i, hi⟩ := List.mem_iff_getElem?.mp hr
    rw [getElem?_seatOne] at hi
    obtain ⟨s, hs, rfl⟩ := Option.map_eq_some_iff.mp hi
    rcases List.mem_append.mp hk with hold | hnew
    · exact h s (List.mem_of_getElem? hs) k hold
    · -- the key dealt out, which its receiver can reach
      split at hnew
      · rename_i hreceiver
        obtain ⟨hlt, hreach⟩ := receiver?_mem hreceiver
        obtain rfl : ss[i] = s := Option.some.inj ((List.getElem?_eq_getElem hlt).symm.trans hs)
        rw [List.mem_singleton.mp hnew]
        exact ⟨e.2, hes e List.mem_cons_self, hreach⟩
      · cases hnew

theorem map_member_seatAll {ss : List Seat} :
    (seatAll parts ss).map Seat.member = ss.map Seat.member := map_deal fun _ _ => rfl

/-- What is dealt out is on offer and not kept. -/
theorem mem_unkept {ss : List Seat} {e : String × Partition} :
    e ∈ (parts.filter fun k _ => !(ss.flatMap Seat.kept).contains k).entries ↔
      parts.get? e.1 = some e.2 ∧ e.1 ∉ ss.flatMap Seat.kept := by
  rw [Table.mem_entries_iff, Table.get?_filter, Option.filter_eq_some_iff]
  simp

/-- Dealing out the rest is sound too. -/
theorem Seated.seatAll {ss : List Seat} (h : Seated parts ss) : Seated parts (seatAll parts ss) where
  nodup := by
    have hp := flatMap_kept_deal_perm ss rfl
      (parts.filter fun k _ => !(ss.flatMap Seat.kept).contains k).entries
    refine (hp.nodup_iff).mpr (List.nodup_append.mpr ⟨h.nodup, ?_, ?_⟩)
    · exact (Table.nodup_keys _).sublist (List.filter_sublist.map _)
    · rintro k hk l hl rfl
      obtain ⟨e, he, rfl⟩ := List.mem_map.mp hl
      exact (mem_unkept.mp (List.mem_of_mem_filter he)).2 hk
  canReach := canReach_deal h.canReach fun e he => (mem_unkept.mp he).1

/-- In the end the seats have what is on offer and within reach of one of them. -/
theorem Seated.mem_seatAll {ss : List Seat} (h : Seated parts ss) {k : String} :
    k ∈ (Balance.seatAll parts ss).flatMap Seat.kept ↔
      ∃ p, parts.get? k = some p ∧ ∃ s ∈ ss, s.member.canReach p.broker = true := by
  have hp := flatMap_kept_deal_perm ss rfl
    (parts.filter fun k _ => !(ss.flatMap Seat.kept).contains k).entries
  have hmem := hp.mem_iff (a := k)
  unfold Balance.seatAll
  rw [hmem, List.mem_append]
  constructor
  · rintro (hk | hk)
    · obtain ⟨s, hs, hks⟩ := List.mem_flatMap.mp hk
      obtain ⟨p, hp, hr⟩ := h.canReach s hs k hks
      exact ⟨p, hp, s, hs, hr⟩
    · obtain ⟨e, he, rfl⟩ := List.mem_map.mp hk
      obtain ⟨he, hany⟩ := List.mem_filter.mp he
      obtain ⟨c, hc, hr⟩ := List.any_eq_true.mp hany
      obtain ⟨s, hs, rfl⟩ := List.mem_map.mp hc
      exact ⟨e.2, (mem_unkept.mp he).1, s, hs, hr⟩
  · rintro ⟨p, hp, s, hs, hr⟩
    by_cases hk : k ∈ ss.flatMap Seat.kept
    · exact .inl hk
    · refine .inr (List.mem_map.mpr ⟨(k, p), List.mem_filter.mpr ⟨?_, ?_⟩, rfl⟩)
      · exact mem_unkept.mpr ⟨hp, hk⟩
      · exact List.any_eq_true.mpr ⟨s.member, List.mem_map_of_mem hs, hr⟩

/-! ## Settling -/

/-- The partitions the member of a seat is given. -/
def Seat.partitions (parts : Table String Partition) (s : Seat) : List Partition :=
  (KeySet.ofList s.kept).toList.filterMap parts.get?

theorem mem_partitions {s : Seat} {p : Partition} :
    p ∈ s.partitions parts ↔ ∃ k ∈ s.kept, parts.get? k = some p := by
  simp [Seat.partitions]

/-- When all it has is on offer, a seat gives its member each of its keys. -/
theorem map_key_partitions {g : GroupView} {s : Seat}
    (h : ∀ k ∈ s.kept, ∃ p, (g.eligible topic).get? k = some p) :
    (s.partitions (g.eligible topic)).map Partition.key = (KeySet.ofList s.kept).toList := by
  unfold Seat.partitions
  have hall : ∀ k ∈ (KeySet.ofList s.kept).toList, ∃ p, (g.eligible topic).get? k = some p :=
    fun k hk => h k (KeySet.mem_ofList.mp hk)
  generalize (KeySet.ofList s.kept).toList = ks at hall
  induction ks with
  | nil => rfl
  | cons k ks ih =>
    obtain ⟨p, hp⟩ := hall k List.mem_cons_self
    rw [List.filterMap_cons_some hp, List.map_cons, (mem_partitionsOf_of_eligible hp).2,
      ih fun k hk => hall k (List.mem_cons_of_mem _ hk)]

theorem Seated.exists_of_mem_kept {ss : List Seat} {s : Seat} (h : Seated parts ss) (hs : s ∈ ss) :
    ∀ k ∈ s.kept, ∃ p, parts.get? k = some p := by
  intro k hk
  obtain ⟨p, hp, -⟩ := h.canReach s hs k hk
  exact ⟨p, hp⟩

theorem Seated.canReach_of_mem_partitions {ss : List Seat} {s : Seat} {p : Partition}
    (h : Seated parts ss) (hs : s ∈ ss) (hp : p ∈ s.partitions parts) :
    s.member.canReach p.broker = true := by
  obtain ⟨k, hks, hkp⟩ := mem_partitions.mp hp
  obtain ⟨q, hq, hr⟩ := h.canReach s hs k hks
  obtain rfl : q = p := Option.some.inj (hq.symm.trans hkp)
  exact hr

/-- Nothing is given twice, since no key is kept twice. -/
theorem Seated.nodup_partitions {g : GroupView} {ss : List Seat}
    (h : Seated (g.eligible topic) ss) :
    (ss.flatMap fun s => s.partitions (g.eligible topic)).Nodup := by
  refine List.Nodup.of_map Partition.key ?_
  rw [List.map_flatMap]
  have hperm : (ss.flatMap fun s => (s.partitions (g.eligible topic)).map Partition.key).Perm
      (ss.flatMap Seat.kept) := by
    refine List.Perm.flatMap_left _ fun s hs => ?_
    rw [map_key_partitions (h.exists_of_mem_kept hs)]
    exact KeySet.toList_ofList_perm ((List.nodup_flatMap.mp h.nodup).1 s hs)
  exact hperm.nodup_iff.mpr h.nodup

section Settle

variable {ss : List Seat} {a : Assignment}

theorem settleSeats_cons {s : Seat} : settleSeats topic parts a (s :: ss) =
    settleSeats topic parts
      ((s.partitions parts).foldl (fun a p => a.give s.member.id topic p) a) ss := rfl

variable (topic parts) in
theorem of_settleSeats_of_not_mem (a : Assignment) {id : String}
    (h : id ∉ ss.map fun s => s.member.id) : (settleSeats topic parts a ss).of id topic = a.of id topic := by
  induction ss generalizing a with
  | nil => rfl
  | cons s ss ih =>
    simp only [List.map_cons, List.mem_cons, not_or] at h
    rw [settleSeats_cons, ih _ h.2, Assignment.of_foldl_give, if_neg fun e => h.1 e.1.symm]

variable (topic parts) in
theorem of_settleSeats (a : Assignment) (hn : (ss.map fun s => s.member.id).Nodup) {s : Seat}
    (hs : s ∈ ss) : (settleSeats topic parts a ss).of s.member.id topic =
      a.of s.member.id topic ++ s.partitions parts := by
  induction ss generalizing a with
  | nil => cases hs
  | cons r ss ih =>
    rw [List.map_cons, List.nodup_cons] at hn
    rw [settleSeats_cons]
    rcases List.mem_cons.mp hs with rfl | hs
    · rw [of_settleSeats_of_not_mem _ _ _ hn.1, Assignment.of_foldl_give, if_pos ⟨rfl, rfl⟩]
    · have hne : r.member.id ≠ s.member.id := fun e => hn.1 (List.mem_map.mpr ⟨s, hs, e.symm⟩)
      rw [ih _ hn.2 hs, Assignment.of_foldl_give, if_neg fun e => hne e.1]

theorem of_settleSeats_of_ne {id t : String} (ht : t ≠ topic) :
    (settleSeats topic parts a ss).of id t = a.of id t := by
  induction ss generalizing a with
  | nil => rfl
  | cons s ss ih =>
    rw [settleSeats_cons, ih, Assignment.of_foldl_give, if_neg fun e => ht e.2.symm]

theorem contains_settleSeats {id : String}
    (h : (settleSeats topic parts a ss).contains id = true) :
    a.contains id = true ∨ id ∈ ss.map fun s => s.member.id := by
  refine Assignment.contains_foldl (fun a s hs c hc => ?_) a h
  have hgive : ∀ a : Assignment, ∀ p ∈ s.partitions parts, ∀ c,
      (a.give s.member.id topic p).contains c = true → a.contains c = true ∨ c = s.member.id := by
    intro a p _ c hc
    rw [Assignment.contains_give, Bool.or_eq_true, decide_eq_true_eq] at hc
    exact hc.symm.imp_right Eq.symm
  rcases Assignment.contains_foldl hgive a hc with hc | rfl
  · exact .inl hc
  · exact .inr (List.mem_map_of_mem hs)

end Settle

/-! ## One group -/

section Group

variable {g : GroupView}

/-- The seats in which one topic of a group ends up. -/
def finalSeats (g : GroupView) (current : Holdings) (topic : String) : List Seat :=
  seatAll (g.eligible topic) (seats (g.eligible topic) current topic (g.candidates topic))

variable (g current topic) in
theorem map_member_finalSeats : (finalSeats g current topic).map Seat.member = g.candidates topic :=
  map_member_seatAll.trans (map_member_seats _ _ _ _)

variable (g current topic) in
theorem map_id_finalSeats : (finalSeats g current topic).map (fun s => s.member.id) =
    (g.candidates topic).map Consumer.id := by
  rw [← map_member_finalSeats current topic g, List.map_map]
  rfl

variable (g current topic) in
theorem finalSeats_seated : Seated (g.eligible topic) (finalSeats g current topic) :=
  seats_seated.seatAll

variable (g current) in
theorem of_steadyTopic_of_ne (a : Assignment) (t s : String) (hs : s ≠ t) (c : String) :
    (steadyTopic g current a t).of c s = a.of c s :=
  of_settleSeats_of_ne hs

/-- What a member is given of a topic is what its seat has. -/
theorem of_steadyGroup (hn : g.ids.Nodup) (ht : topic ∈ g.topics) {s : Seat}
    (hs : s ∈ finalSeats g current topic) :
    (steadyGroup current g).of s.member.id topic = s.partitions (g.eligible topic) := by
  obtain ⟨b, hb, hres⟩ := Assignment.of_foldl_topics
    (of_steadyTopic_of_ne current g)
    (KeySet.nodup_toList g.topics) (KeySet.mem_toList.mpr ht) (Assignment.vacant g)
  have hids : ((finalSeats g current topic).map fun s => s.member.id).Nodup := by
    rw [map_id_finalSeats]
    exact GroupView.nodup_candidates hn topic
  have hset := of_settleSeats (g.eligible topic) topic b hids hs
  rw [hb, Assignment.of_vacant, List.nil_append] at hset
  exact (hres s.member.id).trans hset

/-- What the candidates are given together is what the seats have. -/
theorem flatMap_of_steadyGroup (hn : g.ids.Nodup) (ht : topic ∈ g.topics) :
    ((g.candidates topic).flatMap fun c => (steadyGroup current g).of c.id topic) =
      (finalSeats g current topic).flatMap fun s => s.partitions (g.eligible topic) := by
  rw [← map_member_finalSeats current topic g, List.flatMap_map]
  exact List.flatMap_congr fun s hs => of_steadyGroup hn ht hs

theorem of_steadyGroup_of_not_candidate (ht : topic ∈ g.topics) {id : String}
    (hid : id ∉ (g.candidates topic).map Consumer.id) : (steadyGroup current g).of id topic = [] := by
  obtain ⟨b, hb, hres⟩ := Assignment.of_foldl_topics
    (of_steadyTopic_of_ne current g)
    (KeySet.nodup_toList g.topics) (KeySet.mem_toList.mpr ht) (Assignment.vacant g)
  have hset := of_settleSeats_of_not_mem (g.eligible topic) topic b
    (show id ∉ (finalSeats g current topic).map fun s => s.member.id by rwa [map_id_finalSeats])
  rw [hb, Assignment.of_vacant] at hset
  exact (hres id).trans hset

theorem of_steadyGroup_of_not_topic (ht : topic ∉ g.topics) (c : String) :
    (steadyGroup current g).of c topic = [] := by
  rw [steadyGroup, Assignment.of_foldl_of_not_mem
    (of_steadyTopic_of_ne current g)
    (fun h => ht (KeySet.mem_toList.mp h)), Assignment.of_vacant]

theorem contains_steadyGroup_of_mem_ids {c : String} (h : c ∈ g.ids) :
    (steadyGroup current g).contains c = true := by
  have hseat : ∀ ss : List Seat, ∀ parts t a, a.contains c = true →
      (settleSeats t parts a ss).contains c = true := by
    intro ss parts t a ha
    exact Assignment.contains_foldl_of (fun a s ha =>
      Assignment.contains_foldl_of (fun a p ha => Assignment.contains_give_of ha) _ ha) ss ha
  exact Assignment.contains_foldl_of (fun a t ha => hseat _ _ t a ha) _
    (Assignment.contains_vacant.mpr h)

/-- Only members get a target. -/
theorem mem_ids_of_contains_steadyGroup {c : String}
    (h : (steadyGroup current g).contains c = true) : c ∈ g.ids := by
  have hstep : ∀ a, ∀ t ∈ g.topics.toList, ∀ c, (steadyTopic g current a t).contains c = true →
      a.contains c = true ∨ c ∈ g.ids := by
    intro a t _ c h
    refine (contains_settleSeats h).imp_right fun h => ?_
    have h : c ∈ (finalSeats g current t).map fun s => s.member.id := h
    rw [map_id_finalSeats] at h
    exact (List.filter_sublist.map _).subset h
  rcases Assignment.contains_foldl hstep (Assignment.vacant g) h with h | h
  · exact Assignment.contains_vacant.mp h
  · exact h

/-- Sharing evenly hands out every topic of a group. -/
theorem steadyGroup_shares (hn : g.ids.Nodup)
    (hk : ((g.partitionsOf topic).map Partition.key).Nodup) (ht : topic ∈ g.topics) :
    Shares g topic (steadyGroup current g) := by
  have hseated := finalSeats_seated current topic g
  refine ⟨?_, ?_, fun id hid => of_steadyGroup_of_not_candidate ht hid⟩
  · rw [flatMap_of_steadyGroup hn ht]
    refine (List.perm_ext_iff_of_nodup hseated.nodup_partitions
      ((List.Nodup.of_map _ hk).filter _)).mpr fun p => ?_
    rw [List.mem_flatMap, List.mem_filter]
    constructor
    · rintro ⟨s, hs, hp⟩
      obtain ⟨k, -, hkp⟩ := mem_partitions.mp hp
      have hr := hseated.canReach_of_mem_partitions hs hp
      refine ⟨(mem_partitionsOf_of_eligible hkp).1, List.any_eq_true.mpr ⟨s.member, ?_, hr⟩⟩
      rw [← map_member_finalSeats current topic g]
      exact List.mem_map_of_mem hs
    · rintro ⟨hp, hany⟩
      obtain ⟨c, hc, hr⟩ := List.any_eq_true.mp hany
      rw [← map_member_seats (g.eligible topic) current topic (g.candidates topic)] at hc
      obtain ⟨s, hs, rfl⟩ := List.mem_map.mp hc
      have hkp := (eligible_get?_iff hk).mpr ⟨hp, rfl⟩
      obtain ⟨r, hrs, hrk⟩ := List.mem_flatMap.mp
        (seats_seated.mem_seatAll.mpr ⟨p, hkp, s, hs, hr⟩)
      exact ⟨r, hrs, mem_partitions.mpr ⟨p.key, hrk, hkp⟩⟩
  · intro c hc p hp
    rw [← map_member_finalSeats current topic g] at hc
    obtain ⟨s, hs, rfl⟩ := List.mem_map.mp hc
    rw [of_steadyGroup hn ht hs] at hp
    exact hseated.canReach_of_mem_partitions hs hp

end Group

end Balance

end ClusterMaster
