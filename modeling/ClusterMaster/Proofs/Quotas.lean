import ClusterMaster.Proofs.SteadyShares

/-!
# Quotas, and how they are filled

Candidates are entitled to equal shares. What is left over goes, one each, to those who hold the
most, so a lower quota never meets a longer holding. A candidate keeps no more than its quota; as
long as somebody within reach lacks partitions, the next one goes to such a seat. Where everybody
reaches everything on offer, the quotas are therefore filled one after the other, all of them and
none beyond (`kept_eq_quota`).

    (quotas total cs held).sum = total                                     (sum_quotas)
    total / n ≤ quota ≤ total / n + 1, the latter only if n ∤ total        (quota_cases)
    q < q' → the holding that q goes with is no longer than that of q'     (length_le_of_quota_lt)
-/

namespace ClusterMaster.Balance

variable {total : Nat} {cs : List Consumer} {held : List (List String)}

/-! ## Who gets what is left over -/

/-- The places of those who get one of the shares left over. -/
def favoured (total : Nat) (cs : List Consumer) (held : List (List String)) : List Nat :=
  (shareOrder cs held).take (total % cs.length)

theorem shareOrder_perm (hl : held.length = cs.length) :
    (shareOrder cs held).Perm (List.range cs.length) := by
  have hplaces : ((cs.zip held).zipIdx.map fun e => ((e.1.2.length, e.1.1.id), e.2)).map Prod.snd =
      List.range cs.length := by
    have hsnd := List.zipIdx_map_snd 0 (cs.zip held)
    rw [List.map_map]
    refine hsnd.trans ?_
    rw [List.length_zip, hl, Nat.min_self, List.range_eq_range']
  have hperm := (List.mergeSort_perm ((cs.zip held).zipIdx.map fun e =>
    ((e.1.2.length, e.1.1.id), e.2)) fun x y => decide (y.1.1 < x.1.1) ||
      (x.1.1 == y.1.1 && !Key.before y.1.2 x.1.2)).map Prod.snd
  rw [hplaces] at hperm
  exact hperm

/-- Who comes earlier holds no less. -/
theorem shareOrder_pairwise : (shareOrder cs held).Pairwise fun i j =>
    ∀ ki kj, held[i]? = some ki → held[j]? = some kj → kj.length ≤ ki.length := by
  unfold shareOrder
  simp only []
  rw [List.pairwise_map]
  refine List.Pairwise.imp_of_mem ?_ (List.pairwise_mergeSort ?_ ?_ _)
  · intro x y hx hy hxy ki kj hi hj
    have hlength : ∀ z ∈ (cs.zip held).zipIdx.map fun e => ((e.1.2.length, e.1.1.id), e.2),
        ∀ ks, held[z.2]? = some ks → ks.length = z.1.1 := by
      intro z hz ks hks
      obtain ⟨e, he, rfl⟩ := List.mem_map.mp hz
      have hget := List.mem_zipIdx_iff_getElem?.mp he
      obtain ⟨hlt, heq⟩ := List.getElem?_eq_some_iff.mp hget
      obtain ⟨hlt', heq'⟩ := List.getElem?_eq_some_iff.mp hks
      rw [← heq, ← heq']
      simp
    have h₁ := hlength x (List.mem_mergeSort.mp hx) ki hi
    have h₂ := hlength y (List.mem_mergeSort.mp hy) kj hj
    simp only [Bool.or_eq_true, decide_eq_true_eq, Bool.and_eq_true, beq_iff_eq] at hxy
    omega
  · intro x y z hxy hyz
    simp only [Bool.or_eq_true, decide_eq_true_eq, Bool.and_eq_true, beq_iff_eq,
      Bool.not_eq_true'] at hxy hyz ⊢
    rcases hxy with hxy | ⟨exy, hxy⟩
    · rcases hyz with hyz | ⟨eyz, -⟩ <;> exact .inl (by omega)
    · rcases hyz with hyz | ⟨eyz, hyz⟩
      · exact .inl (by omega)
      · exact .inr ⟨exy.trans eyz, Key.not_before_trans hyz hxy⟩
  · intro x y
    simp only [Bool.or_eq_true, decide_eq_true_eq, Bool.and_eq_true, beq_iff_eq,
      Bool.not_eq_true']
    rcases Nat.lt_trichotomy x.1.1 y.1.1 with h | h | h
    · exact .inr (.inl h)
    · cases hb : Key.before y.1.2 x.1.2 with
      | false => exact .inl (.inr ⟨h, rfl⟩)
      | true => exact .inr (.inr ⟨h.symm, Key.before_asymm hb⟩)
    · exact .inl (.inl h)

/-! ## Quotas -/

theorem getElem?_quotas {i : Nat} (hi : i < cs.length) : (quotas total cs held)[i]? =
    some (total / cs.length + if i ∈ favoured total cs held then 1 else 0) := by
  rw [quotas, List.getElem?_map, List.getElem?_range hi, Option.map_some, favoured]
  by_cases h : i ∈ (shareOrder cs held).take (total % cs.length) <;> simp [h]

theorem sum_map_add_ite {α : Type} {p : α → Prop} [DecidablePred p] (b : Nat) (l : List α) :
    (l.map fun x => b + if p x then 1 else 0).sum = l.length * b + l.countP p := by
  induction l with
  | nil => simp
  | cons x l ih =>
    rw [List.map_cons, List.sum_cons, ih, List.countP_cons, List.length_cons, Nat.succ_mul]
    by_cases h : p x <;> simp [h] <;> omega

/-- The quotas together are what is to be shared. -/
theorem sum_quotas (hl : held.length = cs.length) (hne : cs ≠ []) :
    (quotas total cs held).sum = total := by
  have hpos : 0 < cs.length := List.length_pos_of_ne_nil hne
  have hquotas : quotas total cs held = (List.range cs.length).map fun i =>
      total / cs.length + if i ∈ favoured total cs held then 1 else 0 := by
    refine List.ext_getElem? fun i => ?_
    by_cases hi : i < cs.length
    · rw [getElem?_quotas hi, List.getElem?_map, List.getElem?_range hi, Option.map_some]
    · have hlen : (quotas total cs held).length = cs.length := length_quotas
      rw [List.getElem?_eq_none (by omega), List.getElem?_eq_none (by simpa using hi)]
  have hperm := shareOrder_perm hl
  have hnodup : (favoured total cs held).Nodup :=
    (hperm.nodup_iff.mpr List.nodup_range).sublist (List.take_sublist _ _)
  have hcount : (List.range cs.length).countP (· ∈ favoured total cs held) = total % cs.length := by
    have hfilter : ((List.range cs.length).filter (· ∈ favoured total cs held)).Perm
        (favoured total cs held) := by
      refine (List.perm_ext_iff_of_nodup (List.nodup_range.filter _) hnodup).mpr fun i => ?_
      rw [List.mem_filter, decide_eq_true_eq, and_iff_right_iff_imp]
      exact fun hi => hperm.mem_iff.mp (List.mem_of_mem_take hi)
    rw [List.countP_eq_length_filter, hfilter.length_eq, favoured, List.length_take,
      hperm.length_eq, List.length_range]
    exact Nat.min_eq_left (Nat.mod_lt _ hpos).le
  rw [hquotas, sum_map_add_ite, hcount, List.length_range]
  exact Nat.div_add_mod _ _

/-- A quota is the equal share, rounded down or up. -/
theorem quota_cases {q : Nat} (hq : q ∈ quotas total cs held) :
    q = total / cs.length ∨ q = total / cs.length + 1 ∧ total % cs.length ≠ 0 := by
  obtain ⟨i, hi, rfl⟩ := List.getElem_of_mem hq
  rw [length_quotas] at hi
  have hget : (quotas total cs held)[i]? = some _ := getElem?_quotas hi
  rw [List.getElem?_eq_getElem (by rwa [length_quotas]), Option.some.injEq] at hget
  rw [hget]
  split
  · rename_i hmem
    refine .inr ⟨rfl, fun hzero => ?_⟩
    rw [favoured, hzero, List.take_zero] at hmem
    cases hmem
  · exact .inl rfl

/-- Who has the lower quota holds no more. -/
theorem length_le_of_quota_lt (hl : held.length = cs.length) {i j q r : Nat} {ki kj : List String}
    (hi : (quotas total cs held)[i]? = some q) (hj : (quotas total cs held)[j]? = some r)
    (hlt : q < r) (hki : held[i]? = some ki) (hkj : held[j]? = some kj) :
    ki.length ≤ kj.length := by
  have hi' : i < cs.length := by
    have := (List.getElem?_eq_some_iff.mp hki).1
    omega
  have hj' : j < cs.length := by
    have := (List.getElem?_eq_some_iff.mp hkj).1
    omega
  rw [getElem?_quotas hi', Option.some.injEq] at hi
  rw [getElem?_quotas hj', Option.some.injEq] at hj
  have hmem : j ∈ favoured total cs held := by
    by_contra hno
    rw [if_neg hno] at hj
    split at hi <;> omega
  have hno : i ∉ favoured total cs held := by
    intro hmem
    rw [if_pos hmem] at hi
    split at hj <;> omega
  have hpart : i ∈ favoured total cs held ++ (shareOrder cs held).drop (total % cs.length) := by
    rw [favoured, List.take_append_drop]
    exact (shareOrder_perm hl).mem_iff.mpr (List.mem_range.mpr hi')
  have hrest := (List.mem_append.mp hpart).resolve_left hno
  have hpw : (shareOrder cs held).Pairwise _ := shareOrder_pairwise
  rw [← List.take_append_drop (total % cs.length) (shareOrder cs held)] at hpw
  exact (List.pairwise_append.mp hpw).2.2 j hmem i hrest kj ki hkj hki

/-! ## Filling the quotas -/

section Filling

variable {parts : Table String Partition} {ss : List Seat} {key : String} {p : Partition}

/-- While somebody within reach lacks partitions, somebody who does gets the next one. -/
theorem receiver?_lacking {b : Broker}
    (h : ∃ s ∈ ss, s.member.canReach b = true ∧ s.kept.length < s.quota) :
    ∃ i s, receiver? ss b = some i ∧ ss[i]? = some s ∧ s.kept.length < s.quota := by
  obtain ⟨s, hs, hr, hlack⟩ := h
  obtain ⟨i, hi, rfl⟩ := List.getElem_of_mem hs
  simp only [receiver?]
  split
  · rename_i e he
    obtain ⟨hmem, hlack⟩ := List.mem_filter.mp (pick?_mem he)
    have hget := List.mem_zipIdx_iff_getElem?.mp (List.mem_of_mem_filter hmem)
    exact ⟨e.2, e.1, rfl, hget, by simpa using hlack⟩
  · rename_i hnone
    rw [pick?_eq_none_iff, List.filter_eq_nil_iff] at hnone
    refine absurd ?_ (hnone (ss[i], i) (List.mem_filter.mpr ⟨?_, hr⟩))
    · simpa using hlack
    · exact List.mem_zipIdx_iff_getElem?.mpr (List.getElem?_eq_getElem hi)

/-- What a seat has stays in front of what it gets. -/
theorem kept_prefix_deal (es : List (String × Partition)) {i : Nat} {r : Seat}
    (h : (es.foldl (fun ss e => seatOne ss e.1 e.2) ss)[i]? = some r) :
    ∃ s, ss[i]? = some s ∧ r.quota = s.quota ∧ s.kept <+: r.kept := by
  obtain ⟨more, hmore⟩ := exists_getElem?_deal ss es
  rw [hmore] at h
  obtain ⟨s, hs, rfl⟩ := Option.map_eq_some_iff.mp h
  exact ⟨s, hs, rfl, List.prefix_append _ _⟩

/-- Nobody has more than its quota. -/
def Within (ss : List Seat) : Prop := ∀ s ∈ ss, s.kept.length ≤ s.quota

/-- Nobody has less than its quota. -/
def Filled (ss : List Seat) : Prop := ∀ s ∈ ss, s.quota ≤ s.kept.length

theorem Filled.seatOne (h : Filled ss) : Filled (seatOne ss key p) := by
  intro r hr
  obtain ⟨i, hi⟩ := List.mem_iff_getElem?.mp hr
  rw [getElem?_seatOne] at hi
  obtain ⟨s, hs, rfl⟩ := Option.map_eq_some_iff.mp hi
  exact (h s (List.mem_of_getElem? hs)).trans (List.prefix_append _ _).length_le

/-- Before all quotas are filled, none is exceeded. -/
theorem within_or_filled_seatOne (hreach : ∀ s ∈ ss, s.member.canReach p.broker = true)
    (h : Within ss ∨ Filled ss) : Within (seatOne ss key p) ∨ Filled (seatOne ss key p) := by
  by_cases hfilled : Filled ss
  · exact .inr hfilled.seatOne
  · have hwithin := h.resolve_right hfilled
    simp only [Filled, not_forall, not_le] at hfilled
    obtain ⟨s, hs, hlack⟩ := hfilled
    obtain ⟨i, e, hi, he, hlack⟩ := receiver?_lacking ⟨s, hs, hreach s hs, hlack⟩
    refine .inl fun r hr => ?_
    obtain ⟨j, hj⟩ := List.mem_iff_getElem?.mp hr
    rw [getElem?_seatOne, hi] at hj
    obtain ⟨t, ht, rfl⟩ := Option.map_eq_some_iff.mp hj
    by_cases hij : i = j
    · subst hij
      obtain rfl : t = e := Option.some.inj (ht.symm.trans he)
      simpa using hlack
    · simpa [hij] using hwithin t (List.mem_of_getElem? ht)

theorem within_or_filled_deal {es : List (String × Partition)}
    (hreach : ∀ s ∈ ss, ∀ e ∈ es, s.member.canReach e.2.broker = true)
    (h : Within ss ∨ Filled ss) :
    Within (es.foldl (fun ss e => seatOne ss e.1 e.2) ss) ∨
      Filled (es.foldl (fun ss e => seatOne ss e.1 e.2) ss) := by
  induction es generalizing ss with
  | nil => exact h
  | cons e es ih =>
    refine ih (fun s hs d hd => ?_)
      (within_or_filled_seatOne (fun s hs => hreach s hs e List.mem_cons_self) h)
    have hmembers : (seatOne ss e.1 e.2).map Seat.member = ss.map Seat.member :=
      map_member_seatOne
    have hmember : s.member ∈ ss.map Seat.member := by
      rw [← hmembers]
      exact List.mem_map_of_mem hs
    obtain ⟨r, hr, hrs⟩ := List.mem_map.mp hmember
    rw [← hrs]
    exact hreach r hr d (List.mem_cons_of_mem _ hd)

/-- Where no term is larger, equal sums have equal terms. -/
theorem eq_of_sum_eq {α : Type} {f g : α → Nat} {l : List α} (hle : ∀ x ∈ l, f x ≤ g x)
    (hsum : (l.map f).sum = (l.map g).sum) : ∀ x ∈ l, f x = g x := by
  intro x hx
  by_contra hne
  exact absurd hsum (List.sum_lt_sum f g hle ⟨x, hx, lt_of_le_of_ne (hle x hx) hne⟩).ne

section Reaching

variable (hseated : Seated parts ss) (hne : ss ≠ [])
  (hreach : ∀ s ∈ ss, ∀ p ∈ parts.values, s.member.canReach p.broker = true)

include hseated hne hreach

/-- Where everybody reaches all that is on offer, the seats have all of it in the end. -/
theorem kept_seatAll_perm :
    ((seatAll parts ss).flatMap Seat.kept).Perm (parts.entries.map Prod.fst) := by
  refine (List.perm_ext_iff_of_nodup hseated.seatAll.nodup parts.nodup_keys).mpr fun k => ?_
  rw [hseated.mem_seatAll, List.mem_map]
  constructor
  · rintro ⟨p, hp, -⟩
    exact ⟨(k, p), Table.get?_eq_some_iff.mp hp, rfl⟩
  · rintro ⟨e, he, rfl⟩
    obtain ⟨s, hs⟩ := List.exists_mem_of_ne_nil _ hne
    exact ⟨e.2, Table.mem_entries_iff.mp he, s, hs, hreach s hs e.2 (List.mem_map_of_mem he)⟩

/-- If moreover the quotas add up to what is on offer, they are filled exactly. -/
theorem kept_eq_quota (hwithin : Within ss) (hsum : (ss.map Seat.quota).sum = parts.size) :
    ∀ s ∈ seatAll parts ss, s.kept.length = s.quota := by
  have hquotas : (seatAll parts ss).map Seat.quota = ss.map Seat.quota := map_deal fun _ _ => rfl
  have hlengths : ((seatAll parts ss).map fun s => s.kept.length).sum =
      ((seatAll parts ss).map Seat.quota).sum := by
    rw [hquotas, hsum, ← List.length_flatMap, (kept_seatAll_perm hseated hne hreach).length_eq,
      List.length_map]
    rfl
  have hdealt : Within (seatAll parts ss) ∨ Filled (seatAll parts ss) := by
    refine within_or_filled_deal (fun s hs e he => ?_) (.inl hwithin)
    have hoffered := Table.get?_eq_some_iff.mp (mem_unkept.mp he).1
    exact hreach s hs e.2 (List.mem_map_of_mem hoffered)
  rcases hdealt with h | h
  · exact eq_of_sum_eq h hlengths
  · exact fun s hs => (eq_of_sum_eq h hlengths.symm s hs).symm

end Reaching

end Filling

end ClusterMaster.Balance
