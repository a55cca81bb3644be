import ClusterMaster.Proofs.SteadyShares

/-!
# Where a surplus goes

On a second sharing a candidate that has more than its new quota gives up the surplus, which is
then dealt out with whatever nobody has. While all of it so far has come back, the number of
partitions of a candidate is its `Seat.standing`; the next partition comes back as well when no
candidate within reach lacks any and none within reach stands lower (`GoesTo`).

    everybody has what it had ↔ every surplus partition goes to the seat that gave it up
                                                                                (Seated.same_iff)
-/

namespace ClusterMaster

/-! ## The first of the best -/

section Pick

variable {α : Type} {ahead : α → α → Bool} {xs : List α} {x : α}

theorem exists_append_of_pick? (h : pick? ahead xs = some x) :
    ∃ l r, xs = l ++ x :: r ∧ ∀ y ∈ l, ahead x y = true := by
  induction xs generalizing x with
  | nil => cases h
  | cons a as ih =>
    unfold pick? at h
    split at h
    · obtain rfl := Option.some.inj h
      exact ⟨[], as, rfl, by simp⟩
    · rename_i y hy
      split at h
      · rename_i hya
        obtain rfl := Option.some.inj h
        obtain ⟨l, r, rfl, hl⟩ := ih hy
        refine ⟨a :: l, r, rfl, fun z hz => ?_⟩
        rcases List.mem_cons.mp hz with rfl | hz
        · exact hya
        · exact hl z hz
      · obtain rfl := Option.some.inj h
        exact ⟨[], as, rfl, by simp⟩

/-- From a list in which every element comes with its place, the choice by a number is the first
of those whose number is lowest. -/
theorem pick?_zipIdx_iff {f : α → Nat} {es : List (α × Nat)} {e : α × Nat}
    (hes : es.Sublist xs.zipIdx) :
    pick? (fun x y => decide (f x.1 < f y.1)) es = some e ↔
      e ∈ es ∧ ∀ y ∈ es, f e.1 < f y.1 ∨ f e.1 = f y.1 ∧ e.2 ≤ y.2 := by
  have hplaces : es.Pairwise fun x y => x.2 < y.2 := by
    have hsnd : (xs.zipIdx.map Prod.snd).Pairwise (· < ·) := by
      rw [List.zipIdx_map_snd]
      exact List.pairwise_lt_range'
    exact (List.pairwise_map.mp hsnd).sublist hes
  have first : ∀ e, pick? (fun x y => decide (f x.1 < f y.1)) es = some e →
      e ∈ es ∧ ∀ y ∈ es, f e.1 < f y.1 ∨ f e.1 = f y.1 ∧ e.2 ≤ y.2 := by
    intro e h
    refine ⟨pick?_mem h, fun y hy => ?_⟩
    have hle := not_ahead_of_pick? (by simp) (by simp; omega) (by simp; omega) h y hy
    simp only [decide_eq_false_iff_not, not_lt] at hle
    obtain ⟨l, r, rfl, hl⟩ := exists_append_of_pick? h
    rcases List.mem_append.mp hy with hyl | hyr
    · exact .inl (by simpa using hl y hyl)
    · rcases List.mem_cons.mp hyr with rfl | hyr
      · exact .inr ⟨rfl, le_refl _⟩
      · have hlt := (List.pairwise_cons.mp (List.pairwise_append.mp hplaces).2.1).1 y hyr
        omega
  refine ⟨first e, ?_⟩
  rintro ⟨he, hmin⟩
  cases h : pick? (fun x y => decide (f x.1 < f y.1)) es with
  | none =>
    rw [pick?_eq_none_iff] at h
    rw [h] at he
    cases he
  | some d =>
    obtain ⟨hd, hdmin⟩ := first d h
    have hde := hdmin e he
    have hed := hmin d hd
    have hplace : d.2 = e.2 := by omega
    have h₁ := List.mem_zipIdx_iff_getElem?.mp (hes.subset hd)
    have h₂ := List.mem_zipIdx_iff_getElem?.mp (hes.subset he)
    rw [hplace, h₂] at h₁
    rw [Prod.ext (Option.some.inj h₁).symm hplace]

end Pick

namespace Balance

/-! ## Who takes up a partition -/

/-- A seat that lacks nothing takes a partition up when no other within reach lacks any and it is
the first of those that have the fewest. -/
theorem receiver?_eq_some_iff {ss : List Seat} {b : Broker} {s : Seat} {i : Nat}
    (hs : ss[i]? = some s) (hfull : s.quota ≤ s.kept.length) :
    receiver? ss b = some i ↔ s.member.canReach b = true ∧
      ∀ r j, ss[j]? = some r → r.member.canReach b = true → r.quota ≤ r.kept.length ∧
        (s.kept.length < r.kept.length ∨ s.kept.length = r.kept.length ∧ i ≤ j) := by
  have hzip : ∀ r j, (r, j) ∈ ss.zipIdx.filter (fun e => e.1.member.canReach b) ↔
      ss[j]? = some r ∧ r.member.canReach b = true := by
    intro r j
    rw [List.mem_filter, List.mem_zipIdx_iff_getElem?]
  have hsub : (ss.zipIdx.filter fun e => e.1.member.canReach b).Sublist ss.zipIdx :=
    List.filter_sublist
  have hpick := pick?_zipIdx_iff (f := fun s : Seat => s.kept.length) (e := (s, i)) hsub
  simp only [receiver?]
  split
  · -- some seat lacks one
    rename_i e he
    obtain ⟨hmem, hlack⟩ := List.mem_filter.mp (pick?_mem he)
    obtain ⟨he', hr⟩ := (hzip e.1 e.2).mp hmem
    simp only [decide_eq_true_eq] at hlack
    constructor
    · intro h
      obtain rfl := Option.some.inj h
      rw [hs] at he'
      obtain rfl := Option.some.inj he'
      omega
    · rintro ⟨-, h⟩
      have := (h e.1 e.2 he' hr).1
      omega
  · rename_i hnone
    rw [pick?_eq_none_iff, List.filter_eq_nil_iff] at hnone
    have hpick' : (pick? (fun x y => decide (x.1.kept.length < y.1.kept.length))
        (ss.zipIdx.filter fun e => e.1.member.canReach b)).map Prod.snd = some i ↔
        pick? (fun x y => decide (x.1.kept.length < y.1.kept.length))
        (ss.zipIdx.filter fun e => e.1.member.canReach b) = some (s, i) := by
      constructor
      · intro h
        obtain ⟨e, he, rfl⟩ := Option.map_eq_some_iff.mp h
        have he' := ((hzip e.1 e.2).mp (pick?_mem he)).1
        rw [hs] at he'
        rw [he, Option.some.inj he']
      · intro h
        rw [h, Option.map_some]
    rw [hpick', hpick, hzip]
    constructor
    · rintro ⟨⟨-, hr⟩, h⟩
      refine ⟨hr, fun r j hj hrj => ⟨?_, h (r, j) ((hzip r j).mpr ⟨hj, hrj⟩)⟩⟩
      have := hnone (r, j) ((hzip r j).mpr ⟨hj, hrj⟩)
      simpa using this
    · rintro ⟨hr, h⟩
      refine ⟨⟨hs, hr⟩, ?_⟩
      rintro ⟨r, j⟩ hrj
      obtain ⟨hj, hrj⟩ := (hzip r j).mp hrj
      exact (h r j hj hrj).2

/-! ## Giving up a surplus and getting it back -/

namespace Seat

/-- What the member has beyond its quota. -/
def surplus (s : Seat) : List String := s.kept.drop s.quota

/-- The seat once its surplus is given up, except for the part that has come back. -/
def regaining (back : String → Bool) (s : Seat) : Seat :=
  { s with kept := s.kept.take s.quota ++ s.surplus.filter back }

/-- How many partitions the member has when `key` is dealt out, if the surplus that is dealt out
before `key` has come back. -/
def standing (s : Seat) (key : String) : Nat :=
  max (min s.quota s.kept.length) (s.kept.countP fun k => Key.before k key)

variable {s : Seat} {key : String} {back : String → Bool}

theorem mem_kept_of_mem_surplus (h : key ∈ s.surplus) : key ∈ s.kept := List.mem_of_mem_drop h

theorem length_regaining (hs : s.kept.Pairwise fun a b => Key.before a b = true) (key : String) :
    (s.regaining fun k => Key.before k key).kept.length = s.standing key := by
  have hsplit : s.kept.countP (fun k => Key.before k key) =
      (s.kept.take s.quota).countP (fun k => Key.before k key) +
        s.surplus.countP fun k => Key.before k key := by
    rw [surplus, ← List.countP_append, List.take_append_drop]
  have htake : (s.kept.take s.quota).length = min s.quota s.kept.length := List.length_take
  have hle : (s.kept.take s.quota).countP (fun k => Key.before k key) ≤
      (s.kept.take s.quota).length := List.countP_le_length
  rw [regaining, standing, List.length_append, ← List.countP_eq_length_filter, hsplit, htake]
  rcases Nat.eq_zero_or_pos (s.surplus.countP fun k => Key.before k key) with h0 | hpos
  · omega
  · -- what stands before a key of the surplus that is before `key` is before `key` too
    obtain ⟨x, hx, hxk⟩ := List.countP_pos_iff.mp hpos
    have hall : (s.kept.take s.quota).countP (fun k => Key.before k key) =
        (s.kept.take s.quota).length := by
      rw [List.countP_eq_length]
      intro y hy
      rw [← List.take_append_drop s.quota s.kept] at hs
      exact Key.before_trans ((List.pairwise_append.mp hs).2.2 y hy x hx) hxk
    omega

theorem regaining_congr {back' : String → Bool} (h : ∀ k ∈ s.surplus, back k = back' k) :
    s.regaining back = s.regaining back' := by
  rw [regaining, regaining, List.filter_congr h]

theorem regaining_of_all (h : ∀ k ∈ s.surplus, back k = true) : s.regaining back = s := by
  have hfilter : s.surplus.filter back = s.surplus := List.filter_eq_self.mpr h
  rw [regaining, hfilter, surplus, List.take_append_drop]

theorem regaining_none : s.regaining (fun _ => false) = { s with kept := s.kept.take s.quota } := by
  simp [regaining]

/-- One more key of the surplus comes back, after those that came back before. -/
theorem regaining_or (hs : s.kept.Pairwise fun a b => Key.before a b = true) (hk : key ∈ s.surplus)
    (hback : ∀ k ∈ s.surplus, back k = true → Key.before k key = true) (hnew : back key = false) :
    s.regaining (fun k => back k || k == key) =
      { s with kept := (s.regaining back).kept ++ [key] } := by
  have hsurplus : s.surplus.Pairwise fun a b => Key.before a b = true := hs.drop
  have hfilter : s.surplus.filter (fun k => back k || k == key) = s.surplus.filter back ++ [key] := by
    refine Key.ascending_ext (hsurplus.filter _) ?_ fun x => ?_
    · refine List.pairwise_append.mpr ⟨hsurplus.filter _, List.pairwise_singleton _ _, ?_⟩
      intro x hx y hy
      rw [List.mem_singleton.mp hy]
      obtain ⟨hx, hb⟩ := List.mem_filter.mp hx
      exact hback x hx hb
    · simp only [List.mem_filter, List.mem_append, List.mem_singleton, Bool.or_eq_true, beq_iff_eq]
      constructor
      · rintro ⟨hx, hb | rfl⟩
        · exact .inl ⟨hx, hb⟩
        · exact .inr rfl
      · rintro (⟨hx, hb⟩ | rfl)
        · exact ⟨hx, .inl hb⟩
        · exact ⟨hk, .inr rfl⟩
  rw [regaining, regaining, hfilter, List.append_assoc]

end Seat

section Dealing

variable {parts : Table String Partition} {fs : List Seat} {back : String → Bool}
  {es : List (String × Partition)} {e : String × Partition}

/-- What is still to be dealt out is what is missing from the surplus, and perhaps partitions
that nobody had. -/
structure Pending (parts : Table String Partition) (fs : List Seat) (back : String → Bool)
    (es : List (String × Partition)) : Prop where
  ascending : es.Pairwise fun a b => Key.before a.1 b.1 = true
  offered : ∀ e ∈ es, parts.get? e.1 = some e.2
  missing : ∀ s ∈ fs, ∀ k ∈ s.surplus, back k = false → k ∈ es.map Prod.fst
  away : ∀ e ∈ es, back e.1 = false
  earlier : ∀ s ∈ fs, ∀ k ∈ s.surplus, back k = true → ∀ e ∈ es, Key.before k e.1 = true
  surplus : ∀ e ∈ es, ∀ s ∈ fs, e.1 ∈ s.kept → e.1 ∈ s.surplus

/-- The partition goes to the seat that had it, or to nobody if nobody had it. -/
def ComesBack (fs : List Seat) (e : String × Partition) : Prop :=
  ∀ i, receiver? (fs.map (Seat.regaining fun k => Key.before k e.1)) e.2.broker = some i ↔
    ∃ s, fs[i]? = some s ∧ e.1 ∈ s.kept

theorem Pending.tail (h : Pending parts fs back (e :: es)) :
    Pending parts fs (fun k => back k || k == e.1) es where
  ascending := (List.pairwise_cons.mp h.ascending).2
  offered := fun d hd => h.offered d (List.mem_cons_of_mem _ hd)
  missing := by
    intro s hs k hk hb
    rw [Bool.or_eq_false_iff, beq_eq_false_iff_ne] at hb
    exact (List.mem_cons.mp (h.missing s hs k hk hb.1)).resolve_left hb.2
  away := by
    intro d hd
    rw [Bool.or_eq_false_iff, beq_eq_false_iff_ne]
    have hlt := (List.pairwise_cons.mp h.ascending).1 d hd
    exact ⟨h.away d (List.mem_cons_of_mem _ hd), (Key.ne_of_before hlt).symm⟩
  earlier := by
    intro s hs k hk hb d hd
    rw [Bool.or_eq_true, beq_iff_eq] at hb
    rcases hb with hb | rfl
    · exact h.earlier s hs k hk hb d (List.mem_cons_of_mem _ hd)
    · exact (List.pairwise_cons.mp h.ascending).1 d hd
  surplus := fun d hd => h.surplus d (List.mem_cons_of_mem _ hd)

/-- What has come back is what is dealt out before the next one. -/
theorem Pending.map_regaining (h : Pending parts fs back (e :: es)) :
    fs.map (Seat.regaining back) = fs.map (Seat.regaining fun k => Key.before k e.1) := by
  refine List.map_congr_left fun s hs => Seat.regaining_congr fun k hk => ?_
  cases hb : back k with
  | true => exact (h.earlier s hs k hk hb e List.mem_cons_self).symm
  | false =>
    obtain ⟨d, hd, rfl⟩ := List.mem_map.mp (h.missing s hs k hk hb)
    rcases List.mem_cons.mp hd with rfl | hd
    · exact (Key.before_irrefl _).symm
    · exact (Key.before_asymm ((List.pairwise_cons.mp h.ascending).1 d hd)).symm

theorem Pending.eq_of_nil (h : Pending parts fs back []) : fs.map (Seat.regaining back) = fs := by
  have hid : ∀ s ∈ fs, s.regaining back = id s := by
    refine fun s hs => Seat.regaining_of_all fun k hk => ?_
    cases hb : back k with
    | true => rfl
    | false => cases h.missing s hs k hk hb
  rw [List.map_congr_left hid, List.map_id]

variable (hfs : Seated parts fs) (hasc : ∀ s ∈ fs, s.kept.Pairwise fun a b => Key.before a b = true)

include hfs in
/-- No two seats have the same key. -/
theorem Seated.place_unique {i j : Nat} {s r : Seat} {k : String} (hi : fs[i]? = some s)
    (hj : fs[j]? = some r) (hs : k ∈ s.kept) (hr : k ∈ r.kept) : i = j := by
  obtain ⟨hil, rfl⟩ := List.getElem?_eq_some_iff.mp hi
  obtain ⟨hjl, rfl⟩ := List.getElem?_eq_some_iff.mp hj
  have hpw := (List.nodup_flatMap.mp hfs.nodup).2
  rcases Nat.lt_trichotomy i j with h | h | h
  · exact absurd hr (List.pairwise_iff_getElem.mp hpw i j hil hjl h hs)
  · exact h
  · exact absurd hs (List.pairwise_iff_getElem.mp hpw j i hjl hil h hr)

include hasc in
theorem Pending.seatOne (h : Pending parts fs back (e :: es)) (hback : ComesBack fs e) :
    seatOne (fs.map (Seat.regaining back)) e.1 e.2 =
      fs.map (Seat.regaining fun k => back k || k == e.1) := by
  have hother : ∀ s ∈ fs, e.1 ∉ s.kept →
      s.regaining (fun k => back k || k == e.1) = s.regaining back := by
    refine fun s _ hs => Seat.regaining_congr fun k hk => ?_
    have hne : k ≠ e.1 := fun he => hs (he ▸ Seat.mem_kept_of_mem_surplus hk)
    rw [beq_eq_false_iff_ne.mpr hne, Bool.or_false]
  refine List.ext_getElem? fun i => ?_
  rw [getElem?_seatOne, List.getElem?_map, List.getElem?_map]
  cases hi : fs[i]? with
  | none => rfl
  | some s =>
    have hs := List.mem_of_getElem? hi
    have hreceiver : receiver? (fs.map (Seat.regaining back)) e.2.broker = some i ↔
        e.1 ∈ s.kept := by
      rw [h.map_regaining, hback i, hi]
      simp
    simp only [Option.map_some, Option.some.injEq]
    by_cases hk : e.1 ∈ s.kept
    · have hsur := h.surplus e List.mem_cons_self s hs hk
      have hlt : ∀ k ∈ s.surplus, back k = true → Key.before k e.1 = true :=
        fun k hk hb => h.earlier s hs k hk hb e List.mem_cons_self
      rw [if_pos (hreceiver.mpr hk),
        Seat.regaining_or (hasc s hs) hsur hlt (h.away e List.mem_cons_self)]
      simp [Seat.regaining]
    · rw [if_neg (hreceiver.not.mpr hk), List.append_nil, hother s hs hk]

include hasc in
/-- When every partition comes back, the seats are as they were. -/
theorem Pending.deal_eq (h : Pending parts fs back es) (hback : ∀ e ∈ es, ComesBack fs e) :
    es.foldl (fun ss e => Balance.seatOne ss e.1 e.2) (fs.map (Seat.regaining back)) = fs := by
  induction es generalizing back with
  | nil => exact h.eq_of_nil
  | cons e es ih =>
    rw [List.foldl_cons, h.seatOne hasc (hback e List.mem_cons_self)]
    exact ih h.tail fun d hd => hback d (List.mem_cons_of_mem _ hd)

/-- Who receives a partition has it. -/
theorem mem_kept_seatOne {ss : List Seat} {key : String} {p : Partition} {i : Nat} {s : Seat}
    (hs : ss[i]? = some s) (hi : receiver? ss p.broker = some i) :
    ∃ r, (seatOne ss key p)[i]? = some r ∧ key ∈ r.kept := by
  rw [getElem?_seatOne, hs, if_pos hi]
  exact ⟨_, rfl, by simp⟩

/-- What a seat has is not taken away by dealing. -/
theorem mem_kept_deal (es : List (String × Partition)) {ss : List Seat} {k : String} {i : Nat}
    {s : Seat} (hs : ss[i]? = some s)
    (hk : k ∈ s.kept) :
    ∃ r, (es.foldl (fun ss e => seatOne ss e.1 e.2) ss)[i]? = some r ∧ k ∈ r.kept := by
  obtain ⟨more, hmore⟩ := exists_getElem?_deal ss es
  rw [hmore, hs]
  exact ⟨_, rfl, List.mem_append_left _ hk⟩

include hfs hasc in
/-- When no seat ends up with a partition that it did not have, every partition has come back. -/
theorem Pending.comesBack (h : Pending parts fs back es)
    (hsame : ∀ (i : Nat) (s r : Seat), fs[i]? = some s →
      (es.foldl (fun ss e => Balance.seatOne ss e.1 e.2) (fs.map (Seat.regaining back)))[i]? = some r →
      ∀ k ∈ r.kept, k ∈ s.kept) : ∀ e ∈ es, ComesBack fs e := by
  induction es generalizing back with
  | nil => exact fun e he => absurd he List.not_mem_nil
  | cons e es ih =>
    have hhead : ComesBack fs e := by
      intro i
      rw [← h.map_regaining]
      have hsound : ∀ i, receiver? (fs.map (Seat.regaining back)) e.2.broker = some i →
          ∃ s, fs[i]? = some s ∧ e.1 ∈ s.kept := by
        intro i hi
        obtain ⟨hlt, -⟩ := receiver?_mem hi
        rw [List.length_map] at hlt
        have hget : (fs.map (Seat.regaining back))[i]? = some (fs[i].regaining back) := by
          rw [List.getElem?_map, List.getElem?_eq_getElem hlt, Option.map_some]
        obtain ⟨r, hr, hk⟩ := mem_kept_seatOne hget hi
        obtain ⟨r', hr', hk'⟩ := mem_kept_deal es hr hk
        exact ⟨fs[i], List.getElem?_eq_getElem hlt,
          hsame i _ r' (List.getElem?_eq_getElem hlt) hr' _ hk'⟩
      refine ⟨hsound i, ?_⟩
      rintro ⟨s, hi, hk⟩
      have hs := List.mem_of_getElem? hi
      obtain ⟨p, hp, hr⟩ := hfs.canReach s hs e.1 hk
      obtain rfl := Option.some.inj ((h.offered e List.mem_cons_self).symm.trans hp)
      cases hrec : receiver? (fs.map (Seat.regaining back)) e.2.broker with
      | none =>
        have hno := receiver?_eq_none hrec _ (List.mem_map_of_mem hs)
        rw [show (s.regaining back).member = s.member from rfl, hr] at hno
        cases hno
      | some j =>
        obtain ⟨r, hj, hkr⟩ := hsound j hrec
        rw [hfs.place_unique hj hi hkr hk]
    intro d hd
    rcases List.mem_cons.mp hd with rfl | hd
    · exact hhead
    · refine ih h.tail (fun i s r hi hr => ?_) d hd
      rw [List.foldl_cons, h.seatOne hasc hhead] at hsame
      exact hsame i s r hi hr

include hfs in
/-- Giving up the surplus leaves all of it to be dealt out. -/
theorem Seated.pending :
    Pending parts fs (fun _ => false) (parts.filter fun k _ =>
      !((fs.map (Seat.regaining fun _ => false)).flatMap Seat.kept).contains k).entries where
  ascending := Table.ascending _
  offered := fun e he => (mem_unkept.mp he).1
  away := fun _ _ => rfl
  earlier := by
    intro s _ k _ hb
    cases hb
  missing := by
    intro s hs k hk _
    obtain ⟨p, hp, -⟩ := hfs.canReach s hs k (Seat.mem_kept_of_mem_surplus hk)
    refine List.mem_map.mpr ⟨(k, p), mem_unkept.mpr ⟨hp, fun hmem => ?_⟩, rfl⟩
    obtain ⟨r', hr', hkr⟩ := List.mem_flatMap.mp hmem
    obtain ⟨r, hr, rfl⟩ := List.mem_map.mp hr'
    rw [Seat.regaining_none] at hkr
    obtain rfl := eq_of_nodup_flatMap hfs.nodup hs hr (Seat.mem_kept_of_mem_surplus hk)
      (List.mem_of_mem_take hkr)
    have hn := (List.nodup_flatMap.mp hfs.nodup).1 s hs
    rw [← List.take_append_drop s.quota s.kept] at hn
    exact (List.nodup_append.mp hn).2.2 k hkr k hk rfl
  surplus := by
    intro e he s hs hk
    rw [← List.take_append_drop s.quota s.kept, List.mem_append] at hk
    refine hk.resolve_left fun hk => (mem_unkept.mp he).2 ?_
    refine List.mem_flatMap.mpr ⟨_, List.mem_map_of_mem hs, ?_⟩
    rw [Seat.regaining_none]
    exact hk

/-- The surplus partition of a seat is dealt out to the seat again: no seat within reach lacks
any, and none stands lower; of those that stand equal the first takes it up. -/
def GoesTo (fs : List Seat) (i : Nat) (s : Seat) (e : String × Partition) : Prop :=
  ∀ r j, fs[j]? = some r → r.member.canReach e.2.broker = true → r.quota ≤ r.kept.length ∧
    (s.standing e.1 < r.standing e.1 ∨ s.standing e.1 = r.standing e.1 ∧ i ≤ j)

include hfs hasc in
theorem goesTo_iff {i : Nat} {s : Seat} (he : parts.get? e.1 = some e.2) (hi : fs[i]? = some s)
    (hsur : e.1 ∈ s.surplus) :
    receiver? (fs.map (Seat.regaining fun k => Key.before k e.1)) e.2.broker = some i ↔
      GoesTo fs i s e := by
  have hs := List.mem_of_getElem? hi
  have hstand : ∀ r ∈ fs, (r.regaining fun k => Key.before k e.1).kept.length = r.standing e.1 :=
    fun r hr => Seat.length_regaining (hasc r hr) e.1
  have hquota : s.quota ≤ s.standing e.1 := by
    have hlt : s.quota < s.kept.length := by
      by_contra hge
      rw [Seat.surplus, List.drop_eq_nil_of_le (Nat.not_lt.mp hge)] at hsur
      cases hsur
    unfold Seat.standing
    omega
  have hfull : ∀ r : Seat, r.quota ≤ r.standing e.1 ↔ r.quota ≤ r.kept.length := by
    intro r
    have hle : (r.kept.countP fun k => Key.before k e.1) ≤ r.kept.length := List.countP_le_length
    unfold Seat.standing
    omega
  have hget : ∀ j, (fs.map (Seat.regaining fun k => Key.before k e.1))[j]? =
      (fs[j]?).map (Seat.regaining fun k => Key.before k e.1) := fun j => List.getElem?_map ..
  rw [receiver?_eq_some_iff (s := s.regaining fun k => Key.before k e.1) (by rw [hget, hi]; rfl)
    (by rw [hstand s hs]; exact hquota)]
  constructor
  · rintro ⟨-, h⟩ r j hj hr
    have := h (r.regaining fun k => Key.before k e.1) j (by rw [hget, hj]; rfl) hr
    rwa [hstand s hs, hstand r (List.mem_of_getElem? hj),
      show (r.regaining fun k => Key.before k e.1).quota = r.quota from rfl, hfull] at this
  · intro h
    refine ⟨?_, ?_⟩
    · obtain ⟨p, hp, hr⟩ := hfs.canReach s hs e.1 (Seat.mem_kept_of_mem_surplus hsur)
      obtain rfl := Option.some.inj (he.symm.trans hp)
      exact hr
    · intro r' j hj hr
      rw [hget] at hj
      obtain ⟨r, hget', rfl⟩ := Option.map_eq_some_iff.mp hj
      have := h r j hget' hr
      rwa [hstand s hs, hstand r (List.mem_of_getElem? hget'),
        show (r.regaining fun k => Key.before k e.1).quota = r.quota from rfl, hfull]

include hfs hasc in
/-- Once everybody within quota keeps what it has and the rest is dealt out, the seats have what
they had before, exactly when each surplus partition goes to its seat. -/
theorem Seated.same_iff
    (hall : ∀ k p, parts.get? k = some p → (∃ s ∈ fs, s.member.canReach p.broker = true) →
      k ∈ fs.flatMap Seat.kept) :
    (∀ (i : Nat) (s r : Seat), fs[i]? = some s →
        (Balance.seatAll parts (fs.map (Seat.regaining fun _ => false)))[i]? = some r →
        ∀ k, k ∈ r.kept ↔ k ∈ s.kept) ↔
      ∀ (i : Nat) (s : Seat), fs[i]? = some s → ∀ k ∈ s.surplus, ∀ p, parts.get? k = some p →
        GoesTo fs i s (k, p) := by
  have hpend := hfs.pending
  constructor
  · intro hsame i s hi k hk p hp
    have hback := hpend.comesBack hfs hasc fun i s r hi hr k hk => (hsame i s r hi hr k).mp hk
    obtain ⟨e, he, rfl⟩ := List.mem_map.mp (hpend.missing s (List.mem_of_getElem? hi) k hk rfl)
    obtain rfl := Option.some.inj ((hpend.offered e he).symm.trans hp)
    have hrec := (hback e he i).mpr ⟨s, hi, Seat.mem_kept_of_mem_surplus hk⟩
    exact (goesTo_iff hfs hasc (hpend.offered e he) hi hk).mp hrec
  · intro hgo
    have hback : ∀ e ∈ (parts.filter fun k _ =>
        !((fs.map (Seat.regaining fun _ => false)).flatMap Seat.kept).contains k).entries,
        ComesBack fs e := by
      intro e he
      have hoff := hpend.offered e he
      have hmine : ∀ i s, fs[i]? = some s → e.1 ∈ s.kept →
          receiver? (fs.map (Seat.regaining fun k => Key.before k e.1)) e.2.broker = some i := by
        intro i s hi hk
        have hsur := hpend.surplus e he s (List.mem_of_getElem? hi) hk
        exact (goesTo_iff hfs hasc hoff hi hsur).mpr (hgo i s hi e.1 hsur e.2 hoff)
      intro i
      constructor
      · intro hrec
        obtain ⟨hlt, hr⟩ := receiver?_mem hrec
        rw [List.length_map] at hlt
        rw [List.getElem_map] at hr
        obtain ⟨s, hs, hk⟩ := List.mem_flatMap.mp
          (hall e.1 e.2 hoff ⟨fs[i], List.getElem_mem hlt, hr⟩)
        obtain ⟨j, hj, rfl⟩ := List.getElem_of_mem hs
        have hrec' := hmine j _ (List.getElem?_eq_getElem hj) hk
        obtain rfl := Option.some.inj (hrec.symm.trans hrec')
        exact ⟨fs[i], List.getElem?_eq_getElem hj, hk⟩
      · rintro ⟨s, hi, hk⟩
        exact hmine i s hi hk
    intro i s r hi hr k
    have heq : Balance.seatAll parts (fs.map (Seat.regaining fun _ => false)) = fs :=
      hpend.deal_eq hasc hback
    rw [heq, hi] at hr
    rw [Option.some.inj hr]

end Dealing

end Balance

end ClusterMaster
