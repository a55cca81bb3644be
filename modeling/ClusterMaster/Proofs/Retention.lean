import ClusterMaster.Proofs.Evenness
import ClusterMaster.Proofs.Quotas

/-!
# Sharing evenly moves as little as it can

Where everybody reaches everything on offer, sharing evenly fills the quotas, so that the shares
differ by at most one. Of what a candidate holds it keeps as many as its quota allows, and the
higher quotas go with the longer holdings. No other even distribution lets more partitions stay
where they are, if no two candidates hold the same one: a candidate keeps at most what it holds
and at most its share, and shifting a share left over to somebody who holds less gains nothing
(`sum_min_le_sum_min`).

    every share is m / n, rounded down or up; the number of partitions that stay is the
      greatest of all even distributions                                  (steady_retains)
-/

namespace ClusterMaster

/-! ## Even shares -/

section Sums

variable {α : Type} {l : List α}

/-- Counts that differ by at most one are the average, rounded down, or one more. -/
theorem average_of_even {f : α → Nat} (h : ∀ x ∈ l, ∀ y ∈ l, f x ≤ f y + 1) {x : α}
    (hx : x ∈ l) : (l.map f).sum / l.length ≤ f x ∧ f x ≤ (l.map f).sum / l.length + 1 := by
  have hpos : 0 < l.length := List.length_pos_of_mem hx
  have hconst : ∀ k, (l.map fun _ => k).sum = k * l.length := fun k => by
    simp [Nat.mul_comm]
  constructor
  · have hlt : (l.map f).sum < (f x + 1) * l.length := by
      rw [← hconst]
      exact List.sum_lt_sum f _ (fun y hy => h y hy x hx) ⟨x, hx, Nat.lt_succ_self _⟩
    exact Nat.lt_succ_iff.mp ((Nat.div_lt_iff_lt_mul hpos).mpr hlt)
  · have hle : (f x - 1) * l.length ≤ (l.map f).sum := by
      rw [← hconst]
      refine List.sum_le_sum fun y hy => ?_
      have := h x hx y hy
      omega
    have := (Nat.le_div_iff_mul_le hpos).mpr hle
    omega

/-- Of all ways to round equal shares up or down, the one that favours those who hold the most
covers the most of what is held. -/
theorem sum_min_le_sum_min {h n q : α → Nat} {base : Nat}
    (hsum : (l.map n).sum = (l.map q).sum)
    (hn : ∀ x ∈ l, base ≤ n x ∧ n x ≤ base + 1) (hq : ∀ x ∈ l, q x = base ∨ q x = base + 1)
    (hmono : ∀ x ∈ l, ∀ y ∈ l, q x < q y → h x ≤ h y) :
    (l.map fun x => min (h x) (n x)).sum ≤ (l.map fun x => min (h x) (q x)).sum := by
  by_cases hfull : ∃ x ∈ l, q x = base ∧ base < h x
  · -- those with the higher share all hold enough to fill it, so every place is used
    obtain ⟨x, hx, hqx, hhx⟩ := hfull
    have hpoint : ∀ y ∈ l, min (h y) (n y) + q y ≤ min (h y) (q y) + n y := by
      intro y hy
      have hny := hn y hy
      rcases hq y hy with hqy | hqy
      · omega
      · have := hmono x hx y hy (by omega)
        omega
    have hadd := List.sum_le_sum hpoint
    rw [List.sum_map_add, List.sum_map_add, hsum] at hadd
    omega
  · -- those with the lower share hold no more than it
    refine List.sum_le_sum fun y hy => ?_
    have hny := hn y hy
    rcases hq y hy with hqy | hqy
    · have : ¬base < h y := fun hlt => hfull ⟨y, hy, hqy, hlt⟩
      omega
    · omega

end Sums

namespace Balance

variable {g : GroupView} {topic : String} {current : Holdings} {parts : Table String Partition}
  {a : Assignment}

/-- The candidates get the partitions on offer, and nobody gets two more than another one. -/
structure SharesEvenly (g : GroupView) (topic : String) (a : Assignment) : Prop where
  perm : ((g.candidates topic).flatMap fun c => a.of c.id topic).Perm (g.eligible topic).values
  even : ∀ c ∈ g.candidates topic, ∀ d ∈ g.candidates topic,
    (a.of c.id topic).length ≤ (a.of d.id topic).length + 1

/-- How many partitions of a topic stay with the candidate that holds them. -/
def staying (g : GroupView) (topic : String) (current : Holdings) (a : Assignment) : Nat :=
  ((g.candidates topic).map fun c =>
    (a.of c.id topic).countP fun p => current.holds c.id topic p.key).sum

/-! ## What is on offer -/

theorem mem_values_eligible {p : Partition} :
    p ∈ (g.eligible topic).values ↔ (g.eligible topic).get? p.key = some p := by
  constructor
  · intro hp
    obtain ⟨e, he, rfl⟩ := List.mem_map.mp hp
    have hget := Table.mem_entries_iff.mp he
    rwa [(mem_partitionsOf_of_eligible hget).2]
  · exact fun h => List.mem_map_of_mem (Table.get?_eq_some_iff.mp h)

theorem nodup_keys_eligible : ((g.eligible topic).values.map Partition.key).Nodup := by
  have hkeys : (g.eligible topic).values.map Partition.key =
      (g.eligible topic).entries.map Prod.fst := by
    rw [Table.values, List.map_map]
    refine List.map_congr_left fun e he => ?_
    exact (mem_partitionsOf_of_eligible (Table.mem_entries_iff.mp he)).2
  rw [hkeys]
  exact Table.nodup_keys _

/-! ## No even distribution keeps more -/

/-- A candidate keeps no more than it gets, and no more than it holds. -/
theorem SharesEvenly.staying_le (h : SharesEvenly g topic a) {c : Consumer}
    (hc : c ∈ g.candidates topic)
    (hreach : ∀ p ∈ (g.eligible topic).values, c.canReach p.broker = true) :
    ((a.of c.id topic).countP fun p => current.holds c.id topic p.key) ≤
      min (stillHeld (g.eligible topic) current topic c).length (a.of c.id topic).length := by
  refine le_min ?_ List.countP_le_length
  have hnodup : ((a.of c.id topic).map Partition.key).Nodup := by
    have hall := (h.perm.map Partition.key).nodup_iff.mpr nodup_keys_eligible
    rw [List.map_flatMap] at hall
    exact (List.nodup_flatMap.mp hall).1 c hc
  rw [List.countP_eq_length_filter, ← List.length_map Partition.key]
  refine (List.subperm_of_subset (hnodup.sublist (List.filter_sublist.map _)) ?_).length_le
  intro k hk
  obtain ⟨p, hp, rfl⟩ := List.mem_map.mp hk
  obtain ⟨hpa, hheld⟩ := List.mem_filter.mp hp
  have hvalue := h.perm.mem_iff.mp (List.mem_flatMap.mpr ⟨c, hc, hpa⟩)
  exact mem_stillHeld.mpr ⟨hheld, p, mem_values_eligible.mp hvalue, hreach p hvalue⟩

/-! ## What the seats come to -/

theorem map_quota_seats (cs : List Consumer) : (seats parts current topic cs).map Seat.quota =
    quotas parts.size cs (claims parts current topic KeySet.empty cs) := by
  have hclaims : (claims parts current topic KeySet.empty cs).length = cs.length := length_claims
  have hquotas : (quotas parts.size cs (claims parts current topic KeySet.empty cs)).length =
      cs.length := length_quotas
  refine List.ext_getElem ?_ fun i _ _ => by simp [seats]
  simp only [seats, List.length_map, List.length_zip, hclaims, hquotas, Nat.min_self]

theorem within_seats (cs : List Consumer) : Within (seats parts current topic cs) := by
  intro s hs
  obtain ⟨e, -, rfl⟩ := List.mem_map.mp hs
  exact List.length_take_le _ _

theorem member_mem_candidates {s : Seat} (hs : s ∈ finalSeats g current topic) :
    s.member ∈ g.candidates topic := by
  rw [← map_member_finalSeats current topic g]
  exact List.mem_map_of_mem hs

theorem member_of_finalSeats {i : Nat} {s : Seat}
    (hi : (finalSeats g current topic)[i]? = some s) :
    (g.candidates topic)[i]? = some s.member := by
  rw [← map_member_finalSeats current topic g, List.getElem?_map, hi, Option.map_some]

theorem map_quota_finalSeats : (finalSeats g current topic).map Seat.quota =
    quotas (g.eligible topic).size (g.candidates topic)
      (claims (g.eligible topic) current topic KeySet.empty (g.candidates topic)) :=
  (map_deal fun _ _ => rfl).trans (map_quota_seats _)

theorem length_finalSeats : (finalSeats g current topic).length = (g.candidates topic).length := by
  rw [← map_member_finalSeats current topic g, List.length_map]

theorem sum_quota_finalSeats (hne : g.candidates topic ≠ []) :
    ((finalSeats g current topic).map Seat.quota).sum = (g.eligible topic).size := by
  rw [map_quota_finalSeats]
  exact sum_quotas length_claims hne

theorem quota_finalSeats_cases {s : Seat} (hs : s ∈ finalSeats g current topic) :
    s.quota = (g.eligible topic).size / (g.candidates topic).length ∨
      s.quota = (g.eligible topic).size / (g.candidates topic).length + 1 ∧
        (g.eligible topic).size % (g.candidates topic).length ≠ 0 := by
  have hmem : s.quota ∈ (finalSeats g current topic).map Seat.quota := List.mem_map_of_mem hs
  rw [map_quota_finalSeats] at hmem
  exact quota_cases hmem

/-- Seat by seat: the member's quota, and in front the claims within it. -/
theorem exists_claims_of_finalSeats {i : Nat} {s : Seat}
    (hi : (finalSeats g current topic)[i]? = some s) :
    ∃ held, (claims (g.eligible topic) current topic KeySet.empty (g.candidates topic))[i]? =
      some held ∧ held.take s.quota <+: s.kept := by
  obtain ⟨r, hr, hquota, hpre⟩ := kept_prefix_deal _ hi
  unfold seats at hr
  rw [List.getElem?_map] at hr
  obtain ⟨e, he, rfl⟩ := Option.map_eq_some_iff.mp hr
  obtain ⟨-, he⟩ := List.getElem?_zip_eq_some.mp he
  obtain ⟨hheld, -⟩ := List.getElem?_zip_eq_some.mp he
  exact ⟨e.2.1, hheld, hquota ▸ hpre⟩

/-! ## What the seats are given -/

theorem staying_eq_sum : staying g topic current a =
    ((finalSeats g current topic).map fun s => (a.of s.member.id topic).countP
      fun p => current.holds s.member.id topic p.key).sum := by
  rw [staying, ← map_member_finalSeats current topic g, List.map_map]
  rfl

theorem SharesEvenly.sum_length (h : SharesEvenly g topic a) :
    ((finalSeats g current topic).map fun s => (a.of s.member.id topic).length).sum =
      (g.eligible topic).size := by
  have hflat := h.perm.length_eq
  rw [List.length_flatMap, ← map_member_finalSeats current topic g, List.map_map] at hflat
  exact hflat.trans (List.length_map _)

theorem SharesEvenly.length_bounds (h : SharesEvenly g topic a) {s : Seat}
    (hs : s ∈ finalSeats g current topic) :
    (g.eligible topic).size / (g.candidates topic).length ≤ (a.of s.member.id topic).length ∧
      (a.of s.member.id topic).length ≤
        (g.eligible topic).size / (g.candidates topic).length + 1 := by
  have heven := average_of_even (f := fun s : Seat => (a.of s.member.id topic).length)
    (fun s hs r hr => h.even s.member (member_mem_candidates hs) r.member
      (member_mem_candidates hr)) hs
  rwa [h.sum_length, length_finalSeats] at heven

section Reaching

variable (hne : g.candidates topic ≠ [])
  (hreach : ∀ c ∈ g.candidates topic, ∀ p ∈ (g.eligible topic).values, c.canReach p.broker = true)

include hne in
theorem seats_ne_nil : seats parts current topic (g.candidates topic) ≠ [] := by
  intro hnil
  have hmembers := map_member_seats parts current topic (g.candidates topic)
  rw [hnil] at hmembers
  exact hne hmembers.symm

include hreach

theorem canReach_of_seats {s : Seat}
    (hs : s ∈ seats (g.eligible topic) current topic (g.candidates topic)) :
    ∀ p ∈ (g.eligible topic).values, s.member.canReach p.broker = true := by
  refine hreach s.member ?_
  rw [← map_member_seats (g.eligible topic) current topic (g.candidates topic)]
  exact List.mem_map_of_mem hs

include hne

/-- Where everybody reaches everything, every seat ends up with its quota. -/
theorem length_kept_finalSeats {s : Seat} (hs : s ∈ finalSeats g current topic) :
    s.kept.length = s.quota := by
  refine kept_eq_quota seats_seated (seats_ne_nil hne) (fun r hr => canReach_of_seats hreach hr)
    (within_seats _) ?_ s hs
  rw [map_quota_seats]
  exact sum_quotas length_claims hne

variable (hn : g.ids.Nodup) (ht : topic ∈ g.topics)

include hn ht

theorem length_of_steadyGroup {s : Seat} (hs : s ∈ finalSeats g current topic) :
    ((steadyGroup current g).of s.member.id topic).length = s.quota := by
  have hseated := finalSeats_seated current topic g
  have hkept := KeySet.toList_ofList_perm ((List.nodup_flatMap.mp hseated.nodup).1 s hs)
  rw [of_steadyGroup hn ht hs, ← List.length_map Partition.key,
    map_key_partitions (hseated.exists_of_mem_kept hs), hkept.length_eq,
    length_kept_finalSeats hne hreach hs]

variable (current) in
/-- Every share is the average, rounded down or up. -/
theorem length_steadyGroup_cases {c : Consumer} (hc : c ∈ g.candidates topic) :
    ((steadyGroup current g).of c.id topic).length =
        (g.eligible topic).size / (g.candidates topic).length ∨
      ((steadyGroup current g).of c.id topic).length =
          (g.eligible topic).size / (g.candidates topic).length + 1 ∧
        (g.eligible topic).size % (g.candidates topic).length ≠ 0 := by
  rw [← map_member_finalSeats current topic g] at hc
  obtain ⟨s, hs, rfl⟩ := List.mem_map.mp hc
  rw [length_of_steadyGroup hne hreach hn ht hs]
  exact quota_finalSeats_cases hs

theorem steadyGroup_sharesEvenly : SharesEvenly g topic (steadyGroup current g) where
  perm := by
    rw [flatMap_of_steadyGroup hn ht]
    refine (List.perm_ext_iff_of_nodup (finalSeats_seated current topic g).nodup_partitions
      (List.Nodup.of_map _ nodup_keys_eligible)).mpr fun p => ?_
    rw [List.mem_flatMap]
    constructor
    · rintro ⟨s, -, hp⟩
      obtain ⟨k, -, hkp⟩ := mem_partitions.mp hp
      exact List.mem_map_of_mem (Table.get?_eq_some_iff.mp hkp)
    · intro hp
      have hget := mem_values_eligible.mp hp
      have hall : ((finalSeats g current topic).flatMap Seat.kept).Perm _ :=
        kept_seatAll_perm seats_seated (seats_ne_nil hne) fun r hr => canReach_of_seats hreach hr
      have hkey : p.key ∈ (g.eligible topic).entries.map Prod.fst :=
        List.mem_map.mpr ⟨_, Table.get?_eq_some_iff.mp hget, rfl⟩
      obtain ⟨s, hs, hk⟩ := List.mem_flatMap.mp (hall.mem_iff.mpr hkey)
      exact ⟨s, hs, mem_partitions.mpr ⟨p.key, hk, hget⟩⟩
  even := by
    have hbounds : ∀ c ∈ g.candidates topic,
        (g.eligible topic).size / (g.candidates topic).length ≤
            ((steadyGroup current g).of c.id topic).length ∧
          ((steadyGroup current g).of c.id topic).length ≤
            (g.eligible topic).size / (g.candidates topic).length + 1 := by
      intro c hc
      rcases length_steadyGroup_cases current hne hreach hn ht hc with h | ⟨h, -⟩ <;> omega
    intro c hc d hd
    exact (hbounds c hc).2.trans (Nat.add_le_add_right (hbounds d hd).1 1)

end Reaching

/-! ## As much stays as can -/

section Sole

/-- The candidates with all that they hold: nobody claims what another one claims. -/
theorem claims_of_sole (hn : g.ids.Nodup)
    (hsole : ∀ c ∈ g.candidates topic, ∀ d ∈ g.candidates topic, ∀ k ∈ (g.eligible topic).keys,
      current.holds c.id topic k = true → current.holds d.id topic k = true → c = d) :
    claims (g.eligible topic) current topic KeySet.empty (g.candidates topic) =
      (g.candidates topic).map (stillHeld (g.eligible topic) current topic) := by
  refine claims_eq_map_stillHeld KeySet.empty ?_ fun c _ k _ => KeySet.not_mem_empty
  have hnodup : (g.candidates topic).Nodup :=
    List.Nodup.of_map _ (GroupView.nodup_candidates hn topic)
  refine hnodup.imp_of_mem fun {c d} hc hd hcd k hkc hkd => hcd ?_
  obtain ⟨hheld, p, hp, -⟩ := mem_stillHeld.mp hkc
  have hkey : k ∈ (g.eligible topic).keys := Table.mem_keys.mpr (Table.contains_iff.mpr ⟨p, hp⟩)
  exact hsole c hc d hd k hkey hheld (mem_stillHeld.mp hkd).1

variable (hclaims : claims (g.eligible topic) current topic KeySet.empty (g.candidates topic) =
  (g.candidates topic).map (stillHeld (g.eligible topic) current topic))

include hclaims

/-- Who holds more does not have the lower quota. -/
theorem length_stillHeld_le {s r : Seat} (hs : s ∈ finalSeats g current topic)
    (hr : r ∈ finalSeats g current topic) (hlt : s.quota < r.quota) :
    (stillHeld (g.eligible topic) current topic s.member).length ≤
      (stillHeld (g.eligible topic) current topic r.member).length := by
  have hplace : ∀ s ∈ finalSeats g current topic, ∃ i : Nat,
      (quotas (g.eligible topic).size (g.candidates topic)
        (claims (g.eligible topic) current topic KeySet.empty (g.candidates topic)))[i]? =
          some s.quota ∧
      (claims (g.eligible topic) current topic KeySet.empty (g.candidates topic))[i]? =
        some (stillHeld (g.eligible topic) current topic s.member) := by
    intro s hs
    obtain ⟨i, hi⟩ := List.mem_iff_getElem?.mp hs
    refine ⟨i, ?_, ?_⟩
    · rw [← map_quota_finalSeats, List.getElem?_map, hi, Option.map_some]
    · rw [hclaims, List.getElem?_map, member_of_finalSeats hi, Option.map_some]
  obtain ⟨i, hqi, hki⟩ := hplace s hs
  obtain ⟨j, hqj, hkj⟩ := hplace r hr
  exact length_le_of_quota_lt length_claims hqi hqj hlt hki hkj

/-- Each candidate keeps as much of what it holds as its quota allows. -/
theorem min_le_staying (hn : g.ids.Nodup) (ht : topic ∈ g.topics) {s : Seat}
    (hs : s ∈ finalSeats g current topic) :
    min (stillHeld (g.eligible topic) current topic s.member).length s.quota ≤
      ((steadyGroup current g).of s.member.id topic).countP
        fun p => current.holds s.member.id topic p.key := by
  obtain ⟨i, hi⟩ := List.mem_iff_getElem?.mp hs
  obtain ⟨held, hheld, hpre⟩ := exists_claims_of_finalSeats hi
  obtain rfl : held = stillHeld (g.eligible topic) current topic s.member := by
    rw [hclaims, List.getElem?_map, member_of_finalSeats hi, Option.map_some] at hheld
    exact (Option.some.inj hheld).symm
  have hkeys := map_key_partitions ((finalSeats_seated current topic g).exists_of_mem_kept hs)
  have hcount : ((s.partitions (g.eligible topic)).countP
      fun p => current.holds s.member.id topic p.key) =
      (KeySet.ofList s.kept).toList.countP (current.holds s.member.id topic) := by
    rw [← hkeys, List.countP_map]
    rfl
  rw [of_steadyGroup hn ht hs, hcount, List.countP_eq_length_filter, Nat.min_comm,
    ← List.length_take]
  refine (List.subperm_of_subset (nodup_stillHeld.sublist (List.take_sublist _ _)) ?_).length_le
  intro k hk
  refine List.mem_filter.mpr ⟨?_, (mem_stillHeld.mp (List.mem_of_mem_take hk)).1⟩
  exact KeySet.mem_toList.mpr (KeySet.mem_ofList.mpr (hpre.subset hk))

/-- No even distribution lets more partitions stay than sharing evenly does. -/
theorem SharesEvenly.staying_le_steadyGroup {b : Assignment} (h : SharesEvenly g topic b)
    (hn : g.ids.Nodup) (ht : topic ∈ g.topics) (hne : g.candidates topic ≠ [])
    (hreach : ∀ c ∈ g.candidates topic, ∀ p ∈ (g.eligible topic).values,
      c.canReach p.broker = true) :
    staying g topic current b ≤ staying g topic current (steadyGroup current g) := by
  have hsum : ((finalSeats g current topic).map fun s => (b.of s.member.id topic).length).sum =
      ((finalSeats g current topic).map Seat.quota).sum :=
    h.sum_length.trans (sum_quota_finalSeats hne).symm
  have hcount := fun s (hs : s ∈ finalSeats g current topic) => h.length_bounds hs
  have hquota := fun s (hs : s ∈ finalSeats g current topic) =>
    (quota_finalSeats_cases hs).imp_right And.left
  rw [staying_eq_sum, staying_eq_sum]
  calc
    _ ≤ ((finalSeats g current topic).map fun s =>
          min (stillHeld (g.eligible topic) current topic s.member).length
            (b.of s.member.id topic).length).sum :=
        List.sum_le_sum fun s hs => h.staying_le (member_mem_candidates hs)
          (hreach s.member (member_mem_candidates hs))
    _ ≤ ((finalSeats g current topic).map fun s =>
          min (stillHeld (g.eligible topic) current topic s.member).length s.quota).sum :=
        sum_min_le_sum_min hsum hcount hquota
          fun s hs r hr hlt => length_stillHeld_le hclaims hs hr hlt
    _ ≤ _ := List.sum_le_sum fun s hs => min_le_staying hclaims hn ht hs

end Sole

/-! ## All groups -/

section Groups

variable {rate : UInt32} {gs : List GroupView}

theorem SharesEvenly.congr {b : Assignment} (h : SharesEvenly g topic a)
    (hof : ∀ c ∈ g.candidates topic, b.of c.id topic = a.of c.id topic) :
    SharesEvenly g topic b where
  perm := by
    rw [List.flatMap_congr hof]
    exact h.perm
  even := by
    intro c hc d hd
    rw [hof c hc, hof d hd]
    exact h.even c hc d hd

theorem staying_congr {b : Assignment}
    (hof : ∀ c ∈ g.candidates topic, b.of c.id topic = a.of c.id topic) :
    staying g topic current b = staying g topic current a := by
  unfold staying
  rw [List.map_congr_left fun c hc => by rw [hof c hc]]

/-- The average rounded up, when it is not a whole number. -/
theorem add_sub_one_div {m n : Nat} (hn : 0 < n) (h : m % n ≠ 0) :
    (m + n - 1) / n = m / n + 1 := by
  have hsplit : m + n - 1 = (m % n - 1) + n * (m / n + 1) := by
    have := Nat.div_add_mod m n
    rw [Nat.mul_add, Nat.mul_one]
    omega
  have hlt : m % n - 1 < n := by
    have := Nat.mod_lt m hn
    omega
  rw [hsplit, Nat.add_mul_div_left _ _ hn, Nat.div_eq_of_lt hlt, Nat.zero_add]

/-- Where all who subscribe to a topic reach all that is on offer, sharing evenly gives each of
them the average, rounded down or up; and where no two of them hold the same, as many partitions
stay with those that hold them as any even distribution allows. -/
theorem steady_retains (current : Holdings) (hn : GroupView.DistinctMembers gs) (hg : g ∈ gs)
    (hfree : g.IsFree rate) (ht : topic ∈ g.topics) (hne : g.candidates topic ≠ [])
    (hreach : ∀ c ∈ g.candidates topic, ∀ p ∈ (g.eligible topic).values,
      c.canReach p.broker = true) :
    (∀ c ∈ g.candidates topic,
      ((steady rate gs current).of c.id topic).length =
          (g.eligible topic).size / (g.candidates topic).length ∨
        ((steady rate gs current).of c.id topic).length =
          ((g.eligible topic).size + (g.candidates topic).length - 1) /
            (g.candidates topic).length) ∧
    ((∀ c ∈ g.candidates topic, ∀ d ∈ g.candidates topic, ∀ k ∈ (g.eligible topic).keys,
        current.holds c.id topic k = true → current.holds d.id topic k = true → c = d) →
      IsGreatest {n | ∃ b, SharesEvenly g topic b ∧ staying g topic current b = n}
        (staying g topic current (steady rate gs current))) := by
  have hof : ∀ c ∈ g.candidates topic,
      (steady rate gs current).of c.id topic = (steadyGroup current g).of c.id topic :=
    fun c hc => Assignment.of_congr (get?_steady current hn hg hfree (List.mem_of_mem_filter hc))
  constructor
  · intro c hc
    rw [hof c hc]
    refine (length_steadyGroup_cases current hne hreach (hn.nodup hg) ht hc).imp_right ?_
    rintro ⟨hlength, hmod⟩
    rw [hlength, add_sub_one_div (List.length_pos_of_ne_nil hne) hmod]
  · intro hsole
    constructor
    · exact ⟨_, (steadyGroup_sharesEvenly hne hreach (hn.nodup hg) ht).congr hof, rfl⟩
    · rintro _ ⟨b, hb, rfl⟩
      rw [staying_congr hof]
      exact hb.staying_le_steadyGroup (claims_of_sole (hn.nodup hg) hsole) (hn.nodup hg) ht hne
        hreach

/-- One of the three holds three partitions of the four, another one the fourth. -/
def trioHoldings : Holdings := Table.ofList
  [("a", [0, 1, 2].foldl (fun h number => h.add (trio.place "t" number)) Table.empty),
    ("b", Holding.add Table.empty (trio.place "t" 3))]

/-- All get one or two partitions, although one of them held three. -/
theorem trio_retains : GroupView.DistinctMembers [trio] ∧ trio.IsFree 0 ∧ "t" ∈ trio.topics ∧
    trio.candidates "t" ≠ [] ∧
    (∀ c ∈ trio.candidates "t", ∀ p ∈ (trio.eligible "t").values, c.canReach p.broker = true) ∧
    (∀ c ∈ trio.candidates "t", ∀ d ∈ trio.candidates "t", ∀ k ∈ (trio.eligible "t").keys,
      trioHoldings.holds c.id "t" k = true → trioHoldings.holds d.id "t" k = true → c = d) ∧
    (∀ c ∈ trio.candidates "t",
      ((steady 0 [trio] trioHoldings).of c.id "t").length = 1 ∨
        ((steady 0 [trio] trioHoldings).of c.id "t").length = 2) ∧
    IsGreatest {n | ∃ b, SharesEvenly trio "t" b ∧ staying trio "t" trioHoldings b = n}
      (staying trio "t" trioHoldings (steady 0 [trio] trioHoldings)) := by
  have hn : GroupView.DistinctMembers [trio] := by decide
  have hfree : trio.IsFree 0 := by decide
  have ht : "t" ∈ trio.topics := by decide
  have hne : trio.candidates "t" ≠ [] := by decide
  have hreach : ∀ c ∈ trio.candidates "t", ∀ p ∈ (trio.eligible "t").values,
      c.canReach p.broker = true := by decide
  have hsole : ∀ c ∈ trio.candidates "t", ∀ d ∈ trio.candidates "t",
      ∀ k ∈ (trio.eligible "t").keys, trioHoldings.holds c.id "t" k = true →
        trioHoldings.holds d.id "t" k = true → c = d := by decide
  have hsize : (trio.eligible "t").size = 4 := by decide
  have hlength : (trio.candidates "t").length = 3 := by decide
  obtain ⟨heven, hmax⟩ :=
    steady_retains trioHoldings hn List.mem_cons_self hfree ht hne hreach
  rw [hsize, hlength] at heven
  exact ⟨hn, hfree, ht, hne, hreach, hsole, heven, hmax hsole⟩

end Groups

end Balance

end ClusterMaster
