import ClusterMaster.Proofs.Holdings

/-!
# A change that is carried out reaches its goal

A change is found by diff key and carried out by place. Over TLS the two are not the same: of a
broker that has moved, what is dropped and what is taken up have one place, and the consumer ends
up with the new address only because drops come first.

    H files every partition under its own place, a target lists partitions of its own topics,
    each key once →
      the change from H to the target, carried out, leaves the diff keys that are wanted of each
      topic, touches nothing that is both held and wanted, and is empty exactly when the diff keys
      are the same already                                        (HoldingChange.between_reaches)
-/

namespace ClusterMaster

namespace Holding

variable {h : Holding} {x : String × String} {p : Partition}

/-- What is held after a drop was held before, at a place that nothing dropped has. -/
theorem get?_apply_of_disconnect {e : Event} (he : e.kind.isConnect = false) :
    (h.apply e).get? x = some p ↔
      h.get? x = some p ∧ ∀ s ∈ e.subscriptions, s.partition.place ≠ x := by
  rw [Holding.apply, if_neg (by rw [he]; decide)]
  generalize e.subscriptions = subs
  induction subs generalizing h with
  | nil => simp
  | cons s subs ih =>
    rw [List.foldl_cons, ih, List.forall_mem_cons, ← and_assoc, get?_remove]
    refine and_congr_left' ?_
    by_cases hx : s.partition.place = x <;> simp [hx]

/-- What is held after something was taken up is part of it, or has a place of its own. -/
theorem of_get?_apply_connect {e : Event} (he : e.kind.isConnect = true)
    (hp : (h.apply e).get? x = some p) :
    (∃ s ∈ e.subscriptions, s.partition = p ∧ p.place = x) ∨
      (h.get? x = some p ∧ ∀ s ∈ e.subscriptions, s.partition.place ≠ x) := by
  rw [Holding.apply, if_pos he] at hp
  generalize e.subscriptions = subs at *
  induction subs generalizing h with
  | nil => exact .inr ⟨hp, fun s hs => absurd hs List.not_mem_nil⟩
  | cons s subs ih =>
    rcases ih hp with ⟨r, hr, hrp⟩ | ⟨hget, hothers⟩
    · exact .inl ⟨r, List.mem_cons_of_mem _ hr, hrp⟩
    · rw [get?_add] at hget
      split at hget
      · rename_i hx
        obtain rfl := Option.some.inj hget
        exact .inl ⟨s, List.mem_cons_self, rfl, hx⟩
      · rename_i hx
        exact .inr ⟨hget, List.forall_mem_cons.mpr ⟨hx, hothers⟩⟩

/-- The partitions that are held of a topic. -/
def held (h : Holding) (topic : String) : Set Partition := {p | ∃ key, h.get? (topic, key) = some p}

end Holding

namespace Partition

/-- The keys by which partitions are compared. -/
def diffKeys (tls : Bool) (ps : Set Partition) : Set String := Set.image (fun p => p.diffKey tls) ps

theorem not_mem_diffKeys {tls : Bool} {ps : Set Partition} {k : String} :
    k ∉ diffKeys tls ps ↔ ∀ p ∈ ps, p.diffKey tls ≠ k := by
  simp only [diffKeys, Set.mem_image, not_exists, not_and, ne_eq]

end Partition

namespace HoldingChange

variable {c : Consumer} {pass : Nat} {h : Holding} {target : Option Target} {black : NameSet}
  {topic : String} {p q : Partition} {d : HoldingChange} {x : String × String}

/-- The holding once a change has been carried out: first the drops, then what is taken up. -/
def carriedOut (d : HoldingChange) (c : Consumer) (pass : Nat) (h : Holding) : Holding :=
  (h.apply { pass, kind := .disconnect, subscriptions := d.disconnect.map c.subscription }).apply
    { pass, kind := .connect, subscriptions := d.connect.map c.subscription }

theorem wellFiled_carriedOut (hw : h.WellFiled) : (d.carriedOut c pass h).WellFiled :=
  (hw.apply _).apply _

theorem of_get?_carriedOut (hp : (d.carriedOut c pass h).get? x = some p) :
    (p ∈ d.connect ∧ p.place = x) ∨
      (h.get? x = some p ∧ (∀ q ∈ d.disconnect, q.place ≠ x) ∧ ∀ q ∈ d.connect, q.place ≠ x) := by
  rcases Holding.of_get?_apply_connect rfl hp with ⟨s, hs, rfl, hx⟩ | ⟨hget, hconnect⟩
  · obtain ⟨q, hq, rfl⟩ := List.mem_map.mp hs
    exact .inl ⟨hq, hx⟩
  · obtain ⟨hget, hdisconnect⟩ := (Holding.get?_apply_of_disconnect rfl).mp hget
    exact .inr ⟨hget, fun q hq => hdisconnect _ (List.mem_map_of_mem hq),
      fun q hq => hconnect _ (List.mem_map_of_mem hq)⟩

theorem contains_carriedOut : (d.carriedOut c pass h).contains x = true ↔
    (h.contains x = true ∧ ∀ q ∈ d.disconnect, q.place ≠ x) ∨ ∃ q ∈ d.connect, q.place = x := by
  rw [carriedOut, Holding.contains_apply_of_connect rfl, Holding.contains_apply_of_disconnect rfl]
  simp only [List.mem_map, exists_exists_and_eq_and, forall_exists_index, and_imp,
    forall_apply_eq_imp_iff₂]
  rfl

/-! ## What is wanted -/

/-- What a consumer should hold of a topic: nothing of a blocked one, else what its target lists
or, without a target, what it holds. -/
def goal (h : Holding) (target : Option Target) (black : NameSet) (topic : String) : Set Partition :=
  {p | topic ∉ black ∧
    match target with
    | some t => p ∈ t.getD topic []
    | none => p ∈ h.held topic}

theorem mem_wanted_iff : p ∈ wanted h target black topic ↔ p ∈ goal h target black topic := by
  unfold wanted
  split
  · rename_i hblack
    simp only [List.not_mem_nil, false_iff]
    exact fun hp => hp.1 hblack
  · rename_i hblack
    cases target with
    | none => exact Holding.mem_ofTopic.trans ⟨fun hp => ⟨hblack, hp⟩, fun hp => hp.2⟩
    | some t => exact ⟨fun hp => ⟨hblack, hp⟩, fun hp => hp.2⟩

/-- A target lists no key of a topic twice. -/
def Target.Distinct (target : Option Target) : Prop :=
  ∀ t ∈ target, ∀ topic, ((t.getD topic []).map Partition.key).Nodup

/-- The change leads a holding to a goal, by the keys the consumer compares partitions by. -/
structure Reaches (c : Consumer) (h : Holding) (goal : String → Set Partition) (d : HoldingChange) :
    Prop where
  wellFiled : ∀ pass, (d.carriedOut c pass h).WellFiled
  keys : ∀ pass topic, Partition.diffKeys c.overTls ((d.carriedOut c pass h).held topic) =
    Partition.diffKeys c.overTls (goal topic)
  dropped : ∀ p ∈ d.disconnect, p.diffKey c.overTls ∉ Partition.diffKeys c.overTls (goal p.topic)
  taken : ∀ p ∈ d.connect, p.diffKey c.overTls ∉ Partition.diffKeys c.overTls (h.held p.topic)
  empty : d.disconnect = [] ∧ d.connect = [] ↔
    ∀ topic, Partition.diffKeys c.overTls (h.held topic) = Partition.diffKeys c.overTls (goal topic)

section Between

variable (hw : h.WellFiled) (ht : Target.WellFiled target) (hn : Target.Distinct target)

include hw in
theorem mem_between_disconnect :
    p ∈ (between c.overTls h target black).disconnect ↔ p ∈ h.held p.topic ∧
      p.diffKey c.overTls ∉ Partition.diffKeys c.overTls (goal h target black p.topic) := by
  simp only [mem_disconnect, mem_wanted_iff, Partition.not_mem_diffKeys]
  constructor
  · rintro ⟨topic, hp, hno⟩
    obtain ⟨hget, rfl⟩ := hw.mem_ofTopic.mp hp
    exact ⟨⟨_, hget⟩, hno⟩
  · rintro ⟨hp, hno⟩
    exact ⟨_, Holding.mem_ofTopic.mpr hp, hno⟩

include hw ht in
theorem mem_between_connect :
    p ∈ (between c.overTls h target black).connect ↔ p ∈ goal h target black p.topic ∧
      p.diffKey c.overTls ∉ Partition.diffKeys c.overTls (h.held p.topic) := by
  simp only [mem_connect, Partition.not_mem_diffKeys]
  constructor
  · rintro ⟨topic, hp, hno⟩
    obtain rfl := topic_of_mem_wanted hw ht hp
    exact ⟨mem_wanted_iff.mp hp, fun q hq => hno q (Holding.mem_ofTopic.mpr hq)⟩
  · rintro ⟨hp, hno⟩
    exact ⟨_, mem_wanted_iff.mpr hp, fun q hq => hno q (Holding.mem_ofTopic.mp hq)⟩

include hw ht in
theorem topic_of_mem_goal (hp : p ∈ goal h target black topic) : p.topic = topic :=
  topic_of_mem_wanted hw ht (mem_wanted_iff.mpr hp)

include hw hn in
/-- What is wanted of a topic has different keys. -/
theorem eq_of_mem_goal (hp : p ∈ goal h target black topic) (hq : q ∈ goal h target black topic)
    (hkey : p.key = q.key) : p = q := by
  cases target with
  | none =>
    obtain ⟨k, hk⟩ := hp.2
    obtain ⟨l, hl⟩ := hq.2
    obtain ⟨-, rfl⟩ := Prod.mk.inj (hw _ p hk)
    obtain ⟨-, rfl⟩ := Prod.mk.inj (hw _ q hl)
    rw [hkey, hl] at hk
    exact (Option.some.inj hk).symm
  | some t => exact List.inj_on_of_nodup_map (hn t rfl topic) hp.2 hq.2 hkey

/-! ## What the change leads to -/

include hw ht in
/-- What is held in the end was taken up or kept, so it is wanted, up to the offset to start
from. -/
theorem exists_goal_of_carriedOut {key : String}
    (hp : ((between c.overTls h target black).carriedOut c pass h).get? (topic, key) = some p) :
    ∃ w ∈ goal h target black topic, w.diffKey c.overTls = p.diffKey c.overTls ∧ w.key = key := by
  obtain ⟨rfl, rfl⟩ := Prod.mk.inj (wellFiled_carriedOut hw _ p hp)
  rcases of_get?_carriedOut hp with ⟨hconnect, -⟩ | ⟨hget, hkept, -⟩
  · exact ⟨p, ((mem_between_connect hw ht).mp hconnect).1, rfl, rfl⟩
  · by_contra hno
    refine hkept p ((mem_between_disconnect hw).mpr ⟨⟨_, hget⟩, ?_⟩) rfl
    rintro ⟨w, hwant, hdiff⟩
    exact hno ⟨w, hwant, hdiff, Partition.key_eq_of_diffKey_eq (topic_of_mem_goal hw ht hwant) hdiff⟩

include hw ht hn in
theorem diffKeys_carriedOut (topic : String) : Partition.diffKeys c.overTls
      (((between c.overTls h target black).carriedOut c pass h).held topic) =
    Partition.diffKeys c.overTls (goal h target black topic) := by
  ext k
  constructor
  · rintro ⟨p, ⟨key, hp⟩, rfl⟩
    obtain ⟨w, hwant, hdiff, -⟩ := exists_goal_of_carriedOut hw ht hp
    exact ⟨w, hwant, hdiff⟩
  · rintro ⟨w, hwant, rfl⟩
    have hplace := (place_after_iff c.overTls black hw ht topic w.key).mpr
      ⟨w, mem_wanted_iff.mpr hwant, rfl⟩
    obtain ⟨p, hp⟩ := Table.contains_iff.mp (contains_carriedOut.mpr hplace)
    -- what is found under the key is wanted as well, and a goal has the key only once
    obtain ⟨w', hwant', hdiff, hkey⟩ := exists_goal_of_carriedOut hw ht hp
    obtain rfl := eq_of_mem_goal hw hn hwant' hwant hkey
    exact ⟨p, ⟨w'.key, hp⟩, hdiff.symm⟩

include hw in
theorem between_disconnect_eq_nil_iff : (between c.overTls h target black).disconnect = [] ↔
    ∀ topic, Partition.diffKeys c.overTls (h.held topic) ⊆
      Partition.diffKeys c.overTls (goal h target black topic) := by
  simp only [List.eq_nil_iff_forall_not_mem, mem_between_disconnect hw, not_and, not_not]
  constructor
  · rintro hall topic k ⟨p, ⟨key, hp⟩, rfl⟩
    obtain ⟨rfl, rfl⟩ := Prod.mk.inj (hw _ p hp)
    exact hall p ⟨_, hp⟩
  · exact fun hall p hp => hall p.topic ⟨p, hp, rfl⟩

include hw ht in
theorem between_connect_eq_nil_iff : (between c.overTls h target black).connect = [] ↔
    ∀ topic, Partition.diffKeys c.overTls (goal h target black topic) ⊆
      Partition.diffKeys c.overTls (h.held topic) := by
  simp only [List.eq_nil_iff_forall_not_mem, mem_between_connect hw ht, not_and, not_not]
  constructor
  · rintro hall topic k ⟨p, hp, rfl⟩
    obtain rfl := topic_of_mem_goal hw ht hp
    exact hall p hp
  · exact fun hall p hp => hall p.topic ⟨p, hp, rfl⟩

include hw ht hn in
/-- Carrying out the change from a holding to a target leads to the target. -/
theorem between_reaches (c : Consumer) (black : NameSet) :
    Reaches c h (goal h target black) (between c.overTls h target black) where
  wellFiled _ := wellFiled_carriedOut hw
  keys _ := diffKeys_carriedOut hw ht hn
  dropped p hp := ((mem_between_disconnect hw).mp hp).2
  taken p hp := ((mem_between_connect hw ht).mp hp).2
  empty := by
    rw [between_disconnect_eq_nil_iff hw, between_connect_eq_nil_iff hw ht, ← forall_and]
    exact forall_congr' fun topic => Set.Subset.antisymm_iff.symm

end Between

/-- A partition of the broker 1 while the broker is found at the host. -/
def hostedAt (host topic : String) (number : Nat) : Partition where
  broker := { id := 1, host, port := 1, tlsEnabled := true, tlsPort := 2 }
  topic := topic
  number := number

/-- A consumer that talks TLS. -/
def follower : Consumer :=
  { id := "a", group := "g", host := "h", topics := KeySet.ofList ["t", "u"], overTls := true }

/-- It reads from the broker where the broker was. -/
def followed : Holding := Holding.ofSubscriptions
  ([hostedAt "old" "t" 0, hostedAt "old" "t" 1, hostedAt "old" "u" 0].map follower.subscription)

/-- The broker has moved, and hosts one partition less. -/
def movedTarget : Target := Table.ofList
  [("t", [hostedAt "new" "t" 0, hostedAt "new" "t" 2]), ("u", [hostedAt "new" "u" 0])]

/-- The follower is blocked from one of its topics. -/
theorem follower_reaches : followed.WellFiled ∧ Target.WellFiled (some movedTarget) ∧
    Target.Distinct (some movedTarget) ∧
    Reaches follower followed (goal followed (some movedTarget) (KeySet.ofList ["u"]))
      (between true followed (some movedTarget) (KeySet.ofList ["u"])) := by
  have hlists : ∀ topic, movedTarget.getD topic [] = [] ∨
      (topic, movedTarget.getD topic []) ∈ movedTarget.entries := by
    intro topic
    unfold Table.getD
    cases hget : movedTarget.get? topic with
    | none => exact .inl rfl
    | some ps => exact .inr (Table.get?_eq_some_iff.mp hget)
  have hw : followed.WellFiled := Holding.wellFiled_ofSubscriptions _
  have ht : Target.WellFiled (some movedTarget) := by
    rintro t ht topic p hp
    obtain rfl := Option.some.inj ht
    rcases hlists topic with hnil | hmem
    · rw [hnil] at hp
      cases hp
    · have hall : ∀ e ∈ movedTarget.entries, ∀ p ∈ e.2, p.topic = e.1 := by decide
      exact hall _ hmem p hp
  have hn : Target.Distinct (some movedTarget) := by
    rintro t ht topic
    obtain rfl := Option.some.inj ht
    rcases hlists topic with hnil | hmem
    · rw [hnil]
      exact List.nodup_nil
    · have hall : ∀ e ∈ movedTarget.entries, (e.2.map Partition.key).Nodup := by decide
      exact hall _ hmem
  exact ⟨hw, ht, hn, between_reaches hw ht hn follower _⟩

end HoldingChange

end ClusterMaster
