import ClusterMaster.Client
import Mathlib

/-!
# Names read back

Partitions and consumers are named by texts made of several parts. The parts can be read off
again, although topics and ids are arbitrary texts: a number holds no separator, so the parts
that surround a topic are found from both ends.

    p.key = q.key ↔ p.identity = q.identity                              (Partition.key_eq_key_iff)
    p.topic = q.topic → p.diffKey tls = q.diffKey tls → p.key = q.key    (Partition.key_eq_of_diffKey_eq)
    for any p and q, what keys and keys over TLS tell apart              (Partition.keys_identify)
    splitLivenessKey key = some (c, g) ↔ key = livenessKey c g, no '@' in g  (splitLivenessKey_eq_some_iff)
-/

namespace ClusterMaster

/-! ## Texts around a separator -/

/-- What stands before the first separator, and what stands after it. -/
theorem eq_of_append_first {α : Type} {x : α} {l l' r r' : List α} (h : x ∉ l) (h' : x ∉ l')
    (e : l ++ x :: r = l' ++ x :: r') : l = l' ∧ r = r' := by
  induction l generalizing l' with
  | nil =>
    cases l' with
    | nil => exact ⟨rfl, (List.cons.inj e).2⟩
    | cons b bs => exact absurd (List.cons.inj e).1 (fun e => h' (by simp [e]))
  | cons a as ih =>
    cases l' with
    | nil => exact absurd (List.cons.inj e).1.symm (fun e => h (by simp [e]))
    | cons b bs =>
      obtain ⟨hab, he⟩ := List.cons.inj e
      obtain ⟨h₁, h₂⟩ := ih (fun hm => h (List.mem_cons_of_mem _ hm))
        (fun hm => h' (List.mem_cons_of_mem _ hm)) he
      exact ⟨by rw [hab, h₁], h₂⟩

/-- What stands before the last separator, and what stands after it. -/
theorem eq_of_append_last {α : Type} {x : α} {l l' r r' : List α} (h : x ∉ r) (h' : x ∉ r')
    (e : l ++ x :: r = l' ++ x :: r') : l = l' ∧ r = r' := by
  have hrev : r.reverse ++ x :: l.reverse = r'.reverse ++ x :: l'.reverse := by
    simpa using congrArg List.reverse e
  obtain ⟨h₁, h₂⟩ := eq_of_append_first (by simpa using h) (by simpa using h') hrev
  exact ⟨List.reverse_injective h₂, List.reverse_injective h₁⟩

theorem toDigits_inj {m n : Nat} (h : Nat.toDigits 10 m = Nat.toDigits 10 n) : m = n := by
  have := congrArg (Nat.ofDigitChars 10 · 0) h
  simpa using this

theorem not_mem_toDigits {c : Char} (h : c.isDigit = false) (n : Nat) : c ∉ Nat.toDigits 10 n := by
  intro hc
  have hd : c.isDigit = true := Nat.isDigit_of_mem_toDigits (by decide) (by decide) hc
  rw [h] at hd
  cases hd

/-! ## Partitions -/

namespace Partition

theorem toList_key (p : Partition) : p.key.toList =
    Nat.toDigits 10 p.broker.id.toNat ++ '-' :: (p.topic.toList ++ '-' :: Nat.toDigits 10 p.number) := by
  simp [key]

theorem toList_address (p : Partition) (tls : Bool) : (p.address tls).toList =
    Nat.toDigits 10 p.broker.id.toNat ++ ':' :: (p.broker.host.toList ++
      ':' :: (Nat.toDigits 10 (p.broker.portFor tls).toNat ++ '#' :: (p.topic.toList ++
        ':' :: Nat.toDigits 10 p.number))) := by
  simp [address]

theorem identity_eq_identity_iff {p q : Partition} : p.identity = q.identity ↔
    p.broker.id = q.broker.id ∧ p.topic = q.topic ∧ p.number = q.number := by
  simp only [identity, Prod.mk.injEq]

/-- The key tells broker, topic and number apart. -/
theorem key_eq_key_iff {p q : Partition} : p.key = q.key ↔ p.identity = q.identity := by
  rw [identity_eq_identity_iff]
  constructor
  · intro h
    have e := congrArg String.toList h
    rw [toList_key, toList_key] at e
    obtain ⟨hb, ht⟩ := eq_of_append_first (not_mem_toDigits rfl _) (not_mem_toDigits rfl _) e
    obtain ⟨ht, hn⟩ := eq_of_append_last (not_mem_toDigits rfl _) (not_mem_toDigits rfl _) ht
    exact ⟨UInt32.toNat_inj.mp (toDigits_inj hb), String.toList_injective ht, toDigits_inj hn⟩
  · intro h
    simp [key, h]

theorem topic_eq_of_key_eq {p q : Partition} (h : p.key = q.key) : p.topic = q.topic :=
  congrArg (fun i => i.2.1) (key_eq_key_iff.mp h)

/-- Within a topic, an address tells broker, host, port and number apart. -/
theorem address_eq_address_iff {p q : Partition} {tls : Bool} (ht : p.topic = q.topic) :
    p.address tls = q.address tls ↔ p.broker.id = q.broker.id ∧ p.broker.host = q.broker.host ∧
      p.broker.portFor tls = q.broker.portFor tls ∧ p.number = q.number := by
  constructor
  · intro h
    have e := congrArg String.toList h
    rw [toList_address, toList_address, ht] at e
    obtain ⟨hb, he⟩ := eq_of_append_first (not_mem_toDigits rfl _) (not_mem_toDigits rfl _) e
    -- the number stands after the last separator, whatever the host and the topic look like
    have hlast : (p.broker.host.toList ++ ':' :: (Nat.toDigits 10 (p.broker.portFor tls).toNat ++
          '#' :: q.topic.toList)) ++ ':' :: Nat.toDigits 10 p.number =
        (q.broker.host.toList ++ ':' :: (Nat.toDigits 10 (q.broker.portFor tls).toNat ++
          '#' :: q.topic.toList)) ++ ':' :: Nat.toDigits 10 q.number := by simpa using he
    obtain ⟨hfront, hn⟩ :=
      eq_of_append_last (not_mem_toDigits rfl _) (not_mem_toDigits rfl _) hlast
    -- the topic is known, and before it the port stands after the last separator
    have hport : p.broker.host.toList ++ ':' :: Nat.toDigits 10 (p.broker.portFor tls).toNat =
        q.broker.host.toList ++ ':' :: Nat.toDigits 10 (q.broker.portFor tls).toNat := by
      refine (List.append_left_inj ('#' :: q.topic.toList)).mp ?_
      simpa using hfront
    obtain ⟨hh, hp⟩ := eq_of_append_last (not_mem_toDigits rfl _) (not_mem_toDigits rfl _) hport
    exact ⟨UInt32.toNat_inj.mp (toDigits_inj hb), String.toList_injective hh,
      UInt16.toNat_inj.mp (toDigits_inj hp), toDigits_inj hn⟩
  · rintro ⟨hb, hh, hp, hn⟩
    simp [address, hb, hh, hp, hn, ht]

theorem key_eq_of_diffKey_eq {p q : Partition} {tls : Bool} (ht : p.topic = q.topic)
    (h : p.diffKey tls = q.diffKey tls) : p.key = q.key := by
  cases tls with
  | false => simpa [diffKey] using h
  | true =>
    obtain ⟨hb, -, -, hn⟩ := (address_eq_address_iff ht).mp (show p.address true = q.address true from h)
    rw [key_eq_key_iff, identity_eq_identity_iff]
    exact ⟨hb, ht, hn⟩

/-- A key stands for one partition, and within a topic a key over TLS stands for one partition at
one address, whatever separators topics and hosts are made of. -/
theorem keys_identify (p q : Partition) :
    (p.key = q.key ↔ p.broker.id = q.broker.id ∧ p.topic = q.topic ∧ p.number = q.number) ∧
    (p.key = q.key ↔ p.identity = q.identity) ∧
    (p.topic = q.topic → (p.diffKey true = q.diffKey true ↔ p.broker.id = q.broker.id ∧
      p.broker.host = q.broker.host ∧ p.broker.tlsPort = q.broker.tlsPort ∧
      p.number = q.number)) := by
  refine ⟨?_, key_eq_key_iff, ?_⟩
  · rw [key_eq_key_iff, identity_eq_identity_iff]
  · intro ht
    exact address_eq_address_iff ht

/-- A partition whose topic is made of separators and numbers. -/
def tangled (host : String) (tlsPort : UInt16) : Partition :=
  { broker := { id := 1, host := host, port := 1, tlsEnabled := true, tlsPort := tlsPort }
    topic := "1-t:2#h:1"
    number := 10 }

/-- A port cannot be taken for the end of a host. -/
theorem tangled_apart : (tangled "h:1" 11).topic = (tangled "h" 1).topic ∧
    (tangled "h:1" 11).key = (tangled "h" 1).key ∧
    (tangled "h:1" 11).diffKey true ≠ (tangled "h" 1).diffKey true := by
  refine ⟨rfl, rfl, fun h => ?_⟩
  obtain ⟨-, hhost, -⟩ :=
    ((keys_identify (tangled "h:1" 11) (tangled "h" 1)).2.2 rfl).mp h
  exact absurd hhost (by decide)

end Partition

/-! ## Consumers -/

theorem splitLast_eq_none_iff {c : Char} {s : List Char} : splitLast c s = none ↔ c ∉ s := by
  induction s with
  | nil => simp [splitLast]
  | cons x xs ih =>
    unfold splitLast
    cases hxs : splitLast c xs with
    | some p =>
      have hc : c ∈ xs := by
        by_contra hc
        rw [ih.mpr hc] at hxs
        cases hxs
      simp [hc]
    | none =>
      have hc : c ∉ xs := ih.mp hxs
      by_cases hx : x = c
      · simp [hx]
      · simp [hx, hc, Ne.symm hx]

/-- A text is split where the last separator stands. -/
theorem splitLast_eq_some_iff {c : Char} {s l r : List Char} :
    splitLast c s = some (l, r) ↔ s = l ++ c :: r ∧ c ∉ r := by
  constructor
  · intro h
    induction s generalizing l with
    | nil => cases h
    | cons x xs ih =>
      unfold splitLast at h
      split at h
      · rename_i l' r' hxs
        cases h
        obtain ⟨rfl, hr⟩ := ih hxs
        exact ⟨rfl, hr⟩
      · rename_i hxs
        obtain ⟨hx, hhere⟩ := Option.ite_none_right_eq_some.mp h
        cases hhere
        exact ⟨by rw [hx, List.nil_append], splitLast_eq_none_iff.mp hxs⟩
  · rintro ⟨rfl, hr⟩
    induction l with
    | nil => simp [splitLast, splitLast_eq_none_iff.mpr hr]
    | cons x xs ih => simp [splitLast, ih]

theorem toList_livenessKey (consumer group : String) :
    (livenessKey consumer group).toList = consumer.toList ++ '@' :: group.toList := by
  simp [livenessKey]

/-- A key is read as the consumer and the group it was made of, where the group holds no separator. -/
theorem splitLivenessKey_eq_some_iff {key consumer group : String} :
    splitLivenessKey key = some (consumer, group) ↔
      key = livenessKey consumer group ∧ '@' ∉ group.toList := by
  unfold splitLivenessKey
  constructor
  · intro h
    obtain ⟨⟨l, r⟩, hsplit, hparts⟩ := Option.map_eq_some_iff.mp h
    obtain ⟨hkey, hr⟩ := splitLast_eq_some_iff.mp hsplit
    obtain ⟨rfl, rfl⟩ := Prod.mk.inj hparts
    refine ⟨String.toList_injective ?_, by simpa using hr⟩
    simpa [toList_livenessKey] using hkey
  · rintro ⟨rfl, hgroup⟩
    have hsplit := splitLast_eq_some_iff.mpr ⟨toList_livenessKey consumer group, hgroup⟩
    simp [hsplit]

/-- The two parts of a liveness key are found again when the group holds no separator. -/
theorem splitLivenessKey_livenessKey (consumer : String) {group : String} (h : '@' ∉ group.toList) :
    splitLivenessKey (livenessKey consumer group) = some (consumer, group) :=
  splitLivenessKey_eq_some_iff.mpr ⟨rfl, h⟩

theorem livenessKey_inj {consumer consumer' group group' : String} (h : '@' ∉ group.toList)
    (h' : '@' ∉ group'.toList) : livenessKey consumer group = livenessKey consumer' group' ↔
      consumer = consumer' ∧ group = group' := by
  constructor
  · intro e
    have hsplit := splitLivenessKey_livenessKey consumer h
    rw [e, splitLivenessKey_livenessKey consumer' h', Option.some.injEq, Prod.mk.injEq] at hsplit
    exact ⟨hsplit.1.symm, hsplit.2.symm⟩
  · rintro ⟨rfl, rfl⟩
    rfl

end ClusterMaster
