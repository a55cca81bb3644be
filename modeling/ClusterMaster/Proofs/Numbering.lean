import ClusterMaster.Proofs.Configurations
import Mathlib

/-!
# Partition numbers within 32 bits

Brokers and clients keep partition numbers in words of 32 bits. `HostedTopic.total?`, `numbers?` and
`partitions?` count and list the partitions of a topic in such words, one operation at a time, and
give up at the first result that does not fit. For a topic whose configuration has been validated
they never do: the largest number and the largest total stay just below the end of the range.

    n.toNat = store.toNat * storeStride + p.toNat ↔ number? store p = some n   (number?_eq_some_iff)
    t.partitionNumbers counts up                                       (partitionNumbers_ascending)
    n ∈ t.partitionNumbers ↔ n / storeStride is a store and n % storeStride a partition of it
                                                                           (mem_partitionNumbers_iff)
    t.validate = .ok () → (t.hosted broker v).WellNumbered          (TopicConfig.wellNumbered_hosted)
-/

namespace ClusterMaster

/-! ## Words -/

namespace Word

/-- A number as a word, if it fits. -/
def ofNat? (n : Nat) : Option UInt32 := if n < UInt32.size then some (UInt32.ofNat n) else none

def add? (a b : UInt32) : Option UInt32 := ofNat? (a.toNat + b.toNat)

def mul? (a b : UInt32) : Option UInt32 := ofNat? (a.toNat * b.toNat)

/-- The words below a word, counted up. -/
def below (n : UInt32) : List UInt32 := (List.range n.toNat).map UInt32.ofNat

theorem ofNat?_eq_some_iff {n : Nat} {w : UInt32} : ofNat? n = some w ↔ w.toNat = n := by
  unfold ofNat?
  constructor
  · intro h
    obtain ⟨hn, h⟩ := Option.ite_none_right_eq_some.mp h
    obtain rfl := Option.some.inj h
    exact UInt32.toNat_ofNat_of_lt' hn
  · rintro rfl
    rw [if_pos w.toNat_lt_size, UInt32.ofNat_toNat]

theorem add?_eq_some_iff {a b w : UInt32} : add? a b = some w ↔ w.toNat = a.toNat + b.toNat :=
  ofNat?_eq_some_iff

theorem mul?_eq_some_iff {a b w : UInt32} : mul? a b = some w ↔ w.toNat = a.toNat * b.toNat :=
  ofNat?_eq_some_iff

theorem mem_below {n w : UInt32} : w ∈ below n ↔ w.toNat < n.toNat := by
  unfold below
  constructor
  · intro h
    obtain ⟨i, hi, rfl⟩ := List.mem_map.mp h
    rw [List.mem_range] at hi
    rwa [UInt32.toNat_ofNat_of_lt' (hi.trans n.toNat_lt_size)]
  · intro h
    exact List.mem_map.mpr ⟨w.toNat, List.mem_range.mpr h, UInt32.ofNat_toNat⟩

theorem map_toNat_below (n : UInt32) : (below n).map UInt32.toNat = List.range n.toNat := by
  unfold below
  rw [List.map_map]
  refine (List.map_congr_left fun i hi => ?_).trans (List.map_id _)
  exact UInt32.toNat_ofNat_of_lt' ((List.mem_range.mp hi).trans n.toNat_lt_size)

end Word

theorem mapM_eq_some_map {α β : Type} {f : α → Option β} {g : α → β} {l : List α}
    (h : ∀ a ∈ l, f a = some (g a)) : l.mapM f = some (l.map g) := by
  induction l with
  | nil => rfl
  | cons a as ih =>
    obtain ⟨ha, has⟩ := List.forall_mem_cons.mp h
    rw [List.mapM_cons, ha, ih has]
    rfl

namespace HostedTopic

/-! ## Counting in words -/

/-- The number of a partition of a store. -/
def number? (store partition : UInt32) : Option UInt32 := do
  let first ← Word.mul? store (UInt32.ofNat storeStride)
  Word.add? first partition

/-- The partition numbers, store by store. -/
def numbers? (t : HostedTopic) : Option (List UInt32) := do
  let stores ← (Word.below t.storeCount).mapM fun store =>
    (Word.below t.partitionCount).mapM fun partition => number? store partition
  return stores.flatten

/-- The partitions of the topic on a broker. -/
def partitions? (t : HostedTopic) (b : Broker) : Option (List Partition) := do
  let numbers ← t.numbers?
  return numbers.map fun n => { broker := b, topic := t.topic, number := n.toNat }

def total? (t : HostedTopic) : Option UInt32 := Word.mul? t.partitionCount t.storeCount

theorem number?_eq_some_iff {store partition n : UInt32} : number? store partition = some n ↔
    n.toNat = store.toNat * storeStride + partition.toNat := by
  have hstride : (UInt32.ofNat storeStride).toNat = storeStride := by decide
  unfold number?
  constructor
  · intro h
    obtain ⟨first, hfirst, h⟩ := Option.bind_eq_some_iff.mp h
    rw [Word.mul?_eq_some_iff, hstride] at hfirst
    rw [Word.add?_eq_some_iff, hfirst] at h
    exact h
  · intro h
    -- the product fits, since the sum does
    have hfits : store.toNat * storeStride < UInt32.size := by
      have hn := n.toNat_lt_size
      omega
    have hfirst : Word.mul? store (UInt32.ofNat storeStride) =
        some (UInt32.ofNat (store.toNat * storeStride)) := by
      rw [Word.mul?_eq_some_iff, hstride, UInt32.toNat_ofNat_of_lt' hfits]
    rw [hfirst, Option.bind_eq_bind, Option.bind_some, Word.add?_eq_some_iff,
      UInt32.toNat_ofNat_of_lt' hfits]
    exact h

/-! ## The numbers -/

section Numbers

variable {t : HostedTopic}

theorem mem_partitionNumbers {n : Nat} : n ∈ t.partitionNumbers ↔
    ∃ store < t.storeCount.toNat, ∃ p < t.partitionCount.toNat, store * storeStride + p = n := by
  simp [partitionNumbers, List.mem_flatMap]

/-- Within a store numbers count up, and no store reaches the next one. -/
theorem partitionNumbers_ascending (h : t.partitionCount.toNat < storeStride) :
    t.partitionNumbers.Pairwise (· < ·) := by
  unfold partitionNumbers
  refine List.pairwise_flatMap.mpr ⟨fun store _ => ?_, ?_⟩
  · rw [List.pairwise_map]
    exact List.pairwise_lt_range.imp fun hlt => Nat.add_lt_add_left hlt _
  · refine List.pairwise_lt_range.imp fun {store store'} hlt n hn n' hn' => ?_
    obtain ⟨p, hp, rfl⟩ := List.mem_map.mp hn
    obtain ⟨p', -, rfl⟩ := List.mem_map.mp hn'
    rw [List.mem_range] at hp
    unfold storeStride at h ⊢
    omega

theorem nodup_partitionNumbers (h : t.partitionCount.toNat < storeStride) :
    t.partitionNumbers.Nodup :=
  (partitionNumbers_ascending h).imp fun hlt => Nat.ne_of_lt hlt

theorem length_partitionNumbers (t : HostedTopic) :
    t.partitionNumbers.length = t.totalPartitions := by
  unfold partitionNumbers totalPartitions
  rw [List.length_flatMap]
  simp [Nat.mul_comm]

/-- A number tells its store and its place in the store. -/
theorem mem_partitionNumbers_iff (h : t.partitionCount.toNat < storeStride) {n : Nat} :
    n ∈ t.partitionNumbers ↔
      n / storeStride < t.storeCount.toNat ∧ n % storeStride < t.partitionCount.toNat := by
  rw [mem_partitionNumbers]
  unfold storeStride at h ⊢
  constructor
  · rintro ⟨store, hstore, p, hp, rfl⟩
    omega
  · rintro ⟨hstore, hp⟩
    exact ⟨n / 10000, hstore, n % 10000, hp, by omega⟩

end Numbers

/-! ## Nothing overflows -/

/-- The counts of a topic are as validation asks for them. -/
structure Bounded (t : HostedTopic) : Prop where
  spaced : t.partitionCount.toNat < storeStride
  few : t.storeCount.toNat ≤ maxStoreCount

namespace Bounded

variable {t : HostedTopic} {store partition : UInt32}

theorem total_fits (h : t.Bounded) : t.totalPartitions < UInt32.size := by
  have hpartitions : t.partitionCount.toNat ≤ storeStride - 1 := Nat.le_sub_one_of_lt h.spaced
  calc t.totalPartitions
    _ ≤ (storeStride - 1) * maxStoreCount := Nat.mul_le_mul hpartitions h.few
    _ < UInt32.size := by decide

/-- The last partition of the last store is the one with the largest number. -/
theorem number_fits (h : t.Bounded) (hstore : store.toNat < t.storeCount.toNat)
    (hpartition : partition.toNat < t.partitionCount.toNat) :
    store.toNat * storeStride + partition.toNat < UInt32.size := by
  have hlast : store.toNat ≤ maxStoreCount - 1 :=
    Nat.le_sub_one_of_lt (hstore.trans_le h.few)
  have hin : partition.toNat ≤ storeStride - 1 := (hpartition.trans h.spaced).le_pred
  calc store.toNat * storeStride + partition.toNat
    _ ≤ (maxStoreCount - 1) * storeStride + (storeStride - 1) :=
      Nat.add_le_add (Nat.mul_le_mul_right _ hlast) hin
    _ < UInt32.size := by decide

theorem number?_eq (h : t.Bounded) (hstore : store.toNat < t.storeCount.toNat)
    (hpartition : partition.toNat < t.partitionCount.toNat) : number? store partition =
      some (UInt32.ofNat (store.toNat * storeStride + partition.toNat)) := by
  rw [number?_eq_some_iff, UInt32.toNat_ofNat_of_lt' (h.number_fits hstore hpartition)]

/-- Every number is reached, one operation after the other, and the list is the one that is
numbered without bounds. -/
theorem numbers?_eq (h : t.Bounded) :
    ∃ ns, t.numbers? = some ns ∧ ns.map UInt32.toNat = t.partitionNumbers := by
  have hstores : (Word.below t.storeCount).mapM (fun store =>
      (Word.below t.partitionCount).mapM fun partition => number? store partition) =
      some ((Word.below t.storeCount).map fun store => (Word.below t.partitionCount).map
        fun partition => UInt32.ofNat (store.toNat * storeStride + partition.toNat)) := by
    refine mapM_eq_some_map fun store hstore => mapM_eq_some_map fun partition hpartition => ?_
    exact h.number?_eq (Word.mem_below.mp hstore) (Word.mem_below.mp hpartition)
  refine ⟨((Word.below t.storeCount).map fun store => (Word.below t.partitionCount).map
    fun partition => UInt32.ofNat (store.toNat * storeStride + partition.toNat)).flatten, ?_, ?_⟩
  · unfold numbers?
    rw [hstores]
    rfl
  · have hstore (store : UInt32) (hs : store ∈ Word.below t.storeCount) :
        ((Word.below t.partitionCount).map fun partition =>
          UInt32.ofNat (store.toNat * storeStride + partition.toNat)).map UInt32.toNat =
        (List.range t.partitionCount.toNat).map fun p => store.toNat * storeStride + p := by
      rw [← Word.map_toNat_below, List.map_map, List.map_map]
      refine List.map_congr_left fun partition hpartition => ?_
      exact UInt32.toNat_ofNat_of_lt'
        (h.number_fits (Word.mem_below.mp hs) (Word.mem_below.mp hpartition))
    rw [List.map_flatten, List.map_map, partitionNumbers, List.flatMap_def,
      ← Word.map_toNat_below t.storeCount, List.map_map]
    exact congrArg List.flatten (List.map_congr_left hstore)

theorem partitions?_eq (h : t.Bounded) (b : Broker) : t.partitions? b = some (t.partitions b) := by
  obtain ⟨ns, hns, hnumbers⟩ := h.numbers?_eq
  unfold partitions? partitions
  rw [hns, ← hnumbers, List.map_map]
  rfl

end Bounded

/-- The partitions of a topic are counted and numbered within 32 bits and told apart. -/
structure WellNumbered (t : HostedTopic) : Prop where
  total : ∃ n, t.total? = some n ∧ n.toNat = t.totalPartitions
  numbers : ∃ ns, t.numbers? = some ns ∧ ns.map UInt32.toNat = t.partitionNumbers
  partitions : ∀ b, t.partitions? b = some (t.partitions b)
  ascending : t.partitionNumbers.Pairwise (· < ·)
  count : t.partitionNumbers.length = t.totalPartitions
  /-- There are no other numbers than those of the partitions of the stores. -/
  exhausted : ∀ n, n ∈ t.partitionNumbers ↔
    n / storeStride < t.storeCount.toNat ∧ n % storeStride < t.partitionCount.toNat
  /-- A partition of a store has a number, from which both can be read. -/
  placed : ∀ store partition : UInt32, store.toNat < t.storeCount.toNat →
    partition.toNat < t.partitionCount.toNat → ∃ n, number? store partition = some n ∧
      n.toNat ∈ t.partitionNumbers ∧ n.toNat / storeStride = store.toNat ∧
      n.toNat % storeStride = partition.toNat
  apart : ∀ store partition store' partition' : UInt32,
    store.toNat < t.storeCount.toNat → partition.toNat < t.partitionCount.toNat →
    store'.toNat < t.storeCount.toNat → partition'.toNat < t.partitionCount.toNat →
    number? store partition = number? store' partition' →
    store = store' ∧ partition = partition'

theorem Bounded.placed {t : HostedTopic} (h : t.Bounded) {store partition : UInt32}
    (hstore : store.toNat < t.storeCount.toNat)
    (hpartition : partition.toNat < t.partitionCount.toNat) :
    ∃ n, number? store partition = some n ∧ n.toNat ∈ t.partitionNumbers ∧
      n.toNat / storeStride = store.toNat ∧ n.toNat % storeStride = partition.toNat := by
  have hnumber := h.number?_eq hstore hpartition
  have hn := number?_eq_some_iff.mp hnumber
  refine ⟨_, hnumber, ?_⟩
  rw [hn]
  have hin := h.spaced
  refine ⟨mem_partitionNumbers.mpr ⟨_, hstore, _, hpartition, rfl⟩, ?_⟩
  unfold storeStride at hin ⊢
  omega

theorem Bounded.wellNumbered {t : HostedTopic} (h : t.Bounded) : t.WellNumbered where
  total := by
    refine ⟨UInt32.ofNat t.totalPartitions, ?_, UInt32.toNat_ofNat_of_lt' h.total_fits⟩
    rw [total?, Word.mul?_eq_some_iff, UInt32.toNat_ofNat_of_lt' h.total_fits]
    rfl
  numbers := h.numbers?_eq
  partitions := h.partitions?_eq
  ascending := partitionNumbers_ascending h.spaced
  count := length_partitionNumbers t
  exhausted _ := mem_partitionNumbers_iff h.spaced
  placed _ _ hstore hpartition := h.placed hstore hpartition
  apart := by
    intro store partition store' partition' hs hp hs' hp' heq
    obtain ⟨n, hn, -, hstore, hpartition⟩ := h.placed hs hp
    obtain ⟨n', hn', -, hstore', hpartition'⟩ := h.placed hs' hp'
    obtain rfl : n = n' := Option.some.inj (hn.symm.trans (heq.trans hn'))
    exact ⟨UInt32.toNat_inj.mp (hstore.symm.trans hstore'),
      UInt32.toNat_inj.mp (hpartition.symm.trans hpartition')⟩

end HostedTopic

/-! ## Validated topics -/

/-- A topic that has been validated is well numbered, whatever a broker offers of it. -/
theorem TopicConfig.wellNumbered_hosted {t : TopicConfig} (h : t.validate = .ok ())
    (broker : BrokerId) (v : Visibility) : (t.hosted broker v).WellNumbered := by
  obtain ⟨-, -, hpartitions, -, hstores⟩ := validate_ok_iff.mp h
  exact HostedTopic.Bounded.wellNumbered ⟨hpartitions, hstores⟩

/-- As many partitions and stores as validation lets through. -/
def TopicConfig.largest : TopicConfig :=
  { topic := "t", partitionCount := 9999, storeCount := 429496 }

theorem TopicConfig.wellNumbered_largest : TopicConfig.largest.validate = .ok () ∧
    (TopicConfig.largest.hosted 1 { publish := true, subscribe := true }).WellNumbered :=
  ⟨rfl, wellNumbered_hosted rfl 1 _⟩

end ClusterMaster
