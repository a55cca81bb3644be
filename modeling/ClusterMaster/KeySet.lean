import ClusterMaster.Key

/-!
# Sets of keys, listed in ascending order

A `KeySet` holds each key once and lists its keys in the order of `Key.before`, so two sets
with the same members are equal. Every operation is described by the members it leaves:

* `mem_insert` : inserting adds one member;
* `mem_erase` : erasing removes one member;
* `mem_ofList` : a list becomes the set of its elements;
* `KeySet.ext_mem` : sets with the same members are equal.
-/

namespace ClusterMaster

/-- A finite set of keys. -/
structure KeySet (κ : Type) [Key κ] where
  toList : List κ
  ascending : toList.Pairwise fun a b => Key.before a b = true := by exact List.Pairwise.nil

namespace KeySet

variable {κ : Type} [Key κ]

instance [DecidableEq κ] : DecidableEq (KeySet κ) := fun s t =>
  if h : s.toList = t.toList then
    .isTrue (by cases s; cases t; cases h; rfl)
  else
    .isFalse fun e => h (congrArg toList e)

instance : Membership κ (KeySet κ) := ⟨fun s a => a ∈ s.toList⟩

instance [DecidableEq κ] (a : κ) (s : KeySet κ) : Decidable (a ∈ s) :=
  inferInstanceAs (Decidable (a ∈ s.toList))

def empty : KeySet κ := { toList := [] }

instance : Inhabited (KeySet κ) := ⟨empty⟩

def isEmpty (s : KeySet κ) : Bool := s.toList.isEmpty

def size (s : KeySet κ) : Nat := s.toList.length

/-! ## Algorithm -/

/-- Insert into an ascending list, leaving it as it is when the key is there already. -/
def insertInto (k : κ) : List κ → List κ
  | [] => [k]
  | a :: as =>
    if Key.before k a then k :: a :: as
    else if Key.before a k then a :: insertInto k as
    else a :: as

theorem mem_insertInto {k x : κ} {l : List κ} : x ∈ insertInto k l ↔ x = k ∨ x ∈ l := by
  induction l with
  | nil => simp [insertInto]
  | cons a as ih =>
    unfold insertInto
    split
    · simp
    · split
      · simp [ih]; grind
      · rename_i h₁ h₂
        have e : k = a := Key.eq_of_not_before (by simpa using h₁) (by simpa using h₂)
        simp [e]

theorem insertInto_ascending {k : κ} {l : List κ}
    (h : l.Pairwise fun a b => Key.before a b = true) :
    (insertInto k l).Pairwise fun a b => Key.before a b = true := by
  induction l with
  | nil => simp [insertInto]
  | cons a as ih =>
    rw [List.pairwise_cons] at h
    unfold insertInto
    split
    · rename_i hk
      refine List.pairwise_cons.mpr ⟨fun b hb => ?_, List.pairwise_cons.mpr h⟩
      rcases List.mem_cons.mp hb with rfl | hb
      · exact hk
      · exact Key.before_trans hk (h.1 b hb)
    · split
      · rename_i ha
        refine List.pairwise_cons.mpr ⟨fun b hb => ?_, ih h.2⟩
        rcases mem_insertInto.mp hb with rfl | hb
        · exact ha
        · exact h.1 b hb
      · exact List.pairwise_cons.mpr h

def insert (s : KeySet κ) (k : κ) : KeySet κ :=
  { toList := insertInto k s.toList, ascending := insertInto_ascending s.ascending }

/-- The members that pass a test. -/
def filter (s : KeySet κ) (p : κ → Bool) : KeySet κ :=
  { toList := s.toList.filter p, ascending := s.ascending.filter p }

def erase [DecidableEq κ] (s : KeySet κ) (k : κ) : KeySet κ := s.filter fun a => decide (a ≠ k)

/-- Insert every element of a list. -/
def insertAll (s : KeySet κ) (ks : List κ) : KeySet κ := ks.foldl insert s

def ofList (ks : List κ) : KeySet κ := empty.insertAll ks

/-! ## Lemmas -/

@[simp] theorem mem_toList {s : KeySet κ} {x : κ} : x ∈ s.toList ↔ x ∈ s := Iff.rfl

@[simp] theorem not_mem_empty {x : κ} : ¬ x ∈ (empty : KeySet κ) := List.not_mem_nil

@[simp] theorem mem_insert {s : KeySet κ} {k x : κ} : x ∈ s.insert k ↔ x = k ∨ x ∈ s :=
  mem_insertInto

@[simp] theorem mem_filter {s : KeySet κ} {p : κ → Bool} {x : κ} :
    x ∈ s.filter p ↔ x ∈ s ∧ p x = true := List.mem_filter

@[simp] theorem mem_erase [DecidableEq κ] {s : KeySet κ} {k x : κ} : x ∈ s.erase k ↔ x ∈ s ∧ x ≠ k := by
  simp [erase]

@[simp] theorem mem_insertAll {s : KeySet κ} {ks : List κ} {x : κ} :
    x ∈ s.insertAll ks ↔ x ∈ ks ∨ x ∈ s := by
  induction ks generalizing s with
  | nil => simp [insertAll]
  | cons k ks ih =>
    have := ih (s := s.insert k)
    simp only [insertAll, List.foldl_cons] at this ⊢
    rw [this]
    simp
    grind

@[simp] theorem mem_ofList {ks : List κ} {x : κ} : x ∈ (ofList ks : KeySet κ) ↔ x ∈ ks := by
  simp [ofList]

theorem nodup_toList (s : KeySet κ) : s.toList.Nodup :=
  s.ascending.imp fun h => Key.ne_of_before h

theorem ext_mem {s t : KeySet κ} (h : ∀ x, x ∈ s ↔ x ∈ t) : s = t := by
  have e : s.toList = t.toList := Key.ascending_ext s.ascending t.ascending h
  cases s; cases t; cases e; rfl

end KeySet

/-- A set of names. -/
abbrev NameSet := KeySet String

end ClusterMaster
