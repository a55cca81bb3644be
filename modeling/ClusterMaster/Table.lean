import ClusterMaster.KeySet

/-!
# Tables: one value per key, listed in ascending key order

A `Table` is a finite map that keeps its entries sorted by key, so two tables that answer every
look-up alike are equal. Each operation is described by what a look-up sees afterwards:

* `get?_insert`, `get?_erase`, `get?_filter`, `get?_ofList` : the look-up after an operation;
* `get?_insertAll_entries` : the look-up in two tables laid over each other;
* `mem_entries_iff` : an entry is listed exactly when a look-up finds it;
* `Table.ext_get?` : tables with the same look-ups are equal;
* `insert_insert`, `erase_insert`, `insert_erase` : what the last write to a key leaves of the others.
-/

namespace ClusterMaster

/-- A finite map from keys to values. -/
structure Table (κ ν : Type) [Key κ] where
  entries : List (κ × ν)
  ascending : entries.Pairwise (fun a b => Key.before a.1 b.1 = true) := by
    exact List.Pairwise.nil

namespace Table

variable {κ ν μ : Type} [Key κ]

instance [DecidableEq κ] [DecidableEq ν] : DecidableEq (Table κ ν) := fun s t =>
  if h : s.entries = t.entries then
    .isTrue (by cases s; cases t; cases h; rfl)
  else
    .isFalse fun e => h (congrArg entries e)

def empty : Table κ ν := { entries := [] }

instance : Inhabited (Table κ ν) := ⟨empty⟩

def isEmpty (t : Table κ ν) : Bool := t.entries.isEmpty

def size (t : Table κ ν) : Nat := t.entries.length

def values (t : Table κ ν) : List ν := t.entries.map Prod.snd

/-! ## Algorithm -/

/-- Look a key up in a list of entries; the first entry with the key counts. -/
def lookupIn [DecidableEq κ] (k : κ) : List (κ × ν) → Option ν
  | [] => none
  | e :: es => if e.1 = k then some e.2 else lookupIn k es

def get? [DecidableEq κ] (t : Table κ ν) (k : κ) : Option ν := lookupIn k t.entries

def getD [DecidableEq κ] (t : Table κ ν) (k : κ) (d : ν) : ν := (t.get? k).getD d

def contains [DecidableEq κ] (t : Table κ ν) (k : κ) : Bool := (t.get? k).isSome

/-- Insert into ascending entries, replacing the value of a key that is there already. -/
def insertInto (k : κ) (v : ν) : List (κ × ν) → List (κ × ν)
  | [] => [(k, v)]
  | e :: es =>
    if Key.before k e.1 then (k, v) :: e :: es
    else if Key.before e.1 k then e :: insertInto k v es
    else (k, v) :: es

theorem mem_insertInto {k : κ} {v : ν} {l : List (κ × ν)} {x : κ × ν}
    (h : x ∈ insertInto k v l) : x = (k, v) ∨ x ∈ l := by
  induction l with
  | nil => simpa [insertInto] using h
  | cons e es ih =>
    unfold insertInto at h
    split at h
    · simpa using h
    · split at h
      · rcases List.mem_cons.mp h with rfl | h
        · simp
        · rcases ih h with h | h <;> simp [h]
      · rcases List.mem_cons.mp h with rfl | h <;> simp [*]

theorem insertInto_ascending {k : κ} {v : ν} {l : List (κ × ν)}
    (h : l.Pairwise fun a b => Key.before a.1 b.1 = true) :
    (insertInto k v l).Pairwise fun a b => Key.before a.1 b.1 = true := by
  induction l with
  | nil => simp [insertInto]
  | cons e es ih =>
    rw [List.pairwise_cons] at h
    unfold insertInto
    split
    · rename_i hk
      refine List.pairwise_cons.mpr ⟨fun b hb => ?_, List.pairwise_cons.mpr h⟩
      rcases List.mem_cons.mp hb with rfl | hb
      · exact hk
      · exact Key.before_trans hk (h.1 b hb)
    · split
      · rename_i he
        refine List.pairwise_cons.mpr ⟨fun b hb => ?_, ih h.2⟩
        rcases mem_insertInto hb with rfl | hb
        · exact he
        · exact h.1 b hb
      · rename_i h₁ h₂
        have hk : k = e.1 := Key.eq_of_not_before (by simpa using h₁) (by simpa using h₂)
        refine List.pairwise_cons.mpr ⟨fun b hb => ?_, h.2⟩
        rw [hk]
        exact h.1 b hb

def insert (t : Table κ ν) (k : κ) (v : ν) : Table κ ν :=
  { entries := insertInto k v t.entries, ascending := insertInto_ascending t.ascending }

/-- The entries that pass a test. -/
def filter (t : Table κ ν) (p : κ → ν → Bool) : Table κ ν :=
  { entries := t.entries.filter fun e => p e.1 e.2, ascending := t.ascending.filter _ }

def erase [DecidableEq κ] (t : Table κ ν) (k : κ) : Table κ ν := t.filter fun a _ => decide (a ≠ k)

/-- Change every value, knowing its key. -/
def map (t : Table κ ν) (f : κ → ν → μ) : Table κ μ :=
  { entries := t.entries.map fun e => (e.1, f e.1 e.2)
    ascending := by simpa [List.pairwise_map] using t.ascending }

/-- Change the value of one key, if there is one. -/
def modify [DecidableEq κ] (t : Table κ ν) (k : κ) (f : ν → ν) : Table κ ν :=
  t.map fun a v => if a = k then f v else v

/-- Insert a list of entries from left to right, so the last entry of a key counts. -/
def insertAll (t : Table κ ν) (es : List (κ × ν)) : Table κ ν :=
  es.foldl (fun t e => t.insert e.1 e.2) t

def ofList (es : List (κ × ν)) : Table κ ν := empty.insertAll es

/-- The keys, in ascending order. -/
def keys (t : Table κ ν) : KeySet κ :=
  { toList := t.entries.map Prod.fst
    ascending := by simpa [List.pairwise_map] using t.ascending }

/-! ## Lemmas -/

section Lemmas

variable [DecidableEq κ]

@[simp] theorem get?_empty {k : κ} : (empty : Table κ ν).get? k = none := rfl

theorem lookupIn_eq_some_iff {k : κ} {v : ν} {l : List (κ × ν)}
    (h : l.Pairwise fun a b => Key.before a.1 b.1 = true) :
    lookupIn k l = some v ↔ (k, v) ∈ l := by
  induction l with
  | nil => simp [lookupIn]
  | cons e es ih =>
    rw [List.pairwise_cons] at h
    unfold lookupIn
    split
    · rename_i hk
      subst hk
      constructor
      · intro hv
        cases hv
        exact List.mem_cons_self
      · intro hv
        rcases List.mem_cons.mp hv with hv | hv
        · exact congrArg some (congrArg Prod.snd hv).symm
        · exact absurd (h.1 _ hv) (by simp [Key.before_irrefl])
    · rename_i hk
      rw [ih h.2, List.mem_cons]
      constructor
      · exact .inr
      · rintro (hv | hv)
        · exact absurd (congrArg Prod.fst hv).symm hk
        · exact hv

theorem get?_eq_some_iff {t : Table κ ν} {k : κ} {v : ν} :
    t.get? k = some v ↔ (k, v) ∈ t.entries :=
  lookupIn_eq_some_iff t.ascending

theorem mem_entries_iff {t : Table κ ν} {e : κ × ν} : e ∈ t.entries ↔ t.get? e.1 = some e.2 :=
  get?_eq_some_iff.symm

theorem lookupIn_insertInto {k j : κ} {v : ν} {l : List (κ × ν)} :
    lookupIn j (insertInto k v l) = if k = j then some v else lookupIn j l := by
  induction l with
  | nil => simp [insertInto, lookupIn]
  | cons e es ih =>
    unfold insertInto
    split
    · simp [lookupIn]
    · split
      · rename_i _ he
        have hne : e.1 ≠ k := Key.ne_of_before he
        simp only [lookupIn, ih]
        grind
      · rename_i h₁ h₂
        have hk : k = e.1 := Key.eq_of_not_before (by simpa using h₁) (by simpa using h₂)
        simp only [lookupIn, hk]
        split <;> simp_all

theorem get?_insert {t : Table κ ν} {k j : κ} {v : ν} :
    (t.insert k v).get? j = if k = j then some v else t.get? j :=
  lookupIn_insertInto

@[simp] theorem get?_insert_self {t : Table κ ν} {k : κ} {v : ν} :
    (t.insert k v).get? k = some v := by simp [get?_insert]

theorem get?_insert_of_ne {t : Table κ ν} {k j : κ} {v : ν} (h : k ≠ j) :
    (t.insert k v).get? j = t.get? j := by simp [get?_insert, h]

theorem get?_filter {t : Table κ ν} {p : κ → ν → Bool} {k : κ} :
    (t.filter p).get? k = (t.get? k).filter (p k) := by
  apply Option.ext
  intro v
  rw [get?_eq_some_iff, Option.filter_eq_some_iff, get?_eq_some_iff]
  simp [filter]

theorem get?_erase {t : Table κ ν} {k j : κ} :
    (t.erase k).get? j = if k = j then none else t.get? j := by
  rw [erase, get?_filter]
  by_cases h : k = j
  · subst h
    cases t.get? k <;> simp [Option.filter]
  · have h' : j ≠ k := fun e => h e.symm
    cases t.get? j <;> simp [Option.filter, h, h']

@[simp] theorem get?_erase_self {t : Table κ ν} {k : κ} : (t.erase k).get? k = none := by
  simp [get?_erase]

theorem get?_erase_of_ne {t : Table κ ν} {k j : κ} (h : k ≠ j) :
    (t.erase k).get? j = t.get? j := by simp [get?_erase, h]

omit [Key κ] in
theorem lookupIn_map {f : κ → ν → μ} {k : κ} {l : List (κ × ν)} :
    lookupIn k (l.map fun e => (e.1, f e.1 e.2)) = (lookupIn k l).map (f k) := by
  induction l with
  | nil => rfl
  | cons e es ih =>
    simp only [List.map_cons, lookupIn, ih]
    split
    · rename_i h
      simp [h]
    · rfl

theorem get?_map {t : Table κ ν} {f : κ → ν → μ} {k : κ} :
    (t.map f).get? k = (t.get? k).map (f k) :=
  lookupIn_map

theorem get?_modify {t : Table κ ν} {k j : κ} {f : ν → ν} :
    (t.modify k f).get? j = if k = j then (t.get? j).map f else t.get? j := by
  rw [modify, get?_map]
  by_cases h : k = j
  · subst h
    simp
  · have h' : j ≠ k := fun e => h e.symm
    simp [h, h']

theorem get?_insertAll {t : Table κ ν} {es : List (κ × ν)} {k : κ} :
    (t.insertAll es).get? k = (lookupIn k es.reverse).or (t.get? k) := by
  induction es generalizing t with
  | nil => simp [insertAll, lookupIn]
  | cons e es ih =>
    have h := ih (t := t.insert e.1 e.2)
    simp only [insertAll, List.foldl_cons] at h ⊢
    rw [h, get?_insert]
    have happ : ∀ l : List (κ × ν), lookupIn k (l ++ [e]) =
        (lookupIn k l).or (if e.1 = k then some e.2 else none) := by
      intro l
      induction l with
      | nil => simp [lookupIn]
      | cons a as ih' =>
        simp only [List.cons_append, lookupIn, ih']
        split <;> simp
    rw [List.reverse_cons, happ]
    cases lookupIn k es.reverse <;> simp
    split <;> simp

theorem get?_ofList {es : List (κ × ν)} {k : κ} :
    (ofList es : Table κ ν).get? k = lookupIn k es.reverse := by
  simp [ofList, get?_insertAll]

omit [Key κ] in
theorem mem_of_lookupIn {k : κ} {v : ν} {l : List (κ × ν)} (h : lookupIn k l = some v) :
    (k, v) ∈ l := by
  induction l with
  | nil => cases h
  | cons e es ih =>
    unfold lookupIn at h
    split at h
    · rename_i hk
      cases h
      rw [← hk]
      exact List.mem_cons_self
    · exact List.mem_cons_of_mem _ (ih h)

omit [Key κ] in
theorem isSome_lookupIn {k : κ} {l : List (κ × ν)} :
    (lookupIn k l).isSome = true ↔ k ∈ l.map Prod.fst := by
  constructor
  · intro h
    obtain ⟨v, hv⟩ := Option.isSome_iff_exists.mp h
    exact List.mem_map_of_mem (f := Prod.fst) (mem_of_lookupIn hv)
  · intro h
    obtain ⟨e, he, hk⟩ := List.mem_map.mp h
    rw [← Option.ne_none_iff_isSome]
    intro hn
    induction l with
    | nil => cases he
    | cons a as ih =>
      unfold lookupIn at hn
      split at hn
      · cases hn
      · rename_i ha
        rcases List.mem_cons.mp he with rfl | he
        · exact ha hk
        · exact ih (List.mem_map.mpr ⟨e, he, hk⟩) he hn

omit [Key κ] in
/-- Where every key occurs once, a look-up finds each entry. -/
theorem lookupIn_eq_some_iff_of_nodup {k : κ} {v : ν} {l : List (κ × ν)}
    (h : (l.map Prod.fst).Nodup) : lookupIn k l = some v ↔ (k, v) ∈ l := by
  induction l with
  | nil => simp [lookupIn]
  | cons e es ih =>
    rw [List.map_cons, List.nodup_cons] at h
    unfold lookupIn
    split
    · rename_i hk
      subst hk
      rw [Option.some.injEq, List.mem_cons]
      constructor
      · rintro rfl
        exact .inl rfl
      · rintro (hv | hv)
        · exact (congrArg Prod.snd hv).symm
        · exact absurd (List.mem_map_of_mem (f := Prod.fst) hv) h.1
    · rename_i hk
      rw [ih h.2, List.mem_cons]
      exact ⟨.inr, fun hv => hv.resolve_left fun e => hk (congrArg Prod.fst e).symm⟩

omit [DecidableEq κ] in
theorem nodup_keys (t : Table κ ν) : (t.entries.map Prod.fst).Nodup :=
  List.pairwise_map.mpr (t.ascending.imp fun h => Key.ne_of_before h)

omit [Key κ] in
theorem lookupIn_reverse {k : κ} {l : List (κ × ν)} (h : (l.map Prod.fst).Nodup) :
    lookupIn k l.reverse = lookupIn k l := by
  have hr : (l.reverse.map Prod.fst).Nodup := by
    rw [List.map_reverse]
    exact List.pairwise_reverse.mpr (h.imp Ne.symm)
  apply Option.ext
  intro v
  rw [lookupIn_eq_some_iff_of_nodup hr, lookupIn_eq_some_iff_of_nodup h, List.mem_reverse]

theorem mem_of_get?_ofList {es : List (κ × ν)} {k : κ} {v : ν}
    (h : (ofList es : Table κ ν).get? k = some v) : (k, v) ∈ es := by
  rw [get?_ofList] at h
  simpa using mem_of_lookupIn h

theorem contains_ofList {es : List (κ × ν)} {k : κ} :
    (ofList es : Table κ ν).contains k = true ↔ k ∈ es.map Prod.fst := by
  rw [contains, get?_ofList, isSome_lookupIn]
  simp

theorem get?_ofList_of_nodup {es : List (κ × ν)} {k : κ} {v : ν} (h : (es.map Prod.fst).Nodup) :
    (ofList es : Table κ ν).get? k = some v ↔ (k, v) ∈ es := by
  rw [get?_ofList, lookupIn_reverse h, lookupIn_eq_some_iff_of_nodup h]

/-- Of two tables laid over each other the upper one counts. -/
theorem get?_insertAll_entries {s t : Table κ ν} {k : κ} :
    (s.insertAll t.entries).get? k = (t.get? k).or (s.get? k) := by
  rw [get?_insertAll, lookupIn_reverse t.nodup_keys]
  rfl

theorem contains_iff {t : Table κ ν} {k : κ} : t.contains k = true ↔ ∃ v, t.get? k = some v := by
  simp [contains, Option.isSome_iff_exists]

theorem contains_insert_iff {t : Table κ ν} {k j : κ} {v : ν} :
    (t.insert k v).contains j = true ↔ k = j ∨ t.contains j = true := by
  unfold contains
  rw [get?_insert]
  by_cases h : k = j <;> simp [h]

theorem contains_erase_iff {t : Table κ ν} {k j : κ} :
    (t.erase k).contains j = true ↔ k ≠ j ∧ t.contains j = true := by
  unfold contains
  rw [get?_erase]
  by_cases h : k = j <;> simp [h]

theorem mem_keys {t : Table κ ν} {k : κ} : k ∈ t.keys ↔ t.contains k = true := by
  rw [contains_iff, ← KeySet.mem_toList]
  simp only [keys, List.mem_map, Prod.exists, exists_and_right, exists_eq_right]
  exact exists_congr fun v => get?_eq_some_iff.symm

theorem ext_get? {s t : Table κ ν} (h : ∀ k, s.get? k = t.get? k) : s = t := by
  have e : s.entries = t.entries :=
    Key.ascending_ext s.ascending t.ascending fun x => by rw [mem_entries_iff, mem_entries_iff, h]
  cases s; cases t; cases e; rfl

/-! ## One write after another -/

variable {t : Table κ ν} {k : κ} {v : ν}

theorem erase_of_get?_eq_none (h : t.get? k = none) : t.erase k = t := by
  refine ext_get? fun j => ?_
  rw [get?_erase]
  split
  · rename_i hj
    rw [← hj, h]
  · rfl

theorem modify_of_get?_eq_some {f : ν → ν} (h : t.get? k = some v) :
    t.modify k f = t.insert k (f v) := by
  refine ext_get? fun j => ?_
  rw [get?_modify, get?_insert]
  split
  · rename_i hj
    rw [← hj, h]
    rfl
  · rfl

theorem insert_insert {w : ν} : (t.insert k v).insert k w = t.insert k w := by
  refine ext_get? fun j => ?_
  simp only [get?_insert]
  split <;> rfl

theorem erase_insert : (t.insert k v).erase k = t.erase k := by
  refine ext_get? fun j => ?_
  simp only [get?_erase, get?_insert]
  split <;> rfl

theorem modify_insert {f : ν → ν} : (t.insert k v).modify k f = t.insert k (f v) := by
  rw [modify_of_get?_eq_some get?_insert_self, insert_insert]

theorem insert_erase : (t.erase k).insert k v = t.insert k v := by
  refine ext_get? fun j => ?_
  simp only [get?_insert, get?_erase]
  split <;> rfl

theorem erase_erase : (t.erase k).erase k = t.erase k :=
  erase_of_get?_eq_none get?_erase_self

end Lemmas

end Table

end ClusterMaster
