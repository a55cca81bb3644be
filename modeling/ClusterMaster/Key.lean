/-!
# Keys: types with a decidable strict linear order

Everything the master tracks is filed under a key: a name, a broker id, or a pair of those.
`Key.before` is the order in which filed things are listed. Names are ordered by code point
(which is the order of their UTF-8 bytes), numbers by size, pairs by their first part and then
by their second.
-/

namespace ClusterMaster

/-- A strict linear order, as a test. -/
class Key (κ : Type) where
  before : κ → κ → Bool
  before_irrefl : ∀ a, before a a = false
  before_trans : ∀ {a b c}, before a b = true → before b c = true → before a c = true
  eq_of_not_before : ∀ {a b}, before a b = false → before b a = false → a = b

namespace Key

variable {κ : Type} [Key κ]

theorem ne_of_before {a b : κ} (h : before a b = true) : a ≠ b := by
  rintro rfl
  simp [before_irrefl] at h

theorem before_asymm {a b : κ} (h : before a b = true) : before b a = false := by
  cases hb : before b a with
  | false => rfl
  | true => exact absurd (before_trans h hb) (by simp [before_irrefl])

/-- Lists that ascend by their keys are equal when they have the same elements. -/
theorem ascending_ext {α : Type} {key : α → κ} {l m : List α}
    (hl : l.Pairwise fun a b => before (key a) (key b) = true)
    (hm : m.Pairwise fun a b => before (key a) (key b) = true) (h : ∀ x, x ∈ l ↔ x ∈ m) :
    l = m := by
  have hne {a b : α} (hab : before (key a) (key b) = true) : a ≠ b := fun e =>
    ne_of_before hab (congrArg key e)
  have hperm : l.Perm m := (List.perm_ext_iff_of_nodup (hl.imp hne) (hm.imp hne)).mpr h
  refine hperm.eq_of_pairwise (fun a b _ _ hab hba => ?_) hl hm
  rw [before_asymm hab] at hba
  cases hba

theorem not_before_trans {a b c : κ} (h₁ : before a b = false) (h₂ : before b c = false) :
    before a c = false := by
  refine Bool.eq_false_iff.mpr fun h => ?_
  cases hba : before b a with
  | false =>
    rw [eq_of_not_before h₁ hba, h₂] at h
    cases h
  | true =>
    rw [before_trans hba h] at h₂
    cases h₂

instance : Key Nat where
  before a b := decide (a < b)
  before_irrefl := by simp
  before_trans := by simp; omega
  eq_of_not_before := by simp; omega

instance : Key UInt32 where
  before a b := decide (a.toNat < b.toNat)
  before_irrefl := by simp
  before_trans := by simp; omega
  eq_of_not_before := by
    intro a b h₁ h₂
    simp at h₁ h₂
    exact UInt32.toNat_inj.mp (Nat.le_antisymm h₂ h₁)

instance : Key String where
  before a b := decide (a < b)
  before_irrefl := by simp
  before_trans := by
    intro a b c h₁ h₂
    simp only [decide_eq_true_eq] at h₁ h₂ ⊢
    exact String.lt_trans h₁ h₂
  eq_of_not_before := by
    intro a b h₁ h₂
    simp only [decide_eq_false_iff_not, String.not_lt] at h₁ h₂
    exact String.le_antisymm h₂ h₁

/-- Pairs are ordered by the first part, ties by the second. -/
instance {α β : Type} [Key α] [Key β] [DecidableEq α] : Key (α × β) where
  before p q := before p.1 q.1 || (decide (p.1 = q.1) && before p.2 q.2)
  before_irrefl := by simp [before_irrefl]
  before_trans := by
    intro a b c h₁ h₂
    simp only [Bool.or_eq_true, Bool.and_eq_true, decide_eq_true_eq] at h₁ h₂ ⊢
    rcases h₁ with h₁ | ⟨e₁, h₁⟩ <;> rcases h₂ with h₂ | ⟨e₂, h₂⟩
    · exact .inl (before_trans h₁ h₂)
    · exact .inl (e₂ ▸ h₁)
    · exact .inl (e₁ ▸ h₂)
    · exact .inr ⟨e₁.trans e₂, before_trans h₁ h₂⟩
  eq_of_not_before := by
    intro a b h₁ h₂
    simp only [Bool.or_eq_false_iff, Bool.and_eq_false_imp, decide_eq_true_eq] at h₁ h₂
    have e : a.1 = b.1 := eq_of_not_before h₁.1 h₂.1
    exact Prod.ext e (eq_of_not_before (h₁.2 e) (h₂.2 e.symm))

end Key

end ClusterMaster
