/-!
# Choosing from a list

`pick? ahead xs` is the first element of `xs` that no other element is ahead of. The order
`ahead` is a test of its own, so that a choice by several criteria reads as one condition.

* `pick?_mem` : the choice is an element of the list;
* `pick?_eq_none_iff` : there is no choice only from an empty list;
* `not_ahead_of_pick?` : nothing in the list is ahead of the choice.
-/

namespace ClusterMaster

/-- The first element that no other element is ahead of. -/
def pick? {α : Type} (ahead : α → α → Bool) : List α → Option α
  | [] => none
  | x :: xs =>
    match pick? ahead xs with
    | none => some x
    | some y => if ahead y x then some y else some x

section Lemmas

variable {α : Type} {ahead : α → α → Bool} {xs : List α} {x : α}

theorem pick?_mem (h : pick? ahead xs = some x) : x ∈ xs := by
  induction xs generalizing x with
  | nil => simp [pick?] at h
  | cons a as ih =>
    unfold pick? at h
    split at h
    · simp_all
    · rename_i y hy
      split at h
      · cases h
        exact List.mem_cons_of_mem _ (ih hy)
      · simp_all

theorem pick?_eq_none_iff : pick? ahead xs = none ↔ xs = [] := by
  cases xs with
  | nil => simp [pick?]
  | cons a as =>
    unfold pick?
    split
    · simp
    · split <;> simp

/-- `ahead` orders the list by some rank: what is not ahead of a choice stays so further on. -/
theorem not_ahead_of_pick? (irrefl : ∀ a, ahead a a = false)
    (trans : ∀ a b c, ahead a b = true → ahead b c = true → ahead a c = true)
    (negtrans : ∀ a b c, ahead a b = false → ahead b c = false → ahead a c = false)
    (h : pick? ahead xs = some x) : ∀ y ∈ xs, ahead y x = false := by
  induction xs generalizing x with
  | nil => simp
  | cons a as ih =>
    unfold pick? at h
    split at h
    · rename_i hn
      cases h
      rw [pick?_eq_none_iff] at hn
      simp [hn, irrefl]
    · rename_i y hy
      split at h
      · rename_i hya
        cases h
        intro z hz
        rcases List.mem_cons.mp hz with rfl | hz
        · cases hzy : ahead z x with
          | false => rfl
          | true => exact absurd (trans _ _ _ hya hzy) (by simp [irrefl])
        · exact ih hy z hz
      · rename_i hya
        cases h
        intro z hz
        rcases List.mem_cons.mp hz with rfl | hz
        · exact irrefl _
        · exact negtrans _ _ _ (ih hy z hz) (by simpa using hya)

end Lemmas

end ClusterMaster
