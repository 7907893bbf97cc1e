import Mathlib.Data.List.Induction
import Mathlib.Data.List.Perm.Basic

/-! # Removal by a swap

An entry of a list is removed by moving the last one into its place.
-/
namespace SupportSwapRemove

open scoped List

variable {α β : Type*} {l : List α} {x y : α} {i j : Nat}

/-- The entry at `i` and the last one are swapped, and the list loses its last entry. -/
def swapRemove (l : List α) (i : Nat) : List α :=
  match l.getLast? with
  | none => []
  | some last => (l.set i last).dropLast

theorem swapRemove_append (l : List α) (x : α) (i : Nat) :
    swapRemove (l ++ [x]) i = l.set i x := by
  rw [swapRemove, List.getLast?_concat]
  by_cases hi : i < l.length
  · simp [hi]
  · have hle : l.length ≤ i := Nat.le_of_not_lt hi
    simp only [List.set_append, hi, if_false, List.set_eq_of_length_le hle]
    cases i - l.length with
    | zero => simp
    | succ k => simp

theorem length_swapRemove (l : List α) (i : Nat) : (swapRemove l i).length = l.length - 1 := by
  induction l using List.reverseRecOn with
  | nil => rfl
  | append_singleton l x => simp [swapRemove_append]

theorem map_swapRemove (f : α → β) (l : List α) (i : Nat) :
    (swapRemove l i).map f = swapRemove (l.map f) i := by
  induction l using List.reverseRecOn with
  | nil => rfl
  | append_singleton l x =>
    rw [swapRemove_append, List.map_append, List.map_singleton, swapRemove_append, List.map_set]

/-- The first entry keeps its place. -/
theorem swapRemove_cons (hl : l ≠ []) : swapRemove (x :: l) (i + 1) = x :: swapRemove l i := by
  obtain ⟨l, y, rfl⟩ := List.eq_nil_or_concat l |>.resolve_left hl
  rw [List.concat_eq_append, ← List.cons_append, swapRemove_append, swapRemove_append]
  rfl

theorem getElem?_swapRemove (h : (swapRemove l i)[j]? = some y) (hi : i < l.length) :
    j = i ∧ i + 1 < l.length ∧ l.getLast? = some y ∨ j ≠ i ∧ l[j]? = some y := by
  induction l using List.reverseRecOn with
  | nil => exact absurd hi (Nat.not_lt_zero i)
  | append_singleton l x =>
    rw [swapRemove_append] at h
    have hj : j < l.length := by
      have := (List.getElem?_eq_some_iff.mp h).1
      rwa [List.length_set] at this
    by_cases hij : i = j
    · subst hij
      rw [List.getElem?_set_self hj] at h
      refine Or.inl ⟨rfl, ?_, ?_⟩
      · rw [List.length_append]
        exact Nat.succ_lt_succ hj
      · rw [List.getLast?_concat, h]
    · rw [List.getElem?_set_ne hij] at h
      refine Or.inr ⟨Ne.symm hij, ?_⟩
      rw [List.getElem?_append_left hj, h]

/-- What is removed is the entry at `i`. -/
theorem perm_swapRemove (hi : l[i]? = some x) : l ~ x :: swapRemove l i := by
  induction l using List.reverseRecOn with
  | nil => cases hi
  | append_singleton l y =>
    rw [swapRemove_append]
    by_cases hlt : i < l.length
    · rw [List.getElem?_append_left hlt] at hi
      obtain ⟨-, rfl⟩ := List.getElem?_eq_some_iff.mp hi
      have hset := List.set_perm_cons_eraseIdx hlt y
      have hcons := List.getElem_cons_eraseIdx_perm hlt
      calc l ++ [y]
        _ ~ y :: l := List.perm_append_singleton y l
        _ ~ y :: l[i] :: l.eraseIdx i := hcons.symm.cons y
        _ ~ l[i] :: y :: l.eraseIdx i := List.Perm.swap ..
        _ ~ l[i] :: l.set i y := hset.symm.cons l[i]
    · have hle : l.length ≤ i := Nat.le_of_not_lt hlt
      rw [List.getElem?_append_right hle] at hi
      have hone := (List.getElem?_eq_some_iff.mp hi).1
      rw [List.length_singleton, Nat.lt_one_iff] at hone
      rw [hone] at hi
      obtain rfl : y = x := Option.some.inj hi
      rw [List.set_eq_of_length_le hle]
      exact List.perm_append_singleton y l

end SupportSwapRemove
