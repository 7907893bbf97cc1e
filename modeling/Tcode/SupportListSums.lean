import Mathlib.Algebra.GroupWithZero.Nat
import Mathlib.Data.List.Basic

/-! # Sums of a weight over a list

Weights of the elements of a bag that is kept as a list: elements are added at an
end, or one of them is taken out wherever it stands.
-/
namespace SupportListSums

variable {α : Type*} {w v : α → Nat}

def total (w : α → Nat) (l : List α) : Nat := (l.map w).sum

@[simp] theorem total_nil (w : α → Nat) : total w [] = 0 := rfl

@[simp] theorem total_cons (w : α → Nat) (x : α) (l : List α) :
    total w (x :: l) = w x + total w l := rfl

@[simp] theorem total_append (w : α → Nat) (l m : List α) :
    total w (l ++ m) = total w l + total w m := by
  simp [total]

theorem total_eraseIdx {l : List α} {k : Nat} {x : α} (h : l[k]? = some x) :
    total w l = w x + total w (l.eraseIdx k) := by
  induction l generalizing k with
  | nil => simp at h
  | cons y l ih =>
    cases k with
    | zero =>
      obtain rfl : y = x := by simpa using h
      rfl
    | succ k =>
      have := ih (by simpa using h)
      simp only [List.eraseIdx_cons_succ, total_cons]
      omega

theorem total_pos_of_mem {l : List α} {x : α} (h : x ∈ l) : w x ≤ total w l := by
  induction l with
  | nil => cases h
  | cons y l ih =>
    rcases List.mem_cons.mp h with rfl | h
    · exact Nat.le_add_right _ _
    · exact Nat.le_trans (ih h) (Nat.le_add_left _ _)

theorem total_eq_zero {l : List α} (h : ∀ x ∈ l, w x = 0) : total w l = 0 := by
  induction l with
  | nil => rfl
  | cons y l ih =>
    rw [total_cons, h y List.mem_cons_self, ih fun x hx => h x (List.mem_cons_of_mem _ hx)]

theorem eq_zero_of_total {l : List α} {x : α} (h : total w l = 0) (hx : x ∈ l) : w x = 0 :=
  Nat.le_zero.mp (h ▸ total_pos_of_mem hx)

theorem total_le_total {l : List α} (h : ∀ x ∈ l, w x ≤ v x) : total w l ≤ total v l := by
  induction l with
  | nil => exact Nat.le_refl 0
  | cons y l ih =>
    exact Nat.add_le_add (h y List.mem_cons_self) (ih fun x hx => h x (List.mem_cons_of_mem _ hx))

theorem total_add (w v : α → Nat) (l : List α) :
    total (fun x => w x + v x) l = total w l + total v l := by
  induction l with
  | nil => rfl
  | cons y l ih =>
    simp only [total_cons, ih]
    omega

theorem mem_eraseIdx_of_ne {l : List α} {k : Nat} {x : α} (h : x ∈ l) (hne : l[k]? ≠ some x) :
    x ∈ l.eraseIdx k := by
  induction l generalizing k with
  | nil => cases h
  | cons y l ih =>
    cases k with
    | zero =>
      rcases List.mem_cons.mp h with rfl | h
      · exact absurd rfl hne
      · exact h
    | succ k =>
      rcases List.mem_cons.mp h with rfl | h
      · exact List.mem_cons_self
      · exact List.mem_cons_of_mem _ (ih h (by simpa using hne))

end SupportListSums
