import Mathlib.Data.Nat.Count
import Mathlib.Logic.Function.Basic

/-! # Reference counts

A counted object is deleted by the release that finds the count at one. As long as every
holder has taken one reference and releases it once, the count is the number of holders.
-/
namespace SupportReferenceCount

structure Cell where
  refcount : Int
  deleted : Bool
  deriving DecidableEq, Repr

/-- A new object is held by its creator. -/
def Cell.new : Cell := ⟨1, false⟩

def Cell.acquire (c : Cell) : Cell := { c with refcount := c.refcount + 1 }

def Cell.release (c : Cell) : Cell :=
  if c.refcount = 1 then ⟨0, true⟩ else { c with refcount := c.refcount - 1 }

/-- The object has `n` holders. -/
inductive Held (c : Cell) (n : Nat) : Prop where
  | live (some : 0 < n) (refcount : c.refcount = n) (deleted : c.deleted = false)
  | gone (none : n = 0) (refcount : c.refcount = 0) (deleted : c.deleted = true)

variable {c : Cell} {n : Nat}

theorem held_new : Held .new 1 := .live Nat.one_pos rfl rfl

theorem Held.notDeleted (h : Held c n) (hn : 0 < n) : c.deleted = false := by
  cases h with
  | live some refcount deleted => exact deleted
  | gone none => omega

theorem Held.refcount_eq (h : Held c n) : c.refcount = n := by
  cases h with
  | live some refcount => exact refcount
  | gone none refcount =>
    rw [refcount, none]
    rfl

theorem Held.deleted_iff (h : Held c n) : c.deleted = true ↔ n = 0 := by
  cases h with
  | live some refcount deleted => simp [deleted, Nat.pos_iff_ne_zero.mp some]
  | gone none refcount deleted => simp [deleted, none]

theorem Held.acquire (h : Held c n) (hn : 0 < n) : Held c.acquire (n + 1) := by
  cases h with
  | live some refcount deleted =>
    refine .live (Nat.succ_pos n) ?_ deleted
    show c.refcount + 1 = _
    omega
  | gone none => omega

theorem Held.release (h : Held c n) (hn : 0 < n) : Held c.release (n - 1) := by
  cases h with
  | gone none => omega
  | live some refcount deleted =>
    by_cases hone : n = 1
    · have hlast : c.refcount = 1 := by omega
      rw [Cell.release, if_pos hlast]
      exact .gone (by omega) rfl rfl
    · have hmore : c.refcount ≠ 1 := by omega
      rw [Cell.release, if_neg hmore]
      refine .live (by omega) ?_ deleted
      show c.refcount - 1 = _
      omega

/-- A release deletes the object exactly when there is one holder left. -/
theorem Held.last_iff (h : Held c n) : c.refcount = 1 ↔ n = 1 := by
  rw [h.refcount_eq]
  omega

/-! ## Counting objects -/

section Count

variable {p q : Nat → Bool} {i m : Nat}

theorem count_congr (h : ∀ j < m, p j = q j) :
    Nat.count (p · = true) m = Nat.count (q · = true) m := by
  induction m with
  | zero => rfl
  | succ m ih =>
    rw [Nat.count_succ, Nat.count_succ, ih fun j hj => h j (Nat.lt_succ_of_lt hj),
      h m (Nat.lt_succ_self m)]

/-- One object less. -/
theorem count_clear (hi : i < m) (hp : p i = true) (hq : q i = false)
    (h : ∀ j < m, j ≠ i → q j = p j) :
    Nat.count (q · = true) m + 1 = Nat.count (p · = true) m := by
  induction m with
  | zero => exact absurd hi (Nat.not_lt_zero i)
  | succ m ih =>
    rw [Nat.count_succ, Nat.count_succ]
    by_cases him : i = m
    · have hsame : Nat.count (q · = true) m = Nat.count (p · = true) m :=
        count_congr fun j hj => h j (Nat.lt_succ_of_lt hj) (by omega)
      rw [← him, hp, hq, him, hsame]
      simp
    · have hless := ih (by omega) fun j hj => h j (Nat.lt_succ_of_lt hj)
      have hm : q m = p m := h m (Nat.lt_succ_self m) (Ne.symm him)
      rw [hm]
      omega

end Count

end SupportReferenceCount
