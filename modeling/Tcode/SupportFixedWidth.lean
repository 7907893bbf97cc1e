import Mathlib.Algebra.GroupWithZero.Nat
import Mathlib.Data.List.Basic

/-! # Texts with fields of a fixed width

A text that begins with a field of a fixed width is compared by this field first. A number
that is written with a fixed number of digits compares as the number.
-/
namespace SupportFixedWidth

section Order

variable {α : Type*} [LT α] {a b u v : List α}

theorem append_lt_append_iff (h : a.length = b.length) :
    a ++ u < b ++ v ↔ a < b ∨ a = b ∧ u < v := by
  induction a generalizing b with
  | nil =>
    obtain rfl := List.eq_nil_of_length_eq_zero h.symm
    simp
  | cons x a ih =>
    cases b with
    | nil => cases h
    | cons y b =>
      rw [List.cons_append, List.cons_append, List.cons_lt_cons_iff, List.cons_lt_cons_iff,
        ih (Nat.succ.inj h), List.cons.injEq, and_or_left, or_assoc, and_assoc]

/-- A text does not come before its own beginning. -/
theorem append_lt_iff (h : a.length = b.length) : a ++ u < b ↔ a < b := by
  have hnil := append_lt_append_iff (u := u) (v := []) h
  rw [List.append_nil] at hnil
  rw [hnil, or_iff_left]
  exact fun hlt => List.not_lt_nil u hlt.2

end Order

section Digits

variable {α : Type*} {digit : Nat → α} {B w m n : Nat}

/-- The last `w` digits of a number to base `B`, the highest first. -/
def fixed (digit : Nat → α) (B : Nat) : Nat → Nat → List α
  | 0, _ => []
  | w + 1, n => fixed digit B w (n / B) ++ [digit (n % B)]

/-- Digits that are ordered as their values. -/
structure Ordered [LT α] (digit : Nat → α) (B : Nat) : Prop where
  base : 0 < B
  lt_iff : ∀ i j, i < B → j < B → (digit i < digit j ↔ i < j)
  inj : ∀ i j, i < B → j < B → digit i = digit j → i = j

@[simp] theorem fixed_length : (fixed digit B w n).length = w := by
  induction w generalizing n with
  | zero => rfl
  | succ w ih => rw [fixed, List.length_append, ih, List.length_singleton]

/-- A number in two fields. -/
theorem fixed_add (digit : Nat → α) (B v w n : Nat) :
    fixed digit B (v + w) n = fixed digit B v (n / B ^ w) ++ fixed digit B w n := by
  induction w generalizing n with
  | zero => rw [Nat.pow_zero, Nat.div_one, fixed, List.append_nil, Nat.add_zero]
  | succ w ih =>
    rw [← Nat.add_assoc, fixed, ih, fixed, List.append_assoc, Nat.div_div_eq_div_mul, Nat.pow_succ']

theorem fixed_zero (digit : Nat → α) (B w : Nat) :
    fixed digit B w 0 = List.replicate w (digit 0) := by
  induction w with
  | zero => rfl
  | succ w ih => rw [fixed, Nat.zero_div, ih, Nat.zero_mod, ← List.replicate_succ']

/-- The last digits do not depend on those in front of them. -/
theorem fixed_mod (digit : Nat → α) {B v w : Nat} (h : w ≤ v) (n : Nat) :
    fixed digit B w (n % B ^ v) = fixed digit B w n := by
  induction w generalizing n v with
  | zero => rfl
  | succ w ih =>
    obtain ⟨v, rfl⟩ : ∃ v', v = v' + 1 := ⟨v - 1, by omega⟩
    have hdiv : n % B ^ (v + 1) / B = n / B % B ^ v := by
      rw [Nat.pow_succ', Nat.mod_mul_right_div_self]
    have hmod : n % B ^ (v + 1) % B = n % B := Nat.mod_mod_of_dvd n (Nat.dvd_mul_left B (B ^ v))
    rw [fixed, fixed, hdiv, hmod, ih (Nat.le_of_succ_le_succ h)]

theorem lt_iff_div_mod : m < n ↔ m / B < n / B ∨ m / B = n / B ∧ m % B < n % B := by
  have hm := Nat.div_add_mod m B
  have hn := Nat.div_add_mod n B
  constructor
  · intro h
    rcases Nat.lt_or_eq_of_le (Nat.div_le_div_right (c := B) (Nat.le_of_lt h)) with hlt | heq
    · exact Or.inl hlt
    · rw [heq] at hm
      exact Or.inr ⟨heq, by omega⟩
  · rintro (hlt | ⟨heq, hlt⟩)
    · exact Nat.lt_of_div_lt_div hlt
    · rw [heq] at hm
      omega

theorem div_lt_pow (h : m < B ^ (w + 1)) : m / B < B ^ w := by
  rw [Nat.pow_succ'] at h
  exact Nat.div_lt_of_lt_mul h

variable [LT α]

theorem fixed_inj (hd : Ordered digit B) (hm : m < B ^ w) (hn : n < B ^ w) :
    fixed digit B w m = fixed digit B w n ↔ m = n := by
  refine ⟨?_, fun h => h ▸ rfl⟩
  induction w generalizing m n with
  | zero =>
    rw [Nat.pow_zero] at hm hn
    omega
  | succ w ih =>
    intro h
    obtain ⟨hhigh, hlow⟩ := List.append_inj' h rfl
    have hquot := ih (div_lt_pow hm) (div_lt_pow hn) hhigh
    have hrem := hd.inj _ _ (Nat.mod_lt m hd.base) (Nat.mod_lt n hd.base) (List.cons.inj hlow).1
    rw [← Nat.div_add_mod m B, ← Nat.div_add_mod n B, hquot, hrem]

theorem fixed_lt_iff (hd : Ordered digit B) (hm : m < B ^ w) (hn : n < B ^ w) :
    fixed digit B w m < fixed digit B w n ↔ m < n := by
  induction w generalizing m n with
  | zero =>
    rw [Nat.pow_zero] at hm hn
    refine iff_of_false (List.not_lt_nil _) ?_
    omega
  | succ w ih =>
    have hrem := hd.lt_iff _ _ (Nat.mod_lt m hd.base) (Nat.mod_lt n hd.base)
    have hquot := fixed_inj hd (div_lt_pow hm) (div_lt_pow hn)
    rw [fixed, fixed, append_lt_append_iff (by simp), ih (div_lt_pow hm) (div_lt_pow hn), hquot,
      List.cons_lt_cons_iff, hrem]
    simp only [List.not_lt_nil, and_false, or_false]
    exact lt_iff_div_mod.symm

end Digits

end SupportFixedWidth
