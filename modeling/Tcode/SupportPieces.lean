import Mathlib.Algebra.BigOperators.Group.Finset.Basic
import Mathlib.Algebra.BigOperators.Intervals
import Mathlib.Algebra.Order.BigOperators.Group.Finset
import Mathlib.Data.Int.Order.Basic

/-! # Places in a row of pieces

Pieces follow each other without a gap. A distance from the start of the row is the number
of a piece and a rest within it, and distances compare as these pairs do.
-/
namespace SupportPieces

open Finset

variable {len : ℕ → ℤ} {d d' r r' : ℤ} {i i' n : ℕ}

/-- Where a piece starts. -/
def start (len : ℕ → ℤ) (i : ℕ) : ℤ := ∑ j ∈ range i, len j

structure Located (len : ℕ → ℤ) (d : ℤ) (i : ℕ) (r : ℤ) : Prop where
  sum : start len i + r = d
  nonneg : 0 ≤ r
  lt : r < len i

@[simp] theorem start_zero : start len 0 = 0 := sum_range_zero _

theorem start_succ : start len (i + 1) = start len i + len i := sum_range_succ _ _

theorem start_succ' : start len (i + 1) = len 0 + start (fun j => len (j + 1)) i := by
  rw [start, sum_range_succ', add_comm, start]

theorem start_mono (hlen : ∀ j, 0 ≤ len j) (h : i ≤ i') : start len i ≤ start len i' :=
  sum_le_sum_of_subset_of_nonneg (range_subset_range.mpr h) fun j _ _ => hlen j

theorem mul_le_start {m : ℤ} (hlen : ∀ j, m ≤ len j) (i : ℕ) : m * i ≤ start len i := by
  induction i with
  | zero => simp
  | succ i ih =>
    have := hlen i
    rw [start_succ, Int.natCast_add, Int.natCast_one, Int.mul_add, Int.mul_one]
    exact add_le_add ih this

theorem located_zero (hr : 0 ≤ d) (h : d < len 0) : Located len d 0 d :=
  ⟨by simp, hr, h⟩

/-- What a loop that takes the first piece off finds in the others. -/
theorem Located.after_first (h : Located (fun j => len (j + 1)) (d - len 0) i r) :
    Located len d (i + 1) r := by
  refine ⟨?_, h.nonneg, h.lt⟩
  rw [start_succ', add_assoc, h.sum]
  exact add_sub_cancel _ _

theorem Located.lt_of_lt (hlen : ∀ j, 0 ≤ len j) (h : Located len d i r)
    (h' : Located len d' i' r') (hi : i < i') : d < d' := by
  have hend : start len (i + 1) ≤ start len i' := start_mono hlen hi
  rw [start_succ] at hend
  have hsum := h.sum
  have hsum' := h'.sum
  have hlt := h.lt
  have hnonneg := h'.nonneg
  omega

/-- A later piece starts behind the end of an earlier one. -/
theorem Located.end_le (hlen : ∀ j, 0 ≤ len j) (h : Located len d i r)
    (h' : Located len d' i' r') (hi : i < i') : d - r + len i ≤ d' - r' := by
  have hend : start len (i + 1) ≤ start len i' := start_mono hlen hi
  rw [start_succ] at hend
  have hsum := h.sum
  have hsum' := h'.sum
  omega

theorem Located.lt_iff (hlen : ∀ j, 0 ≤ len j) (h : Located len d i r)
    (h' : Located len d' i' r') : d < d' ↔ i < i' ∨ i = i' ∧ r < r' := by
  rcases Nat.lt_trichotomy i i' with hi | rfl | hi
  · exact iff_of_true (h.lt_of_lt hlen h' hi) (Or.inl hi)
  · have hsum := h.sum
    have hsum' := h'.sum
    constructor
    · intro hd
      exact Or.inr ⟨rfl, by omega⟩
    · rintro (hi | ⟨-, hr⟩)
      · exact absurd hi (Nat.lt_irrefl i)
      · omega
  · have hd := h'.lt_of_lt hlen h hi
    refine iff_of_false (by omega) ?_
    rintro (hi' | ⟨rfl, -⟩)
    · exact Nat.lt_asymm hi hi'
    · exact Nat.lt_irrefl i hi

end SupportPieces
