import Mathlib.Data.List.Basic
import Mathlib.Data.List.Nodup
import Mathlib.Logic.Function.Basic

/-! # Singly linked lists in memory

The links of all nodes are one partial function on addresses. A list of addresses is laid out in
it when each node points to the one behind it in the list.
-/
namespace SupportSinglyLinked

variable {ι : Type*} {next next' : ι → Option ι} {q r : Option ι} {xs ys : List ι} {x y : ι}

/-- The addresses are laid out one after the other and left to `q`. -/
def Segment (next : ι → Option ι) : List ι → Option ι → Prop
  | [], _ => True
  | x :: xs, q => next x = xs.head?.or q ∧ Segment next xs q

theorem segment_append :
    Segment next (xs ++ ys) q ↔ Segment next xs (ys.head?.or q) ∧ Segment next ys q := by
  induction xs with
  | nil => simp [Segment]
  | cons x xs ih =>
    have hhead : (xs ++ ys).head?.or q = xs.head?.or (ys.head?.or q) := by
      rw [List.head?_append, Option.or_assoc]
    rw [List.cons_append, Segment, Segment, ih, hhead, and_assoc]

/-- Only the links of its own addresses matter to a segment. -/
theorem Segment.congr (h : Segment next xs q) (hlinks : ∀ x ∈ xs, next' x = next x) :
    Segment next' xs q := by
  induction xs with
  | nil => trivial
  | cons x xs ih =>
    obtain ⟨hnext, htail⟩ := h
    refine ⟨(hlinks x List.mem_cons_self).trans hnext, ih htail fun y hy => ?_⟩
    exact hlinks y (List.mem_cons_of_mem x hy)

/-! ## Following the links -/

/-- The nodes that are met on the way from a pointer. -/
inductive Follows (next : ι → Option ι) : Option ι → ι → Prop where
  | here (x : ι) : Follows next (some x) x
  | there {x y : ι} : Follows next (next x) y → Follows next (some x) y

/-- From its head exactly the nodes of a list are met. -/
theorem Segment.follows_iff (h : Segment next xs none) : Follows next xs.head? y ↔ y ∈ xs := by
  induction xs with
  | nil => exact iff_of_false (fun hf => by cases hf) List.not_mem_nil
  | cons x xs ih =>
    obtain ⟨hnext, htail⟩ := h
    rw [Option.or_none] at hnext
    rw [List.head?_cons, List.mem_cons, ← ih htail, ← hnext]
    constructor
    · intro hf
      cases hf with
      | here => exact Or.inl rfl
      | there hf => exact Or.inr hf
    · rintro (rfl | hf)
      · exact .here y
      · exact .there hf

/-! ## Changing a link -/

section Update

variable [DecidableEq ι]

theorem Segment.update_of_notMem (h : Segment next xs q) (hx : x ∉ xs) (r : Option ι) :
    Segment (Function.update next x r) xs q := by
  refine h.congr fun y hy => Function.update_of_ne ?_ ..
  rintro rfl
  exact hx hy

/-- The last node gets another successor. -/
theorem Segment.update_last (h : Segment next (xs ++ [x]) q) (hx : x ∉ xs) (r : Option ι) :
    Segment (Function.update next x r) (xs ++ [x]) r := by
  obtain ⟨hfront, -⟩ := segment_append.mp h
  rw [segment_append]
  refine ⟨hfront.update_of_notMem hx r, ?_, trivial⟩
  rw [Function.update_self, List.head?_nil, Option.none_or]

/-- The last node is followed by another list. -/
theorem Segment.join (hxs : Segment next (xs ++ [x]) q) (hys : Segment next ys none)
    (hx : x ∉ xs) (hapart : x ∉ ys) :
    Segment (Function.update next x ys.head?) (xs ++ [x] ++ ys) none := by
  rw [segment_append, Option.or_none]
  exact ⟨hxs.update_last hx ys.head?, hys.update_of_notMem hapart ys.head?⟩

end Update

end SupportSinglyLinked
