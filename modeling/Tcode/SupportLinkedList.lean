import Mathlib.Data.List.Basic
import Mathlib.Data.List.Nodup
import Mathlib.Logic.Function.Basic

/-! # Doubly linked lists in memory

The links of all nodes are two partial functions on addresses. A list of addresses is
laid out in them when each node points to its neighbours in the list.
-/
namespace SupportLinkedList

variable {ι : Type*}

structure Links (ι : Type*) where
  next : ι → Option ι
  prev : ι → Option ι

variable {l m : Links ι} {p q : Option ι} {xs ys : List ι} {b f : ι}

/-- The addresses are laid out one after the other, entered from `p` and left to `q`. -/
def Segment (l : Links ι) : Option ι → List ι → Option ι → Prop
  | _, [], _ => True
  | p, x :: xs, q => l.prev x = p ∧ l.next x = xs.head?.or q ∧ Segment l (some x) xs q

theorem segment_append :
    Segment l p (xs ++ ys) q ↔
      Segment l p xs (ys.head?.or q) ∧ Segment l (xs.getLast?.or p) ys q := by
  induction xs generalizing p with
  | nil => simp [Segment]
  | cons x xs ih =>
    have hlast : (x :: xs).getLast?.or p = xs.getLast?.or (some x) := by
      cases xs with
      | nil => rfl
      | cons y ys => simp [List.getLast?_cons]
    have hhead : (xs ++ ys).head?.or q = xs.head?.or (ys.head?.or q) := by
      rw [List.head?_append, Option.or_assoc]
    rw [List.cons_append, Segment, Segment, ih, hlast, hhead, and_assoc, and_assoc]

/-- Only the links of its own addresses matter to a segment. -/
theorem Segment.congr (h : Segment l p xs q)
    (hlinks : ∀ x ∈ xs, m.next x = l.next x ∧ m.prev x = l.prev x) : Segment m p xs q := by
  induction xs generalizing p with
  | nil => trivial
  | cons x xs ih =>
    obtain ⟨hprev, hnext, htail⟩ := h
    obtain ⟨hn, hp⟩ := hlinks x List.mem_cons_self
    exact ⟨hp.trans hprev, hn.trans hnext,
      ih htail fun y hy => hlinks y (List.mem_cons_of_mem _ hy)⟩

/-- A list of addresses as a whole: no address twice, and null at both ends. -/
structure Linked (l : Links ι) (xs : List ι) : Prop where
  nodup : xs.Nodup
  segment : Segment l none xs none

theorem linked_nil : Linked l [] := ⟨List.nodup_nil, trivial⟩

theorem Linked.next_eq (h : Linked l (xs ++ b :: ys)) : l.next b = ys.head? := by
  have hseg := (segment_append.mp h.segment).2
  rw [hseg.2.1, Option.or_none]

theorem Linked.prev_eq (h : Linked l (xs ++ b :: ys)) : l.prev b = xs.getLast? := by
  have hseg := (segment_append.mp h.segment).2
  rw [hseg.1, Option.or_none]

/-- In a list that is laid out, `prev` is the inverse of `next`. -/
theorem Linked.inverse (h : Linked l xs) {x y : ι} (hx : x ∈ xs) (hy : y ∈ xs) :
    l.next x = some y ↔ l.prev y = some x := by
  constructor
  · intro hnext
    obtain ⟨before, after, rfl⟩ := List.append_of_mem hx
    rw [h.next_eq] at hnext
    obtain ⟨rest, rfl⟩ := List.head?_eq_some_iff.mp hnext
    have h' : Linked l ((before ++ [x]) ++ y :: rest) := by simpa using h
    rw [h'.prev_eq, List.getLast?_concat]
  · intro hprev
    obtain ⟨before, after, rfl⟩ := List.append_of_mem hy
    rw [h.prev_eq] at hprev
    obtain ⟨init, rfl⟩ := List.getLast?_eq_some_iff.mp hprev
    have h' : Linked l (init ++ x :: y :: after) := by simpa using h
    rw [h'.next_eq, List.head?_cons]

/-! ## Walking along the links -/

/-- All addresses from `x` on, if null is reached within `n` nodes. -/
def follow (l : Links ι) : Nat → Option ι → Option (List ι)
  | _, none => some []
  | 0, some _ => none
  | n + 1, some x => (follow l n (l.next x)).map (x :: ·)

theorem Segment.follow_eq (h : Segment l p xs none) {n : Nat} (hn : xs.length ≤ n) :
    follow l n xs.head? = some xs := by
  induction xs generalizing p n with
  | nil => cases n <;> rfl
  | cons x xs ih =>
    obtain ⟨-, hnext, htail⟩ := h
    cases n with
    | zero => exact absurd hn (by simp)
    | succ n =>
      have hlength : xs.length ≤ n := by simpa using hn
      rw [List.head?_cons, follow, hnext, Option.or_none, ih htail hlength]
      rfl

/-- A node lies between two neighbouring segments that both lead to it. -/
theorem Segment.join (hxs : Segment l none xs (some f)) (hys : Segment l (some f) ys none)
    (hprev : l.prev f = xs.getLast?) (hnext : l.next f = ys.head?) :
    Segment l none (xs ++ f :: ys) none := by
  rw [segment_append]
  refine ⟨hxs, ?_, ?_, hys⟩
  · rw [hprev, Option.or_none]
  · rw [hnext, Option.or_none]

/-! ## Changing the links -/

section Update

variable [DecidableEq ι]

def Links.setNext (l : Links ι) (x : ι) (y : Option ι) : Links ι :=
  { l with next := Function.update l.next x y }

def Links.setPrev (l : Links ι) (x : ι) (y : Option ι) : Links ι :=
  { l with prev := Function.update l.prev x y }

@[simp] theorem setNext_next (x : ι) (y : Option ι) :
    (l.setNext x y).next = Function.update l.next x y := rfl

@[simp] theorem setNext_prev (x : ι) (y : Option ι) : (l.setNext x y).prev = l.prev := rfl

@[simp] theorem setPrev_prev (x : ι) (y : Option ι) :
    (l.setPrev x y).prev = Function.update l.prev x y := rfl

@[simp] theorem setPrev_next (x : ι) (y : Option ι) : (l.setPrev x y).next = l.next := rfl

theorem Segment.setNext_of_notMem (h : Segment l p xs q) (hb : b ∉ xs) (y : Option ι) :
    Segment (l.setNext b y) p xs q := by
  apply h.congr
  intro x hx
  have hne : x ≠ b := fun heq => hb (heq ▸ hx)
  exact ⟨Function.update_of_ne hne _ _, rfl⟩

theorem Segment.setPrev_of_notMem (h : Segment l p xs q) (hb : b ∉ xs) (y : Option ι) :
    Segment (l.setPrev b y) p xs q := by
  apply h.congr
  intro x hx
  have hne : x ≠ b := fun heq => hb (heq ▸ hx)
  exact ⟨rfl, Function.update_of_ne hne _ _⟩

/-- The last node gets another successor. -/
theorem Segment.setNext_last (h : Segment l p (xs ++ [b]) q) (hb : b ∉ xs) (y : Option ι) :
    Segment (l.setNext b y) p (xs ++ [b]) y := by
  obtain ⟨hfront, hprev, -, -⟩ := segment_append.mp h
  rw [segment_append]
  refine ⟨hfront.setNext_of_notMem hb y, hprev, ?_, trivial⟩
  simp

/-- The first node gets another predecessor. -/
theorem Segment.setPrev_head (h : Segment l p (b :: xs) q) (hb : b ∉ xs) (y : Option ι) :
    Segment (l.setPrev b y) y (b :: xs) q := by
  obtain ⟨-, hnext, htail⟩ := h
  exact ⟨Function.update_self _ _ _, hnext, htail.setPrev_of_notMem hb y⟩

/-- The predecessor of a place learns of the node there. -/
def tellPrev (l : Links ι) (p : Option ι) (y : Option ι) : Links ι :=
  match p with
  | some x => l.setNext x y
  | none => l

/-- The successor of a place learns of the node there. -/
def tellNext (l : Links ι) (q : Option ι) (y : Option ι) : Links ι :=
  match q with
  | some x => l.setPrev x y
  | none => l

theorem tellPrev_segment (h : Segment l p xs q) (hnd : xs.Nodup) (y : Option ι) :
    Segment (tellPrev l xs.getLast? y) p xs y := by
  cases hlast : xs.getLast? with
  | none =>
    rw [List.getLast?_eq_none_iff.mp hlast]
    trivial
  | some b =>
    obtain ⟨init, rfl⟩ := List.getLast?_eq_some_iff.mp hlast
    exact h.setNext_last (fun hb => (List.nodup_append.mp hnd).2.2 b hb b (by simp) rfl) y

theorem tellNext_segment (h : Segment l p xs q) (hnd : xs.Nodup) (y : Option ι) :
    Segment (tellNext l xs.head? y) y xs q := by
  cases xs with
  | nil => trivial
  | cons b xs => exact h.setPrev_head (List.nodup_cons.mp hnd).1 y

theorem Segment.tellPrev_of_notMem (h : Segment l p xs q) {o : Option ι} (ho : ∀ b ∈ o, b ∉ xs)
    (y : Option ι) : Segment (tellPrev l o y) p xs q := by
  cases o with
  | none => exact h
  | some b => exact h.setNext_of_notMem (ho b rfl) y

theorem Segment.tellNext_of_notMem (h : Segment l p xs q) {o : Option ι} (ho : ∀ b ∈ o, b ∉ xs)
    (y : Option ι) : Segment (tellNext l o y) p xs q := by
  cases o with
  | none => exact h
  | some b => exact h.setPrev_of_notMem (ho b rfl) y

theorem tellPrev_tellNext (o i y z : Option ι) :
    tellPrev (tellNext l i z) o y = tellNext (tellPrev l o y) i z := by
  cases o <;> cases i <;> rfl

theorem tellPrev_next_of_notMem {o : Option ι} (ho : f ∉ o) (y : Option ι) :
    (tellPrev l o y).next f = l.next f := by
  cases o with
  | none => rfl
  | some b => exact Function.update_of_ne (fun heq : f = b => ho (congrArg some heq.symm)) _ _

theorem tellNext_prev_of_notMem {o : Option ι} (ho : f ∉ o) (y : Option ι) :
    (tellNext l o y).prev f = l.prev f := by
  cases o with
  | none => rfl
  | some b => exact Function.update_of_ne (fun heq : f = b => ho (congrArg some heq.symm)) _ _

@[simp] theorem tellPrev_prev (o y : Option ι) : (tellPrev l o y).prev = l.prev := by
  cases o <;> rfl

@[simp] theorem tellNext_next (o y : Option ι) : (tellNext l o y).next = l.next := by
  cases o <;> rfl

/-- A node is linked in between two neighbours, either of which may be missing. -/
def insertBetween (l : Links ι) (o i : Option ι) (f : ι) : Links ι :=
  tellNext (tellPrev ((l.setNext f i).setPrev f o) o (some f)) i (some f)

/-- The neighbours of a node are linked to each other. -/
def unlink (l : Links ι) (f : ι) : Links ι :=
  tellPrev (tellNext l (l.next f) (l.prev f)) (l.prev f) (l.next f)

theorem Linked.insertBetween (h : Linked l (xs ++ ys)) (hf : f ∉ xs ++ ys) :
    Linked (insertBetween l xs.getLast? ys.head? f) (xs ++ f :: ys) := by
  have hfx : f ∉ xs := fun hmem => hf (List.mem_append_left _ hmem)
  have hfy : f ∉ ys := fun hmem => hf (List.mem_append_right _ hmem)
  obtain ⟨hndx, hndy, hdisj⟩ := List.nodup_append.mp h.nodup
  obtain ⟨hx, hy⟩ := segment_append.mp h.segment
  have hhead : ∀ b ∈ ys.head?, b ∉ xs := fun b hb hmem =>
    hdisj b hmem b (List.mem_of_mem_head? hb) rfl
  have hlast : ∀ b ∈ xs.getLast?, b ∉ ys := fun b hb hmem =>
    hdisj b (List.mem_of_mem_getLast? hb) b hmem rfl
  constructor
  · rw [List.nodup_append]
    refine ⟨hndx, List.nodup_cons.mpr ⟨hfy, hndy⟩, fun a ha b hb => ?_⟩
    rcases List.mem_cons.mp hb with rfl | hb
    · exact fun heq => hfx (heq ▸ ha)
    · exact hdisj a ha b hb
  · apply Segment.join
    · have hset := (hx.setNext_of_notMem hfx ys.head?).setPrev_of_notMem hfx xs.getLast?
      exact (tellPrev_segment hset hndx (some f)).tellNext_of_notMem hhead (some f)
    · have hset := (hy.setNext_of_notMem hfy ys.head?).setPrev_of_notMem hfy xs.getLast?
      exact tellNext_segment (hset.tellPrev_of_notMem hlast (some f)) hndy (some f)
    · have hout : f ∉ ys.head? := fun hmem => hfy (List.mem_of_mem_head? hmem)
      rw [SupportLinkedList.insertBetween, tellNext_prev_of_notMem hout, tellPrev_prev,
        setPrev_prev, Function.update_self]
    · have hin : f ∉ xs.getLast? := fun hmem => hfx (List.mem_of_mem_getLast? hmem)
      rw [SupportLinkedList.insertBetween, tellNext_next, tellPrev_next_of_notMem hin,
        setPrev_next, setNext_next, Function.update_self]

theorem Linked.unlink (h : Linked l (xs ++ f :: ys)) : Linked (unlink l f) (xs ++ ys) := by
  obtain ⟨hndx, hndy, hdisj⟩ := List.nodup_append.mp h.nodup
  obtain ⟨hx, -, -, hy⟩ := segment_append.mp h.segment
  have hndys := (List.nodup_cons.mp hndy).2
  have hhead : ∀ b ∈ ys.head?, b ∉ xs := fun b hb hmem =>
    hdisj b hmem b (List.mem_cons_of_mem _ (List.mem_of_mem_head? hb)) rfl
  have hlast : ∀ b ∈ xs.getLast?, b ∉ ys := fun b hb hmem =>
    hdisj b (List.mem_of_mem_getLast? hb) b (List.mem_cons_of_mem _ hmem) rfl
  constructor
  · exact List.nodup_append.mpr
      ⟨hndx, hndys, fun a ha b hb => hdisj a ha b (List.mem_cons_of_mem _ hb)⟩
  · rw [SupportLinkedList.unlink, h.next_eq, h.prev_eq, segment_append, Option.or_none,
      Option.or_none]
    constructor
    · exact tellPrev_segment (hx.tellNext_of_notMem hhead _) hndx _
    · exact (tellNext_segment hy hndys _).tellPrev_of_notMem hlast _

end Update

end SupportLinkedList
