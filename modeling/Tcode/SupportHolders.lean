import Mathlib.Data.List.Count
import Mathlib.Logic.Function.Basic
import Tcode.SupportMachineInt

/-! # Holders of counted resources

Objects hold references to resources, at most one each. A resource begins with one reference,
counts them in a signed 32-bit number and is released when the last is given back.
-/
namespace SupportHolders

open SupportMachineInt

/-! ## Holders -/

section Holders

variable {α β : Type*} [DecidableEq β] {f : α → Option β} {n m : β → Nat} {r : Option β} {b : β}
  {objects : List (Option α)} {x : Nat} {o : α}

/-- The objects that hold a reference to `b`; `none` is no object any more. -/
def holders (f : α → Option β) (objects : List (Option α)) (b : β) : Nat :=
  objects.countP fun o => decide (o.bind f = some b)

/-- One reference more, if there is one. -/
def plus (n : β → Nat) (r : Option β) (b : β) : Nat := n b + if r = some b then 1 else 0

@[simp] theorem plus_none : plus n none = n := by
  funext b
  simp [plus]

@[simp] theorem plus_self : plus n (some b) b = n b + 1 := by simp [plus]

theorem plus_other {c : β} (hcb : c ≠ b) : plus n (some b) c = n c := by
  simp [plus, Ne.symm hcb]

theorem plus_le (n : β → Nat) (r : Option β) (b : β) : plus n r b ≤ n b + 1 := by
  unfold plus
  split_ifs <;> omega

theorem plus_cancel (h : plus n r = plus m r) : n = m := by
  funext b
  have hb := congrFun h b
  simp only [plus] at hb
  omega

theorem holders_append (objects : List (Option α)) (o : α) :
    holders f (objects ++ [some o]) = plus (holders f objects) (f o) := by
  funext b
  simp [holders, plus, List.countP_append, List.countP_singleton]

theorem holders_pos (hx : objects[x]? = some (some o)) (ho : f o = some b) :
    0 < holders f objects b :=
  List.countP_pos_iff.mpr ⟨some o, List.mem_of_getElem? hx, decide_eq_true ho⟩

theorem holders_le (objects : List (Option α)) (b : β) : holders f objects b ≤ objects.length :=
  List.countP_le_length

/-- An object gives its reference back when it is replaced by one that holds its own. -/
theorem holders_set (hx : objects[x]? = some (some o)) (o' : Option α) :
    plus (holders f (objects.set x o')) (f o) = plus (holders f objects) (o'.bind f) := by
  funext b
  obtain ⟨hlt, hold⟩ := List.getElem?_eq_some_iff.mp hx
  have hset := List.countP_set (p := fun o => decide (o.bind f = some b)) (a := o') hlt
  have hpos : f o = some b → 0 < holders f objects b := holders_pos hx
  simp only [hold, decide_eq_true_eq, Option.bind_some] at hset
  simp only [plus, holders] at hpos ⊢
  rw [hset]
  split_ifs at hpos ⊢ with hold hnew
  · have := hpos hold
    omega
  · have := hpos hold
    omega
  · omega
  · omega

/-! An object is looked up as `objects[x]?.join`. -/

theorem getElem?_of_join (hx : objects[x]?.join = some o) : objects[x]? = some (some o) :=
  Option.join_eq_some_iff.mp hx

theorem join_set (hx : objects[x]?.join = some o) (o' : Option α) :
    (objects.set x o')[x]?.join = o' := by
  obtain ⟨hlt, -⟩ := List.getElem?_eq_some_iff.mp (getElem?_of_join hx)
  rw [List.getElem?_set_self hlt, Option.join_some]

theorem join_set_ne {y : Nat} (hne : y ≠ x) (o' : Option α) :
    (objects.set x o')[y]?.join = objects[y]?.join := by
  rw [List.getElem?_set_ne (Ne.symm hne)]

theorem join_append (hx : objects[x]?.join = some o) (more : List (Option α)) :
    (objects ++ more)[x]?.join = some o := by
  obtain ⟨hlt, -⟩ := List.getElem?_eq_some_iff.mp (getElem?_of_join hx)
  rw [List.getElem?_append_left hlt, hx]

end Holders

/-! ## Counts -/

structure Counts where
  count : Nat → Int
  released : Nat → Bool
  made : Nat
  /-- A released resource has been used. -/
  stale : Bool

namespace Counts

def use (c : Counts) (b : Nat) : Counts := { c with stale := c.stale || c.released b }

/-- A new resource with one reference. -/
def create (c : Counts) : Counts :=
  { c with count := Function.update c.count c.made 1, made := c.made + 1 }

def acquire (c : Counts) (b : Nat) : Counts :=
  { c.use b with count := Function.update c.count b (toInt (c.count b + 1)) }

def release (c : Counts) (b : Nat) : Counts :=
  { c.use b with
    count := Function.update c.count b (toInt (c.count b - 1))
    released := if c.count b = 1 then Function.update c.released b true else c.released }

def initial : Counts := ⟨fun _ => 0, fun _ => false, 0, false⟩

@[simp] theorem acquire_count_self (c : Counts) (b : Nat) :
    (c.acquire b).count b = toInt (c.count b + 1) := Function.update_self ..

@[simp] theorem release_count_self (c : Counts) (b : Nat) :
    (c.release b).count b = toInt (c.count b - 1) := Function.update_self ..

end Counts

/-- There are `n b` references to each resource `b`. -/
structure Counted (c : Counts) (n : Nat → Nat) : Prop where
  count : ∀ b < c.made, c.count b = toInt (n b)
  released : ∀ b < c.made, c.released b = true ↔ n b = 0
  unborn : ∀ b, c.made ≤ b → c.released b = false ∧ n b = 0
  fresh : c.stale = false

namespace Counted

variable {c d : Counts} {n m : Nat → Nat} {b : Nat}

theorem initial : Counted .initial fun _ => 0 := ⟨nofun, nofun, fun _ _ => ⟨rfl, rfl⟩, rfl⟩

theorem live (hc : Counted c n) (hpos : 0 < n b) : b < c.made ∧ c.released b = false := by
  have hmade : b < c.made := by
    by_contra hmade
    have := (hc.unborn b (Nat.le_of_not_lt hmade)).2
    omega
  refine ⟨hmade, Bool.eq_false_iff.mpr fun hrel => ?_⟩
  have := (hc.released b hmade).mp hrel
  omega

theorem use (hc : Counted c n) (hpos : 0 < n b) : Counted (c.use b) n := by
  refine ⟨hc.count, hc.released, hc.unborn, ?_⟩
  rw [Counts.use, hc.fresh, (hc.live hpos).2, Bool.or_false]

/-- Something happens to one resource and to its references. -/
theorem change (hc : Counted c n) (hb : b < c.made) (hmade : d.made = c.made)
    (hfresh : d.stale = false) (hcount : d.count b = toInt (m b))
    (hrel : d.released b = true ↔ m b = 0)
    (hother : ∀ a ≠ b, d.count a = c.count a ∧ d.released a = c.released a ∧ m a = n a) :
    Counted d m := by
  refine ⟨fun a hlt => ?_, fun a hlt => ?_, fun a hle => ?_, hfresh⟩
  · by_cases hab : a = b
    · rwa [hab]
    · obtain ⟨hsame, -, hm⟩ := hother a hab
      rw [hsame, hm]
      exact hc.count a (hmade ▸ hlt)
  · by_cases hab : a = b
    · rwa [hab]
    · obtain ⟨-, hreleased, hm⟩ := hother a hab
      rw [hreleased, hm]
      exact hc.released a (hmade ▸ hlt)
  · rw [hmade] at hle
    obtain ⟨-, hreleased, hm⟩ := hother a (Nat.ne_of_gt (Nat.lt_of_lt_of_le hb hle))
    rw [hreleased, hm]
    exact hc.unborn a hle

theorem acquire (hc : Counted c n) (hpos : 0 < n b) :
    Counted (c.acquire b) (plus n (some b)) := by
  obtain ⟨hmade, hreleased⟩ := hc.live hpos
  have hcount : (c.acquire b).count b = toInt (plus n (some b) b) := by
    rw [Counts.acquire_count_self, hc.count b hmade, toInt_toInt_add, plus_self]
    rfl
  have hrel : (c.acquire b).released b = true ↔ plus n (some b) b = 0 := by
    simp [Counts.acquire, Counts.use, hreleased]
  refine hc.change hmade rfl (hc.use hpos).fresh hcount hrel fun a hab => ?_
  exact ⟨Function.update_of_ne hab .., rfl, plus_other hab⟩

/-- A reference is given back. Its resource is released when that was the only one, as long as a
count of one stands for one reference. -/
theorem release (hc : Counted c (plus n (some b)))
    (hlast : toInt (n b + 1) = 1 → n b = 0) : Counted (c.release b) n := by
  have hpos : 0 < plus n (some b) b := by
    rw [plus_self]
    exact Nat.succ_pos _
  obtain ⟨hmade, hreleased⟩ := hc.live hpos
  have hcount : c.count b = toInt (n b + 1) := by
    rw [hc.count b hmade, plus_self]
    rfl
  have hone : c.count b = 1 ↔ n b = 0 := by
    rw [hcount]
    refine ⟨hlast, fun hzero => ?_⟩
    rw [hzero]
    rfl
  have hless : (c.release b).count b = toInt (n b) := by
    rw [Counts.release_count_self, hcount, Int.sub_eq_add_neg, toInt_toInt_add, Int.add_assoc,
      Int.add_right_neg, Int.add_zero]
  have hrel : (c.release b).released b = true ↔ n b = 0 := by
    simp only [Counts.release, hone]
    split_ifs with hzero
    · simp [hzero]
    · simp [hreleased, hzero]
  refine hc.change hmade rfl (hc.use hpos).fresh hless hrel fun a hab => ?_
  refine ⟨Function.update_of_ne hab .., ?_, (plus_other hab).symm⟩
  simp only [Counts.release]
  split_ifs
  · exact Function.update_of_ne hab ..
  · rfl

theorem create (hc : Counted c n) : Counted c.create (plus n (some c.made)) := by
  obtain ⟨hreleased, hzero⟩ := hc.unborn c.made (Nat.le_refl _)
  have hone : plus n (some c.made) c.made = 1 := by rw [plus_self, hzero]
  refine ⟨fun a hmade => ?_, fun a hmade => ?_, fun a hmade => ?_, hc.fresh⟩
  · rcases Nat.lt_or_eq_of_le (Nat.le_of_lt_succ hmade) with hlt | rfl
    · rw [plus_other (Nat.ne_of_lt hlt)]
      exact (Function.update_of_ne (Nat.ne_of_lt hlt) ..).trans (hc.count a hlt)
    · rw [hone]
      exact Function.update_self ..
  · rcases Nat.lt_or_eq_of_le (Nat.le_of_lt_succ hmade) with hlt | rfl
    · rw [plus_other (Nat.ne_of_lt hlt)]
      exact hc.released a hlt
    · rw [hone]
      simp [Counts.create, hreleased]
  · have hlt : c.made < a := hmade
    rw [plus_other (Nat.ne_of_gt hlt)]
    exact hc.unborn a (Nat.le_of_lt hlt)

end Counted

end SupportHolders
