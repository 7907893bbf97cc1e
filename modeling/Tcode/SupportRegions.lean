import Mathlib.Data.List.Pairwise

/-! # Regions of memory

An allocator hands out regions that lie apart from all it has handed out before and not yet taken
back. A region is given back by its address.
-/
namespace SupportRegions

structure Region where
  start : Nat
  size : Nat
  deriving DecidableEq, Repr

def Apart (r q : Region) : Prop := r.start + r.size ≤ q.start ∨ q.start + q.size ≤ r.start

instance (r q : Region) : Decidable (Apart r q) := inferInstanceAs (Decidable (_ ∨ _))

instance : Std.Symm Apart := ⟨fun _ _ h => h.symm⟩

/-- An allocation of `size` bytes may be answered with the address `p`. -/
def Fresh (rs : List Region) (p size : Nat) : Prop := p ≠ 0 ∧ ∀ r ∈ rs, Apart ⟨p, size⟩ r

instance (rs : List Region) (p size : Nat) : Decidable (Fresh rs p size) :=
  inferInstanceAs (Decidable (_ ∧ _))

def release (rs : List Region) (p : Nat) : List Region := rs.filter (·.start ≠ p)

/-- A region begins at the address. -/
def Begins (rs : List Region) (p : Nat) : Prop := ∃ r ∈ rs, r.start = p

instance (rs : List Region) (p : Nat) : Decidable (Begins rs p) :=
  inferInstanceAs (Decidable (∃ r ∈ rs, _))

/-- There are `n` bytes behind the address. -/
def Room (rs : List Region) (p n : Nat) : Prop := ∃ r ∈ rs, r.start = p ∧ n ≤ r.size

instance (rs : List Region) (p n : Nat) : Decidable (Room rs p n) :=
  inferInstanceAs (Decidable (∃ r ∈ rs, _ ∧ _))

structure Separate (rs : List Region) : Prop where
  apart : rs.Pairwise Apart
  pos : ∀ r ∈ rs, 0 < r.size ∧ r.start ≠ 0

variable {rs : List Region} {r q : Region} {p size n : Nat}

theorem separate_nil : Separate [] := ⟨.nil, nofun⟩

theorem Separate.apart_of_ne (h : Separate rs) (hr : r ∈ rs) (hq : q ∈ rs) (hne : r ≠ q) :
    Apart r q := h.apart.forall hr hq hne

theorem Separate.unique (h : Separate rs) (hr : r ∈ rs) (hq : q ∈ rs)
    (hstart : r.start = q.start) : r = q := by
  by_contra hne
  have hapart := h.apart_of_ne hr hq hne
  have hposr := (h.pos r hr).1
  have hposq := (h.pos q hq).1
  unfold Apart at hapart
  omega

theorem Separate.add (h : Separate rs) (hfresh : Fresh rs p size) (hsize : 0 < size) :
    Separate (⟨p, size⟩ :: rs) := by
  refine ⟨List.pairwise_cons.mpr ⟨hfresh.2, h.apart⟩, fun r hr => ?_⟩
  rcases List.mem_cons.mp hr with rfl | hr
  · exact ⟨hsize, hfresh.1⟩
  · exact h.pos r hr

/-- No region begins where a new one may. -/
theorem Separate.not_begins (h : Separate rs) (hfresh : Fresh rs p size) (hsize : 0 < size) :
    ¬ Begins rs p := by
  rintro ⟨r, hr, rfl⟩
  have hapart := hfresh.2 r hr
  have hpos := (h.pos r hr).1
  simp only [Apart] at hapart
  omega

theorem mem_release : r ∈ release rs p ↔ r ∈ rs ∧ r.start ≠ p := by
  rw [release, List.mem_filter, decide_eq_true_eq]

theorem Separate.release (h : Separate rs) (p : Nat) : Separate (release rs p) :=
  ⟨h.apart.filter _, fun r hr => h.pos r (mem_release.mp hr).1⟩

theorem Room.begins (h : Room rs p n) : Begins rs p := by
  obtain ⟨r, hr, hstart, -⟩ := h
  exact ⟨r, hr, hstart⟩

/-- What lies in two regions lies apart. -/
theorem Separate.room_apart (h : Separate rs) {p' n' : Nat} (hr : Room rs p n)
    (hq : Room rs p' n') (hne : p ≠ p') : p + n ≤ p' ∨ p' + n' ≤ p := by
  obtain ⟨r, hr, rfl, hn⟩ := hr
  obtain ⟨q, hq, rfl, hn'⟩ := hq
  have hapart := h.apart_of_ne hr hq fun hrq => hne (congrArg Region.start hrq)
  unfold Apart at hapart
  omega

end SupportRegions
