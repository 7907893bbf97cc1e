import Mathlib.Data.List.Basic

/-! # Bounded queues

A queue holds its items in a space of fixed capacity, behind the places of those that have been
taken. What is put in has to fit behind the items; compacting frees the places in front of them.
-/
namespace SupportBoundedQueue

@[ext]
structure BoundedQueue (α : Type*) where
  contents : List α
  gone : Nat
  capacity : Nat
  fits : gone + contents.length ≤ capacity

namespace BoundedQueue

variable {α : Type*}

/-- The places behind the items. -/
def room (q : BoundedQueue α) : Nat := q.capacity - (q.gone + q.contents.length)

/-- As many of the items as there is room for. -/
def put (q : BoundedQueue α) (xs : List α) : Nat × BoundedQueue α :=
  (min xs.length q.room,
    { q with
      contents := q.contents ++ xs.take q.room
      fits := by
        have hfits := q.fits
        rw [List.length_append, List.length_take, room]
        omega })

def peek (q : BoundedQueue α) (n : Nat) : List α := q.contents.take n

def take (q : BoundedQueue α) (n : Nat) : List α × BoundedQueue α :=
  (q.peek n,
    { q with
      contents := q.contents.drop n
      gone := q.gone + min n q.contents.length
      fits := by
        have hfits := q.fits
        rw [List.length_drop]
        omega })

def compact (q : BoundedQueue α) : BoundedQueue α :=
  { q with
    gone := 0
    fits := by
      have hfits := q.fits
      omega }

/-- The items move to a space of another capacity. -/
def move (q : BoundedQueue α) (n : Nat) (hn : q.contents.length ≤ n) : BoundedQueue α :=
  ⟨q.contents, 0, n, by rwa [Nat.zero_add]⟩

def clear (q : BoundedQueue α) : BoundedQueue α := ⟨[], 0, q.capacity, Nat.zero_le _⟩

@[simp] theorem room_compact (q : BoundedQueue α) :
    q.compact.room = q.capacity - q.contents.length := by
  rw [room, compact, Nat.zero_add]

@[simp] theorem contents_put (q : BoundedQueue α) (xs : List α) :
    (q.put xs).2.contents = q.contents ++ xs.take (q.put xs).1 := by
  rw [put, Nat.min_comm, ← List.take_take, List.take_length]

end BoundedQueue

end SupportBoundedQueue
