import Mathlib.Data.List.Basic

/-! # Decoders fed with the fragments of a stream

A decoder looks at the symbols received and not yet consumed. Its turn waits for
more, emits a value and consumes symbols, or fails. A turn that emits or fails is
not changed by symbols that arrive later, so the way a stream is cut into
fragments cannot be seen in what is emitted.
-/
namespace SupportIncrementalDecoder

inductive Turn (α β : Type*) where
  | wait
  | emit (b : β) (rest : List α)
  | fail
  deriving DecidableEq, Repr

structure Decoder (α β : Type*) where
  turn : List α → Turn α β
  turn_nil : turn [] = .wait
  shrinks : ∀ {xs b ys}, turn xs = .emit b ys → ys.length < xs.length
  stable_emit : ∀ {xs b ys} zs, turn xs = .emit b ys → turn (xs ++ zs) = .emit b (ys ++ zs)
  stable_fail : ∀ {xs} zs, turn xs = .fail → turn (xs ++ zs) = .fail

namespace Decoder

variable {α β : Type*} (D : Decoder α β)

/-- The values emitted until the decoder waits, and the symbols it leaves; no
symbols are left by a decoder that failed. -/
def drain (xs : List α) : List β × Option (List α) :=
  match _h : D.turn xs with
  | .wait => ([], some xs)
  | .fail => ([], none)
  | .emit b ys => (b :: (drain ys).1, (drain ys).2)
termination_by xs.length
decreasing_by all_goals exact D.shrinks _h

/-- One fragment on top of what earlier fragments left; nothing is read after a failure. -/
def feed : Option (List α) → List α → List β × Option (List α)
  | none, _ => ([], none)
  | some left, xs => D.drain (left ++ xs)

def feedAll : Option (List α) → List (List α) → List β × Option (List α)
  | left, [] => ([], left)
  | left, xs :: cut => ((D.feed left xs).1 ++ (feedAll (D.feed left xs).2 cut).1,
      (feedAll (D.feed left xs).2 cut).2)

variable {D}

theorem drain_wait {xs : List α} (h : D.turn xs = .wait) : D.drain xs = ([], some xs) := by
  rw [drain]
  split <;> simp_all

theorem drain_fail {xs : List α} (h : D.turn xs = .fail) : D.drain xs = ([], none) := by
  rw [drain]
  split <;> simp_all

theorem drain_emit {xs ys : List α} {b : β} (h : D.turn xs = .emit b ys) :
    D.drain xs = (b :: (D.drain ys).1, (D.drain ys).2) := by
  rw [drain]
  split
  · simp_all
  · simp_all
  · next h' =>
    obtain ⟨rfl, rfl⟩ := Turn.emit.inj (h.symm.trans h')
    rfl

/-- The leftover of a drain makes the decoder wait. -/
theorem turn_of_drain {xs left : List α} (h : (D.drain xs).2 = some left) :
    D.turn left = .wait := by
  induction xs using drain.induct D with
  | case1 xs ht =>
    rw [drain_wait ht] at h
    exact Option.some.inj h ▸ ht
  | case2 xs ht => simp [drain_fail ht] at h
  | case3 xs b ys ht ih =>
    rw [drain_emit ht] at h
    exact ih h

theorem drain_length_le {xs left : List α} (h : (D.drain xs).2 = some left) :
    left.length ≤ xs.length := by
  induction xs using drain.induct D with
  | case1 xs ht =>
    rw [drain_wait ht] at h
    exact Nat.le_of_eq (congrArg List.length (Option.some.inj h).symm)
  | case2 xs ht => simp [drain_fail ht] at h
  | case3 xs b ys ht ih =>
    rw [drain_emit ht] at h
    exact Nat.le_trans (ih h) (Nat.le_of_lt (D.shrinks ht))

/-- Symbols that arrive later are decoded after the ones that came first. -/
theorem drain_append (xs zs : List α) :
    D.drain (xs ++ zs) =
      ((D.drain xs).1 ++ (D.feed (D.drain xs).2 zs).1, (D.feed (D.drain xs).2 zs).2) := by
  induction xs using drain.induct D with
  | case1 xs ht => simp [drain_wait ht, feed]
  | case2 xs ht => simp [drain_fail ht, drain_fail (D.stable_fail zs ht), feed]
  | case3 xs b ys ht ih =>
    rw [drain_emit (D.stable_emit zs ht), drain_emit ht, ih]
    rfl

theorem feedAll_none (cut : List (List α)) : D.feedAll none cut = ([], none) := by
  induction cut with
  | nil => rfl
  | cons xs cut ih => simp [feedAll, feed, ih]

/-- However the stream is cut, the fragments give what the whole stream gives. -/
theorem feedAll_eq_drain {left : List α} (h : D.turn left = .wait) (cut : List (List α)) :
    D.feedAll (some left) cut = D.drain (left ++ cut.flatten) := by
  induction cut generalizing left with
  | nil => simp [feedAll, drain_wait h]
  | cons xs cut ih =>
    rw [List.flatten_cons, ← List.append_assoc, drain_append]
    simp only [feedAll, feed]
    cases hl : (D.drain (left ++ xs)).2 with
    | none => simp [feedAll_none]
    | some left' => simp [ih (turn_of_drain hl)]

/-- The streams that decode to a given list, turn by turn. -/
theorem drain_eq_cons_iff {xs : List α} {b : β} {bs : List β} :
    (∃ left, D.drain xs = (b :: bs, some left)) ↔
      ∃ ys, D.turn xs = .emit b ys ∧ ∃ left, D.drain ys = (bs, some left) := by
  cases ht : D.turn xs with
  | wait => simp [drain_wait ht]
  | fail => simp [drain_fail ht]
  | emit c ys => simp [drain_emit ht, Prod.ext_iff, and_assoc]

theorem drain_eq_nil_iff {xs : List α} :
    (∃ left, D.drain xs = ([], some left)) ↔ D.turn xs = .wait := by
  cases ht : D.turn xs with
  | wait => simp [drain_wait ht]
  | fail => simp [drain_fail ht]
  | emit c ys => simp [drain_emit ht]

end Decoder

end SupportIncrementalDecoder
