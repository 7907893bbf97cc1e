import Mathlib.Logic.Function.Iterate
import Mathlib.Order.WellFounded

/-! # Iterating a step

A step is repeated until the state is done. Where every step that is not stuck comes nearer to
the end, and a stuck step stays stuck, the iteration ends exactly if it is never stuck.
-/
namespace SupportIteration

variable {α β : Type*} {f : α → α} {done stuck : α → Prop} {m : α → β}

def Reaches (f : α → α) (done : α → Prop) (a : α) : Prop := ∃ n, done (f^[n] a)

structure Progress [LT β] (f : α → α) (done stuck : α → Prop) (m : α → β) : Prop where
  rests : ∀ a, done a → done (f a)
  sticks : ∀ a, stuck a → ¬ done a ∧ stuck (f a)
  decreases : ∀ a, ¬ done a → ¬ stuck a → m (f a) < m a

theorem iterate_mem {p : α → Prop} (hp : ∀ a, p a → p (f a)) {a : α} {n k : Nat}
    (h : p (f^[n] a)) (hk : n ≤ k) : p (f^[k] a) := by
  induction k, hk using Nat.le_induction with
  | base => exact h
  | succ k hk ih =>
    rw [Function.iterate_succ_apply']
    exact hp _ ih

theorem Progress.reaches [LT β] [WellFoundedLT β] (h : Progress f done stuck m) (a : α)
    (hstuck : ∀ n, ¬ stuck (f^[n] a)) : Reaches f done a := by
  induction hm : m a using WellFoundedLT.induction generalizing a with
  | ind b ih =>
    subst hm
    by_cases hdone : done a
    · exact ⟨0, hdone⟩
    · obtain ⟨n, hn⟩ := ih _ (h.decreases a hdone (hstuck 0)) (f a)
        (fun n => hstuck (n + 1)) rfl
      exact ⟨n + 1, hn⟩

theorem Progress.reaches_iff [LT β] [WellFoundedLT β] (h : Progress f done stuck m) (a : α) :
    Reaches f done a ↔ ∀ n, ¬ stuck (f^[n] a) := by
  refine ⟨?_, h.reaches a⟩
  rintro ⟨n, hn⟩ k hk
  have hdone := iterate_mem h.rests hn (Nat.le_max_left n k)
  have hstuck := iterate_mem (fun b hb => (h.sticks b hb).2) hk (Nat.le_max_right n k)
  exact (h.sticks _ hstuck).1 hdone

end SupportIteration
