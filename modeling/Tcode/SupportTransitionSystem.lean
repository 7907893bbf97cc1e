import Mathlib.Logic.Relation

/-! # Guarded transition systems

A system is a guard and a total next-state function. An execution may carry a
condition that each of its steps meets, so that a result can speak of the runs
which avoid one kind of step. A system may also be run inside an environment
that has a state of its own, answers its steps and moves between them.
-/
namespace SupportTransitionSystem

structure System (σ ε : Type*) where
  Enabled : σ → ε → Prop
  next : σ → ε → σ

namespace System

variable {σ ε κ δ : Type*}

/-- Runs from a state all of whose steps meet the condition `C`. -/
inductive Execution (M : System σ ε) (C : σ → ε → Prop) (s : σ) : σ → Prop where
  | refl : Execution M C s s
  | tail {t e} : Execution M C s t → M.Enabled t e → C t e → Execution M C s (M.next t e)

def Reachable (M : System σ ε) (s t : σ) : Prop := M.Execution (fun _ _ => True) s t

variable {M : System σ ε} {C : σ → ε → Prop} {s t u : σ}

/-- What holds first and is kept by every step of the run holds at its end. A step
may also use that the state it leaves is on a run of the same kind. -/
theorem Execution.invariant {I : σ → Prop} (h : M.Execution C s t) (start : I s)
    (step : ∀ u e, M.Execution C s u → I u → M.Enabled u e → C u e → I (M.next u e)) : I t := by
  induction h with
  | refl => exact start
  | tail hu he hc ih => exact step _ _ hu ih he hc

theorem Execution.mono {D : σ → ε → Prop} (h : M.Execution C s t)
    (hcd : ∀ u e, C u e → D u e) : M.Execution D s t := by
  induction h with
  | refl => exact .refl
  | tail _ he hc ih => exact .tail ih he (hcd _ _ hc)

theorem Execution.trans (h : M.Execution C s t) (k : M.Execution C t u) : M.Execution C s u := by
  induction k with
  | refl => exact h
  | tail _ he hc ih => exact .tail ih he hc

theorem Execution.reachable (h : M.Execution C s t) : M.Reachable s t :=
  h.mono fun _ _ _ => trivial

theorem Reachable.tail {e : ε} (h : M.Reachable s t) (he : M.Enabled t e) :
    M.Reachable s (M.next t e) := Execution.tail h he trivial

/-! ## Replay of a list of events -/

def runTrace (M : System σ ε) (s : σ) : List ε → σ
  | [] => s
  | e :: es => M.runTrace (M.next s e) es

def ValidTrace (M : System σ ε) (C : σ → ε → Prop) (s : σ) : List ε → Prop
  | [] => True
  | e :: es => M.Enabled s e ∧ C s e ∧ M.ValidTrace C (M.next s e) es

instance decidableValidTrace (M : System σ ε) (C : σ → ε → Prop)
    [∀ s e, Decidable (M.Enabled s e)] [∀ s e, Decidable (C s e)] :
    ∀ (es : List ε) (s : σ), Decidable (M.ValidTrace C s es)
  | [], _ => isTrue trivial
  | e :: es, s =>
    have := decidableValidTrace M C es (M.next s e)
    inferInstanceAs (Decidable (M.Enabled s e ∧ C s e ∧ M.ValidTrace C (M.next s e) es))

theorem ValidTrace.execution {es : List ε} (h : M.ValidTrace C s es) :
    M.Execution C s (M.runTrace s es) := by
  suffices ∀ u, M.Execution C u s → M.Execution C u (M.runTrace s es) from this s .refl
  induction es generalizing s with
  | nil => exact fun _ hu => hu
  | cons e es ih => exact fun u hu => ih h.2.2 u (hu.tail h.1 h.2.1)

theorem ValidTrace.reachable {es : List ε} (h : M.ValidTrace (fun _ _ => True) s es) :
    M.Reachable s (M.runTrace s es) := h.execution

/-! ## A system inside an environment -/

/-- The environment restricts which steps the system can take, reacts to those it
takes, and has moves of its own that leave the system where it is. -/
structure Environment (σ ε κ δ : Type*) where
  Allows : σ × κ → ε → Prop
  reacts : σ × κ → ε → κ
  Enabled : σ × κ → δ → Prop
  next : σ × κ → δ → κ

def inside (M : System σ ε) (E : Environment σ ε κ δ) : System (σ × κ) (ε ⊕ δ) where
  Enabled p
    | .inl e => M.Enabled p.1 e ∧ E.Allows p e
    | .inr d => E.Enabled p d
  next p
    | .inl e => (M.next p.1 e, E.reacts p e)
    | .inr d => (p.1, E.next p d)

/-- Inside an environment a system has no run that it does not have on its own. -/
theorem Execution.inner {E : Environment σ ε κ δ} {D : σ × κ → ε ⊕ δ → Prop} {p q : σ × κ}
    (h : (M.inside E).Execution D p q) (hcd : ∀ u e, D u (.inl e) → C u.1 e) :
    M.Execution C p.1 q.1 := by
  induction h with
  | refl => exact .refl
  | @tail t e _ he hd ih =>
    cases e with
    | inl e => exact ih.tail he.1 (hcd t e hd)
    | inr d => exact ih

end System

end SupportTransitionSystem
