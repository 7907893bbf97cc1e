import Mathlib.Data.List.Basic

/-! # Histories

A list that grows at its end, each of whose entries is to be justified by those before it.
-/
namespace SupportHistory

variable {α : Type*} {P Q : List α → α → Prop} {log : List α} {e : α}

/-- Every entry meets the condition `P` on what came before it. -/
def Justified (P : List α → α → Prop) (log : List α) : Prop :=
  ∀ before e after, log = before ++ e :: after → P before e

theorem justified_nil : Justified P [] := by
  intro before e after h
  simp at h

theorem justified_snoc : Justified P (log ++ [e]) ↔ Justified P log ∧ P log e := by
  constructor
  · intro h
    refine ⟨fun before x after heq => ?_, h log e [] rfl⟩
    apply h before x (after ++ [e])
    rw [heq, List.append_assoc, List.cons_append]
  · rintro ⟨hlog, hlast⟩ before x after heq
    rcases List.eq_nil_or_concat after with rfl | ⟨after', y, rfl⟩
    · obtain ⟨rfl, hx⟩ := List.append_inj' heq rfl
      exact (List.cons.inj hx).1 ▸ hlast
    · rw [List.concat_eq_append, ← List.cons_append, ← List.append_assoc] at heq
      exact hlog before x after' (List.append_inj' heq rfl).1

theorem Justified.mono (h : Justified P log) (hpq : ∀ before e, P before e → Q before e) :
    Justified Q log := fun before e after heq => hpq before e (h before e after heq)

/-- What is justified stays so when the history grows. -/
theorem Justified.of_append {more : List α} (h : Justified P (log ++ more)) : Justified P log := by
  intro before e after heq
  apply h before e (after ++ more)
  rw [heq, List.append_assoc, List.cons_append]

end SupportHistory
