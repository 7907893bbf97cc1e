import Mathlib.Logic.Function.Basic
import Tcode.SupportHistory

/-! # Batches of changes to a table

A change writes the entry of its key. It is accepted if it is valid in itself, and either makes
the entry or finds one. A batch is applied in order, up to the first change that is not accepted.
-/
namespace SupportChangeBatch

open SupportHistory

/-- What is known of changes of type `χ` to a table from `κ` to `β`. -/
structure Format (χ κ β : Type*) where
  key : χ → κ
  entry : χ → β
  valid : χ → Bool
  makes : χ → Bool

variable {χ κ β : Type*} [DecidableEq κ] {F : Format χ κ β} {t : κ → Option β} {k : κ} {c : χ}
  {pre post front rest l : List χ} {live : χ → Prop}

def Format.accepts (F : Format χ κ β) (t : κ → Option β) (c : χ) : Bool :=
  F.valid c && (F.makes c || (t (F.key c)).isSome)

def Format.put (F : Format χ κ β) (t : κ → Option β) (c : χ) : κ → Option β :=
  Function.update t (F.key c) (some (F.entry c))

/-- The part of a batch that is applied. -/
def Format.applied (F : Format χ κ β) : (κ → Option β) → List χ → List χ
  | _, [] => []
  | t, c :: cs => if F.accepts t c then c :: F.applied (F.put t c) cs else []

/-- The table after a batch. -/
def Format.result (F : Format χ κ β) (t : κ → Option β) (l : List χ) : κ → Option β :=
  (F.applied t l).foldl F.put t

/-! ## The table after changes -/

theorem foldl_put_of_forall_ne (h : ∀ c ∈ l, F.key c ≠ k) : l.foldl F.put t k = t k := by
  induction l generalizing t with
  | nil => rfl
  | cons c l ih =>
    obtain ⟨hc, hl⟩ := List.forall_mem_cons.mp h
    rw [List.foldl_cons, ih hl, Format.put, Function.update_of_ne (Ne.symm hc)]

/-- The last change of a key decides. -/
theorem foldl_put_last (hk : F.key c = k) (h : ∀ x ∈ post, F.key x ≠ k) :
    (pre ++ c :: post).foldl F.put t k = some (F.entry c) := by
  rw [List.foldl_append, List.foldl_cons, foldl_put_of_forall_ne h, Format.put, hk,
    Function.update_self]

theorem isSome_foldl_put :
    (l.foldl F.put t k).isSome = true ↔ (t k).isSome = true ∨ ∃ c ∈ l, F.key c = k := by
  induction l generalizing t with
  | nil => simp
  | cons c l ih =>
    rw [List.foldl_cons, ih, Format.put]
    by_cases hk : k = F.key c
    · subst hk
      simp
    · simp [Function.update_of_ne hk, Ne.symm hk]

/-! ## What is applied -/

/-- The change is accepted once those before it are applied. -/
def Format.Accepted (F : Format χ κ β) (t : κ → Option β) (pre : List χ) (c : χ) : Prop :=
  F.valid c = true ∧
    (F.makes c = true ∨ (t (F.key c)).isSome = true ∨ ∃ a ∈ pre, F.key a = F.key c)

theorem accepts_foldl_iff : F.accepts (pre.foldl F.put t) c = true ↔ F.Accepted t pre c := by
  rw [Format.accepts, Format.Accepted, Bool.and_eq_true, Bool.or_eq_true, isSome_foldl_put]

theorem accepted_cons {a : χ} :
    F.Accepted (F.put t a) pre c ↔ F.Accepted t (a :: pre) c := by
  rw [← accepts_foldl_iff, ← accepts_foldl_iff, List.foldl_cons]

theorem applied_isPrefix (F : Format χ κ β) (t : κ → Option β) (l : List χ) :
    F.applied t l <+: l := by
  induction l generalizing t with
  | nil => exact List.prefix_refl []
  | cons c l ih =>
    rw [Format.applied]
    split
    · exact (List.prefix_cons_inj c).mpr (ih _)
    · exact List.nil_prefix

/-- Everything is applied up to the first change that is not accepted. -/
theorem applied_spec (F : Format χ κ β) (t : κ → Option β) (l : List χ) :
    Justified (F.Accepted t) (F.applied t l) ∧
      ∀ c rest, l = F.applied t l ++ c :: rest → ¬ F.Accepted t (F.applied t l) c := by
  induction l generalizing t with
  | nil => exact ⟨justified_nil, by simp⟩
  | cons a l ih =>
    rw [Format.applied]
    by_cases ha : F.accepts t a = true
    · rw [if_pos ha]
      obtain ⟨hjust, hstop⟩ := ih (F.put t a)
      constructor
      · intro before e after heq
        cases before with
        | nil =>
          obtain ⟨rfl, -⟩ := List.cons.inj heq
          exact accepts_foldl_iff.mp ha
        | cons b before =>
          obtain ⟨rfl, htail⟩ := List.cons.inj heq
          exact accepted_cons.mp (hjust before e after htail)
      · intro c rest heq hc
        exact hstop c rest (List.cons.inj heq).2 (accepted_cons.mpr hc)
    · rw [if_neg ha]
      refine ⟨justified_nil, ?_⟩
      intro c rest heq hc
      obtain ⟨rfl, -⟩ := List.cons.inj heq
      exact ha (accepts_foldl_iff.mpr hc)

/-- No live change is left out. -/
def Format.AllApplied (F : Format χ κ β) (live : χ → Prop) (t : κ → Option β) (l : List χ) : Prop :=
  ∃ rest, l = F.applied t l ++ rest ∧ ∀ c ∈ rest, ¬ live c

/-- The live changes are applied exactly if each change that is not behind all of them is
accepted. -/
theorem allApplied_iff : F.AllApplied live t l ↔
    ∀ pre c post, l = pre ++ c :: post → (∃ x ∈ c :: post, live x) → F.Accepted t pre c := by
  obtain ⟨hjust, hstop⟩ := applied_spec F t l
  constructor
  · rintro ⟨rest, hl, hrest⟩ pre c post hsplit ⟨x, hx, hlive⟩
    rcases List.append_eq_append_iff.mp (hl.symm.trans hsplit) with
      ⟨more, -, hmore⟩ | ⟨more, happ, hmore⟩
    · exact absurd hlive (hrest x (hmore ▸ List.mem_append_right _ hx))
    · cases more with
      | nil =>
        rw [hmore] at hx
        exact absurd hlive (hrest x hx)
      | cons y more =>
        obtain ⟨rfl, -⟩ := List.cons.inj hmore
        exact hjust pre c more happ
  · intro h
    obtain ⟨rest, hrest⟩ := applied_isPrefix F t l
    refine ⟨rest, hrest.symm, fun x hx hlive => ?_⟩
    cases rest with
    | nil => cases hx
    | cons c rest => exact hstop c rest hrest.symm (h _ c rest hrest.symm ⟨x, hx, hlive⟩)

/-- If no live change is left out, then the last change of a key that is live decides. -/
theorem result_last (h : F.AllApplied live t (pre ++ c :: post)) (hlive : live c)
    (hpost : ∀ x ∈ post, F.key x ≠ F.key c) :
    F.result t (pre ++ c :: post) (F.key c) = some (F.entry c) := by
  obtain ⟨rest, hl, hrest⟩ := h
  rcases List.append_eq_append_iff.mp hl with ⟨more, happ, hmore⟩ | ⟨more, -, hmore⟩
  · cases more with
    | nil =>
      have hin : c ∈ rest := by
        rw [← List.nil_append rest, ← hmore]
        exact List.mem_cons_self
      exact absurd hlive (hrest c hin)
    | cons y more =>
      obtain ⟨rfl, hpost'⟩ := List.cons.inj hmore
      rw [Format.result, happ]
      exact foldl_put_last rfl fun x hx => hpost x (hpost' ▸ List.mem_append_left _ hx)
  · exact absurd hlive (hrest c (hmore ▸ List.mem_append_right _ List.mem_cons_self))

/-- A key that no change has keeps its entry. -/
theorem result_of_forall_ne (h : ∀ c ∈ l, F.key c ≠ k) : F.result t l k = t k :=
  foldl_put_of_forall_ne fun c hc => h c ((applied_isPrefix F t l).subset hc)

end SupportChangeBatch
