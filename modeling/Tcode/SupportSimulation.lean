import Mathlib.Algebra.Order.Group.Multiset
import Tcode.SupportTransitionSystem

/-! # Simulation with labels

The steps of a run carry labels. A system simulates another one if each step of the second is
matched by steps of the first that carry the same labels.
-/
namespace SupportSimulation

open SupportTransitionSystem

variable {σ τ ε δ β : Type*} {M : System σ ε} {A : System τ δ} {C : σ → ε → Prop}
  {D : τ → δ → Prop} {R : σ → τ → Prop} {label : σ → ε → List β} {label' : τ → δ → List β}
  {s : σ} {a : τ}

/-- The labels of a run. -/
def labels (M : System σ ε) (label : σ → ε → List β) (s : σ) : List ε → List β
  | [] => []
  | e :: es => label s e ++ labels M label (M.next s e) es

theorem runTrace_append (es fs : List ε) :
    M.runTrace s (es ++ fs) = M.runTrace (M.runTrace s es) fs := by
  induction es generalizing s with
  | nil => rfl
  | cons e es ih => exact ih

theorem labels_append (es fs : List ε) :
    labels M label s (es ++ fs) = labels M label s es ++ labels M label (M.runTrace s es) fs := by
  induction es generalizing s with
  | nil => rfl
  | cons e es ih => rw [List.cons_append, labels, ih, labels, List.append_assoc, System.runTrace]

theorem validTrace_append {es fs : List ε} (hes : M.ValidTrace C s es)
    (hfs : M.ValidTrace C (M.runTrace s es) fs) : M.ValidTrace C s (es ++ fs) := by
  induction es generalizing s with
  | nil => exact hfs
  | cons e es ih => exact ⟨hes.1, hes.2.1, ih hes.2.2 hfs⟩

/-- What comes in goes out or is held, when every step sees to it. -/
theorem labels_conserved {γ : Type*} {held : σ → Multiset γ} {input output : σ → ε → List γ}
    {es : List ε} (h : M.ValidTrace C s es)
    (step : ∀ s e, M.Enabled s e → C s e →
      held s + (input s e : Multiset γ) = (output s e : Multiset γ) + held (M.next s e)) :
    held s + (labels M input s es : Multiset γ) =
      (labels M output s es : Multiset γ) + held (M.runTrace s es) := by
  induction es generalizing s with
  | nil => exact add_comm _ _
  | cons e es ih =>
    have hrest := ih h.2.2
    rw [labels, labels, ← Multiset.coe_add, ← Multiset.coe_add, ← add_assoc,
      step s e h.1 h.2.1, add_assoc, hrest, add_assoc]
    rfl

/-- `A` goes from `a` to `b`, and its steps carry the labels `bs`. -/
def Path (A : System τ δ) (D : τ → δ → Prop) (label' : τ → δ → List β) (a : τ) (bs : List β)
    (b : τ) : Prop :=
  ∃ ds, A.ValidTrace D a ds ∧ labels A label' a ds = bs ∧ A.runTrace a ds = b

theorem Path.refl : Path A D label' a [] a := ⟨[], trivial, rfl, rfl⟩

theorem Path.step {d : δ} (hd : A.Enabled a d) (hD : D a d) :
    Path A D label' a (label' a d) (A.next a d) :=
  ⟨[d], ⟨hd, hD, trivial⟩, List.append_nil _, rfl⟩

theorem Path.trans {b c : τ} {bs cs : List β} (h : Path A D label' a bs b)
    (k : Path A D label' b cs c) : Path A D label' a (bs ++ cs) c := by
  obtain ⟨ds, hds, rfl, rfl⟩ := h
  obtain ⟨es, hes, rfl, rfl⟩ := k
  exact ⟨ds ++ es, validTrace_append hds hes, labels_append ds es, runTrace_append ds es⟩

/-- What holds at the start and is kept by every step holds at the end of a path. -/
theorem Path.invariant {I : τ → Prop} {b : τ} {bs : List β} (h : Path A D label' a bs b)
    (start : I a) (step : ∀ c d, I c → A.Enabled c d → D c d → I (A.next c d)) : I b := by
  obtain ⟨ds, hds, -, rfl⟩ := h
  exact hds.execution.invariant start fun c d _ => step c d

/-- What a path makes of a quantity that every step changes as its labels say. -/
theorem Path.fold {γ : Type*} {I : τ → Prop} {f : τ → γ} {op : γ → β → γ} {b : τ} {bs : List β}
    (h : Path A D label' a bs b) (start : I a)
    (keep : ∀ c d, I c → A.Enabled c d → D c d → I (A.next c d))
    (step : ∀ c d, I c → A.Enabled c d → D c d → f (A.next c d) = (label' c d).foldl op (f c)) :
    f b = bs.foldl op (f a) := by
  obtain ⟨ds, hds, rfl, rfl⟩ := h
  induction ds generalizing a with
  | nil => rfl
  | cons d ds ih =>
    have hrest := ih (keep a d start hds.1 hds.2.1) hds.2.2
    rw [labels, List.foldl_append, ← step a d start hds.1 hds.2.1]
    exact hrest

/-- A log to which each label adds one entry at most. -/
theorem foldl_log {γ : Type*} (entry : β → Option γ) (bs : List β) (log : List γ) :
    bs.foldl (fun l x => l ++ (entry x).toList) log = log ++ bs.filterMap entry := by
  induction bs generalizing log with
  | nil => exact (List.append_nil log).symm
  | cons x bs ih =>
    rw [List.foldl_cons, ih, List.append_assoc]
    cases hx : entry x with
    | none => rw [List.filterMap_cons_none hx, Option.toList_none, List.nil_append]
    | some y => rw [List.filterMap_cons_some hx, Option.toList_some, List.singleton_append]

/-- A bag to which each label adds one element at most. -/
theorem foldl_bag {γ : Type*} (entry : β → Option γ) (bs : List β) (m : Multiset γ) :
    bs.foldl (fun m x => m + ((entry x).toList : Multiset γ)) m = m + bs.filterMap entry := by
  induction bs generalizing m with
  | nil => exact (add_zero m).symm
  | cons x bs ih =>
    rw [List.foldl_cons, ih]
    cases hx : entry x with
    | none => simp [List.filterMap_cons_none hx]
    | some a =>
      rw [List.filterMap_cons_some hx, add_assoc]
      rfl

/-- Every step of `M` is matched by a path of `A` with the same labels. -/
def Simulates (M : System σ ε) (C : σ → ε → Prop) (label : σ → ε → List β) (A : System τ δ)
    (D : τ → δ → Prop) (label' : τ → δ → List β) (R : σ → τ → Prop) : Prop :=
  ∀ s a e, R s a → M.Enabled s e → C s e →
    ∃ b, Path A D label' a (label s e) b ∧ R (M.next s e) b

theorem Simulates.run (h : Simulates M C label A D label' R) {es : List ε} (hstart : R s a)
    (hes : M.ValidTrace C s es) :
    ∃ b, Path A D label' a (labels M label s es) b ∧ R (M.runTrace s es) b := by
  induction es generalizing s a with
  | nil => exact ⟨a, .refl, hstart⟩
  | cons e es ih =>
    obtain ⟨b, hpath, hb⟩ := h s a e hstart hes.1 hes.2.1
    obtain ⟨c, hrest, hc⟩ := ih hb hes.2.2
    exact ⟨c, hpath.trans hrest, hc⟩

end SupportSimulation
