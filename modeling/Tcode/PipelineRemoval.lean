import Tcode.PipelineInsertion

/-! # Removing a filter

`remove` links the neighbours of a filter to each other and moves `_inbound` to the
neighbour on the other side of the chain.
-/
namespace PipelineRemoval

open SupportLinkedList PipelineChain PipelineInsertion

variable {ι : Type*} {s t : Pipeline ι} {f g : ι} {chain xs ys : List ι} {n : Nat}

/-- The filters of a chain that see an event which is forwarded from the first on. -/
def reached (forwards : ι → Bool) : List ι → List ι
  | [] => []
  | x :: xs => if forwards x then x :: reached forwards xs else [x]

theorem visit_eq (forwards : ι → Bool) {p : Option ι} (h : Segment s.links p xs none)
    (hn : xs.length ≤ n) : s.visit forwards n xs.head? = some (reached forwards xs) := by
  induction xs generalizing p n with
  | nil => cases n <;> rfl
  | cons x xs ih =>
    obtain ⟨-, hnext, htail⟩ := h
    cases n with
    | zero => exact absurd hn (by simp)
    | succ n =>
      have hlength : xs.length ≤ n := by simpa using hn
      rw [Option.or_none] at hnext
      rw [List.head?_cons, Pipeline.visit, Pipeline.filters_inbound, hnext, ih htail hlength,
        reached]
      by_cases hx : forwards x <;> simp [hx]

theorem reached_sublist (forwards : ι → Bool) : (reached forwards xs).Sublist xs := by
  induction xs with
  | nil => exact .slnil
  | cons x xs ih =>
    by_cases hx : forwards x
    · simpa [reached, hx] using ih
    · simp [reached, hx]

theorem reached_all : reached (fun _ => true) xs = xs := by
  induction xs with
  | nil => rfl
  | cons x xs ih => simp [reached, ih]

theorem reached_eq_iff (forwards : ι → Bool) :
    reached forwards xs = xs ↔ ∀ f ∈ xs.dropLast, forwards f = true := by
  induction xs with
  | nil => simp [reached]
  | cons x xs ih =>
    cases xs with
    | nil =>
      by_cases hx : forwards x <;> simp [reached, hx]
    | cons y ys =>
      rw [List.dropLast_cons_cons, List.forall_mem_cons, ← ih]
      by_cases hx : forwards x
      · rw [reached, if_pos hx, List.cons.injEq, and_iff_right rfl, and_iff_right hx]
      · rw [reached, if_neg hx]
        simp [hx]

/-- What a filter sees does not become less when another one is taken out. -/
theorem reached_without (forwards : ι → Bool) (hg : g ∈ reached forwards (xs ++ f :: ys))
    (hne : g ≠ f) : g ∈ reached forwards (xs ++ ys) := by
  induction xs with
  | nil =>
    by_cases hf : forwards f
    · simpa [reached, hf, hne] using hg
    · simp [reached, hf, hne] at hg
  | cons x xs ih =>
    by_cases hx : forwards x
    · simp only [List.cons_append, reached, hx, if_true, List.mem_cons] at hg ⊢
      exact hg.imp_right ih
    · simpa [reached, hx] using hg

variable [DecidableEq ι]

/-- The filter is gone, and the others neither notice nor get lost. -/
structure RemovesExactly (s t : Pipeline ι) (chain : List ι) (f : ι) : Prop where
  wellFormed : WellFormed t (chain.erase f)
  events : ∀ (forwards : ι → Bool) (n : Nat), chain.length ≤ n →
    ∃ before after, s.fireFilterOn forwards n = some before ∧
      t.fireFilterOn forwards n = some after ∧
      ∀ g ∈ chain.erase f, g ∈ before → after.count g = 1
  endReference : ∀ n, chain.length ≤ n → ∃ visited,
    t.fireFilterOnEndReference n = some visited ∧ ∀ g ∈ chain.erase f, visited.count g = 1

theorem removesExactly (h : Linked s.links (xs ++ f :: ys)) (hs : s.inbound = (xs ++ f :: ys).head?)
    (ht : Linked t.links (xs ++ ys)) (hin : t.inbound = (xs ++ ys).head?) :
    RemovesExactly s t (xs ++ f :: ys) f := by
  have hf : f ∉ xs := fun hmem =>
    (List.nodup_append.mp h.nodup).2.2 f hmem f List.mem_cons_self rfl
  have herase : (xs ++ f :: ys).erase f = xs ++ ys := by
    rw [List.erase_append_right _ hf, List.erase_cons_head]
  have hlength {n : Nat} (hn : (xs ++ f :: ys).length ≤ n) : (xs ++ ys).length ≤ n := by
    simp only [List.length_append, List.length_cons] at hn ⊢
    omega
  constructor
  · rw [herase]
    exact (wellFormed_iff ht).mpr hin
  · intro forwards n hn
    refine ⟨_, _, hs ▸ visit_eq forwards h.segment hn,
      hin ▸ visit_eq forwards ht.segment (hlength hn), ?_⟩
    intro g hg hbefore
    rw [herase] at hg
    have hne : g ≠ f := fun heq => (List.nodup_middle.mp h.nodup).notMem (heq ▸ hg)
    exact List.count_eq_one_of_mem (ht.nodup.sublist (reached_sublist forwards))
      (reached_without forwards hbefore hne)
  · intro n hn
    refine ⟨_, hin ▸ visit_eq (fun _ => true) ht.segment (hlength hn), ?_⟩
    intro g hg
    rw [herase] at hg
    rw [reached_all]
    exact List.count_eq_one_of_mem ht.nodup hg

/-- In a chain that is entered at its first filter, `remove` goes wrong exactly for the
first one of several. -/
theorem remove_iff (h : Linked s.links chain) (hs : s.inbound = chain.head?) (hf : f ∈ chain) :
    RemovesExactly s (s.remove (some f)) chain f ↔ chain.head? ≠ some f ∨ chain = [f] := by
  obtain ⟨xs, ys, rfl, hfx⟩ := List.eq_append_cons_of_mem hf
  obtain ⟨hin, hlinks⟩ := Pipeline.remove_spec (s := s) (f := f)
  have ht : Linked (s.remove (some f)).links (xs ++ ys) := hlinks ▸ h.unlink
  cases xs with
  | nil =>
    have hout : (s.remove (some f)).inbound = none := by
      rw [hin, hs, List.nil_append, List.head?_cons, if_pos rfl]
      exact h.segment.1
    cases ys with
    | nil =>
      have hgood := removesExactly h hs ht (by simpa using hout)
      simpa using hgood
    | cons y ys =>
      constructor
      · intro hremoves
        have hwf := hremoves.wellFormed
        rw [List.nil_append, List.erase_cons_head] at hwf
        have hfirst := (wellFormed_iff ht).mp hwf
        rw [hout] at hfirst
        exact absurd hfirst (by simp)
      · intro hcond
        simp at hcond
  | cons x xs =>
    have hx : x ≠ f := fun heq => hfx (heq ▸ List.mem_cons_self)
    have hfirst : (s.remove (some f)).inbound = (x :: xs ++ ys).head? := by
      rw [hin, hs]
      simp [hx.symm]
    have hgood := removesExactly h hs ht hfirst
    exact iff_of_true hgood (Or.inl (by simp [hx]))

/-- `add` or `add_inbound`. -/
def Behind : Insertion ι → Prop
  | .addOutbound _ _ => False
  | _ => True

theorem neverAtFront_of_behind {ops : List (Insertion ι)} (h : ∀ op ∈ ops, Behind op) :
    NeverAtFront chain ops := by
  induction ops generalizing chain with
  | nil => trivial
  | cons op ops ih =>
    refine ⟨?_, ih fun o ho => h o (List.mem_cons_of_mem _ ho)⟩
    have hop := h op List.mem_cons_self
    cases op with
    | add f => exact id
    | addInbound base f => exact id
    | addOutbound base f => exact hop.elim

/-- From a chain built by `add` and `add_inbound`, `remove` takes out the one filter and
nothing else, unless that is the first one of several. -/
theorem remove_exactly_iff {ops : List (Insertion ι)} (hops : Valid [] ops)
    (hbehind : ∀ op ∈ ops, Behind op) (hn : ops.length ≤ n) (hf : f ∈ order [] ops) :
    ∃ s, build n .new ops = some s ∧
      (RemovesExactly s (s.remove (some f)) (order [] ops) f ↔
        (order [] ops).head? ≠ some f ∨ order [] ops = [f]) := by
  obtain ⟨s, hbuild, hlaid, hhead⟩ := laid_build laid_new hops (n := n) (by simpa using hn)
  exact ⟨s, hbuild, remove_iff hlaid.linked (hhead.mpr ⟨rfl, neverAtFront_of_behind hbehind⟩) hf⟩

/-- Two filters, one behind the other. -/
def pair : List (Insertion Nat) := [.add 0, .add 1]

theorem pair_valid : Valid [] pair := by
  refine ⟨⟨?_, ?_⟩, ⟨?_, ?_⟩, trivial⟩ <;> simp [Insertion.filter, Insertion.base, place]

theorem pair_behind : ∀ op ∈ pair, Behind op := by
  simp [pair, Behind]

theorem remove_exactly_iff_second : ∃ s, build 2 .new pair = some s ∧
    RemovesExactly s (s.remove (some 1)) [0, 1] 1 := by
  obtain ⟨s, hbuild, hiff⟩ := remove_exactly_iff (n := 2) (f := 1) pair_valid pair_behind
    (Nat.le_refl _) (by decide)
  exact ⟨s, hbuild, hiff.mpr (Or.inl (by decide))⟩

theorem first_not_removed :
    ¬ ∀ (ops : List (Insertion Nat)) (n : Nat) (s : Pipeline Nat) (f : Nat), Valid [] ops →
      (∀ op ∈ ops, Behind op) → ops.length ≤ n → build n .new ops = some s →
      f ∈ order [] ops → RemovesExactly s (s.remove (some f)) (order [] ops) f := by
  intro h
  obtain ⟨s, hbuild, hlaid, hhead⟩ := laid_build laid_new pair_valid (n := 2) (Nat.le_refl _)
  have hfirst := hhead.mpr ⟨rfl, neverAtFront_of_behind pair_behind⟩
  have hremoves := h pair 2 s 0 pair_valid pair_behind (Nat.le_refl _) hbuild (by decide)
  have hcond := (remove_iff hlaid.linked hfirst (by decide)).mp hremoves
  revert hcond
  decide

end PipelineRemoval
