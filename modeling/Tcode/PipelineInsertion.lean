import Tcode.PipelineChain

/-! # Building the chain

`add`, `add_inbound` and `add_outbound` in any order, beside the list that they are
meant to build. The links always lay out that list; `_inbound` leads to its first filter
only as long as no filter is put in front of the first.
-/
namespace PipelineInsertion

open SupportLinkedList PipelineChain

variable {ι : Type*}

inductive Insertion (ι : Type*) where
  | add (f : ι)
  | addInbound (base f : ι)
  | addOutbound (base f : ι)
  deriving DecidableEq, Repr

namespace Insertion

def filter : Insertion ι → ι
  | .add f | .addInbound _ f | .addOutbound _ f => f

def base : Insertion ι → Option ι
  | .add _ => none
  | .addInbound base _ | .addOutbound base _ => some base

/-- A filter that is not in the chain goes next to one that is. -/
structure Fresh (chain : List ι) (op : Insertion ι) : Prop where
  filter : op.filter ∉ chain
  base : ∀ base ∈ op.base, base ∈ chain

/-- A filter goes in front of the first one. -/
def AtFront (chain : List ι) : Insertion ι → Prop
  | .addOutbound base _ => chain.head? = some base
  | _ => False

end Insertion

section Model

variable [DecidableEq ι]

def apply (n : Nat) (s : Pipeline ι) : Insertion ι → Option (Pipeline ι)
  | .add f => s.add n f
  | .addInbound base f => some (s.addInbound (some base) (some f))
  | .addOutbound base f => some (s.addOutbound (some base) (some f))

def build (n : Nat) (s : Pipeline ι) : List (Insertion ι) → Option (Pipeline ι)
  | [] => some s
  | op :: ops => do
    let s ← apply n s op
    build n s ops

/-! ## The chain that is meant -/

def insertAfter (base f : ι) : List ι → List ι
  | [] => []
  | x :: xs => if x = base then x :: f :: xs else x :: insertAfter base f xs

def insertBefore (base f : ι) : List ι → List ι
  | [] => []
  | x :: xs => if x = base then f :: x :: xs else x :: insertBefore base f xs

def place (chain : List ι) : Insertion ι → List ι
  | .add f => chain ++ [f]
  | .addInbound base f => insertAfter base f chain
  | .addOutbound base f => insertBefore base f chain

def order (chain : List ι) (ops : List (Insertion ι)) : List ι := ops.foldl place chain

/-- Every filter is fresh and every base in the chain when its turn comes. -/
def Valid (chain : List ι) : List (Insertion ι) → Prop
  | [] => True
  | op :: ops => op.Fresh chain ∧ Valid (place chain op) ops

/-- No filter is put in front of the one that is first then. -/
def NeverAtFront (chain : List ι) : List (Insertion ι) → Prop
  | [] => True
  | op :: ops => ¬ op.AtFront chain ∧ NeverAtFront (place chain op) ops

end Model

/-- The chain as it is seen from the pipeline and its filters. -/
structure WellFormed (s : Pipeline ι) (chain : List ι) : Prop where
  nodup : chain.Nodup
  visits : ∃ n, follow s.links n s.inbound = some chain
  first : ∀ f ∈ chain.head?, (s.filters f).outbound = none
  inverse : ∀ f ∈ chain, ∀ g ∈ chain,
    (s.filters f).inbound = some g ↔ (s.filters g).outbound = some f

section Split

variable [DecidableEq ι] {f base : ι} {xs ys : List ι}

theorem insertAfter_split (hbase : base ∉ xs) :
    insertAfter base f (xs ++ base :: ys) = xs ++ base :: f :: ys := by
  induction xs with
  | nil => simp [insertAfter]
  | cons x xs ih =>
    have hne : x ≠ base := fun heq => hbase (heq ▸ List.mem_cons_self)
    have htail : base ∉ xs := fun hmem => hbase (List.mem_cons_of_mem _ hmem)
    simp [insertAfter, hne, ih htail]

theorem insertBefore_split (hbase : base ∉ xs) :
    insertBefore base f (xs ++ base :: ys) = xs ++ f :: base :: ys := by
  induction xs with
  | nil => simp [insertBefore]
  | cons x xs ih =>
    have hne : x ≠ base := fun heq => hbase (heq ▸ List.mem_cons_self)
    have htail : base ∉ xs := fun hmem => hbase (List.mem_cons_of_mem _ hmem)
    simp [insertBefore, hne, ih htail]

end Split

/-! ## The links lay out the chain -/

variable {s : Pipeline ι} {f base : ι} {chain xs ys : List ι} {n : Nat} {op : Insertion ι}

theorem wellFormed_iff (h : Linked s.links chain) :
    WellFormed s chain ↔ s.inbound = chain.head? := by
  constructor
  · rintro ⟨-, ⟨n, hvisits⟩, -, -⟩
    cases hin : s.inbound with
    | none =>
      rw [hin] at hvisits
      have hnil : chain = [] := by cases n <;> simpa [follow, eq_comm] using hvisits
      rw [hnil, List.head?_nil]
    | some first =>
      rw [hin] at hvisits
      cases n with
      | zero => simp [follow] at hvisits
      | succ n =>
        obtain ⟨rest, -, hrest⟩ := Option.map_eq_some_iff.mp hvisits
        rw [← hrest, List.head?_cons]
  · intro hin
    refine ⟨h.nodup, ⟨chain.length, ?_⟩, ?_, ?_⟩
    · rw [hin]
      exact h.segment.follow_eq (Nat.le_refl _)
    · intro f hf
      obtain ⟨rest, rfl⟩ := List.head?_eq_some_iff.mp hf
      exact h.segment.1
    · intro f hf g hg
      exact h.inverse hf hg

structure Laid (s : Pipeline ι) (chain : List ι) : Prop where
  linked : Linked s.links chain
  entered : s.inbound = none ↔ chain = []
  inside : ∀ h ∈ s.inbound, h ∈ chain
  untouched : chain = [] → s = .new

theorem laid_new : Laid (.new : Pipeline ι) [] :=
  ⟨linked_nil, by simp [Pipeline.new], by simp [Pipeline.new], fun _ => rfl⟩

theorem last_eq {p : Option ι} {x : ι} (h : Segment s.links p (x :: xs) none)
    (hn : xs.length < n) : s.last n x = (x :: xs).getLast? := by
  induction xs generalizing p n x with
  | nil =>
    cases n with
    | zero => exact absurd hn (Nat.not_lt_zero _)
    | succ n =>
      have hnext : s.links.next x = none := h.2.1
      simp [Pipeline.last, Pipeline.filters_inbound, hnext]
  | cons y xs ih =>
    cases n with
    | zero => exact absurd hn (Nat.not_lt_zero _)
    | succ n =>
      obtain ⟨-, hnext, htail⟩ := h
      have hnext' : s.links.next x = some y := hnext
      have hlength : xs.length < n := by simpa using hn
      simp only [Pipeline.last, Pipeline.filters_inbound, hnext']
      rw [ih htail hlength, List.getLast?_cons_cons]

/-- The loop of `add` finds the last filter from wherever the pipeline enters the chain. -/
theorem Laid.last_eq {h : ι} (hlaid : Laid s chain) (hin : s.inbound = some h)
    (hn : chain.length ≤ n) : s.last n h = chain.getLast? := by
  obtain ⟨before, after, rfl⟩ := List.append_of_mem (hlaid.inside h hin)
  have hsuffix := (segment_append.mp hlaid.linked.segment).2
  have hlength : after.length < n := by
    rw [List.length_append, List.length_cons] at hn
    omega
  rw [PipelineInsertion.last_eq hsuffix hlength, List.getLast?_append_of_ne_nil]
  exact List.cons_ne_nil _ _

variable [DecidableEq ι] {t : Pipeline ι}

/-- A filter is linked in somewhere, and the pipeline enters the chain where it did. -/
theorem Laid.between (h : Laid s (xs ++ ys)) (hne : xs ++ ys ≠ []) (hf : f ∉ xs ++ ys)
    (hin : t.inbound = s.inbound)
    (hlinks : t.links = insertBetween s.links xs.getLast? ys.head? f) :
    Laid t (xs ++ f :: ys) ∧
      (t.inbound = (xs ++ f :: ys).head? ↔ s.inbound = (xs ++ ys).head? ∧ xs ≠ []) := by
  have hsub : ∀ x ∈ xs ++ ys, x ∈ xs ++ f :: ys := by
    intro x hx
    rcases List.mem_append.mp hx with hx | hx
    · exact List.mem_append_left _ hx
    · exact List.mem_append_right _ (List.mem_cons_of_mem _ hx)
  constructor
  · constructor
    · exact hlinks ▸ h.linked.insertBetween hf
    · rw [hin, h.entered]
      simp [hne]
    · intro x hx
      exact hsub x (h.inside x (hin ▸ hx))
    · intro hnil
      exact absurd hnil (by simp)
  · cases xs with
    | nil =>
      have hother : s.inbound ≠ some f := fun heq => hf (h.inside f heq)
      simp [hin, hother]
    | cons x xs => simp [hin]

theorem laid_add (h : Laid s chain) (hf : f ∉ chain) (hn : chain.length ≤ n) :
    ∃ t, s.add n f = some t ∧ Laid t (chain ++ [f]) ∧
      (t.inbound = (chain ++ [f]).head? ↔ s.inbound = chain.head?) := by
  cases hin : s.inbound with
  | none =>
    have hnil := h.entered.mp hin
    subst hnil
    have hnew := h.untouched rfl
    refine ⟨{ s.setPipeline f with inbound := some f }, by simp [Pipeline.add, hin],
      ⟨⟨List.nodup_singleton f, ?_⟩, ?_, ?_, ?_⟩, ?_⟩
    · rw [Pipeline.links_withInbound, Pipeline.links_setPipeline, hnew]
      exact ⟨rfl, rfl, trivial⟩
    · simp
    · simp
    · simp
    · simp
  | some first =>
    have hne : chain ≠ [] := fun hnil => by simp [h.entered.mpr hnil] at hin
    obtain ⟨last, hlast⟩ := Option.ne_none_iff_exists'.mp
      (fun hnone => hne (List.getLast?_eq_none_iff.mp hnone))
    have hfl : last ≠ f := fun heq => hf (heq ▸ List.mem_of_getLast? hlast)
    obtain ⟨t, hadd, hin', hlinks⟩ := Pipeline.add_spec hin ((h.last_eq hin hn).trans hlast) hfl
    have h' : Laid s (chain ++ []) := by simpa using h
    obtain ⟨hlaid, hhead⟩ := h'.between (by simpa using hne) (by simpa using hf) hin'
      (by simpa [hlast] using hlinks)
    exact ⟨t, hadd, hlaid, by simpa [hne, hin] using hhead⟩

theorem laid_apply (h : Laid s chain) (hop : op.Fresh chain) (hn : chain.length ≤ n) :
    ∃ t, apply n s op = some t ∧ Laid t (place chain op) ∧
      (t.inbound = (place chain op).head? ↔ s.inbound = chain.head? ∧ ¬ op.AtFront chain) := by
  cases op with
  | add f =>
    obtain ⟨t, hadd, hlaid, hhead⟩ := laid_add h hop.filter hn
    exact ⟨t, hadd, hlaid, hhead.trans (and_iff_left id).symm⟩
  | addInbound base f =>
    obtain ⟨before, after, rfl, hbase⟩ := List.eq_append_cons_of_mem (hop.base base rfl)
    have hf : f ∉ before ++ base :: after := hop.filter
    have hfb : f ≠ base := fun heq => hf (heq ▸ by simp)
    obtain ⟨hin, hlinks⟩ := Pipeline.addInbound_spec (s := s) hfb
    rw [h.linked.next_eq] at hlinks
    have hsplit : before ++ base :: after = (before ++ [base]) ++ after := by simp
    rw [hsplit] at h hf
    have hbetween := h.between (by simp) hf hin (by rw [hlinks, List.getLast?_concat])
    refine ⟨_, rfl, ?_⟩
    rw [place, insertAfter_split hbase]
    simpa [Insertion.AtFront] using hbetween
  | addOutbound base f =>
    obtain ⟨before, after, rfl, hbase⟩ := List.eq_append_cons_of_mem (hop.base base rfl)
    have hf : f ∉ before ++ base :: after := hop.filter
    have hfb : f ≠ base := fun heq => hf (heq ▸ by simp)
    obtain ⟨hin, hlinks⟩ := Pipeline.addOutbound_spec (s := s) hfb
    rw [h.linked.prev_eq] at hlinks
    have hbetween := h.between (by simp) hf hin hlinks
    refine ⟨_, rfl, ?_⟩
    rw [place, insertBefore_split hbase]
    have hfront : (Insertion.addOutbound base f).AtFront (before ++ base :: after) ↔
        before = [] := by
      cases before with
      | nil => simp [Insertion.AtFront]
      | cons x before =>
        have hx : x ≠ base := fun heq => hbase (heq ▸ List.mem_cons_self)
        simp [Insertion.AtFront, hx]
    rw [hfront]
    exact hbetween

theorem length_place (hbase : ∀ base ∈ op.base, base ∈ chain) :
    (place chain op).length = chain.length + 1 := by
  cases op with
  | add f => exact List.length_append
  | addInbound base f =>
    obtain ⟨before, after, rfl, hnot⟩ := List.eq_append_cons_of_mem (hbase base rfl)
    rw [place, insertAfter_split hnot]
    simp only [List.length_append, List.length_cons, Nat.add_assoc]
  | addOutbound base f =>
    obtain ⟨before, after, rfl, hnot⟩ := List.eq_append_cons_of_mem (hbase base rfl)
    rw [place, insertBefore_split hnot]
    simp only [List.length_append, List.length_cons, Nat.add_assoc]

/-- A whole sequence of insertions, with rounds enough for the loop of each `add`. -/
theorem laid_build {ops : List (Insertion ι)} (h : Laid s chain) (hops : Valid chain ops)
    (hn : chain.length + ops.length ≤ n) :
    ∃ t, build n s ops = some t ∧ Laid t (order chain ops) ∧
      (t.inbound = (order chain ops).head? ↔
        s.inbound = chain.head? ∧ NeverAtFront chain ops) := by
  induction ops generalizing s chain with
  | nil => exact ⟨s, rfl, h, (and_iff_left trivial).symm⟩
  | cons op ops ih =>
    rw [List.length_cons] at hn
    obtain ⟨t, happly, hlaid, hhead⟩ := laid_apply h hops.1 (n := n) (by omega)
    have hlength := length_place hops.1.base
    obtain ⟨u, hbuild, hlaid', hhead'⟩ := ih hlaid hops.2 (by omega)
    refine ⟨u, by simp [build, happly, hbuild], hlaid', ?_⟩
    rw [order, List.foldl_cons] at *
    rw [hhead', hhead, NeverAtFront, and_assoc]

/-- The chain that is built is the one that is meant, unless a filter is put in front of
the first: `add_outbound` leaves `_inbound` where it is. -/
theorem chain_wellFormed_iff {ops : List (Insertion ι)} (hops : Valid [] ops)
    (hn : ops.length ≤ n) :
    ∃ s, build n .new ops = some s ∧
      (WellFormed s (order [] ops) ↔ NeverAtFront [] ops) := by
  obtain ⟨s, hbuild, hlaid, hhead⟩ := laid_build laid_new hops (n := n) (by simpa using hn)
  refine ⟨s, hbuild, ?_⟩
  rw [wellFormed_iff hlaid.linked, hhead]
  exact and_iff_right rfl

theorem chain_wellFormed_iff_three :
    Valid [] [Insertion.add 0, .addInbound 0 1, .addOutbound 1 2] ∧
      ∃ s, build 3 .new [Insertion.add 0, .addInbound 0 1, .addOutbound 1 2] = some s ∧
        WellFormed s [0, 2, 1] := by
  have hvalid : Valid [] [Insertion.add 0, .addInbound 0 1, .addOutbound 1 2] := by
    refine ⟨⟨?_, ?_⟩, ⟨?_, ?_⟩, ⟨?_, ?_⟩, trivial⟩ <;>
      simp [Insertion.filter, Insertion.base, place, insertAfter]
  obtain ⟨s, hbuild, hiff⟩ := chain_wellFormed_iff (n := 3) hvalid (Nat.le_refl _)
  refine ⟨hvalid, s, hbuild, hiff.mpr ?_⟩
  simp [NeverAtFront, Insertion.AtFront, place, insertAfter]

/-- A second filter is put in front of the only one. -/
def inFront : List (Insertion Nat) := [.add 0, .addOutbound 0 1]

theorem inFront_not_wellFormed :
    ¬ ∀ (ops : List (Insertion Nat)) (n : Nat) (s : Pipeline Nat), Valid [] ops →
      ops.length ≤ n → build n .new ops = some s → WellFormed s (order [] ops) := by
  intro h
  have hvalid : Valid [] inFront := by
    refine ⟨⟨?_, ?_⟩, ⟨?_, ?_⟩, trivial⟩ <;> simp [Insertion.filter, Insertion.base, place]
  obtain ⟨s, hbuild, hlaid, hhead⟩ := laid_build laid_new hvalid (n := 2) (by decide)
  have hformed := (wellFormed_iff hlaid.linked).mp (h inFront 2 s hvalid (Nat.le_refl _) hbuild)
  have hfirst := (hhead.mp hformed).2
  exact hfirst.2.1 rfl

end PipelineInsertion
