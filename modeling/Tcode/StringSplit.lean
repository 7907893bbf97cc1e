import Tcode.SupportStringSearch

/-! # Splitting

Both overloads of `tcode::string::split`, one for an output iterator and one for a vector, and
the runs between separators that they give.
-/
namespace StringSplit

open SupportStringSearch

variable {α : Type*} [DecidableEq α] {message sep : List α} {start stop pos i j : Nat}

/-- How far a position is from the end. -/
def remaining (message : List α) : Option Nat → Nat
  | none => 0
  | some start => message.length - start + 1

/-- Where the run from `start` on stops. -/
def stopFrom (message sep : List α) (start : Nat) : Nat :=
  match findFirstOf message sep start with
  | none => message.length
  | some stop => stop

theorem stopFrom_spec (sep : List α) (h : start ≤ message.length) :
    start ≤ stopFrom message sep start ∧
    stopFrom message sep start ≤ message.length ∧
    (∀ k, start ≤ k → k < stopFrom message sep start → ∀ c, message[k]? = some c → c ∉ sep) ∧
    ∀ c, message[stopFrom message sep start]? = some c → c ∈ sep := by
  unfold stopFrom
  split
  · next hnone =>
    refine ⟨h, Nat.le_refl _, ?_, ?_⟩
    · intro k hk _ c hc
      simpa using of_findFrom_none hnone k hk c hc
    · intro c hc
      rw [List.getElem?_eq_none (Nat.le_refl _)] at hc
      cases hc
  · next stop hsome =>
    obtain ⟨hle, ⟨c, hc, hsep⟩, hbefore⟩ := of_findFrom_some hsome
    obtain ⟨hlt, -⟩ := List.getElem?_eq_some_iff.mp hc
    refine ⟨hle, Nat.le_of_lt hlt, ?_, ?_⟩
    · intro k hk hks d hd
      simpa using hbefore k hk hks d hd
    · intro d hd
      cases hc.symm.trans hd
      simpa using hsep

theorem remaining_lt (h : start < message.length) :
    remaining message (findFirstNotOf message sep (stopFrom message sep start + 1)) <
      remaining message (some start) := by
  have hstop := (stopFrom_spec sep (Nat.le_of_lt h)).1
  cases hnext : findFirstNotOf message sep (stopFrom message sep start + 1) with
  | none => exact Nat.succ_pos _
  | some next =>
    have hle := (of_findFrom_some hnext).1
    show message.length - next + 1 < message.length - start + 1
    omega

structure OutputIterator (ω α : Type*) where
  assign : ω → List α → ω
  next : ω → ω

/-- The loop of `split( message , sep , os )`. -/
def splitToLoop {ω : Type*} (it : OutputIterator ω α) (message sep : List α)
    (start : Option Nat) (os : ω) : ω :=
  match start with
  | none => os
  | some start =>
    if message.length ≤ start then os
    else
      let stop := stopFrom message sep start
      let os := it.assign os (substr message start (stop - start))
      splitToLoop it message sep (findFirstNotOf message sep (stop + 1)) (it.next os)
termination_by remaining message start
decreasing_by exact remaining_lt (by omega)

def splitTo {ω : Type*} (it : OutputIterator ω α) (message sep : List α) (os : ω) : ω :=
  splitToLoop it message sep (findFirstNotOf message sep 0) os

/-- The loop of `split( message , sep )`. -/
def splitLoop (message sep : List α) (start : Option Nat) (result : List (List α)) :
    List (List α) :=
  match start with
  | none => result
  | some start =>
    if message.length ≤ start then result
    else
      let stop := stopFrom message sep start
      let result := result ++ [substr message start (stop - start)]
      splitLoop message sep (findFirstNotOf message sep (stop + 1)) result
termination_by remaining message start
decreasing_by exact remaining_lt (by omega)

def split (message sep : List α) : List (List α) :=
  splitLoop message sep (findFirstNotOf message sep 0) []

/-! ## Runs -/

/-- Characters from `i` up to `j` without a separator, between separators or the ends. -/
structure MaximalRun (message sep : List α) (i j : Nat) : Prop where
  nonempty : i < j
  within : j ≤ message.length
  free : ∀ k, i ≤ k → k < j → ∀ c, message[k]? = some c → c ∉ sep
  left : ∀ k, k + 1 = i → ∀ c, message[k]? = some c → c ∈ sep
  right : ∀ c, message[j]? = some c → c ∈ sep

/-- The maximal runs from `pos` on, in their order. -/
structure Runs (message sep : List α) (pos : Nat) (runs : List (Nat × Nat)) : Prop where
  ordered : runs.Pairwise fun a b => a.2 < b.1
  exact : ∀ i j, (i, j) ∈ runs ↔ pos ≤ i ∧ MaximalRun message sep i j

def texts (message : List α) (runs : List (Nat × Nat)) : List (List α) :=
  runs.map fun (i, j) => substr message i (j - i)

/-- Behind a separator there is no run if there is no other character. -/
theorem runs_nil (h : findFirstNotOf message sep pos = none) : Runs message sep pos [] := by
  refine ⟨List.Pairwise.nil, ?_⟩
  intro i j
  refine iff_of_false List.not_mem_nil ?_
  rintro ⟨hpos, hrun⟩
  have hi : i < message.length := Nat.lt_of_lt_of_le hrun.nonempty hrun.within
  have hc := List.getElem?_eq_getElem hi
  have hfree := hrun.free i (Nat.le_refl i) hrun.nonempty _ hc
  exact hfree (by simpa using of_findFrom_none h i hpos _ hc)

theorem maximal_of_find (hleft : ∀ k, k + 1 = pos → ∀ c, message[k]? = some c → c ∈ sep)
    (h : findFirstNotOf message sep pos = some start) :
    MaximalRun message sep start (stopFrom message sep start) := by
  obtain ⟨hpos, ⟨c, hc, hnot⟩, hbefore⟩ := of_findFrom_some h
  obtain ⟨hlt, -⟩ := List.getElem?_eq_some_iff.mp hc
  obtain ⟨hle, hwithin, hfree, hright⟩ := stopFrom_spec sep (Nat.le_of_lt hlt)
  refine ⟨?_, hwithin, hfree, ?_, hright⟩
  · rcases Nat.lt_or_eq_of_le hle with hlt' | heq
    · exact hlt'
    · have hin := hright c (heq ▸ hc)
      simp [hin] at hnot
  · intro k hk d hd
    rcases Nat.lt_or_ge k pos with hkpos | hkpos
    · exact hleft k (by omega) d hd
    · simpa using hbefore k hkpos (by omega) d hd

omit [DecidableEq α] in
/-- No character is in a run and a separator. -/
theorem MaximalRun.free_of_mem {k : Nat} (h : MaximalRun message sep i j) (hi : i ≤ k) (hj : k < j)
    (hsep : ∀ c, message[k]? = some c → c ∈ sep) : False := by
  have hk := List.getElem?_eq_getElem (Nat.lt_of_lt_of_le hj h.within)
  exact h.free k hi hj _ hk (hsep _ hk)

omit [DecidableEq α] in
/-- A run that starts no earlier is the same or comes behind the separator at the end. -/
theorem same_or_behind {i' j' : Nat} (h : MaximalRun message sep i j)
    (h' : MaximalRun message sep i' j') (hi : i ≤ i') : i' = i ∧ j' = j ∨ j + 1 ≤ i' := by
  have hne := h.nonempty
  have hne' := h'.nonempty
  rcases Nat.lt_or_eq_of_le hi with hlt | rfl
  · rcases Nat.lt_or_ge j i' with hj | hj
    · exact Or.inr hj
    · exact (h.free_of_mem (k := i' - 1) (by omega) (by omega) (h'.left _ (by omega))).elim
  · rcases Nat.lt_trichotomy j j' with hj | rfl | hj
    · exact (h'.free_of_mem (Nat.le_of_lt hne) hj h.right).elim
    · exact Or.inl ⟨rfl, rfl⟩
    · exact (h.free_of_mem (Nat.le_of_lt hne') hj h'.right).elim

/-- The first run, and those behind the separator at its end. -/
theorem runs_cons (hleft : ∀ k, k + 1 = pos → ∀ c, message[k]? = some c → c ∈ sep)
    (h : findFirstNotOf message sep pos = some start) {runs : List (Nat × Nat)}
    (hruns : Runs message sep (stopFrom message sep start + 1) runs) :
    Runs message sep pos ((start, stopFrom message sep start) :: runs) := by
  have hrun := maximal_of_find hleft h
  obtain ⟨hpos, -, hbefore⟩ := of_findFrom_some h
  have hne := hrun.nonempty
  refine ⟨List.pairwise_cons.mpr ⟨?_, hruns.ordered⟩, ?_⟩
  · rintro ⟨i, j⟩ hmem
    exact ((hruns.exact i j).mp hmem).1
  · intro i j
    rw [List.mem_cons, Prod.mk.injEq, hruns.exact]
    constructor
    · rintro (⟨rfl, rfl⟩ | ⟨hi, hmax⟩)
      · exact ⟨hpos, hrun⟩
      · exact ⟨by omega, hmax⟩
    · rintro ⟨hi, hmax⟩
      have hstart : start ≤ i := by
        by_contra hlt
        refine hmax.free_of_mem (Nat.le_refl i) hmax.nonempty ?_
        intro c hc
        simpa using hbefore i hi (by omega) c hc
      rcases same_or_behind hrun hmax hstart with hsame | hbehind
      · exact Or.inl hsame
      · exact Or.inr ⟨hbehind, hmax⟩

/-- The iterator is given the texts one behind the other. -/
def emit {ω : Type*} (it : OutputIterator ω α) (os : ω) (run : List α) : ω :=
  it.next (it.assign os run)

/-- Both loops give the runs from a position on that is the start or behind a separator. -/
theorem loops_spec {ω : Type*} (it : OutputIterator ω α)
    (hleft : ∀ k, k + 1 = pos → ∀ c, message[k]? = some c → c ∈ sep) :
    ∃ runs, Runs message sep pos runs ∧
      (∀ result, splitLoop message sep (findFirstNotOf message sep pos) result =
        result ++ texts message runs) ∧
      ∀ os, splitToLoop it message sep (findFirstNotOf message sep pos) os =
        (texts message runs).foldl (emit it) os := by
  induction hd : message.length + 1 - pos using Nat.strongRecOn generalizing pos with
  | ind d ih =>
    cases hfind : findFirstNotOf message sep pos with
    | none =>
      refine ⟨[], runs_nil hfind, fun result => ?_, fun os => ?_⟩
      · rw [splitLoop]
        exact (List.append_nil result).symm
      · rw [splitToLoop]
        rfl
    | some start =>
      have hrun := maximal_of_find hleft hfind
      have hpos := (of_findFrom_some hfind).1
      have hne := hrun.nonempty
      have hwithin := hrun.within
      have hright : ∀ k, k + 1 = stopFrom message sep start + 1 →
          ∀ c, message[k]? = some c → c ∈ sep := by
        intro k hk
        exact Nat.succ.inj hk ▸ hrun.right
      obtain ⟨runs, hruns, hloop, hto⟩ := ih _ (by omega) hright rfl
      refine ⟨_, runs_cons hleft hfind hruns, fun result => ?_, fun os => ?_⟩
      · rw [splitLoop, if_neg (by omega), hloop, List.append_assoc]
        rfl
      · rw [splitToLoop, if_neg (by omega), hto]
        rfl

/-- Both overloads give all maximal runs in their order. -/
theorem split_maximal_runs {ω : Type*} (it : OutputIterator ω α) (message sep : List α) :
    ∃ runs : List (Nat × Nat), (runs.Pairwise fun a b => a.2 < b.1) ∧
      (∀ i j, (i, j) ∈ runs ↔ MaximalRun message sep i j) ∧
      split message sep = texts message runs ∧
      ∀ os, splitTo it message sep os = (split message sep).foldl (emit it) os := by
  have hstart : ∀ k, k + 1 = 0 → ∀ c, message[k]? = some c → c ∈ sep :=
    fun k hk => absurd hk (Nat.succ_ne_zero k)
  obtain ⟨runs, hruns, hloop, hto⟩ := loops_spec it hstart
  have hsplit : split message sep = texts message runs := by
    rw [split, hloop, List.nil_append]
  refine ⟨runs, hruns.ordered, fun i j => ?_, hsplit, fun os => ?_⟩
  · rw [hruns.exact]
    exact and_iff_right (Nat.zero_le i)
  · rw [splitTo, hto, hsplit]

example : split [1, 0, 0, 2, 3] [0] = [[1], [2, 3]] := by decide +kernel
example : split [0, 0] [0] = [] := by decide +kernel

end StringSplit
