import Tcode.SupportStringSearch

/-! # Replacing

`tcode::string::replace` goes on behind the length of the pattern, counted from the start of the
text that it has put in. It may find the pattern in this text, or step over the beginning of
what follows.
-/
namespace StringReplace

open SupportStringSearch

variable {α : Type*} [DecidableEq α] {P R t : List α} {n : Nat}

structure State (α : Type*) where
  out : List α
  stop : Nat
  deriving DecidableEq

/-- What a round of the loop does where it finds the pattern at `start`. -/
def State.replaceAt (s : State α) (P R : List α) (start : Nat) : State α :=
  let stop := start + P.length
  ⟨s.out.take start ++ R ++ s.out.drop stop, stop⟩

/-- The starts that at most `n` rounds find and the text that they return; `none` where the
loop has not ended. -/
def rounds (P R : List α) : Nat → State α → Option (List Nat × List α)
  | 0, _ => none
  | n + 1, s =>
    match find s.out P s.stop with
    | none => some ([], s.out)
    | some start =>
      match rounds P R n (s.replaceAt P R start) with
      | none => none
      | some (starts, out) => some (start :: starts, out)

/-- The loop ends from a state with these starts and this text. -/
def Ends (P R : List α) (s : State α) (starts : List Nat) (out : List α) : Prop :=
  ∃ n, rounds P R n s = some (starts, out)

/-- `replace` terminates with these starts and this text. -/
def Returns (message P R : List α) (starts : List Nat) (out : List α) : Prop :=
  Ends P R ⟨message, 0⟩ starts out

/-! ## The text with all occurrences replaced -/

/-- A text whose occurrences are given, with each of them replaced. -/
def replacedAt (R : List α) (t : List α) : List (List α × List α) → List α
  | [] => t
  | (gap, rest) :: more => gap ++ R ++ replacedAt R rest more

def replaced (P R t : List α) : List α := replacedAt R t (occurrences P t)

/-- Where the occurrences stand when those in front of them are replaced, in a text that begins
at `base`. -/
def places (R : List α) (base : Nat) : List (List α × List α) → List Nat
  | [] => []
  | (gap, _) :: more => (base + gap.length) :: places R (base + gap.length + R.length) more

/-- Behind an occurrence the search goes on where it should: it finds nothing in the text that
was put in, and nothing starts in what it steps over. -/
def Resumes (P R rest : List α) : Prop :=
  (∀ j, j < R.length - P.length → ¬ P <+: (R.drop P.length ++ rest).drop j) ∧
    ∀ j, j < P.length - R.length → ¬ P <+: rest.drop j

instance (P R rest : List α) : Decidable (Resumes P R rest) :=
  inferInstanceAs (Decidable (_ ∧ _))

/-- Replacing the pattern by itself gives the text back. -/
theorem replaced_self (P t : List α) : replaced P P t = t := by
  induction hn : t.length using Nat.strongRecOn generalizing t with
  | ind n ih =>
    by_cases hP : P = []
    · rw [replaced, occurrences, dif_pos hP, replacedAt]
    cases hfirst : first P t with
    | none => rw [replaced, occurrences_none hfirst, replacedAt]
    | some i =>
      obtain ⟨⟨rest, hrest⟩, -, -⟩ := first_eq_some hfirst
      have htail : t.drop (i + P.length) = rest := by
        rw [← List.drop_drop, ← hrest, List.drop_left]
      have hself := ih _ (hn ▸ rest_shorter hP hfirst) (t.drop (i + P.length)) rfl
      rw [replaced] at hself
      rw [replaced, occurrences_some hP hfirst, replacedAt, hself, htail, List.append_assoc,
        hrest, List.take_append_drop]

theorem map_add (o : Option Nat) (m k : Nat) :
    (o.map (k + ·)).map (m + ·) = o.map (m + k + ·) := by
  rw [Option.map_map]
  congr 1
  funext i
  exact (Nat.add_assoc m k i).symm

theorem map_add_inj {o o' : Option Nat} {m : Nat} : o.map (m + ·) = o'.map (m + ·) ↔ o = o' :=
  (Option.map_injective fun _ _ h => Nat.add_left_cancel h).eq_iff

/-- The search in the text that was put in and what follows it. -/
theorem resumes_iff (hP : P ≠ []) : Resumes P R t ↔
    (first P ((R ++ t).drop P.length)).map (P.length + ·) = (first P t).map (R.length + ·) := by
  rcases Nat.le_total P.length R.length with h | h
  · obtain ⟨e, he⟩ := Nat.exists_eq_add_of_le h
    have hdrop : (R ++ t).drop P.length = R.drop P.length ++ t := List.drop_append_of_le_length h
    have hlen : (R.drop P.length).length = e := by rw [List.length_drop]; omega
    have hrest : (R.drop P.length ++ t).drop e = t := List.drop_left' hlen
    have hfirst := first_drop_iff (s := R.drop P.length ++ t) (e := e) hP
    rw [hrest] at hfirst
    have hover : P.length - R.length = 0 := by omega
    have hmore : R.length - P.length = e := by omega
    rw [Resumes, hover, hmore, ← hfirst, hdrop, he, ← map_add, map_add_inj]
    exact and_iff_left fun j hj => absurd hj (Nat.not_lt_zero j)
  · obtain ⟨e, he⟩ := Nat.exists_eq_add_of_le h
    have hdrop : (R ++ t).drop (R.length + e) = t.drop e := List.drop_length_add_append e
    have hfirst := first_drop_iff (s := t) (e := e) hP
    have hover : R.length - P.length = 0 := by omega
    have hmore : P.length - R.length = e := by omega
    rw [Resumes, hover, hmore, ← hfirst, he, hdrop, ← map_add, map_add_inj, eq_comm]
    exact and_iff_right fun j hj => absurd hj (Nat.not_lt_zero j)

/-! ## Runs -/

section Runs

variable {A message out : List α} {starts : List Nat} {s : State α} {start i : Nat}

theorem rounds_none (h : find s.out P s.stop = none) (n : Nat) :
    rounds P R (n + 1) s = some ([], s.out) := by
  rw [rounds, h]

theorem rounds_some (h : find s.out P s.stop = some start) (n : Nat) :
    rounds P R (n + 1) s =
      (rounds P R n (s.replaceAt P R start)).map fun (starts, out) => (start :: starts, out) := by
  rw [rounds, h]
  dsimp only
  cases rounds P R n (s.replaceAt P R start) <;> rfl

theorem ends_none (h : find s.out P s.stop = none) :
    Ends P R s starts out ↔ starts = [] ∧ out = s.out := by
  constructor
  · rintro ⟨n, hn⟩
    cases n with
    | zero => cases hn
    | succ n =>
      rw [rounds_none h] at hn
      cases hn
      exact ⟨rfl, rfl⟩
  · rintro ⟨rfl, rfl⟩
    exact ⟨1, rounds_none h 0⟩

theorem ends_some (h : find s.out P s.stop = some start) :
    Ends P R s starts out ↔
      ∃ more, starts = start :: more ∧ Ends P R (s.replaceAt P R start) more out := by
  constructor
  · rintro ⟨n, hn⟩
    cases n with
    | zero => cases hn
    | succ n =>
      rw [rounds_some h] at hn
      obtain ⟨⟨more, out'⟩, hmore, heq⟩ := Option.map_eq_some_iff.mp hn
      cases heq
      exact ⟨more, rfl, n, hmore⟩
  · rintro ⟨more, rfl, n, hn⟩
    refine ⟨n + 1, ?_⟩
    rw [rounds_some h, hn]
    rfl

/-- Where the loop stands behind an occurrence: the text in front of it, the text that was put
in, and what follows. -/
def behind (P R A t : List α) : State α := ⟨A ++ R ++ t, A.length + P.length⟩

theorem find_behind (hP : P ≠ []) : find (behind P R A t).out P (behind P R A t).stop =
    (first P t).map (A.length + R.length + ·) ↔ Resumes P R t := by
  have hdrop : (A ++ R ++ t).drop (A.length + P.length) = (R ++ t).drop P.length := by
    rw [List.append_assoc, List.drop_length_add_append]
  rw [resumes_iff hP, find_eq hP, behind, hdrop, ← map_add, ← map_add, map_add_inj]

omit [DecidableEq α] in
/-- The next occurrence in what follows is replaced. -/
theorem replaceAt_behind (h : i ≤ t.length) :
    (behind P R A t).replaceAt P R (A.length + R.length + i) =
      behind P R (A ++ R ++ t.take i) (t.drop (i + P.length)) := by
  have hlen : A.length + R.length = (A ++ R).length := List.length_append.symm
  have htake : (A ++ R ++ t).take (A.length + R.length + i) = A ++ R ++ t.take i := by
    rw [hlen, List.take_length_add_append]
  have hdrop : (A ++ R ++ t).drop (A.length + R.length + i + P.length) =
      t.drop (i + P.length) := by
    rw [hlen, Nat.add_assoc, List.drop_length_add_append]
  have hstop : (A ++ R ++ t.take i).length = A.length + R.length + i := by
    rw [List.length_append, ← hlen, List.length_take, Nat.min_eq_left h]
  simp only [behind, State.replaceAt, htake, hdrop, hstop]

theorem ends_behind_none (hP : P ≠ []) (h : first P t = none) :
    Ends P R (behind P R A t) [] (A ++ R ++ t) ↔ Resumes P R t := by
  have hfind := find_behind (R := R) (A := A) (t := t) hP
  rw [h, Option.map_none] at hfind
  rw [← hfind]
  constructor
  · intro hends
    cases hnext : find (behind P R A t).out P (behind P R A t).stop with
    | none => rfl
    | some start =>
      obtain ⟨more, hstarts, -⟩ := (ends_some hnext).mp hends
      cases hstarts
  · intro hnext
    exact (ends_none hnext).mpr ⟨rfl, rfl⟩

theorem ends_behind_some (hP : P ≠ []) (h : first P t = some i) :
    Ends P R (behind P R A t) ((A.length + R.length + i) :: starts) out ↔
      Resumes P R t ∧
        Ends P R (behind P R (A ++ R ++ t.take i) (t.drop (i + P.length))) starts out := by
  have hfind := find_behind (R := R) (A := A) (t := t) hP
  rw [h, Option.map_some] at hfind
  rw [← hfind, ← replaceAt_behind (first_eq_some h).2.1]
  constructor
  · intro hends
    cases hnext : find (behind P R A t).out P (behind P R A t).stop with
    | none =>
      obtain ⟨hstarts, -⟩ := (ends_none hnext).mp hends
      cases hstarts
    | some start =>
      obtain ⟨more, hstarts, hmore⟩ := (ends_some hnext).mp hends
      cases hstarts
      exact ⟨rfl, hmore⟩
  · rintro ⟨hnext, hmore⟩
    exact (ends_some hnext).mpr ⟨starts, rfl, hmore⟩

/-- Behind an occurrence, `replace` does the rest as it should exactly if the search always goes
on where it should. -/
theorem ends_behind (hP : P ≠ []) (A t : List α) :
    Ends P R (behind P R A t) (places R (A.length + R.length) (occurrences P t))
        (A ++ R ++ replacedAt R t (occurrences P t)) ↔
      Resumes P R t ∧ ∀ o ∈ occurrences P t, Resumes P R o.2 := by
  induction hn : t.length using Nat.strongRecOn generalizing A t with
  | ind n ih =>
    cases hfirst : first P t with
    | none =>
      rw [occurrences_none hfirst, places, replacedAt, ends_behind_none hP hfirst]
      exact (and_iff_left fun o ho => absurd ho List.not_mem_nil).symm
    | some i =>
      have htake : (t.take i).length = i := List.length_take_of_le (first_eq_some hfirst).2.1
      have hstop : (A ++ R ++ t.take i).length = A.length + R.length + i := by
        rw [List.length_append, List.length_append, htake]
      have hrest := ih _ (hn ▸ rest_shorter hP hfirst) (A ++ R ++ t.take i)
        (t.drop (i + P.length)) rfl
      rw [hstop] at hrest
      have htext : A ++ R ++ (t.take i ++ R ++
            replacedAt R (t.drop (i + P.length)) (occurrences P (t.drop (i + P.length)))) =
          A ++ R ++ t.take i ++ R ++
            replacedAt R (t.drop (i + P.length)) (occurrences P (t.drop (i + P.length))) := by
        simp only [List.append_assoc]
      rw [occurrences_some hP hfirst, places, replacedAt, htake, htext,
        ends_behind_some hP hfirst, hrest, List.forall_mem_cons]

end Runs

/-- `replace` terminates, finds the occurrences of the pattern in the message one by one from
left to right and nothing else, and returns the message with them replaced. -/
def ReplacesEach (message P R : List α) : Prop :=
  Returns message P R (places R 0 (occurrences P message)) (replaced P R message)

theorem replacesEach_iff (message R : List α) (hP : P ≠ []) :
    ReplacesEach message P R ↔ ∀ o ∈ occurrences P message, Resumes P R o.2 := by
  have hfind : find message P 0 = first P message := by
    rw [find_eq hP, List.drop_zero]
    simp
  unfold ReplacesEach Returns replaced
  cases hfirst : first P message with
  | none =>
    rw [hfirst] at hfind
    rw [occurrences_none hfirst]
    refine iff_of_true ?_ fun o ho => absurd ho List.not_mem_nil
    exact (ends_none hfind).mpr ⟨rfl, rfl⟩
  | some i =>
    rw [hfirst] at hfind
    have hi := (first_eq_some hfirst).2.1
    have htake : (message.take i).length = i := List.length_take_of_le hi
    have hstate : State.replaceAt ⟨message, 0⟩ P R i =
        behind P R (message.take i) (message.drop (i + P.length)) := by
      simp only [State.replaceAt, behind, htake]
    have hrest := ends_behind (R := R) hP (message.take i) (message.drop (i + P.length))
    rw [htake, ← hstate] at hrest
    rw [occurrences_some hP hfirst, List.forall_mem_cons, ← hrest, places, replacedAt, htake,
      Nat.zero_add, ends_some hfind]
    constructor
    · rintro ⟨more, hstarts, hmore⟩
      cases hstarts
      exact hmore
    · intro hmore
      exact ⟨_, rfl, hmore⟩

/-- `a-b` becomes `a++b`. -/
theorem replacesEach_dash : ReplacesEach ([97, 45, 98] : List UInt8) [45] [43, 43] := by
  refine (replacesEach_iff [97, 45, 98] [43, 43] (by decide)).mpr ?_
  decide +kernel

omit [DecidableEq α] in
/-- A replacement of the same length is always right. -/
theorem resumes_of_length_eq (h : R.length = P.length) (rest : List α) : Resumes P R rest := by
  rw [Resumes, h, Nat.sub_self]
  exact ⟨fun j hj => absurd hj (Nat.not_lt_zero j), fun j hj => absurd hj (Nat.not_lt_zero j)⟩

/-- The pattern `a` is found again in the replacement `ba`, for ever. -/
theorem rounds_never_end (n k : Nat) :
    rounds ([97] : List UInt8) [98, 97] n ⟨List.replicate k 98 ++ [97], k⟩ = none := by
  induction n generalizing k with
  | zero => rfl
  | succ n ih =>
    have hdrop : (List.replicate k (98 : UInt8) ++ [97]).drop k = [97] :=
      List.drop_left' List.length_replicate
    have htake : (List.replicate k (98 : UInt8) ++ [97]).take k = List.replicate k 98 :=
      List.take_left' List.length_replicate
    have hend : (List.replicate k (98 : UInt8) ++ [97]).drop (k + 1) = [] :=
      List.drop_of_length_le (by simp)
    have hfind : find (List.replicate k (98 : UInt8) ++ [97]) [97] k = some k := by
      rw [find_eq (by decide), hdrop]
      rfl
    have hstate : State.replaceAt ⟨List.replicate k (98 : UInt8) ++ [97], k⟩ [97] [98, 97] k =
        ⟨List.replicate (k + 1) 98 ++ [97], k + 1⟩ := by
      simp only [State.replaceAt, htake, List.length_singleton, hend, List.append_nil,
        List.replicate_succ', List.append_assoc, List.cons_append, List.nil_append]
    rw [rounds_some hfind, hstate, ih]
    rfl

/-- `a` with `ba` for `a` does not terminate; in `aaaa` with `a` for `aa` the second `aa` is
stepped over. -/
theorem not_replacesEach : ¬ ReplacesEach ([97] : List UInt8) [97] [98, 97] ∧
    ¬ ReplacesEach ([97, 97, 97, 97] : List UInt8) [97, 97] [97] ∧
    Returns ([97, 97, 97, 97] : List UInt8) [97, 97] [97] [0] [97, 97, 97] := by
  have hplaces : places ([97] : List UInt8) 0 (occurrences [97, 97] [97, 97, 97, 97]) = [0, 1] := by
    decide +kernel
  have hfirst : find ([97, 97, 97, 97] : List UInt8) [97, 97] 0 = some 0 := by decide
  have hsecond : find ([97, 97, 97] : List UInt8) [97, 97] 2 = none := by decide
  refine ⟨?_, ?_, 2, ?_⟩
  · rintro ⟨n, hn⟩
    cases (rounds_never_end n 0).symm.trans hn
  · intro h
    rw [ReplacesEach, Returns, hplaces, ends_some hfirst] at h
    obtain ⟨more, hstarts, hmore⟩ := h
    obtain ⟨rfl, -⟩ := (ends_none hsecond).mp hmore
    cases hstarts
  · decide +kernel

end StringReplace
