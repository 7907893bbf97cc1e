import Mathlib.Data.List.DropRight

/-! # Searching in strings

Positions of the first and the last character with a property, and of the first occurrence of
a pattern, where `none` is that there is no position.
-/
namespace SupportStringSearch

variable {α : Type*} {p : α → Bool} {s t P : List α} {c : α} {pos i j e : Nat}

/-! ## Characters -/

/-- The first position from `pos` on. -/
def findFrom (p : α → Bool) (s : List α) (pos : Nat) : Option Nat :=
  ((s.drop pos).findIdx? p).map (pos + ·)

/-- The last position. -/
def findLast (p : α → Bool) (s : List α) : Option Nat :=
  (s.reverse.findIdx? p).map (s.length - 1 - ·)

theorem of_findFrom_some (h : findFrom p s pos = some i) : pos ≤ i ∧ (∃ c, s[i]? = some c ∧ p c) ∧
    ∀ j, pos ≤ j → j < i → ∀ c, s[j]? = some c → ¬ p c := by
  obtain ⟨k, hk, rfl⟩ := Option.map_eq_some_iff.mp h
  obtain ⟨hlt, hp, hbefore⟩ := List.findIdx?_eq_some_iff_getElem.mp hk
  refine ⟨Nat.le_add_right _ _, ⟨(s.drop pos)[k], ?_, hp⟩, ?_⟩
  · rw [← List.getElem?_drop, List.getElem?_eq_getElem hlt]
  · intro j hj hlt' c hc
    obtain ⟨m, rfl⟩ := Nat.exists_eq_add_of_le hj
    rw [← List.getElem?_drop] at hc
    obtain ⟨hm, rfl⟩ := List.getElem?_eq_some_iff.mp hc
    exact hbefore m (by omega)

theorem of_findFrom_none (h : findFrom p s pos = none) :
    ∀ j, pos ≤ j → ∀ c, s[j]? = some c → ¬ p c := by
  intro j hj c hc
  have hnone := List.findIdx?_eq_none_iff.mp (Option.map_eq_none_iff.mp h)
  obtain ⟨m, rfl⟩ := Nat.exists_eq_add_of_le hj
  rw [← List.getElem?_drop] at hc
  simp [hnone c (List.mem_of_getElem? hc)]

/-! The members of `std::string` that search for characters of a set. -/

section Sets

variable [DecidableEq α]

def findFirstOf (s set : List α) (pos : Nat) : Option Nat := findFrom (fun c => c ∈ set) s pos

def findFirstNotOf (s set : List α) (pos : Nat) : Option Nat := findFrom (fun c => c ∉ set) s pos

def findLastNotOf (s set : List α) : Option Nat := findLast (fun c => c ∉ set) s

end Sets

def substr (s : List α) (pos n : Nat) : List α := (s.drop pos).take n

/-- The string without its longest beginning of characters without the property. -/
theorem dropWhile_of_findFrom : s.dropWhile (fun c => !p c) =
    match findFrom p s 0 with
    | some i => s.drop i
    | none => [] := by
  induction s with
  | nil => rfl
  | cons c s ih =>
    simp only [findFrom, List.drop_zero, Nat.zero_add] at ih ⊢
    rw [List.findIdx?_cons]
    cases hc : p c with
    | true => simp [hc]
    | false =>
      rw [List.dropWhile_cons_of_pos (by rw [hc]; rfl), ih]
      cases s.findIdx? p <;> simp

/-- The same for its end. -/
theorem rdropWhile_of_findLast : s.rdropWhile (fun c => !p c) =
    match findLast p s with
    | some i => s.take (i + 1)
    | none => [] := by
  have hrev := dropWhile_of_findFrom (p := p) (s := s.reverse)
  rw [List.rdropWhile, hrev]
  simp only [findFrom, List.drop_zero, Nat.zero_add, findLast]
  cases hidx : s.reverse.findIdx? p with
  | none => rfl
  | some i =>
    obtain ⟨hlt, -⟩ := List.findIdx?_eq_some_iff_getElem.mp hidx
    rw [List.length_reverse] at hlt
    simp only [Option.map_some]
    rw [List.drop_reverse, List.reverse_reverse]
    congr 1
    omega

/-! ## Patterns -/

section Patterns

variable [DecidableEq α]

/-- The first occurrence of a pattern. -/
def first (P : List α) : List α → Option Nat
  | [] => if P = [] then some 0 else none
  | c :: s => if P <+: c :: s then some 0 else (first P s).map (· + 1)

/-- The first occurrence from `pos` on. -/
def find (s P : List α) (pos : Nat) : Option Nat :=
  if pos ≤ s.length then (first P (s.drop pos)).map (pos + ·) else none

theorem first_eq_some (h : first P s = some i) :
    P <+: s.drop i ∧ i ≤ s.length ∧ ∀ j, j < i → ¬ P <+: s.drop j := by
  induction s generalizing i with
  | nil =>
    rw [first] at h
    split at h
    · next hP =>
      cases h
      subst hP
      exact ⟨List.nil_prefix, Nat.le_refl 0, fun j hj => absurd hj (Nat.not_lt_zero j)⟩
    · cases h
  | cons c s ih =>
    rw [first] at h
    split at h
    · next hpre =>
      cases h
      exact ⟨hpre, Nat.zero_le _, fun j hj => absurd hj (Nat.not_lt_zero j)⟩
    · next hpre =>
      obtain ⟨k, hk, rfl⟩ := Option.map_eq_some_iff.mp h
      obtain ⟨hocc, hle, hbefore⟩ := ih hk
      refine ⟨hocc, Nat.succ_le_succ hle, ?_⟩
      intro j hj
      cases j with
      | zero => exact hpre
      | succ j => exact hbefore j (Nat.lt_of_succ_lt_succ hj)

/-- Leaving out a beginning does not lose the first occurrence exactly if none starts in it. -/
theorem first_drop_iff (hP : P ≠ []) : first P s = (first P (s.drop e)).map (e + ·) ↔
    ∀ j, j < e → ¬ P <+: s.drop j := by
  induction e generalizing s with
  | zero => simp
  | succ e ih =>
    cases s with
    | nil => simp [first, hP]
    | cons c s =>
      rw [first]
      split
      · next hpre =>
        refine iff_of_false ?_ fun h => h 0 (Nat.succ_pos e) hpre
        intro h
        obtain ⟨k, -, hk⟩ := Option.map_eq_some_iff.mp h.symm
        omega
      · next hpre =>
        have hshift : ((first P (s.drop e)).map (e + 1 + ·)) =
            ((first P (s.drop e)).map (e + ·)).map (· + 1) := by
          rw [Option.map_map]
          congr 1
          funext k
          exact Nat.add_right_comm e 1 k
        have hinj : Function.Injective fun k : Nat => k + 1 := fun a b h => Nat.succ.inj h
        rw [List.drop_succ_cons, hshift, (Option.map_injective hinj).eq_iff, ih]
        constructor
        · intro h j hj
          cases j with
          | zero => exact hpre
          | succ j => exact h j (Nat.lt_of_succ_lt_succ hj)
        · intro h j hj
          exact h (j + 1) (Nat.succ_lt_succ hj)

theorem find_eq (hP : P ≠ []) : find s P pos = (first P (s.drop pos)).map (pos + ·) := by
  unfold find
  split
  · rfl
  · next h =>
    rw [List.drop_of_length_le (by omega)]
    simp [first, hP]

theorem rest_shorter (hP : ¬ P = []) (h : first P s = some i) :
    (s.drop (i + P.length)).length < s.length := by
  obtain ⟨hocc, hle, -⟩ := first_eq_some h
  have hfits := hocc.length_le
  have hpos := List.length_pos_iff.mpr hP
  rw [List.length_drop] at hfits ⊢
  omega

/-- The occurrences from left to right that do not overlap, each with what stands in front of it
behind the one before, and with what follows it. -/
def occurrences (P : List α) (s : List α) : List (List α × List α) :=
  if _hP : P = [] then []
  else
    match _h : first P s with
    | none => []
    | some i => (s.take i, s.drop (i + P.length)) :: occurrences P (s.drop (i + P.length))
termination_by s.length
decreasing_by exact rest_shorter _hP _h

theorem occurrences_none (h : first P s = none) : occurrences P s = [] := by
  rw [occurrences]
  split
  · rfl
  · split
    · rfl
    · next hsome => cases h.symm.trans hsome

theorem occurrences_some (hP : P ≠ []) (h : first P s = some i) :
    occurrences P s =
      (s.take i, s.drop (i + P.length)) :: occurrences P (s.drop (i + P.length)) := by
  rw [occurrences, dif_neg hP]
  split
  · next hnone => cases h.symm.trans hnone
  · next i' hsome =>
    cases h.symm.trans hsome
    rfl

end Patterns

end SupportStringSearch
