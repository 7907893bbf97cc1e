import Mathlib.Data.List.Basic

/-! # Binary search for an upper bound

The search asks at positions of a range whether the value belongs before them. In a
range where the answer, once yes, stays yes, it finds the first such position.
-/
namespace SupportUpperBound

/-- The search among the `len` positions from `first` on, in at most `n` rounds. -/
def search (before : Nat → Bool) : Nat → Nat → Nat → Nat
  | 0, first, _ => first
  | n + 1, first, len =>
    if len = 0 then first
    else if before (first + len / 2) then search before n first (len / 2)
    else search before n (first + len / 2 + 1) (len - len / 2 - 1)

def upperBound (before : Nat → Bool) (len : Nat) : Nat := search before len 0 len

variable {before : Nat → Bool} {first len n : Nat}

theorem search_spec (first len : Nat) (hn : len ≤ n)
    (hmono : ∀ i j, i ≤ j → j < first + len → before i = true → before j = true) :
    (∀ i, first ≤ i → i < search before n first len → before i = false) ∧
      ∀ i, search before n first len ≤ i → i < first + len → before i = true := by
  induction n generalizing first len with
  | zero =>
    rw [search]
    exact ⟨fun i h k => absurd h (Nat.not_le.mpr k), fun i h k => by omega⟩
  | succ n ih =>
    rw [search]
    split
    · exact ⟨fun i h k => absurd h (Nat.not_le.mpr k), fun i h k => by omega⟩
    · split
      · next hmid =>
        obtain ⟨hlow, hhigh⟩ := ih first (len / 2) (by omega)
          fun i j hij hj => hmono i j hij (by omega)
        refine ⟨hlow, fun i hi hlen => ?_⟩
        by_cases hleft : i < first + len / 2
        · exact hhigh i hi hleft
        · exact hmono (first + len / 2) i (by omega) hlen hmid
      · next hmid =>
        obtain ⟨hlow, hhigh⟩ := ih (first + len / 2 + 1) (len - len / 2 - 1)
          (by omega) fun i j hij hj => hmono i j hij (by omega)
        refine ⟨fun i hi hpos => ?_, fun i hi hlen => hhigh i hi (by omega)⟩
        by_cases hright : first + len / 2 + 1 ≤ i
        · exact hlow i hright hpos
        · cases hb : before i with
          | false => rfl
          | true => exact absurd (hmono i (first + len / 2) (by omega) (by omega) hb) hmid

/-! ## Insertion by key -/

variable {α : Type*} {key : α → Int} {x : α} {xs : List α}

/-- The upper bound of the key of `x`: where the first element with a greater key is. -/
def position (key : α → Int) (x : α) (xs : List α) : Nat :=
  upperBound (fun i => xs[i]?.any fun y => key x < key y) xs.length

def insertByKey (key : α → Int) (x : α) (xs : List α) : List α :=
  xs.take (position key x xs) ++ x :: xs.drop (position key x xs)

/-- The elements stand in the order of their keys. -/
def SortedBy (key : α → Int) (xs : List α) : Prop := xs.Pairwise fun a b => key a ≤ key b

instance : Decidable (SortedBy key xs) := inferInstanceAs (Decidable (xs.Pairwise _))

theorem insertByKey_perm : (insertByKey key x xs).Perm (x :: xs) :=
  List.perm_middle.trans (by rw [List.take_append_drop])

theorem mem_insertByKey {y : α} : y ∈ insertByKey key x xs ↔ y = x ∨ y ∈ xs := by
  rw [insertByKey_perm.mem_iff, List.mem_cons]

theorem position_spec (h : SortedBy key xs) {i : Nat} (hi : i < xs.length) :
    (i < position key x xs → key xs[i] ≤ key x) ∧ (position key x xs ≤ i → key x < key xs[i]) := by
  have hmono (i j : Nat) (hij : i ≤ j) (hj : j < 0 + xs.length)
      (hbefore : xs[i]?.any (fun y => key x < key y) = true) :
      xs[j]?.any (fun y => key x < key y) = true := by
    have hj' : j < xs.length := by omega
    have hi' : i < xs.length := by omega
    have hle : key xs[i] ≤ key xs[j] := by
      rcases Nat.lt_or_eq_of_le hij with hlt | rfl
      · exact List.pairwise_iff_getElem.mp h i j hi' hj' hlt
      · exact Int.le_refl _
    simp only [List.getElem?_eq_getElem hi', List.getElem?_eq_getElem hj', Option.any_some,
      decide_eq_true_eq] at hbefore ⊢
    exact Int.lt_of_lt_of_le hbefore hle
  obtain ⟨hlow, hhigh⟩ := search_spec _ _ (Nat.le_refl _) hmono
  constructor
  · intro hpos
    have hbefore := hlow i (Nat.zero_le _) hpos
    simpa [hi] using hbefore
  · intro hpos
    have hbefore := hhigh i hpos (by omega)
    simpa [hi] using hbefore

theorem SortedBy.insertByKey (h : SortedBy key xs) : SortedBy key (insertByKey key x xs) := by
  have hsplit : SortedBy key (xs.take (position key x xs) ++ xs.drop (position key x xs)) :=
    (List.take_append_drop _ xs).symm ▸ h
  obtain ⟨htake, hdrop, hcross⟩ := List.pairwise_append.mp hsplit
  have hlow : ∀ y ∈ xs.take (position key x xs), key y ≤ key x := by
    intro y hy
    obtain ⟨i, hi, rfl⟩ := List.mem_take_iff_getElem.mp hy
    exact (position_spec h (by omega)).1 (by omega)
  have hhigh : ∀ y ∈ xs.drop (position key x xs), key x ≤ key y := by
    intro y hy
    obtain ⟨i, hi, rfl⟩ := List.mem_drop_iff_getElem.mp hy
    exact Int.le_of_lt ((position_spec h (by omega)).2 (by omega))
  rw [SortedBy, SupportUpperBound.insertByKey, List.pairwise_append]
  refine ⟨htake, List.pairwise_cons.mpr ⟨hhigh, hdrop⟩, fun a ha b hb => ?_⟩
  rcases List.mem_cons.mp hb with rfl | hb
  · exact hlow a ha
  · exact hcross a ha b hb

theorem sublist_insertByKey : xs.Sublist (SupportUpperBound.insertByKey key x xs) := by
  have hsplit : xs.Sublist (xs.take (position key x xs) ++ xs.drop (position key x xs)) := by
    rw [List.take_append_drop]
  exact hsplit.trans (List.Sublist.append_left (List.sublist_cons_self _ _) _)

/-- An insertion puts no list in order. -/
theorem sortedBy_insertByKey_iff :
    SortedBy key (SupportUpperBound.insertByKey key x xs) ↔ SortedBy key xs :=
  ⟨fun h => h.sublist sublist_insertByKey, SortedBy.insertByKey⟩

/-- No element in front of `x` has a greater key than `d`, and none behind a smaller one. -/
def Fits [DecidableEq α] (key : α → Int) (x : α) (d : Int) (xs : List α) : Prop :=
  xs.Pairwise fun a b => (a = x → b ≠ x → d ≤ key b) ∧ (b = x → a ≠ x → key a ≤ d)

instance [DecidableEq α] (d : Int) : Decidable (Fits key x d xs) :=
  inferInstanceAs (Decidable (xs.Pairwise _))

/-- An element whose key changes keeps the order exactly if it fits between its neighbours. -/
theorem SortedBy.update_iff [DecidableEq α] (h : SortedBy key xs) {d : Int} :
    SortedBy (Function.update key x d) xs ↔ Fits key x d xs := by
  constructor
  · intro hupdate
    refine hupdate.imp ?_
    intro a b hle
    constructor
    · intro ha hb
      simpa [ha, hb] using hle
    · intro hb ha
      simpa [ha, hb] using hle
  · intro hfits
    refine (h.and hfits).imp ?_
    rintro a b ⟨hle, hleft, hright⟩
    by_cases ha : a = x
    · by_cases hb : b = x
      · simp [ha, hb]
      · simpa [ha, hb] using hleft ha hb
    · by_cases hb : b = x
      · simpa [ha, hb] using hright hb ha
      · simpa [ha, hb] using hle

end SupportUpperBound
