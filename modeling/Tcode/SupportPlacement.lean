import Mathlib.Data.List.Perm.Basic
import Mathlib.Logic.Function.Basic

/-! # Items that are in one place each

Every place holds a list of items, and a function says where an item is. It is right if an item
occurs once in the list of its place and in no other. Items outside of all lists are at the place
`nowhere`.
-/
namespace SupportPlacement

variable {α π : Type*} [DecidableEq α] [DecidableEq π]

def Placed (nowhere : π) (held : π → List α) (place : α → π) : Prop :=
  ∀ a p, p ≠ nowhere → (held p).count a = if place a = p then 1 else 0

variable {nowhere p q : π} {held held' : π → List α} {place : α → π} {a : α}

theorem Placed.place_of_mem (h : Placed nowhere held place) (hp : p ≠ nowhere)
    (ha : a ∈ held p) : place a = p := by
  by_contra hne
  have hcount := h a p hp
  rw [if_neg hne] at hcount
  exact List.count_eq_zero.mp hcount ha

theorem Placed.mem_of_place (h : Placed nowhere held place) (hp : p ≠ nowhere)
    (ha : place a = p) : a ∈ held p := by
  have hcount := h a p hp
  rw [if_pos ha] at hcount
  exact List.one_le_count_iff.mp (Nat.le_of_eq hcount.symm)

theorem Placed.count_le_one (h : Placed nowhere held place) (hp : p ≠ nowhere) (a : α) :
    (held p).count a ≤ 1 := by
  rw [h a p hp]
  split <;> omega

theorem Placed.same (h : Placed nowhere held place)
    (hheld : ∀ p, p ≠ nowhere → (held' p).Perm (held p)) : Placed nowhere held' place := by
  intro a p hp
  rw [(hheld p hp).count_eq]
  exact h a p hp

/-- One item goes from its place, or from nowhere, to another one. -/
theorem Placed.move (h : Placed nowhere held place) (ha : place a = p) (hpq : p ≠ q)
    (hfrom : p ≠ nowhere → (held p).Perm (a :: held' p)) (hto : (held' q).Perm (a :: held q))
    (hothers : ∀ r, r ≠ p → r ≠ q → (held' r).Perm (held r)) :
    Placed nowhere held' (Function.update place a q) := by
  intro b r hr
  have hb := h b r hr
  by_cases hba : b = a
  · subst hba
    rw [Function.update_self]
    rw [ha] at hb
    by_cases hrp : r = p
    · subst hrp
      rw [(hfrom hr).count_eq, List.count_cons_self, if_pos rfl] at hb
      rw [if_neg (Ne.symm hpq)]
      omega
    · by_cases hrq : r = q
      · subst hrq
        rw [if_neg hpq] at hb
        rw [hto.count_eq, List.count_cons_self, hb, if_pos rfl]
      · rw [if_neg (Ne.symm hrq), (hothers r hrp hrq).count_eq, hb, if_neg (Ne.symm hrp)]
  · rw [Function.update_of_ne hba, ← hb]
    by_cases hrp : r = p
    · subst hrp
      rw [(hfrom hr).count_eq, List.count_cons_of_ne (Ne.symm hba)]
    · by_cases hrq : r = q
      · subst hrq
        rw [hto.count_eq, List.count_cons_of_ne (Ne.symm hba)]
      · rw [(hothers r hrp hrq).count_eq]

theorem Placed.count_flatMap (h : Placed nowhere held place) {ps : List π} (hps : ps.Nodup)
    (hnowhere : nowhere ∉ ps) (a : α) :
    (ps.flatMap held).count a = if place a ∈ ps then 1 else 0 := by
  induction ps with
  | nil => rfl
  | cons p ps ih =>
    obtain ⟨hp, hps⟩ := List.nodup_cons.mp hps
    have hne : p ≠ nowhere := fun heq => hnowhere (heq ▸ List.mem_cons_self)
    rw [List.flatMap_cons, List.count_append, h a p hne,
      ih hps fun hmem => hnowhere (List.mem_cons_of_mem p hmem)]
    by_cases hplace : place a = p
    · rw [if_pos hplace, if_neg (hplace ▸ hp), if_pos (hplace ▸ List.mem_cons_self)]
    · rw [if_neg hplace]
      simp [hplace]

/-- All items of some places go to another one. -/
theorem Placed.gather (h : Placed nowhere held place) {ps : List π} (hps : ps.Nodup)
    (hnowhere : nowhere ∉ ps) (hq : q ∉ ps) (hfrom : ∀ p ∈ ps, held' p = [])
    (hto : (held' q).Perm (held q ++ ps.flatMap held))
    (hothers : ∀ r, r ∉ ps → r ≠ q → (held' r).Perm (held r)) :
    Placed nowhere held' fun a => if a ∈ ps.flatMap held then q else place a := by
  intro a r hr
  have hmem : a ∈ ps.flatMap held ↔ place a ∈ ps := by
    rw [← List.one_le_count_iff, h.count_flatMap hps hnowhere]
    split <;> simp_all
  have ha := h a r hr
  simp only [hmem]
  by_cases hrps : r ∈ ps
  · rw [hfrom r hrps, List.count_nil]
    by_cases hplace : place a ∈ ps
    · rw [if_pos hplace, if_neg]
      intro heq
      exact hq (heq ▸ hrps)
    · rw [if_neg hplace, if_neg]
      intro heq
      exact hplace (heq ▸ hrps)
  · by_cases hrq : r = q
    · subst hrq
      rw [hto.count_eq, List.count_append, ha, h.count_flatMap hps hnowhere]
      by_cases hplace : place a ∈ ps
      · have hne : place a ≠ r := fun heq => hq (heq ▸ hplace)
        rw [if_neg hne, if_pos hplace, if_pos hplace, if_pos rfl]
      · rw [if_neg hplace, if_neg hplace, Nat.add_zero]
    · rw [(hothers r hrps hrq).count_eq, ha]
      by_cases hplace : place a ∈ ps
      · have hne : place a ≠ r := fun heq => hrps (heq ▸ hplace)
        rw [if_neg hne, if_pos hplace, if_neg (Ne.symm hrq)]
      · rw [if_neg hplace]

end SupportPlacement
