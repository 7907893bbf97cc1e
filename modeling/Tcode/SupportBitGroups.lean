import Mathlib.Data.Nat.Bitwise
import Tcode.SupportFixedWidth

/-! # Rows of numbers with a fixed number of bits

Numbers that are written one behind the other with the same number of bits can be read off the
row of bits, and the row may be divided into numbers of another size. An accumulator takes the
bits of one division and gives those of the other.
-/
namespace SupportBitGroups

open SupportFixedWidth

variable {v w m n r : Nat} {xs ys : List Nat} {s t : List Nat}

/-- The last `w` bits of a number, the highest first. -/
def bits (w n : Nat) : List Nat := fixed id 2 w n

def row (w : Nat) (xs : List Nat) : List Nat := xs.flatMap (bits w)

theorem bits_ordered : Ordered (id : Nat → Nat) 2 :=
  ⟨by decide, fun _ _ _ _ => Iff.rfl, fun _ _ _ _ h => h⟩

@[simp] theorem bits_length (w n : Nat) : (bits w n).length = w := fixed_length

theorem bits_inj (hm : m < 2 ^ w) (hn : n < 2 ^ w) : bits w m = bits w n ↔ m = n :=
  fixed_inj bits_ordered hm hn

theorem bits_add (v w n : Nat) : bits (v + w) n = bits v (n / 2 ^ w) ++ bits w n :=
  fixed_add id 2 v w n

theorem bits_mod (h : w ≤ v) (n : Nat) : bits w (n % 2 ^ v) = bits w n := fixed_mod id h n

theorem bits_zero (w : Nat) : bits w 0 = List.replicate w 0 := fixed_zero id 2 w

/-- An accumulator of `v` bits that takes `w` more. -/
theorem bits_push (hn : n < 2 ^ w) : bits (v + w) (m * 2 ^ w + n) = bits v m ++ bits w n := by
  have hpos : 0 < 2 ^ w := Nat.two_pow_pos w
  have hdiv : (m * 2 ^ w + n) / 2 ^ w = m := by
    rw [Nat.add_comm, Nat.add_mul_div_right _ _ hpos, Nat.div_eq_of_lt hn, Nat.zero_add]
  have hlow : bits w (m * 2 ^ w + n) = bits w n := by
    rw [← bits_mod (Nat.le_refl w), Nat.add_comm, Nat.add_mul_mod_self_right,
      bits_mod (Nat.le_refl w)]
  rw [bits_add, hdiv, hlow]

@[simp] theorem row_nil (w : Nat) : row w [] = [] := rfl

@[simp] theorem row_cons (w n : Nat) (xs : List Nat) : row w (n :: xs) = bits w n ++ row w xs := rfl

@[simp] theorem row_append (w : Nat) (xs ys : List Nat) :
    row w (xs ++ ys) = row w xs ++ row w ys := List.flatMap_append

theorem row_singleton (w n : Nat) : row w [n] = bits w n := by
  rw [row_cons, row_nil, List.append_nil]

@[simp] theorem row_length (w : Nat) (xs : List Nat) : (row w xs).length = w * xs.length := by
  induction xs with
  | nil => rfl
  | cons x xs ih => rw [row_cons, List.length_append, ih, bits_length, List.length_cons,
      Nat.mul_succ, Nat.add_comm]

/-- The numbers of a row and what is left behind them are unique. -/
theorem row_inj (hxs : ∀ x ∈ xs, x < 2 ^ w) (hys : ∀ y ∈ ys, y < 2 ^ w) (hs : s.length < w)
    (ht : t.length < w) (h : row w xs ++ s = row w ys ++ t) : xs = ys ∧ s = t := by
  have hlen := congrArg List.length h
  rw [List.length_append, List.length_append, row_length, row_length] at hlen
  induction xs generalizing ys with
  | nil =>
    cases ys with
    | nil => exact ⟨rfl, h⟩
    | cons y ys =>
      rw [List.length_nil, List.length_cons, Nat.mul_succ] at hlen
      omega
  | cons x xs ih =>
    cases ys with
    | nil =>
      rw [List.length_nil, List.length_cons, Nat.mul_succ] at hlen
      omega
    | cons y ys =>
      rw [row_cons, row_cons, List.append_assoc, List.append_assoc] at h
      obtain ⟨hfirst, hrest⟩ := List.append_inj h (by rw [bits_length, bits_length])
      rw [List.length_cons, List.length_cons, Nat.mul_succ, Nat.mul_succ] at hlen
      obtain ⟨htail, hleft⟩ := ih (fun a ha => hxs a (List.mem_cons_of_mem _ ha))
        (fun a ha => hys a (List.mem_cons_of_mem _ ha)) hrest (by omega)
      have hhead := (bits_inj (hxs x List.mem_cons_self) (hys y List.mem_cons_self)).mp hfirst
      exact ⟨by rw [hhead, htail], hleft⟩

/-- A row of as many numbers of the same bits. -/
theorem row_inj_of_eq (hxs : ∀ x ∈ xs, x < 2 ^ w) (hys : ∀ y ∈ ys, y < 2 ^ w) (hw : 0 < w)
    (h : row w xs = row w ys) : xs = ys :=
  (row_inj (s := []) (t := []) hxs hys hw hw (by rw [h])).1

/-! ## Accumulators of a word -/

/-- `(acc << w) | v` in a word of `W` bits. -/
def shiftIn (W w acc v : Nat) : Nat := acc <<< w % 2 ^ W ||| v

/-- The `w` bits in front of the last `k`. -/
def field (w k acc : Nat) : Nat := acc >>> k &&& 2 ^ w - 1

theorem field_lt (w k acc : Nat) : field w k acc < 2 ^ w := by
  rw [field, Nat.and_two_pow_sub_one_eq_mod]
  exact Nat.mod_lt _ (Nat.two_pow_pos w)

theorem bits_field (w k acc : Nat) : bits (w + k) acc = bits w (field w k acc) ++ bits k acc := by
  rw [bits_add, field, Nat.and_two_pow_sub_one_eq_mod, bits_mod (Nat.le_refl w),
    Nat.shiftRight_eq_div_pow]

/-- The bits that are collected are not lost while they fit into the word. -/
theorem bits_shiftIn {W k acc v : Nat} (hv : v < 2 ^ w) (h : k + w ≤ W) :
    bits (k + w) (shiftIn W w acc v) = bits k acc ++ bits w v := by
  obtain ⟨u, rfl⟩ : ∃ u, W = u + w := ⟨W - w, by omega⟩
  have hword : acc <<< w % 2 ^ (u + w) = (acc % 2 ^ u) <<< w := by
    rw [Nat.shiftLeft_eq, Nat.shiftLeft_eq, Nat.pow_add, Nat.mul_mod_mul_right]
  rw [shiftIn, hword, ← Nat.shiftLeft_add_eq_or_of_lt hv, Nat.shiftLeft_eq, bits_push hv,
    bits_mod (by omega)]

end SupportBitGroups
