import Mathlib.Data.Int.Bitwise
import Tcode.SupportTwosComplement

/-! # Bits of two's complement numbers

The bits of a number are those of its bytes, and behind them those of its sign. An operation that
takes bits to bits takes the bytes of two numbers of one size to those of its result.
-/
namespace SupportTwosComplement

open SupportMachineInt

variable {bs cs : List UInt8} {m n : Int} {x y : UInt8} {k : Nat}

theorem nat_testBit_large {n k : Nat} (h : n ≤ k) : n.testBit k = false :=
  Nat.testBit_lt_two_pow (Nat.lt_of_le_of_lt h Nat.lt_two_pow_self)

/-- Numbers with the same bits are the same. -/
theorem eq_of_testBit (h : ∀ k, m.testBit k = n.testBit k) : m = n := by
  cases m with
  | ofNat m =>
    cases n with
    | ofNat n => exact congrArg Int.ofNat (Nat.eq_of_testBit_eq h)
    | negSucc n =>
      have hbit := h (m + n)
      simp [Int.testBit, nat_testBit_large] at hbit
  | negSucc m =>
    cases n with
    | ofNat n =>
      have hbit := h (m + n)
      simp [Int.testBit, nat_testBit_large] at hbit
    | negSucc n =>
      refine congrArg Int.negSucc (Nat.eq_of_testBit_eq fun k => ?_)
      exact Bool.not_inj (h k)

theorem byte_testBit_large (h : 8 ≤ k) : x.toNat.testBit k = false :=
  Nat.testBit_lt_two_pow (Nat.lt_of_lt_of_le x.toNat_lt (Nat.pow_le_pow_right (by decide) h))

theorem byte_eq_of_testBit (h : ∀ k < 8, x.toNat.testBit k = y.toNat.testBit k) : x = y := by
  refine UInt8.toNat.inj (Nat.eq_of_testBit_eq fun k => ?_)
  rcases Nat.lt_or_ge k 8 with hk | hk
  · exact h k hk
  · rw [byte_testBit_large hk, byte_testBit_large hk]

theorem leValue_testBit (bs : List UInt8) (k : Nat) :
    (leValue bs).testBit k = (bs.getD (k / 8) 0).toNat.testBit (k % 8) := by
  induction bs generalizing k with
  | nil => simp [leValue]
  | cons b bs ih =>
    have hsplit : leValue (b :: bs) = 2 ^ 8 * leValue bs + b.toNat := Nat.add_comm _ _
    rw [hsplit, Nat.testBit_two_pow_mul_add _ b.toNat_lt]
    split
    · next hlow =>
      rw [Nat.div_eq_of_lt hlow, Nat.mod_eq_of_lt hlow]
      rfl
    · next hhigh =>
      have hdiv : k / 8 = (k - 8) / 8 + 1 := by omega
      have hmod : k % 8 = (k - 8) % 8 := by omega
      rw [ih, hdiv, hmod, List.getD_cons_succ]

theorem not_testBit (h : k < 8) : (~~~x).toNat.testBit k = !x.toNat.testBit k := by
  have hnot : (~~~x).toNat = 2 ^ 8 - (x.toNat + 1) := by
    rw [toNat_not]
    omega
  rw [hnot, Nat.testBit_two_pow_sub_succ x.toNat_lt]
  simp [h]

theorem fill_testBit (bs : List UInt8) (h : k < 8) :
    (fill bs).toNat.testBit k = decide (Negative bs) := by
  have hbits : ∀ k, k < 8 → (255 : UInt8).toNat.testBit k = true := by decide
  unfold fill
  split
  · next hneg => rw [hbits k h, decide_eq_true hneg]
  · next hpos =>
    rw [decide_eq_false hpos]
    exact Nat.zero_testBit k

/-- The bits of a number, whose sign goes on behind its bytes. -/
theorem signed_testBit (bs : List UInt8) (k : Nat) :
    (signed bs).testBit k = (bs.getD (k / 8) (fill bs)).toNat.testBit (k % 8) := by
  have hk : k % 8 < 8 := Nat.mod_lt k (by decide)
  by_cases hneg : Negative bs
  · have hvalue : signed bs = Int.negSucc (leValue (bs.map (~~~·))) := by
      have hsum : (leValue (bs.map (~~~·)) : Int) + leValue bs + 1 = 256 ^ bs.length := by
        exact_mod_cast leValue_map_not bs
      rw [signed_of_negative hneg, Int.negSucc_eq]
      omega
    rw [hvalue]
    show (!(leValue (bs.map (~~~·))).testBit k) = _
    rw [leValue_testBit]
    rcases Nat.lt_or_ge (k / 8) bs.length with hlt | hge
    · have hbyte : (bs.map (~~~·)).getD (k / 8) 0 = ~~~bs.getD (k / 8) (fill bs) := by
        simp [List.getD_eq_getElem?_getD, hlt]
      rw [hbyte, not_testBit hk, Bool.not_not]
    · simp [List.getD_eq_getElem?_getD, hge, fill_testBit bs hk, hneg]
  · rw [signed_of_not_negative hneg]
    show (leValue bs).testBit k = _
    have hfill : fill bs = 0 := if_neg hneg
    rw [leValue_testBit, hfill]

/-! ## Operations on bits -/

section Operations

variable {f : UInt8 → UInt8 → UInt8} {g : Bool → Bool → Bool}

/-- An operation on bytes that does to each bit what `g` does. -/
def Bitwise (f : UInt8 → UInt8 → UInt8) (g : Bool → Bool → Bool) : Prop :=
  ∀ x y k, k < 8 → (f x y).toNat.testBit k = g (x.toNat.testBit k) (y.toNat.testBit k)

theorem bitwise_or : Bitwise (· ||| ·) or := fun x y k _ => by
  rw [UInt8.toNat_or, Nat.testBit_or]

theorem bitwise_and : Bitwise (· &&& ·) and := fun x y k _ => by
  rw [UInt8.toNat_and, Nat.testBit_and]

theorem bitwise_xor : Bitwise (· ^^^ ·) xor := fun x y k _ => by
  rw [UInt8.toNat_xor, Nat.testBit_xor]

/-- The sign is the highest bit. -/
theorem negative_iff_testBit (bs : List UInt8) :
    Negative bs ↔ (bs.getLastD 0).toNat.testBit 7 = true := by
  have hbyte : ∀ x : UInt8, 128 ≤ x.toNat ↔ x.toNat.testBit 7 = true := by
    intro x
    have hx := x.toNat_lt
    rw [Nat.testBit_eq_decide_div_mod_eq, decide_eq_true_eq]
    omega
  exact hbyte _

theorem fill_zipWith (hf : Bitwise f g) (hg : g false false = false)
    (hlen : bs.length = cs.length) : fill (List.zipWith f bs cs) = f (fill bs) (fill cs) := by
  have hsign : decide (Negative (List.zipWith f bs cs)) =
      g (decide (Negative bs)) (decide (Negative cs)) := by
    rcases List.eq_nil_or_concat bs with rfl | ⟨bs, b, rfl⟩
    · obtain rfl := List.eq_nil_of_length_eq_zero hlen.symm
      exact hg.symm
    · rcases List.eq_nil_or_concat cs with rfl | ⟨cs, c, rfl⟩
      · rw [List.length_concat] at hlen
        cases hlen
      · rw [List.length_concat, List.length_concat] at hlen
        have hlast : List.zipWith f (bs ++ [b]) (cs ++ [c]) =
            List.zipWith f bs cs ++ List.zipWith f [b] [c] :=
          List.zipWith_append (Nat.succ.inj hlen)
        simp only [List.concat_eq_append, negative_iff_testBit, hlast, List.zipWith_cons_cons,
          List.zipWith_nil_left, List.getLastD_concat, Bool.decide_eq_true]
        exact hf b c 7 (by decide)
  refine byte_eq_of_testBit fun k hk => ?_
  rw [fill_testBit _ hk, hf _ _ k hk, fill_testBit _ hk, fill_testBit _ hk, hsign]

/-- What is done to the bytes is done to the bits. -/
theorem signed_zipWith_testBit (hf : Bitwise f g) (hg : g false false = false)
    (hlen : bs.length = cs.length) (k : Nat) :
    (signed (List.zipWith f bs cs)).testBit k =
      g ((signed bs).testBit k) ((signed cs).testBit k) := by
  have hk : k % 8 < 8 := Nat.mod_lt k (by decide)
  have hbyte : (List.zipWith f bs cs).getD (k / 8) (fill (List.zipWith f bs cs)) =
      f (bs.getD (k / 8) (fill bs)) (cs.getD (k / 8) (fill cs)) := by
    rw [fill_zipWith hf hg hlen]
    rcases Nat.lt_or_ge (k / 8) bs.length with hlt | hge
    · simp [List.getD_eq_getElem?_getD, hlt, hlen ▸ hlt]
    · simp [List.getD_eq_getElem?_getD, hge, hlen ▸ hge]
  rw [signed_testBit, signed_testBit, signed_testBit, hbyte, hf _ _ _ hk]

end Operations

end SupportTwosComplement
