import Mathlib.Algebra.Order.Ring.Abs
import Tcode.BigIntegerComplement

/-! # Products of big_integer

Negative numbers are complemented, and so is the result where one of them was. The products of
single bytes are added up in an accumulator that is never negative.
-/
namespace BigIntegerProduct

open SupportMachineInt SupportTwosComplement BigIntegerArithmetic BigIntegerArithmetic.BigInteger
open BigIntegerComplement

/-- `_data[i]` for the `i` below `valid_size()`. -/
def validBytes (b : BigInteger) : List UInt8 := b.data.take b.validSize

/-- The inner loop of `mul`, from byte `j` of the operand on, for place `idx = i + j`. -/
def mulRow (x : UInt8) (idx : Nat) : List UInt8 → BigInteger → BigInteger
  | [], vv => vv
  | y :: ys, vv =>
    let value : UInt16 := x.toUInt16 * y.toUInt16
    let vv := vv.addAt (value &&& 0xff).toUInt8 idx
    let vv := vv.addAt (value >>> 8).toUInt8 (idx + 1)
    mulRow x (idx + 1) ys vv

/-- The outer loop, from byte `i` of the object on. -/
def mulRows (ys : List UInt8) (i : Nat) : List UInt8 → BigInteger → BigInteger
  | [], vv => vv
  | x :: xs, vv => mulRows ys (i + 1) xs (mulRow x i ys vv)

/-- `mul( bi )`: the object and the operand afterwards. -/
def mul (b bi : BigInteger) : BigInteger × BigInteger :=
  let thisNeg : Bool := b.sign < 0
  let b := if thisNeg then b.twosComplement else b
  let biNeg : Bool := bi.sign < 0
  let bi := if biNeg then bi.twosComplement else bi
  let vv := mulRows (validBytes bi) 0 (validBytes b) ⟨[]⟩
  let bi := if biNeg then bi.twosComplement else bi
  let b := if thisNeg ^^ biNeg then vv.twosComplement else vv
  (b, bi)

variable {b bi vv : BigInteger}

/-! ## The accumulator -/

/-- The product of two bytes, in two bytes. -/
theorem byte_product (x y : UInt8) :
    ((x.toUInt16 * y.toUInt16) &&& 0xff).toUInt8.toNat +
      256 * ((x.toUInt16 * y.toUInt16) >>> 8).toUInt8.toNat = x.toNat * y.toNat := by
  have hx := x.toNat_lt
  have hy := y.toNat_lt
  have hlt : x.toNat * y.toNat < 65536 := by nlinarith
  have hvalue : (x.toUInt16 * y.toUInt16).toNat = x.toNat * y.toNat := by
    rw [UInt16.toNat_mul, UInt8.toNat_toUInt16, UInt8.toNat_toUInt16]
    exact Nat.mod_eq_of_lt hlt
  have hmask : x.toNat * y.toNat &&& 255 = x.toNat * y.toNat % 256 :=
    Nat.and_two_pow_sub_one_eq_mod (x.toNat * y.toNat) 8
  have hlow : ((x.toUInt16 * y.toUInt16) &&& 0xff).toUInt8.toNat = x.toNat * y.toNat % 256 := by
    rw [UInt16.toNat_toUInt8, UInt16.toNat_and, hvalue]
    change (x.toNat * y.toNat &&& 255) % 256 = _
    rw [hmask, Nat.mod_mod]
  have hhigh : ((x.toUInt16 * y.toUInt16) >>> 8).toUInt8.toNat = x.toNat * y.toNat / 256 := by
    rw [UInt16.toNat_toUInt8, UInt16.toNat_shiftRight, hvalue]
    change (x.toNat * y.toNat) >>> 8 % 256 = _
    rw [Nat.shiftRight_eq_div_pow]
    omega
  rw [hlow, hhigh]
  omega

theorem mulRow_value (x : UInt8) (ys : List UInt8) (idx : Nat) (hvv : ¬ Negative vv.data) :
    leValue (mulRow x idx ys vv).data =
        leValue vv.data + 256 ^ idx * (x.toNat * leValue ys) ∧
      ¬ Negative (mulRow x idx ys vv).data := by
  induction ys generalizing idx vv with
  | nil => exact ⟨by rw [leValue]; rfl, hvv⟩
  | cons y ys ih =>
    obtain ⟨hlow, hlowSign⟩ := addAt_value hvv ((x.toUInt16 * y.toUInt16) &&& 0xff).toUInt8 idx
    obtain ⟨hhigh, hhighSign⟩ :=
      addAt_value hlowSign ((x.toUInt16 * y.toUInt16) >>> 8).toUInt8 (idx + 1)
    obtain ⟨hrest, hrestSign⟩ := ih (idx + 1) hhighSign
    refine ⟨?_, hrestSign⟩
    have hproduct := byte_product x y
    rw [mulRow, hrest, hhigh, hlow, leValue, Nat.pow_succ, Nat.mul_add x.toNat, ← hproduct]
    ring

theorem mulRows_value (xs ys : List UInt8) (i : Nat) (hvv : ¬ Negative vv.data) :
    leValue (mulRows ys i xs vv).data = leValue vv.data + 256 ^ i * (leValue xs * leValue ys) ∧
      ¬ Negative (mulRows ys i xs vv).data := by
  induction xs generalizing i vv with
  | nil => exact ⟨by rw [leValue, Nat.zero_mul]; rfl, hvv⟩
  | cons x xs ih =>
    obtain ⟨hrow, hrowSign⟩ := mulRow_value x ys i hvv
    obtain ⟨hrest, hrestSign⟩ := ih (i + 1) hrowSign
    refine ⟨?_, hrestSign⟩
    rw [mulRows, hrest, hrow, leValue, Nat.pow_succ]
    ring

theorem leValue_validBytes (b : BigInteger) : leValue (validBytes b) = leValue b.data := by
  have hfrom (n : Nat) :
      leValue (b.data.take (validSizeFrom b.data n)) = leValue (b.data.take n) := by
    induction n with
    | zero => rfl
    | succ n ih =>
      rw [validSizeFrom]
      split_ifs with hzero
      · rfl
      · rw [ih, List.take_add_one, leValue_append]
        rw [not_not, List.getD_eq_getElem?_getD] at hzero
        cases hd : b.data[n]? with
        | none => simp [leValue]
        | some d =>
          rw [hd, Option.getD_some] at hzero
          simp [leValue, hzero]
  rw [validBytes, validSize, hfrom, size, List.take_length]

theorem validBytes_eq_nil (hzero : leValue b.data = 0) : validBytes b = [] := by
  rw [validBytes, validSize_eq_zero_iff.mpr hzero, List.take_zero]

theorem mulRows_nil (xs : List UInt8) (i : Nat) (vv : BigInteger) : mulRows [] i xs vv = vv := by
  induction xs generalizing i with
  | nil => rfl
  | cons x xs ih => exact ih (i + 1)

/-! ## Products -/

/-- The accumulator behind the loops. -/
def product (b bi : BigInteger) : BigInteger :=
  mulRows (validBytes (magnitude bi)) 0 (validBytes (magnitude b)) ⟨[]⟩

theorem product_value (b bi : BigInteger) : (product b bi).value = |b.value| * |bi.value| := by
  have hempty : ¬ Negative (BigInteger.mk []).data := by decide
  obtain ⟨hvalue, hsign⟩ :=
    mulRows_value (validBytes (magnitude b)) (validBytes (magnitude bi)) 0 hempty
  rw [product, value, signed_of_not_negative hsign, hvalue, leValue_validBytes,
    leValue_validBytes, ← (magnitude_spec b).2, ← (magnitude_spec bi).2]
  simp [leValue]

theorem product_of_zero (h : b.value = 0 ∨ bi.value = 0) : product b bi = ⟨[]⟩ := by
  have hnone {c : BigInteger} (hc : c.value = 0) : validBytes (magnitude c) = [] := by
    have hzero := (magnitude_spec c).2
    rw [hc, abs_zero] at hzero
    exact validBytes_eq_nil (by exact_mod_cast hzero)
  rcases h with hb | hbi
  · rw [product, hnone hb, mulRows]
  · rw [product, hnone hbi, mulRows_nil]

/-- The complement of the product, which for zero is that of an empty array. -/
theorem product_twosComplement (b bi : BigInteger) :
    (product b bi).twosComplement.value =
      if b.value = 0 ∨ bi.value = 0 then 1 else -(|b.value| * |bi.value|) := by
  split_ifs with hzero
  · rw [product_of_zero hzero]
    decide
  · obtain ⟨hb, hbi⟩ := not_or.mp hzero
    have hne : (product b bi).data ≠ [] := by
      intro hnil
      have hvalue := product_value b bi
      rw [value, hnil] at hvalue
      exact mul_ne_zero (abs_ne_zero.mpr hb) (abs_ne_zero.mpr hbi) hvalue.symm
    rw [value_twosComplement hne, product_value]

theorem mul_fst (b bi : BigInteger) :
    (mul b bi).1 =
      if b.value < 0 ↔ bi.value < 0 then product b bi else (product b bi).twosComplement := by
  simp only [← sign_neg_iff_value]
  by_cases hb : b.sign < 0 <;> by_cases hbi : bi.sign < 0 <;>
    simp [mul, product, magnitude, hb, hbi]

theorem mul_snd (b bi : BigInteger) :
    (mul b bi).2 = if bi.sign < 0 then (magnitude bi).twosComplement else magnitude bi := by
  simp only [mul, magnitude, decide_eq_true_eq]

/-- The operand is complemented twice. -/
theorem mul_operand (b bi : BigInteger) : (mul b bi).2.value = bi.value := by
  rw [mul_snd, value_restored]

/-- The result is right but where one number is negative and the other is zero. -/
theorem mul_result_iff (b bi : BigInteger) :
    (mul b bi).1.value = b.value * bi.value ↔
      (b.value < 0 → bi.value ≠ 0) ∧ (bi.value < 0 → b.value ≠ 0) := by
  rw [mul_fst]
  split_ifs with hsame
  · have hcondition : (b.value < 0 → bi.value ≠ 0) ∧ (bi.value < 0 → b.value ≠ 0) :=
      ⟨fun h => (hsame.mp h).ne, fun h => (hsame.mpr h).ne⟩
    refine iff_of_true ?_ hcondition
    rw [product_value, ← abs_mul]
    rcases lt_or_ge b.value 0 with hb | hb
    · exact abs_of_pos (mul_pos_of_neg_of_neg hb (hsame.mp hb))
    · exact abs_of_nonneg (mul_nonneg hb (not_lt.mp (mt hsame.mpr (not_lt.mpr hb))))
  · rw [product_twosComplement]
    split_ifs with hzero
    · have hproduct : b.value * bi.value = 0 := mul_eq_zero.mpr hzero
      rw [hproduct]
      refine iff_of_false (by decide) ?_
      rintro ⟨hleft, hright⟩
      omega
    · obtain ⟨hb, hbi⟩ := not_or.mp hzero
      refine iff_of_true ?_ ⟨fun _ => hbi, fun _ => hb⟩
      have hneg : b.value * bi.value ≤ 0 := by
        rcases lt_or_ge b.value 0 with hlt | hge
        · exact mul_nonpos_of_nonpos_of_nonneg hlt.le (by omega)
        · exact mul_nonpos_of_nonneg_of_nonpos hge (by omega)
      rw [← abs_mul, abs_of_nonpos hneg, neg_neg]

theorem mul_exact_iff (b bi : BigInteger) :
    ((mul b bi).1.value = b.value * bi.value ∧ (mul b bi).2.value = bi.value) ↔
      (b.value < 0 → bi.value ≠ 0) ∧ (bi.value < 0 → b.value ≠ 0) := by
  rw [and_iff_left (mul_operand b bi), mul_result_iff]

/-- -1 times 0 is 1. -/
theorem mul_not_exact :
    ¬ ∀ b bi : BigInteger,
      (mul b bi).1.value = b.value * bi.value ∧ (mul b bi).2.value = bi.value := by
  intro hall
  have hresult := (hall ⟨[0xff]⟩ ⟨[0x00]⟩).1
  revert hresult
  decide

end BigIntegerProduct
