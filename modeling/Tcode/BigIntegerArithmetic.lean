import Mathlib.Tactic.Linarith
import Mathlib.Tactic.Zify
import Tcode.SupportTwosComplement

/-! # big_integer and its addition

Sizes and places are `int`s that count arrays of fewer than 2^31 bytes. A loop over an array is a
recursion over its bytes from the lowest on. Each byte is read before it is written, so that an
operand may be the object itself.
-/
namespace BigIntegerArithmetic

open SupportMachineInt SupportTwosComplement

structure BigInteger where
  data : List UInt8
  deriving DecidableEq, Repr

namespace BigInteger

def kBits : Nat := 8

def kMask : UInt8 := 0xff

def size (b : BigInteger) : Nat := b.data.length

/-- The loop of `valid_size` from place `idx - 1` down. -/
def validSizeFrom (data : List UInt8) : Nat → Nat
  | 0 => 0
  | idx + 1 => if data.getD idx 0 ≠ 0 then idx + 1 else validSizeFrom data idx

def validSize (b : BigInteger) : Nat := validSizeFrom b.data b.size

def sign (b : BigInteger) : Int :=
  if b.validSize = 0 then 0
  else if (b.data.getLastD 0).toNat >>> (kBits - 1) ≠ 0 then -1
  else 1

/-- The value of the array in two's complement. -/
def value (b : BigInteger) : Int := signed b.data

/-- `_not()`. -/
def not (b : BigInteger) : BigInteger := ⟨b.data.map (~~~·)⟩

/-- The loop of `add( val , idx )` from its place on, and the carry behind it. -/
def addCarry : List UInt8 → UInt8 → List UInt8 × UInt8
  | [], val => ([], val)
  | d :: ds, val =>
    let s := d + val
    let val : UInt8 := if s < val then 1 else 0
    if val = 0 then (s :: ds, val)
    else
      let (out, val) := addCarry ds val
      (s :: out, val)

/-- `add( val , idx )`. -/
def addAt (b : BigInteger) (val : UInt8) (idx : Nat) : BigInteger :=
  let neg := b.sign < 0
  let data := b.data ++ List.replicate (idx + 1 - b.size) (if neg then kMask else 0)
  let (out, val) := addCarry (data.drop idx) val
  let data := data.take idx ++ out
  let data := if ¬ neg ∧ val ≠ 0 then data ++ [val] else data
  if ¬ neg ∧ sign ⟨data⟩ < 0 then ⟨data ++ [0]⟩ else ⟨data⟩

def twosComplement (b : BigInteger) : BigInteger := b.not.addAt 1 0

/-- One turn of the loops of `add` and `sub`. -/
def addByte (d v : UInt8) (carry : Bool) : UInt8 × Bool :=
  let d := d + v
  if carry then
    let carry := if v ≤ d then false else carry
    let carry := if d = kMask then true else carry
    (d + 1, carry)
  else (d, if d < v then true else carry)

/-- The loop of `add` and `sub` over the bytes of the object and those of the operand, behind
which there is `bv` again and again. -/
def addBytes (bv : UInt8) : List UInt8 → List UInt8 → Bool → List UInt8 × Bool
  | [], _, carry => ([], carry)
  | d :: ds, vs, carry =>
    let (d, carry) := addByte d (vs.headD bv) carry
    let (out, carry) := addBytes bv ds vs.tail carry
    (d :: out, carry)

/-- The array of the object with as many bytes as the operand. -/
def padded (b bi : BigInteger) : List UInt8 :=
  let tv := if b.sign < 0 then kMask else 0
  b.data ++ List.replicate (bi.size - b.size) tv

/-- `add( bi )`. -/
def add (b bi : BigInteger) : BigInteger :=
  let tv := if b.sign < 0 then kMask else 0
  let bv := if bi.sign < 0 then kMask else 0
  let neg := tv ≠ 0 ∨ bv ≠ 0
  let (out, carry) := addBytes bv (b.padded bi) bi.data false
  if carry ∧ ¬ neg then ⟨out ++ [1]⟩ else ⟨out⟩

/-- `sub( bi )`. -/
def sub (b bi : BigInteger) : BigInteger :=
  let bv := if bi.sign < 0 then kMask else 0
  let (out, _) := addBytes (~~~bv) (b.padded bi) (bi.data.map (~~~·)) true
  ⟨out⟩

end BigInteger

open BigInteger

variable {b bi : BigInteger} {ds vs : List UInt8} {n : Nat}

/-! ## Signs -/

theorem validSizeFrom_eq_zero_iff (data : List UInt8) (n : Nat) :
    validSizeFrom data n = 0 ↔ ∀ i < n, data.getD i 0 = 0 := by
  induction n with
  | zero => simp [validSizeFrom]
  | succ n ih =>
    rw [validSizeFrom]
    split_ifs with h
    · exact iff_of_false not_false fun hall => h (hall n (Nat.lt_succ_self n))
    · rw [ih, Nat.forall_lt_succ_right]
      exact (and_iff_left (not_not.mp h)).symm

theorem validSize_eq_zero_iff : b.validSize = 0 ↔ leValue b.data = 0 := by
  rw [validSize, validSizeFrom_eq_zero_iff, leValue_eq_zero_iff, List.forall_mem_iff_getElem]
  refine forall_congr' fun i => forall_congr' fun hi => ?_
  rw [List.getD_eq_getElem?_getD, List.getElem?_eq_getElem hi, Option.getD_some]

theorem sign_neg_iff : b.sign < 0 ↔ Negative b.data := by
  have htop : (b.data.getLastD 0).toNat >>> (kBits - 1) ≠ 0 ↔ Negative b.data := by
    rw [Negative, kBits, Nat.shiftRight_eq_div_pow]
    omega
  rw [sign]
  split_ifs with hzero hneg
  · refine iff_of_false (by decide) fun hneg => ?_
    have hle := negative_iff.mp hneg
    have hpos : 0 < 256 ^ b.data.length := Nat.pow_pos (by decide)
    rw [validSize_eq_zero_iff.mp hzero] at hle
    omega
  · exact iff_of_true (by decide) (htop.mp hneg)
  · exact iff_of_false (by decide) (mt htop.mpr hneg)

theorem sign_neg_iff_value : b.sign < 0 ↔ b.value < 0 := sign_neg_iff.trans negative_iff_signed

/-- The padding of `add` and `sub`. -/
theorem pad_eq_fill (b : BigInteger) : (if b.sign < 0 then kMask else 0) = fill b.data := by
  simp only [sign_neg_iff]
  rfl

/-! ## Addition and subtraction -/

theorem addByte_spec (d v : UInt8) (carry : Bool) :
    (addByte d v carry).1.toNat + 256 * (addByte d v carry).2.toNat =
      d.toNat + v.toNat + carry.toNat := by
  have hd := d.toNat_lt
  have hv := v.toNat_lt
  have hsum : (d + v).toNat = (d.toNat + v.toNat) % 256 := UInt8.toNat_add d v
  have hnext : (d + v + 1).toNat = ((d + v).toNat + 1) % 256 := UInt8.toNat_add (d + v) 1
  have hmax : d + v = kMask ↔ (d + v).toNat = 255 := UInt8.toNat_inj.symm
  cases carry with
  | false =>
    simp only [addByte, UInt8.lt_iff_toNat_lt, Bool.false_eq_true, if_false]
    split_ifs with hlt <;> simp only [Bool.toNat_true, Bool.toNat_false] <;> omega
  | true =>
    simp only [addByte, UInt8.le_iff_toNat_le, hmax, if_true]
    split_ifs with hle hfull <;> simp only [Bool.toNat_true, Bool.toNat_false] <;> omega

/-- The carry of each byte goes into the next one. -/
theorem addBytes_spec (bv : UInt8) (ds : List UInt8) {vs : List UInt8} (carry : Bool)
    (hlen : vs.length ≤ ds.length) :
    (addBytes bv ds vs carry).1.length = ds.length ∧
      leValue (addBytes bv ds vs carry).1 +
          256 ^ ds.length * (addBytes bv ds vs carry).2.toNat =
        leValue ds + leValue (vs ++ List.replicate (ds.length - vs.length) bv) +
          carry.toNat := by
  induction ds generalizing vs carry with
  | nil =>
    obtain rfl := List.length_eq_zero_iff.mp (Nat.le_zero.mp hlen)
    simp [addBytes, leValue]
  | cons d ds ih =>
    have hrest : vs ++ List.replicate (ds.length + 1 - vs.length) bv =
        vs.headD bv :: (vs.tail ++ List.replicate (ds.length - vs.tail.length) bv) := by
      cases vs with
      | nil => rfl
      | cons v vs => simp
    have htail : vs.tail.length ≤ ds.length := by
      rw [List.length_tail]
      exact Nat.sub_le_of_le_add hlen
    obtain ⟨hlength, hvalue⟩ := ih (addByte d (vs.headD bv) carry).2 htail
    have hbyte := addByte_spec d (vs.headD bv) carry
    refine ⟨congrArg Nat.succ hlength, ?_⟩
    rw [List.length_cons, hrest, leValue, leValue, Nat.pow_succ]
    simp only [addBytes, leValue]
    linarith

/-- The bytes of the operand as the loops read them. -/
def operand (b bi : BigInteger) : List UInt8 :=
  bi.data ++ List.replicate ((b.padded bi).length - bi.data.length) (fill bi.data)

theorem padded_eq (b bi : BigInteger) :
    b.padded bi = b.data ++ List.replicate (bi.size - b.size) (fill b.data) := by
  rw [padded, pad_eq_fill]

theorem length_padded (b bi : BigInteger) : (b.padded bi).length = max b.size bi.size := by
  rw [padded, List.length_append, List.length_replicate, Nat.add_comm, Nat.max_comm]
  exact Nat.sub_add_eq_max bi.size b.size

theorem length_operand (b bi : BigInteger) : (operand b bi).length = max b.size bi.size := by
  rw [operand, List.length_append, List.length_replicate, length_padded]
  exact Nat.add_sub_of_le (Nat.le_max_right b.size bi.size)

theorem padded_congr (b bi : BigInteger) :
    (256 : Int) ^ max b.size bi.size ∣ leValue (b.padded bi) - b.value := by
  have hcongr := extend_congr b.data (bi.size - b.size)
  rwa [← padded_eq, length_padded] at hcongr

theorem operand_congr (b bi : BigInteger) :
    (256 : Int) ^ max b.size bi.size ∣ leValue (operand b bi) - bi.value := by
  have hcongr := extend_congr bi.data ((b.padded bi).length - bi.data.length)
  rwa [← operand, length_operand] at hcongr

/-- The sum of two numbers that are not negative leaves no carry behind the longer one. -/
theorem no_carry (hb : ¬ Negative b.data) (hbi : ¬ Negative bi.data) :
    leValue (b.padded bi) + leValue (operand b bi) < 256 ^ max b.size bi.size := by
  have hpadded : ¬ Negative (b.padded bi) := by rwa [padded_eq, negative_extend]
  have hoperand : ¬ Negative (operand b bi) := by rwa [operand, negative_extend]
  rw [negative_iff, length_padded] at hpadded
  rw [negative_iff, length_operand] at hoperand
  omega

/-- The loop of `add`, in the size of the longer array. -/
theorem addBytes_operand (b bi : BigInteger) :
    (addBytes (fill bi.data) (b.padded bi) bi.data false).1.length = max b.size bi.size ∧
      leValue (addBytes (fill bi.data) (b.padded bi) bi.data false).1 +
          256 ^ max b.size bi.size *
            (addBytes (fill bi.data) (b.padded bi) bi.data false).2.toNat =
        leValue (b.padded bi) + leValue (operand b bi) := by
  have hlen : bi.data.length ≤ (b.padded bi).length := by
    rw [length_padded]
    exact Nat.le_max_right b.size bi.size
  have hspec := addBytes_spec (fill bi.data) (b.padded bi) false hlen
  rwa [← operand, length_padded, Bool.toNat_false, Nat.add_zero] at hspec

/-- The loop of `sub` adds the complement and one. -/
theorem addBytes_complement (b bi : BigInteger) :
    (b.sub bi).data.length = max b.size bi.size ∧
      ∃ carry : Bool, leValue (b.sub bi).data + 256 ^ max b.size bi.size * carry.toNat +
        leValue (operand b bi) = leValue (b.padded bi) + 256 ^ max b.size bi.size := by
  have hlen : (bi.data.map (~~~·)).length ≤ (b.padded bi).length := by
    rw [List.length_map, length_padded]
    exact Nat.le_max_right b.size bi.size
  have hspec := addBytes_spec (~~~fill bi.data) (b.padded bi) true hlen
  have hoperand : bi.data.map (~~~·) ++
      List.replicate ((b.padded bi).length - (bi.data.map (~~~·)).length) (~~~fill bi.data) =
        (operand b bi).map (~~~·) := by
    rw [operand, List.map_append, List.map_replicate, List.length_map]
  have hnot := leValue_map_not (operand b bi)
  rw [hoperand, length_padded, Bool.toNat_true] at hspec
  rw [length_operand] at hnot
  have hsub : (b.sub bi).data =
      (addBytes (~~~fill bi.data) (b.padded bi) (bi.data.map (~~~·)) true).1 := by
    rw [sub, pad_eq_fill]
  rw [← hsub] at hspec
  exact ⟨hspec.1, _, by rw [hspec.2]; omega⟩

/-- One bit more is never appended. -/
theorem add_data (b bi : BigInteger) :
    (b.add bi).data = (addBytes (fill bi.data) (b.padded bi) bi.data false).1 := by
  obtain ⟨-, hvalue⟩ := addBytes_operand b bi
  have hnopush : ¬ ((addBytes (fill bi.data) (b.padded bi) bi.data false).2 = true ∧
      ¬ (fill b.data ≠ 0 ∨ fill bi.data ≠ 0)) := by
    rintro ⟨hcarry, hneg⟩
    have hzero (bs : List UInt8) (h : ¬ fill bs ≠ 0) : ¬ Negative bs := by
      intro hbs
      rw [fill, if_pos hbs] at h
      exact h (by decide)
    have hlt := no_carry (hzero b.data fun h => hneg (Or.inl h))
      (hzero bi.data fun h => hneg (Or.inr h))
    rw [hcarry, Bool.toNat_true] at hvalue
    omega
  simp only [add, pad_eq_fill]
  rw [if_neg hnopush]

theorem add_value_iff (b bi : BigInteger) :
    (b.add bi).value = b.value + bi.value ↔ Fits (max b.size bi.size) (b.value + bi.value) := by
  obtain ⟨hlength, hvalue⟩ := addBytes_operand b bi
  obtain ⟨x, hx⟩ := padded_congr b bi
  obtain ⟨y, hy⟩ := operand_congr b bi
  rw [← add_data] at hlength hvalue
  generalize (addBytes (fill bi.data) (b.padded bi) bi.data false).2 = carry at hvalue
  rw [value, signed_eq_iff, hlength]
  refine ⟨x + y - carry.toNat, ?_⟩
  zify at hvalue
  rw [hlength]
  linarith

theorem sub_value_iff (b bi : BigInteger) :
    (b.sub bi).value = b.value - bi.value ↔ Fits (max b.size bi.size) (b.value - bi.value) := by
  obtain ⟨hlength, carry, hvalue⟩ := addBytes_complement b bi
  obtain ⟨x, hx⟩ := padded_congr b bi
  obtain ⟨y, hy⟩ := operand_congr b bi
  rw [value, signed_eq_iff, hlength]
  refine ⟨x - y + 1 - carry.toNat, ?_⟩
  zify at hvalue
  rw [hlength]
  linarith

/-- Sums and differences are right when the longer of the two arrays has room for them. -/
theorem add_sub_exact_iff (b bi : BigInteger) :
    ((b.add bi).value = b.value + bi.value ↔
        Fits (max b.size bi.size) (b.value + bi.value)) ∧
      ((b.sub bi).value = b.value - bi.value ↔
        Fits (max b.size bi.size) (b.value - bi.value)) :=
  ⟨add_value_iff b bi, sub_value_iff b bi⟩

/-- 127 and 1 are -128. -/
theorem add_not_exact :
    ¬ ∀ b bi : BigInteger,
      (b.add bi).value = b.value + bi.value ∧ (b.sub bi).value = b.value - bi.value := by
  intro hall
  have hadd := (hall ⟨[0x7f]⟩ ⟨[0x01]⟩).1
  revert hadd
  decide

end BigIntegerArithmetic
