import Mathlib.Data.Int.ModEq
import Mathlib.Data.List.DropRight
import Tcode.BigIntegerProduct
import Tcode.BigIntegerShift

/-! # Machine words and sizes of big_integer

An `int` becomes four bytes and the lowest bytes become a word again. Beside these stand the
product with a single byte and `shrink_to_fit`.
-/
namespace BigIntegerConversions

open SupportMachineInt SupportTwosComplement BigIntegerArithmetic BigIntegerArithmetic.BigInteger
open BigIntegerComplement BigIntegerProduct BigIntegerShift

/-- The loop of the constructor, with `n` bytes to go. -/
def pushBytes : Nat → Int → List UInt8
  | 0, _ => []
  | n + 1, value => UInt8.ofNat (value % 256).toNat :: pushBytes n (value / 256)

/-- `big_integer( value )`. -/
def ofInt (value : Int) : BigInteger := ⟨pushBytes 4 value⟩

/-- The loop of `get_low_uint32_value` and `get_low_uint64_value`, from the last byte down, for a
word of `n` bytes. -/
def lowWord (n : Nat) (bytes : List UInt8) : Nat :=
  bytes.foldr (fun d value => (value <<< 8) % 2 ^ (8 * n) ||| d.toNat) 0

/-- The loop starts at the smaller one of `n` and the last place, which an array without bytes does
not have. -/
def getLow (n : Nat) (b : BigInteger) : Option Nat :=
  if b.data = [] then none else some (lowWord n (b.data.take (min n (b.size - 1) + 1)))

def getLowUint32Value (b : BigInteger) : Option Nat := getLow 4 b

def getLowUint64Value (b : BigInteger) : Option Nat := getLow 8 b

/-- `mul( val )`: the row of a product that has no other. -/
def mulByte (b : BigInteger) (val : UInt8) : BigInteger := mulRow val 0 (validBytes b) ⟨[]⟩

def shrinkToFit (b : BigInteger) : BigInteger :=
  let data := b.data.rdropWhile (· = 0)
  if 0 < b.sign ∧ kMask / 2 < data.getLastD 0 then ⟨data ++ [0]⟩ else ⟨data⟩

variable {b : BigInteger} {bytes : List UInt8} {n : Nat} {val : UInt8}

/-! ## Words -/

theorem pushBytes_length (n : Nat) (value : Int) : (pushBytes n value).length = n := by
  induction n generalizing value with
  | zero => rfl
  | succ n ih => rw [pushBytes, List.length_cons, ih]

theorem pushBytes_congr (n : Nat) (value : Int) :
    (256 : Int) ^ n ∣ leValue (pushBytes n value) - value := by
  induction n generalizing value with
  | zero => exact one_dvd _
  | succ n ih =>
    have hbyte : ((UInt8.ofNat (value % 256).toNat).toNat : Int) = value % 256 := by
      rw [UInt8.toNat_ofNat']
      omega
    have hdiff : (leValue (pushBytes (n + 1) value) : Int) - value =
        256 * (leValue (pushBytes n (value / 256)) - value / 256) := by
      rw [pushBytes, leValue, Nat.cast_add, Nat.cast_mul, hbyte]
      omega
    rw [hdiff, pow_succ']
    exact mul_dvd_mul_left 256 (ih (value / 256))

/-- The constructor is exact for the numbers of four bytes. -/
theorem ofInt_value_iff (value : Int) : (ofInt value).value = value ↔ Fits 4 value := by
  have hcongr := pushBytes_congr 4 value
  rw [← pushBytes_length 4 value] at hcongr
  have heq := signed_eq_iff hcongr
  rwa [pushBytes_length] at heq

theorem pow_word (n : Nat) : (2 : Nat) ^ (8 * n) = 256 ^ n := Nat.pow_mul 2 8 n

theorem lowWord_eq (hn : 0 < n) (bytes : List UInt8) :
    lowWord n bytes = leValue bytes % 256 ^ n := by
  induction bytes with
  | nil => rw [leValue, Nat.zero_mod]; rfl
  | cons d bytes ih =>
    obtain ⟨m, rfl⟩ : ∃ m, n = m + 1 := ⟨n - 1, by omega⟩
    have hd := d.toNat_lt
    have hpow : (256 : Nat) ^ (m + 1) = 256 * 256 ^ m := Nat.pow_succ'
    have hlow : (d.toNat + 256 * leValue bytes) % 256 = d.toNat := by omega
    have hhigh : (d.toNat + 256 * leValue bytes) / 256 = leValue bytes := by omega
    have hshift : (lowWord (m + 1) bytes <<< 8) % 2 ^ (8 * (m + 1)) =
        256 * (leValue bytes % 256 ^ m) := by
      have hbits : (2 : Nat) ^ 8 = 256 := rfl
      rw [ih, Nat.shiftLeft_eq, pow_word, hbits, Nat.mul_comm, hpow, Nat.mul_mod_mul_left,
        Nat.mod_mod_of_dvd _ (Nat.dvd_mul_left _ 256)]
    have hcons : lowWord (m + 1) (d :: bytes) =
        (lowWord (m + 1) bytes <<< 8) % 2 ^ (8 * (m + 1)) ||| d.toNat := rfl
    rw [hcons, hshift, or_eq_add (s := 8) (Nat.dvd_mul_right 256 _) hd, leValue, hpow,
      Nat.mod_mul, hlow, hhigh, Nat.add_comm]

/-- One byte more than the word has is read, and shifted out again. -/
theorem getLow_eq (hn : 0 < n) (hne : b.data ≠ []) :
    getLow n b = some (leValue b.data % 256 ^ n) := by
  have hpos : 0 < b.size := List.length_pos_iff.mpr hne
  have hle : min n (b.size - 1) + 1 ≤ b.data.length := by
    have hsize : b.size = b.data.length := rfl
    omega
  rw [getLow, if_neg hne, lowWord_eq hn, leValue_take hle]
  by_cases hlong : n ≤ b.size - 1
  · rw [Nat.min_eq_left hlong, Nat.mod_mod_of_dvd _ (Nat.pow_dvd_pow 256 (Nat.le_succ n))]
  · have hall : min n (b.size - 1) + 1 = b.data.length := by
      have hsize : b.size = b.data.length := rfl
      omega
    rw [hall, Nat.mod_eq_of_lt (leValue_lt b.data)]

/-- The word is the number modulo its size, unless it has more bytes than a negative number. -/
theorem getLow_iff (hn : 0 < n) (b : BigInteger) :
    getLow n b = some (b.value % 256 ^ n).toNat ↔ b.data ≠ [] ∧ (0 ≤ b.value ∨ n ≤ b.size) := by
  by_cases hne : b.data = []
  · rw [getLow, if_pos hne]
    exact iff_of_false (Option.some_ne_none _).symm fun h => h.1 hne
  have hpos : (0 : Int) < 256 ^ n := Int.pow_pos (by decide)
  have hlow : ((b.value % 256 ^ n).toNat : Int) = b.value % 256 ^ n :=
    Int.toNat_of_nonneg (Int.emod_nonneg _ hpos.ne')
  rw [getLow_eq hn hne, Option.some_inj, ← Int.natCast_inj, hlow, Int.natCast_emod, Nat.cast_pow]
  by_cases hneg : Negative b.data
  · have hdiff : b.value - leValue b.data = -256 ^ b.data.length := by
      rw [value, signed_of_negative hneg]
      ring
    have hlt : ¬ 0 ≤ b.value := Int.not_le.mpr (negative_iff_signed.mp hneg)
    have hdvd : (256 : Int) ^ n ∣ 256 ^ b.data.length ↔ n ≤ b.data.length := by
      rw [← Nat.pow_dvd_pow_iff_le_right (x := 256) (by decide)]
      exact_mod_cast Iff.rfl
    have hcongr : (leValue b.data : Int) % 256 ^ n = b.value % 256 ^ n ↔ n ≤ b.data.length := by
      rw [← hdvd, ← dvd_neg, ← hdiff]
      exact Int.modEq_iff_dvd
    exact hcongr.trans ⟨fun h => ⟨hne, Or.inr h⟩, fun h => h.2.resolve_left hlt⟩
  · have hvalue : b.value = leValue b.data := signed_of_not_negative hneg
    have hnonneg : 0 ≤ b.value := Int.not_lt.mp (mt negative_iff_signed.mpr hneg)
    exact iff_of_true (by rw [hvalue]; rfl) ⟨hne, Or.inl hnonneg⟩

/-! ## Products with a byte -/

/-- The sign byte of a negative number is a digit like the others. -/
theorem mulByte_iff (b : BigInteger) (val : UInt8) :
    (mulByte b val).value = b.value * val.toNat ↔ 0 ≤ b.value ∨ val = 0 := by
  have hempty : ¬ Negative (BigInteger.mk []).data := by decide
  obtain ⟨hrow, hsign⟩ := mulRow_value val (validBytes b) 0 hempty
  have hproduct : (mulByte b val).value = val.toNat * leValue b.data := by
    rw [mulByte, value, signed_of_not_negative hsign, hrow, leValue_validBytes]
    simp [leValue]
  rw [hproduct]
  by_cases hneg : Negative b.data
  · have hpos : (0 : Int) < 256 ^ b.data.length := Int.pow_pos (by decide)
    have hlt : ¬ 0 ≤ b.value := Int.not_le.mpr (negative_iff_signed.mp hneg)
    have hdiff : b.value * val.toNat = val.toNat * leValue b.data -
        256 ^ b.data.length * val.toNat := by
      rw [value, signed_of_negative hneg]
      ring
    have hzero : (val.toNat : Int) = 0 ↔ val = 0 := by
      rw [Int.natCast_eq_zero]
      exact ⟨fun h => UInt8.toNat.inj h, fun h => congrArg UInt8.toNat h⟩
    rw [hdiff, ← hzero, or_iff_right hlt]
    constructor
    · intro h
      have hmul : (256 : Int) ^ b.data.length * val.toNat = 0 := by omega
      exact (mul_eq_zero.mp hmul).resolve_left hpos.ne'
    · intro h
      rw [h]
      ring
  · have hvalue : b.value = leValue b.data := signed_of_not_negative hneg
    have hnonneg : 0 ≤ b.value := Int.not_lt.mp (mt negative_iff_signed.mpr hneg)
    exact iff_of_true (by rw [hvalue, Int.mul_comm]) (Or.inl hnonneg)

/-! ## Sizes -/

theorem not_negative_of_zero (hzero : leValue bytes = 0) : ¬ Negative bytes := by
  have hpos : 0 < 256 ^ bytes.length := Nat.pow_pos (by decide)
  rw [negative_iff]
  omega

theorem sign_pos_iff_value : 0 < b.sign ↔ 0 < b.value := by
  by_cases hzero : leValue b.data = 0
  · have hsign : b.sign = 0 := by rw [sign, if_pos (validSize_eq_zero_iff.mpr hzero)]
    rw [hsign, value, signed_of_not_negative (not_negative_of_zero hzero), hzero]
    rfl
  by_cases hneg : Negative b.data
  · have hsign := sign_neg_iff.mpr hneg
    have hvalue : b.value < 0 := negative_iff_signed.mp hneg
    omega
  · have hsign : ¬ b.sign < 0 := mt sign_neg_iff.mp hneg
    have hne : b.sign ≠ 0 := by
      rw [sign, if_neg (mt validSize_eq_zero_iff.mp hzero)]
      split_ifs <;> decide
    rw [value, signed_of_not_negative hneg]
    omega

theorem leValue_rdropWhile (bytes : List UInt8) :
    leValue (bytes.rdropWhile (· = 0)) = leValue bytes := by
  induction bytes using List.reverseRecOn with
  | nil => rfl
  | append_singleton bytes d ih =>
    rw [List.rdropWhile_concat]
    split_ifs with hd
    · rw [ih, leValue_append, of_decide_eq_true hd]
      simp [leValue]
    · rfl

/-- What is left in front of the zeros needs all of its bytes. -/
theorem pow_le_rdropWhile (bytes : List UInt8) :
    256 ^ (bytes.rdropWhile (· = 0)).length ≤ 256 * leValue bytes ∨
      bytes.rdropWhile (· = 0) = [] := by
  induction bytes using List.reverseRecOn with
  | nil => exact Or.inr rfl
  | append_singleton bytes d ih =>
    rw [← leValue_rdropWhile, List.rdropWhile_concat]
    split_ifs with hd
    · rwa [leValue_rdropWhile]
    · left
      have hpos : 0 < d.toNat := Nat.pos_of_ne_zero fun h => hd (decide_eq_true (UInt8.toNat.inj h))
      have hpow := Nat.le_mul_of_pos_right (256 ^ bytes.length) hpos
      rw [leValue_append, List.length_append, List.length_singleton, Nat.pow_succ, leValue, leValue,
        Nat.mul_zero, Nat.add_zero]
      omega

theorem rdropWhile_of_negative (h : Negative bytes) : bytes.rdropWhile (· = 0) = bytes := by
  rw [List.rdropWhile_eq_self_iff]
  intro hne hlast
  rw [Negative, List.getLastD_eq_getLast?, List.getLast?_eq_some_getLast hne, Option.getD_some,
    of_decide_eq_true hlast] at h
  exact absurd h (by decide)

theorem top_iff (bytes : List UInt8) : kMask / 2 < bytes.getLastD 0 ↔ Negative bytes := by
  rw [UInt8.lt_iff_toNat_lt, Negative]
  exact Iff.rfl

theorem shrinkToFit_of_negative (h : b.value < 0) : shrinkToFit b = b := by
  have hneg : Negative b.data := negative_iff_signed.mpr h
  have hsign : ¬ 0 < b.sign := by
    rw [sign_pos_iff_value]
    omega
  rw [shrinkToFit, rdropWhile_of_negative hneg, if_neg fun hpos => hsign hpos.1]

/-- A zero is put behind the bytes only where their top bit would be a sign. -/
theorem shrinkToFit_nonneg (h : 0 ≤ b.value) :
    (shrinkToFit b).value = b.value ∧
      ((256 : Int) ^ (shrinkToFit b).size ≤ 512 * b.value ∨ (shrinkToFit b).size = 0) := by
  have hvalue : b.value = leValue b.data :=
    signed_of_not_negative (mt negative_iff_signed.mp (Int.not_lt.mpr h))
  have hstrip := leValue_rdropWhile b.data
  have hlength := pow_le_rdropWhile b.data
  rw [shrinkToFit]
  generalize b.data.rdropWhile (· = 0) = data at hstrip hlength
  split_ifs with htop
  · have hneg := negative_iff.mp ((top_iff data).mp htop.2)
    have hzero : leValue (data ++ [0]) = leValue data := by
      rw [leValue_append]
      simp [leValue]
    have hpow : (256 : Int) ^ data.length ≤ 2 * leValue data := by exact_mod_cast hneg
    rw [value, signed_of_not_negative (negative_append_zero data), hzero, hstrip, hvalue]
    refine ⟨rfl, Or.inl ?_⟩
    rw [size, List.length_append, List.length_singleton, pow_succ, ← hstrip]
    omega
  · have hsign : ¬ Negative data := by
      by_cases hpos : 0 < b.value
      · exact mt (top_iff data).mpr fun hlast => htop ⟨sign_pos_iff_value.mpr hpos, hlast⟩
      · exact not_negative_of_zero (by omega)
    rw [value, signed_of_not_negative hsign, hstrip, hvalue]
    refine ⟨rfl, hlength.imp (fun hle => ?_) fun hnil => by rw [size, hnil, List.length_nil]⟩
    have hpow : (256 : Int) ^ data.length ≤ 256 * leValue b.data := by exact_mod_cast hle
    have hcast : (0 : Int) ≤ leValue b.data := Int.natCast_nonneg _
    have hsize : size ⟨data⟩ = data.length := rfl
    rw [hsize]
    omega

/-- `shrink_to_fit` keeps the number, and no array of it is shorter unless it is negative. -/
theorem shrinkToFit_spec (b : BigInteger) :
    (shrinkToFit b).value = b.value ∧
      (0 ≤ b.value → ∀ c : BigInteger, c.value = b.value → (shrinkToFit b).size ≤ c.size) ∧
      (b.value < 0 → shrinkToFit b = b) := by
  by_cases hneg : b.value < 0
  · have hsame := shrinkToFit_of_negative hneg
    exact ⟨by rw [hsame], fun h => absurd hneg (Int.not_lt.mpr h), fun _ => hsame⟩
  have hnonneg : 0 ≤ b.value := Int.not_lt.mp hneg
  obtain ⟨hvalue, hlength⟩ := shrinkToFit_nonneg hnonneg
  refine ⟨hvalue, fun _ c hc => ?_, fun h => absurd h hneg⟩
  rcases hlength with hle | hzero
  · have hfits : 2 * b.value < 256 ^ c.size := hc ▸ (signed_fits c.data).2
    have hlt : (256 : Int) ^ (shrinkToFit b).size < 256 ^ (c.size + 1) := by
      rw [pow_succ]
      omega
    have hlt' : 256 ^ (shrinkToFit b).size < 256 ^ (c.size + 1) := by exact_mod_cast hlt
    exact Nat.le_of_lt_succ ((Nat.pow_lt_pow_iff_right (by decide)).mp hlt')
  · rw [hzero]
    exact Nat.zero_le _

/-- The constructor is exact for what four bytes hold, a word for what is not negative or not
shorter, the product with a byte for what is not negative, and `shrink_to_fit` for everything. -/
theorem conversions_exact_iff (b : BigInteger) (val : UInt8) (value : Int) :
    ((ofInt value).value = value ↔ Fits 4 value) ∧
      (getLowUint32Value b = some (b.value % 256 ^ 4).toNat ↔
        b.data ≠ [] ∧ (0 ≤ b.value ∨ 4 ≤ b.size)) ∧
      (getLowUint64Value b = some (b.value % 256 ^ 8).toNat ↔
        b.data ≠ [] ∧ (0 ≤ b.value ∨ 8 ≤ b.size)) ∧
      ((mulByte b val).value = b.value * val.toNat ↔ 0 ≤ b.value ∨ val = 0) ∧
      (shrinkToFit b).value = b.value ∧
      (0 ≤ b.value → ∀ c : BigInteger, c.value = b.value → (shrinkToFit b).size ≤ c.size) ∧
      (b.value < 0 → shrinkToFit b = b) :=
  ⟨ofInt_value_iff value, getLow_iff (by decide) b, getLow_iff (by decide) b, mulByte_iff b val,
    shrinkToFit_spec b⟩

example : getLowUint32Value (shrinkToFit (mulByte (ofInt 300) 200)) = some 60000 := by decide

end BigIntegerConversions
