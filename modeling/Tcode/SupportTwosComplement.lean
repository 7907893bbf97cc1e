import Mathlib.Algebra.Order.Group.Unbundled.Int
import Mathlib.Algebra.Ring.Divisibility.Basic
import Mathlib.Tactic.Linarith
import Mathlib.Tactic.Ring
import Tcode.SupportMachineInt

/-! # Two's complement numbers of any size

Bytes, lowest first, whose highest bit is the sign. No bytes at all are zero.
-/
namespace SupportTwosComplement

open SupportMachineInt

/-! ## Unsigned values -/

variable {bs cs : List UInt8} {n : Nat} {v : Int}

theorem leValue_append (bs cs : List UInt8) :
    leValue (bs ++ cs) = leValue bs + 256 ^ bs.length * leValue cs := by
  induction bs with
  | nil => simp [leValue]
  | cons b bs ih =>
    rw [List.cons_append, leValue, ih, leValue, List.length_cons, Nat.pow_succ]
    ring

theorem leValue_lt (bs : List UInt8) : leValue bs < 256 ^ bs.length := by
  induction bs with
  | nil => exact Nat.one_pos
  | cons b bs ih =>
    have hb := b.toNat_lt
    rw [leValue, List.length_cons, Nat.pow_succ]
    omega

@[simp] theorem leValue_replicate_zero (n : Nat) : leValue (List.replicate n 0) = 0 := by
  induction n with
  | zero => rfl
  | succ n ih => rw [List.replicate_succ, leValue, ih]; rfl

theorem leValue_replicate_max (n : Nat) : leValue (List.replicate n 255) + 1 = 256 ^ n := by
  induction n with
  | zero => rfl
  | succ n ih =>
    have hmax : (255 : UInt8).toNat = 255 := rfl
    rw [List.replicate_succ, leValue, Nat.pow_succ, ← ih, hmax]
    omega

theorem toNat_not (b : UInt8) : (~~~b).toNat = 255 - b.toNat := by
  rw [UInt8.toNat_not]
  rfl

theorem leValue_map_not (bs : List UInt8) :
    leValue (bs.map (~~~·)) + leValue bs + 1 = 256 ^ bs.length := by
  induction bs with
  | nil => rfl
  | cons b bs ih =>
    have hb := b.toNat_lt
    rw [List.map_cons, leValue, leValue, List.length_cons, Nat.pow_succ, ← ih, toNat_not]
    omega

theorem leValue_eq_zero_iff : leValue bs = 0 ↔ ∀ b ∈ bs, b = 0 := by
  induction bs with
  | nil => simp [leValue]
  | cons b bs ih =>
    have hb : b.toNat = 0 ↔ b = 0 := ⟨fun h => UInt8.toNat.inj h, fun h => congrArg UInt8.toNat h⟩
    rw [leValue, List.forall_mem_cons, ← ih, ← hb]
    omega

/-! ## The sign -/

def Negative (bs : List UInt8) : Prop := 128 ≤ (bs.getLastD 0).toNat

instance (bs : List UInt8) : Decidable (Negative bs) := inferInstanceAs (Decidable (_ ≤ _))

/-- The byte that a longer array of the same value is filled with. -/
def fill (bs : List UInt8) : UInt8 := if Negative bs then 255 else 0

def signed (bs : List UInt8) : Int := leValue bs - if Negative bs then 256 ^ bs.length else 0

/-- What `n` bytes can hold. -/
def Fits (n : Nat) (v : Int) : Prop := -256 ^ n ≤ 2 * v ∧ 2 * v < 256 ^ n

instance (n : Nat) (v : Int) : Decidable (Fits n v) := inferInstanceAs (Decidable (_ ∧ _))

theorem negative_iff : Negative bs ↔ 256 ^ bs.length ≤ 2 * leValue bs := by
  induction bs with
  | nil => decide
  | cons b bs ih =>
    have hb := b.toNat_lt
    rw [leValue, List.length_cons, Nat.pow_succ]
    cases bs with
    | nil =>
      rw [Negative, List.getLastD_cons]
      simp only [List.getLastD_nil, leValue, List.length_nil]
      omega
    | cons c cs =>
      have hlast : Negative (b :: c :: cs) ↔ Negative (c :: cs) := by
        rw [Negative, Negative, List.getLastD_cons, List.getLastD_cons, List.getLastD_cons]
      rw [hlast, ih, List.length_cons, Nat.pow_succ]
      omega

theorem signed_of_not_negative (h : ¬ Negative bs) : signed bs = leValue bs := by
  rw [signed, if_neg h, Int.sub_zero]

theorem signed_of_negative (h : Negative bs) : signed bs = leValue bs - 256 ^ bs.length := by
  rw [signed, if_pos h]

theorem negative_iff_signed : Negative bs ↔ signed bs < 0 := by
  have hlt : (leValue bs : Int) < 256 ^ bs.length := by exact_mod_cast leValue_lt bs
  by_cases h : Negative bs
  · rw [signed_of_negative h]
    exact iff_of_true h (by omega)
  · rw [signed_of_not_negative h]
    exact iff_of_false h (by omega)

theorem signed_fits (bs : List UInt8) : Fits bs.length (signed bs) := by
  have hlt : (leValue bs : Int) < 256 ^ bs.length := by exact_mod_cast leValue_lt bs
  by_cases h : Negative bs
  · have hle : (256 : Int) ^ bs.length ≤ 2 * leValue bs := by exact_mod_cast negative_iff.mp h
    rw [signed_of_negative h]
    constructor <;> omega
  · have hgt : (2 * leValue bs : Int) < 256 ^ bs.length := by
      exact_mod_cast Nat.lt_of_not_le (mt negative_iff.mpr h)
    rw [signed_of_not_negative h]
    constructor <;> omega

/-- The bytes and their number agree modulo the size. -/
theorem signed_congr (bs : List UInt8) : (256 : Int) ^ bs.length ∣ signed bs - leValue bs := by
  by_cases h : Negative bs
  · rw [signed_of_negative h]
    exact ⟨-1, by ring⟩
  · rw [signed_of_not_negative h]
    exact ⟨0, by ring⟩

/-- Bytes that are right modulo their size are right when there is enough room. -/
theorem signed_eq_iff (hcongr : (256 : Int) ^ bs.length ∣ leValue bs - v) :
    signed bs = v ↔ Fits bs.length v := by
  have hfits := signed_fits bs
  constructor
  · rintro rfl
    exact hfits
  · intro hv
    have hdvd : (256 : Int) ^ bs.length ∣ signed bs - v := by
      have := Int.dvd_add (signed_congr bs) hcongr
      rwa [show signed bs - leValue bs + (leValue bs - v) = signed bs - v by ring] at this
    have hsmall : |signed bs - v| < 256 ^ bs.length := by
      obtain ⟨hlow, hhigh⟩ := hfits
      obtain ⟨hlow', hhigh'⟩ := hv
      rw [abs_lt]
      omega
    have := Int.eq_zero_of_abs_lt_dvd hdvd hsmall
    omega

/-- More bytes of the sign are the same number. -/
theorem signed_extend (bs : List UInt8) (n : Nat) :
    signed (bs ++ List.replicate n (fill bs)) = signed bs := by
  have hlength : (bs ++ List.replicate n (fill bs)).length = bs.length + n := by simp
  have hpow : (256 : Int) ^ (bs.length + n) = 256 ^ bs.length * 256 ^ n := pow_add ..
  have hpos : (1 : Int) ≤ 256 ^ n := by exact_mod_cast Nat.one_le_pow n 256 (by decide)
  obtain ⟨hlow, hhigh⟩ := signed_fits bs
  rw [signed_eq_iff, hlength]
  · rw [Fits, hpow]
    constructor <;> nlinarith
  · rw [hlength, leValue_append, hpow]
    by_cases h : Negative bs
    · have hmax : (leValue (List.replicate n 255) : Int) = 256 ^ n - 1 := by
        have := leValue_replicate_max n
        have : (leValue (List.replicate n 255) : Int) + 1 = 256 ^ n := by exact_mod_cast this
        omega
      refine ⟨1, ?_⟩
      rw [fill, if_pos h, signed_of_negative h, Nat.cast_add, Nat.cast_mul, hmax]
      push_cast
      ring
    · refine ⟨0, ?_⟩
      rw [fill, if_neg h, signed_of_not_negative h, leValue_replicate_zero]
      push_cast
      ring

theorem negative_extend (bs : List UInt8) (n : Nat) :
    Negative (bs ++ List.replicate n (fill bs)) ↔ Negative bs := by
  rw [negative_iff_signed, signed_extend, negative_iff_signed]

theorem extend_congr (bs : List UInt8) (n : Nat) :
    (256 : Int) ^ (bs ++ List.replicate n (fill bs)).length ∣
      leValue (bs ++ List.replicate n (fill bs)) - signed bs := by
  have hcongr := signed_congr (bs ++ List.replicate n (fill bs))
  rw [signed_extend] at hcongr
  exact dvd_sub_comm.mp hcongr

end SupportTwosComplement
