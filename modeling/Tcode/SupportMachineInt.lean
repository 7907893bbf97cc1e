import Mathlib.Algebra.GroupWithZero.Nat
import Mathlib.Data.List.Basic

/-! # Machine integers and their bytes

Conversions to signed 32-bit and 64-bit numbers and to an unsigned 64-bit number, all
modulo their width, and little-endian coding of 32-bit numbers.
-/
namespace SupportMachineInt

/-- Conversion to a signed 32-bit number. -/
def toInt (x : Int) : Int := (x + 2147483648) % 4294967296 - 2147483648

/-- Conversion to a signed 64-bit number. -/
def toLong (x : Int) : Int := (x + 9223372036854775808) % 18446744073709551616 - 9223372036854775808

/-- Conversion to an unsigned 64-bit number. -/
def toSize (x : Int) : Nat := (x % 18446744073709551616).toNat

theorem toInt_of_range {x : Int} (hl : -2147483648 ≤ x) (hu : x < 2147483648) : toInt x = x := by
  unfold toInt
  omega

theorem toInt_toInt_add (x y : Int) : toInt (toInt x + y) = toInt (x + y) := by
  unfold toInt
  omega

theorem toInt_range (x : Int) : -2147483648 ≤ toInt x ∧ toInt x < 2147483648 := by
  unfold toInt
  omega

theorem toLong_of_range {x : Int} (hl : -9223372036854775808 ≤ x)
    (hu : x < 9223372036854775808) : toLong x = x := by
  unfold toLong
  omega

theorem toSize_of_range {x : Int} (hl : 0 ≤ x) (hu : x < 18446744073709551616) :
    (toSize x : Int) = x := by
  unfold toSize
  omega

theorem toSize_of_neg {x : Int} (hl : -18446744073709551616 ≤ x) (hu : x < 0) :
    (toSize x : Int) = x + 18446744073709551616 := by
  unfold toSize
  omega

theorem toSize_natCast {n : Nat} (h : n < 18446744073709551616) : toSize n = n := by
  unfold toSize
  omega

/-- Conversion to a signed 16-bit number. -/
def toShort (x : Int) : Int := (x + 32768) % 65536 - 32768

theorem toShort_of_range {x : Int} (hl : -32768 ≤ x) (hu : x < 32768) : toShort x = x := by
  unfold toShort
  omega

theorem toShort_range (x : Int) : -32768 ≤ toShort x ∧ toShort x < 32768 := by
  unfold toShort
  omega

/-- The value of bytes in little-endian order. -/
def leValue : List UInt8 → Nat
  | [] => 0
  | b :: bs => b.toNat + 256 * leValue bs

/-- The lowest `n` bytes of a number, lowest first. -/
def leBytesOf : Nat → Nat → List UInt8
  | 0, _ => []
  | n + 1, x => UInt8.ofNat (x % 256) :: leBytesOf n (x / 256)

@[simp] theorem leBytesOf_length (n x : Nat) : (leBytesOf n x).length = n := by
  induction n generalizing x with
  | zero => rfl
  | succ n ih => rw [leBytesOf, List.length_cons, ih]

theorem leValue_leBytesOf (n x : Nat) : leValue (leBytesOf n x) = x % 256 ^ n := by
  induction n generalizing x with
  | zero => rw [Nat.pow_zero, Nat.mod_one, leBytesOf, leValue]
  | succ n ih =>
    have hbyte : (UInt8.ofNat (x % 256)).toNat = x % 256 := by
      simp [Nat.mod_eq_of_lt (Nat.mod_lt x (by decide : 256 > 0))]
    rw [leBytesOf, leValue, hbyte, ih, Nat.pow_succ', Nat.mod_mul]

/-- The four bytes of a 32-bit number, lowest first. -/
def leBytes (x : Int) : List UInt8 :=
  [UInt8.ofNat (x % 256).toNat, UInt8.ofNat (x / 256 % 256).toNat,
    UInt8.ofNat (x / 65536 % 256).toNat, UInt8.ofNat (x / 16777216 % 256).toNat]

/-- The signed 32-bit number stored in four bytes. -/
def leInt (bs : List UInt8) : Int := toInt (leValue bs)

@[simp] theorem leBytes_length (x : Int) : (leBytes x).length = 4 := rfl

private theorem toNat_ofNat_byte {n : Nat} (h : n < 256) : (UInt8.ofNat n).toNat = n := by
  simp [Nat.mod_eq_of_lt h]

theorem leInt_leBytes {x : Int} (hl : -2147483648 ≤ x) (hu : x < 2147483648) :
    leInt (leBytes x) = x := by
  have h0 := toNat_ofNat_byte (n := (x % 256).toNat) (by omega)
  have h1 := toNat_ofNat_byte (n := (x / 256 % 256).toNat) (by omega)
  have h2 := toNat_ofNat_byte (n := (x / 65536 % 256).toNat) (by omega)
  have h3 := toNat_ofNat_byte (n := (x / 16777216 % 256).toNat) (by omega)
  simp only [leInt, leBytes, leValue, h0, h1, h2, h3, toInt]
  omega

theorem leBytes_leInt {bs : List UInt8} (h : bs.length = 4) : leBytes (leInt bs) = bs := by
  obtain ⟨a, b, c, d, rfl⟩ : ∃ a b c d, bs = [a, b, c, d] := by
    match bs, h with
    | [a, b, c, d], _ => exact ⟨a, b, c, d, rfl⟩
  have ha := a.toNat_lt
  have hb := b.toNat_lt
  have hc := c.toNat_lt
  have hd := d.toNat_lt
  have hbyte (x : UInt8) {n : Nat} (hn : n = x.toNat) : UInt8.ofNat n = x := by
    rw [hn, UInt8.ofNat_toNat]
  simp only [leInt, leBytes, leValue, toInt, List.cons.injEq, and_true]
  exact ⟨hbyte a (by omega), hbyte b (by omega), hbyte c (by omega), hbyte d (by omega)⟩

end SupportMachineInt
