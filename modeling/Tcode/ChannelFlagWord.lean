import Mathlib.Data.Nat.Bitwise

/-! # The word _flag

An atomic int holds the error bit, the close bit and, below them, the number of
references. `word` has the operations as the source makes them on the int; `counters`
keeps the three parts apart. While the number of references fits below the bits, the
word is the code of its parts and the operations agree.
-/
namespace ChannelFlagWord

inductive Bit where
  | error
  | close
  deriving DecidableEq, Repr

/-- The operations that are made on `_flag`, each of them atomic. -/
structure FlagWord (F : Type) where
  initial : F
  /-- `fetch_add( 1 )`. -/
  addRef : F → F
  /-- `fetch_sub( 1 )`. -/
  release : F → F
  isZero : F → Bool
  /-- `check_if_val_contains_bit`. -/
  contains : Bit → F → Bool
  /-- The exchange by which `reset_if_val_contains_bit` clears a bit that is set. -/
  reset : Bit → F → F
  references : F → Nat

def errorFlag : BitVec 32 := 0x10000000#32

def closeFlag : BitVec 32 := 0x20000000#32

def Bit.mask : Bit → BitVec 32
  | .error => errorFlag
  | .close => closeFlag

def word : FlagWord (BitVec 32) where
  initial := errorFlag ||| closeFlag
  addRef w := w + 1
  release w := w - 1
  isZero w := w == 0
  contains b w := w &&& b.mask == b.mask
  reset b w := w ^^^ b.mask
  references w := w.toNat % 268435456

structure Counters where
  refs : Nat
  error : Bool
  close : Bool
  deriving DecidableEq, Repr

def counters : FlagWord Counters where
  initial := ⟨0, true, true⟩
  addRef c := { c with refs := c.refs + 1 }
  release c := { c with refs := c.refs - 1 }
  isZero c := c.refs == 0 && !c.error && !c.close
  contains
    | .error, c => c.error
    | .close, c => c.close
  reset
    | .error, c => { c with error := !c.error }
    | .close, c => { c with close := !c.close }
  references c := c.refs

/-- The two bits above the references. -/
def Counters.bits (c : Counters) : Nat := c.error.toNat + 2 * c.close.toNat

def encode (c : Counters) : BitVec 32 := BitVec.ofNat 32 (2 ^ 28 * c.bits + c.refs)

theorem Counters.bits_lt (c : Counters) : c.bits < 4 := by
  have he := Bool.toNat_le c.error
  have hc := Bool.toNat_le c.close
  unfold bits
  omega

theorem encode_toNat {c : Counters} (h : c.refs < 268435456) :
    (encode c).toNat = 2 ^ 28 * c.bits + c.refs := by
  have hbits := c.bits_lt
  rw [encode, BitVec.toNat_ofNat]
  exact Nat.mod_eq_of_lt (by omega)

theorem encode_initial : encode counters.initial = word.initial := by decide

theorem encode_addRef {c : Counters} (h : c.refs + 1 < 268435456) :
    word.addRef (encode c) = encode (counters.addRef c) := by
  have hbits := c.bits_lt
  have hnext : (encode (counters.addRef c)).toNat = 2 ^ 28 * c.bits + (c.refs + 1) :=
    encode_toNat h
  apply BitVec.eq_of_toNat_eq
  rw [hnext]
  have hone : (1 : BitVec 32).toNat = 1 := rfl
  simp only [word, BitVec.toNat_add, hone, encode_toNat (Nat.lt_of_succ_lt h)]
  omega

theorem encode_release {c : Counters} (h : c.refs < 268435456) (hpos : 0 < c.refs) :
    word.release (encode c) = encode (counters.release c) := by
  have hbits := c.bits_lt
  have hnext : (encode (counters.release c)).toNat = 2 ^ 28 * c.bits + (c.refs - 1) :=
    encode_toNat (Nat.lt_of_le_of_lt (Nat.sub_le _ _) h)
  apply BitVec.eq_of_toNat_eq
  rw [hnext]
  have hone : (1 : BitVec 32).toNat = 1 := rfl
  simp only [word, BitVec.toNat_sub, hone, encode_toNat h]
  omega

theorem encode_isZero {c : Counters} (h : c.refs < 268435456) :
    word.isZero (encode c) = counters.isZero c := by
  have hzero : encode c = 0 ↔ 2 ^ 28 * c.bits + c.refs = 0 := by
    rw [← encode_toNat h, ← BitVec.toNat_inj]
    rfl
  rw [Bool.eq_iff_iff]
  simp only [word, counters, beq_iff_eq, hzero, Counters.bits]
  cases c.error <;> cases c.close <;> simp

theorem encode_references {c : Counters} (h : c.refs < 268435456) :
    word.references (encode c) = counters.references c := by
  simp only [word, counters, encode_toNat h]
  omega

/-! ## The bits above the references -/

theorem and_high {r : Nat} (h : r < 2 ^ 28) (m n : Nat) :
    (2 ^ 28 * m + r) &&& (2 ^ 28 * n) = 2 ^ 28 * (m &&& n) := by
  apply Nat.eq_of_testBit_eq
  intro i
  have hn := Nat.testBit_two_pow_mul_add n (Nat.two_pow_pos 28) i
  have hmn := Nat.testBit_two_pow_mul_add (m &&& n) (Nat.two_pow_pos 28) i
  rw [Nat.add_zero] at hn hmn
  rw [Nat.testBit_and, Nat.testBit_two_pow_mul_add m h, hn, hmn]
  split <;> simp

theorem xor_high {r : Nat} (h : r < 2 ^ 28) (m n : Nat) :
    (2 ^ 28 * m + r) ^^^ (2 ^ 28 * n) = 2 ^ 28 * (m ^^^ n) + r := by
  apply Nat.eq_of_testBit_eq
  intro i
  have hn := Nat.testBit_two_pow_mul_add n (Nat.two_pow_pos 28) i
  rw [Nat.add_zero] at hn
  rw [Nat.testBit_xor, Nat.testBit_two_pow_mul_add m h, hn,
    Nat.testBit_two_pow_mul_add (m ^^^ n) h]
  split <;> simp

/-- The number that a mask is, counted in the lowest bit above the references. -/
def Bit.code : Bit → Nat
  | .error => 1
  | .close => 2

theorem Bit.mask_toNat (b : Bit) : b.mask.toNat = 2 ^ 28 * b.code := by
  cases b <;> rfl

theorem encode_contains {c : Counters} (h : c.refs < 268435456) (b : Bit) :
    word.contains b (encode c) = counters.contains b c := by
  have hand : (encode c &&& b.mask == b.mask) = decide (c.bits &&& b.code = b.code) := by
    rw [Bool.eq_iff_iff, beq_iff_eq, decide_eq_true_iff, ← BitVec.toNat_inj, BitVec.toNat_and,
      encode_toNat h, b.mask_toNat, and_high h, Nat.mul_right_inj (by decide)]
  show (encode c &&& b.mask == b.mask) = _
  rw [hand]
  obtain ⟨refs, error, close⟩ := c
  cases b <;> cases error <;> cases close <;> simp [Counters.bits, Bit.code, counters]

theorem encode_reset {c : Counters} (h : c.refs < 268435456) (b : Bit) :
    word.reset b (encode c) = encode (counters.reset b c) := by
  have hrefs : (counters.reset b c).refs = c.refs := by cases b <;> rfl
  have hbits : (counters.reset b c).bits = c.bits ^^^ b.code := by
    obtain ⟨refs, error, close⟩ := c
    cases b <;> cases error <;> cases close <;> simp [Counters.bits, Bit.code, counters]
  apply BitVec.eq_of_toNat_eq
  rw [encode_toNat (hrefs ▸ h), hbits, hrefs]
  simp only [word, BitVec.toNat_xor, encode_toNat h, b.mask_toNat, xor_high h]

end ChannelFlagWord
