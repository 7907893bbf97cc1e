import Mathlib.Data.Nat.Bitwise
import Mathlib.Logic.Function.Iterate

/-! # Cyclic redundancy checks

The register of a reflected CRC is shifted bit by bit, and the polynomial is added when a bit
falls out. A step is linear, so eight of them are a shift by a byte and a table entry.
-/
namespace SupportCrc

variable {w : Nat} {poly c d : BitVec w}

def bitStep (poly c : BitVec w) : BitVec w :=
  if c.getLsbD 0 then (c >>> 1) ^^^ poly else c >>> 1

/-- The register after one byte. -/
def byteStep (poly c : BitVec w) (b : UInt8) : BitVec w :=
  (bitStep poly)^[8] (c ^^^ b.toBitVec.setWidth w)

/-- The register after bytes. -/
def register (poly c : BitVec w) (bytes : List UInt8) : BitVec w := bytes.foldl (byteStep poly) c

/-- The lowest byte of a register. -/
def low (c : BitVec w) : BitVec w := c &&& 255#w

theorem xor_right_comm (x y z : BitVec w) : (x ^^^ y) ^^^ z = (x ^^^ z) ^^^ y := by
  rw [BitVec.xor_assoc, BitVec.xor_comm y, BitVec.xor_assoc]

theorem bitStep_xor : bitStep poly (c ^^^ d) = bitStep poly c ^^^ bitStep poly d := by
  unfold bitStep
  rw [BitVec.getLsbD_xor, BitVec.ushiftRight_xor_distrib]
  cases c.getLsbD 0 with
  | false =>
    cases d.getLsbD 0 with
    | false => rfl
    | true => exact BitVec.xor_assoc _ _ _
  | true =>
    cases d.getLsbD 0 with
    | false => exact xor_right_comm _ _ _
    | true =>
      show _ = (c >>> 1 ^^^ poly) ^^^ (d >>> 1 ^^^ poly)
      rw [← BitVec.xor_assoc, xor_right_comm (c >>> 1) poly, BitVec.xor_assoc _ poly,
        BitVec.xor_self, BitVec.xor_zero]
      rfl

theorem iterate_xor (n : Nat) :
    (bitStep poly)^[n] (c ^^^ d) = (bitStep poly)^[n] c ^^^ (bitStep poly)^[n] d := by
  induction n generalizing c d with
  | zero => rfl
  | succ n ih =>
    rw [Function.iterate_succ_apply, bitStep_xor, ih, ← Function.iterate_succ_apply,
      ← Function.iterate_succ_apply]

/-- While no bit falls out, steps are a shift. -/
theorem iterate_shift {n : Nat} (h : ∀ i, i < n → c.getLsbD i = false) :
    (bitStep poly)^[n] c = c >>> n := by
  induction n generalizing c with
  | zero => rw [Function.iterate_zero, id, BitVec.ushiftRight_zero]
  | succ n ih =>
    have hstep : bitStep poly c = c >>> 1 := by
      rw [bitStep, h 0 (Nat.succ_pos n), if_neg Bool.false_ne_true]
    have hrest : ∀ i, i < n → (c >>> 1).getLsbD i = false := by
      intro i hi
      rw [BitVec.getLsbD_ushiftRight]
      exact h (1 + i) (by omega)
    rw [Function.iterate_succ_apply, hstep, ih hrest, ← BitVec.shiftRight_add, Nat.add_comm]

theorem getLsbD_low (i : Nat) : (low c).getLsbD i = (decide (i < 8) && c.getLsbD i) := by
  have hmask : (255#w).getLsbD i = (decide (i < w) && decide (i < 8)) := by
    rw [BitVec.getLsbD_ofNat]
    congr 1
    exact Nat.testBit_two_pow_sub_one 8 i
  rw [low, BitVec.getLsbD_and, hmask]
  rcases Nat.lt_or_ge i w with hi | hi
  · rw [decide_eq_true hi, Bool.true_and, Bool.and_comm]
  · rw [BitVec.getLsbD_of_ge c i hi, Bool.false_and, Bool.and_false]

theorem getLsbD_byte (b : UInt8) {i : Nat} (h : 8 ≤ i) :
    (b.toBitVec.setWidth w).getLsbD i = false := by
  rw [BitVec.getLsbD_setWidth, BitVec.getLsbD_of_ge b.toBitVec i h, Bool.and_false]

/-- The index of a table entry. -/
theorem byte_xor_low (b : UInt8) :
    b.toBitVec.setWidth w ^^^ low c = low (c ^^^ b.toBitVec.setWidth w) := by
  apply BitVec.eq_of_getLsbD_eq
  intro i hi
  rw [BitVec.getLsbD_xor, getLsbD_low, getLsbD_low, BitVec.getLsbD_xor]
  rcases Nat.lt_or_ge i 8 with h | h
  · rw [decide_eq_true h, Bool.true_and, Bool.true_and, Bool.xor_comm]
  · rw [decide_eq_false (Nat.not_lt.mpr h), Bool.false_and, Bool.false_and, getLsbD_byte b h]
    rfl

/-- Without its lowest byte, and a byte that was added there, a register is only shifted. -/
theorem shift_high (b : UInt8) :
    (bitStep poly)^[8] ((c ^^^ b.toBitVec.setWidth w) ^^^ low (c ^^^ b.toBitVec.setWidth w)) =
      c >>> 8 := by
  rw [iterate_shift]
  · apply BitVec.eq_of_getLsbD_eq
    intro i hi
    have hge : 8 ≤ 8 + i := Nat.le_add_right 8 i
    rw [BitVec.getLsbD_ushiftRight, BitVec.getLsbD_ushiftRight, BitVec.getLsbD_xor, getLsbD_low,
      decide_eq_false (Nat.not_lt.mpr hge), Bool.false_and, Bool.xor_false, BitVec.getLsbD_xor,
      getLsbD_byte b hge, Bool.xor_false]
  · intro i hi
    rw [BitVec.getLsbD_xor, getLsbD_low, decide_eq_true hi, Bool.true_and, Bool.xor_self]

/-- The step with a table of what eight bits leave of a byte. -/
theorem byteStep_eq (b : UInt8) : byteStep poly c b =
    c >>> 8 ^^^ (bitStep poly)^[8] (b.toBitVec.setWidth w ^^^ low c) := by
  have hsplit : c ^^^ b.toBitVec.setWidth w =
      ((c ^^^ b.toBitVec.setWidth w) ^^^ low (c ^^^ b.toBitVec.setWidth w)) ^^^
        low (c ^^^ b.toBitVec.setWidth w) := by
    rw [BitVec.xor_assoc, BitVec.xor_self, BitVec.xor_zero]
  rw [byteStep, byte_xor_low]
  calc (bitStep poly)^[8] (c ^^^ b.toBitVec.setWidth w)
      = (bitStep poly)^[8] (((c ^^^ b.toBitVec.setWidth w) ^^^
          low (c ^^^ b.toBitVec.setWidth w)) ^^^ low (c ^^^ b.toBitVec.setWidth w)) := by
        rw [← hsplit]
    _ = _ := by rw [iterate_xor, shift_high]

theorem register_append (c : BitVec w) (bytes rest : List UInt8) :
    register poly c (bytes ++ rest) = register poly (register poly c bytes) rest :=
  List.foldl_append

end SupportCrc
