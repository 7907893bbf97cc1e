import Tcode.BigIntegerArithmetic
import Tcode.SupportTwosComplementBits

/-! # Bitwise operations of big_integer

The array is made as long as that of the operand, and the loops go over the bytes of the operand
only: the bytes behind them stay as they are, whatever the sign of the operand.
-/
namespace BigIntegerBitwise

open SupportTwosComplement BigIntegerArithmetic BigIntegerArithmetic.BigInteger

/-- What `_or( bi )`, `_and( bi )` and `_xor( bi )` do with the operation of bytes `f`. -/
def bitwise (f : UInt8 → UInt8 → UInt8) (b bi : BigInteger) : BigInteger :=
  ⟨List.zipWith f (b.padded bi) bi.data ++ (b.padded bi).drop bi.size⟩

/-- `_or( bi )`. -/
def or (b bi : BigInteger) : BigInteger := bitwise (· ||| ·) b bi

/-- `_and( bi )`. -/
def and (b bi : BigInteger) : BigInteger := bitwise (· &&& ·) b bi

/-- `_xor( bi )`. -/
def xor (b bi : BigInteger) : BigInteger := bitwise (· ^^^ ·) b bi

variable {b bi : BigInteger} {f : UInt8 → UInt8 → UInt8} {g : Bool → Bool → Bool}

theorem length_le_padded (b bi : BigInteger) : bi.size ≤ (b.padded bi).length := by
  rw [length_padded]
  exact Nat.le_max_right b.size bi.size

theorem drop_padded (b bi : BigInteger) : (b.padded bi).drop bi.size = b.data.drop bi.size := by
  rw [padded_eq, List.drop_append, List.drop_replicate]
  have hnone : bi.size - b.size - (bi.size - b.data.length) = 0 := Nat.sub_self _
  rw [hnone, List.replicate_zero, List.append_nil]

theorem zipWith_same {l : List UInt8} {y : UInt8} (h : ∀ d ∈ l, f d y = d) :
    List.zipWith f l (List.replicate l.length y) = l := by
  induction l with
  | nil => rfl
  | cons d l ih =>
    rw [List.length_cons, List.replicate_succ, List.zipWith_cons_cons, h d List.mem_cons_self,
      ih fun e he => h e (List.mem_cons_of_mem d he)]

/-- Where the operation with the sign of the operand leaves the bytes behind it alone, it is done
to all bytes. -/
theorem bitwise_data (h : ∀ d ∈ b.data.drop bi.size, f d (fill bi.data) = d) :
    (bitwise f b bi).data = List.zipWith f (b.padded bi) (operand b bi) := by
  have hsplit := List.take_append_drop bi.size (b.padded bi)
  have hlength : ((b.padded bi).take bi.size).length = bi.data.length := by
    rw [List.length_take, Nat.min_eq_left (length_le_padded b bi)]
    rfl
  have hfront : List.zipWith f (b.padded bi) bi.data =
      List.zipWith f ((b.padded bi).take bi.size) bi.data := by
    conv_lhs => rw [← hsplit]
    have happend : List.zipWith f ((b.padded bi).take bi.size ++ (b.padded bi).drop bi.size)
        (bi.data ++ []) = List.zipWith f ((b.padded bi).take bi.size) bi.data ++
          List.zipWith f ((b.padded bi).drop bi.size) [] :=
      List.zipWith_append hlength
    rwa [List.append_nil, List.zipWith_nil_right, List.append_nil] at happend
  have hrest : List.zipWith f ((b.padded bi).drop bi.size)
      (List.replicate ((b.padded bi).length - bi.data.length) (fill bi.data)) =
      (b.padded bi).drop bi.size := by
    have hlen : (b.padded bi).length - bi.data.length = ((b.padded bi).drop bi.size).length :=
      List.length_drop.symm
    rw [← drop_padded] at h
    rw [hlen, zipWith_same h]
  conv_rhs => rw [← hsplit, operand]
  rw [List.zipWith_append hlength, hrest, bitwise, hfront]

/-- Where the result has the bits that it should have. -/
theorem bitwise_iff (hf : Bitwise f g) (hg : g false false = false) (b bi : BigInteger) :
    (∀ k, (bitwise f b bi).value.testBit k = g (b.value.testBit k) (bi.value.testBit k)) ↔
      ∀ d ∈ b.data.drop bi.size, f d (fill bi.data) = d := by
  constructor
  · intro h d hd
    obtain ⟨j, hj⟩ := List.mem_iff_getElem?.mp hd
    have hplace : b.data[bi.size + j]? = some d := by rwa [List.getElem?_drop] at hj
    have hresult : (bitwise f b bi).data.getD (bi.size + j) (fill (bitwise f b bi).data) = d := by
      have hfront : (List.zipWith f (b.padded bi) bi.data).length = bi.size := by
        rw [List.length_zipWith]
        exact Nat.min_eq_right (length_le_padded b bi)
      have hbehind : (bitwise f b bi).data[bi.size + j]? = some d := by
        rw [bitwise, List.getElem?_append_right (by omega), hfront, Nat.add_sub_cancel_left,
          drop_padded, hj]
      rw [List.getD_eq_getElem?_getD, hbehind, Option.getD_some]
    refine byte_eq_of_testBit fun t ht => ?_
    have hbit := h (8 * (bi.size + j) + t)
    have hdiv : (8 * (bi.size + j) + t) / 8 = bi.size + j := by omega
    have hmod : (8 * (bi.size + j) + t) % 8 = t := by omega
    have hnone : bi.data[bi.size + j]? = none := List.getElem?_eq_none (Nat.le_add_right _ _)
    rw [value, value, value, signed_testBit, signed_testBit, signed_testBit, hdiv, hmod, hresult,
      List.getD_eq_getElem?_getD, hplace, Option.getD_some, List.getD_eq_getElem?_getD, hnone,
      Option.getD_none, ← hf _ _ t ht] at hbit
    exact hbit.symm
  · intro h k
    have hlength : (b.padded bi).length = (operand b bi).length :=
      (length_padded b bi).trans (length_operand b bi).symm
    have hb : signed (b.padded bi) = b.value := by
      rw [padded_eq, signed_extend]
      rfl
    have hbi : signed (operand b bi) = bi.value := signed_extend _ _
    rw [value, bitwise_data h, signed_zipWith_testBit hf hg hlength, hb, hbi]

/-- The operation of numbers is that of their bits. -/
theorem value_eq_iff (hf : Bitwise f g) (hg : g false false = false) {v : Int}
    (hv : ∀ k, v.testBit k = g (b.value.testBit k) (bi.value.testBit k)) :
    (bitwise f b bi).value = v ↔ ∀ d ∈ b.data.drop bi.size, f d (fill bi.data) = d := by
  rw [← bitwise_iff hf hg]
  constructor
  · rintro rfl
    exact hv
  · exact fun h => eq_of_testBit fun k => (h k).trans (hv k).symm

/-- Each operation is that of two's complement numbers exactly where the sign of the operand would
not have changed the bytes behind it. -/
theorem bitwise_exact_iff (b bi : BigInteger) :
    ((or b bi).value = b.value.lor bi.value ↔
        ∀ d ∈ b.data.drop bi.size, d ||| fill bi.data = d) ∧
      ((and b bi).value = b.value.land bi.value ↔
        ∀ d ∈ b.data.drop bi.size, d &&& fill bi.data = d) ∧
      ((xor b bi).value = b.value.xor bi.value ↔
        ∀ d ∈ b.data.drop bi.size, d ^^^ fill bi.data = d) :=
  ⟨value_eq_iff bitwise_or rfl fun k => Int.testBit_lor _ _ k,
    value_eq_iff bitwise_and rfl fun k => Int.testBit_land _ _ k,
    value_eq_iff bitwise_xor rfl fun k => Int.testBit_lxor _ _ k⟩

/-- A longer number loses nothing to a shorter one that is not negative. -/
example : (or ⟨[1, 2, 3]⟩ ⟨[4]⟩).value = 197125 ∧ (and ⟨[1, 2, 3]⟩ ⟨[1]⟩).value ≠ 1 := by decide

end BigIntegerBitwise
