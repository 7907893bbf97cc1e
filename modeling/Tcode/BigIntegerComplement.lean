import Tcode.BigIntegerArithmetic

/-! # Complements of big_integer

A number and its complement are opposite, but for the empty array, whose complement is one.
-/
namespace BigIntegerComplement

open SupportMachineInt SupportTwosComplement BigIntegerArithmetic BigIntegerArithmetic.BigInteger

variable {b : BigInteger}

/-! ## Adding a byte at a place -/

theorem addCarry_spec (ds : List UInt8) (val : UInt8) :
    (addCarry ds val).1.length = ds.length ∧
      leValue (addCarry ds val).1 + 256 ^ ds.length * (addCarry ds val).2.toNat =
        leValue ds + val.toNat := by
  induction ds generalizing val with
  | nil => simp [addCarry, leValue]
  | cons d ds ih =>
    have hd := d.toNat_lt
    have hv := val.toNat_lt
    have hsum : (d + val).toNat = (d.toNat + val.toNat) % 256 := UInt8.toNat_add d val
    by_cases hlt : d + val < val
    · obtain ⟨hlength, hvalue⟩ := ih 1
      have hstep : addCarry (d :: ds) val =
          ((d + val) :: (addCarry ds 1).1, (addCarry ds 1).2) := by
        simp only [addCarry, if_pos hlt]
        rfl
      have hone : (1 : UInt8).toNat = 1 := rfl
      rw [UInt8.lt_iff_toNat_lt] at hlt
      rw [hone] at hvalue
      rw [hstep, leValue, leValue, List.length_cons, List.length_cons, hlength, Nat.pow_succ]
      refine ⟨rfl, ?_⟩
      have hbyte : (d + val).toNat + 256 = d.toNat + val.toNat := by omega
      linarith
    · have hstep : addCarry (d :: ds) val = ((d + val) :: ds, 0) := by
        simp only [addCarry, if_neg hlt, if_true]
      rw [UInt8.lt_iff_toNat_lt] at hlt
      have hbyte : (d + val).toNat = d.toNat + val.toNat := by omega
      rw [hstep, leValue, leValue, hbyte]
      exact ⟨rfl, by rw [UInt8.toNat_zero]; omega⟩

/-- The array with place `idx`, and the bytes from this place on with `val` added. -/
theorem addAt_bytes (data : List UInt8) (val : UInt8) {idx : Nat} (hidx : idx < data.length) :
    (data.take idx ++ (addCarry (data.drop idx) val).1).length = data.length ∧
      leValue (data.take idx ++ (addCarry (data.drop idx) val).1) +
          256 ^ data.length * (addCarry (data.drop idx) val).2.toNat =
        leValue data + 256 ^ idx * val.toNat := by
  obtain ⟨hlength, hvalue⟩ := addCarry_spec (data.drop idx) val
  have htake : (data.take idx).length = idx := List.length_take_of_le (Nat.le_of_lt hidx)
  have hsplit := leValue_append (data.take idx) (data.drop idx)
  have hpow : 256 ^ data.length = 256 ^ idx * 256 ^ (data.length - idx) := by
    rw [← Nat.pow_add, Nat.add_sub_of_le (Nat.le_of_lt hidx)]
  rw [List.take_append_drop, htake] at hsplit
  rw [List.length_drop] at hlength hvalue
  refine ⟨?_, ?_⟩
  · rw [List.length_append, htake, hlength]
    omega
  · rw [leValue_append, htake, hsplit, hpow]
    calc leValue (data.take idx) + 256 ^ idx * leValue (addCarry (data.drop idx) val).1 +
          256 ^ idx * 256 ^ (data.length - idx) * (addCarry (data.drop idx) val).2.toNat
        = leValue (data.take idx) + 256 ^ idx * (leValue (addCarry (data.drop idx) val).1 +
            256 ^ (data.length - idx) * (addCarry (data.drop idx) val).2.toNat) := by ring
      _ = leValue (data.take idx) + 256 ^ idx * leValue (data.drop idx) +
            256 ^ idx * val.toNat := by
          rw [hvalue]
          ring

theorem negative_append_zero (bs : List UInt8) : ¬ Negative (bs ++ [0]) := by
  rw [Negative, List.getLastD_concat]
  decide

/-- What is added to a number that is not negative is added exactly. -/
theorem addAt_value (hb : ¬ Negative b.data) (val : UInt8) (idx : Nat) :
    leValue (b.addAt val idx).data = leValue b.data + 256 ^ idx * val.toNat ∧
      ¬ Negative (b.addAt val idx).data := by
  have hsign : ¬ b.sign < 0 := mt sign_neg_iff.mp hb
  generalize hdata : b.data ++ List.replicate (idx + 1 - b.size) 0 = data
  have hvalue : leValue data = leValue b.data := by
    rw [← hdata, leValue_append, leValue_replicate_zero, Nat.mul_zero, Nat.add_zero]
  have hidx : idx < data.length := by
    rw [← hdata, List.length_append, List.length_replicate, size]
    omega
  obtain ⟨hlength, hadded⟩ := addAt_bytes data val hidx
  generalize hout : data.take idx ++ (addCarry (data.drop idx) val).1 = out at hlength hadded
  generalize hcarry : (addCarry (data.drop idx) val).2 = carry at hadded
  -- A carry behind the last byte becomes a byte of its own.
  generalize hpushed : (if carry ≠ 0 then out ++ [carry] else out) = pushed
  have hsum : leValue pushed = leValue b.data + 256 ^ idx * val.toNat := by
    rw [← hvalue, ← hadded, ← hpushed, ← hlength]
    split_ifs with hzero
    · rw [leValue_append, leValue, leValue, Nat.mul_zero, Nat.add_zero]
    · rw [not_not.mp hzero, UInt8.toNat_zero, Nat.mul_zero, Nat.add_zero]
  have haddAt : b.addAt val idx =
      if sign ⟨pushed⟩ < 0 then ⟨pushed ++ [0]⟩ else ⟨pushed⟩ := by
    simp only [addAt, hsign, if_false, hdata, hout, hcarry, not_false_eq_true, true_and, hpushed]
  rw [haddAt]
  split_ifs with hneg
  · refine ⟨?_, negative_append_zero pushed⟩
    rw [leValue_append, hsum]
    simp [leValue]
  · exact ⟨hsum, mt sign_neg_iff.mpr hneg⟩

theorem addAt_ne_nil (b : BigInteger) (val : UInt8) (idx : Nat) : (b.addAt val idx).data ≠ [] := by
  generalize hdata : b.data ++ List.replicate (idx + 1 - b.size)
    (if b.sign < 0 then kMask else 0) = data
  have hidx : idx < data.length := by
    rw [← hdata, List.length_append, List.length_replicate, size]
    omega
  obtain ⟨hlength, -⟩ := addAt_bytes data val hidx
  have hout : data.take idx ++ (addCarry (data.drop idx) val).1 ≠ [] := by
    intro hnil
    rw [hnil, List.length_nil] at hlength
    omega
  simp only [addAt, hdata]
  split_ifs <;> simp [hout]

/-! ## Complements -/

/-- The complement of an array that is not empty has the other sign. -/
theorem negative_map_not {bs : List UInt8} (hne : bs ≠ []) :
    Negative (bs.map (~~~·)) ↔ ¬ Negative bs := by
  have hnot := leValue_map_not bs
  obtain ⟨n, hn⟩ := Nat.exists_eq_succ_of_ne_zero (mt List.length_eq_zero_iff.mp hne)
  rw [negative_iff, negative_iff, List.length_map, ← hnot]
  rw [hn, Nat.pow_succ] at hnot
  omega

/-- The most negative number has a byte more when it is complemented. -/
theorem value_twosComplement (hne : b.data ≠ []) : b.twosComplement.value = -b.value := by
  have hnot : (leValue b.not.data : Int) + leValue b.data + 1 = 256 ^ b.data.length := by
    exact_mod_cast leValue_map_not b.data
  have hone : (1 : UInt8).toNat = 1 := rfl
  by_cases hneg : Negative b.data
  · have hcomplement : ¬ Negative b.not.data := mt (negative_map_not hne).mp (not_not.mpr hneg)
    obtain ⟨hadded, hsign⟩ := addAt_value hcomplement 1 0
    rw [hone, Nat.pow_zero, Nat.mul_one] at hadded
    rw [twosComplement, value, signed_of_not_negative hsign, hadded, value,
      signed_of_negative hneg]
    push_cast
    linarith
  · have hcomplement : Negative b.not.data := (negative_map_not hne).mpr hneg
    have hsign : b.not.sign < 0 := sign_neg_iff.mpr hcomplement
    have hsize : b.not.data.length = b.data.length := List.length_map ..
    have hadd : b.twosComplement = ⟨(addCarry b.not.data 1).1⟩ := by
      have hpad : 0 + 1 - b.not.size = 0 := by
        have := List.length_pos_iff.mpr hne
        rw [size]
        omega
      simp [twosComplement, addAt, hsign, hpad]
    obtain ⟨hlength, hadded⟩ := addCarry_spec b.not.data 1
    rw [hsize] at hlength hadded
    rw [hone] at hadded
    obtain ⟨hlow, hhigh⟩ := signed_fits b.data
    rw [hadd, value, value, signed_eq_iff, hlength]
    · constructor
      · linarith
      · rw [signed_of_not_negative hneg] at hlow ⊢
        have hpos : (0 : Int) < 256 ^ b.data.length := by positivity
        omega
    · refine ⟨1 - (addCarry b.not.data 1).2.toNat, ?_⟩
      zify at hadded
      rw [hlength, signed_of_not_negative hneg]
      linarith

theorem twosComplement_ne_nil (b : BigInteger) : b.twosComplement.data ≠ [] :=
  addAt_ne_nil b.not 1 0

/-- The number without its sign. -/
def magnitude (b : BigInteger) : BigInteger := if b.sign < 0 then b.twosComplement else b

theorem ne_nil_of_negative (h : Negative b.data) : b.data ≠ [] := by
  intro hnil
  rw [hnil] at h
  revert h
  decide

theorem magnitude_spec (b : BigInteger) :
    ¬ Negative (magnitude b).data ∧ (leValue (magnitude b).data : Int) = |b.value| := by
  by_cases hneg : Negative b.data
  · have hsign := sign_neg_iff.mpr hneg
    have hvalue := value_twosComplement (ne_nil_of_negative hneg)
    have hlt : b.value < 0 := negative_iff_signed.mp hneg
    have hpos : ¬ Negative b.twosComplement.data := by
      rw [negative_iff_signed, ← value, hvalue]
      omega
    rw [magnitude, if_pos hsign, ← signed_of_not_negative hpos, ← value, hvalue, abs_of_neg hlt]
    exact ⟨hpos, rfl⟩
  · have hsign := mt sign_neg_iff.mp hneg
    have hle : 0 ≤ b.value := Int.not_lt.mp (mt negative_iff_signed.mpr hneg)
    rw [magnitude, if_neg hsign, ← signed_of_not_negative hneg, ← value, abs_of_nonneg hle]
    exact ⟨hneg, rfl⟩

/-- Complemented a second time it is what it was. -/
theorem value_restored (b : BigInteger) :
    (if b.sign < 0 then (magnitude b).twosComplement else magnitude b).value = b.value := by
  rw [magnitude]
  split_ifs with hneg
  · have hne := ne_nil_of_negative (sign_neg_iff.mp hneg)
    rw [value_twosComplement (twosComplement_ne_nil b), value_twosComplement hne, neg_neg]
  · rfl

end BigIntegerComplement
