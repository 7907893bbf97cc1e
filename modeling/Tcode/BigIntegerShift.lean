import Tcode.BigIntegerDecimal

/-! # Shifts of big_integer

`shl` and `shr` keep the size of the array. To the left the number is multiplied modulo what the
array can hold, and to the right the bytes are divided without regard to the sign.
-/
namespace BigIntegerShift

open SupportMachineInt SupportTwosComplement BigIntegerArithmetic BigIntegerArithmetic.BigInteger
open BigIntegerDecimal

/-- Each byte shifted, with the bits that the next one loses. -/
def shiftOut (shift : Nat) : List UInt8 → List UInt8
  | [] => []
  | d :: ds =>
    (UInt8.ofNat (d.toNat >>> shift) |||
      UInt8.ofNat ((ds.headD 0).toNat <<< (kBits - shift))) :: shiftOut shift ds

/-- `shr( shift )`, which the source does from the lowest byte up in place. -/
def shr (b : BigInteger) (shift : Nat) : BigInteger :=
  let srcoffset := shift / kBits
  if b.size ≤ srcoffset then ⟨List.replicate b.size 0⟩
  else
    ⟨shiftOut (shift % kBits) (b.data.drop srcoffset) ++ List.replicate srcoffset 0⟩

variable {b : BigInteger} {bs ds : List UInt8} {d below : UInt8} {s n k x y : Nat}

/-! ## Bytes -/

theorem or_eq_add (hx : 2 ^ s ∣ x) (hy : y < 2 ^ s) : x ||| y = x + y := by
  obtain ⟨a, rfl⟩ := hx
  exact (Nat.two_pow_add_eq_or_of_lt hy a).symm

theorem pow_split (hs : s < 8) : 2 ^ s * 2 ^ (8 - s) = 256 := by
  rw [← Nat.pow_add, Nat.add_sub_cancel' (Nat.le_of_lt hs)]

theorem shifted_dvd (hs : s < 8) (d : UInt8) : 2 ^ s ∣ d.toNat * 2 ^ s % 256 :=
  (Nat.dvd_mod_iff (pow_split hs ▸ Nat.dvd_mul_right _ _)).mpr (Nat.dvd_mul_left _ _)

/-- A byte that is shifted to the left with the bits of the one below. -/
theorem shifted_left (hs : s < 8) (d below : UInt8) :
    (UInt8.ofNat (d.toNat <<< s) ||| UInt8.ofNat (below.toNat >>> (8 - s))).toNat =
      d.toNat * 2 ^ s % 256 + below.toNat / 2 ^ (8 - s) := by
  have hsplit := pow_split hs
  have hbelow : below.toNat / 2 ^ (8 - s) < 2 ^ s := by
    rw [Nat.div_lt_iff_lt_mul (Nat.two_pow_pos _), hsplit]
    exact below.toNat_lt
  have hbyte : 2 ^ s ≤ 256 := Nat.pow_le_pow_right (by decide) (show s ≤ 8 by omega)
  rw [UInt8.toNat_or, UInt8.toNat_ofNat', UInt8.toNat_ofNat', Nat.shiftLeft_eq,
    Nat.shiftRight_eq_div_pow, Nat.mod_eq_of_lt (a := below.toNat / _) (by omega)]
  exact or_eq_add (shifted_dvd hs d) hbelow

/-- A byte that is shifted to the right with the bits of the one above. -/
theorem shifted_right (hs : s < 8) (d above : UInt8) :
    (UInt8.ofNat (d.toNat >>> s) ||| UInt8.ofNat (above.toNat <<< (8 - s))).toNat =
      d.toNat / 2 ^ s + above.toNat % 2 ^ s * 2 ^ (8 - s) := by
  have hsplit := pow_split hs
  have hd : d.toNat / 2 ^ s < 2 ^ (8 - s) := by
    rw [Nat.div_lt_iff_lt_mul (Nat.two_pow_pos _), Nat.mul_comm, hsplit]
    exact d.toNat_lt
  have hbyte : 2 ^ (8 - s) ≤ 256 := Nat.pow_le_pow_right (by decide) (show 8 - s ≤ 8 by omega)
  have habove : above.toNat * 2 ^ (8 - s) % 256 = above.toNat % 2 ^ s * 2 ^ (8 - s) := by
    rw [← hsplit, Nat.mul_mod_mul_right]
  rw [UInt8.toNat_or, UInt8.toNat_ofNat', UInt8.toNat_ofNat', Nat.shiftLeft_eq,
    Nat.shiftRight_eq_div_pow, Nat.mod_eq_of_lt (a := d.toNat / _) (by omega), habove, Nat.or_comm,
    or_eq_add (Nat.dvd_mul_left _ _) hd, Nat.add_comm]

theorem shiftInto_value (hs : s < 8) (below : UInt8) (ds : List UInt8) :
    leValue (shiftInto s below ds) =
      (leValue ds * 2 ^ s + below.toNat / 2 ^ (8 - s)) % 256 ^ ds.length := by
  have hsplit := pow_split hs
  induction ds generalizing below with
  | nil => rw [List.length_nil, Nat.pow_zero, Nat.mod_one]; rfl
  | cons d ds ih =>
    have hcarry : below.toNat / 2 ^ (8 - s) < 2 ^ s := by
      rw [Nat.div_lt_iff_lt_mul (Nat.two_pow_pos _), hsplit]
      exact below.toNat_lt
    have hover : d.toNat / 2 ^ (8 - s) = d.toNat * 2 ^ s / 256 := by
      rw [← hsplit, Nat.mul_comm d.toNat, Nat.mul_div_mul_left _ _ (Nat.two_pow_pos s)]
    have hroom : d.toNat * 2 ^ s % 256 + below.toNat / 2 ^ (8 - s) < 256 := by
      obtain ⟨q, hq⟩ := shifted_dvd hs d
      have hlt : 2 ^ s * q < 2 ^ s * 2 ^ (8 - s) := by
        rw [← hq, hsplit]
        exact Nat.mod_lt _ (by decide)
      have hnext := Nat.mul_le_mul_left (2 ^ s) (Nat.lt_of_mul_lt_mul_left hlt)
      rw [Nat.mul_succ, hsplit, ← hq] at hnext
      omega
    have hall : leValue (d :: ds) * 2 ^ s + below.toNat / 2 ^ (8 - s) =
        (d.toNat * 2 ^ s % 256 + below.toNat / 2 ^ (8 - s)) +
          256 * (leValue ds * 2 ^ s + d.toNat / 2 ^ (8 - s)) := by
      rw [hover, leValue, Nat.add_mul, Nat.mul_assoc, Nat.mul_add]
      omega
    rw [shiftInto, leValue, kBits, shifted_left hs, ih, hall, List.length_cons, Nat.pow_succ',
      Nat.mod_mul, Nat.add_mul_mod_self_left, Nat.mod_eq_of_lt hroom,
      Nat.add_mul_div_left _ _ (by decide), Nat.div_eq_of_lt hroom, Nat.zero_add]

theorem shiftOut_length (s : Nat) (ds : List UInt8) : (shiftOut s ds).length = ds.length := by
  induction ds with
  | nil => rfl
  | cons d ds ih => rw [shiftOut, List.length_cons, ih, List.length_cons]

theorem headD_mod (hs : s < 8) (ds : List UInt8) :
    (ds.headD 0).toNat % 2 ^ s = leValue ds % 2 ^ s := by
  cases ds with
  | nil => rfl
  | cons d ds =>
    rw [leValue, ← pow_split hs, Nat.mul_assoc, Nat.add_mul_mod_self_left]
    rfl

theorem shiftOut_value (hs : s < 8) (ds : List UInt8) :
    leValue (shiftOut s ds) = leValue ds / 2 ^ s := by
  have hsplit := pow_split hs
  induction ds with
  | nil => exact (Nat.zero_div _).symm
  | cons d ds ih =>
    have hrest := Nat.div_add_mod (leValue ds) (2 ^ s)
    have hwhole : leValue (d :: ds) / 2 ^ s = d.toNat / 2 ^ s + 2 ^ (8 - s) * leValue ds := by
      rw [leValue, ← hsplit, Nat.mul_assoc, Nat.add_mul_div_left _ _ (Nat.two_pow_pos s)]
    rw [shiftOut, leValue, kBits, shifted_right hs, headD_mod hs, ih, hwhole, Nat.add_assoc]
    congr 1
    calc leValue ds % 2 ^ s * 2 ^ (8 - s) + 256 * (leValue ds / 2 ^ s)
        = 2 ^ (8 - s) * (2 ^ s * (leValue ds / 2 ^ s) + leValue ds % 2 ^ s) := by
          rw [← hsplit]
          ring
      _ = 2 ^ (8 - s) * leValue ds := by rw [hrest]

/-- The bytes in front of a place and those behind it. -/
theorem leValue_split (hk : k ≤ bs.length) :
    leValue bs = leValue (bs.take k) + 256 ^ k * leValue (bs.drop k) := by
  have happend := leValue_append (bs.take k) (bs.drop k)
  rwa [List.take_append_drop, List.length_take, Nat.min_eq_left hk] at happend

theorem leValue_take_lt (hk : k ≤ bs.length) : leValue (bs.take k) < 256 ^ k := by
  have hlt := leValue_lt (bs.take k)
  rwa [List.length_take, Nat.min_eq_left hk] at hlt

theorem leValue_drop (hk : k ≤ bs.length) : leValue (bs.drop k) = leValue bs / 256 ^ k := by
  rw [leValue_split hk, Nat.add_mul_div_left _ _ (Nat.pow_pos (by decide)),
    Nat.div_eq_of_lt (leValue_take_lt hk), Nat.zero_add]

theorem leValue_take (hk : k ≤ bs.length) : leValue (bs.take k) = leValue bs % 256 ^ k := by
  rw [leValue_split hk, Nat.add_mul_mod_self_left, Nat.mod_eq_of_lt (leValue_take_lt hk)]

/-! ## Numbers -/

theorem pow_bytes (n : Nat) : (2 : Nat) ^ n = 256 ^ (n / 8) * 2 ^ (n % 8) := by
  rw [show 256 = 2 ^ 8 from rfl, ← Nat.pow_mul, ← Nat.pow_add, Nat.div_add_mod]

theorem shl_all (h : b.size ≤ n / 8) : (shl b n).data = List.replicate b.size 0 :=
  congrArg data (if_pos h)

theorem shl_some (h : n / 8 < b.size) : (shl b n).data =
    List.replicate (n / 8) 0 ++ shiftInto (n % 8) 0 (b.data.take (b.size - n / 8)) :=
  congrArg data (if_neg (Nat.not_le_of_lt h))

theorem shr_all (h : b.size ≤ n / 8) : (shr b n).data = List.replicate b.size 0 :=
  congrArg data (if_pos h)

theorem shr_some (h : n / 8 < b.size) : (shr b n).data =
    shiftOut (n % 8) (b.data.drop (n / 8)) ++ List.replicate (n / 8) 0 :=
  congrArg data (if_neg (Nat.not_le_of_lt h))

theorem shl_length (b : BigInteger) (n : Nat) : (shl b n).data.length = b.size := by
  rcases Nat.lt_or_ge (n / 8) b.size with hlt | hle
  · have hk : b.size - n / 8 ≤ b.data.length := Nat.sub_le _ _
    rw [shl_some hlt, List.length_append, List.length_replicate, shiftInto_length,
      List.length_take, Nat.min_eq_left hk]
    omega
  · rw [shl_all hle, List.length_replicate]

theorem shr_length (b : BigInteger) (n : Nat) : (shr b n).data.length = b.size := by
  rcases Nat.lt_or_ge (n / 8) b.size with hlt | hle
  · rw [shr_some hlt, List.length_append, List.length_replicate, shiftOut_length,
      List.length_drop]
    exact Nat.sub_add_cancel (Nat.le_of_lt hlt)
  · rw [shr_all hle, List.length_replicate]

theorem shl_unsigned (b : BigInteger) (n : Nat) :
    leValue (shl b n).data = leValue b.data * 2 ^ n % 256 ^ b.size := by
  rcases Nat.lt_or_ge (n / 8) b.size with hlt | hle
  · have hk : b.size - n / 8 ≤ b.data.length := Nat.sub_le _ _
    have hroom : 256 ^ b.size = 256 ^ (n / 8) * 256 ^ (b.size - n / 8) := by
      rw [← Nat.pow_add, Nat.add_sub_cancel' (Nat.le_of_lt hlt)]
    have hzero : (0 : UInt8).toNat / 2 ^ (8 - n % 8) = 0 := Nat.zero_div _
    rw [shl_some hlt, leValue_append, leValue_replicate_zero, List.length_replicate,
      shiftInto_value (Nat.mod_lt n (by decide)), List.length_take, Nat.min_eq_left hk,
      leValue_take hk, Nat.zero_add, hzero, Nat.add_zero, hroom, pow_bytes n,
      Nat.mul_left_comm, Nat.mul_mod_mul_left, Nat.mod_mul_mod]
  · have hfull : 256 ^ b.size ∣ leValue b.data * 2 ^ n := by
      rw [pow_bytes]
      exact Dvd.dvd.mul_left (Dvd.dvd.mul_right (Nat.pow_dvd_pow 256 hle) _) _
    rw [shl_all hle, leValue_replicate_zero, Nat.mod_eq_zero_of_dvd hfull]

theorem shr_unsigned (b : BigInteger) (n : Nat) :
    leValue (shr b n).data = leValue b.data / 2 ^ n := by
  rcases Nat.lt_or_ge (n / 8) b.size with hlt | hle
  · rw [shr_some hlt, leValue_append, leValue_replicate_zero, Nat.mul_zero, Nat.add_zero,
      shiftOut_value (Nat.mod_lt n (by decide)), leValue_drop (Nat.le_of_lt hlt),
      Nat.div_div_eq_div_mul, pow_bytes n]
  · have hsmall : leValue b.data < 2 ^ n := by
      calc leValue b.data < 256 ^ b.size := leValue_lt b.data
        _ ≤ 256 ^ (n / 8) := Nat.pow_le_pow_right (by decide) hle
        _ ≤ 2 ^ n := by
          rw [pow_bytes n]
          exact Nat.le_mul_of_pos_right _ (Nat.two_pow_pos _)
    rw [shr_all hle, leValue_replicate_zero, Nat.div_eq_of_lt hsmall]

/-- A shift to the left multiplies as long as the product fits in the array. -/
theorem shl_value_iff (b : BigInteger) (n : Nat) :
    (shl b n).value = b.value * 2 ^ n ↔ Fits b.size (b.value * 2 ^ n) := by
  have hlength := shl_length b n
  have hcongr : (256 : Int) ^ b.size ∣ leValue (shl b n).data - b.value * 2 ^ n := by
    have hmod : (leValue (shl b n).data : Int) = leValue b.data * 2 ^ n % 256 ^ b.size := by
      exact_mod_cast shl_unsigned b n
    have hbytes := Dvd.dvd.mul_right (signed_congr b.data) (2 ^ n)
    have hsame : (leValue (shl b n).data : Int) - b.value * 2 ^ n =
        ((leValue b.data : Int) * 2 ^ n % 256 ^ b.size - leValue b.data * 2 ^ n) -
          (b.value - leValue b.data) * 2 ^ n := by
      rw [hmod]
      ring
    rw [hsame]
    exact Int.dvd_sub Int.dvd_emod_sub_self hbytes
  rw [← hlength] at hcongr ⊢
  exact signed_eq_iff hcongr

theorem shr_negative_iff : Negative (shr b n).data ↔ n = 0 ∧ Negative b.data := by
  have hlt := leValue_lt b.data
  rw [negative_iff, negative_iff, shr_length, shr_unsigned]
  cases n with
  | zero => simp [size]
  | succ n =>
    have hhalf : leValue b.data / 2 ^ (n + 1) ≤ leValue b.data / 2 := by
      rw [Nat.pow_succ', ← Nat.div_div_eq_div_mul]
      exact Nat.div_le_self _ _
    simp only [size, Nat.add_one_ne_zero, false_and, iff_false]
    omega

/-- A shift to the right divides what is not negative, rounding down. -/
theorem shr_value_iff (b : BigInteger) (n : Nat) :
    (shr b n).value = b.value / 2 ^ n ↔ 0 ≤ b.value ∨ n = 0 := by
  have hunsigned : (leValue (shr b n).data : Int) = leValue b.data / 2 ^ n := by
    exact_mod_cast shr_unsigned b n
  by_cases hb : Negative b.data
  · have hneg : b.value < 0 := negative_iff_signed.mp hb
    rcases Nat.eq_zero_or_pos n with rfl | hpos
    · refine iff_of_true ?_ (Or.inr rfl)
      have hsign : Negative (shr b 0).data := shr_negative_iff.mpr ⟨rfl, hb⟩
      rw [value, signed_of_negative hsign, value, signed_of_negative hb, hunsigned, shr_length]
      simp [size]
    · refine iff_of_false (fun heq => ?_) (by omega)
      have hsign : ¬ Negative (shr b n).data := fun h => by
        have := (shr_negative_iff.mp h).1
        omega
      have hlow : b.value / 2 ^ n < 0 := Int.ediv_neg_of_neg_of_pos hneg (by positivity)
      rw [← heq, value, signed_of_not_negative hsign] at hlow
      omega
  · have hsign : ¬ Negative (shr b n).data := fun h => hb (shr_negative_iff.mp h).2
    have hpos : 0 ≤ b.value := Int.not_lt.mp (mt negative_iff_signed.mpr hb)
    refine iff_of_true ?_ (Or.inl hpos)
    rw [value, signed_of_not_negative hsign, hunsigned, value, signed_of_not_negative hb]

/-- Both shifts, which are exact just then. -/
theorem shifts_exact_iff (b : BigInteger) (n : Nat) :
    ((shl b n).value = b.value * 2 ^ n ↔ Fits b.size (b.value * 2 ^ n)) ∧
      ((shr b n).value = b.value / 2 ^ n ↔ 0 ≤ b.value ∨ n = 0) ∧
      (shl b n).size = b.size ∧ (shr b n).size = b.size :=
  ⟨shl_value_iff b n, shr_value_iff b n, shl_length b n, shr_length b n⟩

/-- A shift to the left and back gives the number again, if nothing has left the array. -/
theorem shr_shl (hpos : 0 ≤ b.value) (hfits : Fits b.size (b.value * 2 ^ n)) :
    (shr (shl b n) n).value = b.value := by
  have hshl := (shl_value_iff b n).mpr hfits
  have hshr := (shr_value_iff (shl b n) n).mpr (Or.inl (by rw [hshl]; positivity))
  rw [hshr, hshl]
  exact Int.mul_ediv_cancel _ (by positivity)

example : (shr (shl ⟨[0x34, 0x12]⟩ 3) 3).value = 0x1234 := by decide

end BigIntegerShift
