import Mathlib.Data.Nat.Bitwise
import Mathlib.Data.Nat.Digits.Defs
import Tcode.BigIntegerComplement

/-! # Decimal text of big_integer

The digits are in base 100, lowest first. For each bit of the number, from the highest on, they
are doubled: a digit that would reach 100 is brought past 128 first, so that the shift carries.
-/
namespace BigIntegerDecimal

open SupportMachineInt SupportTwosComplement BigIntegerArithmetic BigIntegerArithmetic.BigInteger
open BigIntegerComplement

def kDDabbleBase : UInt8 := 50

def kDDabbleAdd : UInt8 := 78

/-- Each byte shifted, with the bits that leave the byte `below`. -/
def shiftInto (shift : Nat) (below : UInt8) : List UInt8 → List UInt8
  | [] => []
  | d :: ds =>
    (UInt8.ofNat (d.toNat <<< shift) ||| UInt8.ofNat (below.toNat >>> (kBits - shift))) ::
      shiftInto shift d ds

/-- `shl( shift )`, which the source does from the highest byte down in place. -/
def shl (b : BigInteger) (shift : Nat) : BigInteger :=
  let srcoffset := shift / kBits
  if b.size ≤ srcoffset then ⟨List.replicate b.size 0⟩
  else
    ⟨List.replicate srcoffset 0 ++
      shiftInto (shift % kBits) 0 (b.data.take (b.size - srcoffset))⟩

/-- `_or( val )`. -/
def or (b : BigInteger) (val : UInt8) : BigInteger :=
  match b.data with
  | [] => b
  | d :: ds => ⟨(d ||| val) :: ds⟩

def reserve (count : Nat) : BigInteger := ⟨List.replicate count 0⟩

def adjust (d : UInt8) : UInt8 := if kDDabbleBase ≤ d then d + kDDabbleAdd else d

/-- The body of the loops of `to_string`, for one bit of the number. -/
def dabble (print : BigInteger) (bit : Bool) : BigInteger :=
  let print : BigInteger := ⟨print.data.map adjust⟩
  let print := shl print 1
  if bit then or print 1 else print

/-- The bits of one byte below `bit`. -/
def dabbleBits (byte : UInt8) : Nat → BigInteger → BigInteger
  | 0, print => print
  | bit + 1, print => dabbleBits byte bit (dabble print (byte.toNat &&& 1 <<< bit ≠ 0))

/-- The bytes of the number from the highest on. -/
def dabbleBytes (bytes : List UInt8) (print : BigInteger) : BigInteger :=
  bytes.foldl (fun print byte => dabbleBits byte kBits print) print

/-- The loop over the digits from the highest on, behind what has been printed. -/
def printDigits : List UInt8 → Bool → List Char → List Char
  | [], _, val => val
  | d :: ds, start, val =>
    let start := if d ≠ 0 then true else start
    if start then
      let vv := Nat.toDigits 10 d.toNat
      let vv := if vv.length ≠ 2 ∧ val.length ≠ 0 then '0' :: vv else vv
      printDigits ds start (val ++ vv)
    else printDigits ds start val

/-- `to_string()`: the text, and the object afterwards. -/
def toString (b : BigInteger) : List Char × BigInteger :=
  let isNeg := b.sign < 0
  let b := if isNeg then b.twosComplement else b
  let print := dabbleBytes b.data.reverse (reserve (b.size * 2))
  let val := printDigits print.data.reverse false []
  if isNeg then ('-' :: val, b.twosComplement) else (val, b)

/-- The canonical decimal text of a number. -/
def decimal (v : Int) : List Char := v.repr.toList

/-! ## One bit -/

/-- The digits as a number. -/
def digitsValue (ds : List UInt8) : Nat := Nat.ofDigits 100 (ds.map UInt8.toNat)

def Digits (ds : List UInt8) : Prop := ∀ d ∈ ds, d.toNat < 100

variable {b : BigInteger} {ds : List UInt8} {d below : UInt8} {print : BigInteger} {n : Nat}

theorem digitsValue_cons (d : UInt8) (ds : List UInt8) :
    digitsValue (d :: ds) = d.toNat + 100 * digitsValue ds := by
  rw [digitsValue, List.map_cons, Nat.ofDigits_cons, digitsValue]

theorem or_toNat {x y : UInt8} (hx : x.toNat % 2 = 0) (hy : y.toNat < 2) :
    (x ||| y).toNat = x.toNat + y.toNat := by
  have hshift : x.toNat = (x.toNat / 2) <<< 1 := by
    rw [Nat.shiftLeft_eq]
    omega
  rw [UInt8.toNat_or]
  conv_lhs => rw [hshift]
  rw [← Nat.shiftLeft_add_eq_or_of_lt hy, ← hshift]

theorem adjust_toNat (hd : d.toNat < 100) :
    (adjust d).toNat = if 50 ≤ d.toNat then d.toNat + 78 else d.toNat := by
  have hadd : (d + kDDabbleAdd).toNat = (d.toNat + 78) % 256 := UInt8.toNat_add d kDDabbleAdd
  have hle : kDDabbleBase ≤ d ↔ 50 ≤ d.toNat := UInt8.le_iff_toNat_le
  simp only [adjust, hle]
  split_ifs with h
  · omega
  · rfl

/-- A digit is doubled modulo 100, and takes the carry of the one below. -/
theorem double_digit (hd : d.toNat < 100) (hbelow : below.toNat < 100) :
    (UInt8.ofNat ((adjust d).toNat <<< 1) |||
        UInt8.ofNat ((adjust below).toNat >>> (kBits - 1))).toNat =
      2 * d.toNat % 100 + below.toNat / 50 := by
  have hadjust := adjust_toNat hd
  have hadjustBelow := adjust_toNat hbelow
  have hdouble : (UInt8.ofNat ((adjust d).toNat <<< 1)).toNat = 2 * d.toNat % 100 := by
    rw [UInt8.toNat_ofNat', Nat.shiftLeft_eq, hadjust]
    split_ifs <;> omega
  have hcarry : (UInt8.ofNat ((adjust below).toNat >>> (kBits - 1))).toNat =
      below.toNat / 50 := by
    rw [UInt8.toNat_ofNat', kBits, Nat.shiftRight_eq_div_pow, hadjustBelow]
    split_ifs <;> omega
  rw [or_toNat (by omega) (by omega), hdouble, hcarry]

/-- What leaves the highest digit is lost. -/
theorem double_digits (hbelow : below.toNat < 100) (hds : Digits ds) :
    Digits (shiftInto 1 (adjust below) (ds.map adjust)) ∧
      digitsValue (shiftInto 1 (adjust below) (ds.map adjust)) +
          100 ^ ds.length * ((ds.getLastD below).toNat / 50) =
        2 * digitsValue ds + below.toNat / 50 := by
  induction ds generalizing below with
  | nil => exact ⟨nofun, by simp [shiftInto, digitsValue]⟩
  | cons d ds ih =>
    have hd : d.toNat < 100 := hds d (List.mem_cons_self ..)
    obtain ⟨hdigits, hvalue⟩ := ih hd fun e he => hds e (List.mem_cons_of_mem d he)
    have hdigit := double_digit hd hbelow
    rw [List.map_cons, shiftInto]
    refine ⟨?_, ?_⟩
    · rw [Digits, List.forall_mem_cons, hdigit]
      exact ⟨by omega, hdigits⟩
    · rw [digitsValue_cons, digitsValue_cons, hdigit, List.getLastD_cons, List.length_cons,
        Nat.pow_succ]
      have hcarry : 2 * d.toNat % 100 + 100 * (d.toNat / 50) = 2 * d.toNat := by omega
      linarith

theorem shl_one (b : BigInteger) : (shl b 1).data = shiftInto 1 0 b.data := by
  have hoffset : 1 / kBits = 0 := rfl
  have hshift : 1 % kBits = 1 := rfl
  simp only [shl, hoffset, hshift]
  split_ifs with hempty
  · have hnil : b.data = [] := List.length_eq_zero_iff.mp (Nat.le_zero.mp hempty)
    rw [size, hnil]
    rfl
  · rw [Nat.sub_zero, size, List.take_length]
    rfl

theorem shiftInto_length (shift : Nat) (below : UInt8) (ds : List UInt8) :
    (shiftInto shift below ds).length = ds.length := by
  induction ds generalizing below with
  | nil => rfl
  | cons d ds ih => rw [shiftInto, List.length_cons, ih, List.length_cons]

/-- A bit is set in the lowest digit, which is even behind the shift. -/
theorem dabble_spec (hprint : Digits print.data) (bit : Bool)
    (hroom : 2 * digitsValue print.data + bit.toNat < 100 ^ print.data.length) :
    Digits (dabble print bit).data ∧ (dabble print bit).data.length = print.data.length ∧
      digitsValue (dabble print bit).data = 2 * digitsValue print.data + bit.toNat := by
  have hzero : adjust 0 = 0 := rfl
  have hlow : (0 : UInt8).toNat < 100 := by decide
  obtain ⟨hdigits, hvalue⟩ := double_digits hlow hprint
  have hlength := shiftInto_length 1 0 (print.data.map adjust)
  rw [hzero] at hdigits hvalue
  rw [List.length_map] at hlength
  have hlost : (print.data.getLastD 0).toNat / 50 = 0 := by
    by_contra hlost
    have hle := Nat.le_mul_of_pos_right (100 ^ print.data.length) (Nat.pos_of_ne_zero hlost)
    rw [UInt8.toNat_zero] at hvalue
    omega
  rw [hlost, Nat.mul_zero, Nat.add_zero, UInt8.toNat_zero] at hvalue
  cases bit with
  | false =>
    have hdabble : (dabble print false).data = shiftInto 1 0 (print.data.map adjust) := by
      rw [dabble, if_neg Bool.false_ne_true, shl_one]
    rw [hdabble]
    exact ⟨hdigits, hlength, hvalue⟩
  | true =>
    have hdabble : dabble print true = or ⟨shiftInto 1 0 (print.data.map adjust)⟩ 1 := by
      rw [dabble, if_pos rfl]
      congr 1
      exact congrArg BigInteger.mk (shl_one _)
    obtain ⟨data⟩ := print
    cases data with
    | nil =>
      simp only [List.length_nil, Bool.toNat_true] at hroom
      omega
    | cons d ds =>
      have hd : d.toNat < 100 := hprint d (List.mem_cons_self ..)
      have heven := double_digit hd hlow
      have hone : (1 : UInt8).toNat = 1 := rfl
      have hnone : (0 : UInt8).toNat / 50 = 0 := rfl
      rw [hzero, hnone, Nat.add_zero] at heven
      rw [List.map_cons, shiftInto] at hdabble hdigits hvalue hlength
      generalize hrest : shiftInto 1 (adjust d) (ds.map adjust) = rest
        at hdabble hdigits hvalue hlength
      generalize UInt8.ofNat ((adjust d).toNat <<< 1) |||
        UInt8.ofNat ((0 : UInt8).toNat >>> (kBits - 1)) = low
        at hdabble hdigits hvalue hlength heven
      have hset : (low ||| 1).toNat = low.toNat + 1 := or_toNat (by omega) (by decide)
      have hbits : (dabble ⟨d :: ds⟩ true).data = (low ||| 1) :: rest := by
        rw [hdabble, or]
      rw [hbits]
      refine ⟨?_, hlength, ?_⟩
      · rw [Digits, List.forall_mem_cons, hset]
        exact ⟨by omega, fun e he => hdigits e (List.mem_cons_of_mem low he)⟩
      · rw [digitsValue_cons] at hvalue ⊢
        rw [hset, Bool.toNat_true]
        omega

/-! ## The number -/

/-- The bits of a byte below `n`, as many as there are. -/
theorem dabbleBits_spec (byte : UInt8) (n : Nat) (hprint : Digits print.data)
    (hroom : 2 ^ n * digitsValue print.data + byte.toNat % 2 ^ n < 100 ^ print.data.length) :
    Digits (dabbleBits byte n print).data ∧
      (dabbleBits byte n print).data.length = print.data.length ∧
      digitsValue (dabbleBits byte n print).data =
        2 ^ n * digitsValue print.data + byte.toNat % 2 ^ n := by
  induction n generalizing print with
  | zero => exact ⟨hprint, rfl, by rw [dabbleBits, Nat.pow_zero, Nat.mod_one]; omega⟩
  | succ n ih =>
    have hbit : decide (byte.toNat &&& 1 <<< n ≠ 0) = byte.toNat.testBit n := by
      rw [Nat.one_shiftLeft, Nat.and_two_pow]
      cases byte.toNat.testBit n <;> simp
    have hmod : byte.toNat % 2 ^ (n + 1) =
        byte.toNat % 2 ^ n + 2 ^ n * (byte.toNat.testBit n).toNat := by
      rw [Nat.mod_pow_succ, Nat.toNat_testBit]
    rw [hmod, Nat.pow_succ] at hroom ⊢
    generalize (byte.toNat.testBit n) = bit at hbit hroom ⊢
    have hstep : 2 * digitsValue print.data + bit.toNat < 100 ^ print.data.length := by
      refine Nat.lt_of_le_of_lt ?_ hroom
      calc 2 * digitsValue print.data + bit.toNat
          ≤ 2 ^ n * (2 * digitsValue print.data + bit.toNat) :=
            Nat.le_mul_of_pos_left _ (Nat.pow_pos (by decide))
        _ ≤ 2 ^ n * 2 * digitsValue print.data + (byte.toNat % 2 ^ n + 2 ^ n * bit.toNat) := by
            rw [Nat.mul_add, Nat.mul_assoc]
            omega
    obtain ⟨hdigits, hlength, hvalue⟩ := dabble_spec hprint bit hstep
    have hrest := ih hdigits (by
      rw [hlength, hvalue]
      linarith)
    rw [dabbleBits, hbit]
    rw [hvalue, hlength] at hrest
    refine ⟨hrest.1, hrest.2.1, ?_⟩
    rw [hrest.2.2]
    ring

/-- The bytes from the highest on follow what the digits held before. -/
theorem dabbleBytes_spec (bytes : List UInt8) (hprint : Digits print.data)
    (hroom : 256 ^ bytes.length * digitsValue print.data + leValue bytes.reverse <
      100 ^ print.data.length) :
    Digits (dabbleBytes bytes print).data ∧
      digitsValue (dabbleBytes bytes print).data =
        256 ^ bytes.length * digitsValue print.data + leValue bytes.reverse := by
  induction bytes generalizing print with
  | nil => exact ⟨hprint, by simp [dabbleBytes, leValue]⟩
  | cons byte bytes ih =>
    have hbyte : byte.toNat % 2 ^ kBits = byte.toNat := Nat.mod_eq_of_lt byte.toNat_lt
    have hsplit : 256 ^ (byte :: bytes).length * digitsValue print.data +
        leValue (byte :: bytes).reverse =
          256 ^ bytes.length * (256 * digitsValue print.data + byte.toNat) +
            leValue bytes.reverse := by
      rw [List.reverse_cons, leValue_append, List.length_reverse, List.length_cons, leValue,
        leValue, Nat.pow_succ]
      ring
    rw [hsplit] at hroom ⊢
    have hstep : 2 ^ kBits * digitsValue print.data + byte.toNat % 2 ^ kBits <
        100 ^ print.data.length := by
      rw [hbyte]
      refine Nat.lt_of_le_of_lt ?_ hroom
      exact Nat.le_add_right_of_le (Nat.le_mul_of_pos_left _ (Nat.pow_pos (by decide)))
    obtain ⟨hdigits, hlength, hvalue⟩ := dabbleBits_spec byte kBits hprint hstep
    rw [hbyte] at hvalue
    have hrest := ih hdigits (by rwa [hlength, hvalue])
    rwa [hvalue] at hrest

/-- Two digits in base 100 for each byte are enough. -/
theorem dabbled_value (b : BigInteger) :
    Digits (dabbleBytes b.data.reverse (reserve (b.size * 2))).data ∧
      digitsValue (dabbleBytes b.data.reverse (reserve (b.size * 2))).data = leValue b.data := by
  have hzero : digitsValue (reserve (b.size * 2)).data = 0 := by
    rw [digitsValue, reserve, List.map_replicate]
    exact Nat.ofDigits_replicate_zero
  have hdigits : Digits (reserve (b.size * 2)).data := by
    intro d hd
    rw [List.eq_of_mem_replicate hd]
    decide
  have hroom : leValue b.data < 100 ^ (reserve (b.size * 2)).data.length := by
    refine Nat.lt_of_lt_of_le (leValue_lt b.data) ?_
    rw [reserve, List.length_replicate, Nat.mul_comm, Nat.pow_mul]
    exact Nat.pow_le_pow_left (by decide) b.size
  have hspec := dabbleBytes_spec b.data.reverse hdigits
  rw [hzero, Nat.mul_zero, Nat.zero_add, List.reverse_reverse] at hspec
  exact hspec hroom

/-! ## The text -/

/-- What has been printed for a number, which is nothing for zero. -/
def printed (n : Nat) : List Char := if n = 0 then [] else Nat.toDigits 10 n

/-- The text of a digit in base 100 that others stand in front of. -/
def twoDigits (d : UInt8) : List Char :=
  Nat.toDigits 10 (d.toNat / 10) ++ Nat.toDigits 10 (d.toNat % 10)

theorem length_toDigits_of_lt (hn : n < 10) : (Nat.toDigits 10 n).length = 1 := by
  rw [Nat.toDigits_of_lt_base hn, List.length_singleton]

theorem toDigits_of_lt_hundred (hd : d.toNat < 100) :
    (if (Nat.toDigits 10 d.toNat).length ≠ 2 then '0' :: Nat.toDigits 10 d.toNat
      else Nat.toDigits 10 d.toNat) = twoDigits d := by
  rw [twoDigits]
  rcases Nat.lt_or_ge d.toNat 10 with hlt | hge
  · rw [length_toDigits_of_lt hlt, if_pos (by decide), Nat.div_eq_of_lt hlt,
      Nat.mod_eq_of_lt hlt, Nat.toDigits_zero, List.singleton_append]
  · have hsplit := Nat.toDigits_append_toDigits (b := 10) (n := d.toNat / 10) (d := d.toNat % 10)
      (by decide) (by omega) (by omega)
    rw [Nat.div_add_mod] at hsplit
    rw [if_neg, hsplit]
    rw [← hsplit, List.length_append, length_toDigits_of_lt (by omega),
      length_toDigits_of_lt (by omega)]
    decide

theorem toDigits_next (hn : 0 < n) (hd : d.toNat < 100) :
    Nat.toDigits 10 n ++ twoDigits d = Nat.toDigits 10 (100 * n + d.toNat) := by
  have hsplit : 100 * n + d.toNat = 10 * (10 * n + d.toNat / 10) + d.toNat % 10 := by omega
  rw [hsplit, twoDigits, ← List.append_assoc,
    Nat.toDigits_append_toDigits (by decide) hn (by omega),
    Nat.toDigits_append_toDigits (by decide) (by omega) (by omega)]

/-- One digit more, which is left out in front of all others when it is zero. -/
theorem printDigits_cons (ds : List UInt8) (hd : d.toNat < 100) (n : Nat) :
    printDigits (d :: ds) (decide (n ≠ 0)) (printed n) =
      printDigits ds (decide (100 * n + d.toNat ≠ 0)) (printed (100 * n + d.toNat)) := by
  have hzero : d = 0 ↔ d.toNat = 0 := UInt8.toNat_inj.symm
  rcases Nat.eq_zero_or_pos n with rfl | hn
  · by_cases h : d.toNat = 0
    · have hd0 := hzero.mpr h
      simp [printDigits, printed, hd0]
    · have hd0 := mt hzero.mp h
      simp [printDigits, printed, hd0, h]
  · have hpos : 100 * n + d.toNat ≠ 0 := by omega
    have htext : (Nat.toDigits 10 n).length ≠ 0 := Nat.pos_iff_ne_zero.mp Nat.length_toDigits_pos
    have hne : n ≠ 0 := by omega
    simp only [printDigits, printed, hne, hpos, htext, ne_eq, not_false_eq_true, decide_true,
      ite_self, if_true, if_false, and_true]
    rw [← toDigits_next hn hd, ← toDigits_of_lt_hundred hd]

theorem printDigits_spec (ds : List UInt8) (hds : Digits ds) (n : Nat) :
    printDigits ds (decide (n ≠ 0)) (printed n) =
      printed (100 ^ ds.length * n + digitsValue ds.reverse) := by
  induction ds generalizing n with
  | nil =>
    rw [printDigits]
    congr 1
    simp [digitsValue]
  | cons d ds ih =>
    rw [printDigits_cons ds (hds d (List.mem_cons_self ..)),
      ih fun e he => hds e (List.mem_cons_of_mem d he)]
    congr 1
    rw [digitsValue, digitsValue, List.reverse_cons, List.map_append, Nat.ofDigits_append,
      List.map_singleton, Nat.ofDigits_singleton, List.length_map, List.length_reverse,
      List.length_cons, Nat.pow_succ]
    ring

theorem text_magnitude (b : BigInteger) :
    printDigits (dabbleBytes b.data.reverse (reserve (b.size * 2))).data.reverse false [] =
      printed (leValue b.data) := by
  obtain ⟨hdigits, hvalue⟩ := dabbled_value b
  have hreverse : Digits (dabbleBytes b.data.reverse (reserve (b.size * 2))).data.reverse :=
    fun d hd => hdigits d (List.mem_reverse.mp hd)
  have hspec := printDigits_spec _ hreverse 0
  rw [List.reverse_reverse, hvalue, Nat.mul_zero, Nat.zero_add] at hspec
  exact hspec

theorem toString_fst (b : BigInteger) :
    (toString b).1 =
      if b.value < 0 then '-' :: printed b.value.natAbs else printed b.value.natAbs := by
  have hmagnitude : leValue (magnitude b).data = b.value.natAbs := by
    have hvalue := (magnitude_spec b).2
    rw [← Int.natCast_natAbs] at hvalue
    exact_mod_cast hvalue
  rw [← hmagnitude, ← text_magnitude]
  simp only [toString, magnitude, ← sign_neg_iff_value]
  split_ifs <;> rfl

theorem toString_snd (b : BigInteger) : (toString b).2.value = b.value := by
  rw [← value_restored b]
  simp only [toString, magnitude]
  split_ifs <;> rfl

theorem decimal_eq (v : Int) :
    decimal v = if v < 0 then '-' :: Nat.toDigits 10 v.natAbs else Nat.toDigits 10 v.natAbs := by
  cases v with
  | ofNat n =>
    rw [if_neg (by simp)]
    exact Nat.toList_repr
  | negSucc n =>
    rw [if_pos (Int.negSucc_lt_zero n)]
    simp [decimal, Int.repr, Nat.toList_repr]

/-- The text is right but for zero, for which there is none. -/
theorem toString_iff (b : BigInteger) :
    ((toString b).1 = decimal b.value ∧ (toString b).2.value = b.value) ↔ b.value ≠ 0 := by
  rw [and_iff_left (toString_snd b), toString_fst, decimal_eq]
  by_cases hzero : b.value = 0
  · rw [hzero]
    decide
  · rw [printed, if_neg (Int.natAbs_ne_zero.mpr hzero)]
    exact iff_of_true rfl hzero

example : toString ⟨[0x80, 0xff]⟩ = ("-128".toList, ⟨[0x80, 0xff]⟩) := by decide +kernel

/-- Zero has no text. -/
theorem toString_zero :
    ¬ ∀ b : BigInteger,
      (toString b).1 = decimal b.value ∧ (toString b).2.value = b.value := by
  intro hall
  have htext := (hall ⟨[0]⟩).1
  revert htext
  decide +kernel

end BigIntegerDecimal
