import Mathlib.Data.Nat.Bitwise
import Tcode.SupportMachineInt

/-! # Time stamps as file times

A file time counts tenths of a microsecond since the start of 1601 in two halves. Windows
declares both with 32 bits; the declaration for the other platforms gives the lower one 16.
-/
namespace TimeFiletime

open SupportMachineInt

inductive Platform where
  | win32
  | posix
  deriving DecidableEq, Repr

/-- The width of `dwLowDateTime`. -/
def Platform.lowWidth : Platform → Nat
  | .win32 => 32
  | .posix => 16

structure Filetime (p : Platform) where
  dwHighDateTime : BitVec 32
  dwLowDateTime : BitVec p.lowWidth

def tickOffset : Int := -11644473600 * 1000 * 1000

/-- `convert_to(timestamp, filetime)` for a tick of 64 bits. -/
def convertTo (p : Platform) (tick : Int) : Filetime p :=
  let tv := toSize tick
  let tv := toSize (tv - tickOffset)
  let tv := toSize (tv * 10)
  { dwHighDateTime := BitVec.ofNat 32 ((tv &&& 0xFFFFFFFF00000000) >>> 32)
    dwLowDateTime := BitVec.ofNat p.lowWidth (tv &&& 0xFFFFFFFF) }

/-- The decoding in `timestamp::now`, with the halves of a `LARGE_INTEGER`. -/
def decode {p : Platform} (ft : Filetime p) : Int :=
  let highPart := toInt ft.dwHighDateTime.toNat
  let lowPart : Int := ft.dwLowDateTime.toNat
  let quadPart := highPart * 4294967296 + lowPart
  quadPart.tdiv 10 + tickOffset

/-- What the two halves say. -/
def recombined {p : Platform} (ft : Filetime p) : Int :=
  (ft.dwHighDateTime.toNat * 4294967296 + ft.dwLowDateTime.toNat : Int) / 10 - 11644473600000000

/-- The tenths of a microsecond since 1601. -/
def count (tick : Int) : Int := (tick + 11644473600000000) * 10

/-- From 1601 on, with a count of 64 bits. -/
def InRange (tick : Int) : Prop := 0 ≤ count tick ∧ count tick < 18446744073709551616

/-- Nothing of the count is lost, neither in the lower half nor in its sign. -/
def Fits (p : Platform) (tick : Int) : Prop :=
  (p = .posix → count tick / 65536 % 65536 = 0) ∧ count tick < 9223372036854775808

section Halves

variable {p : Platform} {tick a b : Int}

theorem upper_half {v : Nat} (h : v < 18446744073709551616) :
    (v &&& 0xFFFFFFFF00000000) >>> 32 = v / 4294967296 := by
  have hmask : 0xFFFFFFFF00000000 >>> 32 = 2 ^ 32 - 1 := by decide
  rw [Nat.shiftRight_and_distrib, Nat.shiftRight_eq_div_pow, hmask,
    Nat.and_two_pow_sub_one_eq_mod]
  omega

theorem lower_half (v : Nat) : v &&& 0xFFFFFFFF = v % 4294967296 :=
  Nat.and_two_pow_sub_one_eq_mod v 32

theorem tickOffset_eq : tickOffset = -11644473600000000 := rfl

/-- No step of the conversion wraps. -/
theorem converted_count (h : InRange tick) :
    (toSize ((toSize (toSize tick - tickOffset) : Int) * 10) : Int) = count tick := by
  obtain ⟨hl, hu⟩ := h
  rw [count] at hl hu ⊢
  have hshift : (toSize (toSize tick - tickOffset) : Int) = tick + 11644473600000000 := by
    rw [tickOffset_eq]
    unfold toSize
    omega
  rw [hshift]
  exact toSize_of_range hl hu

theorem convertTo_high (h : InRange tick) :
    ((convertTo p tick).dwHighDateTime.toNat : Int) = count tick / 4294967296 := by
  have hcount := converted_count h
  obtain ⟨hl, hu⟩ := h
  simp only [convertTo, BitVec.toNat_ofNat]
  rw [upper_half (by omega)]
  omega

theorem convertTo_low (h : InRange tick) :
    ((convertTo p tick).dwLowDateTime.toNat : Int) =
      count tick % 4294967296 % (2 ^ p.lowWidth : Nat) := by
  have hcount := converted_count h
  simp only [convertTo, BitVec.toNat_ofNat]
  rw [lower_half, Int.natCast_mod, Int.natCast_mod, hcount]
  rfl

theorem low_windows (h : InRange tick) :
    ((convertTo .win32 tick).dwLowDateTime.toNat : Int) = count tick % 4294967296 := by
  rw [convertTo_low h]
  show _ % 4294967296 = _
  omega

theorem low_posix (h : InRange tick) :
    ((convertTo .posix tick).dwLowDateTime.toNat : Int) = count tick % 65536 := by
  rw [convertTo_low h]
  show _ % 65536 = _
  omega

/-- The count is a multiple of ten, so that any bit that is lost shows. -/
theorem recombined_iff (h : InRange tick) : recombined (convertTo p tick) = tick ↔
    (p = .posix → count tick / 65536 % 65536 = 0) := by
  have hcount : count tick = (tick + 11644473600000000) * 10 := rfl
  unfold recombined
  rw [convertTo_high h]
  cases p with
  | win32 =>
    rw [low_windows h]
    refine iff_of_true (by omega) ?_
    intro hp
    cases hp
  | posix =>
    rw [low_posix h]
    simp only [forall_const]
    omega

theorem toInt_half {x : Int} (hl : 0 ≤ x) (hu : x < 4294967296) :
    toInt x = if x < 2147483648 then x else x - 4294967296 := by
  unfold toInt
  split <;> omega

theorem low_of_fits (h : InRange tick) (hlow : p = .posix → count tick / 65536 % 65536 = 0) :
    ((convertTo p tick).dwLowDateTime.toNat : Int) = count tick % 4294967296 := by
  cases p with
  | win32 => exact low_windows h
  | posix =>
    have hlost := hlow rfl
    rw [low_posix h]
    omega

/-- A count from 2^63 on is a negative `QuadPart`. -/
theorem decode_iff (h : InRange tick) (hlow : p = .posix → count tick / 65536 % 65536 = 0) :
    decode (convertTo p tick) = tick ↔ count tick < 9223372036854775808 := by
  have hcount : count tick = (tick + 11644473600000000) * 10 := rfl
  obtain ⟨hl, hu⟩ := h
  simp only [decode, convertTo_high ⟨hl, hu⟩, low_of_fits ⟨hl, hu⟩ hlow, tickOffset_eq]
  rw [toInt_half (by omega) (by omega)]
  split
  · next hhigh =>
    have hquad : count tick / 4294967296 * 4294967296 + count tick % 4294967296 =
        (tick + 11644473600000000) * 10 := by omega
    rw [hquad, Int.mul_tdiv_cancel _ (by decide)]
    omega
  · next hhigh =>
    refine iff_of_false ?_ (by omega)
    have hneg : ((count tick / 4294967296 - 4294967296) * 4294967296 +
        count tick % 4294967296).tdiv 10 ≤ 0 := by
      rw [← Int.neg_nonneg, ← Int.neg_tdiv]
      exact Int.tdiv_nonneg (by omega) (by decide)
    omega

/-- The tick comes back from both decodings. -/
structure Lossless (p : Platform) (tick : Int) : Prop where
  halves : recombined (convertTo p tick) = tick
  now : decode (convertTo p tick) = tick

def Before {p : Platform} (x y : Filetime p) : Prop :=
  x.dwHighDateTime < y.dwHighDateTime ∨
    x.dwHighDateTime = y.dwHighDateTime ∧ x.dwLowDateTime < y.dwLowDateTime

theorem lossless_iff (h : InRange tick) : Lossless p tick ↔ Fits p tick := by
  constructor
  · intro hall
    have hlow := (recombined_iff h).mp hall.halves
    exact ⟨hlow, (decode_iff h hlow).mp hall.now⟩
  · rintro ⟨hlow, hsign⟩
    exact ⟨(recombined_iff h).mpr hlow, (decode_iff h hlow).mpr hsign⟩

/-- File times without a loss are ordered as their ticks. -/
theorem before_iff (ha : InRange a) (hb : InRange b) (hfa : Fits p a) (hfb : Fits p b) :
    Before (convertTo p a) (convertTo p b) ↔ a < b := by
  have hcount : count a < count b ↔ a < b := by
    unfold count
    omega
  have hhigh := convertTo_high (p := p) ha
  have hhigh' := convertTo_high (p := p) hb
  have hlow := low_of_fits ha hfa.1
  have hlow' := low_of_fits hb hfb.1
  rw [Before, BitVec.lt_def, BitVec.lt_def, ← BitVec.toNat_inj, ← hcount]
  omega

/-- Two time stamps and their order survive the conversion. -/
structure Kept (p : Platform) (a b : Int) : Prop where
  first : Lossless p a
  second : Lossless p b
  order : Before (convertTo p a) (convertTo p b) ↔ a < b

end Halves

theorem kept_iff_fits {p : Platform} {a b : Int} (ha : InRange a) (hb : InRange b) :
    Kept p a b ↔ Fits p a ∧ Fits p b := by
  constructor
  · intro h
    exact ⟨(lossless_iff ha).mp h.first, (lossless_iff hb).mp h.second⟩
  · rintro ⟨hfa, hfb⟩
    exact ⟨(lossless_iff ha).mpr hfa, (lossless_iff hb).mpr hfb, before_iff ha hb hfa hfb⟩

theorem kept_iff_fits_windows : Kept .win32 0 1 ↔ Fits .win32 0 ∧ Fits .win32 1 :=
  kept_iff_fits ⟨by decide, by decide⟩ ⟨by decide, by decide⟩

/-- The start of 1970 comes back almost six minutes earlier. -/
theorem epoch_not_kept : InRange 0 ∧ ¬ Kept .posix 0 0 ∧
    recombined (convertTo .posix 0) = -357761024 := by
  refine ⟨⟨by decide, by decide⟩, ?_, by decide⟩
  intro h
  exact absurd h.first.halves (by decide)

end TimeFiletime
