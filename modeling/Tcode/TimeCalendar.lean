import Mathlib.Algebra.BigOperators.Fin
import Tcode.SupportMachineInt
import Tcode.SupportPieces

/-! # Calendar time

The conversions of a time stamp to calendar time, with the functions that count days. An entry
of the month table that does not exist is undefined.
-/
namespace TimeCalendar

open SupportMachineInt SupportPieces

/-- The row of `MONTH_TABLE` for a common or a leap year. -/
def monthTable : Bool → List Int
  | false => [31, 28, 31, 30, 31, 30, 31, 31, 30, 31, 30, 31]
  | true => [31, 29, 31, 30, 31, 30, 31, 31, 30, 31, 30, 31]

def monthEntry (leap : Bool) (month : Int) : Option Int :=
  if 0 ≤ month then (monthTable leap)[month.toNat]? else none

def isLeapYear (year : Int) : Bool :=
  if year.tmod 4 = 0 then
    if year.tmod 100 = 0 then
      if year.tmod 400 = 0 then true else false
    else true
  else false

def dayPerYear (year : Int) : Int := if isLeapYear year then 366 else 365

/-- The loop of `number_of_days_between(int, int)`. -/
def countYears (yearEnd year tot : Int) : Int :=
  if year ≤ yearEnd then countYears yearEnd (year + 1) (tot + dayPerYear year) else tot
termination_by (yearEnd + 1 - year).toNat

def numberOfDaysBetween (yearStart yearEnd : Int) : Int :=
  if yearEnd < yearStart then 0 else countYears yearEnd yearStart 0

/-- The loop of `number_of_days_between(int, int, int)`. -/
def countMonths (leap : Bool) (monEnd mon tot : Int) : Option Int :=
  if mon ≤ monEnd then
    match monthEntry leap (mon - 1) with
    | none => none
    | some n => countMonths leap monEnd (mon + 1) (tot + n)
  else some tot
termination_by (monEnd + 1 - mon).toNat

def numberOfDaysBetweenMonths (year monStart monEnd : Int) : Option Int :=
  if monEnd < monStart then some 0 else countMonths (isLeapYear year) monEnd monStart 0

def numberOfDays (year month : Int) : Option Int := monthEntry (isLeapYear year) (month - 1)

structure Tm where
  sec : Int
  min : Int
  hour : Int
  mday : Int
  mon : Int
  year : Int
  wday : Int
  yday : Int
  isdst : Int
  deriving DecidableEq, Repr

theorem dayPerYear_cases (year : Int) : dayPerYear year = 365 ∨ dayPerYear year = 366 := by
  unfold dayPerYear
  split
  · exact Or.inr rfl
  · exact Or.inl rfl

theorem le_dayPerYear (year : Int) : 365 ≤ dayPerYear year := by
  rcases dayPerYear_cases year with h | h <;> omega

theorem monthEntry_range {leap : Bool} {month n : Int} (h : monthEntry leap month = some n) :
    0 ≤ month ∧ month < 12 := by
  unfold monthEntry at h
  split at h
  · next hpos =>
    obtain ⟨hlt, -⟩ := List.getElem?_eq_some_iff.mp h
    have hlen : (monthTable leap).length = 12 := by cases leap <;> rfl
    omega
  · cases h

theorem monthEntry_le {leap : Bool} {month n : Int} (h : monthEntry leap month = some n) :
    n ≤ 31 := by
  have hrows : ∀ leap, ∀ n ∈ monthTable leap, n ≤ 31 := by decide
  rw [monthEntry, if_pos (monthEntry_range h).1] at h
  exact hrows leap n (List.mem_of_getElem? h)

/-- The year and the day of the year, counted from 0, of a day that is `daycount` days
behind the first one of `year`. -/
def yearLoop (year daycount : Int) : Int × Int :=
  if daycount < dayPerYear year then (year, daycount)
  else yearLoop (year + 1) (daycount - dayPerYear year)
termination_by daycount.toNat
decreasing_by
  have := le_dayPerYear year
  omega

/-- The month and the day of the month, both counted from 0. -/
def monthLoop (leap : Bool) (month daycount : Int) : Option (Int × Int) :=
  match _hentry : monthEntry leap month with
  | none => none
  | some n =>
    if daycount < n then some (month, daycount) else monthLoop leap (month + 1) (daycount - n)
termination_by (12 - month).toNat
decreasing_by
  have := monthEntry_range _hentry
  omega

def convertTo (t : Int) : Option Tm :=
  let sec := t.tmod 60
  let min := (t.tmod (60 * 60)).tdiv 60
  let hour := (t.tmod (60 * 60 * 24)).tdiv (60 * 60)
  let wday := (t.tdiv (60 * 60 * 24) + 4).tmod 7
  let daycount := toInt (t.tdiv (60 * 60 * 24))
  let (year, yday) := yearLoop 1970 daycount
  match monthLoop (isLeapYear year) 0 yday with
  | none => none
  | some (mon, rest) =>
    some { sec, min, hour, mday := rest + 1, mon, year := year - 1900, wday, yday, isdst := 0 }

/-- `convert_to(timestamp, tm)` -/
def convertToTm (tick : Int) : Option Tm := convertTo (tick.tdiv (1000 * 1000))

/-- The fields that the constructor of a `systemtime` sets; it leaves `wDayOfWeek` as it is. -/
structure Systemtime where
  wYear : UInt16
  wMonth : UInt16
  wDay : UInt16
  wHour : UInt16
  wMinute : UInt16
  wSecond : UInt16
  wMilliseconds : UInt16
  deriving DecidableEq, Repr

/-- `systemtime::systemtime(timestamp)` -/
def systemtime (tick : Int) : Option Systemtime := do
  let tm ← convertToTm tick
  return {
    wHour := .ofInt tm.hour
    wMinute := .ofInt tm.min
    wDay := .ofInt tm.mday
    wMonth := .ofInt (tm.mon + 1)
    wSecond := .ofInt tm.sec
    wYear := .ofInt (tm.year + 1900)
    wMilliseconds := .ofInt ((tick.tmod (1000 * 1000)).tdiv 1000) }

example : convertTo 951782399 = some ⟨59, 59, 23, 28, 1, 100, 1, 58, 0⟩ := by decide +kernel
example : convertTo 951782400 = some ⟨0, 0, 0, 29, 1, 100, 2, 59, 0⟩ := by decide +kernel

/-! ## The loops -/

section Years

variable {year daycount yearEnd tot : Int} {i : ℕ}

theorem shift_years (year : Int) :
    (fun j : ℕ => dayPerYear (year + (j + 1 : ℕ))) = fun j : ℕ => dayPerYear (year + 1 + j) := by
  funext j
  rw [Int.natCast_add, Int.natCast_one, Int.add_comm (j : Int), Int.add_assoc]

theorem yearLoop_spec (year : Int) (h : 0 ≤ daycount) : ∃ (i : ℕ) (r : Int),
    yearLoop year daycount = (year + i, r) ∧
      Located (fun j => dayPerYear (year + j)) daycount i r := by
  induction year, daycount using yearLoop.induct with
  | case1 year daycount hlt =>
    refine ⟨0, daycount, ?_, located_zero h ?_⟩
    · rw [yearLoop, if_pos hlt, Int.natCast_zero, Int.add_zero]
    · rwa [Int.natCast_zero, Int.add_zero]
  | case2 year daycount hge ih =>
    obtain ⟨i, r, hrun, hloc⟩ := ih (by omega)
    refine ⟨i + 1, r, ?_, Located.after_first ?_⟩
    · rw [yearLoop, if_neg hge, hrun, Int.natCast_add, Int.natCast_one, Int.add_comm (i : Int),
        Int.add_assoc]
    · rw [shift_years, Int.natCast_zero, Int.add_zero]
      exact hloc

theorem countYears_spec (h : yearEnd + 1 = year + i) :
    countYears yearEnd year tot = tot + start (fun j => dayPerYear (year + j)) i := by
  induction i generalizing year tot with
  | zero =>
    rw [countYears, if_neg (by omega), start_zero, Int.add_zero]
  | succ i ih =>
    rw [countYears, if_pos (by omega), ih (by omega), start_succ', shift_years, Int.natCast_zero,
      Int.add_zero, Int.add_assoc]

theorem numberOfDaysBetween_spec (year : Int) (i : ℕ) :
    numberOfDaysBetween year (year + i - 1) = start (fun j => dayPerYear (year + j)) i := by
  unfold numberOfDaysBetween
  split
  · next hlt =>
    obtain rfl : i = 0 := by omega
    rfl
  · rw [countYears_spec (i := i) (by omega), Int.zero_add]

end Years

section Months

variable {leap : Bool} {daycount tot : Int} {i k n : ℕ}

/-- The length of a month, counted from 0. -/
def monthLength (leap : Bool) (j : ℕ) : Int := (monthTable leap).getD j 0

theorem monthEntry_eq (leap : Bool) (h : k < 12) :
    monthEntry leap k = some (monthLength leap k) := by
  have hlen : k < (monthTable leap).length := by cases leap <;> exact h
  rw [monthEntry, if_pos (Int.natCast_nonneg k), Int.toNat_natCast, monthLength,
    List.getD_eq_getElem?_getD, List.getElem?_eq_getElem hlen]
  rfl

theorem monthLength_nonneg (leap : Bool) (j : ℕ) : 0 ≤ monthLength leap j := by
  rcases Nat.lt_or_ge j 12 with h | h
  · revert j leap
    decide
  · have hlen : (monthTable leap).length ≤ j := by cases leap <;> exact h
    rw [monthLength, List.getD_eq_getElem?_getD, List.getElem?_eq_none hlen]
    rfl

theorem monthLength_ge (leap : Bool) {j : ℕ} (h : j < 12) : 28 ≤ monthLength leap j := by
  revert j leap
  decide

theorem start_months (year : Int) :
    start (monthLength (isLeapYear year)) 12 = dayPerYear year := by
  unfold dayPerYear
  cases isLeapYear year <;> rfl

theorem shift_months (leap : Bool) (k : ℕ) :
    (fun j => monthLength leap (k + (j + 1))) = fun j => monthLength leap (k + 1 + j) := by
  funext j
  rw [Nat.add_comm j, Nat.add_assoc]

theorem monthLoop_entry {month n : Int} (h : monthEntry leap month = some n) :
    monthLoop leap month daycount =
      if daycount < n then some (month, daycount)
      else monthLoop leap (month + 1) (daycount - n) := by
  rw [monthLoop]
  split
  · next hnone => cases h.symm.trans hnone
  · next m hsome =>
    cases h.symm.trans hsome
    rfl

theorem monthLoop_spec (leap : Bool) (hk : k + n = 12) (h : 0 ≤ daycount)
    (hlt : daycount < start (fun j => monthLength leap (k + j)) n) : ∃ (i : ℕ) (r : Int),
    monthLoop leap k daycount = some ((k : Int) + i, r) ∧ k + i < 12 ∧
      Located (fun j => monthLength leap (k + j)) daycount i r := by
  induction n generalizing k daycount with
  | zero =>
    rw [start_zero] at hlt
    omega
  | succ n ih =>
    have hentry := monthEntry_eq leap (k := k) (by omega)
    by_cases hfirst : daycount < monthLength leap k
    · refine ⟨0, daycount, ?_, by omega, located_zero h hfirst⟩
      rw [monthLoop_entry hentry, if_pos hfirst, Int.natCast_zero, Int.add_zero]
    · rw [start_succ', shift_months, Nat.add_zero] at hlt
      obtain ⟨i, r, hrun, hi, hloc⟩ := ih (k := k + 1) (by omega)
        (show 0 ≤ daycount - monthLength leap k by omega) (by omega)
      refine ⟨i + 1, r, ?_, by omega, Located.after_first ?_⟩
      · rw [monthLoop_entry hentry, if_neg hfirst]
        rw [Int.natCast_add, Int.natCast_one] at hrun ⊢
        rw [hrun, Int.add_assoc, Int.add_comm 1]
      · rw [shift_months]
        exact hloc

theorem countMonths_spec (leap : Bool) (tot : Int) (hk : k + i ≤ 12) :
    countMonths leap (k + i) (k + 1) tot =
      some (tot + start (fun j => monthLength leap (k + j)) i) := by
  induction i generalizing k tot with
  | zero =>
    rw [countMonths, if_neg (by omega), start_zero, Int.add_zero]
  | succ i ih =>
    have hentry := monthEntry_eq leap (k := k) (by omega)
    have hrest := ih (tot + monthLength leap k) (k := k + 1) (by omega)
    rw [Int.natCast_add, Int.natCast_one, Int.add_assoc (k : Int), Int.add_comm 1] at hrest
    rw [countMonths, if_pos (by omega), Int.add_sub_cancel, hentry, start_succ', shift_months,
      Nat.add_zero k, ← Int.add_assoc, ← hrest]
    rfl

theorem numberOfDaysBetweenMonths_spec (year : Int) (hi : i ≤ 12) :
    numberOfDaysBetweenMonths year 1 i = some (start (monthLength (isLeapYear year)) i) := by
  unfold numberOfDaysBetweenMonths
  split
  · next hlt =>
    obtain rfl : i = 0 := by omega
    rfl
  · have hcount := countMonths_spec (isLeapYear year) 0 (k := 0) (i := i) (by omega)
    simpa using hcount

end Months

/-! ## The conversion -/

namespace Tm

/-- The fields that a time is made of, the widest first. -/
def fields (tm : Tm) : List Int := [tm.year, tm.mon, tm.mday, tm.hour, tm.min, tm.sec]

/-- The days before a date since the start of 1970, as the counting functions have it. -/
def dayNumber (tm : Tm) : Option Int := do
  let months ← numberOfDaysBetweenMonths (tm.year + 1900) 1 (tm.mon + 1 - 1)
  return numberOfDaysBetween 1970 (tm.year + 1900 - 1) + months + tm.mday - 1

def secondOfDay (tm : Tm) : Int := tm.hour * 3600 + tm.min * 60 + tm.sec

structure Valid (tm : Tm) : Prop where
  year : 1970 ≤ tm.year + 1900 ∧ tm.year + 1900 < 2147483648
  mon : 0 ≤ tm.mon ∧ tm.mon ≤ 11
  mday : ∃ n, numberOfDays (tm.year + 1900) (tm.mon + 1) = some n ∧ 1 ≤ tm.mday ∧ tm.mday ≤ n
  hour : 0 ≤ tm.hour ∧ tm.hour ≤ 23
  min : 0 ≤ tm.min ∧ tm.min ≤ 59
  sec : 0 ≤ tm.sec ∧ tm.sec ≤ 59
  wday : 0 ≤ tm.wday ∧ tm.wday ≤ 6
  yday : ∃ n, numberOfDaysBetweenMonths (tm.year + 1900) 1 (tm.mon + 1 - 1) = some n ∧
    tm.yday = n + tm.mday - 1

/-- Where a calendar time lies in the row of years, in that of the months of its year and in
its day. -/
structure At (tm : Tm) (t : Int) : Prop where
  years : ∃ i : ℕ, tm.year + 1900 = 1970 + i ∧
    Located (fun j => dayPerYear (1970 + j)) (t / 86400) i tm.yday
  months : ∃ k : ℕ, tm.mon = k ∧ k < 12 ∧
    Located (monthLength (isLeapYear (tm.year + 1900))) tm.yday k (tm.mday - 1)
  hour : tm.hour = t % 86400 / 3600
  min : tm.min = t % 3600 / 60
  sec : tm.sec = t % 60
  wday : tm.wday = (t / 86400 + 4) % 7

end Tm

section Conversion

variable {t s : Int} {tm tm' : Tm}

theorem dayPerYear_nonneg (year : Int) : 0 ≤ dayPerYear year := by
  have := le_dayPerYear year
  omega

theorem convertTo_at (h : 0 ≤ t) (hfits : t / 86400 < 2147483648) :
    ∃ tm, convertTo t = some tm ∧ tm.At t := by
  have hdays : toInt (t.tdiv (60 * 60 * 24)) = t / 86400 := by
    rw [Int.tdiv_eq_ediv_of_nonneg h]
    exact toInt_of_range (by omega) hfits
  obtain ⟨i, yday, hyear, hloc⟩ := yearLoop_spec 1970 (show 0 ≤ t / 86400 by omega)
  have hlt : yday < start (monthLength (isLeapYear (1970 + i))) 12 := by
    rw [start_months]
    exact hloc.lt
  obtain ⟨k, rest, hmonth, hk, hin⟩ := monthLoop_spec (isLeapYear (1970 + i)) (k := 0)
    (n := 12) rfl hloc.nonneg (by simpa using hlt)
  simp only [Int.natCast_zero, Int.zero_add, Nat.zero_add] at hmonth hk hin
  have hsec : t.tmod 60 = t % 60 := Int.tmod_eq_emod_of_nonneg h
  have hmin : (t.tmod (60 * 60)).tdiv 60 = t % 3600 / 60 := by
    rw [Int.tmod_eq_emod_of_nonneg h, Int.tdiv_eq_ediv_of_nonneg (by omega)]
    rfl
  have hhour : (t.tmod (60 * 60 * 24)).tdiv (60 * 60) = t % 86400 / 3600 := by
    rw [Int.tmod_eq_emod_of_nonneg h, Int.tdiv_eq_ediv_of_nonneg (by omega)]
    rfl
  have hwday : (t.tdiv (60 * 60 * 24) + 4).tmod 7 = (t / 86400 + 4) % 7 := by
    rw [Int.tdiv_eq_ediv_of_nonneg h, Int.tmod_eq_emod_of_nonneg (by omega)]
    rfl
  refine ⟨⟨t % 60, t % 3600 / 60, t % 86400 / 3600, rest + 1, k, 1970 + i - 1900,
    (t / 86400 + 4) % 7, yday, 0⟩, ?_, ?_⟩
  · simp only [convertTo, hdays, hyear, hmonth, hmin, hhour, hwday, hsec]
  · have hback : (1970 + (i : Int) - 1900) + 1900 = 1970 + i := by omega
    refine ⟨⟨i, hback, hloc⟩, ⟨k, rfl, hk, ?_⟩, rfl, rfl, rfl, rfl⟩
    rw [hback, Int.add_sub_cancel]
    exact hin

namespace Tm.At

theorem dayNumber (h : tm.At t) : tm.dayNumber = some (t / 86400) := by
  obtain ⟨i, hyear, hloc⟩ := h.years
  obtain ⟨k, hmon, hk, hin⟩ := h.months
  have hyears := numberOfDaysBetween_spec 1970 i
  have hmonths := numberOfDaysBetweenMonths_spec (tm.year + 1900) (Nat.le_of_lt hk)
  rw [Tm.dayNumber, Int.add_sub_cancel, hmon, hmonths, hyear, hyears]
  have hsum := hloc.sum
  have hrest := hin.sum
  rw [hyear] at hrest
  show some _ = some _
  rw [Option.some.injEq]
  omega

theorem valid (h : tm.At t) (hfits : t / 86400 < 2147483648) : tm.Valid := by
  obtain ⟨i, hyear, hloc⟩ := h.years
  obtain ⟨k, hmon, hk, hin⟩ := h.months
  have hbound := mul_le_start (fun j : ℕ => le_dayPerYear (1970 + j)) i
  have hsum := hloc.sum
  have hnonneg := hloc.nonneg
  have hday := hin.nonneg
  have hlast := hin.lt
  have hrest := hin.sum
  have hhour := h.hour
  have hmin := h.min
  have hsec := h.sec
  have hwday := h.wday
  have hlength : numberOfDays (tm.year + 1900) (tm.mon + 1) =
      some (monthLength (isLeapYear (tm.year + 1900)) k) := by
    rw [numberOfDays, Int.add_sub_cancel, hmon, monthEntry_eq _ hk]
  have hmonths := numberOfDaysBetweenMonths_spec (tm.year + 1900) (Nat.le_of_lt hk)
  rw [← hmon, ← Int.add_sub_cancel tm.mon 1] at hmonths
  exact ⟨by omega, by omega, ⟨_, hlength, by omega, Int.le_of_sub_one_lt hlast⟩, by omega,
    by omega, by omega, by omega, ⟨_, hmonths, by omega⟩⟩

theorem secondOfDay (h : tm.At t) : tm.secondOfDay = t % 86400 := by
  rw [Tm.secondOfDay, h.hour, h.min, h.sec]
  omega

theorem day_lt_iff (h : tm.At t) (h' : tm'.At s) : t / 86400 < s / 86400 ↔
    tm.year < tm'.year ∨ tm.year = tm'.year ∧ tm.yday < tm'.yday := by
  obtain ⟨i, hyear, hloc⟩ := h.years
  obtain ⟨i', hyear', hloc'⟩ := h'.years
  rw [hloc.lt_iff (fun j => dayPerYear_nonneg _) hloc']
  have hlt : i < i' ↔ tm.year < tm'.year := by omega
  have heq : i = i' ↔ tm.year = tm'.year := by omega
  rw [hlt, heq]

theorem yday_lt_iff (h : tm.At t) (h' : tm'.At s) (hyear : tm.year = tm'.year) :
    tm.yday < tm'.yday ↔ tm.mon < tm'.mon ∨ tm.mon = tm'.mon ∧ tm.mday < tm'.mday := by
  obtain ⟨k, hmon, -, hin⟩ := h.months
  obtain ⟨k', hmon', -, hin'⟩ := h'.months
  rw [← hyear] at hin'
  rw [hin.lt_iff (monthLength_nonneg _) hin']
  have hlt : k < k' ↔ tm.mon < tm'.mon := by omega
  have heq : k = k' ↔ tm.mon = tm'.mon := by omega
  have hday : tm.mday - 1 < tm'.mday - 1 ↔ tm.mday < tm'.mday := by omega
  rw [hlt, heq, hday]

theorem date_lt_iff (h : tm.At t) (h' : tm'.At s) : t / 86400 < s / 86400 ↔
    tm.year < tm'.year ∨ tm.year = tm'.year ∧
      (tm.mon < tm'.mon ∨ tm.mon = tm'.mon ∧ tm.mday < tm'.mday) := by
  rw [h.day_lt_iff h']
  exact or_congr_right (and_congr_right fun hyear => h.yday_lt_iff h' hyear)

/-- Two days of the same number in their months are at least as far apart as the months are
long. -/
theorem day_eq_of_mday (h : tm.At t) (h' : tm'.At s) (hle : t / 86400 ≤ s / 86400)
    (hnear : s / 86400 < t / 86400 + 28) (hmday : tm.mday = tm'.mday) :
    t / 86400 = s / 86400 := by
  obtain ⟨i, hyear, hloc⟩ := h.years
  obtain ⟨i', hyear', hloc'⟩ := h'.years
  obtain ⟨k, hmon, hk, hin⟩ := h.months
  obtain ⟨k', hmon', hk', hin'⟩ := h'.months
  have hlength := monthLength_ge (isLeapYear (tm.year + 1900)) hk
  by_contra hne
  rcases (h.day_lt_iff h').mp (by omega) with hbefore | ⟨hsame, hbefore⟩
  · -- the rest of the month lies between them, and all days in front of the later one
    have hyears := hloc.end_le (fun _ => dayPerYear_nonneg _) hloc' (by omega)
    have hrest : start (monthLength (isLeapYear (tm.year + 1900))) (k + 1) ≤
        start (monthLength (isLeapYear (tm.year + 1900))) 12 :=
      start_mono (monthLength_nonneg _) hk
    have hpos : 0 ≤ start (monthLength (isLeapYear (tm'.year + 1900))) k' := by
      simpa using start_mono (monthLength_nonneg (isLeapYear (tm'.year + 1900))) (Nat.zero_le k')
    rw [start_succ, start_months, hyear] at hrest
    have hsum := hin.sum
    have hsum' := hin'.sum
    rw [hyear] at hsum hlength
    omega
  · rw [← hsame] at hin'
    have hmonth : k < k' := by
      rcases (hin.lt_iff (monthLength_nonneg _) hin').mp hbefore with hlt | ⟨-, hlt⟩
      · exact hlt
      · omega
    have hmonths := hin.end_le (monthLength_nonneg _) hin' hmonth
    have hindex : i = i' := by omega
    subst hindex
    have hsum := hloc.sum
    have hsum' := hloc'.sum
    omega

theorem secondOfDay_lt_iff (h : tm.At t) (h' : tm'.At s) : t % 86400 < s % 86400 ↔
    tm.hour < tm'.hour ∨ tm.hour = tm'.hour ∧
      (tm.min < tm'.min ∨ tm.min = tm'.min ∧ tm.sec < tm'.sec) := by
  rw [h.hour, h.min, h.sec, h'.hour, h'.min, h'.sec]
  omega

/-- Times are ordered as their fields are, the widest first. -/
theorem lt_iff (h : tm.At t) (h' : tm'.At s) : t < s ↔ tm.fields < tm'.fields := by
  have hbefore := h.date_lt_iff h'
  have hafter := h'.date_lt_iff h
  have hclock := h.secondOfDay_lt_iff h'
  simp only [Tm.fields, List.cons_lt_cons_iff, List.lt_irrefl, and_false, or_false]
  omega

theorem eq_of_fields (h : tm.At t) (h' : tm'.At s) (hfields : tm'.fields = tm.fields) :
    s = t := by
  have hlt := h.lt_iff h'
  have hgt := h'.lt_iff h
  rw [hfields] at hlt hgt
  have hnot : ¬ tm.fields < tm.fields := List.lt_irrefl _
  have hle := mt hlt.mp hnot
  have hge := mt hgt.mp hnot
  omega

end Tm.At

end Conversion

/-! ## Results -/

/-- The days and seconds of a time, and a date for each day in the order of the calendar. -/
theorem convertTo_inverse {t : Int} (h : 0 ≤ t) (hfits : t / 86400 < 2147483648) :
    ∃ tm, convertTo t = some tm ∧ tm.Valid ∧ tm.dayNumber = some (t / 86400) ∧
      tm.secondOfDay = t % 86400 ∧ (t / 86400 = 0 → tm.wday = 4) ∧
      ∀ s, 0 ≤ s → s / 86400 < 2147483648 → ∃ tm', convertTo s = some tm' ∧
        (s / 86400 = t / 86400 + 1 → tm'.wday = (tm.wday + 1) % 7) ∧
        (tm'.fields = tm.fields → s = t) ∧ (t < s ↔ tm.fields < tm'.fields) := by
  obtain ⟨tm, hrun, hat⟩ := convertTo_at h hfits
  have hwday := hat.wday
  refine ⟨tm, hrun, hat.valid hfits, hat.dayNumber, hat.secondOfDay, by omega, ?_⟩
  intro s hs hsfits
  obtain ⟨tm', hrun', hat'⟩ := convertTo_at hs hsfits
  have hwday' := hat'.wday
  exact ⟨tm', hrun', by omega, hat.eq_of_fields hat', hat.lt_iff hat'⟩

theorem convertTo_inverse_leap_day : ∃ tm, convertTo 951782400 = some tm ∧
    tm.dayNumber = some 11016 ∧ tm.Valid := by
  obtain ⟨tm, hrun, hvalid, hday, -⟩ := convertTo_inverse (t := 951782400) (by decide) (by decide)
  exact ⟨tm, hrun, hday, hvalid⟩

end TimeCalendar
