import Tcode.SupportFixedWidth
import Tcode.TimeCalendar

/-! # Old log files

The names of log files begin with the day of their creation. When the day changes, the files
whose names come before a day are removed.
-/
namespace LogRetention

open SupportMachineInt SupportFixedWidth TimeCalendar

abbrev Text := List UInt8

def digit (d : Nat) : UInt8 := .ofNat (48 + d)

def decimal (n : Nat) : Text :=
  if n < 10 then [digit n] else decimal (n / 10) ++ [digit (n % 10)]

/-- `%0wd` -/
def zeroPadded (w : Nat) (x : Int) : Text :=
  let sign : Text := if x < 0 then [45] else []
  let digits := decimal x.natAbs
  sign ++ List.replicate (w - sign.length - digits.length) (digit 0) ++ digits

/-- `tcode::string::append_format` with a text that is cut at its buffer. -/
def appendFormat (msg formatted : Text) : Text := msg ++ formatted.take 4095

/-- `%04d%02d%02d` -/
def dayText (st : Systemtime) : Text :=
  zeroPadded 4 st.wYear.toNat ++ zeroPadded 2 st.wMonth.toNat ++ zeroPadded 2 st.wDay.toNat

/-- `%04d%02d%02d_%02d%02d%02d_%04d.log` -/
def logName (st : Systemtime) (dayFileCount : UInt32) : Text :=
  dayText st ++ [95] ++ zeroPadded 2 st.wHour.toNat ++ zeroPadded 2 st.wMinute.toNat ++
    zeroPadded 2 st.wSecond.toNat ++ [95] ++ zeroPadded 4 (toInt dayFileCount.toNat) ++
    [46, 108, 111, 103]

def inDirectory (path name : Text) : Text := path ++ 47 :: name

/-- The path that `_create_log_file` opens. -/
def createLogFile (path : Text) (now : Int) (dayFileCount : UInt32) : Option Text := do
  let st ← systemtime now
  return appendFormat path (47 :: logName st dayFileCount)

/-- `timespan::days` -/
def days (c : Int) : Int := c * 24 * 60 * 60 * 1000 * 1000

/-- The paths that `_delete_old_logs` removes, where the clock is read twice. `stat` says
whether a path exists and is a directory, `dir` is what `readdir` returns one by one. -/
def deleteOldLogs (path : Text) (stat : Text → Option Bool) (dir : Option (List Text))
    (now now' : Int) : Option (List Text) := do
  let _sep := now - days 30
  let st ← systemtime now'
  let deleteBefore := appendFormat [] (dayText st)
  match stat path, dir with
  | some true, some names =>
    return names.filterMap fun name =>
      let fullPath := inDirectory path name
      if stat fullPath = some false ∧ name < deleteBefore then some fullPath else none
  | _, _ => return []

/-! ## Names and days -/

section Names

variable {tick tick' : Int} {st st' : Systemtime} {w n : Nat}

/-- A time from 1970 on whose year has four digits. -/
structure Dated (tick : Int) : Prop where
  nonneg : 0 ≤ tick
  fits : tick < 9223372036854775808
  year : ∀ tm, convertToTm tick = some tm → tm.year + 1900 ≤ 9999

/-- The day of a time stamp, counted from the first one of 1970. -/
def dayOf (tick : Int) : Int := tick / 86400000000

theorem digit_ordered : Ordered digit 10 := by
  have hval : ∀ i, i < 10 → (digit i).toNat = 48 + i := by decide
  refine ⟨by decide, ?_, ?_⟩
  · intro i j hi hj
    rw [UInt8.lt_iff_toNat_lt, hval i hi, hval j hj]
    omega
  · intro i j hi hj h
    have hnat := congrArg UInt8.toNat h
    rw [hval i hi, hval j hj] at hnat
    omega

theorem padded_decimal (hw : 0 < w) (hn : n < 10 ^ w) :
    List.replicate (w - (decimal n).length) (digit 0) ++ decimal n = fixed digit 10 w n := by
  induction w generalizing n with
  | zero => cases hw
  | succ w ih =>
    rw [decimal, fixed]
    split
    · next hlt =>
      rw [Nat.div_eq_of_lt hlt, Nat.mod_eq_of_lt hlt, fixed_zero]
      rfl
    · next hge =>
      have hw' : 0 < w := by
        rcases Nat.eq_zero_or_pos w with rfl | hpos
        · omega
        · exact hpos
      rw [← ih hw' (div_lt_pow hn), List.length_append, List.length_singleton,
        Nat.add_sub_add_right, List.append_assoc]

theorem zeroPadded_eq_fixed (hw : 0 < w) (hn : n < 10 ^ w) :
    zeroPadded w n = fixed digit 10 w n := by
  have hsign : ¬ (n : Int) < 0 := by omega
  rw [zeroPadded, if_neg hsign, Int.natAbs_natCast]
  exact padded_decimal hw hn

theorem toNat_ofInt {x : Int} (hl : 0 ≤ x) (hu : x < 65536) : (UInt16.ofInt x).toNat = x.toNat := by
  rw [UInt16.ofInt, UInt16.toNat_ofNat']
  omega

/-- The day of a time as its text has it. -/
structure Written (tick : Int) (st : Systemtime) (tm : Tm) : Prop where
  run : systemtime tick = some st
  place : tm.At (tick / 1000000)
  text : dayText st = fixed digit 10 4 (tm.year + 1900).toNat ++
    fixed digit 10 2 (tm.mon + 1).toNat ++ fixed digit 10 2 tm.mday.toNat
  year : 0 ≤ tm.year + 1900 ∧ tm.year + 1900 ≤ 9999
  mon : 0 ≤ tm.mon ∧ tm.mon ≤ 11
  mday : 1 ≤ tm.mday ∧ tm.mday ≤ 31

theorem Dated.written (h : Dated tick) : ∃ st tm, Written tick st tm := by
  have hpos := h.nonneg
  have htime : tick.tdiv (1000 * 1000) = tick / 1000000 := Int.tdiv_eq_ediv_of_nonneg hpos
  have hfits : tick / 1000000 / 86400 < 2147483648 := by
    have := h.fits
    omega
  obtain ⟨tm, hrun, hat⟩ := convertTo_at (t := tick / 1000000) (by omega) hfits
  have hconvert : convertToTm tick = some tm := by rw [convertToTm, htime, hrun]
  have hvalid := hat.valid hfits
  have hlast := h.year tm hconvert
  have hfirst := hvalid.year
  have hmon := hvalid.mon
  obtain ⟨n, hlength, hday, hdayLe⟩ := hvalid.mday
  have hn : n ≤ 31 := monthEntry_le hlength
  obtain ⟨st, hst⟩ : ∃ st, systemtime tick = some st ∧ st.wYear = .ofInt (tm.year + 1900) ∧
      st.wMonth = .ofInt (tm.mon + 1) ∧ st.wDay = .ofInt tm.mday := by
    rw [systemtime, hconvert]
    exact ⟨_, rfl, rfl, rfl, rfl⟩
  obtain ⟨hst, hyear, hmonth, hmday⟩ := hst
  refine ⟨st, tm, hst, hat, ?_, by omega, by omega, by omega⟩
  rw [dayText, hyear, hmonth, hmday, toNat_ofInt (by omega) (by omega),
    toNat_ofInt (by omega) (by omega), toNat_ofInt (by omega) (by omega),
    zeroPadded_eq_fixed (by decide) (by omega), zeroPadded_eq_fixed (by decide) (by omega),
    zeroPadded_eq_fixed (by decide) (by omega)]

variable {tm tm' : Tm}

theorem Written.length (h : Written tick st tm) : (dayText st).length = 8 := by
  rw [h.text]
  simp

/-- Texts of days are ordered as the days. -/
theorem Written.lt_iff (h : Written tick st tm) (h' : Written tick' st' tm') :
    dayText st < dayText st' ↔ dayOf tick < dayOf tick' := by
  have hday := h.place.date_lt_iff h'.place
  have hsplit : dayOf tick < dayOf tick' ↔ tick / 1000000 / 86400 < tick' / 1000000 / 86400 := by
    unfold dayOf
    omega
  obtain ⟨hy, hm, hd⟩ := h.year, h.mon, h.mday
  obtain ⟨hy', hm', hd'⟩ := h'.year, h'.mon, h'.mday
  rw [h.text, h'.text, List.append_assoc, List.append_assoc, append_lt_append_iff (by simp),
    append_lt_append_iff (by simp), fixed_lt_iff digit_ordered (by omega) (by omega),
    fixed_lt_iff digit_ordered (by omega) (by omega),
    fixed_lt_iff digit_ordered (by omega) (by omega),
    fixed_inj digit_ordered (by omega) (by omega), fixed_inj digit_ordered (by omega) (by omega),
    hsplit, hday]
  omega

/-- A name, whatever follows its day, comes before a later day only. -/
theorem Written.name_lt_iff (h : Written tick st tm) (h' : Written tick' st' tm') (rest : Text) :
    dayText st ++ rest < dayText st' ↔ dayOf tick < dayOf tick' := by
  rw [append_lt_iff (h.length.trans h'.length.symm), h.lt_iff h']

end Names

/-! ## Directories -/

section Directories

structure LogFile (path : Text) where
  name : Text
  created : Int
  dayFileCount : UInt32
  opened : createLogFile path created dayFileCount = some (inDirectory path name)
  dated : Dated created

inductive Entry (path : Text) where
  | directory (name : Text)
  | log (file : LogFile path)

namespace Entry

def name {path : Text} : Entry path → Text
  | .directory name => name
  | .log file => file.name

def isDirectory {path : Text} : Entry path → Bool
  | .directory _ => true
  | .log _ => false

/-- A log file that was created more than thirty days before a day. -/
def expired {path : Text} (now : Int) : Entry path → Bool
  | .directory _ => false
  | .log file => dayOf file.created + 30 < dayOf now

/-- A log file whose name comes before a day. -/
def old {path : Text} (now : Int) : Entry path → Bool
  | .directory _ => false
  | .log file => dayOf file.created < dayOf now

end Entry

/-- What `stat` says about a directory and all that is in it. -/
structure Listing (path : Text) (stat : Text → Option Bool) (entries : List (Entry path)) :
    Prop where
  here : stat path = some true
  kinds : ∀ e ∈ entries, stat (inDirectory path e.name) = some e.isDirectory

variable {path : Text} {stat : Text → Option Bool} {entries : List (Entry path)} {now now' : Int}

theorem LogFile.name_eq (f : LogFile path) {st : Systemtime} {tm : Tm}
    (h : Written f.created st tm) : ∃ rest, f.name = dayText st ++ rest := by
  have hopened := f.opened
  rw [createLogFile, h.run] at hopened
  have hpath : path ++ (47 :: logName st f.dayFileCount).take 4095 = path ++ 47 :: f.name :=
    Option.some.inj hopened
  have hname : (logName st f.dayFileCount).take 4094 = f.name :=
    (List.cons.inj (List.append_cancel_left hpath)).2
  rw [← hname]
  simp only [logName, List.append_assoc]
  rw [List.take_append, List.take_of_length_le (by rw [h.length]; decide)]
  exact ⟨_, rfl⟩

theorem removed_iff (hstat : ∀ e ∈ entries, stat (inDirectory path e.name) = some e.isDirectory)
    {st : Systemtime} {tm : Tm} (hnow : Written now st tm) (e : Entry path) (he : e ∈ entries) :
    (stat (inDirectory path e.name) = some false ∧ e.name < dayText st) ↔ e.old now = true := by
  rw [hstat e he]
  cases e with
  | directory name => simp [Entry.isDirectory, Entry.old]
  | log f =>
    obtain ⟨stf, tmf, hf⟩ := f.dated.written
    obtain ⟨rest, hname⟩ := f.name_eq hf
    simp only [Entry.isDirectory, Entry.old, Entry.name, true_and, decide_eq_true_eq]
    rw [hname, hf.name_lt_iff hnow]

theorem filterMap_paths {p : Text → Prop} [DecidablePred p] {q : Entry path → Bool}
    (h : ∀ e ∈ entries, p e.name ↔ q e = true) :
    (entries.map Entry.name).filterMap
        (fun name => if p name then some (inDirectory path name) else none) =
      (entries.filter q).map fun e => inDirectory path e.name := by
  induction entries with
  | nil => rfl
  | cons e entries ih =>
    have hrest := ih fun e' he' => h e' (List.mem_cons_of_mem _ he')
    have hfirst := h e List.mem_cons_self
    rw [List.map_cons, List.filterMap_cons, hrest]
    by_cases hq : q e = true
    · rw [if_pos (hfirst.mpr hq), List.filter_cons_of_pos hq, List.map_cons]
    · rw [if_neg (mt hfirst.mp hq), List.filter_cons_of_neg hq]

/-- The files of all earlier days are removed. -/
theorem deleteOldLogs_eq (hlisting : Listing path stat entries) (hnow : Dated now') :
    deleteOldLogs path stat (some (entries.map Entry.name)) now now' =
      some ((entries.filter (Entry.old now')).map fun e => inDirectory path e.name) := by
  obtain ⟨st, tm, hst⟩ := hnow.written
  have hcut : appendFormat [] (dayText st) = dayText st := by
    rw [appendFormat, List.nil_append, List.take_of_length_le]
    rw [hst.length]
    decide
  rw [deleteOldLogs, hst.run]
  show (match stat path, some (entries.map Entry.name) with
    | some true, some names => some (names.filterMap fun name =>
        if stat (inDirectory path name) = some false ∧ name < appendFormat [] (dayText st) then
          some (inDirectory path name) else none)
    | _, _ => some []) = _
  rw [hlisting.here, hcut]
  exact congrArg some (filterMap_paths (removed_iff hlisting.kinds hst))

/-- Exactly the files of days more than thirty days ago are removed. -/
def KeepsThirtyDays (path : Text) (stat : Text → Option Bool) (entries : List (Entry path))
    (now now' : Int) : Prop :=
  deleteOldLogs path stat (some (entries.map Entry.name)) now now' =
    some ((entries.filter (Entry.expired now')).map fun e => inDirectory path e.name)

/-- No file was created in the last thirty days before a day. -/
def NoRecentFile (entries : List (Entry path)) (now : Int) : Prop :=
  ∀ f, .log f ∈ entries → ¬ (dayOf now ≤ dayOf f.created + 30 ∧ dayOf f.created < dayOf now)

theorem expired_old {e : Entry path} (h : e.expired now = true) : e.old now = true := by
  cases e with
  | directory name => cases h
  | log f =>
    simp only [Entry.expired, Entry.old, decide_eq_true_eq] at *
    omega

theorem filter_eq_filter {α : Type*} {p q : α → Bool} {l : List α}
    (hpq : ∀ x, p x = true → q x = true) (h : (l.filter p).length = (l.filter q).length)
    {x : α} (hx : x ∈ l) (hq : q x = true) :
    p x = true := by
  have hcomp : (l.filter q).filter p = l.filter p := by
    rw [List.filter_filter]
    congr 1
    funext y
    cases hy : p y with
    | false => rfl
    | true => rw [hpq y hy, Bool.and_self]
  have heq : l.filter p = l.filter q := by
    apply List.Sublist.eq_of_length _ h
    rw [← hcomp]
    exact List.filter_sublist
  have hmem : x ∈ l.filter p := by
    rw [heq]
    exact List.mem_filter.mpr ⟨hx, hq⟩
  exact (List.mem_filter.mp hmem).2

theorem keepsThirtyDays_iff (hlisting : Listing path stat entries) (hnow : Dated now') :
    KeepsThirtyDays path stat entries now now' ↔ NoRecentFile entries now' := by
  unfold KeepsThirtyDays
  rw [deleteOldLogs_eq hlisting hnow, Option.some.injEq]
  constructor
  · intro h f hf hrecent
    have hlen := congrArg List.length h
    rw [List.length_map, List.length_map] at hlen
    have hexpired := filter_eq_filter (fun e => expired_old) hlen.symm hf
      (by simpa [Entry.old] using hrecent.2)
    simp only [Entry.expired, decide_eq_true_eq] at hexpired
    omega
  · intro h
    congr 1
    apply List.filter_congr
    intro e he
    cases e with
    | directory name => rfl
    | log f =>
      have hrecent := h f he
      simp only [Entry.old, Entry.expired, decide_eq_decide]
      omega

end Directories

/-- `logs` -/
def logsPath : Text := [108, 111, 103, 115]

/-- `19700101_000000_0000.log` -/
def firstFile : LogFile logsPath where
  name := [49, 57, 55, 48, 48, 49, 48, 49, 95, 48, 48, 48, 48, 48, 48, 95, 48, 48, 48, 48, 46, 108,
    111, 103]
  created := 0
  dayFileCount := 0
  opened := by decide +kernel
  dated := ⟨by decide, by decide, by decide +kernel⟩

def logsEntries : List (Entry logsPath) := [.directory [46], .log firstFile]

def logsStat (path : Text) : Option Bool :=
  some (path = logsPath ∨ path = inDirectory logsPath [46])

theorem logs_listing : Listing logsPath logsStat logsEntries := ⟨by decide, by decide⟩

/-- The file is removed when it is older than thirty days, on 15 March. -/
theorem keepsThirtyDays_march :
    KeepsThirtyDays logsPath logsStat logsEntries 6307200000000 6307200000000 := by
  refine (keepsThirtyDays_iff logs_listing ⟨by decide, by decide, by decide +kernel⟩).mpr ?_
  intro f hf
  obtain rfl : f = firstFile := by simpa [logsEntries] using hf
  decide

/-- It is removed on the next day already. -/
theorem not_keepsThirtyDays_second_day :
    Dated 86400000000 ∧ Listing logsPath logsStat logsEntries ∧
      ¬ KeepsThirtyDays logsPath logsStat logsEntries 86400000000 86400000000 ∧
      deleteOldLogs logsPath logsStat (some (logsEntries.map Entry.name)) 86400000000 86400000000 =
        some [inDirectory logsPath firstFile.name] := by
  refine ⟨⟨by decide, by decide, by decide +kernel⟩, logs_listing, ?_, by decide +kernel⟩
  unfold KeepsThirtyDays
  decide +kernel

end LogRetention
