import Tcode.LogFormatter
import Tcode.SupportTransitionSystem

/-! # The writer of log files

`file_writer` opens a new file when the day of the month changes and behind 65536 lines. The
directory is that of its files. A call reads the clock each time anew, `opendir` and `fopen` may
fail, and the disk takes all that is written to an open file.
-/
namespace LogFileWriter

open SupportTransitionSystem SupportFixedWidth BufferByteBuffer TimeCalendar
open SupportMachineInt (toInt toInt_of_range)
open LogRecord (Record)
open LogRetention LogFormatter

/-- The files of the directory with what is in them. -/
abbrev Directory := List (Text × Text)

/-- `_file` is the name of the open file. -/
structure FileWriter where
  buffer : ByteBuffer
  file : Option Text
  currentDay : UInt32
  lineCount : UInt32
  dayFileCount : UInt32

def fileWriter : FileWriter := ⟨.empty, none, 0, 0, 0⟩

/-- A call with what it reads from the clock, in `write`, in `_delete_old_logs` and in
`_create_log_file`, and whether `opendir` and `fopen` succeed. -/
structure Call where
  record : Record
  now : Int
  sep : Int
  deleted : Int
  created : Int
  listed : Bool
  opens : Bool

/-- `stat` of the directory and of the files in it. -/
def stat (path : Text) (dir : Directory) (p : Text) : Option Bool :=
  if p = path then some true
  else if ∃ f ∈ dir, p = inDirectory path f.1 then some false
  else none

/-- `_delete_old_logs` -/
def removeOldLogs (path : Text) (dir : Directory) (c : Call) : Option Directory := do
  let names := if c.listed then some (dir.map Prod.fst) else none
  let removed ← deleteOldLogs path (stat path dir) names c.sep c.deleted
  return dir.filter fun f => inDirectory path f.1 ∉ removed

/-- The name in the directory of a path that `_create_log_file` opens. -/
def nameIn (path full : Text) : Text := full.drop (path.length + 1)

/-- `fopen` with `wb` -/
def truncate (dir : Directory) (name : Text) : Directory :=
  dir.filter (fun f => f.1 ≠ name) ++ [(name, [])]

/-- `fwrite` to the file of a name, or to none when it was removed. -/
def appendTo (dir : Directory) (name bytes : Text) : Directory :=
  dir.map fun f => if f.1 = name then (f.1, f.2 ++ bytes) else f

/-- What `write` does behind the choice of a file. -/
def put (w : FileWriter) (dir : Directory) (r : Record) : Option (FileWriter × Directory) := do
  let name ← w.file
  let buffer ← format r w.buffer
  return ({ w with lineCount := w.lineCount + 1, buffer := buffer.clear },
    appendTo dir name buffer.contents)

def newDay (path : Text) (w : FileWriter) (dir : Directory) (c : Call) (day : UInt32) :
    Option (FileWriter × Directory) :=
  if w.currentDay ≠ day then do
    let dir ← removeOldLogs path dir c
    return ({ w with dayFileCount := 0 }, dir)
  else some (w, dir)

def write (path : Text) (w : FileWriter) (dir : Directory) (c : Call) :
    Option (FileWriter × Directory) := do
  let st ← systemtime c.now
  if w.file = none ∨ w.currentDay ≠ st.wDay.toUInt32 ∨ 65535 < w.lineCount then
    let (w, dir) ← newDay path w dir c st.wDay.toUInt32
    let full ← createLogFile path c.created w.dayFileCount
    if c.opens then
      put { w with
        file := some (nameIn path full)
        dayFileCount := w.dayFileCount + 1
        lineCount := 0
        currentDay := st.wDay.toUInt32 } (truncate dir (nameIn path full)) c.record
    else some ({ w with file := none }, dir)
  else put w dir c.record

/-- The writer and its directory, with the time of the last call, all calls, and those whose
record went to a file behind the name of this file. -/
structure State where
  writer : FileWriter
  dir : Directory
  clock : Int
  calls : List Call
  kept : List (Text × Call)

def initial (dir : Directory) : State := ⟨fileWriter, dir, 0, [], []⟩

def next (path : Text) (s : State) (c : Call) : State :=
  match write path s.writer s.dir c with
  | none => s
  | some (w, dir) => ⟨w, dir, c.now, s.calls ++ [c],
      s.kept ++ (w.file.map fun name => (name, c)).toList⟩

/-- A call is a step where it is defined. -/
def machine (path : Text) : System State Call :=
  ⟨fun s c => (write path s.writer s.dir c).isSome, next path⟩

instance (path : Text) (s : State) (c : Call) : Decidable ((machine path).Enabled s c) :=
  inferInstanceAs (Decidable (_ = true))

/-- A call within one day, not before that of the last call and less than 28 days behind it, of a
record whose texts end in their arrays. -/
structure Steady (s : State) (c : Call) : Prop where
  now : Dated c.now
  deleted : Dated c.deleted
  created : Dated c.created
  sameDay : dayOf c.created = dayOf c.now
  forward : dayOf s.clock ≤ dayOf c.now
  near : s.kept = [] ∨ dayOf c.now < dayOf s.clock + 28
  few : s.writer.dayFileCount.toNat < 2147483647
  terminated : (lineOf c.record).isSome

/-! ## Names of files -/

section Names

variable {tick tick' : Int} {st st' : Systemtime} {tm tm' : Tm} {k k' : UInt32} {n m : Nat}
  {name : Text} {day day' : Int}

/-- The number that a text of digits stands for. -/
def valueOf (t : Text) : Nat := t.foldl (fun v d => 10 * v + (d.toNat - 48)) 0

theorem valueOf_append (t : Text) (d : UInt8) :
    valueOf (t ++ [d]) = 10 * valueOf t + (d.toNat - 48) := by
  rw [valueOf, List.foldl_append]
  rfl

theorem digit_toNat (hn : n < 10) : (digit n).toNat - 48 = n := by
  have hdigits : ∀ n, n < 10 → (digit n).toNat - 48 = n := by decide
  exact hdigits n hn

theorem valueOf_decimal (t : Text) (n : Nat) (ht : valueOf t = 0) :
    valueOf (t ++ decimal n) = n := by
  induction n using decimal.induct with
  | case1 n hlt =>
    rw [decimal, if_pos hlt, valueOf_append, ht, digit_toNat hlt]
    omega
  | case2 n hge ih =>
    rw [decimal, if_neg hge, ← List.append_assoc, valueOf_append, ih,
      digit_toNat (Nat.mod_lt _ (by decide))]
    omega

theorem valueOf_zeros (n : Nat) : valueOf (List.replicate n (digit 0)) = 0 := by
  induction n with
  | zero => rfl
  | succ n ih =>
    rw [List.replicate_succ', valueOf_append, ih]
    rfl

/-- Numbers are read back from their digits. -/
theorem zeroPadded_inj {w : Nat} (h : zeroPadded w (n : Int) = zeroPadded w (m : Int)) :
    n = m := by
  have hvalue (n : Nat) : valueOf (zeroPadded w (n : Int)) = n := by
    rw [zeroPadded, if_neg (by omega), List.nil_append, Int.natAbs_natCast]
    exact valueOf_decimal _ n (valueOf_zeros _)
  rw [← hvalue n, h, hvalue m]

/-- The fields of a time. -/
theorem Dated.fields (h : Dated tick) (hrun : systemtime tick = some st) :
    ∃ tm, Written tick st tm ∧ (st.wDay.toNat : Int) = tm.mday ∧ st.wHour.toNat < 100 ∧
      st.wMinute.toNat < 100 ∧ st.wSecond.toNat < 100 := by
  have hpos := h.nonneg
  have hfits := h.fits
  obtain ⟨st', tm, hw⟩ := Dated.written h
  obtain rfl : st' = st := Option.some.inj (hw.run.symm.trans hrun)
  obtain ⟨tm', hconvert, hat⟩ := convertTo_at (t := tick / 1000000) (by omega) (by omega)
  have htime : tick.tdiv (1000 * 1000) = tick / 1000000 := Int.tdiv_eq_ediv_of_nonneg hpos
  rw [systemtime, convertToTm, htime, hconvert, Option.bind_eq_bind, Option.bind_some,
    Option.pure_def, Option.some.injEq] at hrun
  have hbefore := hat.date_lt_iff hw.place
  have hafter := hw.place.date_lt_iff hat
  have hmday := hw.mday
  have hvalid := hat.valid (by omega)
  have hhour := hvalid.hour
  have hmin := hvalid.min
  have hsec := hvalid.sec
  refine ⟨tm, hw, ?_, ?_, ?_, ?_⟩
  · rw [← hrun]
    show ((UInt16.ofInt tm'.mday).toNat : Int) = _
    rw [toNat_ofInt (by omega) (by omega)]
    omega
  · rw [← hrun]
    show (UInt16.ofInt tm'.hour).toNat < 100
    rw [toNat_ofInt (by omega) (by omega)]
    omega
  · rw [← hrun]
    show (UInt16.ofInt tm'.min).toNat < 100
    rw [toNat_ofInt (by omega) (by omega)]
    omega
  · rw [← hrun]
    show (UInt16.ofInt tm'.sec).toNat < 100
    rw [toNat_ofInt (by omega) (by omega)]
    omega

/-- The name of a file of a day with the number of the files of this day before it. -/
def Named (name : Text) (day : Int) (count : UInt32) : Prop :=
  ∃ tick st, Dated tick ∧ systemtime tick = some st ∧ dayOf tick = day ∧
    name = logName st count ∧ count.toNat < 2147483648

theorem twoDigits (hn : n < 100) : (zeroPadded 2 (n : Int)).length = 2 := by
  rw [zeroPadded_eq_fixed (by decide) hn, fixed_length]

theorem logName_inj (h : Dated tick) (h' : Dated tick') (hrun : systemtime tick = some st)
    (hrun' : systemtime tick' = some st') (hk : k.toNat < 2147483648)
    (hk' : k'.toNat < 2147483648) (hname : logName st k = logName st' k') :
    dayOf tick = dayOf tick' ∧ k = k' := by
  obtain ⟨tm, hw, -, hhour, hmin, hsec⟩ := Dated.fields h hrun
  obtain ⟨tm', hw', -, hhour', hmin', hsec'⟩ := Dated.fields h' hrun'
  simp only [logName, List.append_assoc] at hname
  obtain ⟨hday, hname⟩ := List.append_inj hname (hw.length.trans hw'.length.symm)
  obtain ⟨-, hname⟩ := List.append_inj hname rfl
  obtain ⟨-, hname⟩ := List.append_inj hname ((twoDigits hhour).trans (twoDigits hhour').symm)
  obtain ⟨-, hname⟩ := List.append_inj hname ((twoDigits hmin).trans (twoDigits hmin').symm)
  obtain ⟨-, hname⟩ := List.append_inj hname ((twoDigits hsec).trans (twoDigits hsec').symm)
  obtain ⟨-, hname⟩ := List.append_inj hname rfl
  have hcount := List.append_cancel_right hname
  rw [toInt_of_range (by omega) (by omega), toInt_of_range (by omega) (by omega)] at hcount
  have hlt := hw.lt_iff hw'
  have hgt := hw'.lt_iff hw
  rw [hday] at hlt hgt
  have hnot : ¬ dayText st' < dayText st' := List.lt_irrefl _
  have hle := mt hlt.mpr hnot
  have hge := mt hgt.mpr hnot
  exact ⟨by omega, UInt32.toNat_inj.mp (zeroPadded_inj hcount)⟩

theorem Named.inj (h : Named name day k) (h' : Named name day' k') : day = day' ∧ k = k' := by
  obtain ⟨tick, st, hdated, hrun, rfl, hname, hk⟩ := h
  obtain ⟨tick', st', hdated', hrun', rfl, hname', hk'⟩ := h'
  exact logName_inj hdated hdated' hrun hrun' hk hk' (hname.symm.trans hname')

theorem dayText_prefix (st : Systemtime) (k : UInt32) : dayText st <+: logName st k := by
  simp only [logName, List.append_assoc]
  exact List.prefix_append _ _

/-- The name of a file that `_create_log_file` opens. -/
theorem named_create {path full : Text} (h : Dated tick) (hk : k.toNat < 2147483648)
    (hopen : createLogFile path tick k = some full) :
    Named (nameIn path full) (dayOf tick) k := by
  obtain ⟨st, hrun, hfull⟩ := Option.bind_eq_some_iff.mp hopen
  refine ⟨tick, st, h, hrun, rfl, ?_, hk⟩
  obtain ⟨tm, hw, -, hhour, hmin, hsec⟩ := Dated.fields h hrun
  have hcount := zeroPadded_length_le (w := 4) (x := toInt k.toNat) (k := 10) (by decide) (by
    rw [toInt_of_range (by omega) (by omega)]
    omega)
  have hlength : (47 :: logName st k).length ≤ 4095 := by
    simp only [logName, List.length_cons, List.length_append, List.length_nil, hw.length,
      twoDigits hhour, twoDigits hmin, twoDigits hsec]
    omega
  rw [← Option.some.inj hfull, appendFormat, List.take_of_length_le hlength, nameIn,
    List.drop_append, List.drop_of_length_le (Nat.le_succ _), List.nil_append]
  have hdrop : path.length + 1 - path.length = 1 := by omega
  rw [hdrop]
  rfl

/-- Times of one day have the same text for it. -/
theorem dayText_eq (h : Dated tick) (h' : Dated tick') (hrun : systemtime tick = some st)
    (hrun' : systemtime tick' = some st') (hday : dayOf tick = dayOf tick') :
    dayText st = dayText st' := by
  obtain ⟨tm, hw, -⟩ := Dated.fields h hrun
  obtain ⟨tm', hw', -⟩ := Dated.fields h' hrun'
  have hbefore := hw.place.date_lt_iff hw'.place
  have hafter := hw'.place.date_lt_iff hw.place
  have hsame : tick / 1000000 / 86400 = tick' / 1000000 / 86400 := by
    unfold dayOf at hday
    omega
  have hyear : tm.year = tm'.year := by omega
  have hmon : tm.mon = tm'.mon := by omega
  have hmday : tm.mday = tm'.mday := by omega
  rw [hw.text, hw'.text, hyear, hmon, hmday]

/-- `_current_day` as a call at a time would set it. -/
def DayWord (tick : Int) (word : UInt32) : Prop :=
  ∃ st, systemtime tick = some st ∧ st.wDay.toUInt32 = word

theorem dayWord_eq_of_sameDay {word : UInt32} (h : Dated tick) (h' : Dated tick')
    (hword : DayWord tick word) (hrun : systemtime tick' = some st)
    (hday : dayOf tick = dayOf tick') : st.wDay.toUInt32 = word := by
  obtain ⟨st', hrun', rfl⟩ := hword
  obtain ⟨tm', hw', hmday', -⟩ := Dated.fields h hrun'
  obtain ⟨tm, hw, hmday, -⟩ := Dated.fields h' hrun
  have hbefore := hw.place.date_lt_iff hw'.place
  have hafter := hw'.place.date_lt_iff hw.place
  unfold dayOf at hday
  have hsame : st.wDay.toNat = st'.wDay.toNat := by omega
  rw [UInt16.toNat_inj.mp hsame]

/-- Within 28 days the number of a day in its month tells which day it is. -/
theorem sameDay_of_dayWord {word : UInt32} (h : Dated tick) (h' : Dated tick')
    (hword : DayWord tick word) (hrun : systemtime tick' = some st)
    (heq : st.wDay.toUInt32 = word) (hle : dayOf tick ≤ dayOf tick')
    (hnear : dayOf tick' < dayOf tick + 28) : dayOf tick = dayOf tick' := by
  obtain ⟨st', hrun', hst'⟩ := hword
  obtain ⟨tm', hw', hmday', -⟩ := Dated.fields h hrun'
  obtain ⟨tm, hw, hmday, -⟩ := Dated.fields h' hrun
  have hwords := congrArg UInt32.toNat (heq.trans hst'.symm)
  rw [UInt16.toNat_toUInt32, UInt16.toNat_toUInt32] at hwords
  unfold dayOf at *
  have hdays := hw'.place.day_eq_of_mday hw.place (by omega) (by omega) (by omega)
  omega

end Names

/-! ## What the directory holds -/

section Files

variable {kept : List (Text × Call)} {w w' : FileWriter} {dir dir' : Directory} {c : Call}
  {name n : Text} {day day' : Int} {text : Text}

def ofFile (kept : List (Text × Call)) (name : Text) : List (Text × Call) :=
  kept.filter fun p => p.1 = name

/-- The lines of the records that went to a file. -/
def linesOf (kept : List (Text × Call)) (name : Text) : Text :=
  (ofFile kept name).flatMap fun p => (lineOf p.2.record).getD []

theorem ofFile_append_self (kept : List (Text × Call)) (c : Call) (name : Text) :
    ofFile (kept ++ [(name, c)]) name = ofFile kept name ++ [(name, c)] := by
  simp [ofFile, List.filter_append]

theorem ofFile_append_ne (h : n ≠ name) : ofFile (kept ++ [(name, c)]) n = ofFile kept n := by
  simp [ofFile, List.filter_append, h.symm]

theorem ofFile_fresh (h : ∀ p ∈ kept, p.1 ≠ name) : ofFile kept name = [] :=
  List.filter_eq_nil_iff.mpr fun p hp => by simpa using h p hp

theorem linesOf_append_self (h : lineOf c.record = some text) :
    linesOf (kept ++ [(name, c)]) name = linesOf kept name ++ text := by
  simp only [linesOf, ofFile_append_self, List.flatMap_append, List.flatMap_singleton, h,
    Option.getD_some]

theorem linesOf_append_ne (h : n ≠ name) : linesOf (kept ++ [(name, c)]) n = linesOf kept n := by
  rw [linesOf, ofFile_append_ne h, linesOf]

/-- What is kept of the files up to a day: those that are still there have all of their lines,
and those of the day itself are there and have had lower numbers than the next one. -/
structure Stored (kept : List (Text × Call)) (w : FileWriter) (dir : Directory) (day : Int) :
    Prop where
  cleared : Cleared w.buffer
  dated : ∀ p ∈ kept, Dated p.2.now ∧ dayOf p.2.now ≤ day
  named : ∀ p ∈ kept, ∃ k, Named p.1 (dayOf p.2.now) k ∧
    (dayOf p.2.now = day → k < w.dayFileCount ∧ DayWord p.2.now w.currentDay)
  whole : ∀ f ∈ dir, ∀ p ∈ kept, f.1 = p.1 → f.2 = linesOf kept f.1
  today : ∀ p ∈ kept, dayOf p.2.now = day → ∃ f ∈ dir, f.1 = p.1
  short : ∀ name, (ofFile kept name).length ≤ 65536

/-- The open file has records of the day, as many as are counted. -/
structure InUse (kept : List (Text × Call)) (w : FileWriter) (name : Text) (day : Int) : Prop where
  file : w.file = some name
  record : ∃ p ∈ kept, p.1 = name ∧ dayOf p.2.now = day
  count : w.lineCount.toNat = (ofFile kept name).length

/-- A file to which the next record can go. -/
structure Opened (kept : List (Text × Call)) (w : FileWriter) (dir : Directory) (name : Text)
    (day : Int) : Prop where
  file : w.file = some name
  whole : ∀ f ∈ dir, f.1 = name → f.2 = linesOf kept name
  here : ∃ f ∈ dir, f.1 = name
  named : ∃ k, Named name day k ∧ k < w.dayFileCount
  count : w.lineCount.toNat = (ofFile kept name).length
  room : w.lineCount.toNat ≤ 65535

theorem Stored.later (h : Stored kept w dir day) (hle : day ≤ day') : Stored kept w dir day' where
  cleared := h.cleared
  dated p hp := ⟨(h.dated p hp).1, Int.le_trans (h.dated p hp).2 hle⟩
  named p hp := by
    obtain ⟨k, hname, hday⟩ := h.named p hp
    have hold := (h.dated p hp).2
    exact ⟨k, hname, fun heq => hday (by omega)⟩
  whole := h.whole
  today p hp heq := by
    have hold := (h.dated p hp).2
    exact h.today p hp (by omega)
  short := h.short

theorem InUse.opened (h : InUse kept w name day) (hstored : Stored kept w dir day)
    (hroom : w.lineCount.toNat ≤ 65535) : Opened kept w dir name day := by
  obtain ⟨p, hp, rfl, hday⟩ := h.record
  obtain ⟨k, hname, hk⟩ := hstored.named p hp
  rw [hday] at hname
  exact ⟨h.file, fun f hf heq => heq ▸ hstored.whole f hf p hp heq, hstored.today p hp hday,
    ⟨k, hname, (hk hday).1⟩, h.count, hroom⟩

/-- A number that none of the day's files had gives a name that no file had. -/
theorem Stored.fresh (h : Stored kept w dir day) (hname : Named name day w.dayFileCount) :
    ∀ p ∈ kept, p.1 ≠ name := by
  rintro p hp rfl
  obtain ⟨k, hold, hday⟩ := h.named p hp
  obtain ⟨hsame, rfl⟩ := hold.inj hname
  exact UInt32.lt_irrefl _ (hday hsame).1

/-- A file of the day is opened with a new name. -/
theorem Stored.truncate (h : Stored kept w dir day) (hname : Named name day w.dayFileCount)
    (hfew : w.dayFileCount.toNat < 2147483647) {word : UInt32}
    (hword : ∀ p ∈ kept, dayOf p.2.now = day → DayWord p.2.now word)
    (hw : w' = { w with
      file := some name, dayFileCount := w.dayFileCount + 1, lineCount := 0, currentDay := word }) :
    Stored kept w' (truncate dir name) day ∧ Opened kept w' (truncate dir name) name day := by
  have hfresh := h.fresh hname
  have hmem (f : Text × Text) : f ∈ LogFileWriter.truncate dir name ↔
      f ∈ dir ∧ f.1 ≠ name ∨ f = (name, []) := by
    simp [LogFileWriter.truncate]
  have hnext (k : UInt32) (hk : k ≤ w.dayFileCount) : k < w.dayFileCount + 1 := by
    rw [UInt32.lt_iff_toNat_lt, UInt32.toNat_add]
    rw [UInt32.le_iff_toNat_le] at hk
    have hone : (1 : UInt32).toNat = 1 := rfl
    omega
  subst hw
  refine ⟨⟨h.cleared, h.dated, ?_, ?_, ?_, h.short⟩, rfl, ?_, ?_, ?_, ?_, Nat.zero_le _⟩
  · intro p hp
    obtain ⟨k, hk, hday⟩ := h.named p hp
    exact ⟨k, hk, fun heq => ⟨hnext k (UInt32.le_of_lt (hday heq).1), hword p hp heq⟩⟩
  · intro f hf p hp heq
    rcases (hmem f).mp hf with ⟨hold, -⟩ | rfl
    · exact h.whole f hold p hp heq
    · exact absurd heq.symm (hfresh p hp)
  · intro p hp heq
    obtain ⟨f, hf, hsame⟩ := h.today p hp heq
    exact ⟨f, (hmem f).mpr (Or.inl ⟨hf, hsame ▸ hfresh p hp⟩), hsame⟩
  · intro f hf heq
    rcases (hmem f).mp hf with ⟨-, hne⟩ | rfl
    · exact absurd heq hne
    · rw [linesOf, ofFile_fresh hfresh]
      rfl
  · exact ⟨(name, []), (hmem _).mpr (Or.inr rfl), rfl⟩
  · exact ⟨_, hname, hnext _ UInt32.le_rfl⟩
  · rw [ofFile_fresh hfresh]
    rfl

/-- A record goes behind the others of its file. -/
theorem Opened.put_spec (h : Opened kept w dir name day) (hstored : Stored kept w dir day)
    (hdated : Dated c.now) (hday : dayOf c.now = day) (hword : DayWord c.now w.currentDay)
    (hline : lineOf c.record = some text) : ∃ w' dir', put w dir c.record = some (w', dir') ∧
      Stored (kept ++ [(name, c)]) w' dir' day ∧ InUse (kept ++ [(name, c)]) w' name day := by
  obtain ⟨buffer, hformat, hvalid, hcontents, -⟩ := hstored.cleared.format_spec hline
  have hput : put w dir c.record = some
      ({ w with lineCount := w.lineCount + 1, buffer := buffer.clear },
        appendTo dir name text) := by
    simp only [put, h.file, hformat, hcontents, Option.bind_eq_bind, Option.bind_some,
      Option.pure_def]
  have hkeeps (f : Text × Text) (hf : f ∈ dir) :
      ∃ g ∈ appendTo dir name text, g.1 = f.1 := by
    refine ⟨_, List.mem_map_of_mem hf, ?_⟩
    split <;> rfl
  have hcount : (w.lineCount + 1).toNat = w.lineCount.toNat + 1 := by
    have hroom := h.room
    have hone : (1 : UInt32).toNat = 1 := rfl
    rw [UInt32.toNat_add]
    omega
  have hlength := congrArg List.length (ofFile_append_self kept c name)
  rw [List.length_append, List.length_singleton, ← h.count] at hlength
  refine ⟨_, _, hput, ⟨cleared_clear hvalid, ?_, ?_, ?_, ?_, ?_⟩, h.file,
    ⟨(name, c), List.mem_append_right _ List.mem_cons_self, rfl, hday⟩, hcount.trans hlength.symm⟩
  · intro p hp
    rcases List.mem_append.mp hp with hp | hp
    · exact hstored.dated p hp
    · obtain rfl := List.mem_singleton.mp hp
      exact ⟨hdated, Int.le_of_eq hday⟩
  · intro p hp
    rcases List.mem_append.mp hp with hp | hp
    · exact hstored.named p hp
    · obtain rfl := List.mem_singleton.mp hp
      obtain ⟨k, hname, hk⟩ := h.named
      exact ⟨k, hday.symm ▸ hname, fun _ => ⟨hk, hword⟩⟩
  · intro f hf p hp heq
    obtain ⟨g, hg, rfl⟩ := List.mem_map.mp hf
    by_cases hsame : g.1 = name
    · rw [if_pos hsame, hsame, linesOf_append_self hline, h.whole g hg hsame]
    · rw [if_neg hsame] at heq ⊢
      rw [linesOf_append_ne hsame]
      rcases List.mem_append.mp hp with hp | hp
      · exact hstored.whole g hg p hp heq
      · obtain rfl := List.mem_singleton.mp hp
        exact absurd heq hsame
  · intro p hp heq
    rcases List.mem_append.mp hp with hp | hp
    · obtain ⟨f, hf, hsame⟩ := hstored.today p hp heq
      obtain ⟨g, hg, hgf⟩ := hkeeps f hf
      exact ⟨g, hg, hgf.trans hsame⟩
    · obtain rfl := List.mem_singleton.mp hp
      obtain ⟨f, hf, hsame⟩ := h.here
      obtain ⟨g, hg, hgf⟩ := hkeeps f hf
      exact ⟨g, hg, hgf.trans hsame⟩
  · intro n
    by_cases hn : n = name
    · rw [hn, hlength]
      exact Nat.succ_le_succ h.room
    · rw [ofFile_append_ne hn]
      exact hstored.short n

end Files

/-! ## Runs -/

section Runs

variable {path : Text} {s t : State} {w w' : FileWriter} {dir dir' : Directory} {c : Call}
  {kept : List (Text × Call)} {st : Systemtime}

theorem removeOldLogs_isSome (path : Text) (dir : Directory) (h : Dated c.deleted) :
    ∃ dir', removeOldLogs path dir c = some dir' ∧ dir'.Sublist dir := by
  obtain ⟨st, tm, hw⟩ := h.written
  have hdelete (names : Option (List Text)) :
      ∃ removed, deleteOldLogs path (stat path dir) names c.sep c.deleted = some removed := by
    rw [deleteOldLogs, hw.run, Option.bind_eq_bind, Option.bind_some]
    split <;> exact ⟨_, rfl⟩
  obtain ⟨removed, hremoved⟩ := hdelete (if c.listed then some (dir.map Prod.fst) else none)
  refine ⟨dir.filter fun f => inDirectory path f.1 ∉ removed, ?_, List.filter_sublist⟩
  simp only [removeOldLogs, hremoved, Option.bind_eq_bind, Option.bind_some, Option.pure_def]

/-- A changed day means that no file is of this day yet. -/
theorem Stored.newDay_spec (h : Stored kept w dir (dayOf c.now)) (hnow : Dated c.now)
    (path : Text) (hdeleted : Dated c.deleted) (hrun : systemtime c.now = some st)
    (hfew : w.dayFileCount.toNat < 2147483647) :
    ∃ w' dir', newDay path w dir c st.wDay.toUInt32 = some (w', dir') ∧
      Stored kept w' dir' (dayOf c.now) ∧ w'.dayFileCount.toNat < 2147483647 := by
  by_cases hday : w.currentDay ≠ st.wDay.toUInt32
  · obtain ⟨dir', hremove, hsub⟩ := removeOldLogs_isSome path dir hdeleted
    have hnone (p : Text × Call) (hp : p ∈ kept) : dayOf p.2.now ≠ dayOf c.now := by
      intro heq
      obtain ⟨k, -, hword⟩ := h.named p hp
      exact hday (dayWord_eq_of_sameDay (h.dated p hp).1 hnow (hword heq).2 hrun heq).symm
    refine ⟨{ w with dayFileCount := 0 }, dir', ?_, ⟨h.cleared, h.dated, fun p hp => ?_, ?_, ?_,
      h.short⟩, show (0 : UInt32).toNat < 2147483647 by decide⟩
    · simp only [newDay, if_pos hday, hremove, Option.bind_eq_bind, Option.bind_some,
        Option.pure_def]
    · obtain ⟨k, hname, -⟩ := h.named p hp
      exact ⟨k, hname, fun heq => absurd heq (hnone p hp)⟩
    · exact fun f hf => h.whole f (hsub.subset hf)
    · exact fun p hp heq => absurd heq (hnone p hp)
  · exact ⟨w, dir, if_neg hday, h, hfew⟩

/-- What a call keeps of its record. -/
def keep (w : FileWriter) (c : Call) : List (Text × Call) :=
  (w.file.map fun name => (name, c)).toList

/-- What holds between two calls. -/
structure Invariant (s : State) : Prop where
  stored : Stored s.kept s.writer s.dir (dayOf s.clock)
  open_file : ∀ name, s.writer.file = some name → InUse s.kept s.writer name (dayOf s.clock)
  opens : (s.calls.filter Call.opens).Sublist (s.kept.map Prod.snd)
  calls : (s.kept.map Prod.snd).Sublist s.calls

/-- A call whose writer has no file any more kept nothing, as one that opens none may. -/
structure Recorded (kept : List (Text × Call)) (c : Call) (w : FileWriter) (dir : Directory) :
    Prop where
  stored : Stored (kept ++ keep w c) w dir (dayOf c.now)
  open_file : ∀ name, w.file = some name → InUse (kept ++ keep w c) w name (dayOf c.now)
  opens : c.opens = true → w.file ≠ none

theorem Opened.recorded {name : Text} (h : Opened kept w dir name (dayOf c.now))
    (hstored : Stored kept w dir (dayOf c.now)) (hdated : Dated c.now)
    (hword : DayWord c.now w.currentDay) (hline : (lineOf c.record).isSome) :
    ∃ w' dir', put w dir c.record = some (w', dir') ∧ Recorded kept c w' dir' := by
  obtain ⟨text, htext⟩ := Option.isSome_iff_exists.mp hline
  obtain ⟨w', dir', hput, hstored', huse⟩ := h.put_spec hstored hdated rfl hword htext
  have hkeep : keep w' c = [(name, c)] := by
    rw [keep, huse.file]
    rfl
  refine ⟨w', dir', hput, hkeep ▸ hstored', fun n hn => ?_, fun _ hnone => ?_⟩
  · obtain rfl := Option.some.inj (huse.file.symm.trans hn)
    exact hkeep ▸ huse
  · cases hnone.symm.trans huse.file

theorem Invariant.write_spec (h : Invariant s) (path : Text) (hc : Steady s c) :
    ∃ w' dir', write path s.writer s.dir c = some (w', dir') ∧ Recorded s.kept c w' dir' := by
  obtain ⟨st, tm, hwritten⟩ := hc.now.written
  have hrun := hwritten.run
  have hstored := h.stored.later hc.forward
  have hword : DayWord c.now st.wDay.toUInt32 := ⟨st, hrun, rfl⟩
  by_cases hchoose :
      s.writer.file = none ∨ s.writer.currentDay ≠ st.wDay.toUInt32 ∨ 65535 < s.writer.lineCount
  · obtain ⟨w, dir, hnew, hstored', hfew⟩ :=
      hstored.newDay_spec hc.now path hc.deleted hrun hc.few
    obtain ⟨stc, tmc, hcreated⟩ := hc.created.written
    have hopen : createLogFile path c.created w.dayFileCount =
        some (appendFormat path (47 :: logName stc w.dayFileCount)) := by
      rw [createLogFile, hcreated.run]
      rfl
    have hname := named_create hc.created (by omega) hopen
    rw [hc.sameDay] at hname
    cases hopens : c.opens with
    | true =>
      have hold (p : Text × Call) (hp : p ∈ s.kept) (heq : dayOf p.2.now = dayOf c.now) :
          DayWord p.2.now st.wDay.toUInt32 := by
        obtain ⟨k, -, hk⟩ := hstored'.named p hp
        rw [dayWord_eq_of_sameDay (hstored'.dated p hp).1 hc.now (hk heq).2 hrun heq]
        exact (hk heq).2
      obtain ⟨hstored'', hopened⟩ := hstored'.truncate hname hfew hold rfl
      obtain ⟨w', dir', hput, hresult⟩ := hopened.recorded hstored'' hc.now hword hc.terminated
      refine ⟨w', dir', ?_, hresult⟩
      simp only [write, hrun, Option.bind_eq_bind, Option.bind_some, if_pos hchoose, hnew, hopen,
        hopens, if_true]
      exact hput
    | false =>
      have hkeep : s.kept ++ keep { w with file := none } c = s.kept := List.append_nil _
      refine ⟨{ w with file := none }, dir, ?_, ?_, ?_, ?_⟩
      · simp [write, hrun, if_pos hchoose, hnew, hopen, hopens]
      · rw [hkeep]
        exact ⟨hstored'.cleared, hstored'.dated, hstored'.named, hstored'.whole, hstored'.today,
          hstored'.short⟩
      · intro name hname
        cases hname
      · exact fun htrue => absurd (hopens.symm.trans htrue) Bool.false_ne_true
  · obtain ⟨hfile, hday, hlines⟩ : s.writer.file ≠ none ∧
        s.writer.currentDay = st.wDay.toUInt32 ∧ ¬ 65535 < s.writer.lineCount := by
      simpa only [not_or, not_not] using hchoose
    obtain ⟨name, hname⟩ := Option.ne_none_iff_exists'.mp hfile
    have huse := h.open_file name hname
    obtain ⟨p, hp, hpname, hpday⟩ := huse.record
    obtain ⟨k, -, hk⟩ := h.stored.named p hp
    have hnear := hc.near.resolve_left (List.ne_nil_of_mem hp)
    have hforward := hc.forward
    have hsame := sameDay_of_dayWord (h.stored.dated p hp).1 hc.now (hk hpday).2 hrun hday.symm
      (by omega) (by omega)
    have huse' : InUse s.kept s.writer name (dayOf c.now) :=
      ⟨huse.file, ⟨p, hp, hpname, hsame⟩, huse.count⟩
    have hroom : s.writer.lineCount.toNat ≤ 65535 :=
      UInt32.le_iff_toNat_le.mp (UInt32.not_lt.mp hlines)
    obtain ⟨w', dir', hput, hresult⟩ := (huse'.opened hstored hroom).recorded hstored hc.now
      (hday ▸ hword) hc.terminated
    refine ⟨w', dir', ?_, hresult⟩
    simp only [write, hrun, Option.bind_eq_bind, Option.bind_some, if_neg hchoose]
    exact hput

theorem next_eq (h : write path s.writer s.dir c = some (w, dir)) :
    next path s c = ⟨w, dir, c.now, s.calls ++ [c], s.kept ++ keep w c⟩ := by
  rw [next, h]
  rfl

theorem Invariant.next (h : Invariant s) (hc : Steady s c) : Invariant (next path s c) := by
  obtain ⟨w, dir, hwrite, hr⟩ := h.write_spec path hc
  rw [next_eq hwrite]
  refine ⟨hr.stored, hr.open_file, ?_, ?_⟩
  · have hsub : ([c].filter Call.opens).Sublist ((keep w c).map Prod.snd) := by
      cases hopens : c.opens with
      | false => simp [hopens]
      | true =>
        obtain ⟨name, hname⟩ := Option.ne_none_iff_exists'.mp (hr.opens hopens)
        simp [keep, hname, hopens]
    rw [List.filter_append, List.map_append]
    exact h.opens.append hsub
  · have hsub : ((keep w c).map Prod.snd).Sublist [c] := by
      cases hfile : w.file <;> simp [keep, hfile]
    rw [List.map_append]
    exact h.calls.append hsub

theorem invariant_initial (dir : Directory) : Invariant (initial dir) := by
  refine ⟨⟨Or.inl rfl, ?_, ?_, ?_, ?_, fun _ => Nat.zero_le _⟩, ?_, List.Sublist.refl _,
    List.Sublist.refl _⟩
  · exact fun p hp => absurd hp List.not_mem_nil
  · exact fun p hp => absurd hp List.not_mem_nil
  · exact fun f _ p hp => absurd hp List.not_mem_nil
  · exact fun p hp => absurd hp List.not_mem_nil
  · intro name hname
    cases hname

theorem invariant_run (h : (machine path).Execution Steady (initial dir) s) : Invariant s :=
  System.Execution.invariant h (invariant_initial dir) fun _ _ _ hu _ hc => hu.next hc

/-- A file that is still there has the lines of exactly the records that went to it, in their
order, and it is there until its day is over. It has records of the day in its name only, at most
65536 of them. Every call keeps its record, if `fopen` does not fail, and never leaves what is
defined. -/
structure LogKept (path : Text) (s : State) : Prop where
  whole : ∀ p ∈ s.kept, ∀ f ∈ s.dir, f.1 = p.1 → f.2 = linesOf s.kept p.1
  today : ∀ p ∈ s.kept, dayOf p.2.now = dayOf s.clock → ∃ f ∈ s.dir, f.1 = p.1
  ofDay : ∀ p ∈ s.kept, ∃ st, systemtime p.2.now = some st ∧ dayText st <+: p.1
  short : ∀ name, (ofFile s.kept name).length ≤ 65536
  opens : (s.calls.filter Call.opens).Sublist (s.kept.map Prod.snd)
  calls : (s.kept.map Prod.snd).Sublist s.calls
  defined : ∀ c, Steady s c → (machine path).Enabled s c

/-- A call for an empty record whose clock stands still. -/
def callAt (now : Int) (opens : Bool) : Call := ⟨LogRecord.blank, now, now, now, now, true, opens⟩

def secondDay : List Call := [callAt 0 true, callAt 86400000000 true]

theorem secondDay_valid : (machine logsPath).ValidTrace Steady (initial []) secondDay := by
  have hfirst : Dated 0 := ⟨by decide, by decide, by decide +kernel⟩
  have hsecond : Dated 86400000000 := ⟨by decide, by decide, by decide +kernel⟩
  refine ⟨?_, ⟨hfirst, hfirst, hfirst, rfl, Int.le_refl _, Or.inl rfl, by decide, ?_⟩, ?_,
    ⟨hsecond, hsecond, hsecond, rfl, ?_, Or.inr ?_, ?_, ?_⟩, trivial⟩
  all_goals decide +kernel

end Runs

end LogFileWriter
