import Tcode.LogRecord
import Tcode.LogRetention

/-! # Formatted records

`formatter::format` reserves 8192 bytes and formats a record into them. The texts of a record
end within their arrays, so that a line always fits and the buffer has the whole of it.
-/
namespace LogFormatter

open SupportMachineInt SupportCString SupportFixedWidth BufferBlock BufferByteBuffer
open BufferByteBuffer.ByteBuffer TimeCalendar LogRecord LogRetention

/-- `trace`, `debug`, `info`, `warn`, `error`, `fatal`, `all`, `off` -/
def types : List UInt32 := [1, 2, 4, 8, 16, 32, 63, 0]

/-- `TDIWEFAO` -/
def acronyms : List UInt8 := [84, 68, 73, 87, 69, 70, 65, 79]

/-- The character at the first of the types that is `l`, and a question mark for all others. -/
def acronym (l : UInt32) : UInt8 :=
  ((types.zip acronyms).find? fun p => l = p.1).elim 63 Prod.snd

/-- `%d` -/
def number (x : Int) : Text := zeroPadded 0 x

/-- `%s`, which is undefined for an array without a zero. -/
def textOf {n : Nat} (a : CharArray n) : Option Text := a.strlen.map fun _ => a.text

def bracketed (t : Text) : Text := [91] ++ t ++ [93]

/-- `%04d%02d%02d %02d%02d%02d` -/
def timeText (st : Systemtime) : Text :=
  dayText st ++ [32] ++ zeroPadded 2 st.wHour.toNat ++ zeroPadded 2 st.wMinute.toNat ++
    zeroPadded 2 st.wSecond.toNat

/-- `[%04d%02d%02d %02d%02d%02d][%c][%s][%s][%s][%s:%d][%d]\n`, where the thread and the line
are printed as `int`. -/
def lineOf (r : Record) : Option Text := do
  let st ← systemtime r.ts.toInt
  let tag ← textOf r.tag
  let message ← textOf r.message
  let function ← textOf r.function
  let file ← textOf r.file
  return bracketed (timeText st) ++ bracketed [acronym r.type] ++ bracketed tag ++
    bracketed message ++ bracketed function ++
    bracketed (file ++ [58] ++ number (toInt r.line.toNat)) ++
    bracketed (number (toInt r.tid.toNat)) ++ [10]

/-- `snprintf` to the write position with the space of the buffer. It returns the length of the
whole text, also where it writes only the front of it. -/
def snprintf (b : ByteBuffer) (text : Text) : Option (Int × ByteBuffer) := do
  let k ← b.block
  let out := if b.space = 0 then [] else text.take (b.space - 1) ++ [0]
  let bytes ← copyIn k.bytes b.pos.write out out.length
  return (toInt text.length, { b with block := some { k with bytes } })

def format (r : Record) (buf : ByteBuffer) : Option ByteBuffer := do
  let buf ← buf.reserve 8192
  let text ← lineOf r
  let (len, buf) ← snprintf buf text
  return (buf.wrPtr len).2

/-! ## The length of a line -/

section Length

variable {n w k : Nat} {x : Int} {a : CharArray n} {t : Text} {st : Systemtime}

theorem decimal_length_le (hw : 0 < w) (hn : n < 10 ^ w) : (decimal n).length ≤ w := by
  have hlength := congrArg List.length (padded_decimal hw hn)
  rw [List.length_append, List.length_replicate, fixed_length] at hlength
  omega

theorem zeroPadded_length_le (hk : 0 < k) (hx : x.natAbs < 10 ^ k) :
    (zeroPadded w x).length ≤ w + k + 1 := by
  have hdecimal := decimal_length_le hk hx
  unfold zeroPadded
  simp only [List.length_append, List.length_replicate]
  split <;> simp only [List.length_singleton, List.length_nil] <;> omega

theorem number_length_le (x : Int) : (number (toInt x)).length ≤ 11 := by
  have hrange := toInt_range x
  exact zeroPadded_length_le (k := 10) (by decide) (by omega)

theorem field_length_le (w : Nat) (x : UInt16) : (zeroPadded w x.toNat).length ≤ w + 6 := by
  have hlt := x.toNat_lt
  exact zeroPadded_length_le (k := 5) (by decide) (by omega)

theorem timeText_length_le (st : Systemtime) : (timeText st).length ≤ 51 := by
  have hyear := field_length_le 4 st.wYear
  have hmonth := field_length_le 2 st.wMonth
  have hday := field_length_le 2 st.wDay
  have hhour := field_length_le 2 st.wHour
  have hminute := field_length_le 2 st.wMinute
  have hsecond := field_length_le 2 st.wSecond
  simp only [timeText, dayText, List.length_append, List.length_singleton]
  omega

theorem textOf_length_lt (h : textOf a = some t) : t.length < n := by
  obtain ⟨len, hlen, rfl⟩ := Option.map_eq_some_iff.mp h
  obtain ⟨rest, hbytes, -⟩ := CharArray.bytes_of_strlen hlen
  have hsize := congrArg List.length hbytes
  rw [a.size, List.length_append, List.length_cons] at hsize
  omega

@[simp] theorem bracketed_length (t : Text) : (bracketed t).length = t.length + 2 := by
  rw [bracketed, List.length_append, List.length_append, List.length_singleton,
    List.length_singleton]
  omega

/-- A line is shorter than what is reserved for it. -/
theorem lineOf_length_lt {r : Record} (h : lineOf r = some t) : t.length < 8192 := by
  simp only [lineOf, Option.bind_eq_bind, Option.bind_eq_some_iff, Option.pure_def,
    Option.some.injEq] at h
  obtain ⟨st, -, tag, htag, message, hmessage, function, hfunction, file, hfile, rfl⟩ := h
  have htime := timeText_length_le st
  have htag := textOf_length_lt htag
  have hmessage := textOf_length_lt hmessage
  have hfunction := textOf_length_lt hfunction
  have hfile := textOf_length_lt hfile
  have hline := number_length_le r.line.toNat
  have htid := number_length_le r.tid.toNat
  simp only [List.length_append, bracketed_length, List.length_singleton]
  omega

end Length

/-! ## Lines without zeros -/

section Characters

variable {n w : Nat} {x : Int} {a : CharArray n} {t : Text}

theorem digit_ne_zero : ∀ d, d < 10 → digit d ≠ 0 := by decide

theorem decimal_noZero (n : Nat) : 0 ∉ decimal n := by
  induction n using decimal.induct with
  | case1 n hn =>
    rw [decimal, if_pos hn, List.mem_singleton]
    exact (digit_ne_zero n hn).symm
  | case2 n hn ih =>
    rw [decimal, if_neg hn, List.mem_append, List.mem_singleton]
    rintro (h | h)
    · exact ih h
    · exact digit_ne_zero (n % 10) (Nat.mod_lt n (by decide)) h.symm

theorem zeroPadded_noZero (w : Nat) (x : Int) : 0 ∉ zeroPadded w x := by
  have hsign : (0 : UInt8) ∉ if x < 0 then ([45] : Text) else [] := by split <;> decide
  unfold zeroPadded
  rw [List.mem_append, List.mem_append, List.mem_replicate]
  rintro ((h | ⟨-, h⟩) | h)
  · exact hsign h
  · exact digit_ne_zero 0 (by decide) h.symm
  · exact decimal_noZero x.natAbs h

theorem timeText_noZero (st : Systemtime) : 0 ∉ timeText st := by
  simp [timeText, dayText, zeroPadded_noZero]

theorem textOf_noZero (h : textOf a = some t) : 0 ∉ t := by
  obtain ⟨len, -, rfl⟩ := Option.map_eq_some_iff.mp h
  exact CharArray.text_noZero

theorem acronym_ne_zero (l : UInt32) : acronym l ≠ 0 := by
  have hall : 0 ∉ acronyms := by decide
  rw [acronym]
  cases hfind : (types.zip acronyms).find? fun p => l = p.1 with
  | none => decide
  | some p =>
    intro hzero
    have hmem := (List.of_mem_zip (List.mem_of_find?_eq_some hfind)).2
    exact hall (hzero ▸ hmem)

theorem bracketed_noZero (h : 0 ∉ t) : 0 ∉ bracketed t := by
  simp [bracketed, h]

/-- A line is a C string. -/
theorem lineOf_noZero {r : Record} (h : lineOf r = some t) : 0 ∉ t := by
  simp only [lineOf, Option.bind_eq_bind, Option.bind_eq_some_iff, Option.pure_def,
    Option.some.injEq] at h
  obtain ⟨st, -, tag, htag, message, hmessage, function, hfunction, file, hfile, rfl⟩ := h
  have htime := bracketed_noZero (timeText_noZero st)
  have htype : 0 ∉ bracketed [acronym r.type] :=
    bracketed_noZero (by simpa using (acronym_ne_zero r.type).symm)
  have htag := bracketed_noZero (textOf_noZero htag)
  have hmessage := bracketed_noZero (textOf_noZero hmessage)
  have hfunction := bracketed_noZero (textOf_noZero hfunction)
  have hplace : 0 ∉ bracketed (file ++ [58] ++ number (toInt r.line.toNat)) :=
    bracketed_noZero (by simp [textOf_noZero hfile, number, zeroPadded_noZero])
  have htid : 0 ∉ bracketed (number (toInt r.tid.toNat)) :=
    bracketed_noZero (zeroPadded_noZero 0 _)
  simp only [List.mem_append, not_or]
  exact ⟨⟨⟨⟨⟨⟨⟨htime, htype⟩, htag⟩, hmessage⟩, hfunction⟩, hplace⟩, htid⟩, by decide⟩

end Characters

/-! ## The buffer behind a call -/

section Format

variable {b : ByteBuffer} {r : Record} {t : Text}

/-- A buffer without data that is at the front of its block, if it has one. -/
def Cleared (b : ByteBuffer) : Prop := b = empty ∨ b.Valid ∧ b.pos = ⟨0, 0⟩

theorem Cleared.reserve_spec (h : Cleared b) : ∃ b', b.reserve 8192 = some b' ∧ b'.Valid ∧
    b'.contents = [] ∧ 8192 ≤ b'.space := by
  have hfront : b = empty ∨ b.Valid ∧ b.pos.read = 0 := by
    rcases h with h | ⟨hvalid, hpos⟩
    · exact Or.inl h
    · exact Or.inr ⟨hvalid, by rw [hpos]⟩
  have hlength : b.length = 0 := by
    rcases h with rfl | ⟨-, hpos⟩
    · rfl
    · rw [length, hpos]
      rfl
  have hempty : b.contents = [] := by
    rcases h with rfl | ⟨hvalid, -⟩
    · rfl
    · exact List.eq_nil_of_length_eq_zero (hvalid.contents_length.trans hlength)
  obtain ⟨b', hrun, hvalid, hcontents, -, hspace⟩ :=
    ByteBuffer.reserve_spec (show (8192 : Nat) < 2147483648 by decide) (by omega) hfront
  exact ⟨b', hrun, hvalid, hcontents.trans hempty, by omega⟩

/-- The memory from a read position on behind a text with its zero. -/
theorem memory_of_print {old bytes : Text} {read write : Nat} (hr : read ≤ write)
    (hw : write ≤ old.length)
    (hread : (bytes.drop read).take (write + (t ++ [0]).length - read) =
      (old.drop read).take (write - read) ++ (t ++ [0])) :
    (bytes.drop read).take (write + t.length - read) = (old.drop read).take (write - read) ++ t ∧
      ∃ rest, bytes.drop read = (old.drop read).take (write - read) ++ t ++ 0 :: rest := by
  have hlen : (t ++ [0]).length = t.length + 1 := by
    rw [List.length_append, List.length_singleton]
  have hold : ((old.drop read).take (write - read)).length = write - read := by
    rw [List.length_take, List.length_drop]
    omega
  rw [← List.append_assoc] at hread
  constructor
  · have hfront := congrArg (List.take (write + t.length - read)) hread
    rw [List.take_take, Nat.min_eq_left (by omega),
      List.take_left' (by rw [List.length_append, hold]; omega)] at hfront
    exact hfront
  · have hmemory := List.take_append_drop (write + (t ++ [0]).length - read) (bytes.drop read)
    rw [hread, List.append_assoc, List.singleton_append] at hmemory
    exact ⟨_, hmemory.symm⟩

/-- A text that leaves space for a zero is written whole, with a zero in the memory behind it. -/
theorem snprintf_spec (h : b.Valid) (ht : t.length < b.space) :
    ∃ b' : ByteBuffer, snprintf b t = some ((t.length : Int), b') ∧ (b'.wrPtr t.length).2.Valid ∧
      (b'.wrPtr t.length).2.contents = b.contents ++ t ∧
      ∃ rest, (b'.wrPtr t.length).2.fromReadPosition = some (b.contents ++ t ++ 0 :: rest) := by
  obtain ⟨kb, ⟨read, write⟩⟩ := b
  obtain ⟨k, hb, hm, hr, hw, hc⟩ := h.block
  obtain rfl : kb = some k := congrArg ByteBuffer.block hb
  simp only at hr hw
  have hspace := space_mk (r := read) hw hc
  have hfull : space ⟨some k, ⟨read, write⟩⟩ ≠ 0 := by omega
  have hroom : write + t.length < k.capacity := by omega
  have hout : t.take (space ⟨some k, ⟨read, write⟩⟩ - 1) ++ [0] = t ++ [0] := by
    rw [List.take_of_length_le (by omega)]
  have hint : toInt t.length = t.length := toInt_of_range (by omega) (by omega)
  clear h hb ht
  have hlen : (t ++ [0]).length = t.length + 1 := by
    rw [List.length_append, List.length_singleton]
  obtain ⟨bytes, hcopy, hsize, hread⟩ :=
    copyIn_spec k.bytes write (Nat.le_refl (t ++ [0]).length) (by omega)
  have hprint : snprintf ⟨some k, ⟨read, write⟩⟩ t =
      some ((t.length : Int), ⟨some { k with bytes }, ⟨read, write⟩⟩) := by
    simp only [snprintf, Option.bind_eq_bind, Option.bind_some, if_neg hfull, hout, hcopy, hint,
      Option.pure_def]
  have hspace' : space ⟨some { k with bytes }, ⟨read, write⟩⟩ = k.capacity - write :=
    space_mk hw hc
  have hmove : (wrPtr ⟨some { k with bytes }, ⟨read, write⟩⟩ t.length).2 =
      ⟨some { k with bytes }, ⟨read, write + t.length⟩⟩ := by
    rw [wrPtr_natCast _ (by omega) (by rw [hspace']; show write + _ < _; omega)]
  have hall := hread read hr
  rw [List.take_length] at hall
  obtain ⟨hfront, rest, hmemory⟩ := memory_of_print hr (by omega) hall
  refine ⟨_, hprint, ?_, ?_, rest, ?_⟩
  · rw [hmove]
    exact valid_mk (k := { k with bytes }) (hsize.trans hm) (by omega) (Nat.le_of_lt hroom) hc
  · rw [hmove]
    exact hfront
  · rw [hmove]
    exact congrArg some hmemory

/-- The buffer has the whole line, which is also a C string from its read position on. -/
theorem Cleared.format_spec (h : Cleared b) (hline : lineOf r = some t) :
    ∃ b', format r b = some b' ∧ b'.Valid ∧ b'.contents = t ∧
      ∃ rest, b'.fromReadPosition = some (t ++ 0 :: rest) := by
  obtain ⟨reserved, hreserve, hvalid, hempty, hspace⟩ := h.reserve_spec
  have hlength := lineOf_length_lt hline
  obtain ⟨printed, hprint, hvalid', hcontents, rest, hmemory⟩ :=
    snprintf_spec hvalid (t := t) (by omega)
  rw [hempty, List.nil_append] at hcontents hmemory
  refine ⟨_, ?_, hvalid', hcontents, rest, hmemory⟩
  simp only [format, hreserve, hline, hprint, Option.bind_eq_bind, Option.bind_some,
    Option.pure_def]

theorem cleared_clear (h : b.Valid) : Cleared b.clear :=
  Or.inr ⟨⟨h.has_block, h.memory, Nat.le_refl 0, Nat.zero_le _, h.capacity_lt⟩, rfl⟩

theorem Cleared.clear (h : Cleared b) : Cleared b.clear := by
  rcases h with rfl | ⟨hvalid, -⟩
  · exact Or.inl rfl
  · exact cleared_clear hvalid

end Format

end LogFormatter
