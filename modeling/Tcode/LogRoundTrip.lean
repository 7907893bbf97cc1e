import Tcode.LogRecord

/-! # Log records through a buffer

What is written is read back as long as every text has its zero inside its array. `strncpy`
leaves none behind a text that is as long as the array or longer.
-/
namespace LogRoundTrip

open SupportMachineInt SupportCString BufferBlock BufferByteBuffer BufferByteBuffer.ByteBuffer
open LogRecord

/-- What one call of `logger::write` is about. -/
structure Entry where
  now : Int64
  tid : UInt64
  type : UInt32
  tag : CString
  file : CString
  function : CString
  line : Int32
  message : CString

def Entry.record (e : Entry) (raw : Record) : Option Record := do
  let r ← LogRecord.record raw e.now e.tid e.type e.tag e.file e.function e.line
  r.setMessage e.message

/-- A record has what the entry says, and the text of the entry as far as it fits. -/
structure Entry.Recorded (e : Entry) (r : Record) : Prop where
  ts : r.ts = e.now
  type : r.type = e.type
  line : r.line = e.line.toUInt32
  tid : r.tid = e.tid
  tag : r.tag.text = e.tag.chars.take 31
  file : r.file.text = e.file.chars.take 255
  function : r.function.text = e.function.chars.take 255
  message : r.message.text = e.message.chars.take 2047

/-- The record is made, written and read back, and no access is outside of its array. -/
def Survives (e : Entry) : Prop :=
  ∀ (raw other : Record) (tick : CharArray 8) (len : CharArray 2) (buf : ByteBuffer),
    buf.Valid → buf.contents = [] → 8192 ≤ buf.space →
      ∃ r buf' r' buf'', e.record raw = some r ∧ r.serialize buf = some buf' ∧
        other.deserialize buf' tick len = some (r', buf'') ∧ e.Recorded r'

variable {n : Nat} {r : Record} {e : Entry} {buf : ByteBuffer}

/-! ## The bytes of a record -/

def textBytes (a : CharArray n) : List UInt8 := (object 2 a.text.length).bytes ++ a.text

def Record.bytes (r : Record) : List UInt8 :=
  (object 8 r.ts.toUInt64.toNat).bytes ++ ((object 4 r.type.toNat).bytes ++
    ((object 4 r.line.toNat).bytes ++ ((object 8 r.tid.toNat).bytes ++
      (textBytes r.tag ++ (textBytes r.file ++ (textBytes r.function ++ textBytes r.message))))))

/-- Every text ends inside its array. -/
structure Terminated (r : Record) : Prop where
  tag : r.tag.strlen = some r.tag.text.length
  file : r.file.strlen = some r.file.text.length
  function : r.function.strlen = some r.function.text.length
  message : r.message.strlen = some r.message.text.length

theorem serialize_spec (h : buf.Valid) (hr : Terminated r) (hspace : 8192 ≤ buf.space) :
    ∃ buf', r.serialize buf = some buf' ∧ buf'.Valid ∧
      buf'.contents = buf.contents ++ Record.bytes r := by
  have htag := CharArray.strlen_lt hr.tag
  have hfile := CharArray.strlen_lt hr.file
  have hfunction := CharArray.strlen_lt hr.function
  have hmessage := CharArray.strlen_lt hr.message
  obtain ⟨b₁, h₁, v₁, c₁, s₁⟩ := serializeObject_spec h (object 8 r.ts.toUInt64.toNat) (by omega)
  obtain ⟨b₂, h₂, v₂, c₂, s₂⟩ := serializeObject_spec v₁ (object 4 r.type.toNat) (by omega)
  obtain ⟨b₃, h₃, v₃, c₃, s₃⟩ := serializeObject_spec v₂ (object 4 r.line.toNat) (by omega)
  obtain ⟨b₄, h₄, v₄, c₄, s₄⟩ := serializeObject_spec v₃ (object 8 r.tid.toNat) (by omega)
  obtain ⟨b₅, h₅, v₅, c₅, s₅⟩ := serializeText_spec v₄ hr.tag (by omega) (by omega)
  obtain ⟨b₆, h₆, v₆, c₆, s₆⟩ := serializeText_spec v₅ hr.file (by omega) (by omega)
  obtain ⟨b₇, h₇, v₇, c₇, s₇⟩ := serializeText_spec v₆ hr.function (by omega) (by omega)
  obtain ⟨b₈, h₈, v₈, c₈, s₈⟩ := serializeText_spec v₇ hr.message (by omega) (by omega)
  refine ⟨b₈, ?_, v₈, ?_⟩
  · simp [Record.serialize, h₁, h₂, h₃, h₄, h₅, h₆, h₇, h₈]
  · simp only [c₈, c₇, c₆, c₅, c₄, c₃, c₂, c₁, Record.bytes, textBytes, List.append_assoc]

/-- The record that is read back. -/
structure Same (r r' : Record) : Prop where
  ts : r'.ts = r.ts
  type : r'.type = r.type
  line : r'.line = r.line
  tid : r'.tid = r.tid
  tag : r'.tag.text = r.tag.text
  file : r'.file.text = r.file.text
  function : r'.function.text = r.function.text
  message : r'.message.text = r.message.text

theorem deserialize_bytes (h : buf.Valid) (hr : Terminated r) (other : Record)
    (tick : CharArray 8) (len : CharArray 2) (hbytes : buf.contents = Record.bytes r) :
    ∃ r' buf', other.deserialize buf tick len = some (r', buf') ∧ Same r r' := by
  have htag := CharArray.strlen_lt hr.tag
  have hfile := CharArray.strlen_lt hr.file
  have hfunction := CharArray.strlen_lt hr.function
  have hmessage := CharArray.strlen_lt hr.message
  obtain ⟨b₁, h₁, v₁, c₁⟩ := deserializeObject_append h _ tick hbytes
  obtain ⟨b₂, h₂, v₂, c₂⟩ := deserializeObject_append v₁ _ (object 4 other.type.toNat) c₁
  obtain ⟨b₃, h₃, v₃, c₃⟩ := deserializeObject_append v₂ _ (object 4 other.line.toNat) c₂
  obtain ⟨b₄, h₄, v₄, c₄⟩ := deserializeObject_append v₃ _ (object 8 other.tid.toNat) c₃
  have hnil : textBytes r.message = textBytes r.message ++ [] := (List.append_nil _).symm
  obtain ⟨l₅, t₅, b₅, h₅, v₅, c₅, tag, -⟩ := deserializeText_append v₄ len other.tag
    CharArray.text_noZero htag (by omega) c₄
  obtain ⟨l₆, t₆, b₆, h₆, v₆, c₆, file, -⟩ := deserializeText_append v₅ l₅ other.file
    CharArray.text_noZero hfile (by omega) c₅
  obtain ⟨l₇, t₇, b₇, h₇, v₇, c₇, function, -⟩ := deserializeText_append v₆ l₆ other.function
    CharArray.text_noZero hfunction (by omega) c₆
  obtain ⟨l₈, t₈, b₈, h₈, -, -, message, -⟩ := deserializeText_append v₇ l₇ other.message
    CharArray.text_noZero hmessage (by omega) (c₇.trans hnil)
  have hts := leValue_object (n := 8) (UInt64.toNat_lt r.ts.toUInt64)
  have htype := leValue_object (n := 4) (UInt32.toNat_lt r.type)
  have hline := leValue_object (n := 4) (UInt32.toNat_lt r.line)
  have htid := leValue_object (n := 8) (UInt64.toNat_lt r.tid)
  have hback : Int64.ofNat r.ts.toUInt64.toNat = r.ts := by
    rw [← UInt64.toInt64_ofNat', UInt64.ofNat_toNat, Int64.toInt64_toUInt64]
  refine ⟨⟨r.ts, r.type, r.line, r.tid, t₅, t₆, t₇, t₈⟩, b₈, ?_,
    ⟨rfl, rfl, rfl, rfl, tag, file, function, message⟩⟩
  simp [Record.deserialize, h₁, h₂, h₃, h₄, h₅, h₆, h₇, h₈, hts, htype, hline, htid, hback]

/-! ## Records as they are made -/

/-- The texts that `strncpy` copies are shorter than their arrays. -/
structure Entry.Fits (e : Entry) : Prop where
  tag : e.tag.length < 32
  file : e.file.length < 256
  function : e.function.length < 256

theorem record_spec (h : e.Fits) (raw : Record) :
    ∃ r, e.record raw = some r ∧ Terminated r ∧ e.Recorded r := by
  obtain ⟨tag, htag, htext, hlen⟩ := CharArray.strncpy_short (a := raw.tag) h.tag
  obtain ⟨file, hfile, hftext, hflen⟩ := CharArray.strncpy_short (a := raw.file) h.file
  obtain ⟨function, hfun, hfutext, hfulen⟩ :=
    CharArray.strncpy_short (a := raw.function) h.function
  obtain ⟨message, hmessage, hmtext, hmlen⟩ :=
    CharArray.vsnprintf_spec (a := raw.message) (m := 2047) (s := e.message) (by decide)
  refine ⟨⟨e.now, e.type, e.line.toUInt32, e.tid, tag, file, function, message⟩, ?_, ?_, ?_⟩
  · simp [Entry.record, LogRecord.record, Record.setMessage, htag, hfile, hfun, hmessage]
  · exact ⟨by rw [hlen, htext]; rfl, by rw [hflen, hftext]; rfl, by rw [hfulen, hfutext]; rfl,
      by rw [hmlen, hmtext]⟩
  · have hshort {s : CString} {k : Nat} (hs : s.length < k + 1) : s.chars = s.chars.take k :=
      (List.take_of_length_le (Nat.le_of_lt_succ hs)).symm
    exact ⟨rfl, rfl, rfl, rfl, htext.trans (hshort h.tag), hftext.trans (hshort h.file),
      hfutext.trans (hshort h.function), hmtext⟩

theorem strlen_of_serializeText {text : CharArray n} {buf' : ByteBuffer}
    (h : serializeText buf text = some buf') : text.strlen.isSome = true := by
  rw [serializeText] at h
  obtain ⟨k, hk, -⟩ := Option.bind_eq_some_iff.mp h
  rw [hk]
  rfl

/-- Only texts with a zero are written. -/
theorem strlen_of_serialize {buf' : ByteBuffer} (h : r.serialize buf = some buf') :
    r.tag.strlen.isSome = true ∧ r.file.strlen.isSome = true ∧
      r.function.strlen.isSome = true := by
  simp only [Record.serialize, Option.bind_eq_bind, Option.bind_eq_some_iff] at h
  obtain ⟨_, -, _, -, _, -, _, -, _, htag, _, hfile, _, hfunction, -⟩ := h
  exact ⟨strlen_of_serializeText htag, strlen_of_serializeText hfile,
    strlen_of_serializeText hfunction⟩

/-- A string that is not shorter than its array has no zero there. -/
theorem length_of_strncpy {a b : CharArray n} {s : CString} (h : a.strncpy s n = some b)
    (hb : b.strlen.isSome = true) : s.length < n := by
  by_contra hlong
  obtain ⟨c, hc, hnone⟩ := CharArray.strncpy_long (a := a) (Nat.not_lt.mp hlong)
  obtain rfl := Option.some.inj (hc.symm.trans h)
  rw [hnone] at hb
  cases hb

/-- A record survives exactly if its tag, file and function leave room for their zeros, whatever
the message. -/
theorem survives_iff (e : Entry) : Survives e ↔ e.Fits := by
  constructor
  · intro h
    obtain ⟨hvalid, hempty, -, hcapacity, hspace⟩ := ofSize_valid (show 8192 < 2147483648 by decide)
    obtain ⟨r, buf', -, -, hrecord, hserialize, -, -⟩ :=
      h blank blank (.zeros 8) (.zeros 2) (ofSize 8192) hvalid hempty (hspace ▸ hcapacity)
    obtain ⟨htag, hfile, hfunction⟩ := strlen_of_serialize hserialize
    simp only [Entry.record, LogRecord.record, Record.setMessage, Option.bind_eq_bind,
      Option.bind_eq_some_iff, Option.pure_def, Option.some.injEq] at hrecord
    obtain ⟨_, ⟨tag, hct, file, hcf, function, hcn, rfl⟩, message, -, rfl⟩ := hrecord
    exact ⟨length_of_strncpy hct htag, length_of_strncpy hcf hfile,
      length_of_strncpy hcn hfunction⟩
  · intro hfits raw other tick len buf hvalid hempty hspace
    obtain ⟨r, hrecord, hterminated, hrecorded⟩ := record_spec hfits raw
    obtain ⟨buf', hserialize, hvalid', hcontents⟩ := serialize_spec hvalid hterminated hspace
    rw [hempty, List.nil_append] at hcontents
    obtain ⟨r', buf'', hdeserialize, hsame⟩ :=
      deserialize_bytes hvalid' hterminated other tick len hcontents
    refine ⟨r, buf', r', buf'', hrecord, hserialize, hdeserialize, ?_⟩
    exact ⟨hsame.ts.trans hrecorded.ts, hsame.type.trans hrecorded.type,
      hsame.line.trans hrecorded.line, hsame.tid.trans hrecorded.tid,
      hsame.tag.trans hrecorded.tag, hsame.file.trans hrecorded.file,
      hsame.function.trans hrecorded.function, hsame.message.trans hrecorded.message⟩

/-- A tag of 32 characters has no zero behind it: `strlen` goes on in the next array. -/
theorem longTag_not_survives :
    let tag : CString := ⟨List.replicate 32 65, by decide⟩
    let word : CString := ⟨[97], by decide⟩
    ¬ Survives ⟨0, 0, 1, tag, word, word, 0, word⟩ := by
  intro tag word h
  have hterminated : ∀ r buf', (Entry.record ⟨0, 0, 1, tag, word, word, 0, word⟩ blank) = some r →
      r.serialize (ofSize 8192) ≠ some buf' := by
    intro r buf' hr hserialize
    have htag := (strlen_of_serialize hserialize).1
    have hbytes : r.tag.bytes = List.replicate 32 65 := by
      have heq : (Entry.record ⟨0, 0, 1, tag, word, word, 0, word⟩ blank).map
          (fun r => r.tag.bytes) = some (List.replicate 32 65) := by decide +kernel
      rw [hr] at heq
      exact Option.some.inj heq
    have hnone : r.tag.strlen = none := if_neg (by rw [hbytes]; decide)
    rw [hnone] at htag
    cases htag
  obtain ⟨hvalid, hempty, -, hcapacity, hspace⟩ := ofSize_valid (show 8192 < 2147483648 by decide)
  obtain ⟨r, buf', -, -, hrecord, hserialize, -, -⟩ :=
    h blank blank (.zeros 8) (.zeros 2) (ofSize 8192) hvalid hempty (hspace ▸ hcapacity)
  exact hterminated r buf' hrecord hserialize

end LogRoundTrip
