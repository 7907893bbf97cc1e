import Tcode.BufferByteBuffer
import Tcode.SupportCString

/-! # Log records

A record is written to a `byte_buffer` field by field, its texts behind their length, a
`short`. Every text has an array of its own, and a character that is read or written outside of
it is undefined, also where it would be in the next array.
-/
namespace LogRecord

open SupportMachineInt SupportCString BufferByteBuffer BufferByteBuffer.ByteBuffer

structure Record where
  ts : Int64
  type : UInt32
  line : UInt32
  tid : UInt64
  tag : CharArray 32
  file : CharArray 256
  function : CharArray 256
  message : CharArray 2048
  deriving DecidableEq

def blank : Record := ⟨0, 0, 0, 0, .zeros 32, .zeros 256, .zeros 256, .zeros 2048⟩

/-- `record::record` where `raw` is what the memory holds before. -/
def record (raw : Record) (now : Int64) (tid : UInt64) (t : UInt32) (tag file function : CString)
    (l : Int32) : Option Record := do
  let tag ← raw.tag.strncpy tag 32
  let file ← raw.file.strncpy file 256
  let function ← raw.function.strncpy function 256
  return ⟨now, t, l.toUInt32, tid, tag, file, function, raw.message⟩

/-- What `logger::write` stores for a formatted message. -/
def Record.setMessage (r : Record) (msg : CString) : Option Record := do
  let message ← r.message.vsnprintf 2048 msg
  return { r with message }

/-! ## Serialization -/

/-- The bytes of an unsigned number of `n` bytes. -/
def object (n x : Nat) : CharArray n := ⟨leBytesOf n x, leBytesOf_length n x⟩

/-- The value of a `short`. -/
def shortValue (len : CharArray 2) : Int := toShort (leValue len.bytes)

def serializeObject {n : Nat} (buf : ByteBuffer) (obj : CharArray n) : Option ByteBuffer := do
  let (_, buf) ← buf.write obj.bytes n
  return buf

/-- Where the buffer has too few bytes, the others stay as they are. -/
def deserializeObject {n : Nat} (buf : ByteBuffer) (obj : CharArray n) :
    Option (CharArray n × ByteBuffer) := do
  let (bytes, buf) ← buf.read n
  let obj ← obj.memcpy bytes
  return (obj, buf)

def serializeText {n : Nat} (buf : ByteBuffer) (text : CharArray n) : Option ByteBuffer := do
  let length ← text.strlen
  let len := toShort length
  let buf ← serializeObject buf (object 2 (len % 65536).toNat)
  let (_, buf) ← buf.write text.bytes (toSize len)
  return buf

def deserializeText {n : Nat} (buf : ByteBuffer) (len : CharArray 2) (text : CharArray n) :
    Option (CharArray 2 × CharArray n × ByteBuffer) := do
  let (len, buf) ← deserializeObject buf len
  let (bytes, buf) ← buf.read (toSize (shortValue len))
  let text ← text.memcpy bytes
  let text ← text.put (shortValue len) 0
  return (len, text, buf)

/-- `operator<<`. -/
def Record.serialize (buf : ByteBuffer) (r : Record) : Option ByteBuffer := do
  let buf ← serializeObject buf (object 8 r.ts.toUInt64.toNat)
  let buf ← serializeObject buf (object 4 r.type.toNat)
  let buf ← serializeObject buf (object 4 r.line.toNat)
  let buf ← serializeObject buf (object 8 r.tid.toNat)
  let buf ← serializeText buf r.tag
  let buf ← serializeText buf r.file
  let buf ← serializeText buf r.function
  serializeText buf r.message

/-- `operator>>`; `tick` and `len` are what its variables hold before they are read. -/
def Record.deserialize (buf : ByteBuffer) (tick : CharArray 8) (len : CharArray 2) (r : Record) :
    Option (Record × ByteBuffer) := do
  let (tick, buf) ← deserializeObject buf tick
  let (type, buf) ← deserializeObject buf (object 4 r.type.toNat)
  let (line, buf) ← deserializeObject buf (object 4 r.line.toNat)
  let (tid, buf) ← deserializeObject buf (object 8 r.tid.toNat)
  let (len, tag, buf) ← deserializeText buf len r.tag
  let (len, file, buf) ← deserializeText buf len r.file
  let (len, function, buf) ← deserializeText buf len r.function
  let (_, message, buf) ← deserializeText buf len r.message
  return (⟨(UInt64.ofNat (leValue tick.bytes)).toInt64, UInt32.ofNat (leValue type.bytes),
    UInt32.ofNat (leValue line.bytes), UInt64.ofNat (leValue tid.bytes), tag, file, function,
    message⟩, buf)

variable {n k : Nat} {buf : ByteBuffer}

/-! ## What each of them does to a buffer -/

theorem leValue_object {x : Nat} (h : x < 256 ^ n) : leValue (object n x).bytes = x := by
  rw [object, leValue_leBytesOf, Nat.mod_eq_of_lt h]

theorem serializeObject_spec (h : buf.Valid) (obj : CharArray n) (hspace : n ≤ buf.space) :
    ∃ buf', serializeObject buf obj = some buf' ∧ buf'.Valid ∧
      buf'.contents = buf.contents ++ obj.bytes ∧ buf'.space = buf.space - n := by
  obtain ⟨buf', hwrite, hvalid, hcontents, -, -, hspace'⟩ :=
    h.write_spec (Nat.le_of_eq obj.size.symm)
  rw [Nat.min_eq_left hspace] at hwrite hcontents hspace'
  rw [List.take_of_length_le (Nat.le_of_eq obj.size)] at hcontents
  exact ⟨buf', by simp [serializeObject, hwrite], hvalid, hcontents, hspace'⟩

theorem deserializeObject_spec (h : buf.Valid) (obj : CharArray n) :
    ∃ obj' buf', deserializeObject buf obj = some (obj', buf') ∧ buf'.Valid ∧
      buf'.contents = buf.contents.drop n ∧
      obj'.bytes = buf.contents.take n ++ obj.bytes.drop (buf.contents.take n).length := by
  obtain ⟨buf', hread, hvalid, hcontents, -⟩ := h.read_spec n
  obtain ⟨obj', hobj⟩ :=
    CharArray.memcpy_isSome (a := obj) (List.length_take_le n buf.contents)
  exact ⟨obj', buf', by simp [deserializeObject, hread, hobj], hvalid, hcontents,
    CharArray.bytes_memcpy hobj⟩

/-- A complete object is read as it was written. -/
theorem deserializeObject_append (h : buf.Valid) (obj old : CharArray n) {rest : List UInt8}
    (hcontents : buf.contents = obj.bytes ++ rest) :
    ∃ buf', deserializeObject buf old = some (obj, buf') ∧ buf'.Valid ∧ buf'.contents = rest := by
  obtain ⟨obj', buf', hread, hvalid, hleft, hbytes⟩ := deserializeObject_spec h old
  rw [hcontents] at hleft hbytes
  have htake : (obj.bytes ++ rest).take n = obj.bytes := List.take_left' obj.size
  rw [htake, obj.size, List.drop_of_length_le (Nat.le_of_eq old.size), List.append_nil] at hbytes
  rw [List.drop_left' obj.size] at hleft
  have hsame : obj' = obj := by
    cases obj
    cases obj'
    congr
  exact ⟨buf', hsame ▸ hread, hvalid, hleft⟩

theorem serializeText_spec (h : buf.Valid) {text : CharArray n} (hlen : text.strlen = some k)
    (hshort : k < 32768) (hspace : 2 + k ≤ buf.space) :
    ∃ buf', serializeText buf text = some buf' ∧ buf'.Valid ∧
      buf'.contents = buf.contents ++ (object 2 k).bytes ++ text.text ∧
      buf'.space = buf.space - (2 + k) := by
  have hto : toShort k = k := toShort_of_range (by omega) (by omega)
  have hmod : ((k : Int) % 65536).toNat = k := by omega
  have hsize : toSize k = k := toSize_natCast (by omega)
  obtain ⟨buf₁, hfirst, hvalid₁, hcontents₁, hspace₁⟩ :=
    serializeObject_spec h (object 2 k) (by omega)
  obtain ⟨rest, hbytes, hk⟩ := CharArray.bytes_of_strlen hlen
  have hsrc : k ≤ text.bytes.length := by
    rw [hbytes, List.length_append, hk]
    omega
  obtain ⟨buf₂, hwrite, hvalid₂, hcontents₂, -, -, hspace₂⟩ := hvalid₁.write_spec hsrc
  rw [Nat.min_eq_left (by omega)] at hwrite hcontents₂ hspace₂
  refine ⟨buf₂, ?_, hvalid₂, ?_, by omega⟩
  · simp [serializeText, hlen, hto, hmod, hsize, hfirst, hwrite]
  · rw [hcontents₂, hcontents₁, hbytes, List.take_left' hk]

theorem deserializeText_append (h : buf.Valid) (len : CharArray 2) (a : CharArray n)
    {text rest : List UInt8} (hzero : 0 ∉ text) (hn : text.length < n)
    (hshort : text.length < 32768)
    (hcontents : buf.contents = (object 2 text.length).bytes ++ text ++ rest) :
    ∃ len' a' buf', deserializeText buf len a = some (len', a', buf') ∧ buf'.Valid ∧
      buf'.contents = rest ∧ a'.text = text ∧ a'.strlen = some text.length := by
  rw [List.append_assoc] at hcontents
  obtain ⟨buf₁, hfirst, hvalid₁, hcontents₁⟩ := deserializeObject_append h _ len hcontents
  have hvalue : shortValue (object 2 text.length) = text.length := by
    rw [shortValue, leValue_object (by omega)]
    exact toShort_of_range (by omega) (by omega)
  have hsize : toSize text.length = text.length := toSize_natCast (by omega)
  obtain ⟨buf₂, hread, hvalid₂, hcontents₂, -⟩ := hvalid₁.read_spec text.length
  rw [hcontents₁, List.take_left] at hread
  rw [hcontents₁, List.drop_left] at hcontents₂
  obtain ⟨a₁, a₂, hcopy, hput, htext, hstrlen⟩ := CharArray.memcpy_put (a := a) hzero hn
  refine ⟨object 2 text.length, a₂, buf₂, ?_, hvalid₂, hcontents₂, htext, hstrlen⟩
  simp [deserializeText, hfirst, hvalue, hsize, hread, hcopy, hput]

end LogRecord
