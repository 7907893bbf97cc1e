import Tcode.LogRecord

/-! # Dumps

`logger::write_dump` writes bytes as hexadecimal digits into the message of a record, sixteen in
a line, and a formatted text behind them.
-/
namespace LogDump

open SupportMachineInt SupportCString LogRecord

/-- `0123456789ABCDEF` -/
def hexMap : List UInt8 := [48, 49, 50, 51, 52, 53, 54, 55, 56, 57, 65, 66, 67, 68, 69, 70]

/-- What `i_to_hex::convert` stores for a byte. -/
def hexDigits (ch : UInt8) : List UInt8 :=
  [hexMap.getD (ch.toNat / 16) 0, hexMap.getD (ch.toNat % 16) 0]

/-- The separators behind a column. The cases fall through: 8 to 4 and 12, and these to the
others. -/
def separators (column : Nat) : List UInt8 :=
  if column = 16 then [10]
  else if column = 8 then [32, 32, 32]
  else if column = 4 ∨ column = 12 then [32, 32]
  else [32]

/-- `message[index++] = c` for one character after the other. -/
def store {n : Nat} (message : CharArray n) (index : Nat) :
    List UInt8 → Option (CharArray n × Nat)
  | [] => some (message, index)
  | c :: cs => do
    let message ← message.put index c
    store message (index + 1) cs

def dumpByte {n : Nat} (message : CharArray n) (index i : Nat) (ch : UInt8) :
    Option (CharArray n × Nat) := do
  let (message, index) ← store message index (hexDigits ch)
  store message index (separators (i % 16 + 1))

/-- The loop over the bytes from the one at `i` on. -/
def dumpLoop {n : Nat} (buffer : List UInt8) (sz : Int) (i : Nat) (message : CharArray n)
    (index : Nat) : Option (CharArray n × Nat) :=
  if (i : Int) < sz then
    match buffer[i]? with
    | none => none
    | some ch =>
      match dumpByte message index i ch with
      | none => none
      | some (message, index) =>
        if 2040 < index then some (message, index)
        else dumpLoop buffer sz (i + 1) message index
  else some (message, index)
termination_by (sz - i).toNat

/-- The message and the index in front of the last new line. -/
def dumpBytes (message : CharArray 2048) (buffer : List UInt8) (sz : Int) :
    Option (CharArray 2048 × Nat) := do
  let (message, index) ← store message 0 [10]
  dumpLoop buffer sz 0 message index

/-- The size that `vsnprintf` is given, `2048 - index`. -/
def remaining (index : Nat) : Nat := toSize (2048 - index)

def dumpMessage (message : CharArray 2048) (buffer : List UInt8) (sz : Int) (msg : CString) :
    Option (CharArray 2048) := do
  let (message, index) ← dumpBytes message buffer sz
  let (message, index) ← store message index [10]
  message.vsnprintfAt index (remaining index) msg

def enabled (type t : UInt32) : Bool := type &&& t = t

/-- The record that `logger::write_dump` writes, if it does, for a logger of `type`. -/
def writeDump (type : UInt32) (raw : Record) (now : Int64) (tid : UInt64) (t : UInt32)
    (tag file function : CString) (line : Int32) (buffer : List UInt8) (sz : Int)
    (msg : CString) : Option (Option Record) :=
  if !enabled type t then some none
  else do
    let r ← record raw now tid t tag file function line
    let message ← dumpMessage r.message buffer sz msg
    return some { r with message }

/-! ## The text of a dump -/

/-- A byte in its column. -/
def cell (i : Nat) (ch : UInt8) : List UInt8 := hexDigits ch ++ separators (i % 16 + 1)

/-- The text of bytes from place `i` on. -/
def dumpText (i : Nat) : List UInt8 → List UInt8
  | [] => []
  | ch :: bytes => cell i ch ++ dumpText (i + 1) bytes

/-- The text that stands in the message after the first `k` bytes. -/
def lead (buffer : List UInt8) (k : Nat) : List UInt8 := 10 :: dumpText 0 (buffer.take k)

section Text

variable {buffer : List UInt8} {i k n : Nat} {ch : UInt8}

theorem hexMap_noZero : ∀ d, d < 16 → hexMap.getD d 0 ≠ 0 := by decide

theorem hexDigits_noZero (ch : UInt8) : 0 ∉ hexDigits ch := by
  have hhigh := hexMap_noZero (ch.toNat / 16) (by have := ch.toNat_lt; omega)
  have hlow := hexMap_noZero (ch.toNat % 16) (Nat.mod_lt _ (by decide))
  simp only [hexDigits, List.mem_cons, List.not_mem_nil, or_false, not_or]
  exact ⟨hhigh.symm, hlow.symm⟩

theorem separators_noZero (column : Nat) : 0 ∉ separators column := by
  unfold separators
  split_ifs <;> decide

theorem separators_length (column : Nat) : (separators column).length ≤ 3 := by
  unfold separators
  split_ifs <;> decide

theorem cell_length (i : Nat) (ch : UInt8) : (cell i ch).length ≤ 5 := by
  rw [cell, List.length_append]
  exact Nat.add_le_add_left (separators_length _) 2

theorem cell_noZero (i : Nat) (ch : UInt8) : 0 ∉ cell i ch := by
  rw [cell, List.mem_append]
  rintro (h | h)
  · exact hexDigits_noZero ch h
  · exact separators_noZero _ h

theorem dumpText_append (i : Nat) (bytes : List UInt8) (ch : UInt8) :
    dumpText i (bytes ++ [ch]) = dumpText i bytes ++ cell (i + bytes.length) ch := by
  induction bytes generalizing i with
  | nil => simp [dumpText]
  | cons b bytes ih =>
    rw [List.cons_append, dumpText, dumpText, ih, List.append_assoc, List.length_cons,
      Nat.add_assoc, Nat.add_comm 1]

theorem dumpText_noZero (i : Nat) (bytes : List UInt8) : 0 ∉ dumpText i bytes := by
  induction bytes generalizing i with
  | nil => exact List.not_mem_nil
  | cons b bytes ih =>
    rw [dumpText, List.mem_append]
    rintro (h | h)
    · exact cell_noZero i b h
    · exact ih (i + 1) h

theorem lead_succ (h : buffer[k]? = some ch) :
    lead buffer (k + 1) = lead buffer k ++ cell k ch := by
  obtain ⟨hk, rfl⟩ := List.getElem?_eq_some_iff.mp h
  rw [lead, lead, List.take_succ_eq_append_getElem hk, dumpText_append, List.length_take,
    Nat.min_eq_left (Nat.le_of_lt hk), Nat.zero_add, List.cons_append]

theorem lead_noZero (buffer : List UInt8) (k : Nat) : 0 ∉ lead buffer k := by
  rw [lead, List.mem_cons]
  rintro (h | h)
  · cases h
  · exact dumpText_noZero 0 _ h

end Text

/-! ## The message -/

section Message

variable {n : Nat} {a : CharArray n} {src buffer : List UInt8} {sz : Int} {i : Nat}

theorem store_spec (cs : List UInt8) (hsrc : src <+: a.bytes) (h : src.length + cs.length ≤ n) :
    ∃ b, store a src.length cs = some (b, (src ++ cs).length) ∧ src ++ cs <+: b.bytes := by
  induction cs generalizing a src with
  | nil => exact ⟨a, by rw [store, List.append_nil], by rwa [List.append_nil]⟩
  | cons c cs ih =>
    rw [List.length_cons] at h
    obtain ⟨a', hput, hsrc'⟩ := CharArray.put_prefix (c := c) hsrc (by omega)
    obtain ⟨b, hstore, hb⟩ := ih hsrc' (by rw [List.length_append, List.length_singleton]; omega)
    rw [List.append_assoc, List.singleton_append] at hstore hb
    refine ⟨b, ?_, hb⟩
    rw [store, hput, ← hstore, List.length_append, List.length_singleton]
    rfl

theorem dumpByte_spec (i : Nat) (ch : UInt8) (hsrc : src <+: a.bytes) (h : src.length + 5 ≤ n) :
    ∃ b, dumpByte a src.length i ch = some (b, (src ++ cell i ch).length) ∧
      src ++ cell i ch <+: b.bytes := by
  have hlen := cell_length i ch
  rw [cell, List.length_append] at hlen
  obtain ⟨a', hdigits, hsrc'⟩ := store_spec (hexDigits ch) hsrc (by omega)
  obtain ⟨b, hseps, hb⟩ := store_spec (separators (i % 16 + 1)) hsrc'
    (by rw [List.length_append]; omega)
  rw [List.append_assoc] at hseps hb
  refine ⟨b, ?_, hb⟩
  rw [dumpByte, hdigits]
  exact hseps

/-- The first `k` bytes stand in the message, and the loop over the bytes ends there. -/
structure Dumped (buffer : List UInt8) (sz : Int) (message : CharArray n) (k : Nat) : Prop where
  begins : lead buffer k <+: message.bytes
  bound : (lead buffer k).length ≤ 2045
  within : k ≤ sz.toNat
  stops : k = sz.toNat ∨ 2040 < (lead buffer k).length
  before : ∀ j, j < k → (lead buffer j).length ≤ 2040

theorem dumpLoop_spec (hn : 2045 ≤ n) (hsz : sz ≤ buffer.length) (hi : i ≤ sz.toNat)
    (hsrc : lead buffer i <+: a.bytes) (hle : ∀ j, j ≤ i → (lead buffer j).length ≤ 2040) :
    ∃ b k, dumpLoop buffer sz i a (lead buffer i).length = some (b, (lead buffer k).length) ∧
      Dumped buffer sz b k := by
  have hlen := hle i (Nat.le_refl i)
  induction hleft : sz.toNat - i generalizing i a with
  | zero =>
    refine ⟨a, i, ?_, hsrc, by omega, hi, Or.inl (by omega), fun j hj => hle j (Nat.le_of_lt hj)⟩
    rw [dumpLoop, if_neg (by omega)]
  | succ left ih =>
    have hbuffer : i < buffer.length := by omega
    have hget := List.getElem?_eq_getElem hbuffer
    have hlead := lead_succ hget
    obtain ⟨a', hbyte, hsrc'⟩ := dumpByte_spec i buffer[i] hsrc (by omega)
    rw [← hlead] at hbyte hsrc'
    have hgrow : (lead buffer (i + 1)).length ≤ (lead buffer i).length + 5 := by
      rw [hlead, List.length_append]
      exact Nat.add_le_add_left (cell_length _ _) _
    have hrun : dumpLoop buffer sz i a (lead buffer i).length =
        if 2040 < (lead buffer (i + 1)).length then some (a', (lead buffer (i + 1)).length)
        else dumpLoop buffer sz (i + 1) a' (lead buffer (i + 1)).length := by
      rw [dumpLoop, if_pos (by omega), hget]
      simp only [hbyte]
    rw [hrun]
    split
    · next hfull =>
      exact ⟨a', i + 1, rfl, hsrc', by omega, by omega, Or.inr hfull,
        fun j hj => hle j (Nat.le_of_lt_succ hj)⟩
    · next hroom =>
      refine ih (by omega) hsrc' ?_ (by omega) (by omega)
      intro j hj
      rcases Nat.lt_or_eq_of_le hj with hlt | rfl
      · exact hle j (Nat.le_of_lt_succ hlt)
      · omega

theorem dumpBytes_spec (message : CharArray 2048) (hsz : sz ≤ buffer.length) :
    ∃ b k, dumpBytes message buffer sz = some (b, (lead buffer k).length) ∧
      Dumped buffer sz b k := by
  have hempty : [] <+: message.bytes := List.nil_prefix
  obtain ⟨a, hfirst, hsrc⟩ := store_spec [10] hempty (by decide)
  have hlead : lead buffer 0 = [10] := rfl
  obtain ⟨b, k, hloop, hdumped⟩ := dumpLoop_spec (i := 0) (by omega) hsz (Nat.zero_le _)
    (hlead ▸ hsrc) (by
      intro j hj
      obtain rfl := Nat.le_zero.mp hj
      rw [hlead]
      decide)
  refine ⟨b, k, ?_, hdumped⟩
  rw [dumpBytes]
  show (store message ([] : List UInt8).length [10]).bind _ = _
  rw [hfirst]
  exact hloop

theorem remaining_eq {index : Nat} (h : index ≤ 2048) : remaining index = 2048 - index := by
  have := toSize_of_range (x := 2048 - index) (by omega) (by omega)
  unfold remaining
  omega

theorem dumpMessage_spec (message : CharArray 2048) (hsz : sz ≤ buffer.length) (msg : CString) :
    ∃ filled k result, dumpBytes message buffer sz = some (filled, (lead buffer k).length) ∧
      Dumped buffer sz filled k ∧ dumpMessage message buffer sz msg = some result ∧
      result.text = lead buffer k ++ [10] ++ msg.chars.take (2046 - (lead buffer k).length) := by
  obtain ⟨filled, k, hfilled, hdumped⟩ := dumpBytes_spec message hsz
  have hbound := hdumped.bound
  obtain ⟨closed, hclosed, hsrc⟩ := store_spec [10] hdumped.begins (by
    rw [List.length_singleton]
    omega)
  have hindex : (lead buffer k ++ [10]).length = (lead buffer k).length + 1 := List.length_append
  have hzero : 0 ∉ lead buffer k ++ [10] := by
    rw [List.mem_append]
    rintro (h | h)
    · exact lead_noZero buffer k h
    · revert h
      decide
  have hsize : remaining (lead buffer k ++ [10]).length = 2046 - (lead buffer k).length + 1 := by
    rw [hindex, remaining_eq (by omega)]
    omega
  obtain ⟨result, hresult, htext⟩ := CharArray.vsnprintfAt_spec (s := msg) hsrc hzero
    (m := 2046 - (lead buffer k).length) (by omega)
  refine ⟨filled, k, result, hfilled, hdumped, ?_, htext⟩
  simp only [dumpMessage, hfilled, Option.bind_eq_bind, Option.bind_some, hclosed, hsize]
  exact hresult

theorem record_isSome (raw : Record) (now : Int64) (tid : UInt64) (t : UInt32)
    (tag file function : CString) (line : Int32) :
    ∃ r, record raw now tid t tag file function line = some r := by
  obtain ⟨tag', htag⟩ := CharArray.strncpy_isSome raw.tag tag
  obtain ⟨file', hfile⟩ := CharArray.strncpy_isSome raw.file file
  obtain ⟨function', hfunction⟩ := CharArray.strncpy_isSome raw.function function
  exact ⟨_, by simp only [record, htag, hfile, hfunction]; rfl⟩

end Message

def emptyText : CString := ⟨[], List.not_mem_nil⟩

end LogDump
