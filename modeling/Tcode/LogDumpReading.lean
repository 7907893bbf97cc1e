import Tcode.LogDump

/-! # Reading a dump

The text of a dump says which bytes were dumped: a reader finds each byte in its column, and a
new line where a byte would begin is the end of the dump. `string::raw_to_hex_string` writes the
same digits without columns.
-/
namespace LogDumpReading

open SupportCString LogRecord LogDump

/-! ## What is to be read -/

def hexValue (c : UInt8) : Option Nat := hexMap.findIdx? (· = c)

def byteOf (high low : UInt8) : Option UInt8 := do
  let h ← hexValue high
  let l ← hexValue low
  return UInt8.ofNat (16 * h + l)

/-- The bytes from the one at `i` on, and what stands behind the dump. -/
def readCells (i : Nat) : List UInt8 → Option (List UInt8 × List UInt8)
  | [] => none
  | [c] => if c = 10 then some ([], []) else none
  | c :: d :: text =>
    if c = 10 then some ([], d :: text)
    else do
      let byte ← byteOf c d
      let (bytes, message) ← readCells (i + 1) (text.drop (separators (i % 16 + 1)).length)
      return (byte :: bytes, message)
termination_by text => text.length
decreasing_by
  rw [List.length_drop, List.length_cons, List.length_cons]
  omega

def readDump : List UInt8 → Option (List UInt8 × List UInt8)
  | 10 :: text => readCells 0 text
  | _ => none

/-- `raw_to_hex_string( p , sz )`, from the byte at `i` on. Behind the end of the array nothing may
be read. -/
def rawToHexFrom (p : List UInt8) (sz : Int) (i : Nat) : Option (List UInt8) :=
  if (i : Int) < sz then do
    let ch ← p[i]?
    let value ← rawToHexFrom p sz (i + 1)
    return hexDigits ch ++ value
  else some []
termination_by (sz - i).toNat

def rawToHexString (p : List UInt8) (sz : Int) : Option (List UInt8) := rawToHexFrom p sz 0

def readHex : List UInt8 → Option (List UInt8)
  | [] => some []
  | [_] => none
  | c :: d :: text => do
    let byte ← byteOf c d
    let bytes ← readHex text
    return byte :: bytes

variable {buffer bytes : List UInt8} {sz : Int} {i k : Nat} {c ch : UInt8}

/-! ## Digits -/

theorem hexValue_hexMap : ∀ d, d < 16 → hexValue (hexMap.getD d 0) = some d := by decide

theorem hexMap_ne_newLine : ∀ d, d < 16 → hexMap.getD d 0 ≠ 10 := by decide

theorem byteOf_hexDigits (ch : UInt8) :
    byteOf (hexMap.getD (ch.toNat / 16) 0) (hexMap.getD (ch.toNat % 16) 0) = some ch := by
  have hlt := ch.toNat_lt
  have hsplit : 16 * (ch.toNat / 16) + ch.toNat % 16 = ch.toNat := Nat.div_add_mod ch.toNat 16
  have hhigh := hexValue_hexMap (ch.toNat / 16) (by omega)
  have hlow := hexValue_hexMap (ch.toNat % 16) (Nat.mod_lt _ (by decide))
  simp only [byteOf, hhigh, hlow, Option.bind_eq_bind, Option.bind_some, hsplit,
    UInt8.ofNat_toNat]
  rfl

/-! ## Reading what was written -/

theorem readCells_cell (i : Nat) (ch : UInt8) (text : List UInt8) :
    readCells i (cell i ch ++ text) =
      (readCells (i + 1) text).map fun r => (ch :: r.1, r.2) := by
  have hlt := ch.toNat_lt
  have hne := hexMap_ne_newLine (ch.toNat / 16) (by omega)
  have htext : cell i ch ++ text = hexMap.getD (ch.toNat / 16) 0 ::
      hexMap.getD (ch.toNat % 16) 0 :: (separators (i % 16 + 1) ++ text) := by
    rw [cell, hexDigits, List.append_assoc]
    rfl
  rw [htext, readCells, if_neg hne]
  simp only [byteOf_hexDigits, List.drop_left, Option.bind_eq_bind, Option.bind_some]
  cases readCells (i + 1) text <;> rfl

theorem readCells_dumpText (i : Nat) (bytes message : List UInt8) :
    readCells i (dumpText i bytes ++ 10 :: message) = some (bytes, message) := by
  induction bytes generalizing i with
  | nil =>
    rw [dumpText, List.nil_append]
    cases message <;> rw [readCells, if_pos rfl]
  | cons ch bytes ih => rw [dumpText, List.append_assoc, readCells_cell, ih]; rfl

theorem readDump_lead (buffer : List UInt8) (k : Nat) (message : List UInt8) :
    readDump (lead buffer k ++ [10] ++ message) = some (buffer.take k, message) := by
  rw [List.append_assoc, lead, List.cons_append, readDump]
  exact readCells_dumpText 0 _ message

theorem rawToHexFrom_eq (hsz : sz ≤ bytes.length) (hi : i ≤ sz.toNat) :
    ∃ value, rawToHexFrom bytes sz i = some value ∧
      readHex value = some ((bytes.take sz.toNat).drop i) := by
  induction hleft : sz.toNat - i generalizing i with
  | zero =>
    have hall : (bytes.take sz.toNat).drop i = [] := by
      rw [List.drop_eq_nil_iff, List.length_take]
      omega
    exact ⟨[], by rw [rawToHexFrom, if_neg (by omega)], by rw [hall, readHex]⟩
  | succ left ih =>
    have hbytes : i < bytes.length := by omega
    obtain ⟨value, hvalue, hread⟩ := ih (i := i + 1) (by omega) (by omega)
    have hdrop : (bytes.take sz.toNat).drop i =
        bytes[i] :: (bytes.take sz.toNat).drop (i + 1) := by
      rw [List.drop_eq_getElem_cons (by rw [List.length_take]; omega), List.getElem_take]
    refine ⟨hexDigits bytes[i] ++ value, ?_, ?_⟩
    · rw [rawToHexFrom, if_pos (by omega), List.getElem?_eq_getElem hbytes, hvalue]
      rfl
    · rw [hdrop]
      simp only [hexDigits, List.cons_append, List.nil_append, readHex, byteOf_hexDigits, hread]
      rfl

/-- `raw_to_hex_string` loses nothing. -/
theorem readHex_rawToHexString (hsz : sz ≤ bytes.length) :
    ∃ value, rawToHexString bytes sz = some value ∧
      readHex value = some (bytes.take sz.toNat) :=
  rawToHexFrom_eq hsz (Nat.zero_le _)

/-! ## How much is written -/

/-- The index behind the first `k` bytes. -/
def indexAfter : Nat → Nat
  | 0 => 1
  | k + 1 => indexAfter k + 2 + (separators (k % 16 + 1)).length

theorem indexAfter_mono {j k : Nat} (h : j ≤ k) : indexAfter j ≤ indexAfter k := by
  induction h with
  | refl => exact Nat.le_refl _
  | step _ ih =>
    rw [indexAfter]
    omega

theorem indexAfter_row (q : Nat) : ∀ r, r ≤ 16 → indexAfter (16 * q + r) + 1 =
    indexAfter (16 * q) + indexAfter r := by
  intro r hr
  induction r with
  | zero => rfl
  | succ r ih =>
    have hcolumn : (16 * q + r) % 16 = r % 16 := Nat.mul_add_mod 16 q r
    have hrow := ih (by omega)
    rw [← Nat.add_assoc, indexAfter, indexAfter, hcolumn]
    omega

/-- A row has 52 characters. -/
theorem indexAfter_rows (q : Nat) : indexAfter (16 * q) = 52 * q + 1 := by
  induction q with
  | zero => rfl
  | succ q ih =>
    have hrow := indexAfter_row q 16 (Nat.le_refl 16)
    have hsixteen : indexAfter 16 = 53 := by decide
    rw [Nat.mul_succ]
    omega

theorem indexAfter_eq {q r : Nat} (hr : r ≤ 16) (hk : k = 16 * q + r) :
    indexAfter k = 52 * q + indexAfter r := by
  have hrow := indexAfter_row q r hr
  rw [← hk, indexAfter_rows] at hrow
  omega

theorem lead_length (h : k ≤ buffer.length) : (lead buffer k).length = indexAfter k := by
  induction k with
  | zero => rfl
  | succ k ih =>
    rw [lead_succ (List.getElem?_eq_getElem h), List.length_append, ih (Nat.le_of_succ_le h), cell,
      List.length_append, indexAfter, Nat.add_assoc]
    rfl

/-- The 628th byte fills the message. -/
theorem indexAfter_full : indexAfter 627 ≤ 2040 ∧ 2040 < indexAfter 628 := by
  have hbelow : indexAfter 627 = 52 * 39 + indexAfter 3 := indexAfter_eq (by decide) (by decide)
  have habove : indexAfter 628 = 52 * 39 + indexAfter 4 := indexAfter_eq (by decide) (by decide)
  have hsmall : indexAfter 3 = 10 ∧ indexAfter 4 = 14 := by decide
  omega

/-- The loop ends behind the last byte or behind the 628th. -/
theorem dumped_count {message : CharArray 2048} (h : Dumped buffer sz message k)
    (hsz : sz ≤ buffer.length) : k = min sz.toNat 628 := by
  obtain ⟨hbelow, habove⟩ := indexAfter_full
  have hlength {j : Nat} (hj : j ≤ k) : (lead buffer j).length = indexAfter j :=
    lead_length (by have := h.within; omega)
  have hle : k ≤ 628 := by
    by_contra hlt
    have hbefore := h.before 628 (by omega)
    rw [hlength (by omega)] at hbefore
    omega
  have hwithin := h.within
  rcases h.stops with hall | hfull
  · omega
  · rw [hlength (Nat.le_refl k)] at hfull
    have hge : 628 ≤ k := by
      by_contra hlt
      have hmono := indexAfter_mono (j := k) (k := 627) (by omega)
      omega
    omega

/-- From the message of the record the first 628 bytes can be read back, and with them the text
behind the dump as far as it fits. -/
theorem writeDump_readable (type : UInt32) (raw : Record) (now : Int64) (tid : UInt64) (t : UInt32)
    (tag file function : CString) (line : Int32) (msg : CString)
    (henabled : enabled type t = true) (hsz : sz ≤ buffer.length) :
    ∃ r, writeDump type raw now tid t tag file function line buffer sz msg = some (some r) ∧
      readDump r.message.text = some (buffer.take (min sz.toNat 628),
        msg.chars.take (2046 - indexAfter (min sz.toNat 628))) := by
  obtain ⟨r, hrecord⟩ := record_isSome raw now tid t tag file function line
  obtain ⟨filled, k, result, -, hdumped, hmessage, htext⟩ := dumpMessage_spec r.message hsz msg
  have hcount := dumped_count hdumped hsz
  have hlength : (lead buffer k).length = indexAfter k :=
    lead_length (by have := hdumped.within; omega)
  refine ⟨{ r with message := result }, ?_, ?_⟩
  · unfold writeDump
    simp only [henabled, Bool.not_true, Bool.false_eq_true, if_false, hrecord,
      Option.bind_eq_bind, Option.bind_some, hmessage]
    rfl
  · rw [htext, readDump_lead, hlength, hcount]

/-- Seventeen bytes of a dump and the text behind them. -/
theorem writeDump_readable_seventeen :
    ∃ r, writeDump 63 blank 0 0 4 emptyText emptyText emptyText 1 (List.replicate 17 171) 17
        ⟨[72, 105], by decide⟩ = some (some r) ∧
      readDump r.message.text = some (List.replicate 17 171, [72, 105]) :=
  writeDump_readable 63 blank 0 0 4 emptyText emptyText emptyText 1 ⟨[72, 105], by decide⟩
    (by decide) (by decide)

end LogDumpReading
