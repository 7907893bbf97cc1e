import Tcode.SupportBitGroups
import Tcode.SupportMachineInt

/-! # Base64

The encoder takes the bits of bytes six at a time, the decoder those of characters eight at a
time. The decoder is modelled with its accesses: what it stores, where it looks into its table,
and the characters that the bits come from.
-/
namespace Base64Codec

open SupportMachineInt SupportBitGroups

/-- `b64_table`, without its zero. -/
def b64Table : List UInt8 :=
  "ABCDEFGHIJKLMNOPQRSTUVWXYZabcdefghijklmnopqrstuvwxyz0123456789+/".toList.map
    fun c => .ofNat c.toNat

def b64TableR : List Nat :=
  [64, 64, 64, 64, 64, 64, 64, 64, 64, 64, 64, 64, 64, 64, 64, 64,
   64, 64, 64, 64, 64, 64, 64, 64, 64, 64, 64, 64, 64, 64, 64, 64,
   64, 64, 64, 64, 64, 64, 64, 64, 64, 64, 64, 62, 64, 64, 64, 63,
   52, 53, 54, 55, 56, 57, 58, 59, 60, 61, 64, 64, 64, 64, 64, 64,
   64, 0, 1, 2, 3, 4, 5, 6, 7, 8, 9, 10, 11, 12, 13, 14,
   15, 16, 17, 18, 19, 20, 21, 22, 23, 24, 25, 64, 64, 64, 64, 64,
   64, 26, 27, 28, 29, 30, 31, 32, 33, 34, 35, 36, 37, 38, 39, 40,
   41, 42, 43, 44, 45, 46, 47, 48, 49, 50, 51, 64, 64, 64, 64, 64]

/-! ## Encoding -/

structure Encoder where
  retval : List UInt8
  outpos : Nat
  bitsCollected : Nat
  accumulator : Nat

/-- `retval[outpos] = b64_table[value]` -/
def putChar (retval : List UInt8) (outpos value : Nat) : Option (List UInt8) := do
  let c ← b64Table[value]?
  if outpos < retval.length then return retval.set outpos c else none

/-- The loop `while (bits_collected >= 6)`. -/
def flush (accumulator bitsCollected outpos : Nat) (retval : List UInt8) : Option Encoder :=
  if 6 ≤ bitsCollected then
    match putChar retval outpos (accumulator >>> (bitsCollected - 6) &&& 0x3f) with
    | none => none
    | some retval => flush accumulator (bitsCollected - 6) (outpos + 1) retval
  else some ⟨retval, outpos, bitsCollected, accumulator⟩
termination_by bitsCollected

def Encoder.step (e : Encoder) (byte : UInt8) : Option Encoder :=
  let accumulator := e.accumulator <<< 8 % 4294967296 ||| (byte.toNat &&& 0xff)
  flush accumulator (e.bitsCollected + 8) e.outpos e.retval

def Encoder.steps (e : Encoder) : List UInt8 → Option Encoder
  | [] => some e
  | byte :: buffer => do
    let e ← e.step byte
    e.steps buffer

def Encoder.finish (e : Encoder) : Option (List UInt8) :=
  if 0 < e.bitsCollected then
    let accumulator := e.accumulator <<< (6 - e.bitsCollected) % 4294967296
    putChar e.retval e.outpos (accumulator &&& 0x3f)
  else some e.retval

def base64Encode (msg : List UInt8) : Option (List UInt8) := do
  if 1024968 < msg.length then return []
  else
    let e ← Encoder.steps ⟨.replicate ((msg.length + 2) / 3 * 4) 61, 0, 0, 0⟩ msg
    e.finish

/-! ## Decoding -/

/-- A plain `char`, which is signed. -/
def charValue (b : UInt8) : Int := if b.toNat < 128 then b.toNat else b.toNat - 256

def isspace (c : Int) : Bool := c = 32 ∨ 9 ≤ c ∧ c ≤ 13

/-- `b64_table_r[c]` as an unsigned number; `memory` holds what lies around the table. -/
def tableValue (memory : Int → UInt8) (c : Int) : Nat :=
  if 0 ≤ c ∧ c ≤ 127 then b64TableR.getD c.toNat 64
  else if (memory c).toNat < 128 then (memory c).toNat
  else (memory c).toNat + 4294967040

/-- `buffer[index] = byte`, and the characters that the bits of the byte come from. -/
structure Store where
  index : Int
  byte : UInt8
  origin : List UInt8
  deriving DecidableEq, Repr

/-- The indices of `lookups` and the `stores` are in the order in which they are made; `origin`
has the character of each bit that is collected. -/
structure Decoder where
  index : Int
  bitsCollected : Nat
  accumulator : Nat
  stores : List Store
  lookups : List Int
  origin : List UInt8
  deriving DecidableEq, Repr

def Decoder.start : Decoder := ⟨0, 0, 0, [], [], []⟩

/-- The check on a character looks it up where it is in range, and has no consequence. -/
def Decoder.step (memory : Int → UInt8) (d : Decoder) (b : UInt8) : Decoder :=
  let c := charValue b
  if isspace c ∨ c = 61 then d
  else
    let checked := if 127 < c ∨ c < 0 then [] else [c]
    let accumulator := d.accumulator <<< 6 % 4294967296 ||| tableValue memory c
    let bitsCollected := d.bitsCollected + 6
    let lookups := d.lookups ++ checked ++ [c]
    let origin := d.origin ++ .replicate 6 b
    if 8 ≤ bitsCollected then
      let byte := .ofNat (accumulator >>> (bitsCollected - 8) &&& 0xff)
      { index := toInt (d.index + 1)
        bitsCollected := bitsCollected - 8
        accumulator
        stores := d.stores ++ [⟨d.index, byte, origin.take 8⟩]
        lookups
        origin := origin.drop 8 }
    else { d with bitsCollected, accumulator, lookups, origin }

/-- The run on a text; the size of the buffer is not looked at. -/
def base64Decode (memory : Int → UInt8) (src : List UInt8) (_size : Nat) : Decoder :=
  src.foldl (Decoder.step memory) .start

/-- The buffer after the stores that lie in it. -/
def Decoder.buffer (d : Decoder) (buffer : List UInt8) : List UInt8 :=
  d.stores.foldl (fun buffer s => buffer.set s.index.toNat s.byte) buffer

end Base64Codec
