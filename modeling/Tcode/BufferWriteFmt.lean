import Tcode.BufferByteBuffer
import Tcode.SupportCString

/-! # Formatted text in a buffer

`write_fmt` formats into an array of 2048 characters. The length that `vsnprintf` reports, which
is that of the whole text or negative, becomes the size of a `write` from this array.
-/
namespace BufferWriteFmt

open SupportMachineInt SupportCString BufferBlock BufferByteBuffer BufferByteBuffer.ByteBuffer

/-- What `vsnprintf` does. When it fails it leaves anything in the array. -/
inductive Answer where
  | formatted (text : List UInt8) (short : text.length < 2147483648)
  | failed (len : Int) (negative : -2147483648 ≤ len ∧ len < 0) (fmtBuffer : CharArray 2048)

def Answer.len : Answer → Int
  | .formatted text _ => text.length
  | .failed len _ _ => len

def Answer.fmtBuffer : Answer → Option (CharArray 2048)
  | .formatted text _ => (CharArray.zeros 2048).memcpy (text.take 2047 ++ [0])
  | .failed _ _ fmtBuffer => some fmtBuffer

/-- `write_fmt( msg , ... )`. -/
def writeFmt (b : ByteBuffer) (a : Answer) : Option (Nat × ByteBuffer) := do
  let fmtBuffer ← a.fmtBuffer
  b.write fmtBuffer.bytes (toSize a.len)

/-- A buffer with a block, whose positions may be anything. -/
structure HasBlock (b : ByteBuffer) (k : Block) : Prop where
  block : b.block = some k
  memory : k.bytes.length = k.capacity
  capacity_lt : k.capacity < 18446744073709551616
  read_lt : b.pos.read < 18446744073709551616
  write_lt : b.pos.write < 18446744073709551616

/-- The call appends the first `n` characters of a text, returns their number, and reads and
writes only the array and the block. -/
def Appends (b : ByteBuffer) (a : Answer) (text : List UInt8) (n : Nat) : Prop :=
  ∃ b', writeFmt b a = some (n, b') ∧ b'.contents = b.contents ++ text.take n

/-- What is promised for an answer of `vsnprintf`. -/
def AppendsFormatted (b : ByteBuffer) : Answer → Prop
  | .formatted text short =>
    Appends b (.formatted text short) text (min (min text.length 2047) b.space)
  | .failed len negative fmtBuffer => Appends b (.failed len negative fmtBuffer) [] 0

/-- `n` characters can be written from the array, and the `int` of the space lets the position
move by all of them but the zero behind the text. -/
structure Fits (b : ByteBuffer) (n : Nat) : Prop where
  scratch : n ≤ 2048
  moves : min (n : Int) (toInt b.space) = min n 2047
  inBlock : b.pos.write ≤ b.capacity
  inOrder : b.pos.read ≤ b.pos.write ∨ n = 0

def FormattedFits (b : ByteBuffer) : Answer → Prop
  | .formatted text _ => Fits b (min text.length b.space)
  | .failed _ _ _ => b.space = 0

variable {b b' : ByteBuffer} {k : Block} {src text : List UInt8} {sz n : Nat}

theorem fmtBuffer_bytes (text : List UInt8) (short : text.length < 2147483648) :
    ∃ fmtBuffer rest, (Answer.formatted text short).fmtBuffer = some fmtBuffer ∧
      fmtBuffer.bytes = text.take 2047 ++ rest := by
  have hlen : (text.take 2047 ++ [0]).length ≤ 2048 := by
    rw [List.length_append, List.length_take, List.length_singleton]
    omega
  obtain ⟨fmtBuffer, hfmt⟩ := CharArray.memcpy_isSome (a := CharArray.zeros 2048) hlen
  exact ⟨fmtBuffer, _, hfmt, (CharArray.bytes_memcpy hfmt).trans (List.append_assoc _ _ _)⟩

/-- A formatted text is written from an array that begins with it, with the length of the whole
text as the size. -/
theorem writeFmt_formatted (b : ByteBuffer) (text : List UInt8) (short : text.length < 2147483648) :
    ∃ (fmtBuffer : CharArray 2048) (rest : List UInt8),
      writeFmt b (.formatted text short) = b.write fmtBuffer.bytes text.length ∧
      fmtBuffer.bytes = text.take 2047 ++ rest := by
  obtain ⟨fmtBuffer, rest, hfmt, hbytes⟩ := fmtBuffer_bytes text short
  have hsz : toSize (Answer.formatted text short).len = text.length := toSize_natCast (by omega)
  refine ⟨fmtBuffer, rest, ?_, hbytes⟩
  rw [writeFmt, hfmt, hsz, Option.bind_eq_bind, Option.bind_some]

theorem HasBlock.space_eq (h : HasBlock b k) :
    b.space = toSize ((k.capacity : Int) - b.pos.write) := by
  rw [space, capacity, h.block, Option.elim_some]

/-- What `write` does with any size: where it stays within the source and the block, it copies as
far as there is space, and moves the position as far as the `int` of the space is. -/
theorem HasBlock.write_eq (h : HasBlock b k) (src : List UInt8) (hn : n = min sz b.space)
    (hsmall : n < 2147483648) :
    b.write src sz = (copyIn k.bytes b.pos.write src n).map fun bytes =>
      (toSize (min n (toInt b.space)),
        ⟨some { k with bytes },
          ⟨b.pos.read, toSize (b.pos.write + min (n : Int) (toInt b.space))⟩⟩) := by
  have hint : toInt n = n := toInt_of_range (by omega) (by omega)
  have hspace (bytes : List UInt8) :
      space { b with block := some { k with bytes } } = b.space := by
    rw [h.space_eq]
    rfl
  simp only [ByteBuffer.write, h.block, Option.bind_eq_bind, Option.bind_some, ← hn]
  cases copyIn k.bytes b.pos.write src n with
  | none => rfl
  | some bytes =>
    simp only [Option.bind_some, wrPtr, hint, hspace, Int.natCast_nonneg, if_true,
      Option.pure_def, Option.map_some]

/-- A copy reads its source only as far as that goes. -/
theorem copyIn_of_write {r : Nat × ByteBuffer} (hwrite : b.write src sz = some r)
    (hn : n = min sz b.space) (hblock : b.block = some k) :
    n ≤ src.length ∧ b.pos.write + n ≤ k.bytes.length := by
  simp only [ByteBuffer.write, hblock, Option.bind_eq_bind, Option.bind_some, ← hn] at hwrite
  by_contra hout
  rw [copyIn, if_neg hout, Option.bind_none] at hwrite
  cases hwrite

/-- The contents behind a write of `n` characters whose position moves by `m` of them. -/
theorem HasBlock.contents_write (h : HasBlock b k) {m : Nat} (hm : m ≤ n)
    (hsrc : n ≤ src.length) (hin : b.pos.write + n ≤ k.capacity)
    (horder : b.pos.read ≤ b.pos.write) :
    ∃ bytes, copyIn k.bytes b.pos.write src n = some bytes ∧
      contents ⟨some { k with bytes }, ⟨b.pos.read, b.pos.write + m⟩⟩ =
        b.contents ++ src.take m := by
  obtain ⟨bytes, hcopy, -, hread⟩ :=
    copyIn_spec k.bytes b.pos.write hsrc (by rw [h.memory]; exact hin)
  refine ⟨bytes, hcopy, ?_⟩
  have hlen : ((k.bytes.drop b.pos.read).take (b.pos.write - b.pos.read)).length =
      b.pos.write - b.pos.read := by
    rw [List.length_take, List.length_drop, h.memory]
    omega
  have hcontents : b.contents = (k.bytes.drop b.pos.read).take (b.pos.write - b.pos.read) := by
    rw [contents, h.block]
  have htake : min (b.pos.write + m - b.pos.read) (b.pos.write + n - b.pos.read) =
      b.pos.write - b.pos.read + m := by omega
  have hwhole : b.pos.write + m - b.pos.read = b.pos.write - b.pos.read + m := by omega
  calc contents ⟨some { k with bytes }, ⟨b.pos.read, b.pos.write + m⟩⟩
      = ((bytes.drop b.pos.read).take (b.pos.write + n - b.pos.read)).take
          (b.pos.write + m - b.pos.read) := by
        rw [contents_mk, List.take_take, htake, hwhole]
    _ = b.contents ++ src.take m := by
        rw [hread _ horder, hcontents, hwhole, List.take_append, hlen, Nat.add_sub_cancel_left,
          List.take_of_length_le (by omega), List.take_take, Nat.min_eq_left hm]

theorem contents_behind (h : b.pos.write ≤ b.pos.read) : b.contents = [] := by
  rw [contents, Nat.sub_eq_zero_of_le h]
  cases b.block with
  | none => rfl
  | some k => exact List.take_zero

/-- When a write of `n` characters appends exactly the first `m` of them. -/
theorem HasBlock.write_appends_iff (h : HasBlock b k) {m : Nat} (hn : n = min sz b.space)
    (hm : m ≤ n) (hsmall : src.length < 2147483648) :
    (∃ b', b.write src sz = some (m, b') ∧ b'.contents = b.contents ++ src.take m) ↔
      n ≤ src.length ∧ min (n : Int) (toInt b.space) = m ∧ b.pos.write + n ≤ k.capacity ∧
        (b.pos.read ≤ b.pos.write ∨ m = 0) := by
  have hcap := h.capacity_lt
  constructor
  · rintro ⟨b', hwrite, hcont⟩
    obtain ⟨hsrc, hin⟩ := copyIn_of_write hwrite hn h.block
    rw [h.memory] at hin
    rw [h.write_eq src hn (by omega)] at hwrite
    obtain ⟨bytes, -, hres⟩ := Option.map_eq_some_iff.mp hwrite
    obtain ⟨hret, rfl⟩ := Prod.mk.inj hres
    have hspace := toInt_range b.space
    -- a negative number of characters would be returned as a huge one
    have hmoves : min (n : Int) (toInt b.space) = m := by
      unfold toSize at hret
      omega
    refine ⟨hsrc, hmoves, hin, ?_⟩
    by_contra hbehind
    have hpos : toSize ((b.pos.write : Int) + m) = b.pos.write + m :=
      toSize_natCast (n := b.pos.write + m) (by omega)
    rw [hmoves, hpos, contents_mk] at hcont
    have hlen := congrArg List.length hcont
    rw [List.length_append, List.length_take, List.length_take] at hlen
    omega
  · rintro ⟨hsrc, hmoves, hin, horder⟩
    have hpos : toSize ((b.pos.write : Int) + m) = b.pos.write + m :=
      toSize_natCast (n := b.pos.write + m) (by omega)
    have hret : toSize m = m := toSize_natCast (by omega)
    rw [h.write_eq src hn (by omega), hmoves, hpos, hret]
    by_cases hle : b.pos.read ≤ b.pos.write
    · obtain ⟨bytes, hcopy, hcont⟩ := h.contents_write hm hsrc hin hle
      exact ⟨_, by rw [hcopy, Option.map_some], hcont⟩
    · obtain rfl := horder.resolve_left hle
      obtain ⟨bytes, hcopy, -⟩ :=
        copyIn_spec k.bytes b.pos.write hsrc (by rw [h.memory]; exact hin)
      refine ⟨_, by rw [hcopy, Option.map_some], ?_⟩
      have hbehind := Nat.le_of_not_le hle
      rw [List.take_zero, List.append_nil, contents_behind hbehind]
      exact contents_behind hbehind

/-- A call appends exactly what is promised when as many characters can be written from the
array, and nothing but a full block keeps a failed one from writing. -/
theorem writeFmt_iff (h : HasBlock b k) (a : Answer) :
    AppendsFormatted b a ↔ FormattedFits b a := by
  have hcap := h.capacity_lt
  have hwrite := h.write_lt
  have hspace := h.space_eq
  cases a with
  | formatted text short =>
    obtain ⟨fmtBuffer, rest, hcall, hbytes⟩ := writeFmt_formatted b text short
    have hm : min (min text.length 2047) b.space ≤ min text.length b.space := by omega
    have htext : fmtBuffer.bytes.take (min (min text.length 2047) b.space) =
        text.take (min (min text.length 2047) b.space) := by
      rw [hbytes, List.take_append_of_le_length (by rw [List.length_take]; omega), List.take_take]
      congr 1
      omega
    have hsmall : fmtBuffer.bytes.length < 2147483648 := by
      rw [fmtBuffer.size]
      decide
    rw [AppendsFormatted, Appends, hcall, ← htext, h.write_appends_iff rfl hm hsmall,
      fmtBuffer.size, FormattedFits]
    have hcapacity : b.capacity = k.capacity := by
      rw [capacity, h.block, Option.elim_some]
    have hmin : min (min text.length 2047) b.space = min (min text.length b.space) 2047 := by
      omega
    have hle : min text.length b.space ≤ b.space := Nat.min_le_right _ _
    rw [hmin]
    generalize min text.length b.space = n at hle ⊢
    constructor
    · rintro ⟨hscratch, hmoves, hin, horder⟩
      exact ⟨hscratch, by omega, by omega, by omega⟩
    · rintro ⟨hscratch, hmoves, hin, horder⟩
      have hroom : b.space = k.capacity - b.pos.write := by
        rw [hspace]
        unfold toSize
        omega
      exact ⟨hscratch, by omega, by omega, by omega⟩
  | failed len negative fmtBuffer =>
    have hsz := toSize_of_neg (x := len) (by omega) (by omega)
    have hcall : writeFmt b (.failed len negative fmtBuffer) =
        b.write fmtBuffer.bytes (toSize len) := rfl
    have hsmall : fmtBuffer.bytes.length < 2147483648 := by
      rw [fmtBuffer.size]
      decide
    rw [AppendsFormatted, Appends, hcall, List.take_nil, ← List.take_zero (l := fmtBuffer.bytes),
      h.write_appends_iff rfl (Nat.zero_le _) hsmall, fmtBuffer.size, FormattedFits]
    constructor
    · rintro ⟨hscratch, hmoves, -, -⟩
      rw [toInt_of_range (by omega) (by omega)] at hmoves
      omega
    · intro hfull
      rw [hfull, Nat.min_zero]
      have hin : b.pos.write ≤ k.capacity := by
        unfold toSize at hspace
        omega
      have hzero : toInt ((0 : Nat) : Int) = 0 := toInt_of_range (by decide) (by decide)
      exact ⟨by omega, by rw [hzero]; omega, hin, Or.inr rfl⟩

/-- A text that fits is appended whole. -/
theorem writeFmt_iff_at_text :
    AppendsFormatted ⟨some ⟨1, 4, [7, 0, 0, 0]⟩, ⟨0, 1⟩⟩ (.formatted [65, 66] (by decide)) :=
  (writeFmt_iff ⟨rfl, rfl, by decide, by decide, by decide⟩ _).mpr
    ⟨by decide, by decide, by decide, by decide⟩

/-- A text of 3000 characters is read beyond the end of the array. -/
theorem writeFmt_reads_beyond :
    ¬ ∀ (b : ByteBuffer) (k : Block) (a : Answer), HasBlock b k → AppendsFormatted b a := by
  intro hall
  have hblock : HasBlock (ofSize 4096) (alloc 4096) :=
    ⟨rfl, alloc_bytes_length (by decide), by decide, by decide, by decide⟩
  have hlen : (List.replicate 3000 (65 : UInt8)).length = 3000 := List.length_replicate
  have hshort : (List.replicate 3000 (65 : UInt8)).length < 2147483648 := by
    rw [hlen]
    decide
  obtain ⟨b', happends, -⟩ := hall _ _ (.formatted _ hshort) hblock
  obtain ⟨fmtBuffer, -, hcall, -⟩ := writeFmt_formatted (ofSize 4096) _ hshort
  rw [hcall, hlen] at happends
  obtain ⟨hscratch, -⟩ := copyIn_of_write happends rfl hblock.block
  have hspace : (ofSize 4096).space = 4096 := by decide
  rw [fmtBuffer.size, hspace] at hscratch
  omega

end BufferWriteFmt
