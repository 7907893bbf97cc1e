import Tcode.BufferBlock

/-! # byte_buffer

Operations that touch memory are partial: `none` stands for an access outside the
block or for a buffer without a block, which the source asserts against.
-/
namespace BufferByteBuffer

open SupportMachineInt BufferBlock

structure Position where
  read : Nat
  write : Nat
  deriving DecidableEq, Repr

structure ByteBuffer where
  block : Option Block
  pos : Position
  deriving DecidableEq, Repr

namespace ByteBuffer

def empty : ByteBuffer := ⟨none, ⟨0, 0⟩⟩

/-- `byte_buffer( const std::size_t sz )`. -/
def ofSize (sz : Nat) : ByteBuffer := ⟨some (alloc sz), ⟨0, 0⟩⟩

def capacity (b : ByteBuffer) : Nat := b.block.elim 0 Block.capacity

def refcount (b : ByteBuffer) : Int := b.block.elim 0 Block.refcount

def length (b : ByteBuffer) : Nat := toSize ((b.pos.write : Int) - b.pos.read)

def space (b : ByteBuffer) : Nat := toSize ((b.capacity : Int) - b.pos.write)

/-- `wr_ptr( const int move )`. -/
def wrPtr (b : ByteBuffer) (move : Int) : Int × ByteBuffer :=
  let realmove :=
    if 0 ≤ move then min move (toInt b.space) else max move (-toInt b.length)
  (realmove, { b with pos := ⟨b.pos.read, toSize (b.pos.write + realmove)⟩ })

/-- `rd_ptr( const int move )`. -/
def rdPtr (b : ByteBuffer) (move : Int) : Int × ByteBuffer :=
  let realmove :=
    if 0 ≤ move then min move (toInt b.length) else max move (-toInt b.pos.read)
  (realmove, { b with pos := ⟨toSize (b.pos.read + realmove), b.pos.write⟩ })

/-- `memcpy` of the first `n` bytes of `src` to offset `off` of a block. -/
def copyIn (bytes : List UInt8) (off : Nat) (src : List UInt8) (n : Nat) : Option (List UInt8) :=
  if n ≤ src.length ∧ off + n ≤ bytes.length then
    some (bytes.take off ++ src.take n ++ bytes.drop (off + n))
  else none

/-- `memcpy` of `n` bytes from offset `off` of a block. -/
def copyOut (bytes : List UInt8) (off n : Nat) : Option (List UInt8) :=
  if off + n ≤ bytes.length then some ((bytes.drop off).take n) else none

/-- `write( void* src , const std::size_t sz )`. -/
def write (b : ByteBuffer) (src : List UInt8) (sz : Nat) : Option (Nat × ByteBuffer) := do
  let cpysize := min sz b.space
  let k ← b.block
  let bytes ← copyIn k.bytes b.pos.write src cpysize
  let (moved, b') := { b with block := some { k with bytes } }.wrPtr (toInt cpysize)
  return (toSize moved, b')

/-- `peak( void* dst , const std::size_t sz )`: the bytes stored to `dst`. -/
def peak (b : ByteBuffer) (sz : Nat) : Option (List UInt8) := do
  let k ← b.block
  copyOut k.bytes b.pos.read (min sz b.length)

/-- `read( void* dst , const std::size_t sz )`. -/
def read (b : ByteBuffer) (sz : Nat) : Option (List UInt8 × ByteBuffer) := do
  let bs ← b.peak sz
  return (bs, (b.rdPtr (toInt (min sz b.length))).2)

/-- `fit()`: the readable bytes move to the front of the block. -/
def fit (b : ByteBuffer) : Option ByteBuffer := do
  let k ← b.block
  let moved ← copyOut k.bytes b.pos.read b.length
  let bytes ← copyIn k.bytes 0 moved b.length
  return ⟨some { k with bytes }, ⟨0, b.length⟩⟩

/-- The memory from the read position on, as a pointer into it reaches. -/
def fromReadPosition (b : ByteBuffer) : Option (List UInt8) := do
  let k ← b.block
  return k.bytes.drop b.pos.read

/-- `reserve( const int sz )`. -/
def reserve (b : ByteBuffer) (sz : Int) : Option ByteBuffer :=
  if b.refcount = 1 ∧ sz < toInt b.capacity then some b
  else
    let nb := ofSize (toSize sz)
    match b.block with
    | none => some nb
    | some k => do
      let (_, nb') ← nb.write (k.bytes.drop b.pos.read) b.length
      return nb'

/-- `byte_buffer( uint8_t* buf , const std::size_t len )`. -/
def ofBytes (buf : List UInt8) (len : Nat) : Option ByteBuffer := do
  let (_, b) ← (ofSize len).write buf len
  return b

/-- `sub_buffer( start , len )`: a copy that leaves this buffer as it is. -/
def subBuffer (b : ByteBuffer) (start len : Nat) : Option ByteBuffer := do
  let src ← b.fromReadPosition
  ofBytes (src.drop start) len

/-- `shrink_to_fit()`: the readable bytes move to a block of their size. -/
def shrinkToFit (b : ByteBuffer) : Option (Int × ByteBuffer) := do
  let nb := alloc b.length
  let k ← b.block
  let moved ← copyOut k.bytes b.pos.read b.length
  let bytes ← copyIn nb.bytes 0 moved b.length
  return (toInt b.pos.read, ⟨some { nb with bytes }, ⟨0, b.length⟩⟩)

def clear (b : ByteBuffer) : ByteBuffer := { b with pos := ⟨0, 0⟩ }

/-- `copy()`: `block::copy` and the positions. -/
def copy (b : ByteBuffer) : Option ByteBuffer :=
  match b.block with
  | none => some b
  | some k => do
    let nk := alloc k.capacity
    let src ← copyOut k.bytes 0 k.capacity
    let bytes ← copyIn nk.bytes 0 src k.capacity
    return ⟨some { nk with bytes }, b.pos⟩

/-- The readable bytes. -/
def contents (b : ByteBuffer) : List UInt8 :=
  match b.block with
  | none => []
  | some k => (k.bytes.drop b.pos.read).take (b.pos.write - b.pos.read)

@[simp] theorem capacity_mk (k : Block) (p : Position) : capacity ⟨some k, p⟩ = k.capacity := rfl

@[simp] theorem refcount_mk (k : Block) (p : Position) : refcount ⟨some k, p⟩ = k.refcount := rfl

@[simp] theorem contents_mk (k : Block) (r w : Nat) :
    contents ⟨some k, ⟨r, w⟩⟩ = (k.bytes.drop r).take (w - r) := rfl

@[simp] theorem refcount_rdPtr (b : ByteBuffer) (n : Int) :
    (b.rdPtr n).2.refcount = b.refcount := by
  simp only [rdPtr, refcount]

/-- The write position moves by what was asked for when there is room. -/
theorem wrPtr_natCast (b : ByteBuffer) {n : Nat} (hn : n ≤ b.space)
    (hp : b.pos.write + b.space < 2147483648) :
    b.wrPtr n = ((n : Int), ⟨b.block, ⟨b.pos.read, b.pos.write + n⟩⟩) := by
  have hmin : min (n : Int) (toInt b.space) = n := by
    rw [toInt_of_range (x := (b.space : Int)) (by omega) (by omega)]
    omega
  have hpos : toSize ((b.pos.write : Int) + n) = b.pos.write + n := by
    unfold toSize
    omega
  simp only [wrPtr, Int.natCast_nonneg, if_true, hmin, hpos]

theorem write_keeps {b b' : ByteBuffer} {src : List UInt8} {sz k : Nat}
    (h : b.write src sz = some (k, b')) :
    b'.capacity = b.capacity ∧ b'.refcount = b.refcount := by
  obtain ⟨_ | blk, pos⟩ := b
  · cases h
  · simp only [ByteBuffer.write, Option.bind_eq_bind, Option.bind_some, Option.bind_eq_some_iff,
      Option.pure_def, Option.some.injEq] at h
    obtain ⟨bytes, -, h⟩ := h
    rw [← (Prod.mk.inj h).2]
    exact ⟨rfl, rfl⟩

theorem read_keeps {b b' : ByteBuffer} {sz : Nat} {bs : List UInt8}
    (h : b.read sz = some (bs, b')) :
    b'.capacity = b.capacity ∧ b'.refcount = b.refcount ∧ b'.pos.write = b.pos.write := by
  simp only [ByteBuffer.read, Option.bind_eq_bind, Option.bind_eq_some_iff, Option.pure_def,
    Option.some.injEq] at h
  obtain ⟨_, -, h⟩ := h
  rw [← (Prod.mk.inj h).2]
  exact ⟨rfl, rfl, rfl⟩

theorem fit_keeps {b b' : ByteBuffer} (h : b.fit = some b') :
    b'.capacity = b.capacity ∧ b'.refcount = b.refcount := by
  obtain ⟨_ | blk, pos⟩ := b
  · cases h
  · simp only [fit, Option.bind_eq_bind, Option.bind_some, Option.bind_eq_some_iff,
      Option.pure_def, Option.some.injEq] at h
    obtain ⟨_, -, _, -, rfl⟩ := h
    exact ⟨rfl, rfl⟩

/-! ## Buffers whose positions are in order -/

/-- A buffer with a block below 2^31 bytes and its positions in order. -/
structure Valid (b : ByteBuffer) : Prop where
  has_block : b.block.isSome
  memory : ∀ k ∈ b.block, k.bytes.length = k.capacity
  read_le : b.pos.read ≤ b.pos.write
  write_le : b.pos.write ≤ b.capacity
  capacity_lt : b.capacity < 2147483648

/-- `Valid` buffers with the block taken out of its option. -/
theorem Valid.block {b : ByteBuffer} (h : b.Valid) :
    ∃ k, b = ⟨some k, b.pos⟩ ∧ k.bytes.length = k.capacity ∧ b.pos.read ≤ b.pos.write ∧
      b.pos.write ≤ k.capacity ∧ k.capacity < 2147483648 := by
  obtain ⟨k, hk⟩ := Option.isSome_iff_exists.mp h.has_block
  refine ⟨k, by rw [← hk], h.memory k hk, h.read_le, ?_, ?_⟩
  · simpa [capacity, hk] using h.write_le
  · simpa [capacity, hk] using h.capacity_lt

theorem valid_mk {k : Block} {r w : Nat} (hm : k.bytes.length = k.capacity) (hr : r ≤ w)
    (hw : w ≤ k.capacity) (hc : k.capacity < 2147483648) : Valid ⟨some k, ⟨r, w⟩⟩ :=
  ⟨rfl, by simpa using hm, hr, hw, hc⟩

theorem length_mk {k : Option Block} {r w : Nat} (hr : r ≤ w) (hw : w < 2147483648) :
    length ⟨k, ⟨r, w⟩⟩ = w - r := by
  simp only [length, toSize]
  omega

theorem space_mk {k : Block} {r w : Nat} (hw : w ≤ k.capacity) (hc : k.capacity < 2147483648) :
    space ⟨some k, ⟨r, w⟩⟩ = k.capacity - w := by
  simp only [space, capacity, Option.elim_some, toSize]
  omega

theorem Valid.length_eq {b : ByteBuffer} (h : b.Valid) : b.length = b.pos.write - b.pos.read := by
  obtain ⟨k, hb, -, hr, hw, hc⟩ := h.block
  rw [hb, length_mk hr (by omega)]

theorem Valid.contents_length {b : ByteBuffer} (h : b.Valid) : b.contents.length = b.length := by
  obtain ⟨k, hb, hm, hr, hw, hc⟩ := h.block
  rw [h.length_eq, hb]
  simp only [contents, List.length_take, List.length_drop]
  omega

theorem Valid.length_lt {b : ByteBuffer} (h : b.Valid) : b.length < 2147483648 := by
  have := h.length_eq
  have := h.write_le
  have := h.capacity_lt
  omega

/-! ## What each operation does to a valid buffer -/

theorem Valid.rdPtr_spec {b : ByteBuffer} (h : b.Valid) {n : Int} (hn : 0 ≤ n) :
    (b.rdPtr n).1 = min n b.length ∧ (b.rdPtr n).2.Valid ∧
      (b.rdPtr n).2.contents = b.contents.drop n.toNat := by
  have hlt := h.length_lt
  have hlen := h.length_eq
  obtain ⟨k, hb, hm, hr, hw, hc⟩ := h.block
  have hmove : (b.rdPtr n).1 = min n b.length := by
    simp only [rdPtr, hn, if_true, toInt]
    omega
  have hpos : (b.rdPtr n).2 = ⟨some k, ⟨b.pos.read + min n.toNat b.length, b.pos.write⟩⟩ := by
    have : toSize (b.pos.read + (b.rdPtr n).1) = b.pos.read + min n.toNat b.length := by
      rw [hmove]
      unfold toSize
      omega
    rw [← this]
    conv_lhs => rw [rdPtr]
    simp only [rdPtr, ByteBuffer.mk.injEq, and_true]
    rw [hb]
  refine ⟨hmove, ?_, ?_⟩
  · rw [hpos]
    exact valid_mk hm (by omega) hw hc
  · rw [hpos]
    conv_rhs => rw [hb]
    simp only [contents, List.drop_take, List.drop_drop]
    by_cases hs : n.toNat ≤ b.length
    · rw [Nat.min_eq_left hs, Nat.sub_sub, Nat.add_comm]
    · have h0 : b.pos.write - (b.pos.read + min n.toNat b.length) = 0 := by omega
      have h1 : b.pos.write - b.pos.read - n.toNat = 0 := by omega
      simp [h0, h1]

theorem Valid.peak_spec {b : ByteBuffer} (h : b.Valid) (sz : Nat) :
    b.peak sz = some (b.contents.take sz) := by
  have hlen := h.length_eq
  obtain ⟨k, hb, hm, hr, hw, hc⟩ := h.block
  have hin : b.pos.read + min sz b.length ≤ k.bytes.length := by omega
  have hblock : b.block = some k := by rw [hb]
  simp only [peak, hblock, copyOut, hin, if_true, Option.bind_eq_bind, Option.bind_some]
  congr 1
  conv_rhs => rw [hb]
  simp only [contents, List.take_take, hlen]

theorem Valid.read_spec {b : ByteBuffer} (h : b.Valid) (sz : Nat) :
    ∃ b', b.read sz = some (b.contents.take sz, b') ∧ b'.Valid ∧
      b'.contents = b.contents.drop sz ∧ b'.refcount = b.refcount := by
  have hlt := h.length_lt
  have hcl := h.contents_length
  have hto : toInt (min (sz : Int) b.length) = min (sz : Int) b.length :=
    toInt_of_range (by omega) (by omega)
  obtain ⟨-, hv, hcont⟩ := h.rdPtr_spec (n := min sz b.length) (by omega)
  refine ⟨(b.rdPtr (min sz b.length)).2, ?_, hv, ?_, refcount_rdPtr b _⟩
  · simp only [read, h.peak_spec, Option.bind_eq_bind, Option.bind_some, hto, Option.pure_def]
  · rw [hcont, show (min (sz : Int) b.length).toNat = min sz b.length by omega]
    by_cases hs : sz ≤ b.length
    · rw [Nat.min_eq_left hs]
    · rw [List.drop_of_length_le (i := sz) (by omega), List.drop_of_length_le (by omega)]

/-- The block after a `memcpy` into it: as long as before, and changed only where it was written. -/
theorem copyIn_spec (bytes : List UInt8) {src : List UInt8} (off : Nat) {n : Nat}
    (hn : n ≤ src.length)
    (hoff : off + n ≤ bytes.length) :
    ∃ out, copyIn bytes off src n = some out ∧ out.length = bytes.length ∧
      ∀ r ≤ off, (out.drop r).take (off + n - r) = (bytes.drop r).take (off - r) ++ src.take n := by
  refine ⟨_, if_pos ⟨hn, hoff⟩, ?_, fun r hr => ?_⟩
  · simp only [List.length_append, List.length_take, List.length_drop]
    omega
  · have hpre : (bytes.take off ++ src.take n).length = off + n := by
      simp only [List.length_append, List.length_take]
      omega
    rw [← List.drop_take, List.take_append_of_le_length (by omega),
      List.take_of_length_le (by omega), List.drop_append_of_le_length, List.drop_take]
    simp only [List.length_take]
    omega

theorem Valid.write_spec {b : ByteBuffer} (h : b.Valid) {src : List UInt8} {sz : Nat}
    (hsrc : sz ≤ src.length) :
    ∃ b', b.write src sz = some (min sz b.space, b') ∧ b'.Valid ∧
      b'.contents = b.contents ++ src.take (min sz b.space) ∧ b'.refcount = b.refcount ∧
      b'.pos.read = b.pos.read ∧ b'.space = b.space - min sz b.space := by
  obtain ⟨kb, ⟨r, w⟩⟩ := b
  obtain ⟨k, hb, hm, hr, hw, hc⟩ := h.block
  obtain rfl : kb = some k := congrArg ByteBuffer.block hb
  simp only at hr hw
  have hspace := space_mk (r := r) hw hc
  generalize hcpy : min sz (space ⟨some k, ⟨r, w⟩⟩) = c
  obtain ⟨out, hout, hlen, hread⟩ :=
    copyIn_spec k.bytes w (show c ≤ src.length by omega) (by omega)
  have hcw : c ≤ k.capacity - w := by omega
  have hmoved : (wrPtr ⟨some { k with bytes := out }, ⟨r, w⟩⟩ c) =
      ((c : Int), ⟨some { k with bytes := out }, ⟨r, w + c⟩⟩) := by
    have hspace' : space ⟨some { k with bytes := out }, ⟨r, w⟩⟩ = k.capacity - w :=
      space_mk hw hc
    have hroom : w + space ⟨some { k with bytes := out }, ⟨r, w⟩⟩ < 2147483648 := by omega
    exact wrPtr_natCast ⟨some { k with bytes := out }, ⟨r, w⟩⟩ (by omega) hroom
  have hvalid : Valid ⟨some { k with bytes := out }, ⟨r, w + c⟩⟩ :=
    valid_mk (show out.length = k.capacity by omega) (by omega)
      (show w + c ≤ k.capacity by omega) hc
  have hspace'' : space ⟨some { k with bytes := out }, ⟨r, w + c⟩⟩ = k.capacity - (w + c) :=
    space_mk (show w + c ≤ k.capacity by omega) hc
  refine ⟨_, ?_, hvalid, hread r hr, by simp, rfl, by omega⟩
  have hback : toSize (c : Int) = c := toSize_natCast (by omega)
  have hto : toInt c = c := toInt_of_range (by omega) (by omega)
  simp only [write, hcpy, Option.bind_eq_bind, Option.bind_some, hout, hto, hmoved,
    Option.pure_def, hback]

theorem Valid.fit_spec {b : ByteBuffer} (h : b.Valid) :
    ∃ b', b.fit = some b' ∧ b'.Valid ∧ b'.contents = b.contents ∧ b'.refcount = b.refcount ∧
      b'.pos.read = 0 := by
  have hcl := h.contents_length
  have hpeak := h.peak_spec b.length
  rw [List.take_of_length_le (by omega)] at hpeak
  have hlen := h.length_eq
  obtain ⟨k, hb, hm, hr, hw, hc⟩ := h.block
  have hblock : b.block = some k := by rw [hb]
  simp only [peak, hblock, Option.bind_eq_bind, Option.bind_some, Nat.min_self] at hpeak
  obtain ⟨out, hout, hol, hread⟩ :=
    copyIn_spec k.bytes 0 (show b.length ≤ b.contents.length by omega) (by omega)
  refine ⟨⟨some { k with bytes := out }, ⟨0, b.length⟩⟩, ?_,
    valid_mk (show out.length = k.capacity by omega) (by omega)
      (show b.length ≤ k.capacity by omega) hc, ?_, ?_, rfl⟩
  · simp [fit, hblock, hpeak, hout]
  · have := hread 0 (by omega)
    simp only [Nat.zero_add, Nat.sub_zero, Nat.sub_self, List.take_zero, List.nil_append,
      List.take_of_length_le (Nat.le_of_eq hcl)] at this
    simpa [contents] using this
  · simp [refcount, hblock]

theorem Valid.shrinkToFit_spec {b : ByteBuffer} (h : b.Valid) :
    ∃ b', b.shrinkToFit = some (toInt b.pos.read, b') ∧ b'.Valid ∧ b'.contents = b.contents ∧
      b'.refcount = 1 ∧ b'.pos.read = 0 ∧ b'.capacity = (alloc b.length).capacity := by
  have hcl := h.contents_length
  have hlt := h.length_lt
  have hpeak := h.peak_spec b.length
  rw [List.take_of_length_le (by omega)] at hpeak
  obtain ⟨k, hb, hm, hr, hw, hc⟩ := h.block
  have hblock : b.block = some k := by rw [hb]
  simp only [peak, hblock, Option.bind_eq_bind, Option.bind_some, Nat.min_self] at hpeak
  have hmem := alloc_bytes_length (show b.length < 18446744073709551600 by omega)
  have hfit := alloc_capacity_ge b.length
  obtain ⟨out, hout, hol, hread⟩ :=
    copyIn_spec (alloc b.length).bytes 0 (show b.length ≤ b.contents.length by omega) (by omega)
  refine ⟨⟨some { alloc b.length with bytes := out }, ⟨0, b.length⟩⟩, ?_,
    valid_mk (hol.trans hmem) (Nat.zero_le _) hfit (alloc_capacity_lt hlt), ?_, ?_, rfl, rfl⟩
  · simp [shrinkToFit, hblock, hpeak, hout]
  · have := hread 0 (Nat.zero_le 0)
    simp only [Nat.zero_add, Nat.sub_zero, Nat.sub_self, List.take_zero, List.nil_append,
      List.take_of_length_le (Nat.le_of_eq hcl)] at this
    simpa [contents] using this
  · simp [refcount]

theorem ofSize_valid {sz : Nat} (h : sz < 2147483648) :
    (ofSize sz).Valid ∧ (ofSize sz).contents = [] ∧ (ofSize sz).refcount = 1 ∧
      sz ≤ (ofSize sz).capacity ∧ (ofSize sz).space = (ofSize sz).capacity := by
  have hc := alloc_capacity_lt h
  refine ⟨valid_mk (alloc_bytes_length (by omega)) (by omega) (by omega) hc,
    by simp [ofSize, contents],
    by simp [ofSize, refcount], alloc_capacity_ge sz, ?_⟩
  simpa [ofSize, capacity] using space_mk (r := 0) (w := 0) (k := alloc sz) (by omega) hc

/-- `byte_buffer( buf , len )` holds the bytes it was given. -/
theorem ofBytes_spec {buf : List UInt8} {len : Nat} (hb : len ≤ buf.length)
    (hl : len < 2147483648) :
    ∃ b, ofBytes buf len = some b ∧ b.Valid ∧ b.contents = buf.take len ∧ b.refcount = 1 := by
  obtain ⟨hv, hcont, href, hcap, hspace⟩ := ofSize_valid hl
  obtain ⟨b, hw, hv', hc', hr', -⟩ := hv.write_spec hb
  refine ⟨b, by simp [ofBytes, hw], hv', ?_, by rw [hr', href]⟩
  rw [hc', hcont, hspace, Nat.min_eq_left hcap, List.nil_append]

theorem Valid.subBuffer_spec {b : ByteBuffer} (h : b.Valid) {len : Nat} (hl : len ≤ b.length) :
    ∃ p, b.subBuffer 0 len = some p ∧ p.Valid ∧ p.contents = b.contents.take len := by
  have hlt := h.length_lt
  have hlen := h.length_eq
  obtain ⟨k, hb, hm, hr, hw, hc⟩ := h.block
  have hblock : b.block = some k := by rw [hb]
  have hsrc : len ≤ (k.bytes.drop b.pos.read).length := by
    rw [List.length_drop]
    omega
  obtain ⟨p, hp, hv, hcont, -⟩ := ofBytes_spec hsrc (by omega)
  refine ⟨p, by simp [subBuffer, fromReadPosition, hblock, hp], hv, ?_⟩
  rw [hcont]
  simp only [contents, hblock, List.take_take]
  rw [Nat.min_eq_left (by omega)]

/-- `reserve` on an unshared buffer at read position 0, or on one without a block. -/
theorem reserve_spec {b : ByteBuffer} {sz : Nat} (hsz : sz < 2147483648) (hle : b.length ≤ sz)
    (h : b = empty ∨ b.Valid ∧ b.pos.read = 0) :
    ∃ b', b.reserve sz = some b' ∧ b'.Valid ∧ b'.contents = b.contents ∧ b'.refcount = 1 ∧
      sz - b.length ≤ b'.space := by
  have hto : toSize sz = sz := toSize_natCast (by omega)
  obtain ⟨hnv, hnc, hnr, hcap, hspace⟩ := ofSize_valid hsz
  rcases h with rfl | ⟨h, h0⟩
  · refine ⟨ofSize sz, by simp [reserve, empty, refcount, hto], hnv, hnc, hnr, ?_⟩
    omega
  have hlt := h.length_lt
  have hlen := h.length_eq
  obtain ⟨k, hb, hm, hr, hw, hc⟩ := h.block
  have hblock : b.block = some k := by rw [hb]
  have hcapb : b.capacity = k.capacity := by simp [capacity, hblock]
  by_cases hkeep : b.refcount = 1 ∧ (sz : Int) < toInt b.capacity
  · refine ⟨b, by simp [reserve, hkeep], h, rfl, hkeep.1, ?_⟩
    have hlt' := hkeep.2
    have hsp := space_mk (r := b.pos.read) hw hc
    rw [← hb] at hsp
    rw [hcapb, toInt_of_range (by omega) (by omega)] at hlt'
    omega
  · have hsrc : b.length ≤ (k.bytes.drop b.pos.read).length := by
      rw [List.length_drop]
      omega
    obtain ⟨b', hw', hv', hc', hr', -, hsp'⟩ := hnv.write_spec hsrc
    have hcopied : min b.length (ofSize sz).space = b.length := by omega
    rw [hcopied] at hw' hc' hsp'
    have hcont : b'.contents = b.contents := by
      rw [hc', hnc, List.nil_append, hlen]
      simp [contents, hblock]
    refine ⟨b', by simp only [reserve, if_neg hkeep, hblock, hto]; simp [hw'], hv', hcont,
      by rw [hr', hnr], by omega⟩

end ByteBuffer

end BufferByteBuffer
