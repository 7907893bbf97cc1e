import Tcode.BufferByteBuffer
import Tcode.SupportIncrementalDecoder

/-! # size_filter

A payload travels behind its length, a native `int`. The receiving side keeps what
it has not decoded in `_read_buffer`. The loop that takes frames out of it runs on
fuel; every pass consumes a length, so the readable bytes bound the passes.
-/
namespace FilterSizeFilter

open SupportMachineInt SupportIncrementalDecoder BufferBlock BufferByteBuffer
open BufferByteBuffer.ByteBuffer

/-- `sizeof( size_type )`. -/
def sizeOfSizeType : Nat := 4

/-- The buffers handed on for one payload: to the channel when the filter is the
first of its chain and runs inside the pipeline, to `fire_filter_do_write` otherwise. -/
def filterDoWrite (outbound inPipeline : Bool) (buf : ByteBuffer) : Option (List ByteBuffer) := do
  let header := leBytes (toInt buf.length)
  let payload ← buf.fromReadPosition
  if !outbound && inPipeline then
    let (_, size) ← (ofSize sizeOfSizeType).write header sizeOfSizeType
    return [size, buf]
  else
    let (_, buff) ← (ofSize (toSize (buf.length + sizeOfSizeType))).write header sizeOfSizeType
    let (_, buff) ← buff.write payload buf.length
    return [buff]

/-- How far one pass of the loop gets before `sub_buffer( 0 , size )`. -/
inductive Header where
  | stop
  | undefined
  | call (rb : ByteBuffer) (len : Nat)
  deriving DecidableEq, Repr

/-- The loop condition and the body up to `sub_buffer`. The sum of `sizeof( size )` and
the signed size is a size_t, and so is the argument that the size is passed as. -/
def readHeader (rb : ByteBuffer) : Header :=
  if sizeOfSizeType < rb.length then
    match rb.peak sizeOfSizeType with
    | none => .undefined
    | some bs =>
      if rb.length < toSize (sizeOfSizeType + leInt bs) then .stop
      else
        match rb.read sizeOfSizeType with
        | none => .undefined
        | some (size, rb') => .call rb' (toSize (leInt size))
  else .stop

inductive Pass where
  | stop
  | undefined
  | packet (p rb : ByteBuffer)
  deriving DecidableEq, Repr

/-- One pass of the loop. The payload is copied by `sub_buffer`, which does not move the
read position of `_read_buffer`. -/
def pass (rb : ByteBuffer) : Pass :=
  match readHeader rb with
  | .stop => .stop
  | .undefined => .undefined
  | .call rb' len =>
    match rb'.subBuffer 0 len with
    | none => .undefined
    | some p => .packet p rb'

inductive Broken where
  | undefined
  | outOfFuel
  deriving DecidableEq, Repr

/-- What a call does: `_read_buffer` each time the loop is entered, the packets fired, and
`_read_buffer` at the end. -/
structure Outcome where
  heads : List ByteBuffer
  packets : List ByteBuffer
  buffer : Except Broken ByteBuffer

def Outcome.undefined : Outcome := ⟨[], [], .error .undefined⟩

def drainFrames : Nat → ByteBuffer → Outcome
  | 0, _ => ⟨[], [], .error .outOfFuel⟩
  | fuel + 1, rb =>
    match pass rb with
    | .stop => ⟨[rb], [], .ok rb⟩
    | .undefined => ⟨[rb], [], .error .undefined⟩
    | .packet p rb' =>
      let rest := drainFrames fuel rb'
      ⟨rb :: rest.heads, p :: rest.packets, rest.buffer⟩

/-- `_read_buffer.reserve( .. )` and `_read_buffer.write( buf.rd_ptr() , buf.length())`. -/
def appendRead (rb buf : ByteBuffer) : Option ByteBuffer := do
  let rb ← rb.reserve (toInt (rb.length + buf.length))
  let src ← buf.fromReadPosition
  let (_, rb) ← rb.write src buf.length
  return rb

def filterOnRead (rb buf : ByteBuffer) : Outcome :=
  match appendRead rb buf with
  | none => .undefined
  | some rb' =>
    let frames := drainFrames (rb'.length + 1) rb'
    { frames with
      buffer := frames.buffer.bind fun rb'' => rb''.fit.elim (.error .undefined) .ok }

/-- The buffers of a connection, one call after the other from a given `_read_buffer`. -/
def filterOnReads (rb : ByteBuffer) : List ByteBuffer → Outcome
  | [] => ⟨[], [], .ok rb⟩
  | buf :: bufs =>
    let first := filterOnRead rb buf
    match first.buffer with
    | .error e => { first with buffer := .error e }
    | .ok rb' =>
      let rest := filterOnReads rb' bufs
      ⟨first.heads ++ rest.heads, first.packets ++ rest.packets, rest.buffer⟩

/-! ## The loop as a decoder of bytes -/

/-- The undecoded bytes at which the loop ends. -/
def NoFrame (bs : List UInt8) : Prop :=
  bs.length ≤ 4 ∨ leInt (bs.take 4) < -4 ∨ (bs.length : Int) < 4 + leInt (bs.take 4)

instance (bs : List UInt8) : Decidable (NoFrame bs) :=
  inferInstanceAs (Decidable (_ ∨ _ ∨ _))

/-- One pass on the undecoded bytes: a length is followed by its payload, and only the
length is consumed. A length from -4 to -1 passes the comparison and asks for more than
there is. -/
def frameTurn (bs : List UInt8) : Turn UInt8 (List UInt8) :=
  if NoFrame bs then .wait
  else if leInt (bs.take 4) < 0 then .fail
  else .emit ((bs.drop 4).take (leInt (bs.take 4)).toNat) (bs.drop 4)

theorem NoFrame.of_append {bs zs : List UInt8} (h : NoFrame (bs ++ zs)) : NoFrame bs := by
  by_cases hshort : bs.length ≤ 4
  · exact Or.inl hshort
  · rw [NoFrame, List.take_append_of_le_length (by omega), List.length_append] at h
    unfold NoFrame
    omega

theorem leInt_take_append {bs : List UInt8} (zs : List UInt8) (h : ¬ NoFrame bs) :
    leInt ((bs ++ zs).take 4) = leInt (bs.take 4) := by
  have hlen : ¬ bs.length ≤ 4 := fun hn => h (Or.inl hn)
  rw [List.take_append_of_le_length (by omega)]

def frameDecoder : Decoder UInt8 (List UInt8) where
  turn := frameTurn
  turn_nil := rfl
  shrinks := by
    intro bs p ys h
    simp only [frameTurn] at h
    split_ifs at h with hframe hneg
    obtain ⟨-, rfl⟩ := Turn.emit.inj h
    rw [NoFrame] at hframe
    rw [List.length_drop]
    omega
  stable_emit := by
    intro bs p ys zs h
    simp only [frameTurn] at h ⊢
    split_ifs at h with hframe hneg
    rw [leInt_take_append zs hframe, if_neg (fun hn => hframe hn.of_append), if_neg hneg]
    obtain ⟨rfl, rfl⟩ := Turn.emit.inj h
    rw [NoFrame] at hframe
    rw [List.drop_append_of_le_length (by omega),
      List.take_append_of_le_length (by rw [List.length_drop]; omega)]
  stable_fail := by
    intro bs zs h
    simp only [frameTurn] at h ⊢
    split_ifs at h with hframe hneg
    rw [leInt_take_append zs hframe, if_neg (fun hn => hframe hn.of_append), if_pos hneg]

/-- Where a pass of the loop and a turn of the decoder agree. -/
inductive PassTurn (rb : ByteBuffer) : Pass → Turn UInt8 (List UInt8) → Prop where
  | stop : PassTurn rb .stop .wait
  | undefined : PassTurn rb .undefined .fail
  | packet {p rb' : ByteBuffer} (valid : rb'.Valid) (owner : rb'.refcount = rb.refcount) :
      PassTurn rb (.packet p rb') (.emit p.contents rb'.contents)

/-- `sub_buffer` with a length that wrapped reads past the block. -/
theorem subBuffer_wrapped {rb : ByteBuffer} (h : rb.Valid) (len : Nat)
    (hlen : 18446744073709551612 ≤ len) (hu : len < 18446744073709551616) :
    rb.subBuffer 0 len = none := by
  obtain ⟨k, hb, hm, hr, hw, hc⟩ := h.block
  have hfind : allocSizeTable.find? (fun n => decide (len ≤ n)) = none := by
    simp only [List.find?_eq_none, decide_eq_true_eq]
    intro n hn
    have := allocSizeTable_le hn
    omega
  have hcap : (alloc len).capacity = len := by simp [alloc, hfind]
  have hspace : (ofSize len).space = len := by
    have : toSize ((len : Int) - (0 : Nat)) = len := by
      rw [Int.natCast_zero, Int.sub_zero]
      exact toSize_natCast hu
    simpa [space, ofSize, hcap] using this
  have hshort : ¬ len ≤ (k.bytes.drop rb.pos.read).length := by
    rw [List.length_drop]
    omega
  have hblock : rb.block = some k := by rw [hb]
  have hwrite : (ofSize len).write (k.bytes.drop rb.pos.read) len = none := by
    have hcopy : copyIn (alloc len).bytes 0 (k.bytes.drop rb.pos.read) len = none :=
      if_neg fun h => hshort h.1
    simp only [write, hspace, Nat.min_self]
    simp [ofSize, hcopy]
  simp [subBuffer, fromReadPosition, hblock, ofBytes, hwrite]

/-- What the loop condition lets through, and the buffer that `sub_buffer` is then called on. -/
theorem readHeader_spec {rb : ByteBuffer} (h : rb.Valid) :
    (readHeader rb = .stop ∧ NoFrame rb.contents) ∨
    ∃ rb', readHeader rb = .call rb' (toSize (leInt (rb.contents.take 4))) ∧ rb'.Valid ∧
      rb'.contents = rb.contents.drop 4 ∧ rb'.refcount = rb.refcount ∧
      ¬ NoFrame rb.contents := by
  have hlt := h.length_lt
  have hcl := h.contents_length
  have hrange : -2147483648 ≤ leInt (rb.contents.take 4) ∧
      leInt (rb.contents.take 4) < 2147483648 := toInt_range _
  by_cases hshort : 4 < rb.length
  · obtain ⟨rb', hread, hv', hcont, href⟩ := h.read_spec 4
    have hpeak := h.peak_spec 4
    have hsome : (rb.length < toSize (4 + leInt (rb.contents.take 4)) ∧
        readHeader rb = .stop) ∨ (¬ rb.length < toSize (4 + leInt (rb.contents.take 4)) ∧
        readHeader rb = .call rb' (toSize (leInt (rb.contents.take 4)))) := by
      by_cases hcmp : rb.length < toSize (4 + leInt (rb.contents.take 4))
      · exact Or.inl ⟨hcmp, by simp [readHeader, sizeOfSizeType, hshort, hpeak, hcmp]⟩
      · exact Or.inr ⟨hcmp, by simp [readHeader, sizeOfSizeType, hshort, hpeak, hcmp, hread]⟩
    unfold NoFrame
    generalize leInt (rb.contents.take 4) = size at *
    rcases hsome with ⟨hcmp, hstop⟩ | ⟨hcmp, hcall⟩
    · refine Or.inl ⟨hstop, ?_⟩
      unfold toSize at hcmp
      omega
    · refine Or.inr ⟨rb', hcall, hv', hcont, href, ?_⟩
      unfold toSize at hcmp
      omega
  · exact Or.inl ⟨by simp [readHeader, sizeOfSizeType, hshort], Or.inl (by omega)⟩

theorem pass_refines {rb : ByteBuffer} (h : rb.Valid) :
    PassTurn rb (pass rb) (frameTurn rb.contents) := by
  have hlt := h.length_lt
  have hcl := h.contents_length
  rcases readHeader_spec h with ⟨hstop, hwait⟩ | ⟨rb', hcall, hv', hcont, href, hframe⟩
  · rw [show pass rb = .stop by simp [pass, hstop], frameTurn, if_pos hwait]
    exact .stop
  simp only [frameTurn, if_neg hframe]
  rw [NoFrame] at hframe
  by_cases hneg : leInt (rb.contents.take 4) < 0
  · have hwrap := toSize_of_neg (x := leInt (rb.contents.take 4)) (by omega) hneg
    have hnone := subBuffer_wrapped hv' (toSize (leInt (rb.contents.take 4)))
      (by omega) (by omega)
    rw [if_pos hneg, show pass rb = .undefined by simp [pass, hcall, hnone]]
    exact .undefined
  · have hsize : toSize (leInt (rb.contents.take 4)) = (leInt (rb.contents.take 4)).toNat := by
      have := toSize_of_range (x := leInt (rb.contents.take 4)) (by omega) (by omega)
      omega
    have hlen' := hv'.contents_length
    rw [hcont, List.length_drop] at hlen'
    have hread : (leInt (rb.contents.take 4)).toNat ≤ rb'.length := by omega
    obtain ⟨p, hp, hvp, hcp⟩ := hv'.subBuffer_spec hread
    rw [if_neg hneg, show pass rb = .packet p rb' by simp [pass, hcall, hsize, hp],
      ← hcont, ← hcp]
    exact .packet hv' href

end FilterSizeFilter
