import Tcode.BufferByteBuffer
import Tcode.SupportBoundedQueue

/-! # byte_buffer as a queue of bytes

The readable bytes are the items of a bounded queue, the read position counts the places in front
of them, and the capacity is that of the block.
-/
namespace BufferQueue

open SupportMachineInt SupportBoundedQueue BufferBlock BufferByteBuffer
open BufferByteBuffer.ByteBuffer

inductive Op where
  /-- `write( src , n )` with the `n` bytes that `src` points to. -/
  | write (src : List UInt8)
  | read (sz : Nat)
  | peak (sz : Nat)
  | fit
  | shrinkToFit
  | clear
  | reserve (sz : Int)
  deriving DecidableEq, Repr

inductive Reply where
  | count (n : Nat)
  | bytes (bs : List UInt8)
  | ret (n : Int)
  | done
  deriving DecidableEq, Repr

/-- The argument of `reserve` is an `int`. -/
def Op.Sized : Op → Prop
  | .reserve sz => sz < 2147483648
  | _ => True

instance : ∀ op : Op, Decidable op.Sized
  | .reserve _ => inferInstanceAs (Decidable (_ < _))
  | .write _ | .read _ | .peak _ | .fit | .shrinkToFit | .clear => isTrue trivial

def step (b : ByteBuffer) : Op → Option (Reply × ByteBuffer)
  | .write src => (b.write src src.length).map fun r => (.count r.1, r.2)
  | .read sz => (b.read sz).map fun r => (.bytes r.1, r.2)
  | .peak sz => (b.peak sz).map fun bs => (.bytes bs, b)
  | .fit => b.fit.map fun b' => (.ret 0, b')
  | .shrinkToFit => b.shrinkToFit.map fun r => (.ret r.1, r.2)
  | .clear => some (.done, b.clear)
  | .reserve sz => (b.reserve sz).map fun b' => (.done, b')

def run (b : ByteBuffer) : List Op → Option (List Reply × ByteBuffer)
  | [] => some ([], b)
  | op :: ops => do
    let (r, b') ← step b op
    let (rs, b'') ← run b' ops
    return (r :: rs, b'')

/-! ## The queue -/

def queueStep (q : BoundedQueue UInt8) : Op → Reply × BoundedQueue UInt8
  | .write src => (.count (q.put src).1, (q.put src).2)
  | .read sz => (.bytes (q.take sz).1, (q.take sz).2)
  | .peak sz => (.bytes (q.peek sz), q)
  | .fit => (.ret 0, q.compact)
  | .shrinkToFit =>
    (.ret q.gone, q.move (alloc q.contents.length).capacity (alloc_capacity_ge _))
  | .clear => (.done, q.clear)
  | .reserve sz =>
    if h : sz < q.capacity then (.done, q)
    else
      have hle : q.contents.length ≤ (alloc sz.toNat).capacity := by
        have hfits := q.fits
        have hcap := alloc_capacity_ge sz.toNat
        omega
      (.done, q.move (alloc sz.toNat).capacity hle)

def queueRun (q : BoundedQueue UInt8) : List Op → List Reply × BoundedQueue UInt8
  | [] => ([], q)
  | op :: ops =>
    let rest := queueRun (queueStep q op).2 ops
    ((queueStep q op).1 :: rest.1, rest.2)

/-- What can be seen of a buffer is what can be seen of the queue. -/
structure Shows (b : ByteBuffer) (q : BoundedQueue UInt8) : Prop where
  contents : b.contents = q.contents
  length : b.length = q.contents.length
  space : b.space = q.room
  capacity : b.capacity = q.capacity

/-- Whatever is called, the buffer answers as the queue of its readable bytes does. -/
def IsQueue (b : ByteBuffer) : Prop :=
  ∃ q, Shows b q ∧ ∀ ops : List Op, (∀ op ∈ ops, op.Sized) →
    ∃ b', run b ops = some ((queueRun q ops).1, b') ∧ Shows b' (queueRun q ops).2

/-- A buffer that does not share its block, and the queue with its bytes at its places. -/
structure Holds (b : ByteBuffer) (q : BoundedQueue UInt8) : Prop where
  valid : b.Valid
  owner : b.refcount = 1
  contents : b.contents = q.contents
  gone : b.pos.read = q.gone
  capacity : b.capacity = q.capacity

variable {b : ByteBuffer} {q : BoundedQueue UInt8}

theorem Holds.length (h : Holds b q) : b.length = q.contents.length := by
  rw [← h.contents, h.valid.contents_length]

theorem Holds.space (h : Holds b q) : b.space = q.room := by
  have hlen := h.length
  have hgone := h.gone
  have hcap := h.capacity
  have hpos := h.valid.length_eq
  obtain ⟨k, hb, -, hr, hw, hc⟩ := h.valid.block
  have hspace := space_mk (r := b.pos.read) hw hc
  rw [← hb] at hspace
  have hcapk : b.capacity = k.capacity := by rw [hb, capacity_mk]
  rw [hspace, BoundedQueue.room, ← hcap, hcapk]
  omega

theorem Holds.shows (h : Holds b q) : Shows b q := ⟨h.contents, h.length, h.space, h.capacity⟩

/-! ## Each operation -/

theorem Holds.write (h : Holds b q) (src : List UInt8) :
    ∃ b', b.write src src.length = some ((q.put src).1, b') ∧ Holds b' (q.put src).2 := by
  have hspace := h.space
  obtain ⟨b', hwrite, hvalid, hcontents, href, hread, -⟩ :=
    h.valid.write_spec (Nat.le_refl src.length)
  rw [hspace] at hwrite hcontents
  refine ⟨b', hwrite, hvalid, href.trans h.owner, ?_, hread.trans h.gone,
    (write_keeps hwrite).1.trans h.capacity⟩
  rw [hcontents, h.contents, BoundedQueue.contents_put, BoundedQueue.put]

theorem Holds.read (h : Holds b q) (sz : Nat) :
    ∃ b', b.read sz = some ((q.take sz).1, b') ∧ Holds b' (q.take sz).2 := by
  obtain ⟨b', hread, hvalid, hcontents, href⟩ := h.valid.read_spec sz
  obtain ⟨hcap, -, hend⟩ := read_keeps hread
  rw [h.contents] at hread hcontents
  refine ⟨b', hread, hvalid, href.trans h.owner, hcontents, ?_, hcap.trans h.capacity⟩
  -- The write position stays, and the bytes in front of it are those that are left.
  have hlen := h.valid.length_eq
  have hlen' := hvalid.length_eq
  have hread' := hvalid.read_le
  have hle := h.valid.read_le
  have hall := h.length
  have hleft := hvalid.contents_length
  have hgone := h.gone
  rw [hcontents, List.length_drop] at hleft
  show _ = q.gone + min sz q.contents.length
  omega

theorem Holds.fit (h : Holds b q) : ∃ b', b.fit = some b' ∧ Holds b' q.compact := by
  obtain ⟨b', hfit, hvalid, hcontents, href, hfront⟩ := h.valid.fit_spec
  exact ⟨b', hfit, hvalid, href.trans h.owner, hcontents.trans h.contents, hfront,
    (fit_keeps hfit).1.trans h.capacity⟩

theorem Holds.shrinkToFit (h : Holds b q) : ∃ b', b.shrinkToFit = some ((q.gone : Int), b') ∧
    Holds b' (q.move (alloc q.contents.length).capacity (alloc_capacity_ge _)) := by
  obtain ⟨b', hshrink, hvalid, hcontents, href, hfront, hcap⟩ := h.valid.shrinkToFit_spec
  have hgone : toInt b.pos.read = q.gone := by
    have hread := h.valid.read_le
    have hwrite := h.valid.write_le
    have hlt := h.valid.capacity_lt
    rw [toInt_of_range (by omega) (by omega), h.gone]
  rw [hgone] at hshrink
  rw [h.length] at hcap
  exact ⟨b', hshrink, hvalid, href, hcontents.trans h.contents, hfront, hcap⟩

theorem Holds.clear (h : Holds b q) : Holds b.clear q.clear := by
  obtain ⟨k, hb, hm, -, -, hc⟩ := h.valid.block
  have hblock : b.block = some k := by rw [hb]
  have hclear : b.clear = ⟨some k, ⟨0, 0⟩⟩ := by rw [ByteBuffer.clear, hblock]
  refine ⟨?_, h.owner, ?_, rfl, h.capacity⟩
  · rw [hclear]
    exact valid_mk hm (Nat.le_refl 0) (Nat.zero_le _) hc
  · rw [hclear]
    simp [BoundedQueue.clear]

/-- Without other owners `reserve` either has room or moves everything. -/
theorem Holds.reserve (h : Holds b q) {sz : Int} (hsz : sz < 2147483648) :
    ∃ b', b.reserve sz = some b' ∧ Holds b' (queueStep q (.reserve sz)).2 := by
  have hlt := h.valid.capacity_lt
  have hcap := h.capacity
  have hint : toInt b.capacity = q.capacity := by
    rw [toInt_of_range (by omega) (by omega), hcap]
  by_cases hroom : sz < q.capacity
  · refine ⟨b, ?_, by simpa only [queueStep, dif_pos hroom] using h⟩
    rw [ByteBuffer.reserve, if_pos ⟨h.owner, by omega⟩]
  · have hsize : toSize sz = sz.toNat := by
      unfold toSize
      omega
    have hlen := h.length
    have hfits := q.fits
    obtain ⟨hnv, hnc, hnr, hncap, hspace⟩ := ofSize_valid (show sz.toNat < 2147483648 by omega)
    have hpos := h.valid.length_eq
    obtain ⟨k, hb, hm, hr, hw, hc⟩ := h.valid.block
    have hblock : b.block = some k := by rw [hb]
    have hcapk : b.capacity = k.capacity := by rw [hb, capacity_mk]
    have hsrc : b.length ≤ (k.bytes.drop b.pos.read).length := by
      rw [List.length_drop]
      omega
    obtain ⟨b', hwrite, hvalid, hcontents, href, hread, -⟩ := hnv.write_spec hsrc
    have hall : min b.length (ofSize sz.toNat).space = b.length := by omega
    rw [hall] at hwrite hcontents
    refine ⟨b', ?_, hvalid, href.trans hnr, ?_, ?_, ?_⟩
    · have hnot : ¬ (b.refcount = 1 ∧ sz < toInt b.capacity) := by omega
      simp only [ByteBuffer.reserve, if_neg hnot, hblock, hsize]
      simp [hwrite]
    · have hold : b.contents = (k.bytes.drop b.pos.read).take b.length := by
        rw [hpos]
        simp only [ByteBuffer.contents, hblock]
      simp only [queueStep, dif_neg hroom, BoundedQueue.move]
      rw [hcontents, hnc, List.nil_append, ← hold, h.contents]
    · simp only [queueStep, dif_neg hroom, BoundedQueue.move]
      exact hread
    · simp only [queueStep, dif_neg hroom, BoundedQueue.move]
      exact (write_keeps hwrite).1

/-! ## Every sequence of operations -/

theorem step_refines (h : Holds b q) {op : Op} (hop : op.Sized) :
    ∃ b', step b op = some ((queueStep q op).1, b') ∧ Holds b' (queueStep q op).2 := by
  cases op with
  | write src =>
    obtain ⟨b', hwrite, hb'⟩ := h.write src
    exact ⟨b', by simp [step, hwrite, queueStep], hb'⟩
  | read sz =>
    obtain ⟨b', hread, hb'⟩ := h.read sz
    exact ⟨b', by simp [step, hread, queueStep], hb'⟩
  | peak sz =>
    refine ⟨b, ?_, h⟩
    simp [step, h.valid.peak_spec, queueStep, h.contents, BoundedQueue.peek]
  | fit =>
    obtain ⟨b', hfit, hb'⟩ := h.fit
    exact ⟨b', by simp [step, hfit, queueStep], hb'⟩
  | shrinkToFit =>
    obtain ⟨b', hshrink, hb'⟩ := h.shrinkToFit
    exact ⟨b', by simp [step, hshrink, queueStep], hb'⟩
  | clear => exact ⟨b.clear, rfl, h.clear⟩
  | reserve sz =>
    obtain ⟨b', hreserve, hb'⟩ := h.reserve hop
    refine ⟨b', ?_, hb'⟩
    simp only [step, hreserve, Option.map_some, queueStep]
    split <;> rfl

theorem run_refines (h : Holds b q) {ops : List Op} (hops : ∀ op ∈ ops, op.Sized) :
    ∃ b', run b ops = some ((queueRun q ops).1, b') ∧ Holds b' (queueRun q ops).2 := by
  induction ops generalizing b q with
  | nil => exact ⟨b, rfl, h⟩
  | cons op ops ih =>
    obtain ⟨hop, hops⟩ := List.forall_mem_cons.mp hops
    obtain ⟨b', hstep, hb'⟩ := step_refines h hop
    obtain ⟨b'', hrun, hb''⟩ := ih hb' hops
    exact ⟨b'', by simp [run, hstep, hrun, queueRun], hb''⟩

/-- A buffer below 2^31 bytes that does not share its block is a queue. -/
theorem isQueue (h : b.Valid) (howner : b.refcount = 1) : IsQueue b := by
  have hfits : b.pos.read + b.contents.length ≤ b.capacity := by
    have hlen := h.length_eq
    have hread := h.read_le
    have hwrite := h.write_le
    rw [h.contents_length]
    omega
  have hholds : Holds b ⟨b.contents, b.pos.read, b.capacity, hfits⟩ := ⟨h, howner, rfl, rfl, rfl⟩
  refine ⟨_, hholds.shows, fun ops hops => ?_⟩
  obtain ⟨b', hrun, hb'⟩ := run_refines hholds hops
  exact ⟨b', hrun, hb'.shows⟩

/-- Three bytes behind a read position of one. -/
theorem isQueue_threeBytes :
    let b : ByteBuffer := ⟨some ⟨1, 8, [0, 1, 2, 3, 0, 0, 0, 0]⟩, ⟨1, 4⟩⟩
    IsQueue b :=
  isQueue (valid_mk (by decide) (by decide) (by decide) (by decide)) rfl

/-- With 2^31 free bytes `write` puts the byte there, but its position moves back. -/
theorem write_largeBlock {bytes : List UInt8} (h : bytes.length = 2147483648) :
    ∃ b', ByteBuffer.write ⟨some ⟨1, 2147483648, bytes⟩, ⟨0, 0⟩⟩ [7] 1 =
      some (toSize (-2147483648), b') := by
  have hspace (out : List UInt8) : space ⟨some ⟨1, 2147483648, out⟩, ⟨0, 0⟩⟩ = 2147483648 := by
    simp only [space, capacity_mk, toSize]
    omega
  have hcopied : copyIn bytes 0 [7] 1 = some (bytes.take 0 ++ [7] ++ bytes.drop 1) :=
    if_pos ⟨Nat.le_refl 1, by rw [h]; decide⟩
  have hone : toInt ((1 : Nat) : Int) = 1 := by decide
  have hint : toInt ((2147483648 : Nat) : Int) = -2147483648 := by decide
  have hpos : (0 : Int) ≤ 1 := by decide
  have hmove (out : List UInt8) :
      (wrPtr ⟨some ⟨1, 2147483648, out⟩, ⟨0, 0⟩⟩ 1).1 = -2147483648 := by
    simp only [wrPtr, hspace, hint, if_pos hpos]
    rfl
  refine ⟨(wrPtr ⟨some ⟨1, 2147483648, bytes.take 0 ++ [7] ++ bytes.drop 1⟩, ⟨0, 0⟩⟩ 1).2, ?_⟩
  have hsize : min 1 (2147483648 : Nat) = 1 := by decide
  simp only [ByteBuffer.write, hspace, hsize, hone, Option.bind_eq_bind, Option.bind_some,
    hcopied, Option.pure_def, hmove]

theorem largeBlock_not_isQueue :
    ¬ ∀ (b : ByteBuffer) (k : Block), b.block = some k → k.bytes.length = k.capacity →
      b.pos.read ≤ b.pos.write → b.pos.write ≤ k.capacity → k.refcount = 1 → IsQueue b := by
  intro h
  obtain ⟨bytes, hsize⟩ : ∃ bytes : List UInt8, bytes.length = 2147483648 :=
    ⟨List.replicate 2147483648 0, List.length_replicate⟩
  obtain ⟨q, -, hrun⟩ := h ⟨some ⟨1, 2147483648, bytes⟩, ⟨0, 0⟩⟩ _ rfl hsize (Nat.le_refl 0)
    (Nat.zero_le _) rfl
  obtain ⟨b', hb', -⟩ := hrun [.write [7]] (by simp [Op.Sized])
  obtain ⟨b'', hwrite⟩ := write_largeBlock hsize
  have hcount : toSize (-2147483648) = (q.put [7]).1 := by
    simpa [run, step, hwrite, queueRun, queueStep] using congrArg (Option.map Prod.fst) hb'
  have hone : (q.put [7]).1 ≤ 1 := Nat.min_le_left ..
  rw [← hcount] at hone
  exact absurd hone (by decide)

end BufferQueue
