import Tcode.FilterSizeFilter

/-! # Framing through size_filter

`filterOnReads` on the buffers of a connection is the decoder `frameDecoder` on their
bytes. What it delivers and when its copies stay inside the received bytes are read off
the decoder and off the states of `_read_buffer`.
-/
namespace FilterFraming

open SupportMachineInt SupportIncrementalDecoder BufferBlock BufferByteBuffer FilterSizeFilter
open BufferByteBuffer.ByteBuffer

/-- Between two calls `_read_buffer` has no block yet, or an unshared one that is read
from its start. -/
inductive Held : ByteBuffer → Prop where
  | fresh : Held empty
  | block {rb : ByteBuffer} (valid : rb.Valid) (front : rb.pos.read = 0)
      (owner : rb.refcount = 1) : Held rb

/-- What a call leaves behind, for a decoder that leaves `left`. -/
inductive Leaves (I : ByteBuffer → Prop) :
    Except Broken ByteBuffer → Option (List UInt8) → Prop where
  | undefined : Leaves I (.error .undefined) none
  | buffer {rb : ByteBuffer} (inv : I rb) : Leaves I (.ok rb) (some rb.contents)

theorem drainFrames_refines {fuel : Nat} {rb : ByteBuffer} (h : rb.Valid)
    (hfuel : rb.contents.length < fuel) :
    (∀ head ∈ (drainFrames fuel rb).heads, head.Valid) ∧
      (drainFrames fuel rb).packets.map contents = (frameDecoder.drain rb.contents).1 ∧
      Leaves (fun rb' => rb'.Valid ∧ rb'.refcount = rb.refcount) (drainFrames fuel rb).buffer
        (frameDecoder.drain rb.contents).2 := by
  induction fuel generalizing rb with
  | zero => exact absurd hfuel (Nat.not_lt_zero _)
  | succ fuel ih =>
    have hturn := pass_refines h
    generalize hp : pass rb = p at hturn
    generalize ht : frameTurn rb.contents = t at hturn
    cases hturn with
    | stop =>
      simp only [drainFrames, hp, Decoder.drain_wait (D := frameDecoder) ht, List.map_nil]
      exact ⟨by simpa using h, trivial, .buffer ⟨h, rfl⟩⟩
    | undefined =>
      simp only [drainFrames, hp, Decoder.drain_fail (D := frameDecoder) ht, List.map_nil]
      exact ⟨by simpa using h, trivial, .undefined⟩
    | @packet p rb' hv' howner =>
      have hshrink := frameDecoder.shrinks ht
      obtain ⟨hheads, hpackets, hleft⟩ := ih hv' (by omega)
      simp only [drainFrames, hp, Decoder.drain_emit (D := frameDecoder) ht, List.map_cons,
        hpackets, List.mem_cons, forall_eq_or_imp]
      rw [howner] at hleft
      exact ⟨⟨h, hheads⟩, trivial, hleft⟩

theorem Held.length_lt {rb : ByteBuffer} (h : Held rb) :
    rb.length < 2147483648 ∧ rb.contents.length = rb.length := by
  cases h with
  | fresh => decide
  | block valid _ _ => exact ⟨valid.length_lt, valid.contents_length⟩

/-- From 2^31 bytes on the argument of `reserve` is negative and the block stays as it is. -/
theorem Held.reserve_spec {rb : ByteBuffer} (h : Held rb) {n : Nat} (hn : n < 2147483648) :
    ∃ r, rb.reserve (toInt (rb.length + n)) = some r ∧ r.Valid ∧ r.refcount = 1 ∧
      r.contents = rb.contents ∧
      if rb.length + n < 2147483648 then n ≤ r.space else r.space = rb.space := by
  obtain ⟨hlt, -⟩ := h.length_lt
  by_cases hsum : rb.length + n < 2147483648
  · have hto : toInt (rb.length + n) = ((rb.length + n : Nat) : Int) :=
      toInt_of_range (by omega) (by omega)
    have hshape : rb = empty ∨ rb.Valid ∧ rb.pos.read = 0 := by
      cases h with
      | fresh => exact Or.inl rfl
      | block valid front _ => exact Or.inr ⟨valid, front⟩
    obtain ⟨r, hreserve, hrv, hrc, hrr, hroom⟩ :=
      ByteBuffer.reserve_spec (b := rb) hsum (Nat.le_add_right _ _) hshape
    rw [Nat.add_sub_cancel_left] at hroom
    exact ⟨r, by rw [hto, hreserve], hrv, hrr, hrc, by rwa [if_pos hsum]⟩
  · have hneg : toInt (rb.length + n) < 0 := by
      unfold toInt
      omega
    cases h with
    | fresh =>
      have hzero : length empty = 0 := by decide
      exact absurd (by rwa [hzero, Nat.zero_add]) hsum
    | block valid front owner =>
      have hcap : 0 ≤ toInt rb.capacity := by
        have := valid.capacity_lt
        unfold toInt
        omega
      refine ⟨rb, ?_, valid, owner, rfl, by rw [if_neg hsum]⟩
      rw [reserve, if_pos ⟨owner, Int.lt_of_lt_of_le hneg hcap⟩]

/-- The bytes of `buf` that a call takes over. What does not fit is dropped. -/
def taken (rb buf : ByteBuffer) : List UInt8 :=
  if rb.length + buf.length < 2147483648 then buf.contents else buf.contents.take rb.space

/-- The bytes taken over go behind the undecoded ones. -/
theorem appendRead_spec {rb buf : ByteBuffer} (h : Held rb) (hb : buf.Valid) :
    ∃ rb', appendRead rb buf = some rb' ∧ rb'.Valid ∧ rb'.refcount = 1 ∧
      rb'.contents = rb.contents ++ taken rb buf := by
  obtain ⟨r, hreserve, hrv, hrr, hrc, hroom⟩ := h.reserve_spec hb.length_lt
  have hlen := hb.length_eq
  have hcl := hb.contents_length
  obtain ⟨k, hk, hm, hr, hw, hc⟩ := hb.block
  have hblock : buf.block = some k := by rw [hk]
  have hsrc : buf.length ≤ (k.bytes.drop buf.pos.read).length := by
    rw [List.length_drop, hlen, hm]
    exact Nat.sub_le_sub_right hw _
  obtain ⟨rb', hwrite, hv', hc', href, -⟩ := hrv.write_spec hsrc
  have hread : (k.bytes.drop buf.pos.read).take buf.length = buf.contents := by
    simp only [contents, hblock, hlen]
  refine ⟨rb', ?_, hv', by rw [href, hrr], ?_⟩
  · simp [appendRead, hreserve, fromReadPosition, hblock, hwrite]
  · rw [hc', hrc, Nat.min_comm, ← List.take_take, hread, taken]
    split_ifs at hroom ⊢ with hsum
    · rw [List.take_of_length_le (by omega)]
    · rw [hroom]

/-- `fit` at the end of a call keeps what the loop has left. -/
theorem leaves_fit {rb : ByteBuffer} {out : Except Broken ByteBuffer}
    {left : Option (List UInt8)} (hrb : rb.refcount = 1)
    (h : Leaves (fun rb' => rb'.Valid ∧ rb'.refcount = rb.refcount) out left) :
    Leaves Held (out.bind fun rb' => rb'.fit.elim (.error .undefined) .ok) left := by
  cases h with
  | undefined => exact .undefined
  | @buffer rb' inv =>
    obtain ⟨rb'', hfit, hv, hcont, href, hfront⟩ := inv.1.fit_spec
    simp only [Except.bind, hfit, Option.elim_some, ← hcont]
    exact .buffer (.block hv hfront (by rw [href, inv.2, hrb]))

/-- One call is one fragment fed to the decoder. -/
theorem filterOnRead_refines {rb buf : ByteBuffer} (h : Held rb) (hb : buf.Valid) :
    (∀ head ∈ (filterOnRead rb buf).heads, head.Valid) ∧
      (filterOnRead rb buf).packets.map contents =
        (frameDecoder.feed (some rb.contents) (taken rb buf)).1 ∧
      Leaves Held (filterOnRead rb buf).buffer
        (frameDecoder.feed (some rb.contents) (taken rb buf)).2 := by
  obtain ⟨rb', happend, hv, href, hcont⟩ := appendRead_spec h hb
  have hfuel : rb'.contents.length < rb'.length + 1 := by
    rw [hv.contents_length]
    exact Nat.lt_succ_self _
  obtain ⟨hheads, hpackets, hleft⟩ := drainFrames_refines hv hfuel
  rw [hcont] at hpackets hleft
  refine ⟨?_, ?_, ?_⟩
  · simpa only [filterOnRead, happend] using hheads
  · simpa only [filterOnRead, happend, Decoder.feed] using hpackets
  · simpa only [filterOnRead, happend, Decoder.feed] using leaves_fit href hleft

/-! ## A whole connection -/

/-- The buffers that read operations hand to a channel. -/
abbrev ValidBuffer := { buf : ByteBuffer // buf.Valid }

def received (bufs : List ValidBuffer) : List (List UInt8) := bufs.map fun buf => buf.1.contents

def receive (rb : ByteBuffer) (bufs : List ValidBuffer) : Outcome :=
  filterOnReads rb (bufs.map Subtype.val)

theorem receive_heads_valid {rb : ByteBuffer} (h : Held rb) (bufs : List ValidBuffer) :
    ∀ head ∈ (receive rb bufs).heads, head.Valid := by
  induction bufs generalizing rb with
  | nil => simp [receive, filterOnReads]
  | cons buf bufs ih =>
    obtain ⟨hheads, -, hleft⟩ := filterOnRead_refines h buf.2
    simp only [receive, List.map_cons, filterOnReads]
    generalize (filterOnRead rb buf.1).buffer = out at hleft
    generalize (frameDecoder.feed (some rb.contents) (taken rb buf.1)).2 = left at hleft
    cases hleft with
    | undefined => exact hheads
    | buffer held =>
      intro head hmem
      rcases List.mem_append.mp hmem with hmem | hmem
      · exact hheads head hmem
      · exact ih held head hmem

/-- What the calls of a connection take over, up to one that is undefined. -/
def takenAll : ByteBuffer → List ValidBuffer → List (List UInt8)
  | _, [] => []
  | rb, buf :: bufs =>
    taken rb buf.1 :: (filterOnRead rb buf.1).buffer.toOption.elim [] fun rb' => takenAll rb' bufs

/-- A connection is the decoder fed with what is taken over. -/
theorem receive_refines_taken {rb : ByteBuffer} (h : Held rb) (bufs : List ValidBuffer) :
    (receive rb bufs).packets.map contents =
        (frameDecoder.feedAll (some rb.contents) (takenAll rb bufs)).1 ∧
      Leaves Held (receive rb bufs).buffer
        (frameDecoder.feedAll (some rb.contents) (takenAll rb bufs)).2 := by
  induction bufs generalizing rb with
  | nil => exact ⟨rfl, .buffer h⟩
  | cons buf bufs ih =>
    obtain ⟨-, hpackets, hleft⟩ := filterOnRead_refines h buf.2
    simp only [receive, List.map_cons, filterOnReads, takenAll, Decoder.feedAll]
    generalize (filterOnRead rb buf.1).buffer = out at hleft
    generalize (frameDecoder.feed (some rb.contents) (taken rb buf.1)).2 = left at hleft
    cases hleft with
    | undefined => exact ⟨by simpa [Decoder.feedAll_none] using hpackets,
        by simpa [Decoder.feedAll_none] using .undefined⟩
    | buffer held =>
      obtain ⟨hpackets', hleft'⟩ := ih held
      refine ⟨?_, hleft'⟩
      rw [List.map_append, hpackets]
      exact congrArg (_ ++ ·) hpackets'

/-- Below 2^31 bytes nothing is dropped. -/
theorem feedAll_takenAll {rb : ByteBuffer} (h : Held rb) (bufs : List ValidBuffer)
    (hsum : rb.contents.length + (received bufs).flatten.length < 2147483648) :
    frameDecoder.feedAll (some rb.contents) (takenAll rb bufs) =
      frameDecoder.feedAll (some rb.contents) (received bufs) := by
  induction bufs generalizing rb with
  | nil => rfl
  | cons buf bufs ih =>
    simp only [received, List.map_cons, List.flatten_cons, List.length_append] at hsum
    have htaken : taken rb buf.1 = buf.1.contents := by
      rw [h.length_lt.2, buf.2.contents_length] at hsum
      rw [taken, if_pos (by omega)]
    obtain ⟨-, -, hleft⟩ := filterOnRead_refines h buf.2
    rw [htaken] at hleft
    simp only [received, List.map_cons, takenAll, Decoder.feedAll, htaken]
    generalize hout : (filterOnRead rb buf.1).buffer = out at hleft
    generalize hfeed : (frameDecoder.feed (some rb.contents) buf.1.contents).2 = left at hleft
    cases hleft with
    | undefined => simp [Decoder.feedAll_none]
    | @buffer rb' held =>
      have hshort := frameDecoder.drain_length_le hfeed
      rw [List.length_append] at hshort
      have hrest := ih held (by rw [received]; omega)
      rw [received] at hrest
      simp only [Except.toOption, Option.elim_some, hrest]

/-- Below 2^31 bytes a connection is the decoder fed with what arrives. -/
theorem receive_refines {rb : ByteBuffer} (h : Held rb) (bufs : List ValidBuffer)
    (hsum : rb.contents.length + (received bufs).flatten.length < 2147483648) :
    (receive rb bufs).packets.map contents =
        (frameDecoder.feedAll (some rb.contents) (received bufs)).1 ∧
      Leaves Held (receive rb bufs).buffer
        (frameDecoder.feedAll (some rb.contents) (received bufs)).2 := by
  rw [← feedAll_takenAll h bufs hsum]
  exact receive_refines_taken h bufs

/-! ## What is delivered -/

/-- A payload and where its filter stands when `filter_do_write` is called. -/
structure Payload where
  outbound : Bool
  inPipeline : Bool
  buf : ByteBuffer
  valid : buf.Valid
  nonEmpty : 0 < buf.length

namespace Payload

def bytes (p : Payload) : List UInt8 := p.buf.contents

def frame (p : Payload) : List UInt8 := leBytes p.bytes.length ++ p.bytes

end Payload

/-- The byte stream that the framed payloads make. -/
def sent : List Payload → Option (List UInt8)
  | [] => some []
  | p :: ps => do
    let bufs ← filterDoWrite p.outbound p.inPipeline p.buf
    let rest ← sent ps
    return (bufs.map contents).flatten ++ rest

/-- The length goes to the front of a fresh buffer. -/
theorem write_header (sz : Nat) (hlow : 4 ≤ sz) (hsz : sz < 2147483648) (n : Int) :
    ∃ b, (ofSize sz).write (leBytes n) sizeOfSizeType = some (4, b) ∧ b.Valid ∧
      b.contents = leBytes n ∧ sz - 4 ≤ b.space := by
  obtain ⟨hv, hcont, -, hcap, hspace⟩ := ofSize_valid hsz
  obtain ⟨b, hwrite, hv', hc', -, -, hspace'⟩ :=
    hv.write_spec (show 4 ≤ (leBytes n).length from Nat.le_refl 4)
  have hfour : min 4 (ofSize sz).space = 4 := by omega
  rw [hfour] at hwrite hc' hspace'
  exact ⟨b, hwrite, hv', by rw [hc', hcont]; rfl, by omega⟩

/-- The first filter of the chain, inside the pipeline, hands on the length and the payload. -/
theorem filterDoWrite_direct {buf : ByteBuffer} {k : Block} (hblock : buf.block = some k)
    {outbound inPipeline : Bool} (hpipe : (!outbound && inPipeline) = true) :
    ∃ size, filterDoWrite outbound inPipeline buf = some [size, buf] ∧
      size.contents = leBytes (toInt buf.length) := by
  obtain ⟨size, hwrite, -, hc, -⟩ := write_header 4 (Nat.le_refl 4) (by decide) (toInt buf.length)
  have hwrite' : (ofSize sizeOfSizeType).write (leBytes (toInt buf.length)) sizeOfSizeType =
      some (4, size) := hwrite
  exact ⟨size, by simp [filterDoWrite, fromReadPosition, hblock, hpipe, hwrite'], hc⟩

/-- Otherwise both are copied into one buffer. -/
theorem filterDoWrite_combined {buf : ByteBuffer} {k : Block} (hblock : buf.block = some k)
    {outbound inPipeline : Bool} (hpipe : (!outbound && inPipeline) = false)
    (hread : buf.length ≤ (k.bytes.drop buf.pos.read).length)
    (h : buf.length + 4 < 2147483648) :
    ∃ buff, filterDoWrite outbound inPipeline buf = some [buff] ∧
      buff.contents =
        leBytes (toInt buf.length) ++ (k.bytes.drop buf.pos.read).take buf.length := by
  have hsize : toSize ((buf.length : Int) + (sizeOfSizeType : Nat)) = buf.length + 4 := by
    unfold toSize sizeOfSizeType
    omega
  obtain ⟨buff, hwrite, hv, hc, hroom⟩ :=
    write_header (buf.length + 4) (Nat.le_add_left _ _) h (toInt buf.length)
  obtain ⟨buff', hwrite', -, hc', -⟩ := hv.write_spec hread
  rw [Nat.min_eq_left (by omega)] at hwrite' hc'
  refine ⟨buff', ?_, by rw [hc', hc]⟩
  simp [filterDoWrite, fromReadPosition, hblock, hpipe, hsize, hwrite, hwrite']

/-- Both ways of framing put the length and then the bytes on the stream. -/
theorem filterDoWrite_spec (p : Payload) (h : p.buf.length + 4 < 2147483648) :
    ∃ bufs, filterDoWrite p.outbound p.inPipeline p.buf = some bufs ∧
      (bufs.map contents).flatten = p.frame := by
  obtain ⟨k, hk, hm, hr, hw, hc⟩ := p.valid.block
  have hlen := p.valid.length_eq
  have hblock : p.buf.block = some k := by rw [hk]
  have hframe : p.frame = leBytes (toInt p.buf.length) ++ p.buf.contents := by
    rw [Payload.frame, Payload.bytes, p.valid.contents_length,
      toInt_of_range (x := (p.buf.length : Int)) (by omega) (by omega)]
  have hread : p.buf.length ≤ (k.bytes.drop p.buf.pos.read).length := by
    rw [List.length_drop]
    omega
  have htake : (k.bytes.drop p.buf.pos.read).take p.buf.length = p.buf.contents := by
    rw [hlen]
    simp only [contents, hblock]
  by_cases hpipe : (!p.outbound && p.inPipeline) = true
  · obtain ⟨size, hbufs, hsize⟩ := filterDoWrite_direct hblock hpipe
    exact ⟨_, hbufs, by simp [hframe, hsize]⟩
  · rw [Bool.not_eq_true] at hpipe
    obtain ⟨buff, hbufs, hbuff⟩ := filterDoWrite_combined hblock hpipe hread h
    exact ⟨_, hbufs, by simp [hframe, hbuff, htake]⟩

theorem sent_spec (ps : List Payload)
    (h : (ps.flatMap Payload.frame).length < 2147483648) :
    sent ps = some (ps.flatMap Payload.frame) := by
  induction ps with
  | nil => rfl
  | cons p ps ih =>
    rw [List.flatMap_cons, List.length_append] at h
    have hfit : p.buf.length + 4 < 2147483648 := by
      have := p.valid.contents_length
      simp only [Payload.frame, Payload.bytes, List.length_append, leBytes_length] at h
      omega
    obtain ⟨bufs, hbufs, hbytes⟩ := filterDoWrite_spec p hfit
    simp [sent, hbufs, ih (by omega), hbytes]

/-- The stream carries each payload's frame four bytes behind the one before it, and no
frame begins four bytes behind the last. -/
def FourByteSteps : List UInt8 → List (List UInt8) → Prop
  | bs, [] => NoFrame bs
  | bs, p :: ps => leBytes p.length ++ p <+: bs ∧ FourByteSteps (bs.drop 4) ps

instance : ∀ bs ps, Decidable (FourByteSteps bs ps)
  | _, [] => inferInstanceAs (Decidable (NoFrame _))
  | bs, _ :: ps =>
    have := instDecidableFourByteSteps (bs.drop 4) ps
    inferInstanceAs (Decidable (_ ∧ _))

/-- The loop takes a complete frame out, unless it is an empty one at the very end. -/
theorem frameTurn_emit_iff {bs p ys : List UInt8} (hlt : p.length < 2147483648) :
    frameTurn bs = .emit p ys ↔
      (4 < bs.length ∧ leBytes p.length ++ p <+: bs) ∧ ys = bs.drop 4 := by
  constructor
  · intro h
    simp only [frameTurn] at h
    split_ifs at h with hframe hneg
    obtain ⟨rfl, rfl⟩ := Turn.emit.inj h
    rw [NoFrame] at hframe
    have hsize : ((((bs.drop 4).take (leInt (bs.take 4)).toNat).length : Nat) : Int) =
        leInt (bs.take 4) := by
      rw [List.length_take, List.length_drop]
      omega
    have hheader : leBytes (leInt (bs.take 4)) = bs.take 4 :=
      leBytes_leInt (by rw [List.length_take]; omega)
    refine ⟨⟨by omega, ?_⟩, rfl⟩
    rw [hsize, hheader, ← List.take_add]
    exact List.take_prefix _ _
  · rintro ⟨⟨hlong, zs, rfl⟩, rfl⟩
    have hint : leInt (leBytes p.length) = p.length := leInt_leBytes (by omega) (by omega)
    have htake : (leBytes p.length ++ p ++ zs).take 4 = leBytes p.length := by
      rw [List.append_assoc]
      exact List.take_left' rfl
    have hdrop : (leBytes p.length ++ p ++ zs).drop 4 = p ++ zs := by
      rw [List.append_assoc]
      exact List.drop_left' rfl
    have hframe : ¬ NoFrame (leBytes p.length ++ p ++ zs) := by
      simp only [List.length_append, leBytes_length] at hlong
      rw [NoFrame, htake, hint, List.length_append, List.length_append, leBytes_length]
      omega
    simp only [frameTurn, if_neg hframe, htake, hint, hdrop,
      if_neg (Int.not_lt.mpr (Int.natCast_nonneg _)), Int.toNat_natCast, List.take_left]

/-- A frame that is not empty is longer than its length. -/
theorem four_lt_of_prefix {bs p : List UInt8} (hp : 0 < p.length)
    (h : leBytes p.length ++ p <+: bs) : 4 < bs.length := by
  have hle := h.length_le
  rw [List.length_append, leBytes_length] at hle
  omega

theorem drain_iff {bs : List UInt8} {ps : List (List UInt8)}
    (hp : ∀ p ∈ ps, 0 < p.length ∧ p.length < 2147483648) :
    (∃ left, frameDecoder.drain bs = (ps, some left)) ↔ FourByteSteps bs ps := by
  induction ps generalizing bs with
  | nil =>
    rw [Decoder.drain_eq_nil_iff, FourByteSteps]
    simp only [frameDecoder, frameTurn]
    split_ifs with hframe hneg <;> simp [hframe]
  | cons p ps ih =>
    obtain ⟨⟨hp0, hplt⟩, hps⟩ := List.forall_mem_cons.mp hp
    rw [Decoder.drain_eq_cons_iff, FourByteSteps, ← ih hps]
    constructor
    · rintro ⟨ys, hturn, hdrain⟩
      obtain ⟨⟨-, hbegins⟩, rfl⟩ := (frameTurn_emit_iff hplt).mp hturn
      exact ⟨hbegins, hdrain⟩
    · rintro ⟨hbegins, hdrain⟩
      have hlong := four_lt_of_prefix hp0 hbegins
      exact ⟨_, (frameTurn_emit_iff hplt).mpr ⟨⟨hlong, hbegins⟩, rfl⟩, hdrain⟩

/-- One payload steps in fours exactly when no frame seems to begin inside it. -/
theorem fourByteSteps_singleton (p : Payload) :
    FourByteSteps p.frame [p.bytes] ↔ NoFrame p.bytes := by
  have hdrop : p.frame.drop 4 = p.bytes := List.drop_left' rfl
  simp only [FourByteSteps, hdrop]
  exact and_iff_right (List.prefix_refl _)

/-- Every packet is a payload and the filter is still in a defined state. -/
def Delivers (bufs : List ValidBuffer) (ps : List Payload) : Prop :=
  (receive empty bufs).packets.map contents = ps.map Payload.bytes ∧
    ∃ rb, (receive empty bufs).buffer = .ok rb

/-- The payloads come out as they went in, whatever the cut, exactly when their stream
steps in fours. -/
theorem delivers_iff_fourByteSteps (ps : List Payload) (bufs : List ValidBuffer)
    (hlen : (ps.flatMap Payload.frame).length < 2147483648)
    (hstream : sent ps = some (received bufs).flatten) :
    Delivers bufs ps ↔ FourByteSteps (ps.flatMap Payload.frame) (ps.map Payload.bytes) := by
  have hps : ∀ p ∈ ps.map Payload.bytes, 0 < p.length ∧ p.length < 2147483648 := by
    intro bytes hmem
    obtain ⟨p, -, rfl⟩ := List.mem_map.mp hmem
    rw [Payload.bytes, p.valid.contents_length]
    exact ⟨p.nonEmpty, p.valid.length_lt⟩
  have hcut : (received bufs).flatten = ps.flatMap Payload.frame :=
    Option.some.inj (hstream.symm.trans (sent_spec ps hlen))
  have hnil : contents empty = [] := rfl
  obtain ⟨hpackets, hleft⟩ := receive_refines .fresh bufs (by simpa [hnil, hcut] using hlen)
  rw [hnil, Decoder.feedAll_eq_drain frameDecoder.turn_nil, List.nil_append, hcut]
    at hpackets hleft
  rw [← drain_iff hps, Delivers, hpackets]
  generalize frameDecoder.drain (ps.flatMap Payload.frame) = out at hleft ⊢
  obtain ⟨packets, left⟩ := out
  simp only [Prod.mk.injEq, exists_and_left]
  refine and_congr_right fun _ => ?_
  generalize (receive empty bufs).buffer = buffer at hleft
  cases hleft with
  | undefined => simp
  | buffer held => simp

/-- Five bytes, the first four of which are zero. -/
def zerosThenSeven : Payload where
  outbound := false
  inPipeline := true
  buf := ⟨some ⟨1, 8, [0, 0, 0, 0, 7, 0, 0, 0]⟩, ⟨0, 5⟩⟩
  valid := valid_mk rfl (by decide) (by decide) (by decide)
  nonEmpty := by decide

/-- One buffer with the first `n` bytes of a block of sixteen. -/
def bufferOfSixteen (bs : List UInt8) (n : Nat) (hbs : bs.length = 16) (hn : n ≤ 16) :
    ValidBuffer :=
  ⟨⟨some ⟨1, 16, bs⟩, ⟨0, n⟩⟩, valid_mk hbs (Nat.zero_le _) hn (show 16 < 2147483648 by decide)⟩

/-- The zeros inside the payload are taken for the length of an empty packet. -/
theorem zerosThenSeven_not_delivered :
    ¬ ∀ (ps : List Payload) (bufs : List ValidBuffer),
      (ps.flatMap Payload.frame).length < 2147483648 →
      sent ps = some (received bufs).flatten → Delivers bufs ps := by
  intro h
  obtain ⟨hpackets, -⟩ := h [zerosThenSeven]
    [bufferOfSixteen [5, 0, 0, 0, 0, 0, 0, 0, 7, 0, 0, 0, 0, 0, 0, 0] 9 rfl (by decide)]
    (by decide) (by decide +kernel)
  revert hpackets
  decide +kernel

/-- A payload of three bytes that arrives in two buffers, cut inside the length. -/
theorem delivers_iff_fourByteSteps_three_bytes :
    let p : Payload := ⟨true, false, ⟨some ⟨1, 4, [1, 2, 3, 0]⟩, ⟨0, 3⟩⟩,
      valid_mk rfl (by decide) (by decide) (by decide), by decide⟩
    let bufs := [bufferOfSixteen (3 :: List.replicate 15 0) 2 rfl (by decide),
      bufferOfSixteen (0 :: 0 :: 1 :: 2 :: 3 :: List.replicate 11 0) 5 rfl (by decide)]
    Delivers bufs [p] ∧ FourByteSteps p.frame [p.bytes] := by
  intro p bufs
  have hsteps : FourByteSteps p.frame [p.bytes] := by decide +kernel
  have hiff := delivers_iff_fourByteSteps [p] bufs (by decide) (by decide +kernel)
  exact ⟨hiff.mpr (by simpa using hsteps), hsteps⟩

/-! ## What is copied -/

/-- A call of `sub_buffer( 0 , size )` that copies received bytes only. -/
structure SafeSubBuffer (rb : ByteBuffer) (len : Nat) : Prop where
  readable : len ≤ rb.length
  allocated : len ≤ (alloc len).bytes.length
  copied : ∃ p, rb.subBuffer 0 len = some p ∧ p.contents = rb.contents.take len

/-- A length from -4 to -1 is next: with `sizeof( size )` added it is no longer negative. -/
def WrappedHeader (rb : ByteBuffer) : Prop :=
  4 < rb.contents.length ∧ -4 ≤ leInt (rb.contents.take 4) ∧ leInt (rb.contents.take 4) < 0

theorem readHeader_safe_iff {rb : ByteBuffer} (h : rb.Valid) :
    (∀ rb' len, readHeader rb = .call rb' len → SafeSubBuffer rb' len) ↔ ¬ WrappedHeader rb := by
  have hlt := h.length_lt
  have hcl := h.contents_length
  rcases readHeader_spec h with ⟨hstop, hnone⟩ | ⟨rb', hcall, hv', hcont, -, hframe⟩
  · rw [hstop]
    simp only [reduceCtorEq, false_implies, implies_true, true_iff]
    rintro ⟨hlong, hlow, hneg⟩
    rw [NoFrame] at hnone
    omega
  have hlen' := hv'.contents_length
  rw [hcont, List.length_drop] at hlen'
  rw [NoFrame] at hframe
  rw [hcall]
  constructor
  · rintro hsafe ⟨-, hlow, hneg⟩
    have hread := (hsafe rb' _ rfl).readable
    have hwrap := toSize_of_neg (x := leInt (rb.contents.take 4)) (by omega) hneg
    omega
  · rintro hnot rb'' len heq
    obtain ⟨rfl, rfl⟩ := Header.call.inj heq
    have hnonneg : 0 ≤ leInt (rb.contents.take 4) := by
      by_contra hneg
      exact hnot ⟨by omega, by omega, by omega⟩
    have hsize := toSize_of_range (x := leInt (rb.contents.take 4)) hnonneg (by omega)
    have hread : toSize (leInt (rb.contents.take 4)) ≤ rb'.length := by omega
    obtain ⟨p, hp, -, hcp⟩ := hv'.subBuffer_spec hread
    refine ⟨hread, ?_, p, hp, hcp⟩
    rw [alloc_bytes_length (by omega)]
    exact alloc_capacity_ge _

/-- Every call is safe, however a stream is cut, exactly when no such length is met. -/
theorem receive_safe_iff (bufs : List ValidBuffer) :
    (∀ rb ∈ (receive empty bufs).heads, ∀ rb' len, readHeader rb = .call rb' len →
      SafeSubBuffer rb' len) ↔
    ∀ rb ∈ (receive empty bufs).heads, ¬ WrappedHeader rb :=
  forall₂_congr fun rb hrb => readHeader_safe_iff (receive_heads_valid .fresh bufs rb hrb)

/-- A length of -1 asks `sub_buffer` for 2^64 - 1 bytes. -/
theorem minusOne_not_safe :
    ¬ ∀ bufs : List ValidBuffer, ∀ rb ∈ (receive empty bufs).heads, ∀ rb' len,
      readHeader rb = .call rb' len → SafeSubBuffer rb' len := by
  intro h
  let rb : ByteBuffer := ⟨some ⟨1, 8, [255, 255, 255, 255, 0, 0, 0, 0]⟩, ⟨0, 5⟩⟩
  have hv : rb.Valid := valid_mk rfl (by decide) (by decide) (by decide)
  have hsafe := h [bufferOfSixteen (List.replicate 4 255 ++ List.replicate 12 0) 5 rfl
    (by decide)] rb (by decide +kernel)
  exact (readHeader_safe_iff hv).mp hsafe ⟨by decide, by decide, by decide⟩

end FilterFraming
