import Tcode.FilterFraming

/-! # When size_filter delivers a frame

A frame is complete as soon as its last byte has been received. What the filter has fired when
`filter_on_read` returns is compared with the frames that are complete by then.
-/
namespace FilterDelivery

open SupportMachineInt SupportIncrementalDecoder BufferByteBuffer FilterSizeFilter FilterFraming
open BufferByteBuffer.ByteBuffer

/-- A payload whose length is an `int`. -/
abbrev Payload := { p : List UInt8 // p.length < 2147483648 }

def frame (p : Payload) : List UInt8 := leBytes p.1.length ++ p.1

/-- The payloads of the frames that lie within the first `n` bytes. -/
def completeFrames : List Payload → Nat → List (List UInt8)
  | [], _ => []
  | p :: ps, n =>
    if (frame p).length ≤ n then p.1 :: completeFrames ps (n - (frame p).length) else []

/-- The bytes begin with a complete frame. -/
def StartsWithFrame (bs : List UInt8) : Prop :=
  4 ≤ bs.length ∧ 0 ≤ leInt (bs.take 4) ∧ 4 + leInt (bs.take 4) ≤ bs.length

instance (bs : List UInt8) : Decidable (StartsWithFrame bs) :=
  inferInstanceAs (Decidable (_ ∧ _ ∧ _))

/-- What has been fired are the complete frames, and `_read_buffer` does not begin with one. -/
def DeliversAtOnce (ps : List Payload) (bufs : List ValidBuffer) : Prop :=
  (receive empty bufs).packets.map contents =
      completeFrames ps (received bufs).flatten.length ∧
    ∃ rb, (receive empty bufs).buffer = .ok rb ∧ ¬ StartsWithFrame rb.contents

/-- The bytes carry a frame of each payload four bytes behind the one before it, with more behind
its length, and no frame begins four bytes behind the last. -/
def StepsInFours : List (List UInt8) → List UInt8 → Prop
  | [], bs => NoFrame bs ∧ ¬ StartsWithFrame bs
  | p :: ps, bs => (4 < bs.length ∧ leBytes p.length ++ p <+: bs) ∧ StepsInFours ps (bs.drop 4)

instance : ∀ ps bs, Decidable (StepsInFours ps bs)
  | [], bs => inferInstanceAs (Decidable (NoFrame bs ∧ ¬ StartsWithFrame bs))
  | _ :: ps, bs =>
    have := instDecidableStepsInFours ps (bs.drop 4)
    inferInstanceAs (Decidable (_ ∧ _))

theorem completeFrames_short {ps : List Payload} {n : Nat} :
    ∀ p ∈ completeFrames ps n, p.length < 2147483648 := by
  induction ps generalizing n with
  | nil => exact nofun
  | cons p ps ih =>
    rw [completeFrames]
    split
    · intro q hq
      rcases List.mem_cons.mp hq with rfl | hq
      · exact p.2
      · exact ih q hq
    · exact nofun

/-- The decoder stops behind exactly these payloads. -/
theorem drain_iff_stepsInFours {ps : List (List UInt8)} {bs : List UInt8}
    (hps : ∀ p ∈ ps, p.length < 2147483648) :
    (∃ left, frameDecoder.drain bs = (ps, some left) ∧ ¬ StartsWithFrame left) ↔
      StepsInFours ps bs := by
  induction ps generalizing bs with
  | nil =>
    rw [StepsInFours]
    constructor
    · rintro ⟨left, hdrain, hstart⟩
      have hturn := Decoder.drain_eq_nil_iff.mp ⟨left, hdrain⟩
      obtain rfl : bs = left := by
        rw [Decoder.drain_wait hturn] at hdrain
        exact Option.some.inj (Prod.mk.inj hdrain).2
      refine ⟨?_, hstart⟩
      simp only [frameDecoder, frameTurn] at hturn
      split_ifs at hturn with hframe hneg
      exact hframe
    · rintro ⟨hframe, hstart⟩
      have hturn : frameDecoder.turn bs = .wait := if_pos hframe
      exact ⟨bs, Decoder.drain_wait hturn, hstart⟩
  | cons p ps ih =>
    obtain ⟨hp, hps⟩ := List.forall_mem_cons.mp hps
    rw [StepsInFours, ← ih hps]
    constructor
    · rintro ⟨left, hdrain, hstart⟩
      obtain ⟨ys, hturn, -⟩ := Decoder.drain_eq_cons_iff.mp ⟨left, hdrain⟩
      obtain ⟨hbegins, rfl⟩ := (frameTurn_emit_iff hp).mp hturn
      rw [Decoder.drain_emit hturn] at hdrain
      obtain ⟨hpackets, hleft⟩ := Prod.mk.inj hdrain
      exact ⟨hbegins, left, Prod.ext (List.cons.inj hpackets).2 hleft, hstart⟩
    · rintro ⟨hbegins, left, hdrain, hstart⟩
      have hturn : frameDecoder.turn bs = .emit p (bs.drop 4) :=
        (frameTurn_emit_iff hp).mpr ⟨hbegins, rfl⟩
      refine ⟨left, ?_, hstart⟩
      rw [Decoder.drain_emit hturn, hdrain]

/-- Complete frames are delivered at once exactly if what has been taken over steps in fours. -/
theorem deliversAtOnce_iff (ps : List Payload) (bufs : List ValidBuffer) :
    DeliversAtOnce ps bufs ↔
      StepsInFours (completeFrames ps (received bufs).flatten.length)
        (takenAll empty bufs).flatten := by
  obtain ⟨hpackets, hleft⟩ := receive_refines_taken .fresh bufs
  have hnil : contents empty = [] := rfl
  rw [hnil, Decoder.feedAll_eq_drain frameDecoder.turn_nil, List.nil_append] at hpackets hleft
  rw [← drain_iff_stepsInFours completeFrames_short, DeliversAtOnce, hpackets]
  generalize frameDecoder.drain (takenAll empty bufs).flatten = out at hleft ⊢
  obtain ⟨packets, left⟩ := out
  generalize (receive empty bufs).buffer = buffer at hleft
  dsimp only at hleft ⊢
  cases hleft with
  | undefined => simp
  | @buffer rb held => simp [Prod.ext_iff, and_assoc]

/-- The frame of an empty payload waits for whatever comes behind it. -/
theorem emptyPayload_not_deliversAtOnce :
    ¬ ∀ (ps : List Payload) (bufs : List ValidBuffer),
      (received bufs).flatten <+: ps.flatMap frame → DeliversAtOnce ps bufs := by
  intro h
  obtain ⟨hpackets, -⟩ := h [⟨[], by decide⟩]
    [bufferOfSixteen (List.replicate 16 0) 4 rfl (by decide)] (by decide)
  revert hpackets
  decide +kernel

end FilterDelivery
