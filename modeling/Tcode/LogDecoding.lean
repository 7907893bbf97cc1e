import Tcode.LogRecord

/-! # Reading a record from arbitrary bytes

`operator>>` trusts the lengths that it reads, with which it copies a text and closes it with
a zero. A length that the buffer is too short for keeps what the variable held before.
-/
namespace LogDecoding

open SupportMachineInt SupportCString BufferByteBuffer BufferByteBuffer.ByteBuffer LogRecord

/-- What is left of some bytes to read. -/
def Taken (bytes : List UInt8) (buf : ByteBuffer) : Prop :=
  ∃ k ≤ bytes.length, buf.contents = bytes.drop k

/-- Whatever the variables of `operator>>` hold before, it writes inside of the arrays and takes
no more than there is to read. -/
def ReadsSafely (buf : ByteBuffer) : Prop :=
  ∀ (tick : CharArray 8) (len : CharArray 2) (r : Record), ∃ y : Record × ByteBuffer,
    r.deserialize buf tick len = some y ∧ Taken buf.contents y.2

/-- A length as far as there are bytes of it, on top of what was there before. -/
def lengthBytes (old bytes : List UInt8) : List UInt8 :=
  bytes.take 2 ++ old.drop (bytes.take 2).length

/-- Each length that is read is at least 0 and leaves room for a zero in the array of its text. -/
def LengthsFit : List Nat → List UInt8 → List UInt8 → Prop
  | [], _, _ => True
  | n :: ns, old, bytes =>
    let len := toShort (leValue (lengthBytes old bytes))
    (0 ≤ len ∧ len < n) ∧ LengthsFit ns (lengthBytes old bytes) ((bytes.drop 2).drop len.toNat)

instance : ∀ ns old bytes, Decidable (LengthsFit ns old bytes)
  | [], _, _ => isTrue trivial
  | n :: ns, old, bytes =>
    let len := toShort (leValue (lengthBytes old bytes))
    have := instDecidableLengthsFit ns (lengthBytes old bytes) ((bytes.drop 2).drop len.toNat)
    inferInstanceAs (Decidable ((0 ≤ len ∧ len < n) ∧ LengthsFit ns _ _))

/-- The sizes of the arrays. -/
def textSizes : List Nat := [32, 256, 256, 2048]

variable {n : Nat} {buf : ByteBuffer} {ns : List Nat} {old bytes : List UInt8}

theorem Taken.drop {buf' : ByteBuffer} (h : Taken bytes buf) {k : Nat}
    (hdrop : buf'.contents = buf.contents.drop k) : Taken bytes buf' := by
  obtain ⟨j, hj, hbuf⟩ := h
  rw [hbuf, List.drop_drop] at hdrop
  by_cases hk : j + k ≤ bytes.length
  · exact ⟨j + k, hk, hdrop⟩
  · refine ⟨bytes.length, Nat.le_refl _, ?_⟩
    rw [hdrop, List.drop_length, List.drop_of_length_le (by omega)]

theorem deserializeText_eq {len len' : CharArray 2} {buf₁ buf₂ : ByteBuffer} (a : CharArray n)
    (hlen : deserializeObject buf len = some (len', buf₁))
    (hread : buf₁.read (toSize (shortValue len')) = some (bytes, buf₂)) :
    deserializeText buf len a = (a.memcpy bytes).bind fun b =>
      (b.put (shortValue len') 0).map fun c => (len', c, buf₂) := by
  simp only [deserializeText, hlen, Option.bind_eq_bind, Option.bind_some, hread]
  cases a.memcpy bytes with
  | none => rw [Option.bind_none, Option.bind_none]
  | some b =>
    rw [Option.bind_some, Option.bind_some]
    cases b.put (shortValue len') 0 with
    | none => rw [Option.bind_none, Option.map_none]
    | some c => rw [Option.bind_some, Option.map_some, Option.pure_def]

/-- A text is read exactly if its length fits. -/
theorem deserializeText_spec (h : buf.Valid) (len : CharArray 2) (a : CharArray n) :
    ∃ len' : CharArray 2, len'.bytes = lengthBytes len.bytes buf.contents ∧
      (¬ (0 ≤ shortValue len' ∧ shortValue len' < n) → deserializeText buf len a = none) ∧
      (0 ≤ shortValue len' ∧ shortValue len' < n → ∃ a' buf',
        deserializeText buf len a = some (len', a', buf') ∧ buf'.Valid ∧
          buf'.contents = (buf.contents.drop 2).drop (shortValue len').toNat) := by
  obtain ⟨len', buf₁, hlen, hvalid₁, hcontents₁, hbytes⟩ := deserializeObject_spec h len
  obtain ⟨buf₂, hread, hvalid₂, hcontents₂, -⟩ := hvalid₁.read_spec (toSize (shortValue len'))
  have hrun := deserializeText_eq a hlen hread
  refine ⟨len', hbytes, fun hnot => ?_, fun hfit => ?_⟩
  · rw [hrun]
    cases a.memcpy (buf₁.contents.take (toSize (shortValue len'))) with
    | none => rw [Option.bind_none]
    | some b => rw [Option.bind_some, CharArray.put_eq_none hnot, Option.map_none]
  · have hsmall : shortValue len' < 32768 := (toShort_range _).2
    have hsize : toSize (shortValue len') = (shortValue len').toNat := by
      unfold toSize
      omega
    have hroom : (buf₁.contents.take (toSize (shortValue len'))).length ≤ n := by
      rw [List.length_take]
      omega
    obtain ⟨b, hb⟩ := CharArray.memcpy_isSome (a := a) hroom
    obtain ⟨c, hc, -⟩ := CharArray.put_isSome (a := b) (c := 0) hfit
    refine ⟨c, buf₂, ?_, hvalid₂, ?_⟩
    · rw [hrun, hb, Option.bind_some, hc, Option.map_some]
    · rw [hcontents₂, hcontents₁, hsize]

theorem lengthsFit_cons (len : CharArray 2) (hlen : len.bytes = lengthBytes old bytes) :
    LengthsFit (n :: ns) old bytes ↔ (0 ≤ shortValue len ∧ shortValue len < n) ∧
      LengthsFit ns len.bytes ((bytes.drop 2).drop (shortValue len).toNat) := by
  rw [LengthsFit, shortValue, hlen]

/-- One text, where what comes after it succeeds exactly if the other lengths fit. -/
theorem bind_deserializeText {β : Type} {Q : β → Prop} (h : buf.Valid) (htaken : Taken bytes buf)
    (len : CharArray 2) (a : CharArray n) (f : CharArray 2 × CharArray n × ByteBuffer → Option β)
    (hf : ∀ len' a' buf', buf'.Valid → Taken bytes buf' →
      ((∃ y, f (len', a', buf') = some y ∧ Q y) ↔ LengthsFit ns len'.bytes buf'.contents)) :
    (∃ y, (deserializeText buf len a).bind f = some y ∧ Q y) ↔
      LengthsFit (n :: ns) len.bytes buf.contents := by
  obtain ⟨len', hlen, hno, hyes⟩ := deserializeText_spec h len a
  rw [lengthsFit_cons len' hlen]
  by_cases hfit : 0 ≤ shortValue len' ∧ shortValue len' < n
  · obtain ⟨a', buf', hread, hvalid, hcontents⟩ := hyes hfit
    have htaken' : Taken bytes buf' := htaken.drop (hcontents.trans List.drop_drop)
    rw [hread, Option.bind_some, hf len' a' buf' hvalid htaken', hcontents]
    exact (and_iff_right hfit).symm
  · rw [hno hfit, Option.bind_none]
    simp [hfit]

theorem deserialize_iff (h : buf.Valid) (tick : CharArray 8) (len : CharArray 2) (r : Record) :
    (∃ y : Record × ByteBuffer, r.deserialize buf tick len = some y ∧ Taken buf.contents y.2) ↔
      LengthsFit textSizes len.bytes (buf.contents.drop 24) := by
  have hall : Taken buf.contents buf := ⟨0, Nat.zero_le _, rfl⟩
  obtain ⟨o₁, b₁, h₁, v₁, c₁, -⟩ := deserializeObject_spec h tick
  obtain ⟨o₂, b₂, h₂, v₂, c₂, -⟩ := deserializeObject_spec v₁ (object 4 r.type.toNat)
  obtain ⟨o₃, b₃, h₃, v₃, c₃, -⟩ := deserializeObject_spec v₂ (object 4 r.line.toNat)
  obtain ⟨o₄, b₄, h₄, v₄, c₄, -⟩ := deserializeObject_spec v₃ (object 8 r.tid.toNat)
  have hcontents : b₄.contents = buf.contents.drop 24 := by
    rw [c₄, c₃, c₂, c₁, List.drop_drop, List.drop_drop, List.drop_drop]
  rw [← hcontents]
  simp only [Record.deserialize, h₁, h₂, h₃, h₄, Option.bind_eq_bind, Option.bind_some]
  apply bind_deserializeText v₄ (hall.drop hcontents)
  intro l₅ t₅ b₅ v₅ hb₅
  apply bind_deserializeText v₅ hb₅
  intro l₆ t₆ b₆ v₆ hb₆
  apply bind_deserializeText v₆ hb₆
  intro l₇ t₇ b₇ v₇ hb₇
  apply bind_deserializeText v₇ hb₇
  intro l₈ t₈ b₈ v₈ hb₈
  exact iff_of_true ⟨_, rfl, hb₈⟩ trivial

/-! ## Any garbage -/

/-- With both bytes of the first length there, nothing depends on what was there before. -/
theorem lengthsFit_of_two (h : 2 ≤ bytes.length) (old' : List UInt8) (hold : old.length = 2)
    (hold' : old'.length = 2) : LengthsFit ns old bytes ↔ LengthsFit ns old' bytes := by
  have hbytes : lengthBytes old bytes = lengthBytes old' bytes := by
    rw [lengthBytes, lengthBytes, List.length_take, Nat.min_eq_left h,
      List.drop_of_length_le (Nat.le_of_eq hold), List.drop_of_length_le (Nat.le_of_eq hold')]
  cases ns with
  | nil => exact Iff.rfl
  | cons n ns => rw [LengthsFit, LengthsFit, hbytes]

/-- Without them the length may be negative. -/
theorem not_lengthsFit_of_short (h : bytes.length < 2) :
    ¬ LengthsFit (n :: ns) [255, 255] bytes := by
  rintro ⟨⟨hnonneg, -⟩, -⟩
  have hneg : toShort (leValue (lengthBytes [255, 255] bytes)) < 0 := by
    cases bytes with
    | nil => decide
    | cons c rest =>
      obtain rfl : rest = [] := List.eq_nil_of_length_eq_zero (by
        rw [List.length_cons] at h
        omega)
      have hc := c.toNat_lt
      have hvalue : leValue (lengthBytes [255, 255] [c]) = c.toNat + 65280 := by
        simp [lengthBytes, leValue]
      rw [hvalue, toShort]
      omega
  omega

/-- A record is read safely exactly if its first length is there and every length fits its
array. -/
theorem readsSafely_iff (h : buf.Valid) : ReadsSafely buf ↔
    26 ≤ buf.contents.length ∧ LengthsFit textSizes [0, 0] (buf.contents.drop 24) := by
  have hlong : 26 ≤ buf.contents.length ↔ 2 ≤ (buf.contents.drop 24).length := by
    rw [List.length_drop]
    omega
  rw [hlong]
  constructor
  · intro hsafe
    have hfit (len : CharArray 2) : LengthsFit textSizes len.bytes (buf.contents.drop 24) :=
      (deserialize_iff h (.zeros 8) len blank).mp (hsafe (.zeros 8) len blank)
    refine ⟨?_, hfit (.zeros 2)⟩
    by_contra hshort
    have hones : LengthsFit textSizes [255, 255] (buf.contents.drop 24) :=
      hfit ⟨[255, 255], rfl⟩
    exact not_lengthsFit_of_short (Nat.not_le.mp hshort) hones
  · rintro ⟨htwo, hfit⟩ tick len r
    exact (deserialize_iff h tick len r).mpr ((lengthsFit_of_two htwo _ rfl len.size).mp hfit)

/-- A record without texts. -/
theorem readsSafely_iff_emptyTexts :
    let buf : ByteBuffer := ⟨some ⟨1, 32, List.replicate 32 0⟩, ⟨0, 32⟩⟩
    ReadsSafely buf :=
  have hvalid : Valid _ := valid_mk (by decide) (by decide) (by decide) (by decide)
  (readsSafely_iff hvalid).mpr ⟨by decide, by decide⟩

/-- A tag of length -1: the zero goes in front of the array. -/
theorem minusOne_not_readsSafely :
    let buf : ByteBuffer :=
      ⟨some ⟨1, 32, List.replicate 24 0 ++ [255, 255, 0, 0, 0, 0, 0, 0]⟩, ⟨0, 26⟩⟩
    buf.Valid ∧ ¬ ReadsSafely buf := by
  intro buf
  have hvalid : buf.Valid := valid_mk (by decide) (by decide) (by decide) (by decide)
  refine ⟨hvalid, fun hsafe => ?_⟩
  have hfit := (deserialize_iff hvalid (.zeros 8) (.zeros 2) blank).mp
    (hsafe (.zeros 8) (.zeros 2) blank)
  revert hfit
  decide

end LogDecoding
