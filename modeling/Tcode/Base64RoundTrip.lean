import Tcode.Base64Codec

/-! # Base64 there and back

What the encoder writes is the row of bits of its bytes in numbers of six bits, with zeros at the
end, and what the decoder writes is that of its characters in bytes.
-/
namespace Base64RoundTrip

open SupportMachineInt SupportBitGroups Base64Codec

def charOf (v : Nat) : UInt8 := b64Table.getD v 0

/-- Characters for numbers of six bits, and the `=` that are still behind them. -/
structure Written (total : Nat) (retval : List UInt8) (out : List Nat) : Prop where
  text : retval = out.map charOf ++ List.replicate (total - out.length) 61
  room : out.length ≤ total
  sextets : ∀ v ∈ out, v < 64

section Encoding

variable {total k acc : Nat} {retval text : List UInt8} {out stream : List Nat} {e : Encoder}

theorem b64Table_get {v : Nat} (h : v < 64) : b64Table[v]? = some (charOf v) := by
  have hlen : b64Table.length = 64 := by decide
  rw [charOf, List.getD_eq_getElem?_getD, List.getElem?_eq_getElem (by omega)]
  rfl

theorem putChar_spec {v : Nat} (h : Written total retval out) (hroom : out.length < total)
    (hv : v < 64) : ∃ retval', putChar retval out.length v = some retval' ∧
      Written total retval' (out ++ [v]) := by
  obtain ⟨q, hq⟩ : ∃ q, total - out.length = q + 1 := ⟨total - out.length - 1, by omega⟩
  have hlen : (out.map charOf).length = out.length := List.length_map _
  have htext := h.text
  rw [hq, List.replicate_succ] at htext
  have hfits : out.length < retval.length := by
    rw [htext, List.length_append, hlen, List.length_cons]
    omega
  refine ⟨retval.set out.length (charOf v), ?_, ?_, ?_, ?_⟩
  · rw [putChar, b64Table_get hv]
    exact if_pos hfits
  · rw [htext, ← hlen, List.set_append_right _ _ (Nat.le_refl _), Nat.sub_self, List.set_cons_zero,
      List.map_append, List.length_append, List.length_singleton, List.append_assoc]
    have hleft : total - (out.length + 1) = q := by omega
    rw [hleft]
    rfl
  · rw [List.length_append, List.length_singleton]
    omega
  · intro u hu
    rcases List.mem_append.mp hu with hu | hu
    · exact h.sextets u hu
    · exact List.mem_singleton.mp hu ▸ hv

/-- The bits of a stream, those in the text first and then those that are collected. -/
structure Holds (e : Encoder) (total : Nat) (out stream : List Nat) : Prop where
  written : Written total e.retval out
  place : e.outpos = out.length
  few : e.bitsCollected < 6
  bits : stream = row 6 out ++ bits e.bitsCollected e.accumulator

theorem flush_spec (h : Written total retval out) (hbits : stream = row 6 out ++ bits k acc)
    (hroom : stream.length ≤ 6 * total) :
    ∃ e out', flush acc k out.length retval = some e ∧ Holds e total out' stream := by
  induction k using Nat.strongRecOn generalizing out retval with
  | ind k ih =>
    rw [flush]
    by_cases hk : 6 ≤ k
    · obtain ⟨j, rfl⟩ : ∃ j, k = 6 + j := ⟨k - 6, by omega⟩
      have hlen := congrArg List.length hbits
      rw [List.length_append, row_length, bits_length] at hlen
      obtain ⟨retval', hput, hwritten⟩ := putChar_spec h (by omega) (field_lt 6 j acc)
      rw [bits_field, ← List.append_assoc, ← row_singleton, ← row_append] at hbits
      obtain ⟨e, out', hflush, he⟩ := ih j (by omega) hwritten hbits
      refine ⟨e, out', ?_, he⟩
      have hfield : acc >>> j &&& 0x3f = field 6 j acc := rfl
      rw [if_pos hk, Nat.add_sub_cancel_left, hfield, hput, ← hflush, List.length_append,
        List.length_singleton]
    · exact ⟨_, out, by rw [if_neg hk], h, rfl, Nat.not_le.mp hk, hbits⟩

theorem step_spec (h : Holds e total out stream) (byte : UInt8)
    (hroom : (stream ++ bits 8 byte.toNat).length ≤ 6 * total) : ∃ e' out',
      e.step byte = some e' ∧ Holds e' total out' (stream ++ bits 8 byte.toNat) := by
  have hbyte : byte.toNat &&& 0xff = byte.toNat := by
    rw [Nat.and_two_pow_sub_one_eq_mod byte.toNat 8]
    exact Nat.mod_eq_of_lt byte.toNat_lt
  have hfew := h.few
  have hshift : bits (e.bitsCollected + 8) (shiftIn 32 8 e.accumulator byte.toNat) =
      bits e.bitsCollected e.accumulator ++ bits 8 byte.toNat :=
    bits_shiftIn byte.toNat_lt (by omega)
  have hbits : stream ++ bits 8 byte.toNat =
      row 6 out ++ bits (e.bitsCollected + 8) (shiftIn 32 8 e.accumulator byte.toNat) := by
    rw [hshift, h.bits, List.append_assoc]
  obtain ⟨e', out', hflush, he⟩ := flush_spec h.written hbits hroom
  refine ⟨e', out', ?_, he⟩
  rw [Encoder.step, hbyte, h.place]
  exact hflush

theorem steps_spec {buffer : List UInt8} (h : Holds e total out stream)
    (hroom : (stream ++ row 8 (buffer.map UInt8.toNat)).length ≤ 6 * total) :
    ∃ e' out', e.steps buffer = some e' ∧
      Holds e' total out' (stream ++ row 8 (buffer.map UInt8.toNat)) := by
  induction buffer generalizing e out stream with
  | nil => exact ⟨e, out, rfl, by rwa [List.map_nil, row_nil, List.append_nil]⟩
  | cons byte buffer ih =>
    rw [List.map_cons, row_cons, ← List.append_assoc] at hroom ⊢
    have hfirst : (stream ++ bits 8 byte.toNat).length ≤ 6 * total := by
      rw [List.length_append] at hroom
      omega
    obtain ⟨e', out', hstep, he'⟩ := step_spec h byte hfirst
    obtain ⟨e'', out'', hsteps, he''⟩ := ih he' hroom
    exact ⟨e'', out'', by rw [Encoder.steps, hstep]; exact hsteps, he''⟩

theorem finish_spec (h : Holds e total out stream) (hroom : stream.length ≤ 6 * total) :
    ∃ text out' z, e.finish = some text ∧ Written total text out' ∧
      row 6 out' = stream ++ List.replicate z 0 ∧ z < 6 := by
  have hfew := h.few
  have hbits := h.bits
  have hlen := congrArg List.length hbits
  rw [List.length_append, row_length, bits_length] at hlen
  rw [Encoder.finish]
  by_cases hk : 0 < e.bitsCollected
  · have hlast : e.accumulator <<< (6 - e.bitsCollected) % 4294967296 &&& 0x3f < 64 :=
      Nat.lt_of_le_of_lt Nat.and_le_right (by decide)
    obtain ⟨text, hput, hwritten⟩ := putChar_spec h.written (by omega) hlast
    refine ⟨text, _, 6 - e.bitsCollected, ?_, hwritten, ?_, by omega⟩
    · rw [if_pos hk, h.place]
      exact hput
    · have hshift : shiftIn 32 (6 - e.bitsCollected) e.accumulator 0 =
          e.accumulator <<< (6 - e.bitsCollected) % 4294967296 := Nat.or_zero _
      have hzeros : bits (e.bitsCollected + (6 - e.bitsCollected))
          (shiftIn 32 (6 - e.bitsCollected) e.accumulator 0) =
          bits e.bitsCollected e.accumulator ++ bits (6 - e.bitsCollected) 0 :=
        bits_shiftIn (Nat.two_pow_pos _) (by omega)
      have hsix : e.bitsCollected + (6 - e.bitsCollected) = 6 := by omega
      have hmask (v : Nat) : bits 6 (v &&& 0x3f) = bits 6 v := by
        rw [Nat.and_two_pow_sub_one_eq_mod v 6, bits_mod (Nat.le_refl 6)]
      rw [hsix, hshift, bits_zero] at hzeros
      rw [row_append, row_singleton, hmask, hzeros, hbits, List.append_assoc]
  · refine ⟨e.retval, out, 0, by rw [if_neg hk], h.written, ?_, by decide⟩
    have hzero : e.bitsCollected = 0 := by omega
    rw [hbits, hzero, List.replicate_zero, List.append_nil]
    exact (List.append_nil _).symm

/-- The text of bytes: their bits in numbers of six, with zeros at the end and `=` behind it. -/
theorem encode_spec {x : List UInt8} (h : x.length ≤ 1024968) :
    ∃ text out z, base64Encode x = some text ∧ Written ((x.length + 2) / 3 * 4) text out ∧
      row 6 out = row 8 (x.map UInt8.toNat) ++ List.replicate z 0 ∧ z < 6 := by
  have hlen : (row 8 (x.map UInt8.toNat)).length = 8 * x.length := by
    rw [row_length, List.length_map]
  have hroom : (row 8 (x.map UInt8.toNat)).length ≤ 6 * ((x.length + 2) / 3 * 4) := by omega
  have hstart : Holds ⟨.replicate ((x.length + 2) / 3 * 4) 61, 0, 0, 0⟩ ((x.length + 2) / 3 * 4)
      [] [] :=
    ⟨⟨rfl, Nat.zero_le _, fun _ hv => absurd hv List.not_mem_nil⟩, rfl, Nat.succ_pos 5, rfl⟩
  obtain ⟨e, out, hsteps, he⟩ := steps_spec hstart hroom
  obtain ⟨text, out', z, hfinish, hwritten, hrow, hz⟩ := finish_spec he hroom
  refine ⟨text, out', z, ?_, hwritten, hrow, hz⟩
  rw [base64Encode, if_neg (Nat.not_lt.mpr h), hsteps]
  exact hfinish

end Encoding

section Decoding

variable {memory : Int → UInt8} {d : Decoder} {out x : List UInt8} {stream : List Nat}

/-- The bits of a stream, those in the buffer first and then those that are collected. -/
structure Gives (d : Decoder) (out : List UInt8) (stream : List Nat) : Prop where
  index : d.index = toInt out.length
  bytes : d.stores.map Store.byte = out
  places : d.stores.map Store.index = (List.range out.length).map fun j : Nat => toInt j
  few : d.bitsCollected < 8
  bits : stream = row 8 (out.map UInt8.toNat) ++ bits d.bitsCollected d.accumulator

/-- Characters that the decoder skips. -/
def Skipped (b : UInt8) : Prop := isspace (charValue b) ∨ charValue b = 61

instance (b : UInt8) : Decidable (Skipped b) := inferInstanceAs (Decidable (_ ∨ _))

theorem step_skipped {b : UInt8} (h : Skipped b) : d.step memory b = d := by
  unfold Decoder.step
  exact if_pos h

/-- A character that completes a byte. -/
theorem step_store (memory : Int → UInt8) {b : UInt8} (hb : ¬ Skipped b) {k : Nat}
    (hk : d.bitsCollected = k + 2) :
    (d.step memory b).index = toInt (d.index + 1) ∧ (d.step memory b).bitsCollected = k ∧
      (d.step memory b).accumulator =
        shiftIn 32 6 d.accumulator (tableValue memory (charValue b)) ∧
      (d.step memory b).stores = d.stores ++ [⟨d.index,
        .ofNat (field 8 k (shiftIn 32 6 d.accumulator (tableValue memory (charValue b)))),
        (d.origin ++ .replicate 6 b).take 8⟩] ∧
      (d.step memory b).origin = (d.origin ++ .replicate 6 b).drop 8 := by
  have hfull : 8 ≤ d.bitsCollected + 6 := by omega
  have hleft : d.bitsCollected + 6 - 8 = k := by omega
  have hrun : ¬ (isspace (charValue b) ∨ charValue b = 61) := hb
  simp only [Decoder.step, if_neg hrun, if_pos hfull, hleft, true_and, and_true]
  exact ⟨rfl, rfl⟩

/-- A character that does not. -/
theorem step_collect (memory : Int → UInt8) {b : UInt8} (hb : ¬ Skipped b)
    (hk : d.bitsCollected < 2) :
    (d.step memory b).index = d.index ∧ (d.step memory b).bitsCollected = d.bitsCollected + 6 ∧
      (d.step memory b).accumulator =
        shiftIn 32 6 d.accumulator (tableValue memory (charValue b)) ∧
      (d.step memory b).stores = d.stores ∧
      (d.step memory b).origin = d.origin ++ .replicate 6 b := by
  have hfew : ¬ 8 ≤ d.bitsCollected + 6 := by omega
  have hrun : ¬ (isspace (charValue b) ∨ charValue b = 61) := hb
  simp only [Decoder.step, if_neg hrun, if_neg hfew, true_and, and_true]
  rfl

/-- The places of stores one behind the other, and of one more. -/
theorem places_concat {places : List Int} {i : Int} {n : Nat} (hi : i = toInt n)
    (h : places = (List.range n).map fun j : Nat => toInt j) :
    places ++ [i] = (List.range (n + 1)).map fun j : Nat => toInt j := by
  rw [List.range_succ, List.map_append, ← h, hi]
  rfl

theorem gives_step (memory : Int → UInt8) {b : UInt8} {v : Nat} (h : Gives d out stream)
    (hb : ¬ Skipped b) (hv : tableValue memory (charValue b) = v) (hlt : v < 64) :
    ∃ out', Gives (d.step memory b) out' (stream ++ bits 6 v) := by
  have hfew := h.few
  have hshift : bits (d.bitsCollected + 6) (shiftIn 32 6 d.accumulator v) =
      bits d.bitsCollected d.accumulator ++ bits 6 v := bits_shiftIn hlt (by omega)
  have hbits : stream ++ bits 6 v =
      row 8 (out.map UInt8.toNat) ++ bits (d.bitsCollected + 6) (shiftIn 32 6 d.accumulator v) := by
    rw [hshift, h.bits, List.append_assoc]
  rcases Nat.lt_or_ge d.bitsCollected 2 with hk | hk
  · obtain ⟨hindex, hcount, hacc, hstores, -⟩ := step_collect memory hb hk
    refine ⟨out, ?_, ?_, ?_, by omega, ?_⟩
    · rw [hindex, h.index]
    · rw [hstores, h.bytes]
    · rw [hstores, h.places]
    · rw [hcount, hacc, hv, hbits]
  · obtain ⟨k, hk⟩ : ∃ k, d.bitsCollected = k + 2 := ⟨d.bitsCollected - 2, by omega⟩
    obtain ⟨hindex, hcount, hacc, hstores, -⟩ := step_store memory hb hk
    rw [hv] at hacc hstores
    have hsplit : d.bitsCollected + 6 = 8 + k := by omega
    have hbyte : (UInt8.ofNat (field 8 k (shiftIn 32 6 d.accumulator v))).toNat =
        field 8 k (shiftIn 32 6 d.accumulator v) := by
      rw [UInt8.toNat_ofNat']
      exact Nat.mod_eq_of_lt (field_lt 8 k _)
    refine ⟨out ++ [.ofNat (field 8 k (shiftIn 32 6 d.accumulator v))], ?_, ?_, ?_, by omega, ?_⟩
    · rw [hindex, h.index, toInt_toInt_add, List.length_append, List.length_singleton]
      rfl
    · rw [hstores, List.map_append, h.bytes]
      rfl
    · rw [hstores, List.map_append, List.length_append, List.length_singleton]
      exact places_concat h.index h.places
    · rw [hcount, hacc, hbits, hsplit, bits_field, List.map_append, row_append, List.append_assoc]
      show _ = _ ++ (row 8 [UInt8.toNat _] ++ _)
      rw [hbyte, row_singleton]

/-- The two tables agree. -/
theorem charOf_value : ∀ v, v < 64 → ¬ Skipped (charOf v) ∧
    (0 ≤ charValue (charOf v) ∧ charValue (charOf v) ≤ 127) ∧
      b64TableR.getD (charValue (charOf v)).toNat 64 = v := by decide +kernel

theorem gives_chars (memory : Int → UInt8) {vs : List Nat} (hvs : ∀ v ∈ vs, v < 64)
    (h : Gives d out stream) :
    ∃ out', Gives ((vs.map charOf).foldl (Decoder.step memory) d) out' (stream ++ row 6 vs) := by
  induction vs generalizing d out stream with
  | nil => exact ⟨out, by rwa [row_nil, List.append_nil]⟩
  | cons v vs ih =>
    have hlt := hvs v List.mem_cons_self
    obtain ⟨hrun, hrange, htable⟩ := charOf_value v hlt
    have hvalue : tableValue memory (charValue (charOf v)) = v := by
      rw [tableValue, if_pos hrange, htable]
    obtain ⟨out', hstep⟩ := gives_step memory h hrun hvalue hlt
    rw [row_cons, ← List.append_assoc]
    exact ih (fun u hu => hvs u (List.mem_cons_of_mem _ hu)) hstep

theorem foldl_padding (q : Nat) :
    (List.replicate q 61).foldl (Decoder.step memory) d = d := by
  induction q with
  | zero => rfl
  | succ q ih =>
    rw [List.replicate_succ, List.foldl_cons, step_skipped (by decide), ih]

/-- The bytes of a text: the bits of its characters in numbers of eight. -/
theorem decode_spec (memory : Int → UInt8) {vs : List Nat} (hvs : ∀ v ∈ vs, v < 64) (q size : Nat) :
    ∃ out, Gives (base64Decode memory (vs.map charOf ++ List.replicate q 61) size) out
      (row 6 vs) := by
  have hstart : Gives .start [] [] := ⟨rfl, rfl, rfl, Nat.succ_pos 7, rfl⟩
  obtain ⟨out, hout⟩ := gives_chars memory hvs hstart
  refine ⟨out, ?_⟩
  rw [base64Decode, List.foldl_append, foldl_padding]
  exact hout

/-- Bytes that are stored one behind the other. -/
theorem foldl_set {stores : List Store} {buffer : List UInt8} {i : Nat}
    (hplaces : stores.map Store.index = (List.range' i stores.length).map fun j : Nat => (j : Int))
    (hroom : i + stores.length ≤ buffer.length) :
    stores.foldl (fun buffer s => buffer.set s.index.toNat s.byte) buffer =
      buffer.take i ++ stores.map Store.byte ++ buffer.drop (i + stores.length) := by
  induction stores generalizing buffer i with
  | nil => rw [List.map_nil, List.append_nil]; exact (List.take_append_drop i buffer).symm
  | cons s stores ih =>
    rw [List.length_cons] at hroom
    rw [List.map_cons, List.length_cons, List.range'_succ, List.map_cons,
      List.cons.injEq] at hplaces
    obtain ⟨hfirst, hrest⟩ := hplaces
    have hi : i < buffer.length := by omega
    rw [List.foldl_cons, hfirst, Int.toNat_natCast, ih hrest (by rw [List.length_set]; omega),
      List.take_succ_eq_append_getElem (by rw [List.length_set]; exact hi), List.getElem_set_self,
      List.take_set_of_le (Nat.le_refl i), List.drop_set_of_lt (by omega), List.length_cons,
      List.map_cons, Nat.add_assoc, Nat.add_comm 1, ← List.append_cons]

theorem Gives.buffer (h : Gives d out stream) (hshort : out.length ≤ 2147483648)
    {buffer : List UInt8} (hroom : out.length ≤ buffer.length) :
    d.buffer buffer = out ++ buffer.drop out.length := by
  have hlen : d.stores.length = out.length := by
    rw [← h.bytes, List.length_map]
  have hplaces : d.stores.map Store.index =
      (List.range' 0 d.stores.length).map fun j : Nat => (j : Int) := by
    rw [h.places, hlen, List.range_eq_range']
    apply List.map_congr_left
    intro j hj
    have hlt := (List.mem_range'_1.mp hj).2
    exact toInt_of_range (by omega) (by omega)
  rw [Decoder.buffer, foldl_set hplaces (by omega), h.bytes, hlen, List.take_zero,
    List.nil_append, Nat.zero_add]

end Decoding

/-! ## Canonical texts -/

section Canonical

variable {x s : List UInt8}

/-- Whole groups of four characters, at most two of them padding, and no bit behind the last
whole byte. -/
structure Canonical (s : List UInt8) (vs : List Nat) (q : Nat) : Prop where
  text : s = vs.map charOf ++ List.replicate q 61
  sextets : ∀ v ∈ vs, v < 64
  groups : (vs.length + q) % 4 = 0
  padding : q ≤ 2
  zeros : ∀ b ∈ (row 6 vs).drop (6 * vs.length / 8 * 8), b = 0

theorem toNat_lt_256 (x : List UInt8) : ∀ v ∈ x.map UInt8.toNat, v < 2 ^ 8 := by
  intro v hv
  obtain ⟨b, -, rfl⟩ := List.mem_map.mp hv
  exact b.toNat_lt

theorem encode_canonical (h : x.length ≤ 1024968) : ∃ s vs q, base64Encode x = some s ∧
    Canonical s vs q ∧ s.length = 4 * ((x.length + 2) / 3) ∧
      ∃ z, row 6 vs = row 8 (x.map UInt8.toNat) ++ List.replicate z 0 ∧ z < 6 := by
  obtain ⟨s, vs, z, hencode, hwritten, hrow, hz⟩ := encode_spec h
  have hroom := hwritten.room
  have hlen := congrArg List.length hrow
  rw [List.length_append, row_length, row_length, List.length_map, List.length_replicate] at hlen
  refine ⟨s, vs, _, hencode, ⟨hwritten.text, hwritten.sextets, by omega, by omega, ?_⟩, ?_,
    z, hrow, hz⟩
  · have hbytes : 6 * vs.length / 8 * 8 = (row 8 (x.map UInt8.toNat)).length := by
      rw [row_length, List.length_map]
      omega
    rw [hrow, hbytes, List.drop_left]
    exact fun b hb => List.eq_of_mem_replicate hb
  · rw [hwritten.text, List.length_append, List.length_map, List.length_replicate]
    omega

theorem decode_encode (memory : Int → UInt8) (h : x.length ≤ 1024968) :
    ∃ s vs q, base64Encode x = some s ∧ Canonical s vs q ∧
      s.length = 4 * ((x.length + 2) / 3) ∧
      ∀ size, Gives (base64Decode memory s size) x (row 6 vs) := by
  obtain ⟨s, vs, q, hencode, hcanonical, hlen, z, hrow, hz⟩ := encode_canonical h
  refine ⟨s, vs, q, hencode, hcanonical, hlen, ?_⟩
  intro size
  obtain ⟨out, hout⟩ := decode_spec memory hcanonical.sextets q size
  rw [← hcanonical.text] at hout
  obtain ⟨hnats, -⟩ := row_inj (toNat_lt_256 x) (toNat_lt_256 out)
    (by rw [List.length_replicate]; omega) (by rw [bits_length]; exact hout.few)
    (hrow.symm.trans hout.bits)
  have hsame : x = out := List.map_injective_iff.mpr (fun a b => UInt8.toNat_inj.mp) hnats
  exact hsame ▸ hout

theorem encode_decode (memory : Int → UInt8) {vs : List Nat} {q : Nat} (h : Canonical s vs q)
    (hlen : s.length ≤ 1366624) (size : Nat) :
    ∃ out, Gives (base64Decode memory s size) out (row 6 vs) ∧ base64Encode out = some s := by
  obtain ⟨out, hout⟩ := decode_spec memory h.sextets q size
  rw [← h.text] at hout
  have hfew := hout.few
  have hgroups := h.groups
  have hpadding := h.padding
  have hbits := congrArg List.length hout.bits
  rw [List.length_append, row_length, row_length, List.length_map, bits_length] at hbits
  rw [h.text, List.length_append, List.length_map, List.length_replicate] at hlen
  obtain ⟨text, vs', z, hencode, hwritten, hrow, hz⟩ := encode_spec (x := out) (by omega)
  have hrow' := congrArg List.length hrow
  rw [List.length_append, row_length, row_length, List.length_map, List.length_replicate] at hrow'
  have hcount : vs'.length = vs.length := by
    rcases (by omega : q = 0 ∨ q = 1 ∨ q = 2) with rfl | rfl | rfl <;> omega
  have hz' : z = (base64Decode memory s size).bitsCollected := by omega
  have hcollected : bits (base64Decode memory s size).bitsCollected
      (base64Decode memory s size).accumulator = List.replicate z 0 := by
    have hzeros := h.zeros
    have hbytes : 6 * vs.length / 8 * 8 = (row 8 (out.map UInt8.toNat)).length := by
      rw [row_length, List.length_map]
      omega
    rw [hbytes, hout.bits, List.drop_left] at hzeros
    exact List.eq_replicate_iff.mpr ⟨by rw [bits_length, hz'], hzeros⟩
  have hsame : vs' = vs := by
    have hrows : row 6 vs' = row 6 vs := by rw [hrow, hout.bits, hcollected]
    exact row_inj_of_eq hwritten.sextets h.sextets (by decide) hrows
  refine ⟨out, hout, ?_⟩
  have hpad : (out.length + 2) / 3 * 4 - vs.length = q := by omega
  rw [hencode, hwritten.text, hsame, hpad, ← h.text]

end Canonical

/-- Bytes come back from their text, and a canonical text from its bytes. -/
theorem base64_inverse (memory : Int → UInt8) (size : Nat) :
    (∀ x : List UInt8, x.length ≤ 1024968 → ∃ s, base64Encode x = some s ∧
      (∃ vs q, Canonical s vs q) ∧ s.length = 4 * ((x.length + 2) / 3) ∧
      (base64Decode memory s size).index = x.length ∧
      ∀ buffer, x.length ≤ buffer.length →
        (base64Decode memory s size).buffer buffer = x ++ buffer.drop x.length) ∧
    ∀ s vs q, Canonical s vs q → s.length ≤ 1366624 →
      ∀ buffer, (base64Decode memory s size).stores.length ≤ buffer.length →
        base64Encode (((base64Decode memory s size).buffer buffer).take
          (base64Decode memory s size).index.toNat) = some s := by
  constructor
  · intro x hx
    obtain ⟨s, vs, q, hencode, hcanonical, hlen, hgives⟩ := decode_encode memory hx
    have h := hgives size
    refine ⟨s, hencode, ⟨vs, q, hcanonical⟩, hlen, ?_, ?_⟩
    · rw [h.index]
      exact toInt_of_range (by omega) (by omega)
    · intro buffer hbuffer
      exact h.buffer (by omega) hbuffer
  · intro s vs q hs hlen buffer hbuffer
    obtain ⟨out, h, hencode⟩ := encode_decode memory hs hlen size
    have hcount : (base64Decode memory s size).stores.length = out.length := by
      rw [← h.bytes, List.length_map]
    have hbits := congrArg List.length h.bits
    rw [List.length_append, row_length, row_length, List.length_map] at hbits
    rw [hs.text, List.length_append, List.length_map, List.length_replicate] at hlen
    rw [h.buffer (by omega) (by omega), h.index, toInt_of_range (by omega) (by omega),
      Int.toNat_natCast, List.take_left]
    exact hencode

/-- `Man` -/
theorem base64_inverse_man : ∃ s, base64Encode [77, 97, 110] = some s ∧
    (base64Decode (fun _ => 0) s 3).buffer [0, 0, 0] = [77, 97, 110] := by
  obtain ⟨s, hencode, -, -, -, hbuffer⟩ :=
    (base64_inverse (fun _ => 0) 3).1 [77, 97, 110] (by decide)
  exact ⟨s, hencode, hbuffer [0, 0, 0] (by decide)⟩

end Base64RoundTrip
