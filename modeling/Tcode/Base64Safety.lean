import Tcode.Base64RoundTrip

/-! # Accesses of the Base64 decoder

Every character that is not skipped is taken, whatever it is, and the size of the buffer is not
looked at. How many bytes are stored and where their bits come from depends on the number of
characters only.
-/
namespace Base64Safety

open SupportMachineInt Base64Codec Base64RoundTrip

variable {memory : Int → UInt8} {d : Decoder} {src text : List UInt8} {size : Nat}

/-- The characters that are not skipped. -/
def taken (src : List UInt8) : List UInt8 := src.filter fun b => ¬ Skipped b

/-- The accesses after characters have been taken. -/
structure Traces (d : Decoder) (text : List UInt8) : Prop where
  index : d.index = toInt d.stores.length
  places : d.stores.map Store.index = (List.range d.stores.length).map fun j : Nat => toInt j
  count : 6 * text.length = 8 * d.stores.length + d.bitsCollected
  few : d.bitsCollected < 8
  origin : text.flatMap (List.replicate 6) = d.stores.flatMap Store.origin ++ d.origin
  collected : d.origin.length = d.bitsCollected
  lookups : ∀ c, c ∈ d.lookups ↔ c ∈ text.map charValue

theorem mem_lookups_step {b : UInt8} (hb : ¬ Skipped b) (c : Int) :
    c ∈ (d.step memory b).lookups ↔ c ∈ d.lookups ∨ c = charValue b := by
  have hrun : ¬ (isspace (charValue b) ∨ charValue b = 61) := hb
  simp only [Decoder.step, if_neg hrun]
  split_ifs <;> simp

theorem traces_step {b : UInt8} (h : Traces d text) (hb : ¬ Skipped b) :
    Traces (d.step memory b) (text ++ [b]) := by
  have hcount := h.count
  have hfew := h.few
  have hlookups : ∀ c, c ∈ (d.step memory b).lookups ↔ c ∈ (text ++ [b]).map charValue := by
    intro c
    rw [mem_lookups_step hb, h.lookups, List.map_append, List.mem_append, List.map_singleton,
      List.mem_singleton]
  have horigin : (text ++ [b]).flatMap (List.replicate 6) =
      d.stores.flatMap Store.origin ++ (d.origin ++ List.replicate 6 b) := by
    rw [List.flatMap_append, h.origin, List.append_assoc, List.flatMap_singleton]
  have hlen : (d.origin ++ List.replicate 6 b).length = d.bitsCollected + 6 := by
    rw [List.length_append, h.collected, List.length_replicate]
  rcases Nat.lt_or_ge d.bitsCollected 2 with hk | hk
  · obtain ⟨hindex, hbits, -, hstores, horigins⟩ := step_collect memory hb hk
    refine ⟨?_, ?_, ?_, by omega, ?_, ?_, hlookups⟩
    · rw [hindex, hstores, h.index]
    · rw [hstores, h.places]
    · rw [hstores, hbits, List.length_append, List.length_singleton]
      omega
    · rw [hstores, horigins, horigin]
    · rw [horigins, hlen, hbits]
  · obtain ⟨k, hk⟩ : ∃ k, d.bitsCollected = k + 2 := ⟨d.bitsCollected - 2, by omega⟩
    obtain ⟨hindex, hbits, -, hstores, horigins⟩ := step_store memory hb hk
    have hmore : (d.step memory b).stores.length = d.stores.length + 1 := by
      rw [hstores, List.length_append, List.length_singleton]
    refine ⟨?_, ?_, ?_, by omega, ?_, ?_, hlookups⟩
    · rw [hindex, h.index, toInt_toInt_add, hmore]
      rfl
    · rw [hmore, hstores, List.map_append]
      exact places_concat h.index h.places
    · rw [hmore, hbits, List.length_append, List.length_singleton]
      omega
    · rw [horigin, hstores, horigins, List.flatMap_append, List.flatMap_singleton,
        List.append_assoc, List.take_append_drop]
    · rw [horigins, List.length_drop, hlen, hbits]
      omega

theorem taken_skipped {b : UInt8} (hb : Skipped b) (src : List UInt8) :
    taken (b :: src) = taken src := List.filter_cons_of_neg (by simpa using hb)

theorem taken_cons {b : UInt8} (hb : ¬ Skipped b) (src : List UInt8) :
    taken (b :: src) = b :: taken src := List.filter_cons_of_pos (by simpa using hb)

/-- Skipped characters make no difference. -/
theorem foldl_taken (d : Decoder) (src : List UInt8) :
    src.foldl (Decoder.step memory) d = (taken src).foldl (Decoder.step memory) d := by
  induction src generalizing d with
  | nil => rfl
  | cons b src ih =>
    by_cases hb : Skipped b
    · rw [List.foldl_cons, step_skipped hb, taken_skipped hb, ih]
    · rw [List.foldl_cons, taken_cons hb, List.foldl_cons, ih]

theorem traces_foldl (memory : Int → UInt8) {rest : List UInt8} (h : Traces d text)
    (hrest : ∀ b ∈ rest, ¬ Skipped b) :
    Traces (rest.foldl (Decoder.step memory) d) (text ++ rest) := by
  induction rest generalizing d text with
  | nil => rwa [List.append_nil]
  | cons b rest ih =>
    rw [List.append_cons]
    exact ih (traces_step h (hrest b List.mem_cons_self))
      fun c hc => hrest c (List.mem_cons_of_mem _ hc)

theorem taken_run (src : List UInt8) : ∀ b ∈ taken src, ¬ Skipped b := by
  intro b hb
  simpa using (List.mem_filter.mp hb).2

theorem traces_start : Traces .start [] :=
  ⟨by decide, rfl, rfl, by decide, rfl, rfl, fun _ => Iff.rfl⟩

theorem traces_decode (memory : Int → UInt8) (src : List UInt8) (size : Nat) :
    Traces (base64Decode memory src size) (taken src) := by
  rw [base64Decode, foldl_taken]
  exact traces_foldl memory traces_start (taken_run src)

/-! ## The exact condition -/

/-- What the decoder may do: store inside the buffer, look up the entries of the table, and take
no bit from a character outside the alphabet. -/
structure Safe (memory : Int → UInt8) (src : List UInt8) (size : Nat) : Prop where
  stores : ∀ s ∈ (base64Decode memory src size).stores, 0 ≤ s.index ∧ s.index < size
  lookups : ∀ c ∈ (base64Decode memory src size).lookups, 0 ≤ c ∧ c ≤ 127
  origins : ∀ s ∈ (base64Decode memory src size).stores, ∀ b ∈ s.origin, b ∈ b64Table
  clean : (base64Decode memory src size).stores =
    (base64Decode memory (src.filter fun b => b ∈ b64Table) size).stores

/-- The characters that are taken for the bytes that they fill; behind whole groups of four a
last one fills none. -/
def used (src : List UInt8) : List UInt8 :=
  (taken src).take (if (taken src).length % 4 = 1 then (taken src).length - 1
    else (taken src).length)

structure Harmless (src : List UInt8) (size : Nat) : Prop where
  room : 6 * (taken src).length / 8 ≤ size
  int : 6 * (taken src).length / 8 ≤ 2147483648
  ascii : ∀ b ∈ taken src, b.toNat < 128
  alphabet : ∀ b ∈ used src, b ∈ b64Table

theorem stores_inside_iff (size : Nat) (h : Traces d text) :
    (∀ s ∈ d.stores, 0 ≤ s.index ∧ s.index < size) ↔
      d.stores.length ≤ size ∧ d.stores.length ≤ 2147483648 := by
  have hplaces : (∀ s ∈ d.stores, 0 ≤ s.index ∧ s.index < size) ↔
      ∀ j : Nat, j < d.stores.length → 0 ≤ toInt j ∧ toInt j < size := by
    rw [← List.forall_mem_map (f := Store.index) (P := fun i : Int => 0 ≤ i ∧ i < size), h.places,
      List.forall_mem_map]
    simp only [List.mem_range]
  rw [hplaces]
  constructor
  · intro hall
    have hint : d.stores.length ≤ 2147483648 := by
      by_contra hlong
      have hwrap : toInt (2147483648 : Nat) = -2147483648 := by decide
      have hneg := (hall 2147483648 (by omega)).1
      omega
    refine ⟨?_, hint⟩
    rcases Nat.eq_zero_or_pos d.stores.length with hzero | hpos
    · omega
    · have hlast := (hall (d.stores.length - 1) (by omega)).2
      rw [toInt_of_range (by omega) (by omega)] at hlast
      omega
  · rintro ⟨hsize, hint⟩ j hj
    rw [toInt_of_range (by omega) (by omega)]
    omega

theorem charValue_range (b : UInt8) : (0 ≤ charValue b ∧ charValue b ≤ 127) ↔ b.toNat < 128 := by
  have := b.toNat_lt
  unfold charValue
  split <;> omega

/-- The characters that the first bits come from. -/
theorem mem_take_flatMap {b : UInt8} {l : List UInt8} {k : Nat} :
    b ∈ (l.flatMap (List.replicate 6)).take k ↔ b ∈ l.take ((k + 5) / 6) := by
  induction l generalizing k with
  | nil => simp
  | cons c l ih =>
    rcases Nat.eq_zero_or_pos k with rfl | hk
    · simp
    · have hsix : (k + 5) / 6 = (k - 6 + 5) / 6 + 1 := by omega
      have hsome : min k 6 ≠ 0 := by omega
      rw [List.flatMap_cons, List.take_append, List.take_replicate, List.length_replicate,
        List.mem_append, List.mem_replicate, ih, hsix, List.take_succ_cons, List.mem_cons]
      simp only [ne_eq, hsome, not_false_eq_true, true_and]

theorem filled_eq (h : Traces d text) : (8 * d.stores.length + 5) / 6 =
    if text.length % 4 = 1 then text.length - 1 else text.length := by
  have hcount := h.count
  have hfew := h.few
  have hrem : text.length % 4 = 0 ∨ text.length % 4 = 1 ∨ text.length % 4 = 2 ∨
      text.length % 4 = 3 := by omega
  rcases hrem with hr | hr | hr | hr <;> split <;> omega

theorem origins_iff (h : Traces d text) : (∀ s ∈ d.stores, ∀ b ∈ s.origin, b ∈ b64Table) ↔
    ∀ b ∈ text.take (if text.length % 4 = 1 then text.length - 1 else text.length),
      b ∈ b64Table := by
  have hcount := h.count
  have hlen := congrArg List.length h.origin
  have hsix : (text.flatMap (List.replicate 6)).length = 6 * text.length := by
    simp [Nat.mul_comm]
  rw [hsix, List.length_append, h.collected] at hlen
  have htake : (text.flatMap (List.replicate 6)).take (8 * d.stores.length) =
      d.stores.flatMap Store.origin := by
    rw [h.origin]
    exact List.take_left' (by omega)
  have hmem : ∀ b, b ∈ text.take ((8 * d.stores.length + 5) / 6) ↔
      ∃ s ∈ d.stores, b ∈ s.origin := by
    intro b
    rw [← mem_take_flatMap, htake, List.mem_flatMap]
  rw [← filled_eq h]
  constructor
  · intro hall b hb
    obtain ⟨s, hs, hin⟩ := (hmem b).mp hb
    exact hall s hs b hin
  · intro hall s hs b hin
    exact hall b ((hmem b).mpr ⟨s, hs, hin⟩)

theorem alphabet_run : ∀ b ∈ b64Table, ¬ Skipped b := by decide +kernel

theorem filter_taken (src : List UInt8) :
    (taken src).filter (fun b => b ∈ b64Table) = src.filter fun b => b ∈ b64Table := by
  rw [taken, List.filter_filter]
  apply List.filter_congr
  intro b _
  have hrun := alphabet_run b
  by_cases hb : b ∈ b64Table <;> simp [hb, hrun]

/-- A last character behind whole groups of four is only collected. -/
theorem stores_last {init : List UInt8} {last : UInt8} (hinit : ∀ b ∈ init, ¬ Skipped b)
    (hlast : ¬ Skipped last) (hgroups : init.length % 4 = 0) :
    ((init ++ [last]).foldl (Decoder.step memory) .start).stores =
      (init.foldl (Decoder.step memory) .start).stores := by
  have h := traces_foldl memory (d := .start) traces_start hinit
  rw [List.nil_append] at h
  have hcount := h.count
  have hfew := h.few
  rw [List.foldl_append, List.foldl_cons, List.foldl_nil]
  exact (step_collect memory hlast (by omega)).2.2.2.1

/-- Without the characters outside the alphabet the same bytes are stored. -/
theorem stores_filter (h : ∀ b ∈ used src, b ∈ b64Table) :
    (base64Decode memory src size).stores =
      (base64Decode memory (src.filter fun b => b ∈ b64Table) size).stores := by
  rw [base64Decode, base64Decode, foldl_taken, ← filter_taken]
  have hrun := taken_run src
  unfold used at h
  generalize taken src = text at h hrun
  by_cases hall : ∀ b ∈ text, b ∈ b64Table
  · rw [List.filter_eq_self.mpr (by simpa using hall)]
  · split at h
    · next hrem =>
      obtain ⟨init, last, rfl⟩ : ∃ init last, text = init ++ [last] := by
        rcases List.eq_nil_or_concat text with rfl | ⟨init, last, rfl⟩
        · cases hrem
        · exact ⟨init, last, by simp⟩
      rw [List.length_append, List.length_singleton] at hrem
      rw [List.length_append, List.length_singleton, Nat.add_sub_cancel, List.take_left] at h
      have hlast : last ∉ b64Table := by
        intro hin
        apply hall
        intro b hb
        rcases List.mem_append.mp hb with hb | hb
        · exact h b hb
        · exact List.mem_singleton.mp hb ▸ hin
      rw [List.filter_append, List.filter_eq_self.mpr (by simpa using h),
        List.filter_singleton, decide_eq_false hlast]
      rw [stores_last (fun b hb => hrun b (List.mem_append_left _ hb)) (hrun last (by simp))
        (by omega)]
      simp
    · rw [List.take_length] at h
      exact absurd h hall

theorem safe_iff_harmless (memory : Int → UInt8) (src : List UInt8) (size : Nat) :
    Safe memory src size ↔ Harmless src size := by
  have h := traces_decode memory src size
  have hcount := h.count
  have hfew := h.few
  have hstores := stores_inside_iff size h
  have horigins := origins_iff h
  have hlookups : (∀ c ∈ (base64Decode memory src size).lookups, 0 ≤ c ∧ c ≤ 127) ↔
      ∀ b ∈ taken src, b.toNat < 128 := by
    simp only [h.lookups, List.forall_mem_map, charValue_range]
  constructor
  · intro hsafe
    obtain ⟨hsize, hint⟩ := hstores.mp hsafe.stores
    exact ⟨by omega, by omega, hlookups.mp hsafe.lookups, horigins.mp hsafe.origins⟩
  · intro hharmless
    have hroom := hharmless.room
    have hint := hharmless.int
    exact ⟨hstores.mpr ⟨by omega, by omega⟩, hlookups.mpr hharmless.ascii,
      horigins.mpr hharmless.alphabet, stores_filter hharmless.alphabet⟩

/-- Four characters for two bytes, a character above 127, and one outside the alphabet. -/
theorem not_safe_three_texts :
    ¬ Safe (fun _ => 0) [65, 65, 65, 65] 2 ∧ ¬ Safe (fun _ => 0) [195] 16 ∧
      ¬ Safe (fun _ => 0) [33, 65] 16 := by
  refine ⟨?_, ?_, ?_⟩
  · intro h
    exact absurd h.stores (by decide +kernel)
  · intro h
    exact absurd h.lookups (by decide +kernel)
  · intro h
    exact absurd h.origins (by decide +kernel)

end Base64Safety
