import Mathlib.Data.List.Basic

/-! # C strings in arrays of a fixed size

An array of characters keeps its size. An access outside of it is `none`, and so is
`strlen` of an array that holds no zero.
-/
namespace SupportCString

/-- The characters of a string up to its zero. -/
structure CString where
  chars : List UInt8
  noZero : 0 ∉ chars
  deriving DecidableEq

def CString.length (s : CString) : Nat := s.chars.length

structure CharArray (n : Nat) where
  bytes : List UInt8
  size : bytes.length = n
  deriving DecidableEq

namespace CharArray

variable {n m : Nat} {a b : CharArray n} {src : List UInt8} {s : CString}

def zeros (n : Nat) : CharArray n := ⟨List.replicate n 0, List.length_replicate⟩

/-- The characters in front of the first zero. -/
def text (a : CharArray n) : List UInt8 := a.bytes.takeWhile (· != 0)

def strlen (a : CharArray n) : Option Nat := if 0 ∈ a.bytes then some a.text.length else none

/-- `memcpy` to the front of the array. -/
def memcpy (a : CharArray n) (src : List UInt8) : Option (CharArray n) :=
  if h : src.length ≤ n then
    some ⟨src ++ a.bytes.drop src.length, by
      rw [List.length_append, List.length_drop, a.size]
      omega⟩
  else none

/-- `a[i] = c`. -/
def put (a : CharArray n) (i : Int) (c : UInt8) : Option (CharArray n) :=
  if 0 ≤ i ∧ i < n then some ⟨a.bytes.set i.toNat c, by rw [List.length_set, a.size]⟩ else none

/-- `strncpy` writes `m` characters, without a zero where the string has as many. -/
def strncpy (a : CharArray n) (s : CString) (m : Nat) : Option (CharArray n) :=
  a.memcpy (s.chars.take m ++ List.replicate (m - s.length) 0)

/-- `vsnprintf` with the formatted text. -/
def vsnprintf (a : CharArray n) (m : Nat) (s : CString) : Option (CharArray n) :=
  if m = 0 then some a else a.memcpy (s.chars.take (m - 1) ++ [0])

/-- `vsnprintf` to the place behind the first `i` characters. -/
def vsnprintfAt (a : CharArray n) (i m : Nat) (s : CString) : Option (CharArray n) :=
  let text := if m = 0 then [] else s.chars.take (m - 1) ++ [0]
  if h : i + text.length ≤ n then
    some ⟨a.bytes.take i ++ text ++ a.bytes.drop (i + text.length), by
      rw [List.length_append, List.length_append, List.length_take, List.length_drop, a.size]
      omega⟩
  else none

theorem bytes_memcpy (h : a.memcpy src = some b) : b.bytes = src ++ a.bytes.drop src.length := by
  unfold memcpy at h
  split at h
  · cases h
    rfl
  · cases h

theorem memcpy_isSome (h : src.length ≤ n) : ∃ b, a.memcpy src = some b :=
  ⟨_, dif_pos h⟩

theorem put_isSome {i : Int} {c : UInt8} (h : 0 ≤ i ∧ i < n) :
    ∃ b, a.put i c = some b ∧ b.bytes = a.bytes.set i.toNat c :=
  ⟨_, if_pos h, rfl⟩

theorem put_eq_none {i : Int} {c : UInt8} (h : ¬ (0 ≤ i ∧ i < n)) : a.put i c = none :=
  if_neg h

/-! ## Text -/

theorem takeWhile_chars {chars rest : List UInt8} (h : 0 ∉ chars) :
    (chars ++ 0 :: rest).takeWhile (· != 0) = chars := by
  rw [List.takeWhile_append_of_pos]
  · simp
  · intro c hc
    rw [bne_iff_ne]
    rintro rfl
    exact h hc

theorem exists_split_at_zero {l : List UInt8} (h : 0 ∈ l) :
    ∃ rest, l = l.takeWhile (· != 0) ++ 0 :: rest := by
  induction l with
  | nil => cases h
  | cons c l ih =>
    by_cases hc : c = 0
    · subst hc
      exact ⟨l, rfl⟩
    · obtain ⟨rest, hrest⟩ := ih ((List.mem_cons.mp h).resolve_left (Ne.symm hc))
      refine ⟨rest, ?_⟩
      have hkeep : (c != 0) = true := bne_iff_ne.mpr hc
      simp only [List.takeWhile_cons, hkeep, if_true, List.cons_append]
      rw [← hrest]

/-- An array that begins with a string and its zero. -/
theorem text_of_bytes {chars rest : List UInt8} (hbytes : a.bytes = chars ++ 0 :: rest)
    (h : 0 ∉ chars) : a.text = chars ∧ a.strlen = some chars.length := by
  have htext : a.text = chars := by
    rw [text, hbytes]
    exact takeWhile_chars h
  refine ⟨htext, ?_⟩
  rw [strlen, htext, if_pos]
  rw [hbytes]
  simp

/-- A text is a string in front of a zero, or fills its array. -/
theorem strlen_eq_some_iff {k : Nat} : a.strlen = some k ↔ 0 ∈ a.bytes ∧ a.text.length = k := by
  unfold strlen
  split
  · next h => simp [h]
  · next h => simp [h]

theorem text_noZero : 0 ∉ a.text := by
  intro h
  have hall := List.all_eq_true.mp (List.all_takeWhile (p := (· != 0)) (l := a.bytes)) 0 h
  cases hall

theorem bytes_of_strlen {k : Nat} (h : a.strlen = some k) :
    ∃ rest, a.bytes = a.text ++ 0 :: rest ∧ a.text.length = k := by
  obtain ⟨hzero, hk⟩ := strlen_eq_some_iff.mp h
  obtain ⟨rest, hrest⟩ := exists_split_at_zero hzero
  exact ⟨rest, hrest, hk⟩

theorem strlen_lt {k : Nat} (h : a.strlen = some k) : k < n := by
  obtain ⟨rest, hbytes, rfl⟩ := bytes_of_strlen h
  have hsize := a.size
  rw [hbytes, List.length_append, List.length_cons] at hsize
  omega

/-- A string that is shorter than the array is copied with a zero behind it. -/
theorem strncpy_short (h : s.length < n) :
    ∃ b, a.strncpy s n = some b ∧ b.text = s.chars ∧ b.strlen = some s.length := by
  have htake : s.chars.take n = s.chars := List.take_of_length_le (Nat.le_of_lt h)
  have hlen : (s.chars ++ List.replicate (n - s.length) 0).length ≤ n := by
    rw [List.length_append, List.length_replicate]
    show s.length + _ ≤ _
    omega
  obtain ⟨b, hb⟩ := memcpy_isSome (a := a) hlen
  refine ⟨b, by rw [strncpy, htake, hb], ?_⟩
  have hbytes := bytes_memcpy hb
  obtain ⟨k, hk⟩ : ∃ k, n - s.length = k + 1 := ⟨n - s.length - 1, by omega⟩
  rw [hk, List.replicate_succ, List.append_assoc, List.cons_append] at hbytes
  exact text_of_bytes hbytes s.noZero

/-- A longer one leaves no room for a zero. -/
theorem strncpy_long (h : n ≤ s.length) :
    ∃ b, a.strncpy s n = some b ∧ b.strlen = none := by
  have hpad : n - s.length = 0 := Nat.sub_eq_zero_of_le h
  have htake : (s.chars.take n).length = n := by
    rw [List.length_take]
    exact Nat.min_eq_left h
  obtain ⟨b, hb⟩ := memcpy_isSome (a := a) (Nat.le_of_eq htake)
  refine ⟨b, by rw [strncpy, hpad, List.replicate_zero, List.append_nil, hb], ?_⟩
  have hbytes : b.bytes = s.chars.take n := by
    rw [bytes_memcpy hb, htake, List.drop_of_length_le (Nat.le_of_eq a.size), List.append_nil]
  rw [strlen, if_neg]
  rw [hbytes]
  exact fun hmem => s.noZero (List.mem_of_mem_take hmem)

theorem strncpy_isSome (a : CharArray n) (s : CString) : ∃ b, a.strncpy s n = some b := by
  rcases Nat.lt_or_ge s.length n with h | h
  · obtain ⟨b, hb, -⟩ := strncpy_short (a := a) h
    exact ⟨b, hb⟩
  · obtain ⟨b, hb, -⟩ := strncpy_long (a := a) h
    exact ⟨b, hb⟩

theorem vsnprintf_spec (hm : m + 1 ≤ n) :
    ∃ b, a.vsnprintf (m + 1) s = some b ∧ b.text = s.chars.take m ∧
      b.strlen = some (s.chars.take m).length := by
  have hlen : (s.chars.take m ++ [0]).length ≤ n := by
    rw [List.length_append, List.length_take, List.length_singleton]
    omega
  obtain ⟨b, hb⟩ := memcpy_isSome (a := a) hlen
  refine ⟨b, hb, ?_⟩
  have hbytes := bytes_memcpy hb
  rw [List.append_assoc, List.singleton_append] at hbytes
  apply text_of_bytes hbytes
  exact fun hmem => s.noZero (List.mem_of_mem_take hmem)

/-- A text that is copied and closed with a zero. -/
theorem memcpy_put (hsrc : 0 ∉ src) (h : src.length < n) :
    ∃ b c, a.memcpy src = some b ∧ b.put src.length 0 = some c ∧ c.text = src ∧
      c.strlen = some src.length := by
  obtain ⟨b, hb⟩ := memcpy_isSome (a := a) (Nat.le_of_lt h)
  obtain ⟨c, hc, hbytes⟩ := put_isSome (a := b) (i := src.length) (c := 0) ⟨by omega, by omega⟩
  refine ⟨b, c, hb, hc, ?_⟩
  rw [bytes_memcpy hb, Int.toNat_natCast, List.set_append_right _ _ (Nat.le_refl _),
    Nat.sub_self, List.drop_eq_getElem_cons (by rw [a.size]; exact h), List.set_cons_zero] at hbytes
  exact text_of_bytes hbytes hsrc

/-! ## Characters one behind the other -/

theorem put_prefix {c : UInt8} (hsrc : src <+: a.bytes) (h : src.length < n) :
    ∃ b, a.put src.length c = some b ∧ src ++ [c] <+: b.bytes := by
  obtain ⟨rest, hrest⟩ := hsrc
  obtain ⟨b, hb, hbytes⟩ := put_isSome (a := a) (i := src.length) (c := c) ⟨by omega, by omega⟩
  refine ⟨b, hb, rest.drop 1, ?_⟩
  have hlen := a.size
  rw [← hrest, List.length_append] at hlen
  rw [hbytes, Int.toNat_natCast, ← hrest, List.set_append_right _ _ (Nat.le_refl _), Nat.sub_self]
  cases rest with
  | nil =>
    rw [List.length_nil] at hlen
    omega
  | cons d rest => rw [List.append_assoc]; rfl

theorem vsnprintfAt_isSome {i : Nat} (h : i + (s.chars.take m ++ [0]).length ≤ n) :
    ∃ b, a.vsnprintfAt i (m + 1) s = some b ∧ b.bytes = a.bytes.take i ++
      (s.chars.take m ++ [0]) ++ a.bytes.drop (i + (s.chars.take m ++ [0]).length) :=
  ⟨_, dif_pos h, rfl⟩

/-- A text that goes on with a formatted one. -/
theorem vsnprintfAt_spec (hsrc : src <+: a.bytes) (hzero : 0 ∉ src) (h : src.length + (m + 1) = n) :
    ∃ b, a.vsnprintfAt src.length (m + 1) s = some b ∧ b.text = src ++ s.chars.take m := by
  have hlen : src.length + (s.chars.take m ++ [0]).length ≤ n := by
    rw [List.length_append, List.length_take, List.length_singleton]
    omega
  obtain ⟨b, hb, hbytes⟩ := vsnprintfAt_isSome (a := a) (s := s) hlen
  refine ⟨b, hb, ?_⟩
  rw [← List.prefix_iff_eq_take.mp hsrc, List.append_assoc, List.append_assoc,
    List.singleton_append, ← List.append_assoc] at hbytes
  refine (text_of_bytes hbytes ?_).1
  rw [List.mem_append]
  rintro (hmem | hmem)
  · exact hzero hmem
  · exact s.noZero (List.mem_of_mem_take hmem)

end CharArray

end SupportCString
