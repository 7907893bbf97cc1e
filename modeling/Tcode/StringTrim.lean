import Tcode.SupportStringSearch

/-! # Trimming

`ltrim`, `rtrim` and `trim` of `tcode::string`. Where the searches find no character to keep, the
string versions return the message as it is, and `rtrim` in place goes on in front of it.
-/
namespace StringTrim

open SupportStringSearch

/-! ## Strings -/

section Strings

variable {α : Type*} [DecidableEq α] {msg trimStr : List α}

def ltrim (msg trimStr : List α) : List α :=
  match findFirstNotOf msg trimStr 0 with
  | some start => substr msg start (msg.length - start)
  | none => msg

def rtrim (msg trimStr : List α) : List α :=
  match findLastNotOf msg trimStr with
  | some e => substr msg 0 (e + 1)
  | none => msg

/-- `trim` erases from `msg` itself: first its end, then its beginning. -/
def trim (msg trimStr : List α) : List α :=
  let msg := match findLastNotOf msg trimStr with
    | some pos => msg.take (pos + 1)
    | none => msg
  match findFirstNotOf msg trimStr 0 with
  | some pos => msg.drop pos
  | none => msg

theorem trim_eq (msg trimStr : List α) : trim msg trimStr = ltrim (rtrim msg trimStr) trimStr := by
  unfold trim ltrim rtrim substr
  simp only [List.drop_zero]
  generalize (match findLastNotOf msg trimStr with
    | some e => msg.take (e + 1)
    | none => msg) = kept
  cases findFirstNotOf kept trimStr 0 with
  | none => rfl
  | some start =>
    refine (List.take_of_length_le ?_).symm
    exact (List.length_drop (i := start) (l := kept)).le

/-- The message without the trim characters at its beginning, or at its end. -/
def stripLeft (msg trimStr : List α) : List α := msg.dropWhile fun c => c ∈ trimStr

def stripRight (msg trimStr : List α) : List α := msg.rdropWhile fun c => c ∈ trimStr

theorem findFirstNotOf_eq_none :
    findFirstNotOf msg trimStr 0 = none ↔ ∀ c ∈ msg, c ∈ trimStr := by
  simp [findFirstNotOf, findFrom, List.findIdx?_eq_none_iff]

theorem findLastNotOf_eq_none : findLastNotOf msg trimStr = none ↔ ∀ c ∈ msg, c ∈ trimStr := by
  simp [findLastNotOf, findLast, List.findIdx?_eq_none_iff]

theorem ltrim_of_blank (h : ∀ c ∈ msg, c ∈ trimStr) : ltrim msg trimStr = msg := by
  rw [ltrim, findFirstNotOf_eq_none.mpr h]

theorem rtrim_of_blank (h : ∀ c ∈ msg, c ∈ trimStr) : rtrim msg trimStr = msg := by
  rw [rtrim, findLastNotOf_eq_none.mpr h]

theorem ltrim_of_kept (h : ∃ c ∈ msg, c ∉ trimStr) : ltrim msg trimStr = stripLeft msg trimStr := by
  have hstrip := dropWhile_of_findFrom (p := fun c => decide (c ∉ trimStr)) (s := msg)
  simp only [decide_not, Bool.not_not] at hstrip
  cases hfind : findFirstNotOf msg trimStr 0 with
  | none =>
    obtain ⟨c, hc, hnot⟩ := h
    exact absurd (findFirstNotOf_eq_none.mp hfind c hc) hnot
  | some start =>
    simp only [findFirstNotOf, decide_not] at hfind
    rw [stripLeft, hstrip, hfind, ltrim, findFirstNotOf]
    simp only [decide_not, hfind, substr]
    exact List.take_of_length_le (List.length_drop (i := start) (l := msg)).le

theorem rtrim_of_kept (h : ∃ c ∈ msg, c ∉ trimStr) :
    rtrim msg trimStr = stripRight msg trimStr := by
  have hstrip := rdropWhile_of_findLast (p := fun c => decide (c ∉ trimStr)) (s := msg)
  simp only [decide_not, Bool.not_not] at hstrip
  cases hfind : findLastNotOf msg trimStr with
  | none =>
    obtain ⟨c, hc, hnot⟩ := h
    exact absurd (findLastNotOf_eq_none.mp hfind c hc) hnot
  | some e =>
    simp only [findLastNotOf, decide_not] at hfind
    rw [stripRight, hstrip, hfind, rtrim, findLastNotOf]
    simp only [decide_not, hfind, substr, List.drop_zero]

theorem stripLeft_start {c : α} (h : (stripLeft msg trimStr).head? = some c) : c ∉ trimStr := by
  have hhead := List.head?_dropWhile_not (fun c => decide (c ∈ trimStr)) msg
  rw [stripLeft] at h
  rw [h] at hhead
  simpa using hhead

theorem stripRight_end {c : α} (h : (stripRight msg trimStr).getLast? = some c) :
    c ∉ trimStr := by
  unfold stripRight at h
  obtain ⟨front, hfront⟩ := List.getLast?_eq_some_iff.mp h
  have hne : msg.rdropWhile (fun c => c ∈ trimStr) ≠ [] := by
    rw [hfront]
    simp
  have hlast := List.rdropWhile_last_not (fun c => decide (c ∈ trimStr)) msg hne
  rw [List.getLast?_eq_some_getLast hne, Option.some_inj] at h
  simpa [h] using hlast

theorem stripRight_of_end (h : ∀ c, msg.getLast? = some c → c ∉ trimStr) :
    stripRight msg trimStr = msg := by
  refine List.rdropWhile_eq_self_iff.mpr ?_
  intro hne
  simpa using h _ (List.getLast?_eq_some_getLast hne)

omit [DecidableEq α] in
theorem getLast?_of_suffix {out : List α} {c : α} (h : out <:+ msg) (hc : out.getLast? = some c) :
    msg.getLast? = some c := by
  obtain ⟨front, rfl⟩ := List.getLast?_eq_some_iff.mp hc
  obtain ⟨before, rfl⟩ := h
  exact List.getLast?_eq_some_iff.mpr ⟨before ++ front, (List.append_assoc _ _ _).symm⟩

/-- What is left behind the beginning ends as it did. -/
theorem strip_end {c : α}
    (h : (stripLeft (stripRight msg trimStr) trimStr).getLast? = some c) : c ∉ trimStr :=
  stripRight_end (getLast?_of_suffix (List.dropWhile_suffix _) h)

theorem stripLeft_idem : stripLeft (stripLeft msg trimStr) trimStr = stripLeft msg trimStr :=
  List.dropWhile_idempotent _ _

theorem stripRight_idem : stripRight (stripRight msg trimStr) trimStr = stripRight msg trimStr :=
  List.rdropWhile_idempotent _ _

theorem stripLeft_eq_nil : stripLeft msg trimStr = [] ↔ ∀ c ∈ msg, c ∈ trimStr := by
  simp [stripLeft, List.dropWhile_eq_nil_iff]

theorem stripRight_eq_nil : stripRight msg trimStr = [] ↔ ∀ c ∈ msg, c ∈ trimStr := by
  simp [stripRight, List.rdropWhile_eq_nil_iff]

theorem kept_stripLeft (h : ∃ c ∈ msg, c ∉ trimStr) :
    ∃ c ∈ stripLeft msg trimStr, c ∉ trimStr := by
  cases hstrip : stripLeft msg trimStr with
  | nil =>
    obtain ⟨c, hc, hnot⟩ := h
    exact absurd (stripLeft_eq_nil.mp hstrip c hc) hnot
  | cons c out =>
    have hhead : (stripLeft msg trimStr).head? = some c := by
      rw [hstrip]
      rfl
    exact ⟨c, List.mem_cons_self, stripLeft_start hhead⟩

theorem kept_stripRight (h : ∃ c ∈ msg, c ∉ trimStr) :
    ∃ c ∈ stripRight msg trimStr, c ∉ trimStr := by
  have hne : stripRight msg trimStr ≠ [] := by
    intro hnil
    obtain ⟨c, hc, hnot⟩ := h
    exact hnot (stripRight_eq_nil.mp hnil c hc)
  have hlast := List.getLast?_eq_some_getLast hne
  exact ⟨_, List.getLast_mem hne, stripRight_end hlast⟩

theorem trim_of_kept (h : ∃ c ∈ msg, c ∉ trimStr) :
    trim msg trimStr = stripLeft (stripRight msg trimStr) trimStr := by
  rw [trim_eq, rtrim_of_kept h, ltrim_of_kept (kept_stripRight h)]

theorem trim_of_blank (h : ∀ c ∈ msg, c ∈ trimStr) : trim msg trimStr = msg := by
  rw [trim_eq, rtrim_of_blank h, ltrim_of_blank h]

theorem trim_twice (h : ∃ c ∈ msg, c ∉ trimStr) :
    trim (trim msg trimStr) trimStr = trim msg trimStr := by
  have hkept := kept_stripLeft (kept_stripRight h)
  rw [trim_of_kept h, trim_of_kept hkept, stripRight_of_end fun _ => strip_end, stripLeft_idem]

/-- What the string versions promise for a message. -/
structure TrimsString (msg trimStr : List α) : Prop where
  left : ltrim msg trimStr = stripLeft msg trimStr
  right : rtrim msg trimStr = stripRight msg trimStr
  both : trim msg trimStr = stripLeft (stripRight msg trimStr) trimStr
  start : ∀ out ∈ [ltrim msg trimStr, trim msg trimStr], ∀ c, out.head? = some c → c ∉ trimStr
  ending : ∀ out ∈ [rtrim msg trimStr, trim msg trimStr], ∀ c, out.getLast? = some c → c ∉ trimStr
  blank : (∀ c ∈ msg, c ∈ trimStr) →
    ltrim msg trimStr = [] ∧ rtrim msg trimStr = [] ∧ trim msg trimStr = []
  inOrder : trim msg trimStr = ltrim (rtrim msg trimStr) trimStr
  leftTwice : ltrim (ltrim msg trimStr) trimStr = ltrim msg trimStr
  rightTwice : rtrim (rtrim msg trimStr) trimStr = rtrim msg trimStr
  bothTwice : trim (trim msg trimStr) trimStr = trim msg trimStr

theorem trimsString_of_kept (h : ∃ c ∈ msg, c ∉ trimStr) : TrimsString msg trimStr where
  left := ltrim_of_kept h
  right := rtrim_of_kept h
  both := trim_of_kept h
  start := by
    intro out hout c hc
    rw [ltrim_of_kept h, trim_of_kept h, List.mem_pair] at hout
    rcases hout with rfl | rfl <;> exact stripLeft_start hc
  ending := by
    intro out hout c hc
    rw [rtrim_of_kept h, trim_of_kept h, List.mem_pair] at hout
    rcases hout with rfl | rfl
    · exact stripRight_end hc
    · exact strip_end hc
  blank := by
    intro hblank
    obtain ⟨c, hc, hnot⟩ := h
    exact absurd (hblank c hc) hnot
  inOrder := trim_eq msg trimStr
  leftTwice := by rw [ltrim_of_kept h, ltrim_of_kept (kept_stripLeft h), stripLeft_idem]
  rightTwice := by rw [rtrim_of_kept h, rtrim_of_kept (kept_stripRight h), stripRight_idem]
  bothTwice := trim_twice h

theorem trimsString_nil (trimStr : List α) : TrimsString [] trimStr where
  left := rfl
  right := rfl
  both := rfl
  start := by
    intro out hout c hc
    rcases List.mem_pair.mp hout with rfl | rfl <;> cases hc
  ending := by
    intro out hout c hc
    rcases List.mem_pair.mp hout with rfl | rfl <;> cases hc
  blank := fun _ => ⟨rfl, rfl, rfl⟩
  inOrder := rfl
  leftTwice := rfl
  rightTwice := rfl
  bothTwice := rfl

/-- A message of trim characters only is not trimmed at all. -/
theorem trimsString_iff : TrimsString msg trimStr ↔ msg = [] ∨ ∃ c ∈ msg, c ∉ trimStr := by
  constructor
  · intro h
    by_cases hblank : ∀ c ∈ msg, c ∈ trimStr
    · have hleft := h.left
      rw [ltrim_of_blank hblank, stripLeft_eq_nil.mpr hblank] at hleft
      exact Or.inl hleft
    · push Not at hblank
      exact Or.inr hblank
  · rintro (rfl | hkept)
    · exact trimsString_nil trimStr
    · exact trimsString_of_kept hkept

end Strings

/-! ## In place -/

section Pointers

variable {α : Type*} [DecidableEq α] {nul ch c : α} {cells cells' : List α} {i : Nat}

/-- A string in front of its terminator. -/
structure Terminated (nul : α) where
  chars : List α
  noNul : nul ∉ chars

/-- The string and its terminator; an access to any other place is `none`. -/
def Terminated.block (s : Terminated nul) : List α := s.chars ++ [nul]

/-- `strlen` or `wcslen`. -/
def strlen (nul : α) (cells : List α) : Option Nat :=
  if nul ∈ cells then some (cells.takeWhile (· ≠ nul)).length else none

/-- The string in the cells. -/
def text (nul : α) (cells : List α) : Option (List α) := (strlen nul cells).map cells.take

def put (cells : List α) (i : Nat) (c : α) : Option (List α) :=
  if i < cells.length then some (cells.set i c) else none

omit [DecidableEq α] in
theorem length_put (h : put cells i c = some cells') : cells'.length = cells.length := by
  unfold put at h
  split at h
  · cases h
    exact List.length_set
  · cases h

omit [DecidableEq α] in
theorem lt_of_read (h : cells[i]? = some c) : i < cells.length :=
  (List.getElem?_eq_some_iff.mp h).1

/-- `while ( *ltrimStart == ch ) ++ltrimStart;` -/
def skip (ch : α) (cells : List α) (ltrimStart : Nat) : Option Nat :=
  match _h : cells[ltrimStart]? with
  | none => none
  | some c => if c = ch then skip ch cells (ltrimStart + 1) else some ltrimStart
termination_by cells.length - ltrimStart
decreasing_by
  have hlt := lt_of_read _h
  omega

/-- `while ( *ltrimStart ) *(start++) = *(ltrimStart++);` -/
def copy (nul : α) (cells : List α) (start ltrimStart : Nat) : Option (List α × Nat) :=
  match _h : cells[ltrimStart]? with
  | none => none
  | some c =>
    if c = nul then some (cells, start)
    else
      match _hput : put cells start c with
      | none => none
      | some cells' => copy nul cells' (start + 1) (ltrimStart + 1)
termination_by cells.length - ltrimStart
decreasing_by
  have hlt := lt_of_read _h
  have hlen := length_put _hput
  omega

/-- `ltrim( message , ch )`. -/
def ltrimPtr (nul ch : α) (message : Option (List α)) : Option (Option (List α)) :=
  match message with
  | none => some none
  | some cells =>
    match skip ch cells 0 with
    | none => none
    | some ltrimStart =>
      if ltrimStart = 0 then some (some cells)
      else
        match copy nul cells 0 ltrimStart with
        | none => none
        | some (cells, start) => (put cells start nul).map some

/-- `while ( *(--rtrimEnd) == ch );` -/
def back (ch : α) (cells : List α) : Nat → Option Nat
  | 0 => none
  | rtrimEnd + 1 =>
    match cells[rtrimEnd]? with
    | none => none
    | some c => if c = ch then back ch cells rtrimEnd else some rtrimEnd

/-- `rtrim( message , ch )`. -/
def rtrimPtr (nul ch : α) (message : Option (List α)) : Option (Option (List α)) :=
  match message with
  | none => some none
  | some cells =>
    match strlen nul cells with
    | none => none
    | some len =>
      match back ch cells len with
      | none => none
      | some rtrimEnd => (put cells (rtrimEnd + 1) nul).map some

/-- The call stays within the string and leaves `result` there. -/
def Leaves (call : Option (List α) → Option (Option (List α))) (s : Terminated nul)
    (result : List α) : Prop :=
  ∃ cells, call (some s.block) = some (some cells) ∧ text nul cells = some result

/-- What the versions for pointers promise for a string. -/
structure TrimsInPlace (nul ch : α) (s : Terminated nul) : Prop where
  left : Leaves (ltrimPtr nul ch) s (stripLeft s.chars [ch])
  right : Leaves (rtrimPtr nul ch) s (stripRight s.chars [ch])
  leftTwice : ∀ t : Terminated nul, t.chars = stripLeft s.chars [ch] →
    Leaves (ltrimPtr nul ch) t t.chars
  rightTwice : ∀ t : Terminated nul, t.chars = stripRight s.chars [ch] →
    Leaves (rtrimPtr nul ch) t t.chars

theorem strlen_append {out junk : List α} (h : nul ∉ out) :
    strlen nul (out ++ nul :: junk) = some out.length := by
  have htake : (out ++ nul :: junk).takeWhile (fun c => decide (c ≠ nul)) = out := by
    rw [List.takeWhile_append_of_pos]
    · simp
    · intro c hc
      exact decide_eq_true fun heq => h (heq ▸ hc)
  rw [strlen, if_pos (List.mem_append_right out List.mem_cons_self), htake]

theorem text_append {out : List α} (junk : List α) (h : nul ∉ out) :
    text nul (out ++ nul :: junk) = some out := by
  rw [text, strlen_append h, Option.map_some, List.take_left]

theorem skip_read (h : cells[i]? = some c) :
    skip ch cells i = if c = ch then skip ch cells (i + 1) else some i := by
  rw [skip]
  split
  · next hnone => cases hnone.symm.trans h
  · next d hd =>
    cases hd.symm.trans h
    rfl

theorem copy_read {start : Nat} (h : cells[i]? = some c) (hc : c ≠ nul)
    (hput : put cells start c = some cells') :
    copy nul cells start i = copy nul cells' (start + 1) (i + 1) := by
  rw [copy]
  split
  · next hnone => cases hnone.symm.trans h
  · next d hd =>
    cases hd.symm.trans h
    rw [if_neg hc]
    split
    · next hfail => cases hfail.symm.trans hput
    · next after hafter =>
      cases hafter.symm.trans hput
      rfl

theorem copy_end {start : Nat} (h : cells[i]? = some nul) :
    copy nul cells start i = some (cells, start) := by
  rw [copy]
  split
  · next hnone => cases hnone.symm.trans h
  · next d hd =>
    cases hd.symm.trans h
    exact if_pos rfl

theorem skip_spec (hch : ch ≠ nul) (done rest : List α) :
    skip ch (done ++ rest ++ [nul]) done.length =
      some (done.length + (rest.takeWhile fun c => c ∈ [ch]).length) := by
  induction rest generalizing done with
  | nil =>
    have hread : (done ++ [] ++ [nul])[done.length]? = some nul := by simp
    rw [skip_read hread, if_neg hch.symm]
    rfl
  | cons d rest ih =>
    have hread : (done ++ d :: rest ++ [nul])[done.length]? = some d := by simp
    rw [skip_read hread]
    split
    · next heq =>
      have hnext := ih (done ++ [d])
      rw [List.append_assoc done [d], List.length_append] at hnext
      rw [List.takeWhile_cons_of_pos (by simpa using heq), List.length_cons]
      refine hnext.trans ?_
      rw [List.length_singleton, Nat.add_assoc, Nat.add_comm 1]
    · next hne =>
      rw [List.takeWhile_cons_of_neg (by simpa using hne)]
      rfl

/-- The rest moves to the front, over the gap. -/
theorem copy_spec (done gap rest : List α) (hgap : gap ≠ []) (hrest : nul ∉ rest) :
    ∃ junk, junk ≠ [] ∧ copy nul (done ++ gap ++ rest ++ [nul]) done.length
        (done.length + gap.length) =
      some (done ++ rest ++ junk ++ [nul], (done ++ rest).length) := by
  induction rest generalizing done gap with
  | nil =>
    have hread : (done ++ gap ++ [] ++ [nul])[done.length + gap.length]? = some nul := by
      rw [List.append_nil, ← List.length_append]
      simp
    refine ⟨gap, hgap, ?_⟩
    rw [copy_end hread]
    simp only [List.append_nil]
  | cons d rest ih =>
    obtain ⟨g, gap, rfl⟩ := List.exists_cons_of_ne_nil hgap
    have hd := List.ne_of_not_mem_cons hrest
    have htail := List.not_mem_of_not_mem_cons hrest
    have hread : (done ++ g :: gap ++ d :: rest ++ [nul])[done.length + (g :: gap).length]? =
        some d := by
      rw [← List.length_append]
      simp
    have hput : put (done ++ g :: gap ++ d :: rest ++ [nul]) done.length d =
        some (done ++ [d] ++ (gap ++ [d]) ++ rest ++ [nul]) := by
      rw [put, if_pos (by simp)]
      simp
    obtain ⟨junk, hjunk, hcopy⟩ := ih (done ++ [d]) (gap ++ [d]) (by simp) htail
    refine ⟨junk, hjunk, ?_⟩
    rw [copy_read hread (Ne.symm hd) hput]
    simp only [List.length_append, List.length_cons, List.length_nil, Nat.zero_add,
      List.append_assoc, List.cons_append, List.nil_append] at hcopy ⊢
    rw [← hcopy]
    congr 1
    omega

theorem ltrimPtr_leaves (hch : ch ≠ nul) (s : Terminated nul) :
    Leaves (ltrimPtr nul ch) s (stripLeft s.chars [ch]) := by
  have hskip := skip_spec hch [] s.chars
  have hsplit : s.chars.takeWhile (fun c => c ∈ [ch]) ++ stripLeft s.chars [ch] = s.chars :=
    List.takeWhile_append_dropWhile
  simp only [List.nil_append, List.length_nil, Nat.zero_add] at hskip
  have hnul : nul ∉ stripLeft s.chars [ch] :=
    fun h => s.noNul ((List.dropWhile_suffix _).subset h)
  generalize stripLeft s.chars [ch] = out at hsplit hnul ⊢
  cases hgap : s.chars.takeWhile (fun c => decide (c ∈ [ch])) with
  | nil =>
    rw [hgap] at hskip hsplit
    refine ⟨s.block, ?_, ?_⟩
    · simp only [ltrimPtr, Terminated.block, hskip, List.length_nil, if_true]
    · rw [Terminated.block, ← hsplit]
      exact text_append [] hnul
  | cons g gap =>
    rw [hgap] at hskip hsplit
    obtain ⟨junk, hjunk, hcopy⟩ := copy_spec [] (g :: gap) out (List.cons_ne_nil g gap) hnul
    obtain ⟨j, junk, rfl⟩ := List.exists_cons_of_ne_nil hjunk
    simp only [List.nil_append, List.length_nil, Nat.zero_add, hsplit] at hcopy
    have hput : put (out ++ j :: junk ++ [nul]) out.length nul =
        some (out ++ nul :: (junk ++ [nul])) := by
      rw [put, if_pos (by simp)]
      simp
    refine ⟨_, ?_, text_append (junk ++ [nul]) hnul⟩
    simp only [ltrimPtr, Terminated.block, hskip, List.length_cons, Nat.add_one_ne_zero, if_false]
    rw [List.length_cons] at hcopy
    rw [hcopy]
    simp only [hput, Option.map_some]

theorem back_spec (ch : α) (str junk : List α) : back ch (str ++ junk) str.length =
    if stripRight str [ch] = [] then none else some ((stripRight str [ch]).length - 1) := by
  induction str using List.reverseRecOn generalizing junk with
  | nil => rfl
  | append_singleton str d ih =>
    have hread : (str ++ [d] ++ junk)[str.length]? = some d := by simp
    rw [List.length_append, List.length_singleton, back, hread]
    dsimp only
    split
    · next heq =>
      have hstrip : stripRight (str ++ [d]) [ch] = stripRight str [ch] :=
        List.rdropWhile_concat_pos _ _ _ (by simpa using heq)
      rw [hstrip, List.append_assoc, ih]
    · next hne =>
      have hstrip : stripRight (str ++ [d]) [ch] = str ++ [d] :=
        List.rdropWhile_concat_neg _ _ _ (by simpa using hne)
      rw [hstrip, if_neg (by simp)]
      simp

theorem rtrimPtr_eq (ch : α) (s : Terminated nul) : rtrimPtr nul ch (some s.block) =
    if stripRight s.chars [ch] = [] then none
    else (put s.block (stripRight s.chars [ch]).length nul).map some := by
  have hlen : strlen nul s.block = some s.chars.length := strlen_append s.noNul
  have hback := back_spec ch s.chars [nul]
  rw [← Terminated.block] at hback
  simp only [rtrimPtr, hlen, hback]
  by_cases hnil : stripRight s.chars [ch] = []
  · rw [if_pos hnil, if_pos hnil]
  · rw [if_neg hnil, if_neg hnil]
    dsimp only
    rw [Nat.sub_add_cancel (List.length_pos_iff.mpr hnil)]

theorem rtrimPtr_leaves (s : Terminated nul) (h : stripRight s.chars [ch] ≠ []) :
    Leaves (rtrimPtr nul ch) s (stripRight s.chars [ch]) := by
  have hprefix : stripRight s.chars [ch] <+: s.chars := List.rdropWhile_prefix _ s.chars
  have hrun := rtrimPtr_eq ch s
  rw [if_neg h] at hrun
  obtain ⟨more, hmore⟩ := hprefix
  have hnul : nul ∉ stripRight s.chars [ch] :=
    fun h => s.noNul (hmore ▸ List.mem_append_left more h)
  generalize stripRight s.chars [ch] = out at hmore hnul hrun ⊢
  obtain ⟨c, rest, hrest⟩ : ∃ c rest, more ++ [nul] = c :: rest :=
    List.exists_cons_of_ne_nil (by simp)
  have hblock : s.block = out ++ c :: rest := by
    rw [Terminated.block, ← hmore, List.append_assoc, hrest]
  have hput : put s.block out.length nul = some (out ++ nul :: rest) := by
    rw [hblock, put, if_pos (by simp)]
    simp
  refine ⟨out ++ nul :: rest, ?_, text_append rest hnul⟩
  rw [hrun, hput]
  rfl

/-- A string of trim characters only, or an empty one, is read in front of its beginning. -/
theorem trimsInPlace_iff (hch : ch ≠ nul) (s : Terminated nul) :
    TrimsInPlace nul ch s ↔ ∃ c ∈ s.chars, c ≠ ch := by
  constructor
  · rintro ⟨-, ⟨cells, hcells, -⟩, -, -⟩
    by_contra hblank
    push Not at hblank
    have hnil : stripRight s.chars [ch] = [] := by
      rw [stripRight_eq_nil]
      simpa using hblank
    rw [rtrimPtr_eq, if_pos hnil] at hcells
    cases hcells
  · intro hkept
    have hkept' : ∃ c ∈ s.chars, c ∉ [ch] := by simpa using hkept
    have hne : stripRight s.chars [ch] ≠ [] := by
      obtain ⟨c, hc, -⟩ := kept_stripRight hkept'
      exact List.ne_nil_of_mem hc
    refine ⟨ltrimPtr_leaves hch s, rtrimPtr_leaves s hne, ?_, ?_⟩
    · intro t ht
      have hleaves := ltrimPtr_leaves hch t
      rwa [ht, stripLeft_idem, ← ht] at hleaves
    · intro t ht
      have hagain : stripRight t.chars [ch] = t.chars := by
        rw [ht, stripRight_idem]
      have hne' : stripRight t.chars [ch] ≠ [] := by rwa [hagain, ht]
      have hleaves := rtrimPtr_leaves t hne'
      rwa [hagain] at hleaves

end Pointers

/-! ## All versions -/

section Versions

variable {α : Type*} [DecidableEq α] {nul ch : α}

/-- All versions trim: the string versions `msg`, and those for pointers `s`. -/
def Trims (msg trimStr : List α) (s : Terminated nul) (ch : α) : Prop :=
  TrimsString msg trimStr ∧ TrimsInPlace nul ch s

theorem trims_iff (msg trimStr : List α) (s : Terminated nul) (hch : ch ≠ nul) :
    Trims msg trimStr s ch ↔
      (msg = [] ∨ ∃ c ∈ msg, c ∉ trimStr) ∧ ∃ c ∈ s.chars, c ≠ ch :=
  and_congr trimsString_iff (trimsInPlace_iff hch s)

end Versions

/-- Blanks around an `a`. -/
def blanks : Terminated (0 : UInt8) := ⟨[32, 97, 32], by decide⟩

theorem empty_noNul : (0 : UInt8) ∉ ([] : List UInt8) := List.not_mem_nil

def empty : Terminated (0 : UInt8) := ⟨[], empty_noNul⟩

theorem trims_blanks : Trims [32, 97, 32] [32] blanks 32 :=
  (trims_iff [32, 97, 32] [32] blanks (by decide)).mpr (by decide)

/-- A blank is not trimmed, and in place an empty string is read in front of its beginning. -/
theorem not_trims : ¬ TrimsString ([32] : List UInt8) [32] ∧ ltrim ([32] : List UInt8) [32] = [32] ∧
    ¬ TrimsInPlace (0 : UInt8) 32 empty ∧ rtrimPtr (0 : UInt8) 32 (some empty.block) = none ∧
    ¬ Trims ([32] : List UInt8) [32] empty 32 := by
  have hstring : ¬ TrimsString ([32] : List UInt8) [32] := fun h => absurd h.left (by decide)
  refine ⟨hstring, by decide, ?_, by decide, fun h => hstring h.1⟩
  rintro ⟨-, ⟨cells, hcells, -⟩, -, -⟩
  cases hcells

end StringTrim
