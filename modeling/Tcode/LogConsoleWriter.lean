import Tcode.LogDumpReading
import Tcode.LogFormatter
import Tcode.SupportTransitionSystem
import Mathlib.Data.List.TakeWhile
import Mathlib.Logic.Function.Basic

/-! # The logger and its console writers

A call of `logger::write` or of `logger::write_dump` makes a record without a lock and hands it to
the writers under `_lock`. A console writer prints a line as a C string, so that it reads the
memory of its buffer up to a zero, also behind the write position.
-/
namespace LogConsoleWriter

open SupportMachineInt SupportCString SupportFixedWidth SupportTransitionSystem
open BufferByteBuffer BufferByteBuffer.ByteBuffer TimeCalendar
open LogRecord LogDump LogDumpReading LogRetention LogFormatter

structure Dump where
  buffer : List UInt8
  sz : Int
  within : sz ≤ buffer.length

/-- A call of `write`, or of `write_dump` where it has a dump, with what the memory of the record
holds before, what the clock reads and what `pthread_self` returns. -/
structure Call where
  raw : Record
  now : Int64
  tid : UInt64
  type : UInt32
  tag : CString
  file : CString
  function : CString
  line : Int32
  dump : Option Dump
  msg : CString

/-- The record that `logger::write` writes, if it does, for a logger of `type`. -/
def write (type : UInt32) (raw : Record) (now : Int64) (tid : UInt64) (t : UInt32)
    (tag file function : CString) (line : Int32) (msg : CString) : Option (Option Record) :=
  if !enabled type t then some none
  else do
    let r ← record raw now tid t tag file function line
    let r ← r.setMessage msg
    return some r

def Call.record (type : UInt32) (c : Call) : Option (Option Record) :=
  match c.dump with
  | none => write type c.raw c.now c.tid c.type c.tag c.file c.function c.line c.msg
  | some d =>
    writeDump type c.raw c.now c.tid c.type c.tag c.file c.function c.line d.buffer d.sz c.msg

/-- `\033[%dm` -/
def escape (code : Int) : Text := [27, 91] ++ number code ++ [109]

/-- `FG_YELLOW`, `FG_CYAN`, `FG_GREEN`, `FG_BLUE`, `FG_RED`, `FG_MAGENTA` -/
def colors : List (UInt32 × Int) := [(1, 33), (2, 36), (4, 32), (8, 34), (16, 31), (32, 35)]

/-- A type without a case in the `switch` prints nothing. -/
def color (t : UInt32) : Text := (colors.find? fun p => t = p.1).elim [] fun p => escape p.2

/-- What a stream prints for `(char*)_buffer.rd_ptr()`. -/
def cString (b : ByteBuffer) : Option Text := do
  let bytes ← b.fromReadPosition
  if 0 ∈ bytes then return bytes.takeWhile (· != 0) else none

/-- `console_writer::write`, which ends with `FG_DEFAULT`. -/
def consoleWrite (b : ByteBuffer) (r : Record) (out : Text) : Option (ByteBuffer × Text) := do
  let b ← format r b.clear
  let line ← cString b
  return (b.clear, out ++ (color r.type ++ line ++ escape 39))

/-- The loop of `logger::write` over the writers, of which one may be there more than once. -/
def writeAll (r : Record) : List Nat → (Nat → ByteBuffer) → Text →
    Option ((Nat → ByteBuffer) × Text)
  | [], buffer, out => some (buffer, out)
  | w :: ws, buffer, out => do
    let (b, out) ← consoleWrite (buffer w) r out
    writeAll r ws (Function.update buffer w b) out

/-- `waiting` has the calls whose record is made and not written yet. Behind it stand the calls
that have made a record, and those whose record is written, with the number of the writers. -/
structure State where
  type : UInt32
  writers : List Nat
  buffer : Nat → ByteBuffer
  out : Text
  waiting : Nat → Option (Call × Record)
  accepted : List (Nat × Call)
  written : List (Nat × Call × Nat)

/-- `logger::logger`, which adds a writer in a debug build. -/
def initial (debug : Bool) : State where
  type := 63
  writers := if debug then [0] else []
  buffer := fun _ => .empty
  out := []
  waiting := fun _ => none
  accepted := []
  written := []

inductive Step
  | enable (t : UInt32)
  | addWriter (w : Nat)
  | call (th : Nat) (c : Call)
  | write (th : Nat)

def next (s : State) : Step → State
  | .enable t => { s with type := s.type ||| t }
  | .addWriter w => { s with writers := s.writers ++ [w] }
  | .call th c =>
    match c.record s.type with
    | some (some r) => { s with
        waiting := Function.update s.waiting th (some (c, r))
        accepted := s.accepted ++ [(th, c)] }
    | _ => s
  | .write th =>
    match s.waiting th with
    | none => s
    | some (c, r) =>
      match writeAll r s.writers s.buffer s.out with
      | none => s
      | some (buffer, out) => { s with
          buffer := buffer
          out := out
          waiting := Function.update s.waiting th none
          written := s.written ++ [(th, c, s.writers.length)] }

/-- A thread makes one call at a time, and a step is taken where it is defined. -/
def machine : System State Step where
  Enabled s
    | .enable _ | .addWriter _ => True
    | .call th c => s.waiting th = none ∧ (c.record s.type).isSome
    | .write th => ∃ p, s.waiting th = some p ∧ (writeAll p.2 s.writers s.buffer s.out).isSome
  next := next

/-! ## What a call prints -/

/-- A text that leaves space for a zero in an array of `n` characters. -/
def fitting (n : Nat) (s : CString) : Option Text := if s.length < n then some s.chars else none

def Dump.lead (d : Dump) : Text := LogDump.lead d.buffer (min d.sz.toNat 628)

def Call.message (c : Call) : Text :=
  match c.dump with
  | none => c.msg.chars.take 2047
  | some d => d.lead ++ [10] ++ c.msg.chars.take (2046 - d.lead.length)

/-- The line of a call, if its texts fit into the arrays of a record and its time is one of the
calendar. -/
def Call.shown (c : Call) : Option Text := do
  let st ← systemtime c.now.toInt
  let tag ← fitting 32 c.tag
  let function ← fitting 256 c.function
  let file ← fitting 256 c.file
  return bracketed (timeText st) ++ bracketed [acronym c.type] ++ bracketed tag ++
    bracketed c.message ++ bracketed function ++
    bracketed (file ++ [58] ++ number (toInt c.line.toUInt32.toNat)) ++
    bracketed (number (toInt c.tid.toNat)) ++ [10]

/-- What all writers print for a call. -/
def printed (p : Nat × Call × Nat) : Text :=
  (List.replicate p.2.2 (color p.2.1.type ++ p.2.1.shown.getD [] ++ escape 39)).flatten

/-- The calls of a thread. -/
def callsOf (th : Nat) (calls : List (Nat × Call)) : List Call :=
  (calls.filter fun p => p.1 = th).map Prod.snd

/-! ## Records of calls -/

section Records

variable {n k : Nat} {a b : CharArray n} {s : CString} {c : Call} {r : Record} {type : UInt32}

theorem textOf_of_strlen (h : a.strlen = some k) : textOf a = some a.text := by
  rw [textOf, h, Option.map_some]

/-- A text that is shorter than its array ends in it. -/
theorem textOf_of_length (h : a.text.length < n) : textOf a = some a.text := by
  refine textOf_of_strlen (k := a.text.length) (CharArray.strlen_eq_some_iff.mpr ⟨?_, rfl⟩)
  by_contra hzero
  have hall : a.text = a.bytes := by
    rw [CharArray.text, List.takeWhile_eq_self_iff]
    intro ch hch
    rw [bne_iff_ne]
    rintro rfl
    exact hzero hch
  rw [hall, a.size] at h
  exact Nat.lt_irrefl n h

theorem textOf_strncpy (h : a.strncpy s n = some b) : textOf b = fitting n s := by
  rw [fitting]
  split
  · next hshort =>
    obtain ⟨b', hcopy, htext, hlen⟩ := CharArray.strncpy_short (a := a) hshort
    obtain rfl := Option.some.inj (hcopy.symm.trans h)
    rw [textOf_of_strlen hlen, htext]
  · next hlong =>
    obtain ⟨b', hcopy, hlen⟩ := CharArray.strncpy_long (a := a) (Nat.le_of_not_lt hlong)
    obtain rfl := Option.some.inj (hcopy.symm.trans h)
    rw [textOf, hlen, Option.map_none]

/-- A record with the texts and numbers of a call. -/
structure Made (c : Call) (r : Record) : Prop where
  ts : r.ts = c.now
  type : r.type = c.type
  line : r.line = c.line.toUInt32
  tid : r.tid = c.tid
  tag : textOf r.tag = fitting 32 c.tag
  file : textOf r.file = fitting 256 c.file
  function : textOf r.function = fitting 256 c.function
  message : textOf r.message = some c.message

theorem Made.of_record {message : CharArray 2048}
    (h : LogRecord.record c.raw c.now c.tid c.type c.tag c.file c.function c.line = some r)
    (hmessage : textOf message = some c.message) : Made c { r with message } := by
  simp only [LogRecord.record, Option.bind_eq_bind, Option.bind_eq_some_iff, Option.pure_def,
    Option.some.injEq] at h
  obtain ⟨tag, htag, file, hfile, function, hfunction, rfl⟩ := h
  exact ⟨rfl, rfl, rfl, rfl, textOf_strncpy htag, textOf_strncpy hfile, textOf_strncpy hfunction,
    hmessage⟩

theorem Made.line_eq (h : Made c r) : lineOf r = c.shown := by
  simp only [lineOf, Call.shown, h.ts, h.type, h.line, h.tid, h.tag, h.file, h.function,
    h.message, Option.bind_eq_bind, Option.bind_some]

/-- A call of a type that is not enabled makes no record. -/
theorem record_disabled (h : enabled type c.type = false) : c.record type = some none := by
  unfold Call.record
  split
  · rw [write, h]
    rfl
  · rw [writeDump, h]
    rfl

/-- All others make one, of which only the texts may be too long. -/
theorem record_enabled (h : enabled type c.type = true) :
    ∃ r, c.record type = some (some r) ∧ Made c r := by
  obtain ⟨r, hrecord⟩ :=
    record_isSome c.raw c.now c.tid c.type c.tag c.file c.function c.line
  cases hdump : c.dump with
  | none =>
    obtain ⟨message, hset, htext, hlen⟩ :=
      CharArray.vsnprintf_spec (a := r.message) (s := c.msg) (m := 2047) (Nat.le_refl 2048)
    refine ⟨{ r with message }, ?_, Made.of_record hrecord ?_⟩
    · simp only [Call.record, hdump, write, h, hrecord, Record.setMessage, hset, Bool.not_true,
        Bool.false_eq_true, if_false, Option.bind_eq_bind, Option.bind_some, Option.pure_def]
    · rw [textOf_of_strlen hlen, htext, Call.message, hdump]
  | some d =>
    obtain ⟨filled, k, result, -, hdumped, hmessage, htext⟩ :=
      dumpMessage_spec r.message d.within c.msg
    have hbound := hdumped.bound
    have hlead : LogDump.lead d.buffer k = d.lead := by
      rw [Dump.lead, ← dumped_count hdumped d.within]
    refine ⟨{ r with message := result }, ?_, Made.of_record hrecord ?_⟩
    · simp only [Call.record, hdump, writeDump, h, hrecord, hmessage, Bool.not_true,
        Bool.false_eq_true, if_false, Option.bind_eq_bind, Option.bind_some, Option.pure_def]
    · have hshort : result.text.length < 2048 := by
        rw [htext, List.length_append, List.length_append, List.length_singleton,
          List.length_take]
        omega
      rw [textOf_of_length hshort, htext, hlead, Call.message, hdump]

theorem record_made (h : c.record type = some (some r)) : Made c r := by
  cases htype : enabled type c.type with
  | false => cases (record_disabled htype).symm.trans h
  | true =>
    obtain ⟨r', hrecord, hmade⟩ := record_enabled htype
    obtain rfl := Option.some.inj (Option.some.inj (hrecord.symm.trans h))
    exact hmade

end Records

/-! ## What the writers print -/

section Writers

variable {b : ByteBuffer} {buffer : Nat → ByteBuffer} {r : Record} {t : Text}

/-- The buffer has a line up to the first zero. -/
theorem consoleWrite_spec (h : Cleared b) (hline : lineOf r = some t) (out : Text) :
    ∃ b', consoleWrite b r out = some (b', out ++ (color r.type ++ t ++ escape 39)) ∧
      Cleared b' := by
  obtain ⟨b', hformat, hvalid, -, rest, hmemory⟩ := h.clear.format_spec hline
  have hzero : 0 ∈ t ++ 0 :: rest := List.mem_append_right _ List.mem_cons_self
  have hprint : cString b' = some t := by
    simp only [cString, hmemory, Option.bind_eq_bind, Option.bind_some, if_pos hzero,
      CharArray.takeWhile_chars (lineOf_noZero hline), Option.pure_def]
  refine ⟨b'.clear, ?_, cleared_clear hvalid⟩
  simp only [consoleWrite, hformat, hprint, Option.bind_eq_bind, Option.bind_some,
    Option.pure_def]

/-- A record with a text that does not end in its array is undefined to format. -/
theorem consoleWrite_none (hline : lineOf r = none) (out : Text) :
    consoleWrite b r out = none := by
  have hformat : format r b.clear = none := by
    rw [format, hline]
    cases b.clear.reserve 8192 <;> rfl
  rw [consoleWrite, hformat]
  rfl

theorem writeAll_spec (h : ∀ w, Cleared (buffer w)) (hline : lineOf r = some t)
    (ws : List Nat) (out : Text) :
    ∃ buffer', writeAll r ws buffer out = some (buffer',
        out ++ (List.replicate ws.length (color r.type ++ t ++ escape 39)).flatten) ∧
      ∀ w, Cleared (buffer' w) := by
  induction ws generalizing buffer out with
  | nil => exact ⟨buffer, by rw [writeAll]; simp, h⟩
  | cons w ws ih =>
    obtain ⟨b, hwrite, hb⟩ := consoleWrite_spec (h w) hline out
    have hcleared : ∀ w', Cleared (Function.update buffer w b w') := by
      intro w'
      by_cases hw : w' = w
      · subst hw
        rwa [Function.update_self]
      · rw [Function.update_of_ne hw]
        exact h w'
    obtain ⟨buffer', hrest, hbuffer⟩ := ih hcleared (out ++ (color r.type ++ t ++ escape 39))
    refine ⟨buffer', ?_, hbuffer⟩
    simp only [writeAll, hwrite, Option.bind_eq_bind, Option.bind_some]
    rw [hrest, List.length_cons, List.replicate_succ, List.flatten_cons, List.append_assoc out]

theorem writeAll_isSome_iff (h : ∀ w, Cleared (buffer w)) (ws : List Nat) (out : Text) :
    (writeAll r ws buffer out).isSome ↔ ws = [] ∨ (lineOf r).isSome := by
  cases hline : lineOf r with
  | some t =>
    obtain ⟨buffer', hwrite, -⟩ := writeAll_spec h hline ws out
    simp [hwrite]
  | none =>
    cases ws with
    | nil => simp [writeAll]
    | cons w ws => simp [writeAll, consoleWrite_none hline]

end Writers

/-! ## Runs -/

section Runs

variable {debug : Bool} {s : State} {e : Step} {th : Nat} {c : Call} {r : Record}

/-- The records of each thread are written in turn, each once by every writer. -/
structure Invariant (s : State) : Prop where
  cleared : ∀ w, Cleared (s.buffer w)
  made : ∀ th c r, s.waiting th = some (c, r) → Made c r
  out : s.out = (s.written.map printed).flatten
  inOrder : ∀ th, callsOf th s.accepted =
    callsOf th (s.written.map fun p => (p.1, p.2.1)) ++ ((s.waiting th).map Prod.fst).toList
  whole : ∀ p ∈ s.written, p.2.2 = 0 ∨ p.2.1.shown.isSome

theorem callsOf_append (th : Nat) (l m : List (Nat × Call)) :
    callsOf th (l ++ m) = callsOf th l ++ callsOf th m := by
  rw [callsOf, List.filter_append, List.map_append]
  rfl

theorem callsOf_self (th : Nat) (c : Call) : callsOf th [(th, c)] = [c] := by
  simp [callsOf]

theorem callsOf_other {th th' : Nat} (h : th' ≠ th) (c : Call) : callsOf th' [(th, c)] = [] := by
  simp [callsOf, h.symm]

theorem invariant_initial (debug : Bool) : Invariant (initial debug) where
  cleared _ := Or.inl rfl
  made _ _ _ h := by cases h
  out := rfl
  inOrder _ := rfl
  whole _ h := by cases h

theorem Invariant.call (h : Invariant s) (hfree : s.waiting th = none)
    (hrecord : c.record s.type = some (some r)) : Invariant { s with
      waiting := Function.update s.waiting th (some (c, r))
      accepted := s.accepted ++ [(th, c)] } where
  cleared := h.cleared
  made th' c' r' hwait := by
    by_cases hth : th' = th
    · subst hth
      simp only [Function.update_self, Option.some.injEq, Prod.mk.injEq] at hwait
      obtain ⟨rfl, rfl⟩ := hwait
      exact record_made hrecord
    · simp only [Function.update_of_ne hth] at hwait
      exact h.made th' c' r' hwait
  out := h.out
  inOrder th' := by
    have hold := h.inOrder th'
    simp only [callsOf_append, hold]
    by_cases hth : th' = th
    · subst hth
      rw [callsOf_self, hfree, Function.update_self, Option.map_none, Option.map_some,
        Option.toList_none, Option.toList_some, List.append_nil]
    · rw [callsOf_other hth, Function.update_of_ne hth, List.append_nil]
  whole := h.whole

theorem Invariant.printed_eq (h : Invariant s) (hwait : s.waiting th = some (c, r))
    {p : (Nat → ByteBuffer) × Text} (hwrite : writeAll r s.writers s.buffer s.out = some p) :
    (∀ w, Cleared (p.1 w)) ∧ p.2 = s.out ++ printed (th, c, s.writers.length) ∧
      (s.writers.length = 0 ∨ c.shown.isSome) := by
  have hmade := h.made th c r hwait
  have hdefined := (writeAll_isSome_iff h.cleared s.writers s.out (r := r)).mp (by rw [hwrite]; rfl)
  rw [hmade.line_eq] at hdefined
  cases hshown : c.shown with
  | none =>
    have hnone : s.writers = [] := by simpa [hshown] using hdefined
    rw [hnone, writeAll, Option.some.injEq] at hwrite
    subst hwrite
    exact ⟨h.cleared, by simp [hnone, printed], Or.inl (by rw [hnone]; rfl)⟩
  | some t =>
    obtain ⟨buffer', hrun, hcleared⟩ :=
      writeAll_spec h.cleared (hmade.line_eq.trans hshown) s.writers s.out
    obtain rfl := Option.some.inj (hrun.symm.trans hwrite)
    refine ⟨hcleared, ?_, Or.inr rfl⟩
    rw [printed, hshown, hmade.type, Option.getD_some]

theorem Invariant.write (h : Invariant s) (hwait : s.waiting th = some (c, r))
    {p : (Nat → ByteBuffer) × Text} (hwrite : writeAll r s.writers s.buffer s.out = some p) :
    Invariant { s with
      buffer := p.1
      out := p.2
      waiting := Function.update s.waiting th none
      written := s.written ++ [(th, c, s.writers.length)] } := by
  obtain ⟨hcleared, hout, hwhole⟩ := h.printed_eq hwait hwrite
  refine ⟨hcleared, fun th' c' r' hwait' => ?_, ?_, fun th' => ?_, fun q hq => ?_⟩
  · by_cases hth : th' = th
    · subst hth
      simp only [Function.update_self] at hwait'
      cases hwait'
    · simp only [Function.update_of_ne hth] at hwait'
      exact h.made th' c' r' hwait'
  · rw [hout, h.out, List.map_append, List.flatten_append, List.map_singleton,
      List.flatten_singleton]
  · have hold := h.inOrder th'
    simp only [List.map_append, List.map_singleton, callsOf_append, hold]
    by_cases hth : th' = th
    · subst hth
      rw [callsOf_self, hwait, Function.update_self, Option.map_some, Option.map_none,
        Option.toList_some, Option.toList_none, List.append_nil]
    · rw [callsOf_other hth, Function.update_of_ne hth, List.append_nil]
  · rcases List.mem_append.mp hq with hq | hq
    · exact h.whole q hq
    · obtain rfl := List.mem_singleton.mp hq
      exact hwhole

theorem invariant_step (h : Invariant s) (he : machine.Enabled s e) :
    Invariant (machine.next s e) := by
  cases e with
  | enable t => exact ⟨h.cleared, h.made, h.out, h.inOrder, h.whole⟩
  | addWriter w => exact ⟨h.cleared, h.made, h.out, h.inOrder, h.whole⟩
  | call th c =>
    obtain ⟨hfree, -⟩ := he
    simp only [machine, next]
    split
    · next hrecord => exact h.call hfree hrecord
    · exact h
  | write th =>
    obtain ⟨⟨c, r⟩, hwait, hdefined⟩ := he
    obtain ⟨p, hwrite⟩ := Option.isSome_iff_exists.mp hdefined
    simp only [machine, next, hwait, hwrite]
    exact h.write hwait hwrite

theorem invariant_reachable (h : machine.Reachable (initial debug) s) : Invariant s :=
  h.invariant (invariant_initial debug) fun _ _ _ hu he _ => invariant_step hu he

/-- The output has every written line whole and between its escape sequences, once for each
writer, each thread's in the order of its calls. A call can be made at all times and its record
can be written just when there is no writer or its texts fit. -/
theorem console_faithful (h : machine.Reachable (initial debug) s) :
    s.out = (s.written.map printed).flatten ∧
      (∀ p ∈ s.written, p.2.2 = 0 ∨ p.2.1.shown.isSome) ∧
      (∀ th, callsOf th s.accepted = callsOf th (s.written.map fun p => (p.1, p.2.1)) ++
        ((s.waiting th).map Prod.fst).toList) ∧
      (∀ th c, s.waiting th = none → machine.Enabled s (.call th c) ∧
        (machine.next s (.call th c)).accepted =
          s.accepted ++ if enabled s.type c.type then [(th, c)] else []) ∧
      ∀ th c r, s.waiting th = some (c, r) →
        (machine.Enabled s (.write th) ↔ s.writers = [] ∨ c.shown.isSome) ∧
        (machine.Enabled s (.write th) → (machine.next s (.write th)).written =
          s.written ++ [(th, c, s.writers.length)]) := by
  have hinv := invariant_reachable h
  refine ⟨hinv.out, hinv.whole, hinv.inOrder, fun th c hfree => ?_, fun th c r hwait => ⟨?_, ?_⟩⟩
  · cases htype : enabled s.type c.type with
    | false =>
      have hrecord := record_disabled htype
      refine ⟨⟨hfree, by rw [hrecord]; rfl⟩, ?_⟩
      simp [machine, next, hrecord]
    | true =>
      obtain ⟨r, hrecord, -⟩ := record_enabled htype
      refine ⟨⟨hfree, by rw [hrecord]; rfl⟩, ?_⟩
      simp [machine, next, hrecord]
  · have hline := (hinv.made th c r hwait).line_eq
    rw [← hline, ← writeAll_isSome_iff hinv.cleared s.writers s.out]
    simp only [machine, hwait, Option.some.injEq, exists_eq_left']
  · rintro ⟨q, hq, hdefined⟩
    obtain rfl := Option.some.inj (hwait.symm.trans hq)
    obtain ⟨p, hwrite⟩ := Option.isSome_iff_exists.mp hdefined
    simp only [machine, next, hwait, hwrite]

/-- A warning of two characters. -/
def hello : Call :=
  ⟨blank, 0, 7, 8, ⟨[76], by decide⟩, ⟨[70], by decide⟩, ⟨[71], by decide⟩, 3, none,
    ⟨[72, 105], by decide⟩⟩

/-- `[19700101 000000][W][L][Hi][G][F:3][7]` in blue. -/
theorem console_faithful_hello : ∃ s, machine.Reachable (initial true) s ∧
    s.written = [(5, hello, 1)] ∧ s.out = [27, 91, 51, 52, 109,
      91, 49, 57, 55, 48, 48, 49, 48, 49, 32, 48, 48, 48, 48, 48, 48, 93, 91, 87, 93, 91, 76, 93,
      91, 72, 105, 93, 91, 71, 93, 91, 70, 58, 51, 93, 91, 55, 93, 10, 27, 91, 51, 57, 109] := by
  have hstart : machine.Reachable (initial true) (initial true) := .refl
  have henabled : enabled 63 hello.type = true := by decide
  obtain ⟨r, hrecord, -⟩ := record_enabled henabled
  have hmade := hstart.tail ((console_faithful hstart).2.2.2.1 5 hello rfl).1
  have hnext : machine.next (initial true) (.call 5 hello) =
      ⟨63, [0], fun _ => .empty, [], Function.update (fun _ => none) 5 (some (hello, r)),
        [(5, hello)], []⟩ := by
    simp only [machine, next, initial, hrecord]
    rfl
  rw [hnext] at hmade
  obtain ⟨hiff, hwritten⟩ := (console_faithful hmade).2.2.2.2 5 hello r rfl
  have hwrite := hiff.mpr (Or.inr (by decide +kernel))
  have hdone := hmade.tail hwrite
  have hlast := hwritten hwrite
  refine ⟨_, hdone, hlast, ?_⟩
  rw [(console_faithful hdone).1, hlast]
  show ([(5, hello, 1)].map printed).flatten = _
  decide +kernel

end Runs

end LogConsoleWriter
