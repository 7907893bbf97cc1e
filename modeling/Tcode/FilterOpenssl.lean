import Tcode.BufferByteBuffer
import Tcode.SupportHistory
import Tcode.SupportTransitionSystem

/-! # openssl_filter

The filter works off a list of instructions, each with at most one call into OpenSSL, whose
answers are arbitrary. A `callback` stands for a filter downstream that has been called and from
which the filter may be called again. What it fires, which errors it closes the channel with and
which handshakes it has seen finished are logged.

`everFinished` is bookkeeping: `SSL_read` returns application data only after the handshake
finished.
-/
namespace FilterOpenssl

open BufferByteBuffer SupportHistory SupportTransitionSystem

/-- `openssl_filter::HANDSHAKE`. -/
inductive Handshake where
  | accept
  | connect
  | complete
  deriving DecidableEq, Repr

/-- What `SSL_get_error` answers. -/
inductive SslError where
  | none
  | ssl
  | wantRead
  | wantWrite
  | wantX509Lookup
  | syscall
  | zeroReturn
  | wantConnect
  | wantAccept
  deriving DecidableEq, Repr

def isFatalError : SslError → Bool
  | .none | .wantRead | .wantWrite | .wantConnect | .wantAccept => false
  | .ssl | .wantX509Lookup | .syscall | .zeroReturn => true

/-- Why `end_handshake` is called. -/
inductive Cause where
  | finished
  | handshakeFailed
  | bioReadFailed
  | bioWriteFailed
  | sslReadFailed
  deriving DecidableEq, Repr

/-- The errors that the channel is closed with. -/
inductive CloseError where
  | handshake
  | bioRead
  | bioWrite
  | sslWrite
  | sslRead
  deriving DecidableEq, Repr

inductive Event where
  /-- `SSL_is_init_finished` answered that the handshake is finished. -/
  | initFinished
  | filterOnOpen (cause : Cause)
  | filterOnRead (len : Int)
  | filterDoWrite (len : Int)
  | close (ec : CloseError)
  deriving DecidableEq, Repr

inductive Instr where
  | filterOnOpen
  | filterOnRead (buf : ByteBuffer)
  | filterDoWrite (buf : ByteBuffer)
  | beginHandshake
  | endHandshake (cause : Cause)
  | setComplete
  | sendPending
  | bioRead
  | writeRbio (msg : ByteBuffer)
  | writeWbio (msg : ByteBuffer)
  | sslRead
  | afterRead (len : Int) (failed : Bool)
  | close (ec : CloseError)
  | callback
  deriving DecidableEq

/-- What OpenSSL answers to the next call, and whether the handshake is finished after it. -/
structure Answer where
  len : Int
  error : SslError
  pending : Bool
  shouldRetry : Bool
  finished : Bool
  deriving DecidableEq, Repr

structure State where
  handshake : Handshake
  finished : Bool
  everFinished : Bool
  main : List Instr
  log : List Event
  deriving DecidableEq

def initial (hs : Handshake) : State := ⟨hs, false, false, [], []⟩

/-- A call that may take the handshake further, or begin it again. -/
def State.ssl (s : State) (a : Answer) : State :=
  { s with finished := a.finished, everFinished := s.everFinished || a.finished }

/-- One instruction, and those that it puts before the rest. -/
def exec (s : State) (a : Answer) : Instr → State × List Instr
  | .filterOnOpen => (s.ssl a, [.beginHandshake])
  | .filterOnRead buf => (s, [.writeRbio buf])
  | .filterDoWrite buf => (s, [.writeWbio buf])
  | .beginHandshake =>
    (s.ssl a,
      if isFatalError a.error then [.endHandshake .handshakeFailed, .close .handshake]
      else [.sendPending])
  | .endHandshake cause =>
    if s.handshake ≠ .complete then
      ({ s with log := s.log ++ [.filterOnOpen cause] }, [.callback, .setComplete])
    else (s, [.setComplete])
  | .setComplete => ({ s with handshake := .complete }, [])
  | .sendPending => (s, if a.pending then [.bioRead] else [])
  | .bioRead =>
    if a.len ≤ 0 then
      (s, if isFatalError a.error then [.close .bioRead, .endHandshake .bioReadFailed] else [])
    else ({ s with log := s.log ++ [.filterDoWrite a.len] }, [.callback, .sendPending])
  | .writeRbio msg =>
    (s,
      if 0 < msg.length then
        if a.len ≤ 0 then
          if a.shouldRetry then [.writeRbio msg]
          else [.close .bioWrite, .endHandshake .bioWriteFailed]
        else [.writeRbio (msg.rdPtr a.len).2]
      else [.sslRead])
  | .writeWbio msg =>
    if 0 < msg.length then
      (s.ssl a,
        if a.len ≤ 0 then
          if isFatalError a.error then [.close .sslWrite, .sendPending] else [.writeWbio msg]
        else [.writeWbio (msg.rdPtr a.len).2])
    else (s, [.sendPending])
  | .sslRead =>
    let failed := decide (a.len ≤ 0) && isFatalError a.error
    -- Nothing comes between the call of `SSL_read` and the test of `SSL_is_init_finished`.
    if s.handshake ≠ .complete ∧ a.finished = true then
      ({ s.ssl a with log := s.log ++ [.initFinished] },
        [.endHandshake .finished, .afterRead a.len failed])
    else (s.ssl a, [.afterRead a.len failed])
  | .afterRead len failed =>
    if len ≤ 0 then
      (s, if failed then [.endHandshake .sslReadFailed, .close .sslRead] else [.sendPending])
    else ({ s with log := s.log ++ [.filterOnRead len] }, [.callback, .sslRead])
  | .close ec => ({ s with log := s.log ++ [.close ec] }, [])
  | .callback => (s, [])

inductive Call where
  | filterOnOpen
  | filterOnRead (buf : ByteBuffer)
  | filterDoWrite (buf : ByteBuffer)
  deriving DecidableEq, Repr

def Call.code : Call → Instr
  | .filterOnOpen => .filterOnOpen
  | .filterOnRead buf => .filterOnRead buf
  | .filterDoWrite buf => .filterDoWrite buf

inductive Step where
  | run (a : Answer)
  | call (c : Call)
  deriving DecidableEq, Repr

/-- Data come only after the handshake finished. -/
def MayAnswer (s : State) (a : Answer) : Instr → Prop
  | .sslRead => 0 < a.len → (s.ssl a).everFinished = true
  | _ => True

def Enabled (s : State) : Step → Prop
  | .run a => ∃ i ∈ s.main.head?, MayAnswer s a i
  | .call _ => s.main = [] ∨ s.main.head? = some .callback

def next (s : State) : Step → State
  | .run a =>
    match s.main with
    | [] => s
    | i :: rest =>
      let (s', front) := exec s a i
      { s' with main := front ++ rest }
  | .call c => { s with main := c.code :: s.main }

def machine : System State Step := ⟨Enabled, next⟩

instance (s : State) (a : Answer) : ∀ i : Instr, Decidable (MayAnswer s a i)
  | .sslRead => inferInstanceAs (Decidable (_ → _))
  | .filterOnOpen | .filterOnRead _ | .filterDoWrite _ | .beginHandshake | .endHandshake _
  | .setComplete | .sendPending | .bioRead | .writeRbio _ | .writeWbio _ | .afterRead _ _
  | .close _ | .callback => isTrue trivial

instance (s : State) : ∀ e : Step, Decidable (Enabled s e)
  | .run a => inferInstanceAs (Decidable (∃ i ∈ s.main.head?, MayAnswer s a i))
  | .call _ => inferInstanceAs (Decidable (_ ∨ _))

instance (s : State) (e : Step) : Decidable (machine.Enabled s e) :=
  inferInstanceAs (Decidable (Enabled s e))

variable {s t : State} {a : Answer} {i : Instr} {rest : List Instr} {log : List Event}

/-! ## What is fired -/

def Event.opens : Event → Bool
  | .filterOnOpen _ => true
  | _ => false

def Opened (log : List Event) : Prop := ∃ cause, .filterOnOpen cause ∈ log

/-- The pipeline is opened because a handshake was seen finished, and nothing is read before. -/
def Grounded (before : List Event) : Event → Prop
  | .filterOnOpen cause => cause = .finished ∧ .initFinished ∈ before
  | .filterOnRead _ => Opened before
  | .initFinished | .filterDoWrite _ | .close _ => True

structure Proper (log : List Event) : Prop where
  once : log.countP Event.opens ≤ 1
  grounded : Justified Grounded log

/-- `end_handshake` fires because the handshake is finished, and is not called again from what
it fires; and data that come before come with a finished handshake. -/
def CleanInstr (s : State) (a : Answer) : Instr → Prop
  | .endHandshake cause =>
    s.handshake = .complete ∨ cause = .finished ∧ .setComplete ∉ s.main
  | .sslRead => 0 < a.len → s.handshake = .complete ∨ .setComplete ∈ s.main ∨ a.finished = true
  | _ => True

def Clean (s : State) : Step → Prop
  | .run a => ∀ i ∈ s.main.head?, CleanInstr s a i
  | .call _ => True

instance (s : State) (a : Answer) : ∀ i : Instr, Decidable (CleanInstr s a i)
  | .endHandshake _ => inferInstanceAs (Decidable (_ ∨ _ ∧ _))
  | .sslRead => inferInstanceAs (Decidable (_ → _))
  | .filterOnOpen | .filterOnRead _ | .filterDoWrite _ | .beginHandshake | .setComplete
  | .sendPending | .bioRead | .writeRbio _ | .writeWbio _ | .afterRead _ _ | .close _
  | .callback => isTrue trivial

instance (s : State) : ∀ e : Step, Decidable (Clean s e)
  | .run a => inferInstanceAs (Decidable (∀ i ∈ s.main.head?, CleanInstr s a i))
  | .call _ => isTrue trivial

theorem opened_append {es : List Event} : Opened (log ++ es) ↔ Opened log ∨ Opened es := by
  simp only [Opened, List.mem_append, exists_or]

theorem Opened.append (h : Opened log) (es : List Event) : Opened (log ++ es) :=
  opened_append.mpr (Or.inl h)

theorem countP_of_not_opened (h : ¬ Opened log) : log.countP Event.opens = 0 := by
  apply List.countP_eq_zero.mpr
  intro e he hopens
  cases e with
  | filterOnOpen cause => exact h ⟨cause, he⟩
  | initFinished | filterOnRead _ | filterDoWrite _ | close _ =>
    exact Bool.false_ne_true hopens

theorem Proper.snoc (h : Proper log) {e : Event} (hopen : e.opens = true → ¬ Opened log)
    (hground : Grounded log e) : Proper (log ++ [e]) := by
  refine ⟨?_, justified_snoc.mpr ⟨h.grounded, hground⟩⟩
  rw [List.countP_append]
  by_cases he : e.opens = true
  · rw [countP_of_not_opened (hopen he), Nat.zero_add]
    exact List.countP_le_length
  · have hlast : [e].countP Event.opens = 0 := by simp [he]
    rw [hlast, Nat.add_zero]
    exact h.once

structure Invariant (s : State) : Prop where
  proper : Proper s.log
  opened : s.handshake = .complete ∨ .setComplete ∈ s.main ↔ Opened s.log
  finished : .endHandshake .finished ∈ s.main → .initFinished ∈ s.log
  reading : (∃ cause, s.main.head? = some (.endHandshake cause)) ∨
    ∀ len failed, 0 < len → .afterRead len failed ∈ s.main → Opened s.log

/-- Instructions that the invariant says nothing about. -/
def Instr.plain : Instr → Bool
  | .endHandshake cause => decide (cause ≠ .finished)
  | .setComplete | .afterRead _ _ => false
  | _ => true

/-- Events that need nothing to have come before. -/
def Event.plain : Event → Bool
  | .initFinished | .filterDoWrite _ | .close _ => true
  | .filterOnOpen _ | .filterOnRead _ => false

/-- The instructions that do not touch the handshake. -/
def Instr.indifferent : Instr → Bool
  | .endHandshake _ | .setComplete | .sslRead | .afterRead _ _ => false
  | _ => true

theorem exec_indifferent (h : i.indifferent = true) :
    (exec s a i).1.handshake = s.handshake ∧
      ((exec s a i).1.log = s.log ∨ ∃ e, e.plain = true ∧ (exec s a i).1.log = s.log ++ [e]) ∧
      ∀ j ∈ (exec s a i).2, j.plain = true := by
  cases i with
  | endHandshake | setComplete | sslRead | afterRead => exact absurd h Bool.false_ne_true
  | close ec => exact ⟨rfl, Or.inr ⟨.close ec, rfl, rfl⟩, by simp [exec]⟩
  | bioRead =>
    by_cases hlen : a.len ≤ 0
    · refine ⟨by simp [exec, hlen], Or.inl (by simp [exec, hlen]), ?_⟩
      cases hfatal : isFatalError a.error <;> simp [exec, hlen, hfatal, Instr.plain]
    · refine ⟨by simp [exec, hlen], Or.inr ⟨.filterDoWrite a.len, rfl, by simp [exec, hlen]⟩, ?_⟩
      simp [exec, hlen, Instr.plain]
  | writeWbio msg =>
    by_cases hmsg : 0 < msg.length
    · refine ⟨by simp [exec, hmsg, State.ssl], Or.inl (by simp [exec, hmsg, State.ssl]), ?_⟩
      simp only [exec, if_pos hmsg]
      split_ifs <;> simp [Instr.plain]
    · refine ⟨by simp [exec, hmsg], Or.inl (by simp [exec, hmsg]), ?_⟩
      simp [exec, hmsg, Instr.plain]
  | filterOnOpen | filterOnRead | filterDoWrite | callback =>
    exact ⟨rfl, Or.inl rfl, by simp [exec, Instr.plain]⟩
  | beginHandshake | sendPending | writeRbio =>
    refine ⟨rfl, Or.inl rfl, ?_⟩
    simp only [exec]
    split_ifs <;> simp [Instr.plain]

theorem next_run (h : s.main = i :: rest) :
    next s (.run a) = { (exec s a i).1 with main := (exec s a i).2 ++ rest } := by
  simp only [next, h]

theorem Proper.snoc_plain (h : Proper log) {e : Event} (he : e.plain = true) :
    Proper (log ++ [e]) := by
  cases e with
  | filterOnOpen | filterOnRead => exact absurd he Bool.false_ne_true
  | initFinished | filterDoWrite | close =>
    exact h.snoc (fun hopens => absurd hopens Bool.false_ne_true) trivial

theorem plain_not_opens {e : Event} (h : e.plain = true) : ¬ Opened [e] := by
  rintro ⟨cause, hmem⟩
  obtain rfl := List.mem_singleton.mp hmem
  exact Bool.false_ne_true h

theorem Invariant.indifferent (h : Invariant s) (hmain : s.main = i :: rest)
    (hi : i.indifferent = true) : Invariant (next s (.run a)) := by
  obtain ⟨hhandshake, hlog, hfront⟩ := exec_indifferent (s := s) (a := a) hi
  have hproper : Proper (exec s a i).1.log := by
    rcases hlog with heq | ⟨e, he, heq⟩
    · exact heq ▸ h.proper
    · exact heq ▸ h.proper.snoc_plain he
  have hopened : Opened (exec s a i).1.log ↔ Opened s.log := by
    rcases hlog with heq | ⟨e, he, heq⟩
    · rw [heq]
    · rw [heq, opened_append, or_iff_left (plain_not_opens he)]
  have hgrow {x : Event} (hx : x ∈ s.log) : x ∈ (exec s a i).1.log := by
    rcases hlog with heq | ⟨e, -, heq⟩
    · exact heq ▸ hx
    · exact heq ▸ List.mem_append_left _ hx
  have hfrom {j : Instr} (hj : j.plain = false) : j ∈ (exec s a i).2 ++ rest ↔ j ∈ rest := by
    rw [List.mem_append, or_iff_right]
    intro hmem
    exact absurd (hfront j hmem) (by simp [hj])
  have hbefore {j : Instr} (hj : j.indifferent = false) : j ∈ s.main ↔ j ∈ rest := by
    rw [hmain, List.mem_cons, or_iff_right]
    rintro rfl
    exact absurd hi (by simp [hj])
  rw [next_run hmain]
  refine ⟨hproper, ?_, fun hmem => ?_, Or.inr fun len failed hlen hmem => ?_⟩
  · rw [hopened, hhandshake, ← h.opened, hfrom rfl, hbefore rfl]
  · exact hgrow (h.finished ((hbefore rfl).mpr ((hfrom (by decide)).mp hmem)))
  · rw [hopened]
    rcases h.reading with ⟨cause, hhead⟩ | hreading
    · rw [hmain] at hhead
      obtain rfl := Option.some.inj hhead
      exact absurd hi Bool.false_ne_true
    · exact hreading len failed hlen ((hbefore rfl).mpr ((hfrom rfl).mp hmem))

/-- The pipeline is opened here or was before. -/
theorem Invariant.endHandshake {cause : Cause} (h : Invariant s)
    (hmain : s.main = .endHandshake cause :: rest)
    (hclean : CleanInstr s a (.endHandshake cause)) : Invariant (next s (.run a)) := by
  rw [next_run hmain]
  by_cases hcomplete : s.handshake = .complete
  · have hopened : Opened s.log := h.opened.mp (Or.inl hcomplete)
    simp only [exec, hcomplete, ne_eq, not_true_eq_false, if_false]
    refine ⟨h.proper, iff_of_true (Or.inr (by simp)) hopened, fun hmem => h.finished ?_,
      Or.inr fun _ _ _ _ => hopened⟩
    rw [hmain]
    simp only [List.cons_append, List.nil_append, List.mem_cons, reduceCtorEq, false_or] at hmem
    exact List.mem_cons_of_mem _ hmem
  · obtain ⟨rfl, hnot⟩ := hclean.resolve_left hcomplete
    have hseen : .initFinished ∈ s.log := h.finished (hmain ▸ List.mem_cons_self)
    have hunopened : ¬ Opened s.log := by
      rw [← h.opened, not_or]
      exact ⟨hcomplete, hnot⟩
    have hopened : Opened (s.log ++ [.filterOnOpen .finished]) := ⟨.finished, by simp⟩
    simp only [exec, ne_eq, hcomplete, not_false_eq_true, if_true]
    exact ⟨h.proper.snoc (fun _ => hunopened) ⟨rfl, hseen⟩, iff_of_true (Or.inr (by simp)) hopened,
      fun _ => List.mem_append_left _ hseen, Or.inr fun _ _ _ _ => hopened⟩

theorem Invariant.setComplete (h : Invariant s) (hmain : s.main = .setComplete :: rest) :
    Invariant (next s (.run a)) := by
  have hopened : Opened s.log := h.opened.mp (Or.inr (hmain ▸ List.mem_cons_self))
  rw [next_run hmain]
  refine ⟨h.proper, iff_of_true (Or.inl rfl) hopened, fun hmem => h.finished ?_,
    Or.inr fun _ _ _ _ => hopened⟩
  exact hmain ▸ List.mem_cons_of_mem _ hmem

/-- Data that are read are fired behind the event that opens. -/
theorem Invariant.sslRead (h : Invariant s) (hmain : s.main = .sslRead :: rest)
    (hclean : CleanInstr s a .sslRead) : Invariant (next s (.run a)) := by
  have hreading : ∀ len failed, 0 < len → .afterRead len failed ∈ rest → Opened s.log := by
    rcases h.reading with ⟨cause, hhead⟩ | hreading
    · rw [hmain] at hhead
      exact absurd (Option.some.inj hhead) (by simp)
    · intro len failed hlen hmem
      exact hreading len failed hlen (hmain ▸ List.mem_cons_of_mem _ hmem)
  have hset : .setComplete ∈ s.main ↔ .setComplete ∈ rest := by simp [hmain]
  rw [next_run hmain]
  by_cases hfinished : s.handshake ≠ .complete ∧ a.finished = true
  · have hopened : Opened (s.log ++ [.initFinished]) ↔ Opened s.log :=
      opened_append.trans (or_iff_left (plain_not_opens rfl))
    simp only [exec, if_pos hfinished, State.ssl]
    refine ⟨h.proper.snoc_plain rfl, ?_, fun _ => by simp, Or.inl ⟨.finished, rfl⟩⟩
    rw [hopened, ← h.opened, hset]
    simp
  · simp only [exec, if_neg hfinished, State.ssl]
    refine ⟨h.proper, ?_, fun hmem => h.finished ?_, Or.inr fun len failed hlen hmem => ?_⟩
    · rw [← h.opened, hset]
      simp
    · rw [hmain]
      simp only [List.cons_append, List.nil_append, List.mem_cons, reduceCtorEq, false_or] at hmem
      exact List.mem_cons_of_mem _ hmem
    · simp only [List.cons_append, List.nil_append, List.mem_cons] at hmem
      rcases hmem with heq | hmem
      · obtain ⟨rfl, -⟩ := Instr.afterRead.inj heq
        rcases hclean hlen with hcomplete | hin | hfin
        · exact h.opened.mp (Or.inl hcomplete)
        · exact h.opened.mp (Or.inr hin)
        · refine h.opened.mp (Or.inl ?_)
          by_contra hcomplete
          exact hfinished ⟨hcomplete, hfin⟩
      · exact hreading len failed hlen hmem

theorem Invariant.afterRead {len : Int} {failed : Bool} (h : Invariant s)
    (hmain : s.main = .afterRead len failed :: rest) : Invariant (next s (.run a)) := by
  have hreading : ∀ len' failed', 0 < len' → .afterRead len' failed' ∈ s.main → Opened s.log := by
    rcases h.reading with ⟨cause, hhead⟩ | hreading
    · rw [hmain] at hhead
      exact absurd (Option.some.inj hhead) (by simp)
    · exact hreading
  have hset : .setComplete ∈ s.main ↔ .setComplete ∈ rest := by simp [hmain]
  have hend : .endHandshake .finished ∈ s.main ↔ .endHandshake .finished ∈ rest := by simp [hmain]
  rw [next_run hmain]
  by_cases hlen : len ≤ 0
  · simp only [exec, if_pos hlen]
    refine ⟨h.proper, ?_, fun hmem => h.finished (hend.mpr ?_),
      Or.inr fun len' failed' hlen' hmem => ?_⟩
    · rw [← h.opened, hset]
      cases failed <;> simp
    · cases failed <;> simpa using hmem
    · refine hreading len' failed' hlen' (hmain ▸ List.mem_cons_of_mem _ ?_)
      cases failed <;> simpa using hmem
  · have hopened : Opened s.log :=
      hreading len failed (Int.not_le.mp hlen) (hmain ▸ List.mem_cons_self)
    simp only [exec, if_neg hlen]
    refine ⟨h.proper.snoc (fun hopens => absurd hopens Bool.false_ne_true) hopened, ?_,
      fun hmem => ?_, Or.inr fun _ _ _ _ => hopened.append _⟩
    · refine iff_of_true ?_ (hopened.append _)
      have hbefore := h.opened.mpr hopened
      rw [hset] at hbefore
      exact hbefore.imp_right fun hmem => by simp [hmem]
    · exact List.mem_append_left _ (h.finished (hend.mpr (by simpa using hmem)))

theorem Invariant.call (h : Invariant s) (hmain : s.main = [] ∨ s.main.head? = some .callback)
    (c : Call) : Invariant (next s (.call c)) := by
  have hplain : c.code.plain = true := by cases c <;> rfl
  have hfrom {j : Instr} (hj : j.plain = false) : j ∈ c.code :: s.main ↔ j ∈ s.main := by
    rw [List.mem_cons, or_iff_right]
    rintro rfl
    exact absurd hplain (by simp [hj])
  refine ⟨h.proper, ?_, fun hmem => h.finished ((hfrom (by decide)).mp hmem),
    Or.inr fun len failed hlen hmem => ?_⟩
  · exact (or_congr_right (hfrom rfl)).trans h.opened
  · have hread := (hfrom (j := .afterRead len failed) rfl).mp hmem
    rcases h.reading with ⟨cause, hhead⟩ | hreading
    · rcases hmain with hnil | hcallback
      · rw [hnil] at hhead
        exact absurd hhead (by simp)
      · exact absurd (hcallback.symm.trans hhead) (by simp)
    · exact hreading len failed hlen hread

theorem invariant_initial {hs : Handshake} (h : hs ≠ .complete) : Invariant (initial hs) := by
  refine ⟨⟨Nat.zero_le _, justified_nil⟩, ?_, nofun, Or.inr nofun⟩
  simp [initial, Opened, h]

theorem invariant_step {e : Step} (h : Invariant s) (he : Enabled s e) (hclean : Clean s e) :
    Invariant (next s e) := by
  cases e with
  | call c => exact h.call he c
  | run a =>
    obtain ⟨i, hi, -⟩ := he
    obtain ⟨rest, hmain⟩ := List.head?_eq_some_iff.mp hi
    have hinstr := hclean i hi
    cases i with
    | endHandshake => exact h.endHandshake hmain hinstr
    | setComplete => exact h.setComplete hmain
    | sslRead => exact h.sslRead hmain hinstr
    | afterRead => exact h.afterRead hmain
    | filterOnOpen | filterOnRead | filterDoWrite | beginHandshake | sendPending | bioRead
    | writeRbio | writeWbio | close | callback => exact h.indifferent hmain rfl

/-- The condition is exact: behind the first step that is not clean an event is out of place. -/
theorem Invariant.improper_of_unclean {e : Step} (h : Invariant s) (he : Enabled s e)
    (hclean : ¬ Clean s e) : ∃ t, machine.Reachable (next s e) t ∧ ¬ Proper t.log := by
  cases e with
  | call c => exact absurd trivial hclean
  | run a =>
    obtain ⟨i, hi, -⟩ := he
    obtain ⟨rest, hmain⟩ := List.head?_eq_some_iff.mp hi
    have hinstr : ¬ CleanInstr s a i := fun hi' => hclean fun j hj => by
      obtain rfl := Option.mem_unique hi hj
      exact hi'
    cases i with
    | endHandshake cause =>
      obtain ⟨hcomplete, hcause⟩ := not_or.mp hinstr
      have hlog : (next s (.run a)).log = s.log ++ [.filterOnOpen cause] := by
        rw [next_run hmain]
        simp [exec, hcomplete]
      refine ⟨_, .refl, fun hproper => ?_⟩
      rw [hlog] at hproper
      have hfinished := (hproper.grounded s.log (.filterOnOpen cause) [] rfl).1
      have hopened : Opened s.log :=
        h.opened.mp (Or.inr (by_contra fun hnot => hcause ⟨hfinished, hnot⟩))
      obtain ⟨cause', hmem⟩ := hopened
      have honce := hproper.once
      have hfirst : 0 < s.log.countP Event.opens := List.countP_pos_iff.mpr ⟨_, hmem, rfl⟩
      have hlast : [Event.filterOnOpen cause].countP Event.opens = 1 := rfl
      rw [List.countP_append, hlast] at honce
      omega
    | sslRead =>
      obtain ⟨hlen, hrest⟩ := Classical.not_imp.mp hinstr
      obtain ⟨hcomplete, hrest⟩ := not_or.mp hrest
      obtain ⟨hset, hfin⟩ := not_or.mp hrest
      have hread : next s (.run a) =
          { s.ssl a with main := .afterRead a.len false :: rest } := by
        rw [next_run hmain]
        simp [exec, hfin, State.ssl, Int.not_le.mpr hlen]
      have hlog : (next (next s (.run a)) (.run a)).log = s.log ++ [.filterOnRead a.len] := by
        rw [hread, next_run rfl]
        simp [exec, Int.not_le.mpr hlen, State.ssl]
      refine ⟨next (next s (.run a)) (.run a), ?_, fun hproper => ?_⟩
      · have he' : machine.Enabled (next s (.run a)) (.run a) := by
          rw [hread]
          exact ⟨_, rfl, trivial⟩
        exact .tail .refl he'
      · rw [hlog] at hproper
        have hopened : Opened s.log := hproper.grounded s.log (.filterOnRead a.len) [] rfl
        exact (not_or.mpr ⟨hcomplete, hset⟩) (h.opened.mpr hopened)
    | setComplete | afterRead | filterOnOpen | filterOnRead | filterDoWrite | beginHandshake
    | sendPending | bioRead | writeRbio | writeWbio | close | callback =>
      exact absurd trivial hinstr

/-- In every run of clean steps the pipeline is opened properly. -/
theorem opens_properly {hs : Handshake} (hhs : hs ≠ .complete)
    (h : machine.Execution Clean (initial hs) s) : Proper s.log :=
  (h.invariant (invariant_initial hhs) fun _ _ _ hi he hc => invariant_step hi he hc).proper

/-- An answer of OpenSSL that wants to read more, after which the handshake is as given. -/
def wantsRead (finished : Bool) : Answer := ⟨-1, .wantRead, false, false, finished⟩

/-- The handshake finishes with the first data that arrive, and the filter is called again from
what it fires. -/
def normalHandshake : List Step :=
  let record : ByteBuffer := ⟨some ⟨1, 4, [1, 2, 3, 0]⟩, ⟨0, 3⟩⟩
  let data : Answer := ⟨3, .none, false, false, true⟩
  [.call .filterOnOpen, .run (wantsRead false), .run (wantsRead false), .run (wantsRead false),
    .call (.filterOnRead record), .run (wantsRead false), .run data, .run data, .run data,
    .run data, .call (.filterDoWrite record), .run data, .run data, .run data, .run data,
    .run data, .run data, .run data]

theorem opens_properly_normalHandshake :
    (machine.runTrace (initial .connect) normalHandshake).log =
        [.initFinished, .filterOnOpen .finished, .filterOnRead 3] ∧
      Proper (machine.runTrace (initial .connect) normalHandshake).log := by
  have hvalid : machine.ValidTrace Clean (initial .connect) normalHandshake := by decide +kernel
  exact ⟨by decide +kernel, opens_properly (by decide) hvalid.execution⟩

/-- The first `SSL_read` fails, and the pipeline is told that it is open. -/
theorem failedHandshake_opens :
    ¬ ∀ hs s, hs ≠ .complete → machine.Reachable (initial hs) s → Proper s.log := by
  intro h
  let failure : Answer := ⟨-1, .ssl, false, false, false⟩
  let trace : List Step :=
    [.call .filterOnOpen, .run (wantsRead false), .run failure, .run failure]
  have hvalid : machine.ValidTrace (fun _ _ => True) (initial .connect) trace := by decide +kernel
  have hproper := h .connect _ (by decide) hvalid.reachable
  have hlog : (machine.runTrace (initial .connect) trace).log =
      [] ++ .filterOnOpen .handshakeFailed :: [] := by decide +kernel
  have hground : Grounded [] (.filterOnOpen .handshakeFailed) := hproper.grounded _ _ _ hlog
  exact absurd hground.1 (by decide)

end FilterOpenssl
