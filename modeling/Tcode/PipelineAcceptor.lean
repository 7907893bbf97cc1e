import Mathlib.Data.List.Forall2
import Tcode.SupportTransitionSystem

/-! # pipeline_acceptor

The acceptor has one socket, `_fd`, into which the multiplexer puts the descriptor of a connection
before the handler runs. Between the end of a handler and `do_accept` other threads and the
callbacks may close the acceptor, so `do_accept` is a step of its own. A code of zero is success.

`made`, `lost`, `completions` and `handled` are bookkeeping.
-/
namespace PipelineAcceptor

open SupportTransitionSystem

abbrev ErrorCode := Int
abbrev DescriptorId := Nat

/-- `_engine` is not null, and `_descriptor`. -/
structure Socket where
  engine : Bool
  descriptor : Option DescriptorId
  deriving DecidableEq, Repr

/-- `socket( engine() )`. -/
def Socket.fresh : Socket := ⟨true, none⟩

/-- A socket that was moved from. -/
def Socket.movedFrom : Socket := ⟨false, none⟩

/-- How the multiplexer completes an accept operation. -/
inductive Completion (α : Type) where
  | accepted (d : DescriptorId) (addr : α)
  | failed (ec : ErrorCode)
  deriving DecidableEq, Repr

/-- What a handler does: the channel of the socket is opened, the socket is closed, the channel is
deleted and `error_pipeline_build_fail` reported, or the error is reported. -/
inductive Reaction (α : Type) where
  | opened (fd : Socket) (addr : α)
  | closed (fd : Socket)
  | buildFail (fd : Socket)
  | onError (ec : ErrorCode)
  deriving DecidableEq, Repr

/-- A reaction and the answers of `on_condition` and `build` that it was made on. -/
structure Handled (α : Type) where
  onCondition : Bool
  build : Bool
  reaction : Reaction α
  deriving DecidableEq, Repr

structure State (α : Type) where
  /-- The descriptor of `_acceptor`. -/
  descriptor : Option DescriptorId
  fd : Socket
  /-- Accept operations that the multiplexer has. -/
  waiting : Nat
  /-- Completed operations whose handlers have not run. -/
  completed : List (Completion α)
  /-- Calls that have still to come to `do_accept`. -/
  accepting : Nat
  made : DescriptorId
  /-- Descriptors whose last pointer was overwritten. -/
  lost : List DescriptorId
  completions : List (Completion α)
  handled : List (Handled α)
  deriving DecidableEq, Repr

variable {α : Type}

def initial : State α := ⟨none, .fresh, 0, [], 0, 0, [], [], []⟩

/-- How `multiplexer::listen` ends: no listening file, a file that cannot be registered, or a
descriptor that listens. -/
inductive Listen where
  | noFile
  | notBound
  | listening
  deriving DecidableEq, Repr

def listen (r : Listen) (s : State α) : State α :=
  match r with
  | .noFile => s
  | .notBound => { s with descriptor := none, lost := s.lost ++ s.descriptor.toList }
  | .listening =>
    { s with
      descriptor := some s.made
      made := s.made + 1
      lost := s.lost ++ s.descriptor.toList
      accepting := s.accepting + 1 }

/-- `multiplexer::accept` drops an operation that comes without a descriptor. -/
def doAccept (s : State α) : State α :=
  { s with
    accepting := s.accepting - 1
    fd := .fresh
    lost := s.lost ++ s.fd.descriptor.toList
    waiting := if s.descriptor.isSome then s.waiting + 1 else s.waiting }

/-- The multiplexer accepts a connection into the socket of the operation. -/
def accepted (addr : α) (s : State α) : State α :=
  { s with
    waiting := s.waiting - 1
    fd := { s.fd with descriptor := some s.made }
    made := s.made + 1
    lost := s.lost ++ s.fd.descriptor.toList
    completed := s.completed ++ [.accepted s.made addr]
    completions := s.completions ++ [.accepted s.made addr] }

/-- The operation fails, or is aborted. -/
def failed (ec : ErrorCode) (s : State α) : State α :=
  { s with
    waiting := s.waiting - 1
    completed := s.completed ++ [.failed ec]
    completions := s.completions ++ [.failed ec] }

/-- What the handler does with `fd` and what is left in it. -/
def react (onCondition build : Bool) (c : Completion α) (fd : Socket) : Reaction α × Socket :=
  match c with
  | .failed ec => (.onError ec, fd)
  | .accepted _ addr =>
    if onCondition then
      -- The socket is moved into the channel, whose destructor closes it.
      if build then (.opened fd addr, .movedFrom) else (.buildFail fd, .movedFrom)
    else (.closed fd, { fd with descriptor := none })

/-- `handle_accept` up to its last call. -/
def handleAccept (onCondition build : Bool) (s : State α) : State α :=
  match s.completed with
  | [] => s
  | c :: rest =>
    { s with
      completed := rest
      accepting := s.accepting + 1
      fd := (react onCondition build c s.fd).2
      handled := s.handled ++ [⟨onCondition, build, (react onCondition build c s.fd).1⟩] }

inductive Step (α : Type) where
  | listen (r : Listen)
  | close
  | doAccept
  | accepted (addr : α)
  | failed (ec : ErrorCode)
  | handleAccept (onCondition build : Bool)
  deriving DecidableEq, Repr

def Enabled (s : State α) : Step α → Prop
  | .listen _ | .close => True
  | .doAccept => 0 < s.accepting
  | .accepted _ => 0 < s.waiting
  | .failed ec => 0 < s.waiting ∧ ec ≠ 0
  | .handleAccept _ _ => s.completed ≠ []

def next (s : State α) : Step α → State α
  | .listen r => listen r s
  | .close => { s with descriptor := none }
  | .doAccept => doAccept s
  | .accepted addr => accepted addr s
  | .failed ec => failed ec s
  | .handleAccept onCondition build => handleAccept onCondition build s

def machine (α : Type) : System (State α) (Step α) := ⟨Enabled, next⟩

instance [DecidableEq α] (s : State α) : ∀ e : Step α, Decidable (Enabled s e)
  | .listen _ | .close => isTrue trivial
  | .doAccept => inferInstanceAs (Decidable (0 < s.accepting))
  | .accepted _ => inferInstanceAs (Decidable (0 < s.waiting))
  | .failed _ => inferInstanceAs (Decidable (_ ∧ _))
  | .handleAccept _ _ => inferInstanceAs (Decidable (s.completed ≠ []))

instance [DecidableEq α] (s : State α) (e : Step α) : Decidable ((machine α).Enabled s e) :=
  inferInstanceAs (Decidable (Enabled s e))

/-! ## What is to hold -/

/-- Accept operations on their way, from `do_accept` to `do_accept`. -/
def State.outstanding (s : State α) : Nat := s.waiting + s.completed.length + s.accepting

def Completion.descriptor : Completion α → Option DescriptorId
  | .accepted d _ => some d
  | .failed _ => none

/-- The connection itself is opened with its address, or its own descriptor is closed. -/
def Answers : Completion α → Handled α → Prop
  | .failed ec, x => x.reaction = .onError ec
  | .accepted d addr, x =>
    x.reaction =
      if x.onCondition = false then .closed ⟨true, some d⟩
      else if x.build then .opened ⟨true, some d⟩ addr
      else .buildFail ⟨true, some d⟩

/-- `listen` is called when nothing listens and no earlier accept is on its way. -/
def Clean (s : State α) : Step α → Prop
  | .listen _ => s.descriptor = none ∧ s.outstanding = 0
  | _ => True

instance (s : State α) : ∀ e : Step α, Decidable (Clean s e)
  | .listen _ => inferInstanceAs (Decidable (_ ∧ _))
  | .close | .doAccept | .accepted _ | .failed _ | .handleAccept _ _ => isTrue trivial

/-- The steps from here to the end, once nothing listens. -/
def State.remaining (s : State α) : Nat := 3 * s.waiting + 2 * s.completed.length + s.accepting

/-- The steps that are neither calls of the user nor `close`. -/
def Step.OfLoop : Step α → Prop
  | .listen _ | .close => False
  | _ => True

structure Faithful (s : State α) : Prop where
  single : s.outstanding ≤ 1
  listening : s.descriptor.isSome → s.outstanding = 1
  /-- Each completion is answered once and in turn, apart from what waits for its handler. -/
  answered : ∃ answered, s.completions = answered ++ s.completed ∧
    List.Forall₂ Answers answered s.handled
  distinct : (s.completions.filterMap Completion.descriptor).Pairwise (· < ·)
  kept : s.lost = []
  ends : s.descriptor = none → ∀ e, Enabled s e → e.OfLoop →
    (next s e).descriptor = none ∧ (next s e).remaining < s.remaining

/-! ## The invariant -/

variable {s : State α} {c : Completion α} {onCondition build : Bool} {fd : Socket}

/-- The socket is live while an operation is on its way, and has the descriptor of the operation
whose handler is next. -/
structure Invariant (s : State α) : Prop where
  single : s.outstanding ≤ 1
  listening : s.descriptor.isSome → s.outstanding = 1
  engine : 0 < s.waiting + s.completed.length → s.fd.engine = true
  held : s.fd.descriptor = s.completed.head?.bind Completion.descriptor
  answered : ∃ answered, s.completions = answered ++ s.completed ∧
    List.Forall₂ Answers answered s.handled
  distinct : (s.completions.filterMap Completion.descriptor).Pairwise (· < ·)
  below : ∀ d ∈ s.completions.filterMap Completion.descriptor, d < s.made
  kept : s.lost = []

theorem invariant_initial : Invariant (initial : State α) where
  single := Nat.zero_le _
  listening h := absurd h Bool.false_ne_true
  engine _ := rfl
  held := rfl
  answered := ⟨[], rfl, .nil⟩
  distinct := .nil
  below _ h := absurd h List.not_mem_nil
  kept := rfl

/-- The handler meets its completion: the socket has this and no other descriptor. -/
theorem react_answers (hengine : fd.engine = true) (hfd : fd.descriptor = c.descriptor) :
    Answers c ⟨onCondition, build, (react onCondition build c fd).1⟩ := by
  cases c with
  | failed ec => rfl
  | accepted d addr =>
    obtain rfl : fd = ⟨true, some d⟩ := by
      cases fd
      simp_all [Completion.descriptor]
    cases onCondition with
    | false => rfl
    | true => cases build <;> rfl

/-- The handler leaves no descriptor behind. -/
theorem react_descriptor (hfd : fd.descriptor = c.descriptor) :
    (react onCondition build c fd).2.descriptor = none := by
  cases c with
  | failed ec => exact hfd
  | accepted d addr =>
    cases onCondition with
    | false => rfl
    | true => cases build <;> rfl

/-- Where an operation waits at the multiplexer, no other is on its way. -/
theorem Invariant.waiting (h : Invariant s) (hw : 0 < s.waiting) :
    s.waiting = 1 ∧ s.completed = [] ∧ s.accepting = 0 ∧ s.fd.descriptor = none := by
  have hsingle := h.single
  have hheld := h.held
  unfold State.outstanding at hsingle
  obtain hnil : s.completed = [] := List.eq_nil_of_length_eq_zero (by omega)
  rw [hnil] at hheld
  exact ⟨by omega, hnil, by omega, hheld⟩

theorem Invariant.completed {rest : List (Completion α)} (h : Invariant s)
    (hc : s.completed = c :: rest) :
    rest = [] ∧ s.waiting = 0 ∧ s.accepting = 0 ∧ s.fd.engine = true ∧
      s.fd.descriptor = c.descriptor := by
  have hsingle := h.single
  have hheld := h.held
  have hlen : s.completed.length = rest.length + 1 := by rw [hc, List.length_cons]
  unfold State.outstanding at hsingle
  rw [hc] at hheld
  exact ⟨List.eq_nil_of_length_eq_zero (by omega), by omega, by omega, h.engine (by omega), hheld⟩

theorem Invariant.accepting (h : Invariant s) (ha : 0 < s.accepting) :
    s.accepting = 1 ∧ s.waiting = 0 ∧ s.completed = [] ∧ s.fd.descriptor = none := by
  have hsingle := h.single
  have hheld := h.held
  unfold State.outstanding at hsingle
  obtain hnil : s.completed = [] := List.eq_nil_of_length_eq_zero (by omega)
  rw [hnil] at hheld
  exact ⟨by omega, by omega, hnil, hheld⟩

/-! ## The steps -/

theorem listen_invariant {r : Listen} (h : Invariant s) (hnone : s.descriptor = none)
    (hidle : s.outstanding = 0) : Invariant (listen r s) := by
  cases r with
  | noFile => exact h
  | notBound =>
    refine ⟨h.single, fun hsome => absurd hsome Bool.false_ne_true, h.engine, h.held, h.answered,
      h.distinct, h.below, ?_⟩
    simp only [listen, h.kept, hnone, Option.toList_none, List.append_nil]
  | listening =>
    have hone : (listen .listening s).outstanding = 1 := by
      rw [State.outstanding] at hidle
      simp only [listen, State.outstanding]
      omega
    refine ⟨Nat.le_of_eq hone, fun _ => hone, h.engine, h.held, h.answered, h.distinct,
      fun d hd => Nat.lt_succ_of_lt (h.below d hd), ?_⟩
    simp only [listen, h.kept, hnone, Option.toList_none, List.append_nil]

theorem close_invariant (h : Invariant s) : Invariant { s with descriptor := none } :=
  ⟨h.single, fun hsome => absurd hsome Bool.false_ne_true, h.engine, h.held, h.answered,
    h.distinct, h.below, h.kept⟩

theorem doAccept_invariant (h : Invariant s) (ha : 0 < s.accepting) : Invariant (doAccept s) := by
  obtain ⟨hone, hwaiting, hnil, hfd⟩ := h.accepting ha
  refine ⟨?_, ?_, fun _ => rfl, ?_, h.answered, h.distinct, h.below, ?_⟩
  · simp only [doAccept, State.outstanding, hwaiting, hnil, hone, List.length_nil]
    split <;> decide
  · intro hsome
    simp only [doAccept, State.outstanding, hwaiting, hnil, hone, List.length_nil]
    have hlistens : s.descriptor.isSome := hsome
    rw [if_pos hlistens]
  · simp only [doAccept, hnil]
    rfl
  · simp only [doAccept, h.kept, hfd, Option.toList_none, List.append_nil]

theorem accepted_invariant {addr : α} (h : Invariant s) (hw : 0 < s.waiting) :
    Invariant (accepted addr s) := by
  obtain ⟨hone, hnil, hidle, hfd⟩ := h.waiting hw
  obtain ⟨answered, hcompletions, hhandled⟩ := h.answered
  have hids : (accepted addr s).completions.filterMap Completion.descriptor =
      s.completions.filterMap Completion.descriptor ++ [s.made] := by
    rw [accepted, List.filterMap_append]
    rfl
  refine ⟨?_, fun _ => ?_, fun _ => h.engine (by omega), ?_, ⟨answered, ?_, hhandled⟩, ?_, ?_, ?_⟩
  · simp [accepted, State.outstanding, hone, hnil, hidle]
  · simp [accepted, State.outstanding, hone, hnil, hidle]
  · simp only [accepted, hnil]
    rfl
  · simp only [accepted, hcompletions, List.append_assoc]
  · rw [hids]
    exact List.pairwise_append.mpr ⟨h.distinct, List.pairwise_singleton _ _,
      fun d hd e he => List.mem_singleton.mp he ▸ h.below d hd⟩
  · intro d hd
    rw [hids, List.mem_append, List.mem_singleton] at hd
    rcases hd with hd | rfl
    · exact Nat.lt_succ_of_lt (h.below d hd)
    · exact Nat.lt_succ_self _
  · simp only [accepted, h.kept, hfd, Option.toList_none, List.append_nil]

theorem failed_invariant {ec : ErrorCode} (h : Invariant s) (hw : 0 < s.waiting) :
    Invariant (failed ec s) := by
  obtain ⟨hone, hnil, hidle, hfd⟩ := h.waiting hw
  obtain ⟨answered, hcompletions, hhandled⟩ := h.answered
  have hids : (failed ec s).completions.filterMap Completion.descriptor =
      s.completions.filterMap Completion.descriptor := by
    rw [failed, List.filterMap_append]
    exact List.append_nil _
  refine ⟨?_, fun _ => ?_, fun _ => h.engine (by omega), ?_, ⟨answered, ?_, hhandled⟩,
    hids ▸ h.distinct, hids ▸ h.below, h.kept⟩
  · simp [failed, State.outstanding, hone, hnil, hidle]
  · simp [failed, State.outstanding, hone, hnil, hidle]
  · simp only [failed, hnil, hfd]
    rfl
  · simp only [failed, hcompletions, List.append_assoc]

theorem handleAccept_invariant (h : Invariant s) (hne : s.completed ≠ []) :
    Invariant (handleAccept onCondition build s) := by
  obtain ⟨c, rest, hc⟩ := List.exists_cons_of_ne_nil hne
  obtain ⟨hrest, hwaiting, hidle, hengine, hfd⟩ := h.completed hc
  obtain ⟨answered, hcompletions, hhandled⟩ := h.answered
  have hone : (handleAccept onCondition build s).outstanding = 1 := by
    simp [handleAccept, State.outstanding, hc, hrest, hwaiting, hidle]
  have hlen : (handleAccept onCondition build s).waiting +
      (handleAccept onCondition build s).completed.length = 0 := by
    simp [handleAccept, hc, hrest, hwaiting]
  have heq : (handleAccept onCondition build s).completions = s.completions := by
    simp only [handleAccept, hc]
  have hmade : (handleAccept onCondition build s).made = s.made := by
    simp only [handleAccept, hc]
  refine ⟨Nat.le_of_eq hone, fun _ => hone, fun hpos => absurd hlen (Nat.ne_of_gt hpos), ?_,
    ⟨answered ++ [c], ?_, ?_⟩, heq ▸ h.distinct, heq ▸ hmade ▸ h.below, ?_⟩
  · simp only [handleAccept, hc, hrest]
    exact react_descriptor hfd
  · rw [heq, hcompletions, hc]
    simp only [handleAccept, hc, List.append_assoc, List.singleton_append]
  · simp only [handleAccept, hc]
    exact List.rel_append hhandled (.cons (react_answers hengine hfd) .nil)
  · simp only [handleAccept, hc, h.kept]

theorem invariant_step {e : Step α} (h : Invariant s) (he : Enabled s e) (hclean : Clean s e) :
    Invariant (next s e) := by
  cases e with
  | listen r => exact listen_invariant h hclean.1 hclean.2
  | close => exact close_invariant h
  | doAccept => exact doAccept_invariant h he
  | accepted addr => exact accepted_invariant h he
  | failed ec => exact failed_invariant h he.1
  | handleAccept onCondition build => exact handleAccept_invariant h he

theorem invariant_execution (h : (machine α).Execution Clean initial s) : Invariant s :=
  h.invariant invariant_initial fun _ _ _ hi he hc => invariant_step hi he hc

/-- Without a listening descriptor each step brings the loop nearer to its end. -/
theorem remaining_step {e : Step α} (hnone : s.descriptor = none) (he : Enabled s e)
    (hloop : e.OfLoop) : (next s e).descriptor = none ∧ (next s e).remaining < s.remaining := by
  cases e with
  | listen r => exact hloop.elim
  | close => exact hloop.elim
  | doAccept =>
    have hpos : 0 < s.accepting := he
    refine ⟨hnone, ?_⟩
    simp only [next, doAccept, State.remaining, hnone, Option.isSome_none, Bool.false_eq_true,
      if_false]
    omega
  | accepted addr =>
    have hpos : 0 < s.waiting := he
    refine ⟨hnone, ?_⟩
    simp only [next, accepted, State.remaining, List.length_append, List.length_singleton]
    omega
  | failed ec =>
    have hpos : 0 < s.waiting := he.1
    refine ⟨hnone, ?_⟩
    simp only [next, failed, State.remaining, List.length_append, List.length_singleton]
    omega
  | handleAccept onCondition build =>
    obtain ⟨c, rest, hc⟩ := List.exists_cons_of_ne_nil he
    simp only [next, handleAccept, State.remaining, hc, List.length_cons]
    exact ⟨hnone, by omega⟩

/-! ## Every connection is answered -/

/-- While the acceptor listens it has exactly one accept on its way. Every connection is opened or
closed once and in turn, none is lost, and behind a close the loop comes to its end. -/
theorem accepts_faithfully (h : (machine α).Execution Clean initial s) : Faithful s := by
  have hinv := invariant_execution h
  exact ⟨hinv.single, hinv.listening, hinv.answered, hinv.distinct, hinv.kept,
    fun hnone _ he hloop => remaining_step hnone he hloop⟩

/-- One connection is opened and one is not built, before a close aborts the third accept. -/
def threeAccepts : List (Step Nat) :=
  [.listen .listening, .doAccept, .accepted 10, .handleAccept true true, .doAccept, .accepted 20,
    .handleAccept true false, .doAccept, .close, .failed 125, .handleAccept true true, .doAccept]

theorem accepts_faithfully_threeAccepts :
    let s := (machine Nat).runTrace initial threeAccepts
    s.handled = [⟨true, true, .opened ⟨true, some 1⟩ 10⟩, ⟨true, false, .buildFail ⟨true, some 2⟩⟩,
        ⟨true, true, .onError 125⟩] ∧
      s.outstanding = 0 ∧ Faithful s := by
  have hvalid : (machine Nat).ValidTrace Clean initial threeAccepts := by decide
  exact ⟨by decide, by decide, accepts_faithfully hvalid.execution⟩

/-- A second `listen` beside a waiting accept shares its socket: of two connections that arrive
before a handler runs, the first is lost. -/
theorem Invariant.lost_of_second_listen {a b : α} (h : Invariant s) (hw : 0 < s.waiting) :
    s.made + 1 ∈ (((machine α).runTrace s [.listen .listening, .doAccept, .accepted a,
      .accepted b]).lost) := by
  obtain ⟨-, -, -, hfd⟩ := h.waiting hw
  simp [System.runTrace, machine, next, listen, doAccept, accepted, Socket.fresh]

end PipelineAcceptor
