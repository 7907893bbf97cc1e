import Mathlib.Data.List.Basic
import Tcode.SupportTransitionSystem

/-! # Waking up the epoll loop

Threads insert operations under the lock and write one byte into a pipe afterwards. The
loop thread reads up to 256 bytes when it is told that the pipe is readable and takes the
whole queue at the end of that run. User code runs on the loop thread in every frame.
-/
namespace EpollWakeUp

open SupportTransitionSystem

abbrev OperationId := Nat

/-- The size of `pipe_r`. -/
def pipeRead : Nat := 256

/-- Where the loop thread is in `epoll::run`: before `epoll_wait`, in the loop over the events
(whether the pipe is still to come, and `execute_op`), or in the loop over the operations. -/
inductive Frame where
  | wait
  | events (pipe : Bool) (executeOp : Bool)
  | drain
  deriving DecidableEq, Repr

/-- What happens to the pipe. -/
inductive PipeEvent where
  | written
  | read
  deriving DecidableEq, Repr

/-- `loopWaking` and `othersWaking` tell who has inserted operations and not written its byte
yet; `inserted`, `executed` and `log`, the latest event first, are bookkeeping. -/
structure State where
  opQueue : List OperationId
  ops : List OperationId
  frame : Frame
  pipe : Nat
  loopWaking : Bool
  othersWaking : Nat
  inserted : List OperationId
  executed : List OperationId
  log : List PipeEvent
  deriving DecidableEq, Repr

inductive Step where
  | insert (onLoop : Bool) (ops : List OperationId)
  | wakeUp (onLoop : Bool)
  | epollWait (pipe : Bool)
  | readPipe
  | leave
  | opRun
  | finish
  deriving DecidableEq, Repr

/-- Whether the pipe is still to come, in the loop over the events. -/
def Frame.seesPipe : Frame → Option Bool
  | .events pipe _ => some pipe
  | _ => none

/-- The loop thread waits in `wake_up` until the pipe takes its byte. -/
def Enabled (capacity : Nat) (s : State) : Step → Prop
  | .insert onLoop _ => onLoop = true → s.loopWaking = false
  | .wakeUp true => s.pipe < capacity ∧ s.loopWaking = true
  | .wakeUp false => s.pipe < capacity ∧ 0 < s.othersWaking
  | .epollWait pipe => s.loopWaking = false ∧ s.frame = .wait ∧ (pipe = true → 0 < s.pipe)
  | .readPipe => s.loopWaking = false ∧ s.frame.seesPipe = some true
  | .leave => s.loopWaking = false ∧ s.frame.seesPipe = some false
  | .opRun => s.loopWaking = false ∧ s.frame = .drain ∧ s.ops.isEmpty = false
  | .finish => s.loopWaking = false ∧ s.frame = .drain ∧ s.ops.isEmpty = true

instance (capacity : Nat) (s : State) : ∀ e : Step, Decidable (Enabled capacity s e)
  | .insert onLoop _ => inferInstanceAs (Decidable (onLoop = true → s.loopWaking = false))
  | .wakeUp true => inferInstanceAs (Decidable (s.pipe < capacity ∧ s.loopWaking = true))
  | .wakeUp false => inferInstanceAs (Decidable (s.pipe < capacity ∧ 0 < s.othersWaking))
  | .epollWait pipe =>
    inferInstanceAs
      (Decidable (s.loopWaking = false ∧ s.frame = .wait ∧ (pipe = true → 0 < s.pipe)))
  | .readPipe => inferInstanceAs (Decidable (s.loopWaking = false ∧ s.frame.seesPipe = some true))
  | .leave => inferInstanceAs (Decidable (s.loopWaking = false ∧ s.frame.seesPipe = some false))
  | .opRun =>
    inferInstanceAs (Decidable (s.loopWaking = false ∧ s.frame = .drain ∧ s.ops.isEmpty = false))
  | .finish =>
    inferInstanceAs (Decidable (s.loopWaking = false ∧ s.frame = .drain ∧ s.ops.isEmpty = true))

def next (s : State) : Step → State
  | .insert onLoop ops =>
    let t := { s with opQueue := s.opQueue ++ ops, inserted := s.inserted ++ ops }
    if onLoop then { t with loopWaking := true } else { t with othersWaking := s.othersWaking + 1 }
  | .wakeUp onLoop =>
    let t := { s with pipe := s.pipe + 1, log := .written :: s.log }
    if onLoop then { t with loopWaking := false } else { t with othersWaking := s.othersWaking - 1 }
  | .epollWait pipe => { s with frame := .events pipe false }
  | .readPipe =>
    { s with pipe := s.pipe - pipeRead, frame := .events false true, log := .read :: s.log }
  | .leave =>
    match s.frame with
    | .events _ true => { s with ops := s.opQueue, opQueue := [], frame := .drain }
    | _ => { s with frame := .wait }
  | .opRun =>
    match s.ops with
    | [] => s
    | op :: ops => { s with ops, executed := s.executed ++ [op] }
  | .finish => { s with frame := .wait }

def machine (capacity : Nat) : System State Step where
  Enabled := Enabled capacity
  next := next

instance (capacity : Nat) (s : State) (e : Step) : Decidable ((machine capacity).Enabled s e) :=
  inferInstanceAs (Decidable (Enabled capacity s e))

def initial : State where
  opQueue := []
  ops := []
  frame := .wait
  pipe := 0
  loopWaking := false
  othersWaking := 0
  inserted := []
  executed := []
  log := []

/-! ## Posted operations -/

/-- The loop thread has read the pipe and goes on to take the queue. -/
def Frame.takes : Frame → Prop
  | .events false true => True
  | _ => False

/-- Operations wait outside the drain loop only while something is on the way that takes them. -/
structure NotStranded (s : State) : Prop where
  woken : s.opQueue ≠ [] →
    0 < s.pipe ∨ Frame.takes s.frame ∨ s.loopWaking = true ∨ 0 < s.othersWaking
  order : s.executed ++ s.ops ++ s.opQueue = s.inserted
  drained : s.frame ≠ .drain → s.ops = []

variable {capacity : Nat} {s : State}

theorem events_of_seesPipe {f : Frame} {pipe : Bool} (h : f.seesPipe = some pipe) :
    ∃ executeOp, f = .events pipe executeOp := by
  cases f with
  | events p executeOp => exact ⟨executeOp, by rw [Option.some.inj h]⟩
  | _ => cases h

theorem notStranded_step (h : NotStranded s) {e : Step} (he : Enabled capacity s e) :
    NotStranded (next s e) := by
  cases e with
  | insert onLoop ops =>
    have horder : s.executed ++ s.ops ++ (s.opQueue ++ ops) = s.inserted ++ ops := by
      rw [← List.append_assoc, h.order]
    cases onLoop with
    | true => exact ⟨fun _ => Or.inr (Or.inr (Or.inl rfl)), horder, h.drained⟩
    | false =>
      exact ⟨fun _ => Or.inr (Or.inr (Or.inr (Nat.succ_pos _))), horder, h.drained⟩
  | wakeUp onLoop =>
    cases onLoop with
    | true => exact ⟨fun _ => Or.inl (Nat.succ_pos _), h.order, h.drained⟩
    | false => exact ⟨fun _ => Or.inl (Nat.succ_pos _), h.order, h.drained⟩
  | epollWait pipe =>
    obtain ⟨hfree, hf, -⟩ := he
    refine ⟨fun hne => ?_, h.order, fun _ => h.drained (by simp [hf])⟩
    rcases h.woken hne with hpipe | htakes | hwaking
    · exact Or.inl hpipe
    · rw [hf] at htakes
      cases htakes
    · exact Or.inr (Or.inr hwaking)
  | readPipe =>
    obtain ⟨executeOp, hf⟩ := events_of_seesPipe he.2
    exact ⟨fun _ => Or.inr (Or.inl trivial), h.order, fun _ => h.drained (by simp [hf])⟩
  | leave =>
    obtain ⟨executeOp, hf⟩ := events_of_seesPipe he.2
    have hnone : s.ops = [] := h.drained (by simp [hf])
    cases executeOp with
    | true =>
      simp only [next, hf]
      refine ⟨fun hne => absurd rfl hne, ?_, fun hne => absurd rfl hne⟩
      have horder := h.order
      rw [hnone, List.append_nil] at horder
      simpa using horder
    | false =>
      simp only [next, hf]
      refine ⟨fun hne => ?_, h.order, fun _ => hnone⟩
      rcases h.woken hne with hpipe | htakes | hwaking
      · exact Or.inl hpipe
      · rw [hf] at htakes
        cases htakes
      · exact Or.inr (Or.inr hwaking)
  | opRun =>
    obtain ⟨-, hf, hne⟩ := he
    obtain ⟨op, ops, hops⟩ := List.exists_cons_of_ne_nil (List.isEmpty_eq_false_iff.mp hne)
    simp only [next, hops]
    refine ⟨h.woken, ?_, fun hnot => absurd hf hnot⟩
    have horder := h.order
    rw [hops] at horder
    simpa using horder
  | finish =>
    obtain ⟨-, hf, hnone⟩ := he
    refine ⟨fun hne => ?_, h.order, fun _ => List.isEmpty_iff.mp hnone⟩
    rcases h.woken hne with hpipe | htakes | hwaking
    · exact Or.inl hpipe
    · rw [hf] at htakes
      cases htakes
    · exact Or.inr (Or.inr hwaking)

/-- Posted operations are not stranded, and executed in the order in which they were inserted. -/
theorem posted_not_stranded (h : (machine capacity).Reachable initial s) : NotStranded s := by
  refine h.invariant ?_ fun _ _ _ hu he _ => notStranded_step hu he
  exact ⟨fun hne => absurd rfl hne, rfl, fun _ => rfl⟩

/-- Another thread inserts while the loop thread runs an operation that posts one as well. -/
def twoThreads : List Step :=
  [.insert false [1], .wakeUp false, .epollWait true, .readPipe, .leave, .insert false [2], .opRun,
    .insert true [3, 4], .wakeUp true, .finish, .epollWait true, .wakeUp false, .readPipe, .leave,
    .opRun, .opRun]

theorem posted_not_stranded_twoThreads :
    let s := (machine 65536).runTrace initial twoThreads
    NotStranded s ∧ s.executed = [1, 2, 3] ∧ s.ops = [4] := by
  have hvalid : (machine 65536).ValidTrace (fun _ _ => True) initial twoThreads := by decide
  exact ⟨posted_not_stranded hvalid.reachable, by decide, by decide⟩

/-! ## The pipe -/

/-- The bytes in the pipe after these events. -/
def level : List PipeEvent → Nat
  | [] => 0
  | .written :: log => level log + 1
  | .read :: log => level log - pipeRead

/-- Since every earlier moment fewer bytes were written than the pipe takes and than were
read since then. -/
def Sparse (capacity : Nat) (log : List PipeEvent) : Prop :=
  ∀ recent older, log = recent ++ older →
    recent.count .written < capacity + pipeRead * recent.count .read

theorem sparse_nil : Sparse capacity [] ↔ 0 < capacity := by
  constructor
  · intro h
    exact h [] [] rfl
  · intro h recent older hlog
    rw [(List.append_eq_nil_iff.mp hlog.symm).1]
    exact h

theorem sparse_cons {log : List PipeEvent} {e : PipeEvent} : Sparse capacity (e :: log) ↔
    0 < capacity ∧ ∀ recent older, log = recent ++ older →
      (e :: recent).count .written < capacity + pipeRead * (e :: recent).count .read := by
  constructor
  · intro h
    refine ⟨h [] (e :: log) rfl, fun recent older hlog => ?_⟩
    exact h (e :: recent) older (by rw [hlog, List.cons_append])
  · rintro ⟨hpos, h⟩ recent older hlog
    cases recent with
    | nil => exact hpos
    | cons x recent =>
      obtain ⟨rfl, hrest⟩ := List.cons.inj hlog
      exact h recent older hrest

/-- The pipe holds fewer than `capacity` bytes exactly when the writing was sparse. -/
theorem level_lt_iff {log : List PipeEvent} : level log < capacity ↔ Sparse capacity log := by
  induction log generalizing capacity with
  | nil =>
    rw [sparse_nil, level]
  | cons e log ih =>
    rw [sparse_cons]
    cases e with
    | written =>
      have hne : PipeEvent.written ≠ .read := by decide
      simp only [level, List.count_cons_self, List.count_cons_of_ne hne]
      cases capacity with
      | zero => omega
      | succ capacity =>
        rw [Nat.add_lt_add_iff_right, ih]
        rw [and_iff_right (Nat.succ_pos capacity)]
        refine forall_congr' fun recent => forall_congr' fun older => imp_congr_right fun hlog => ?_
        omega
    | read =>
      have hne : PipeEvent.read ≠ .written := by decide
      simp only [level, List.count_cons_self, List.count_cons_of_ne hne]
      have hread :
          level log - pipeRead < capacity ↔ 0 < capacity ∧ level log < capacity + pipeRead := by
        omega
      rw [hread, ih]
      refine and_congr_right fun hpos => forall_congr' fun recent => forall_congr' fun older => ?_
      refine imp_congr_right fun hlog => ?_
      rw [Nat.mul_add, Nat.mul_one]
      omega

theorem pipe_eq_level (h : (machine capacity).Reachable initial s) : s.pipe = level s.log := by
  refine h.invariant (I := fun u => u.pipe = level u.log) rfl fun u e _ hu he _ => ?_
  cases e with
  | insert onLoop ops => cases onLoop <;> exact hu
  | wakeUp onLoop => cases onLoop <;> exact congrArg (· + 1) hu
  | epollWait pipe => exact hu
  | readPipe => exact congrArg (· - pipeRead) hu
  | leave =>
    obtain ⟨executeOp, hf⟩ := events_of_seesPipe he.2
    simp only [machine, next, hf]
    cases executeOp <;> exact hu
  | opRun =>
    simp only [machine, next]
    split <;> exact hu
  | finish => exact hu

/-! ## The loop thread and its own pipe -/

/-- The loop thread does not wait for itself. -/
def FindsSpace (capacity : Nat) (s : State) : Prop := s.loopWaking = true → s.pipe < capacity

/-- The pipe has not been written to too often when the loop thread calls `wake_up`, nor by
another thread while the loop thread does. -/
def Spares (capacity : Nat) (s : State) : Step → Prop
  | .insert true _ => Sparse capacity s.log
  | .wakeUp false => s.loopWaking = true → Sparse capacity (.written :: s.log)
  | _ => True

theorem findsSpace_step_iff (h : (machine capacity).Reachable initial s)
    (hspace : FindsSpace capacity s) {e : Step} (he : Enabled capacity s e) :
    FindsSpace capacity (next s e) ↔ Spares capacity s e := by
  have hpipe := pipe_eq_level h
  cases e with
  | insert onLoop ops =>
    cases onLoop with
    | true =>
      rw [Spares, ← level_lt_iff, ← hpipe]
      exact ⟨fun hnext => hnext rfl, fun hless _ => hless⟩
    | false => exact ⟨fun _ => trivial, fun _ => hspace⟩
  | wakeUp onLoop =>
    cases onLoop with
    | true => exact ⟨fun _ => trivial, fun _ => nofun⟩
    | false =>
      rw [Spares, ← level_lt_iff, level, ← hpipe]
      exact Iff.rfl
  | epollWait pipe => exact ⟨fun _ => trivial, fun _ => hspace⟩
  | readPipe =>
    refine ⟨fun _ => trivial, fun _ hwaking => ?_⟩
    have hless := hspace hwaking
    show s.pipe - pipeRead < capacity
    omega
  | leave =>
    refine ⟨fun _ => trivial, fun _ => ?_⟩
    obtain ⟨executeOp, hf⟩ := events_of_seesPipe he.2
    simp only [next, hf]
    cases executeOp <;> exact hspace
  | opRun =>
    refine ⟨fun _ => trivial, fun _ => ?_⟩
    simp only [next]
    split <;> exact hspace
  | finish => exact ⟨fun _ => trivial, fun _ => hspace⟩

instance (log : List PipeEvent) : Decidable (Sparse capacity log) :=
  decidable_of_iff _ level_lt_iff

instance (s : State) : ∀ e : Step, Decidable (Spares capacity s e)
  | .insert true _ => inferInstanceAs (Decidable (Sparse capacity s.log))
  | .wakeUp false =>
    inferInstanceAs (Decidable (s.loopWaking = true → Sparse capacity (.written :: s.log)))
  | .insert false _ | .wakeUp true | .epollWait _ | .readPipe | .leave | .opRun | .finish =>
    isTrue trivial

/-- An operation that posts as many as the pipe takes. -/
def fanOutOfTwo : List Step :=
  [.insert false [1], .wakeUp false, .epollWait true, .readPipe, .leave, .opRun, .insert true [2],
    .wakeUp true, .insert true [3]]

/-- An operation runs on the loop thread, and nothing is in the pipe. -/
theorem operation_runs (capacity : Nat) : ∃ s, (machine (capacity + 1)).Reachable initial s ∧
    s.pipe = 0 ∧ s.loopWaking = false := by
  have hinserted := System.Execution.refl.tail (M := machine (capacity + 1)) (s := initial)
    (C := fun _ _ => True) (e := Step.insert false [1]) nofun trivial
  have hwoken := hinserted.tail (e := Step.wakeUp false) ⟨Nat.succ_pos _, Nat.one_pos⟩ trivial
  have hwaited := hwoken.tail (e := Step.epollWait true) ⟨rfl, rfl, fun _ => Nat.one_pos⟩ trivial
  have hread := hwaited.tail (e := Step.readPipe) ⟨rfl, rfl⟩ trivial
  have htaken := hread.tail (e := Step.leave) ⟨rfl, rfl⟩ trivial
  have hpipe : 0 + 1 - pipeRead = 0 := by decide
  exact ⟨_, htaken.tail (e := Step.opRun) ⟨rfl, rfl, rfl⟩ trivial, hpipe, rfl⟩

/-- The operation posts others one after the other. -/
theorem operation_fills {n : Nat} (hn : n ≤ capacity + 1) :
    ∃ s, (machine (capacity + 1)).Reachable initial s ∧ s.pipe = n ∧ s.loopWaking = false := by
  induction n with
  | zero => exact operation_runs capacity
  | succ n ih =>
    obtain ⟨s, hreach, hpipe, hfree⟩ := ih (Nat.le_of_succ_le hn)
    have hinserted := hreach.tail (e := Step.insert true [0]) fun _ => hfree
    have hspace : s.pipe < capacity + 1 := by omega
    have hwoken := hinserted.tail (e := Step.wakeUp true) ⟨hspace, rfl⟩
    exact ⟨_, hwoken, congrArg (· + 1) hpipe, rfl⟩

end EpollWakeUp
