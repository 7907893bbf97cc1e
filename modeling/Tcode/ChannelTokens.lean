import Tcode.ChannelMachine

/-! # What the parts of a channel carry

A weight of instructions, closures and operations that agrees with what each of them
turns into. Its load is kept when a closure or a handler starts, so it changes only by
what single instructions gain.
-/
namespace ChannelTokens

open ChannelFlagWord ChannelMachine SupportListSums SupportTransitionSystem

/-- `execute` weighs what its closure weighs. -/
def weigh (own : Instr → Nat) (task : Task → Nat) : Instr → Nat
  | .execute t => task t
  | i => own i

structure Tokens where
  own : Instr → Nat
  task : Task → Nat
  op : Op → Nat
  task_code : ∀ t, total (weigh own task) t.code = task t
  op_handler : ∀ o r, total (weigh own task) (o.handler r) = op o

namespace Tokens

variable {F : Type} {W : FlagWord F} (w : Tokens)

def instr : Instr → Nat := weigh w.own w.task

@[simp] theorem instr_execute (t : Task) : w.instr (.execute t) = w.task t := rfl

def load (s : State F) : Nat :=
  total w.instr s.main + total w.instr s.others + total w.task s.tasks + total w.op s.ops

variable {w} in
theorem instr_le_load {s : State F} {i : Instr} {rest : List Instr} (h : s.main = i :: rest) :
    w.instr i ≤ w.load s := by
  simp only [load, h, total_cons]
  omega

end Tokens

/-- The closure an instruction leaves with the engine. -/
def newTasks : Instr → List Task
  | .execute t => [t]
  | _ => []

/-- The operation an instruction gives to the socket. -/
def newOps {F : Type} (s : State F) : Instr → List Op
  | .readBody => [.read]
  | .writeBody => [.write (writeRequest s.writeBuffers)]
  | _ => []

section Execution

variable {F : Type} (W : FlagWord F) (w : Tokens)

theorem exec_lists (onLoop : Bool) (s : State F) (i : Instr) :
    (exec W onLoop s i).1.main = s.main ∧ (exec W onLoop s i).1.others = s.others ∧
      (exec W onLoop s i).1.tasks = s.tasks ++ newTasks i ∧
      (exec W onLoop s i).1.ops = s.ops ++ newOps s i := by
  cases i <;> simp only [exec, newTasks, newOps, List.append_nil] <;> repeat' split
  all_goals simp

/-- The instructions still to be done are not looked at. -/
theorem exec_with_lists (onLoop : Bool) (s : State F) (main others : List Instr) (i : Instr) :
    exec W onLoop { s with main, others } i =
      ({ (exec W onLoop s i).1 with main, others }, (exec W onLoop s i).2) := by
  cases i <;> simp only [exec] <;> repeat' split
  all_goals simp_all

theorem next_run {s : State F} {i : Instr} {rest : List Instr} (hmain : s.main = i :: rest) :
    next W s .run =
      { (exec W true s i).1 with main := (exec W true s i).2 ++ rest, others := s.others } := by
  simp only [next, hmain, exec_with_lists W true s rest s.others i]

theorem next_runOther {s : State F} {i : Instr} {k : Nat} (hi : s.others[k]? = some i) :
    next W s (.runOther k) =
      { (exec W false s i).1 with
        main := s.main, others := s.others.eraseIdx k ++ (exec W false s i).2 } := by
  simp only [next, hi, exec_with_lists W false s s.main (s.others.eraseIdx k) i]

theorem load_task (s : State F) (hmain : s.main = []) : w.load (next W s .task) = w.load s := by
  cases htasks : s.tasks with
  | nil => simp [next, htasks]
  | cons t tasks =>
    have hcode : total w.instr t.code = w.task t := w.task_code t
    simp only [next, htasks, Tokens.load, hmain, hcode, total_cons, total_nil]
    omega

theorem load_complete (s : State F) (k : Nat) (r : Result) (hmain : s.main = []) :
    w.load (next W s (.complete k r)) = w.load s := by
  cases hop : s.ops[k]? with
  | none => simp [next, hop]
  | some op =>
    have hhandler : total w.instr (op.handler r) = w.op op := w.op_handler op r
    have herase := total_eraseIdx (w := w.op) hop
    simp only [next, hop, Tokens.load, hmain, hhandler, total_nil]
    omega

theorem load_call (s : State F) (c : Call) :
    w.load (next W s (.call c)) = w.load s + total w.instr c.code := by
  cases c <;> simp only [next, Call.effect, Call.code, Tokens.load, total_append] <;> omega

theorem load_callOther (s : State F) (c : Call) :
    w.load (next W s (.callOther c)) = w.load s + total w.instr c.code := by
  cases c <;> simp only [next, Call.effect, Call.code, Tokens.load, total_append] <;> omega

end Execution

/-! ## What an instruction does to the parts of the flag -/

/-- The outcomes of `exec` over `counters`, with the instructions put before the rest. -/
inductive Outcome (onLoop : Bool) (s : State Counters) :
    Instr → State Counters → List Instr → Prop where
  | opened (h : onLoop = true) :
      Outcome onLoop s .fireOnOpen { s with flag := counters.addRef s.flag }
        [.fire .onOpen, .read]
  | openPosted (h : onLoop = false) :
      Outcome onLoop s .fireOnOpen
        { s with flag := counters.addRef s.flag, reposts := s.reposts + 1 }
        [.execute .fireOnOpen]
  | fire (e : Event) :
      Outcome onLoop s (.fire e) { s with events := s.events ++ [e] } [.callback]
  | callback : Outcome onLoop s .callback s []
  | readMore (h : s.flag.close = true) : Outcome onLoop s .read s [.readBody]
  | readNoMore (h : s.flag.close = false) : Outcome onLoop s .read s []
  | readBody :
      Outcome onLoop s .readBody
        { s with flag := counters.addRef s.flag, ops := s.ops ++ [.read] } []
  | readFailed (ec : ErrorCode) (h : s.flag.close = true) :
      Outcome onLoop s (.handleRead (.error ec)) s [.close ec]
  | readDone (nbytes : Int) (h : s.flag.close = true) :
      Outcome onLoop s (.handleRead (.ok nbytes)) s [.fire (.onRead nbytes), .read]
  | readLate (r : Result) (h : s.flag.close = false) : Outcome onLoop s (.handleRead r) s []
  | writeFirst (buf) (hloop : onLoop = true) (h : s.flag.close = true)
      (hq : s.writeBuffers = []) :
      Outcome onLoop s (.doWrite buf)
        { s with writeBuffers := s.writeBuffers ++ [buf], accepted := s.accepted ++ buf.contents }
        [.writeRemains]
  | writeBehind (buf) (hloop : onLoop = true) (h : s.flag.close = true)
      (hq : s.writeBuffers ≠ []) :
      Outcome onLoop s (.doWrite buf)
        { s with writeBuffers := s.writeBuffers ++ [buf], accepted := s.accepted ++ buf.contents }
        []
  | writePosted (buf) (hloop : onLoop = false) (h : s.flag.close = true) :
      Outcome onLoop s (.doWrite buf) s [.addRefExecute (.doWrite buf)]
  | writeRefused (buf) (h : s.flag.close = false) : Outcome onLoop s (.doWrite buf) s []
  | writeMore (h : s.flag.close = true) : Outcome onLoop s .writeRemains s [.writeBody]
  | writeNoMore (h : s.flag.close = false) : Outcome onLoop s .writeRemains s []
  | writeBody :
      Outcome onLoop s .writeBody
        { s with
          flag := counters.addRef s.flag
          ops := s.ops ++ [.write (writeRequest s.writeBuffers)]
          wire := s.wire ++ (writeRequest s.writeBuffers).flatten } []
  | writeFailed (ec : ErrorCode) (h : s.flag.close = true) :
      Outcome onLoop s (.handleWrite (.error ec)) s [.close ec]
  | writeFlushed (nbytes : Int) (h : s.flag.close = true) (hq : trim s.writeBuffers nbytes = []) :
      Outcome onLoop s (.handleWrite (.ok nbytes))
        { s with writeBuffers := trim s.writeBuffers nbytes } [.fire (.onWrite nbytes true)]
  | writeLeft (nbytes : Int) (h : s.flag.close = true) (hq : trim s.writeBuffers nbytes ≠ []) :
      Outcome onLoop s (.handleWrite (.ok nbytes))
        { s with writeBuffers := trim s.writeBuffers nbytes }
        [.fire (.onWrite nbytes false), .writeRemains]
  | writeLate (r : Result) (h : s.flag.close = false) : Outcome onLoop s (.handleWrite r) s []
  | closeWon (ec : ErrorCode) (h : s.flag.close = true) :
      Outcome onLoop s (.close ec)
        { s with flag := { s.flag with close := false }, winners := s.winners ++ [ec] }
        [.execute (.fireOnClose ec)]
  | closeLost (ec : ErrorCode) (h : s.flag.close = false) : Outcome onLoop s (.close ec) s []
  | failed (ec : ErrorCode) (h : s.flag.error = true) :
      Outcome onLoop s (.fireOnClose ec) { s with flag := { s.flag with error := false } }
        [.fire (.onError ec), .fire .onClose, .release .opened]
  | closed (ec : ErrorCode) (h : s.flag.error = false) :
      Outcome onLoop s (.fireOnClose ec) s [.fire .onClose, .release .opened]
  | execute (t : Task) : Outcome onLoop s (.execute t) { s with tasks := s.tasks ++ [t] } []
  | addRefExecute (h : Held) :
      Outcome onLoop s (.addRefExecute h) { s with flag := counters.addRef s.flag }
        [.execute (.held h)]
  | releaseLast (holder : Holder) (h : counters.isZero (counters.release s.flag) = true) :
      Outcome onLoop s (.release holder) { s with flag := counters.release s.flag }
        [.execute .fireOnEndReference]
  | releaseSome (holder : Holder) (h : counters.isZero (counters.release s.flag) = false) :
      Outcome onLoop s (.release holder) { s with flag := counters.release s.flag } []
  | delete : Outcome onLoop s .delete { s with deleted := true } []

theorem exec_outcome (onLoop : Bool) (s : State Counters) (i : Instr) :
    Outcome onLoop s i (exec counters onLoop s i).1 (exec counters onLoop s i).2 := by
  have hclose : counters.contains .close s.flag = s.flag.close := rfl
  have herror : counters.contains .error s.flag = s.flag.error := rfl
  cases i with
  | fireOnOpen =>
    cases onLoop with
    | false => exact .openPosted rfl
    | true => exact .opened rfl
  | fire e => exact .fire e
  | callback => exact .callback
  | read =>
    cases hc : s.flag.close with
    | false => simpa [exec, hclose, hc] using .readNoMore hc
    | true => simpa [exec, hclose, hc] using .readMore hc
  | readBody => exact .readBody
  | handleRead r =>
    cases hc : s.flag.close with
    | false => simpa [exec, hclose, hc] using .readLate r hc
    | true =>
      cases r with
      | error ec => simpa [exec, hclose, hc] using .readFailed ec hc
      | ok nbytes => simpa [exec, hclose, hc] using .readDone nbytes hc
  | doWrite buf =>
    cases hc : s.flag.close with
    | false => simpa [exec, hclose, hc] using .writeRefused buf hc
    | true =>
      cases hloop : onLoop with
      | false => simpa [exec, hclose, hc] using .writePosted buf rfl hc
      | true =>
        cases hq : s.writeBuffers.isEmpty with
        | false => simpa [exec, hclose, hc, hq] using .writeBehind buf rfl hc (by simpa using hq)
        | true => simpa [exec, hclose, hc, hq] using .writeFirst buf rfl hc (by simpa using hq)
  | writeRemains =>
    cases hc : s.flag.close with
    | false => simpa [exec, hclose, hc] using .writeNoMore hc
    | true => simpa [exec, hclose, hc] using .writeMore hc
  | writeBody => exact .writeBody
  | handleWrite r =>
    cases hc : s.flag.close with
    | false => simpa [exec, hclose, hc] using .writeLate r hc
    | true =>
      cases r with
      | error ec => simpa [exec, hclose, hc] using .writeFailed ec hc
      | ok nbytes =>
        cases hq : (trim s.writeBuffers nbytes).isEmpty with
        | false => simpa [exec, hclose, hc, hq] using .writeLeft nbytes hc (by simpa using hq)
        | true => simpa [exec, hclose, hc, hq] using .writeFlushed nbytes hc (by simpa using hq)
  | close ec =>
    cases hc : s.flag.close with
    | false => simpa [exec, hclose, hc] using .closeLost ec hc
    | true => simpa [exec, counters, hc] using .closeWon ec hc
  | fireOnClose ec =>
    cases he : s.flag.error with
    | false => simpa [exec, herror, he] using .closed ec he
    | true => simpa [exec, counters, he] using .failed ec he
  | execute t => exact .execute t
  | addRefExecute h => exact .addRefExecute h
  | release holder =>
    cases hz : counters.isZero (counters.release s.flag) with
    | false => simpa [exec, hz] using .releaseSome holder hz
    | true => simpa [exec, hz] using .releaseLast holder hz
  | delete => exact .delete

/-- `t` is `s` after the instruction `i`, which left `u` and had `front` put before the rest. -/
structure Ran (onLoop : Bool) (i : Instr) (s t u : State Counters) (front : List Instr) :
    Prop where
  outcome : Outcome onLoop s i u front
  parts : t = { u with main := t.main, others := t.others }
  load : ∀ w : Tokens, w.load t + w.instr i =
    w.load s + total w.instr front + total w.task (newTasks i) + total w.op (newOps s i)

namespace Ran

variable {onLoop : Bool} {i : Instr} {s t u : State Counters} {front : List Instr}
  (hr : Ran onLoop i s t u front)

include hr

theorem flag : t.flag = u.flag := by rw [hr.parts]

theorem events : t.events = u.events := by rw [hr.parts]

theorem winners : t.winners = u.winners := by rw [hr.parts]

theorem writeBuffers : t.writeBuffers = u.writeBuffers := by rw [hr.parts]

theorem accepted : t.accepted = u.accepted := by rw [hr.parts]

theorem wire : t.wire = u.wire := by rw [hr.parts]

theorem completed : t.completed = s.completed := by
  rw [hr.parts]
  cases hr.outcome <;> rfl

theorem tasks : t.tasks = s.tasks ++ newTasks i := by
  rw [hr.parts]
  cases hr.outcome <;> simp [newTasks]

theorem ops : t.ops = s.ops ++ newOps s i := by
  rw [hr.parts]
  cases hr.outcome <;> simp [newOps]

end Ran

theorem ran_run {s : State Counters} {i : Instr} {rest : List Instr} (hmain : s.main = i :: rest) :
    ∃ u front, Ran true i s (next counters s .run) u front ∧
      (next counters s .run).main = front ++ rest ∧
      (next counters s .run).others = s.others := by
  obtain ⟨-, -, htasks, hops⟩ := exec_lists counters true s i
  refine ⟨_, _, ⟨exec_outcome true s i, ?_, fun w => ?_⟩, ?_, ?_⟩ <;>
    rw [next_run counters hmain]
  simp only [Tokens.load, hmain, htasks, hops, total_append, total_cons]
  omega

theorem ran_other {s : State Counters} {i : Instr} {k : Nat} (hi : s.others[k]? = some i) :
    ∃ u front, Ran false i s (next counters s (.runOther k)) u front ∧
      (next counters s (.runOther k)).main = s.main ∧
      (next counters s (.runOther k)).others = s.others.eraseIdx k ++ front := by
  obtain ⟨-, -, htasks, hops⟩ := exec_lists counters false s i
  refine ⟨_, _, ⟨exec_outcome false s i, ?_, fun w => ?_⟩, ?_, ?_⟩ <;>
    rw [next_runOther counters hi]
  have hother := total_eraseIdx (w := w.instr) hi
  simp only [Tokens.load, htasks, hops, total_append]
  omega

end ChannelTokens
