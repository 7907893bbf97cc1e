import Tcode.SupportTransitionSystem
import Tcode.SupportUpperBound

/-! # Timers of an engine

The loop thread runs posted closures and drains the timers, one access after the other;
the user's callback is a place where it waits and the timers may be used again. A call on
the run-loop thread is one step. Elsewhere a call is broken where other threads can come
in between. `callbacks`, `cancels`, `deletions` and `fault` are bookkeeping.
-/
namespace TimerMachine

open SupportTransitionSystem SupportUpperBound

abbrev TimerId := Nat

/-- `timer::id`, with times in microseconds. -/
structure Id where
  refcount : Int
  dueTime : Int
  repeatSpan : Int
  deleted : Bool
  deriving DecidableEq, Repr

inductive ErrorCode where
  | success
  | aborted
  deriving DecidableEq, Repr

/-- The closures given to `engine::execute`; a cancel call carries its number. -/
inductive Closure where
  | schedule (id : TimerId)
  | cancel (id : TimerId) (k : Nat)
  deriving DecidableEq, Repr

/-- What another thread does next within a call. -/
inductive Pending where
  | timerCancel (id : TimerId) (k : Nat)
  | post (c : Closure)
  deriving DecidableEq, Repr

/-- What the loop thread does next. -/
inductive Frame where
  | idle
  | schedule (id : TimerId)
  | scheduled (id : TimerId)
  | cancel (id : TimerId) (k : Nat)
  | aborting (id : TimerId) (k : Nat)
  | inAbort (id : TimerId) (k : Nat)
  | aborted (id : TimerId) (k : Nat)
  | cancelled (id : TimerId) (k : Nat)
  | drain (ts : Int)
  | firing (id : TimerId) (ts : Int)
  | inFire (id : TimerId) (ts : Int)
  | repeats (id : TimerId) (ts : Int)
  | fired (id : TimerId) (ts : Int)
  deriving DecidableEq, Repr

/-- A cancel call that posts its closure: whether the timer was scheduled and how often it
had been aborted by then, whether it has not been fired since, and whether the closure has run. -/
structure CancelCall where
  id : TimerId
  scheduled : Bool
  aborts : Nat
  quiet : Bool
  done : Bool
  deriving DecidableEq, Repr

structure State where
  ids : TimerId → Id
  /-- The timer objects that exist. -/
  alive : TimerId → Bool
  made : Nat
  timers : List TimerId
  posted : List Closure
  others : List Pending
  frame : Frame
  callbacks : List (TimerId × ErrorCode)
  cancels : List CancelCall
  deletions : TimerId → Nat
  fault : Bool

def State.dueTime (s : State) (id : TimerId) : Int := (s.ids id).dueTime

/-- `repeat.total_milliseconds() != 0`. -/
def State.repeating (s : State) (id : TimerId) : Prop := (s.ids id).repeatSpan.tdiv 1000 ≠ 0

instance (s : State) (id : TimerId) : Decidable (s.repeating id) :=
  inferInstanceAs (Decidable (_ ≠ _))

def State.count (s : State) (id : TimerId) (ec : ErrorCode) : Nat := s.callbacks.count (id, ec)

/-! ## Ids -/

/-- The id is read or written. -/
def State.access (s : State) (id : TimerId) : State :=
  { s with fault := s.fault || (s.ids id).deleted }

def State.set (s : State) (id : TimerId) (v : Id) : State :=
  { s with ids := Function.update s.ids id v }

def State.addRef (s : State) (id : TimerId) : State :=
  (s.access id).set id { s.ids id with refcount := (s.ids id).refcount + 1 }

def State.release (s : State) (id : TimerId) : State :=
  let s := s.access id
  if (s.ids id).refcount = 1 then
    { s.set id { s.ids id with refcount := 0, deleted := true } with
      deletions := Function.update s.deletions id (s.deletions id + 1) }
  else s.set id { s.ids id with refcount := (s.ids id).refcount - 1 }

/-! ## The engine -/

/-- `std::upper_bound` compares the due times of entries of the list. -/
def State.insert (s : State) (id : TimerId) : State :=
  { s with
    fault := s.fault || s.timers.any fun j => (s.ids j).deleted
    timers := insertByKey s.dueTime id s.timers }

def timerSchedule (onLoop : Bool) (s : State) (id : TimerId) : State :=
  let s := s.addRef id
  if onLoop then s.insert id
  else { s with others := s.others ++ [.post (.schedule id)] }

def State.record (s : State) (id : TimerId) : State :=
  { s with
    cancels := s.cancels ++ [⟨id, decide (id ∈ s.timers), s.count id .aborted, true, false⟩] }

/-- `timer::cancel`, up to `add_ref` when it is called on another thread. -/
def timerCancel (onLoop : Bool) (s : State) (id : TimerId) : State :=
  if (s.ids id).refcount ≠ 1 then
    let t := (s.access id).record id
    if onLoop then { t.addRef id with posted := s.posted ++ [.cancel id s.cancels.length] }
    else { t with others := s.others ++ [.timerCancel id s.cancels.length] }
  else s.access id

/-- `next_wake_up_time` when the clock reads `now`. -/
def nextWakeUpTime (s : State) (now : Int) : Int :=
  match s.timers with
  | [] => 1000000
  | id :: _ => if s.dueTime id ≤ now then 0 else s.dueTime id - now

/-! ## Calls of the user -/

inductive Call where
  | make
  | destroy (id : TimerId)
  | dueTime (id : TimerId) (ts : Int)
  | repeatSpan (id : TimerId) (span : Int)
  | fire (id : TimerId)
  | cancel (id : TimerId)
  deriving DecidableEq, Repr

/-- The timer on which another thread is in a call that has not taken a reference yet. -/
def Pending.inside : Pending → Option TimerId
  | .timerCancel id _ => some id
  | .post _ => none

/-- A timer is used while it exists, and not destroyed while another thread is inside a
call on it. -/
def Call.Allowed (s : State) : Call → Prop
  | .make => True
  | .destroy id => s.alive id = true ∧ ∀ p ∈ s.others, p.inside ≠ some id
  | .dueTime id _ | .repeatSpan id _ | .fire id | .cancel id => s.alive id = true

/-- No cancel call on the timer is the last word any more. -/
def disturb (id : TimerId) (cancels : List CancelCall) : List CancelCall :=
  cancels.map fun r => if r.id = id then { r with quiet := false } else r

def Call.effect (onLoop : Bool) (s : State) : Call → State
  | .make =>
    { s.set s.made ⟨1, 0, 0, false⟩ with
      made := s.made + 1, alive := Function.update s.alive s.made true }
  | .destroy id => { s with alive := Function.update s.alive id false }.release id
  | .dueTime id ts => (s.access id).set id { s.ids id with dueTime := ts }
  | .repeatSpan id span => (s.access id).set id { s.ids id with repeatSpan := span }
  | .fire id => timerSchedule onLoop { s with cancels := disturb id s.cancels } id
  | .cancel id => timerCancel onLoop s id

/-! ## Steps -/

inductive Step where
  | call (c : Call)
  | callOther (c : Call)
  | other (k : Nat)
  | task
  | drain (ts : Int)
  | run
  deriving DecidableEq, Repr

/-- Whether code of the user runs on the loop thread. -/
def Frame.User : Frame → Prop
  | .idle | .inAbort _ _ | .inFire _ _ => True
  | _ => False

def Enabled (s : State) : Step → Prop
  | .call c => s.frame.User ∧ c.Allowed s
  | .callOther c => c.Allowed s
  | .other k => k < s.others.length
  | .task => s.frame = .idle ∧ s.posted ≠ []
  | .drain _ => s.frame = .idle
  | .run => s.frame ≠ .idle

instance (s : State) : ∀ c : Call, Decidable (c.Allowed s)
  | .make => isTrue trivial
  | .destroy id => inferInstanceAs (Decidable (s.alive id = true ∧ ∀ p ∈ s.others, _))
  | .dueTime id _ | .repeatSpan id _ | .fire id | .cancel id =>
    inferInstanceAs (Decidable (s.alive id = true))

instance : ∀ f : Frame, Decidable f.User
  | .idle | .inAbort _ _ | .inFire _ _ => isTrue trivial
  | .schedule _ | .scheduled _ | .cancel _ _ | .aborting _ _ | .aborted _ _ | .cancelled _ _
  | .drain _ | .firing _ _ | .repeats _ _ | .fired _ _ => isFalse id

instance (s : State) : ∀ e : Step, Decidable (Enabled s e)
  | .call c => inferInstanceAs (Decidable (s.frame.User ∧ c.Allowed s))
  | .callOther c => inferInstanceAs (Decidable (c.Allowed s))
  | .other k => inferInstanceAs (Decidable (k < s.others.length))
  | .task => inferInstanceAs (Decidable (s.frame = .idle ∧ s.posted ≠ []))
  | .drain _ => inferInstanceAs (Decidable (s.frame = .idle))
  | .run => inferInstanceAs (Decidable (s.frame ≠ .idle))

def Closure.frame : Closure → Frame
  | .schedule id => .schedule id
  | .cancel id k => .cancel id k

def Pending.go (s : State) : Pending → State
  | .timerCancel id k => { s.addRef id with others := s.others ++ [.post (.cancel id k)] }
  | .post c => { s with posted := s.posted ++ [c] }

/-- The next access of the loop thread. -/
def run (s : State) : State :=
  match s.frame with
  | .idle => s
  | .schedule id => { timerSchedule true s id with frame := .scheduled id }
  | .scheduled id => { s.release id with frame := .idle }
  | .cancel id k =>
    if id ∈ s.timers then { s with timers := s.timers.erase id, frame := .aborting id k }
    else { s with frame := .cancelled id k }
  | .aborting id k =>
    { s.access id with callbacks := s.callbacks ++ [(id, .aborted)], frame := .inAbort id k }
  | .inAbort id k => { s with frame := .aborted id k }
  | .aborted id k => { s.release id with frame := .cancelled id k }
  | .cancelled id k =>
    { s.release id with
      frame := .idle, cancels := s.cancels.modify k fun r => { r with done := true } }
  | .drain ts =>
    match s.timers with
    | [] => { s with frame := .idle }
    | id :: rest =>
      if s.dueTime id ≤ ts then { s.access id with timers := rest, frame := .firing id ts }
      else { s.access id with frame := .idle }
  | .firing id ts =>
    { s.access id with callbacks := s.callbacks ++ [(id, .success)], frame := .inFire id ts }
  | .inFire id ts => { s with frame := .repeats id ts }
  | .repeats id ts =>
    let s := s.access id
    if s.repeating id then
      let s := s.set id { s.ids id with dueTime := (s.ids id).dueTime + (s.ids id).repeatSpan }
      { timerSchedule true s id with frame := .fired id ts }
    else { s with frame := .fired id ts }
  | .fired id ts => { s.release id with frame := .drain ts }

def next (s : State) : Step → State
  | .call c => c.effect true s
  | .callOther c => c.effect false s
  | .other k =>
    match s.others[k]? with
    | none => s
    | some p => p.go { s with others := s.others.eraseIdx k }
  | .task =>
    match s.posted with
    | [] => s
    | c :: posted => { s with posted, frame := c.frame }
  | .drain ts => { s with frame := .drain ts }
  | .run => run s

def machine : System State Step where
  Enabled := Enabled
  next := next

instance (s : State) (e : Step) : Decidable (machine.Enabled s e) :=
  inferInstanceAs (Decidable (Enabled s e))

def initial : State where
  ids _ := ⟨0, 0, 0, false⟩
  alive _ := false
  made := 0
  timers := []
  posted := []
  others := []
  frame := .idle
  callbacks := []
  cancels := []
  deletions _ := 0
  fault := false

end TimerMachine
