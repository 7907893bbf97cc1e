import Tcode.EpollMachine
import Tcode.SupportSwapRemove

/-! # The poll multiplexer

The loop thread is the only one that runs closures and reads the vectors; any thread may open,
read, write and unbind. A caller of `read`, `write` or `accept` takes its reference and posts its
closure in two steps, and others can come in between. What system functions answer, and which
operations are done when they are attempted, is part of the step. The handler of an operation
and the `post_proc` of an accept do nothing but call and post, so they are steps of their own.
The wake-up pipe is left out, as are the errors of operations.
-/
namespace PollMachine

open EpollMachine (Direction DescriptorId OperationId)
open SupportReferenceCount SupportSwapRemove SupportTransitionSystem

/-- Of `events` and `revents`, the bits that are looked at. -/
structure Mask where
  pollin : Bool
  pollout : Bool
  pollpri : Bool
  deriving DecidableEq, Repr

/-- The bit `pollev[i]`. -/
def Mask.has (m : Mask) : Direction → Bool
  | .read => m.pollin
  | .write => m.pollout
  | .pri => m.pollpri

def Mask.of : Direction → Mask
  | .read => ⟨true, false, false⟩
  | .write => ⟨false, true, false⟩
  | .pri => ⟨false, false, true⟩

structure PollFd where
  fd : Int
  events : Mask
  revents : Mask
  deriving DecidableEq, Repr

/-- `_descriptor`; its constructor does not set `pollidx`. -/
structure Descriptor where
  fd : Int
  opQueue : Direction → List OperationId
  cell : Cell
  pollidx : Option Nat

/-- What `_op_queue` holds: an operation, or the operation that wraps a closure. -/
inductive Task where
  | op (o : OperationId)
  | bind (d : DescriptorId)
  | dispatch (i : Direction) (d : DescriptorId) (o : OperationId)
  | unbind (d : DescriptorId)
  deriving DecidableEq, Repr

/-- The two loops of `poll::run`: over the entries, and over the operations it has taken. -/
inductive Frame where
  | idle (returned : Int)
  | events (i : Nat) (executeOp : Bool) (run : Int)
  | drain (ops : List Task) (run : Int)
  deriving DecidableEq, Repr

/-- `held` are the descriptors that a socket still has, and `postings` the closures whose
reference is taken. `made`, `invoked` and `fault` are bookkeeping. -/
structure State where
  wakeUp : Int
  events : List PollFd
  desc : List (Option DescriptorId)
  descs : DescriptorId → Descriptor
  made : Nat
  held : DescriptorId → Bool
  postings : List Task
  opQueue : List Task
  frame : Frame
  invoked : List OperationId
  fault : Bool

def initial (wakeUp : Int) : State where
  wakeUp := wakeUp
  events := [⟨wakeUp, .of .read, ⟨false, false, false⟩⟩]
  desc := [none]
  descs _ := ⟨-1, fun _ => [], .new, none⟩
  made := 0
  held _ := false
  postings := []
  opQueue := []
  frame := .idle 0
  invoked := []
  fault := false

def State.setDesc (s : State) (d : DescriptorId) (v : Descriptor) : State :=
  { s with descs := Function.update s.descs d v }

theorem setDesc_self (s : State) (d : DescriptorId) (v : Descriptor) :
    (s.setDesc d v).descs d = v := Function.update_self ..

theorem setDesc_ne {s : State} {d e : DescriptorId} {v : Descriptor} (he : e ≠ d) :
    (s.setDesc d v).descs e = s.descs e := Function.update_of_ne he ..

/-- Something undefined happens, if `b`. -/
def State.undefinedIf (s : State) (b : Bool) : State := { s with fault := s.fault || b }

/-- The descriptor is read or written. -/
def State.access (s : State) (d : DescriptorId) : State :=
  s.undefinedIf (s.descs d).cell.deleted

/-! ## Descriptors -/

def addRef (s : State) (d : DescriptorId) : State :=
  (s.access d).setDesc d { s.descs d with cell := (s.descs d).cell.acquire }

def Descriptor.ops (v : Descriptor) : List OperationId :=
  v.opQueue .read ++ v.opQueue .write ++ v.opQueue .pri

/-- The last release posts the operations of the descriptor, and deletes it. -/
def abort (s : State) (d : DescriptorId) : State :=
  { (s.access d).setDesc d
      { s.descs d with cell := (s.descs d).cell.release, opQueue := fun _ => [] } with
    opQueue := s.opQueue ++ (s.descs d).ops.map .op }

def release (s : State) (d : DescriptorId) : State :=
  if (s.descs d).cell.refcount = 1 then abort s d
  else (s.access d).setDesc d { s.descs d with cell := (s.descs d).cell.release }

/-- The queues of the events are worked off until an operation is not done. -/
def Descriptor.attempt (v : Descriptor) (events : Mask) (done : OperationId → Bool) : Descriptor :=
  { v with
    opQueue := fun i => if events.has i then (v.opQueue i).dropWhile done else v.opQueue i }

/-- The interest that the queues stand for. -/
def Descriptor.interest (v : Descriptor) : Mask :=
  ⟨!(v.opQueue .read).isEmpty, !(v.opQueue .write).isEmpty, false⟩

/-- `_events[i].events` is set. -/
def setInterest (entries : List PollFd) (i : Nat) (m : Mask) : List PollFd :=
  entries.modify i fun e => { e with events := m }

/-- The first part of `complete`. -/
def attempt (s : State) (d : DescriptorId) (events : Mask) (done : OperationId → Bool) : State :=
  { (s.access d).setDesc d ((s.descs d).attempt events done) with
    invoked := s.invoked ++ [Direction.read, .write, .pri].flatMap fun i =>
      if events.has i then ((s.descs d).opQueue i).takeWhile done else [] }

/-- The second part. -/
def writeInterest (s : State) (d : DescriptorId) : State :=
  match (s.descs d).pollidx with
  | some i =>
    { s with events := setInterest s.events i (s.descs d).interest }.undefinedIf
      (decide (s.events.length ≤ i))
  | none => s.undefinedIf true

/-- `_descriptor::complete`. -/
def complete (s : State) (d : DescriptorId) (events : Mask) (done : OperationId → Bool) : State :=
  writeInterest (attempt s d events done) d

/-! ## Closures -/

def bindClosure (s : State) (d : DescriptorId) : State :=
  { (s.access d).setDesc d { s.descs d with pollidx := some s.events.length } with
    events := s.events ++ [⟨(s.descs d).fd, ⟨true, true, false⟩, ⟨false, false, false⟩⟩]
    desc := s.desc ++ [some d] }

/-- The descriptor whose entry was moved to `i` learns of it. -/
def moved (s : State) (i : Nat) : Option (Option DescriptorId) → State
  | some (some e) => (s.access e).setDesc e { s.descs e with pollidx := some i }
  | _ => s.undefinedIf true

def shrink (s : State) (i : Nat) : State :=
  { s with desc := swapRemove s.desc i, events := swapRemove s.events i }

/-- The entry at `i` is removed; the last one takes its place. -/
def remove (s : State) (i : Nat) : State :=
  if i < s.desc.length - 1 then moved (shrink s i) i s.desc.getLast? else shrink s i

/-- The entry of the descriptor is looked for, and removed if there is one. -/
def unregister (s : State) (d : DescriptorId) : State :=
  if s.desc.idxOf (some d) < s.desc.length then remove s (s.desc.idxOf (some d)) else s

def close (s : State) (d : DescriptorId) : State :=
  (s.access d).setDesc d { s.descs d with fd := -1 }

def unbindClosure (s : State) (d : DescriptorId) : State := release (close (unregister s d) d) d

def enqueue (s : State) (i : Direction) (d : DescriptorId) (o : OperationId) : State :=
  (s.access d).setDesc d
    { s.descs d with
      opQueue := Function.update (s.descs d).opQueue i ((s.descs d).opQueue i ++ [o]) }

/-- The closure of `read`, `write` and `accept`. -/
def dispatchClosure (s : State) (i : Direction) (d : DescriptorId) (o : OperationId)
    (done : OperationId → Bool) : State :=
  release (complete (enqueue s i d o) d (.of i) done) d

/-- `op_run`. -/
def opRun (s : State) (done : OperationId → Bool) : Task → State
  | .op o => { s with invoked := s.invoked ++ [o] }
  | .bind d => bindClosure s d
  | .dispatch i d o => dispatchClosure s i d o done
  | .unbind d => unbindClosure s d

/-! ## Steps -/

/-- A step names where in its loop the loop thread is. -/
inductive Event where
  | opens (fd : Int) (connect : Option OperationId)
  | take (i : Direction) (d : DescriptorId) (o : OperationId)
  | post (t : Task)
  | execute (o : OperationId)
  | unbind (d : DescriptorId)
  | poll (returned nofd : Int) (revents : List Mask)
  | event (i : Nat) (executeOp : Bool) (run : Int) (done : OperationId → Bool)
  | endEvents (i : Nat) (executeOp : Bool) (run : Int)
  | closure (t : Task) (ts : List Task) (run : Int) (done : OperationId → Bool)
  | endRun (run : Int)

/-- `_events[i].revents & ( POLLIN | POLLOUT )`. -/
def PollFd.ready (e : PollFd) : Bool := e.revents.pollin || e.revents.pollout

/-- What the loop over the entries meets at `i`: nothing, the pipe or a descriptor. -/
def readyAt (s : State) (i : Nat) : Option (Mask × Option DescriptorId) :=
  match s.events[i]?, s.desc[i]? with
  | some e, some desc => if e.ready then some (e.revents, desc) else none
  | _, _ => none

def onEvent (s : State) (i : Nat) (executeOp : Bool) (run : Int) (done : OperationId → Bool) :
    State :=
  match readyAt s i with
  | none => { s with frame := .events (i + 1) executeOp run }
  | some (_, none) => { s with frame := .events (i + 1) true (run - 1) }
  | some (revents, some d) =>
    complete { s with frame := .events (i + 1) executeOp run } d revents done

/-- `::poll` has returned. -/
def beginRun (s : State) (nofd : Int) (revents : List Mask) : State :=
  if nofd ≤ 0 then { s with frame := .idle 0 }
  else { s with
    events := s.events.zipWith (fun e m => { e with revents := m }) revents
    frame := .events 0 false nofd }

def Enabled (s : State) : Event → Prop
  | .opens fd _ => 0 ≤ fd
  | .take i d _ => s.held d = true ∧ i ≠ .pri
  | .post t => t ∈ s.postings
  | .execute _ => True
  | .unbind d => s.held d = true
  | .poll returned _ revents => s.frame = .idle returned ∧ revents.length = s.events.length
  | .event i executeOp run _ => s.frame = .events i executeOp run ∧ i < s.events.length
  | .endEvents i executeOp run => s.frame = .events i executeOp run ∧ s.events.length ≤ i
  | .closure t ts run _ => s.frame = .drain (t :: ts) run
  | .endRun run => s.frame = .drain [] run

instance (s : State) (e : Event) : Decidable (Enabled s e) := by
  cases e <;> unfold Enabled <;> infer_instance

def next (s : State) : Event → State
  | .opens fd connect =>
    { s.setDesc s.made ⟨fd, fun i => if i = .write then connect.toList else [], .new, none⟩ with
      made := s.made + 1
      held := Function.update s.held s.made true
      opQueue := s.opQueue ++ [.bind s.made] }
  | .take i d o => { addRef s d with postings := s.postings ++ [.dispatch i d o] }
  | .post t => { s with postings := s.postings.erase t, opQueue := s.opQueue ++ [t] }
  | .execute o => { s with opQueue := s.opQueue ++ [.op o] }
  | .unbind d =>
    { s with held := Function.update s.held d false, opQueue := s.opQueue ++ [.unbind d] }
  | .poll _ nofd revents => beginRun s nofd revents
  | .event i executeOp run done => onEvent s i executeOp run done
  | .endEvents _ executeOp run =>
    if executeOp then { s with opQueue := [], frame := .drain s.opQueue run }
    else { s with frame := .idle run }
  | .closure t ts run done => opRun { s with frame := .drain ts (run + 1) } done t
  | .endRun run => { s with frame := .idle run }

def machine : System State Event := ⟨Enabled, next⟩

instance (s : State) (e : Event) : Decidable (machine.Enabled s e) :=
  inferInstanceAs (Decidable (Enabled s e))

/-- The descriptor that is completed. -/
def completes (s : State) : Event → Option DescriptorId
  | .event i _ _ _ => (readyAt s i).bind Prod.snd
  | .closure (.dispatch _ d _) _ _ _ => some d
  | _ => none

end PollMachine
