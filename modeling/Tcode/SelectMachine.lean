import Tcode.PollIndices
import Tcode.SelectRun

/-! # The select multiplexer

The loop thread is the only one that runs closures and reads `_desc`; any thread may open, read,
write and unbind. What `::select` answers, and which operations are done when they are attempted,
is part of the step. The wake-up pipe is left out but for its place in the sets, as are the errors
of operations and the engine's count. `setSize` is `FD_SETSIZE`.
-/
namespace SelectMachine

open EpollMachine (Direction DescriptorId OperationId)
open PollMachine (Task)
open SelectRun (Sets)
open SupportReferenceCount SupportSwapRemove SupportTransitionSystem

structure Descriptor where
  fd : Int
  opQueue : Direction → List OperationId
  cell : Cell

/-- `wait` is the call of `::select`; the two loops behind it are over `_desc`, with the copies of
the sets, and over the operations that are taken. -/
inductive Frame where
  | idle (returned : Int)
  | wait (copies : Sets)
  | events (it : Nat) (copies : Sets) (executeOp : Bool) (run : Int)
  | drain (ops : List Task) (run : Int)
  deriving DecidableEq, Repr

/-- `held` are the descriptors that a socket has, and `postings` the closures whose reference is
taken. `made`, `invoked` and `fault` are bookkeeping. -/
structure State where
  wakeUp : Int
  desc : List DescriptorId
  descs : DescriptorId → Descriptor
  made : Nat
  held : DescriptorId → Bool
  postings : List Task
  opQueue : List Task
  frame : Frame
  invoked : List OperationId
  fault : Bool

def initial (wakeUp : Int) : State where
  wakeUp := wakeUp
  desc := []
  descs _ := ⟨-1, fun _ => [], .new⟩
  made := 0
  held _ := false
  postings := []
  opQueue := []
  frame := .idle 0
  invoked := []
  fault := false

def State.setDesc (s : State) (d : DescriptorId) (v : Descriptor) : State :=
  { s with descs := Function.update s.descs d v }

theorem setDesc_self (s : State) (d : DescriptorId) (v : Descriptor) :
    (s.setDesc d v).descs d = v := Function.update_self ..

theorem setDesc_ne {s : State} {d e : DescriptorId} {v : Descriptor} (he : e ≠ d) :
    (s.setDesc d v).descs e = s.descs e := Function.update_of_ne he ..

/-- Something undefined happens, if `b`. -/
def State.undefinedIf (s : State) (b : Bool) : State := { s with fault := s.fault || b }

/-- The descriptor is read or written. -/
def State.access (s : State) (d : DescriptorId) : State :=
  s.undefinedIf (s.descs d).cell.deleted

/-! ## Descriptors -/

def addRef (s : State) (d : DescriptorId) : State :=
  (s.access d).setDesc d { s.descs d with cell := (s.descs d).cell.acquire }

def Descriptor.ops (v : Descriptor) : List OperationId :=
  v.opQueue .read ++ v.opQueue .write ++ v.opQueue .pri

/-- The last release posts the operations of the descriptor, and deletes it. -/
def abort (s : State) (d : DescriptorId) : State :=
  { (s.access d).setDesc d
      { s.descs d with cell := (s.descs d).cell.release, opQueue := fun _ => [] } with
    opQueue := s.opQueue ++ (s.descs d).ops.map .op }

def release (s : State) (d : DescriptorId) : State :=
  if (s.descs d).cell.refcount = 1 then abort s d
  else (s.access d).setDesc d { s.descs d with cell := (s.descs d).cell.release }

/-- `_descriptor::complete`, for each of the events: the queue is worked off until an operation is
not done. -/
def complete (s : State) (d : DescriptorId) (events : Direction → Bool)
    (done : OperationId → Bool) : State :=
  { (s.access d).setDesc d
      { s.descs d with
        opQueue := fun i =>
          if events i then ((s.descs d).opQueue i).dropWhile done else (s.descs d).opQueue i } with
    invoked := s.invoked ++ [Direction.read, .write, .pri].flatMap fun i =>
      if events i then ((s.descs d).opQueue i).takeWhile done else [] }

/-! ## The sets -/

def direction : SelectRun.Ev → Direction
  | .evRead => .read
  | .evWrite => .write

/-- A descriptor, as `select::run` sees it. -/
def Descriptor.interest (v : Descriptor) : SelectRun.Descriptor :=
  ⟨v.fd, fun ev => v.opQueue (direction ev)⟩

/-- `select::run` up to the call of `::select`: the copies, unless a number does not fit. -/
def copies (setSize : Nat) (s : State) : Option Sets := do
  let _ ← SelectRun.fdSet setSize s.wakeUp []
  let (sets, _) ← (s.desc.map fun d => (s.descs d).interest).foldlM
    (SelectRun.interests setSize) (⟨[], []⟩, s.wakeUp)
  return sets

def prepare (setSize : Nat) (s : State) : State :=
  match copies setSize s with
  | some sets =>
    { s with frame := .wait sets }.undefinedIf (s.desc.any fun d => (s.descs d).cell.deleted)
  | none => { s with frame := .wait ⟨[], []⟩ }.undefinedIf true

/-- The events of a descriptor that are completed. -/
def ready (s : State) (copies : Sets) (d : DescriptorId) (i : Direction) : Bool :=
  decide (i ∈ (SelectRun.ready copies (s.descs d).interest).map direction)

/-! ## Closures -/

def bindClosure (s : State) (d : DescriptorId) : State := { s with desc := s.desc ++ [d] }

/-- The descriptor is looked for in `_desc`; the last one takes its place. -/
def unregister (s : State) (d : DescriptorId) : State :=
  if s.desc.idxOf d < s.desc.length then
    { s with desc := swapRemove s.desc (s.desc.idxOf d) }
  else s

def close (s : State) (d : DescriptorId) : State :=
  (s.access d).setDesc d { s.descs d with fd := -1 }

def unbindClosure (s : State) (d : DescriptorId) : State := release (close (unregister s d) d) d

def enqueue (s : State) (i : Direction) (d : DescriptorId) (o : OperationId) : State :=
  (s.access d).setDesc d
    { s.descs d with
      opQueue := Function.update (s.descs d).opQueue i ((s.descs d).opQueue i ++ [o]) }

/-- The closure of `read`, `write` and `accept`. -/
def dispatchClosure (s : State) (i : Direction) (d : DescriptorId) (o : OperationId)
    (done : OperationId → Bool) : State :=
  release (complete (enqueue s i d o) d (fun j => decide (j = i)) done) d

/-- `op_run`. -/
def opRun (s : State) (done : OperationId → Bool) : Task → State
  | .op o => { s with invoked := s.invoked ++ [o] }
  | .bind d => bindClosure s d
  | .dispatch i d o => dispatchClosure s i d o done
  | .unbind d => unbindClosure s d

/-! ## Steps -/

/-- A step names where in its loop the loop thread is. -/
inductive Event where
  | opens (fd : Int) (connect : Option OperationId)
  | take (i : Direction) (d : DescriptorId) (o : OperationId)
  | post (t : Task)
  | execute (o : OperationId)
  | unbind (d : DescriptorId)
  | prepare (returned : Int)
  | select (copies : Sets) (ret : Int) (executeOp : Bool)
  | event (it : Nat) (d : DescriptorId) (copies : Sets) (executeOp : Bool) (run : Int)
      (done : OperationId → Bool)
  | endEvents (it : Nat) (copies : Sets) (executeOp : Bool) (run : Int)
  | closure (t : Task) (ts : List Task) (run : Int) (done : OperationId → Bool)
  | endRun (run : Int)

def Enabled (s : State) : Event → Prop
  | .opens fd _ => 0 ≤ fd
  | .take i d _ => s.held d = true ∧ i ≠ .pri
  | .post t => t ∈ s.postings
  | .execute _ => True
  | .unbind d => s.held d = true
  | .prepare returned => s.frame = .idle returned
  | .select copies _ _ => s.frame = .wait copies
  | .event it d copies executeOp run _ =>
    s.frame = .events it copies executeOp run ∧ s.desc[it]? = some d
  | .endEvents it copies executeOp run =>
    s.frame = .events it copies executeOp run ∧ s.desc[it]? = none
  | .closure t ts run _ => s.frame = .drain (t :: ts) run
  | .endRun run => s.frame = .drain [] run

instance (s : State) (e : Event) : Decidable (Enabled s e) := by
  cases e <;> unfold Enabled <;> infer_instance

/-- The body of the loop over `_desc`. -/
def onEvent (s : State) (it : Nat) (d : DescriptorId) (copies : Sets) (executeOp : Bool)
    (run : Int) (done : OperationId → Bool) : State :=
  complete
    { s with
      frame := .events (it + 1) copies executeOp
        (run + (SelectRun.ready copies (s.descs d).interest).length) }
    d (ready s copies d) done

def next (setSize : Nat) (s : State) : Event → State
  | .opens fd connect =>
    { s.setDesc s.made ⟨fd, fun i => if i = .write then connect.toList else [], .new⟩ with
      made := s.made + 1
      held := Function.update s.held s.made true
      opQueue := s.opQueue ++ [.bind s.made] }
  | .take i d o => { addRef s d with postings := s.postings ++ [.dispatch i d o] }
  | .post t => { s with postings := s.postings.erase t, opQueue := s.opQueue ++ [t] }
  | .execute o => { s with opQueue := s.opQueue ++ [.op o] }
  | .unbind d =>
    { s with held := Function.update s.held d false, opQueue := s.opQueue ++ [.unbind d] }
  | .prepare _ => prepare setSize s
  | .select copies ret executeOp =>
    if ret ≤ 0 then { s with frame := .idle 0 }
    else { s with frame := .events 0 copies executeOp 0 }
  | .event it d copies executeOp run done => onEvent s it d copies executeOp run done
  | .endEvents _ _ executeOp run =>
    if executeOp then { s with opQueue := [], frame := .drain s.opQueue run }
    else { s with frame := .idle run }
  | .closure t ts run done => opRun { s with frame := .drain ts (run + 1) } done t
  | .endRun run => { s with frame := .idle run }

def machine (setSize : Nat) : System State Event := ⟨Enabled, next setSize⟩

instance (setSize : Nat) (s : State) (e : Event) : Decidable ((machine setSize).Enabled s e) :=
  inferInstanceAs (Decidable (Enabled s e))

/-- The numbers of new files fit into the sets. -/
def Fits (setSize : Nat) (_ : State) : Event → Prop
  | .opens fd _ => fd < setSize
  | _ => True

instance (setSize : Nat) (s : State) (e : Event) : Decidable (Fits setSize s e) := by
  cases e <;> unfold Fits <;> infer_instance

end SelectMachine
