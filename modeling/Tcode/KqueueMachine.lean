import Tcode.EpollMachine
import Tcode.SupportChangeBatch

/-! # The kqueue multiplexer

The loop thread is the only one that runs closures and handles events; any thread may open, read,
write and unbind. `bind` queues its two changes one after the other, a caller of `read`, `write`
or `accept` takes its reference before it posts its closure, and others can come in between. What
system functions answer, and which operations are done when they are attempted, is part of the
step. The handler of an operation and the `post_proc` of an accept do nothing but call and post, so
they are steps of their own. The bytes of the wake-up pipe and the errors of operations are left
out, as are the engine's count and the queue of `ev_pri`, which nothing uses.

`::kevent` applies a change list in order, up to the first change that it cannot apply.
-/
namespace KqueueMachine

open EpollMachine (DescriptorId OperationId)
open SupportChangeBatch SupportReferenceCount SupportTransitionSystem

/-- `EVFILT_READ` and `EVFILT_WRITE`, and the queues that belong to them. -/
inductive Filter where
  | read
  | write
  deriving DecidableEq, Repr

/-- The flags that are used: `EV_ADD | EV_ENABLE`, `EV_ENABLE` and `EV_DISABLE`. -/
inductive Flags where
  | add
  | enable
  | disable
  deriving DecidableEq, Repr

structure Change where
  ident : Int
  filter : Filter
  flags : Flags
  udata : Option DescriptorId
  deriving DecidableEq, Repr

/-- What is registered with the kqueue for a file and a filter. -/
structure Knote where
  enabled : Bool
  udata : Option DescriptorId
  deriving DecidableEq, Repr

/-- A file has to be open, and only `EV_ADD` makes a knote. -/
def format (files : Int → Bool) : Format Change (Int × Filter) Knote where
  key c := (c.ident, c.filter)
  entry c := ⟨decide (c.flags ≠ .disable), c.udata⟩
  valid c := files c.ident
  makes c := decide (c.flags = .add)

/-- `_descriptor`; `binding` is bookkeeping, the filters whose change `bind` has yet to queue. -/
structure Descriptor where
  fd : Int
  opQueue : Filter → List OperationId
  cell : Cell
  binding : List Filter

/-- What `_op_queue` holds: an operation, or the operation that wraps a closure. -/
inductive Task where
  | op (o : OperationId)
  | dispatch (f : Filter) (d : DescriptorId) (o : OperationId)
  | unbind (d : DescriptorId)
  deriving DecidableEq, Repr

structure Kevent where
  ident : Int
  filter : Filter
  udata : Option DescriptorId
  deriving DecidableEq, Repr

/-- The two loops of `kqueue::run`: over the events, and over the operations it has taken. -/
inductive Position where
  | events (evs : List Kevent) (executeOp : Bool) (run : Int)
  | drain (ops : List Task) (run : Int)
  deriving DecidableEq, Repr

/-- `changing` is the end of `descriptor_dispatch`, with the changes that are still to be queued,
within one of the two loops. -/
inductive Frame where
  | idle (returned : Int)
  | wait
  | within (p : Position)
  | changing (d : DescriptorId) (filters : List Filter) (p : Position)
  deriving DecidableEq, Repr

/-- `files` are the numbers of open files, and `knotes` what the kqueue has. `held` are the
descriptors that a socket has, and `postings` the closures whose reference is taken. `made` and
`invoked` are bookkeeping. -/
structure State where
  wakeUp : Int
  files : Int → Bool
  knotes : Int × Filter → Option Knote
  changes : List Change
  descs : DescriptorId → Descriptor
  made : Nat
  held : DescriptorId → Bool
  postings : List Task
  opQueue : List Task
  frame : Frame
  invoked : List OperationId

/-- The constructor registers the wake-up pipe. -/
def initial (wakeUp : Int) : State where
  wakeUp := wakeUp
  files fd := decide (fd = wakeUp)
  knotes _ := none
  changes := [⟨wakeUp, .read, .add, none⟩]
  descs _ := ⟨-1, fun _ => [], .new, []⟩
  made := 0
  held _ := false
  postings := []
  opQueue := []
  frame := .idle 0
  invoked := []

def State.setDesc (s : State) (d : DescriptorId) (v : Descriptor) : State :=
  { s with descs := Function.update s.descs d v }

theorem setDesc_self (s : State) (d : DescriptorId) (v : Descriptor) :
    (s.setDesc d v).descs d = v := Function.update_self ..

theorem setDesc_ne {s : State} {d e : DescriptorId} {v : Descriptor} (he : e ≠ d) :
    (s.setDesc d v).descs e = s.descs e := Function.update_of_ne he ..

/-- `::close`; the knotes of the file are gone with it. -/
def closeFile (s : State) (fd : Int) : State :=
  { s with
    files := Function.update s.files fd false
    knotes := fun k => if k.1 = fd then none else s.knotes k }

/-- `_change`. -/
def change (s : State) (c : Change) : State := { s with changes := s.changes ++ [c] }

/-! ## Descriptors -/

def descriptorCreate (s : State) (fd : Int) (connect : Option OperationId) : State :=
  { s.setDesc s.made
      ⟨fd, fun f => if f = .write then connect.toList else [], .new, [.read, .write]⟩ with
    made := s.made + 1
    files := Function.update s.files fd true }

def descriptorAddRef (s : State) (d : DescriptorId) : State :=
  s.setDesc d { s.descs d with cell := (s.descs d).cell.acquire }

/-- The last release posts the operations of the descriptor, and deletes it. -/
def descriptorRelease (s : State) (d : DescriptorId) : State :=
  if (s.descs d).cell.refcount = 1 then
    { s.setDesc d { s.descs d with cell := (s.descs d).cell.release, opQueue := fun _ => [] } with
      opQueue := s.opQueue ++
        ((s.descs d).opQueue .read ++ (s.descs d).opQueue .write).map .op }
  else s.setDesc d { s.descs d with cell := (s.descs d).cell.release }

/-- The loop of `descriptor_dispatch`: the queue is worked off until an operation is not done. -/
def descriptorDispatch (s : State) (d : DescriptorId) (f : Filter) (done : OperationId → Bool) :
    State :=
  { s.setDesc d
      { s.descs d with
        opQueue := Function.update (s.descs d).opQueue f
          (((s.descs d).opQueue f).dropWhile done) } with
    invoked := s.invoked ++ ((s.descs d).opQueue f).takeWhile done }

/-- The end of `descriptor_dispatch`: what it changes for a filter. -/
def State.dispatched (s : State) (d : DescriptorId) (f : Filter) : Change :=
  ⟨(s.descs d).fd, f, if ((s.descs d).opQueue f).isEmpty then .disable else .enable, some d⟩

/-! ## Closures -/

/-- The closure of `unbind`. -/
def unbindClosure (s : State) (d : DescriptorId) : State :=
  if (s.descs d).fd ≠ -1 then
    descriptorRelease
      ((closeFile s (s.descs d).fd).setDesc d { s.descs d with fd := -1 }) d
  else descriptorRelease s d

def enqueue (s : State) (f : Filter) (d : DescriptorId) (o : OperationId) : State :=
  s.setDesc d
    { s.descs d with
      opQueue := Function.update (s.descs d).opQueue f ((s.descs d).opQueue f ++ [o]) }

/-- `op_run`, after which the loop thread goes on at `p`. -/
def opRun (s : State) (done : OperationId → Bool) (p : Position) : Task → State
  | .op o => { s with invoked := s.invoked ++ [o], frame := .within p }
  | .dispatch f d o =>
    { descriptorDispatch (enqueue s f d o) d f done with frame := .changing d [.read, .write] p }
  | .unbind d => { unbindClosure s d with frame := .within p }

/-! ## Steps -/

/-- A step names where in its loop the loop thread is. -/
inductive Event where
  | opens (fd : Int) (connect : Option OperationId)
  | bind (d : DescriptorId) (f : Filter) (fs : List Filter)
  /-- Another file of the process is opened or closed. -/
  | file (fd : Int) (isOpen : Bool)
  | take (f : Filter) (d : DescriptorId) (o : OperationId)
  | post (t : Task)
  | execute (o : OperationId)
  | unbind (d : DescriptorId)
  | apply (returned : Int)
  | kevent (evs : List Kevent)
  | event (ev : Kevent) (evs : List Kevent) (executeOp : Bool) (run : Int)
      (done : OperationId → Bool)
  | change (d : DescriptorId) (f : Filter) (fs : List Filter) (p : Position)
  | dispatched (d : DescriptorId) (p : Position)
  | endEvents (executeOp : Bool) (run : Int)
  | closure (t : Task) (ts : List Task) (run : Int) (done : OperationId → Bool)
  | endRun (run : Int)

/-- Events come from knotes that are enabled. -/
def Kevent.Possible (s : State) (ev : Kevent) : Prop :=
  s.knotes (ev.ident, ev.filter) = some ⟨true, ev.udata⟩

instance (s : State) (ev : Kevent) : Decidable (ev.Possible s) :=
  inferInstanceAs (Decidable (_ = _))

def Enabled (s : State) : Event → Prop
  | .opens fd _ => 0 ≤ fd ∧ s.files fd = false
  | .bind d f fs => d < s.made ∧ (s.descs d).binding = f :: fs
  | .file fd isOpen => s.files fd = !isOpen ∧ fd ≠ s.wakeUp ∧ ∀ d < s.made, (s.descs d).fd ≠ fd
  | .take _ d _ => s.held d = true
  | .post t => t ∈ s.postings
  | .execute _ => True
  | .unbind d => s.held d = true
  | .apply returned => s.frame = .idle returned
  | .kevent evs => s.frame = .wait ∧ ∀ ev ∈ evs, ev.Possible s
  | .event ev evs executeOp run _ => s.frame = .within (.events (ev :: evs) executeOp run)
  | .change d f fs p => s.frame = .changing d (f :: fs) p
  | .dispatched d p => s.frame = .changing d [] p
  | .endEvents executeOp run => s.frame = .within (.events [] executeOp run)
  | .closure t ts run _ => s.frame = .within (.drain (t :: ts) run)
  | .endRun run => s.frame = .within (.drain [] run)

instance (s : State) (e : Event) : Decidable (Enabled s e) := by
  cases e <;> unfold Enabled <;> infer_instance

/-- The changes are given to `::kevent` and cleared. -/
def applyChanges (s : State) : State :=
  { s with
    knotes := (format s.files).result s.knotes s.changes
    changes := []
    frame := .wait }

def onEvent (s : State) (ev : Kevent) (evs : List Kevent) (executeOp : Bool) (run : Int)
    (done : OperationId → Bool) : State :=
  match ev.udata with
  | some d =>
    { descriptorDispatch s d ev.filter done with
      frame := .changing d [.read, .write] (.events evs executeOp run) }
  | none => { s with frame := .within (.events evs true (run - 1)) }

/-- `bind` has returned once both changes are queued. -/
def bindChange (s : State) (d : DescriptorId) (f : Filter) (fs : List Filter) : State :=
  { change (s.setDesc d { s.descs d with binding := fs }) ⟨(s.descs d).fd, f, .add, some d⟩ with
    held := if fs = [] then Function.update s.held d true else s.held }

def next (s : State) : Event → State
  | .opens fd connect => descriptorCreate s fd connect
  | .bind d f fs => bindChange s d f fs
  | .file fd true => { s with files := Function.update s.files fd true }
  | .file fd false => closeFile s fd
  | .take f d o => { descriptorAddRef s d with postings := s.postings ++ [.dispatch f d o] }
  | .post t => { s with postings := s.postings.erase t, opQueue := s.opQueue ++ [t] }
  | .execute o => { s with opQueue := s.opQueue ++ [.op o] }
  | .unbind d =>
    { s with held := Function.update s.held d false, opQueue := s.opQueue ++ [.unbind d] }
  | .apply _ => applyChanges s
  | .kevent evs =>
    if evs.isEmpty then { s with frame := .idle 0 }
    else { s with frame := .within (.events evs false evs.length) }
  | .event ev evs executeOp run done => onEvent s ev evs executeOp run done
  | .change d f fs p => { change s (s.dispatched d f) with frame := .changing d fs p }
  | .dispatched _ (.events evs executeOp run) =>
    { s with frame := .within (.events evs executeOp run) }
  | .dispatched d (.drain ops run) =>
    { descriptorRelease s d with frame := .within (.drain ops run) }
  | .endEvents executeOp run =>
    if executeOp then { s with opQueue := [], frame := .within (.drain s.opQueue run) }
    else { s with frame := .idle run }
  | .closure t ts run done => opRun s done (.drain ts (run + 1)) t
  | .endRun run => { s with frame := .idle run }

def machine : System State Event := ⟨Enabled, next⟩

instance (s : State) (e : Event) : Decidable (machine.Enabled s e) :=
  inferInstanceAs (Decidable (Enabled s e))

end KqueueMachine
