import Tcode.SupportReferenceCount
import Tcode.SupportTransitionSystem

/-! # The epoll multiplexers of several engines

Every engine has a loop thread. Calls go through the engine of their socket and may be made by
any thread; where a call posts an operation, other threads can come in before it does. What
system functions answer, and what `post_proc` comes to, is part of the step. The wake-up pipe
is left out: the loop thread may take the queue in any run.
-/
namespace EpollMachine

open SupportReferenceCount SupportTransitionSystem

abbrev EngineId := Nat

abbrev DescriptorId := Nat

abbrev SocketId := Nat

abbrev OperationId := Nat

inductive ErrorCode where
  | success
  | aborted
  | invalid
  | disconnected
  | system (errno : Nat)
  deriving DecidableEq, Repr

/-- The indices of `op_queue`; `ev_accept` is `ev_read` and `ev_connect` is `ev_write`. -/
inductive Direction where
  | read
  | write
  | pri
  deriving DecidableEq, Repr

/-- `_descriptor`, the epoll instance that its file is registered with, and as bookkeeping the
engine that made it, whether its creation failed and whether its unbind closure has run. -/
structure Descriptor where
  fd : Bool
  cell : Cell
  opQueue : Direction → List OperationId
  registered : Option EngineId
  home : EngineId
  failed : Bool
  unbound : Bool

/-- What `_op_queue` holds: an operation, or the operation that wraps a closure. -/
inductive Task where
  | op (o : OperationId)
  | dispatch (i : Direction) (d : DescriptorId) (o : OperationId)
  | unbind (d : DescriptorId)
  deriving DecidableEq, Repr

structure Event where
  desc : DescriptorId
  flags : List Direction
  deriving DecidableEq, Repr

/-- The two loops of `epoll::run`: over the events, and over the operations it has taken. -/
inductive Position where
  | events (evs : List Event) (executeOp : Bool)
  | drain (ops : List Task)
  deriving DecidableEq, Repr

/-- Where a loop thread is; `dispatching` is `descriptor_dispatch` with the directions still to
be worked off, within one of the two loops. -/
inductive Frame where
  | stopped
  | loop
  | wait
  | within (p : Position)
  | dispatching (d : DescriptorId) (dirs : List Direction) (p : Position)
  deriving DecidableEq, Repr

structure Engine where
  refcount : Int
  timers : Nat
  opQueue : List Task
  frame : Frame
  deriving DecidableEq, Repr

structure Socket where
  engine : EngineId
  desc : Option DescriptorId
  deriving DecidableEq, Repr

/-- A thread (the loop thread of an engine, or another one) that is about to post. -/
structure Posting where
  thread : Option EngineId
  engine : EngineId
  task : Task
  deriving DecidableEq, Repr

/-- Where an operation is. -/
inductive Place where
  | nowhere
  | posting
  | engine (m : EngineId)
  | descriptor (d : DescriptorId) (i : Direction)
  | invoked
  deriving DecidableEq, Repr

/-- `accepts` is the socket that an accept operation fills. `places`, `released` (by the
last release of their descriptor), `invoked` and `fault` are bookkeeping. -/
structure State where
  engines : EngineId → Engine
  descs : DescriptorId → Descriptor
  made : Nat
  sockets : SocketId → Socket
  postings : List Posting
  errors : OperationId → ErrorCode
  accepts : OperationId → Option SocketId
  places : OperationId → Place
  released : OperationId → Bool
  invoked : List (OperationId × ErrorCode)
  fault : Bool

def State.setEngine (s : State) (m : EngineId) (v : Engine) : State :=
  { s with engines := Function.update s.engines m v }

def State.setDesc (s : State) (d : DescriptorId) (v : Descriptor) : State :=
  { s with descs := Function.update s.descs d v }

def State.setSocket (s : State) (k : SocketId) (v : Socket) : State :=
  { s with sockets := Function.update s.sockets k v }

def State.setFrame (s : State) (m : EngineId) (f : Frame) : State :=
  s.setEngine m { s.engines m with frame := f }

def State.setPlace (s : State) (o : OperationId) (p : Place) : State :=
  { s with places := Function.update s.places o p }

def State.setError (s : State) (o : OperationId) (ec : ErrorCode) : State :=
  { s with errors := Function.update s.errors o ec }

/-- The descriptor is read or written. -/
def State.access (s : State) (d : DescriptorId) : State :=
  { s with fault := s.fault || (s.descs d).cell.deleted }

/-! ## Operations and descriptors -/

/-- The handler of the operation is called with its error. -/
def State.invoke (s : State) (o : OperationId) : State :=
  { s.setPlace o .invoked with invoked := s.invoked ++ [(o, s.errors o)] }

def opAdd (s : State) (m : EngineId) (t : Task) : State :=
  s.setEngine m { s.engines m with
    opQueue := (s.engines m).opQueue ++ [t], refcount := (s.engines m).refcount + 1 }

def Descriptor.new (m : EngineId) (registered : Bool) : Descriptor where
  fd := true
  cell := .new
  opQueue _ := []
  registered := if registered then some m else none
  home := m
  failed := false
  unbound := false

/-- `descriptor_create` for a socket, by the multiplexer of engine `m`. -/
def descriptorCreate (s : State) (m : EngineId) (k : SocketId) (registered : Bool) : State :=
  (({ s.setDesc s.made (.new m registered) with made := s.made + 1 }).setSocket k
    { s.sockets k with desc := some s.made }).setEngine m
      { s.engines m with refcount := (s.engines m).refcount + 1 }

/-- A descriptor whose file cannot be registered is released again, which deletes it. -/
def State.create (s : State) (m : EngineId) (k : SocketId) (bound : Bool) : State :=
  if bound then descriptorCreate s m k true
  else
    ({ s.setDesc s.made { Descriptor.new m false with cell := Cell.new.release, failed := true } with
      made := s.made + 1 }).setSocket k { s.sockets k with desc := none }

def descriptorAddRef (s : State) (d : DescriptorId) : State :=
  (s.access d).setDesc d { s.descs d with cell := (s.descs d).cell.acquire }

/-- The operations of a descriptor in the order in which they are aborted. -/
def Descriptor.ops (v : Descriptor) : List OperationId :=
  v.opQueue .read ++ v.opQueue .write ++ v.opQueue .pri

/-- The last release of a descriptor aborts its operations and deletes it. -/
def State.abort (s : State) (m : EngineId) (d : DescriptorId) : State :=
  let v := s.descs d
  { ((s.access d).setDesc d { v with cell := v.cell.release, opQueue := fun _ => [] }).setEngine m
      { s.engines m with
        refcount := (s.engines m).refcount - 1 + v.ops.length
        opQueue := (s.engines m).opQueue ++ v.ops.map .op } with
    errors := fun o => if o ∈ v.ops ∧ s.errors o = .success then .aborted else s.errors o
    places := fun o => if o ∈ v.ops then .engine m else s.places o
    released := fun o => decide (o ∈ v.ops) || s.released o }

/-- `descriptor_release` of the multiplexer of engine `m`. -/
def descriptorRelease (s : State) (m : EngineId) (d : DescriptorId) : State :=
  if (s.descs d).cell.refcount = 1 then s.abort m d
  else (s.access d).setDesc d { s.descs d with cell := (s.descs d).cell.release }

/-! ## Calls -/

/-- What becomes of a connect: it fails before a descriptor is made, its file cannot be
registered, or it is under way. -/
inductive ConnectResult where
  | failed (ec : ErrorCode)
  | notBound (ec : ErrorCode)
  | started
  deriving DecidableEq, Repr

/-- What a datagram write without a descriptor finds: no file, one that cannot be registered,
or one that it can use. -/
inductive OpenResult where
  | noFile (ec : ErrorCode)
  | notBound (ec : ErrorCode)
  | opened
  deriving DecidableEq, Repr

inductive Call where
  | socket (k : SocketId) (m : EngineId)
  | execute (m : EngineId) (o : OperationId)
  | connect (k : SocketId) (o : OperationId) (r : ConnectResult)
  /-- `listen`, `open` and the `bind` of a datagram socket. -/
  | openSocket (k : SocketId) (bound : Bool)
  /-- The reads and writes of stream and datagram sockets. -/
  | start (k : SocketId) (i : Direction) (o : OperationId)
  | accept (k : SocketId) (o : OperationId) (accepted : SocketId)
  | udpWriteNull (k : SocketId) (o : OperationId) (r : OpenResult)
  | udpReadNull (k : SocketId) (o : OperationId)
  | unbind (k : SocketId)
  deriving DecidableEq, Repr

/-- The operation that a call submits. -/
def Call.op : Call → Option OperationId
  | .execute _ o | .connect _ o _ | .start _ _ o | .accept _ o _ | .udpWriteNull _ o _
  | .udpReadNull _ o => some o
  | .socket _ _ | .openSocket _ _ | .unbind _ => none

/-- Reads, writes and accepts need a descriptor. -/
def Call.HasDescriptor (s : State) : Call → Prop
  | .start k _ _ | .accept k _ _ => (s.sockets k).desc.isSome = true
  | .udpWriteNull k _ _ | .udpReadNull k _ => (s.sockets k).desc = none
  | _ => True

/-- An operation is submitted once, with an error that is not set. -/
def Call.Allowed (s : State) (c : Call) : Prop :=
  c.HasDescriptor s ∧ ∀ o ∈ c.op, s.places o = .nowhere ∧ s.errors o = .success

/-- The thread is about to post an operation. -/
def State.execute (s : State) (thread : Option EngineId) (m : EngineId) (o : OperationId) : State :=
  { s.setPlace o .posting with postings := s.postings ++ [⟨thread, m, .op o⟩] }

/-- The thread has taken a reference and is about to post the closure. -/
def State.startOn (s : State) (thread : Option EngineId) (m : EngineId) (i : Direction)
    (d : DescriptorId) (o : OperationId) : State :=
  { (descriptorAddRef s d).setPlace o .posting with
    postings := s.postings ++ [⟨thread, m, .dispatch i d o⟩] }

def Call.effect (thread : Option EngineId) (s : State) : Call → State
  | .socket k m => s.setSocket k ⟨m, none⟩
  | .execute m o => s.execute thread m o
  | .connect k o r =>
    let m := (s.sockets k).engine
    match r with
    | .failed ec => (s.setError o ec).execute thread m o
    | .notBound ec => ((s.create m k false).setError o ec).execute thread m o
    | .started =>
      let t := s.create m k true
      (t.setDesc s.made { t.descs s.made with
        opQueue := Function.update (t.descs s.made).opQueue .write [o] }).setPlace o
          (.descriptor s.made .write)
  | .openSocket k bound => s.create (s.sockets k).engine k bound
  | .start k i o =>
    match (s.sockets k).desc with
    | none => s
    | some d => s.startOn thread (s.sockets k).engine i d o
  | .accept k o accepted =>
    match (s.sockets k).desc with
    | none => s
    | some d => { s with accepts := Function.update s.accepts o (some accepted) }.startOn thread
        (s.sockets k).engine .read d o
  | .udpWriteNull k o r =>
    let m := (s.sockets k).engine
    match r with
    | .noFile ec => (s.setError o ec).execute thread m o
    | .notBound ec => ((s.create m k false).setError o ec).execute thread m o
    | .opened => (s.create m k true).startOn thread m .write s.made o
  | .udpReadNull k o => (s.setError o .invalid).execute thread (s.sockets k).engine o
  | .unbind k =>
    match (s.sockets k).desc with
    | none => s
    | some d =>
      opAdd (s.setSocket k { s.sockets k with desc := none }) (s.sockets k).engine (.unbind d)

/-! ## The loop thread -/

/-- What `post_proc` comes to: the operation is not finished, it is, or it has made the
descriptor of an accepted connection. -/
inductive PostResult where
  | again
  | done (ec : ErrorCode)
  | accepted (k : SocketId) (registered : Bool)
  deriving DecidableEq, Repr

inductive Step where
  | call (thread : Option EngineId) (c : Call)
  | post (j : Nat)
  | timers (m : EngineId) (n : Nat)
  | run (m : EngineId)
  | check (m : EngineId)
  | epollWait (m : EngineId) (evs : List Event) (executeOp : Bool)
  | event (m : EngineId)
  | leave (m : EngineId)
  | opRun (m : EngineId)
  | postProc (m : EngineId) (r : PostResult)
  | advance (m : EngineId)
  deriving DecidableEq, Repr

/-- The directions of `descriptor_dispatch`. -/
def directions (flags : List Direction) : List Direction :=
  [.read, .write, .pri].filter (· ∈ flags)

/-- The loop thread of the engine is not inside a call. -/
def State.Free (s : State) (m : EngineId) : Prop := ∀ p ∈ s.postings, p.thread ≠ some m

/-- An accepted connection is given to the socket of the operation. -/
def PostResult.Possible (s : State) (o : OperationId) : PostResult → Prop
  | .accepted k _ => s.accepts o = some k
  | _ => True

/-- The operation that `descriptor_dispatch` looks at. -/
def State.front (s : State) (m : EngineId) : Option OperationId :=
  match (s.engines m).frame with
  | .dispatching d (i :: _) _ => ((s.descs d).opQueue i).head?
  | _ => none

def Frame.hasEvent : Frame → Bool
  | .within (.events (_ :: _) _) => true
  | _ => false

def Frame.hasTask : Frame → Bool
  | .within (.drain (_ :: _)) => true
  | _ => false

/-- The loop that the thread is in has come to its end. -/
def Frame.atEnd : Frame → Bool
  | .within (.events [] _) | .within (.drain []) => true
  | _ => false

def Frame.dispatches : Frame → Bool
  | .dispatching _ _ _ => true
  | _ => false

def Enabled (s : State) : Step → Prop
  | .call thread c => c.Allowed s ∧ ∀ m ∈ thread, s.Free m
  | .post j => j < s.postings.length
  | .timers m _ => s.Free m
  | .run m => (s.engines m).frame = .stopped
  | .check m => s.Free m ∧ (s.engines m).frame = .loop
  | .epollWait m evs _ =>
    s.Free m ∧ (s.engines m).frame = .wait ∧ ∀ e ∈ evs, (s.descs e.desc).registered = some m
  | .event m => s.Free m ∧ (s.engines m).frame.hasEvent = true
  | .leave m => s.Free m ∧ (s.engines m).frame.atEnd = true
  | .opRun m => s.Free m ∧ (s.engines m).frame.hasTask = true
  | .postProc m r => s.Free m ∧ ∃ o ∈ s.front m, r.Possible s o
  | .advance m => s.Free m ∧ (s.engines m).frame.dispatches = true ∧ s.front m = none

/-- A task is run, after which the loop thread goes on with `ops`. -/
def runTask (s : State) (m : EngineId) (ops : List Task) : Task → State
  | .op o => s.invoke o
  | .dispatch i d o =>
    (((s.access d).setDesc d { s.descs d with
      opQueue := Function.update (s.descs d).opQueue i ((s.descs d).opQueue i ++ [o]) }).setPlace o
        (.descriptor d i)).setFrame m (.dispatching d [i] (.drain ops))
  | .unbind d =>
    descriptorRelease ((s.access d).setDesc d { s.descs d with
      fd := false, registered := none, unbound := true }) m d

/-- `op_run`: the engine is released, and the task runs. -/
def opRun (s : State) (m : EngineId) (t : Task) (ops : List Task) : State :=
  runTask (s.setEngine m { s.engines m with
    frame := .within (.drain ops), refcount := (s.engines m).refcount - 1 }) m ops t

/-- The front operation is finished: it leaves its queue, and its handler is called. -/
def State.finish (s : State) (d : DescriptorId) (i : Direction) (o : OperationId)
    (ec : ErrorCode) : State :=
  ((s.setDesc d { s.descs d with
    opQueue := Function.update (s.descs d).opQueue i ((s.descs d).opQueue i).tail }).setError o
      ec).invoke o

/-- One turn of the loop of `descriptor_dispatch` over a queue that is not empty. -/
def dispatchTurn (s : State) (m : EngineId) (d : DescriptorId) (i : Direction)
    (dirs : List Direction) (p : Position) (o : OperationId) : PostResult → State
  | .again => (s.access d).setFrame m (.dispatching d dirs p)
  | .done ec => (s.access d).finish d i o ec
  | .accepted k registered =>
    (descriptorCreate (s.access d) m k registered).finish d i o .success

/-- The end of one direction, or of `descriptor_dispatch`; the closures of reads, writes and
accepts release the descriptor after that. -/
def advance (s : State) (m : EngineId) (d : DescriptorId) : List Direction → Position → State
  | _ :: dirs, p => (s.access d).setFrame m (.dispatching d dirs p)
  | [], .events evs x => s.setFrame m (.within (.events evs x))
  | [], .drain ops => (descriptorRelease s m d).setFrame m (.within (.drain ops))

def next (s : State) : Step → State
  | .call thread c => c.effect thread s
  | .post j =>
    match s.postings[j]? with
    | none => s
    | some p =>
      let t := opAdd { s with postings := s.postings.eraseIdx j } p.engine p.task
      match p.task with
      | .op o | .dispatch _ _ o => t.setPlace o (.engine p.engine)
      | .unbind _ => t
  | .timers m n => s.setEngine m { s.engines m with timers := n }
  | .run m => s.setFrame m .loop
  | .check m =>
    if (s.engines m).refcount ≠ 0 ∨ (s.engines m).timers ≠ 0 then s.setFrame m .wait
    else s.setFrame m .stopped
  | .epollWait m evs executeOp => s.setFrame m (.within (.events evs executeOp))
  | .event m =>
    match (s.engines m).frame with
    | .within (.events (e :: evs) x) =>
      (s.access e.desc).setFrame m (.dispatching e.desc (directions e.flags) (.events evs x))
    | _ => s
  | .leave m =>
    match (s.engines m).frame with
    | .within (.events [] true) =>
      s.setEngine m { s.engines m with
        opQueue := [], frame := .within (.drain (s.engines m).opQueue) }
    | _ => s.setFrame m .loop
  | .opRun m =>
    match (s.engines m).frame with
    | .within (.drain (t :: ops)) => opRun s m t ops
    | _ => s
  | .postProc m r =>
    match (s.engines m).frame, s.front m with
    | .dispatching d (i :: dirs) p, some o => dispatchTurn s m d i dirs p o r
    | _, _ => s
  | .advance m =>
    match (s.engines m).frame with
    | .dispatching d dirs p => advance s m d dirs p
    | _ => s

def machine : System State Step where
  Enabled := Enabled
  next := next

instance (s : State) (m : EngineId) : Decidable (s.Free m) :=
  inferInstanceAs (Decidable (∀ p ∈ s.postings, p.thread ≠ some m))

instance (s : State) : ∀ c : Call, Decidable (c.HasDescriptor s)
  | .start k _ _ | .accept k _ _ => inferInstanceAs (Decidable ((s.sockets k).desc.isSome = true))
  | .udpWriteNull k _ _ | .udpReadNull k _ =>
    inferInstanceAs (Decidable ((s.sockets k).desc = none))
  | .socket _ _ | .execute _ _ | .connect _ _ _ | .openSocket _ _ | .unbind _ => isTrue trivial

instance (s : State) (c : Call) : Decidable (c.Allowed s) :=
  inferInstanceAs (Decidable (c.HasDescriptor s ∧
    ∀ o ∈ c.op, s.places o = .nowhere ∧ s.errors o = .success))

instance (s : State) (o : OperationId) : ∀ r : PostResult, Decidable (r.Possible s o)
  | .accepted k _ => inferInstanceAs (Decidable (s.accepts o = some k))
  | .again | .done _ => isTrue trivial

instance (s : State) : ∀ x : Step, Decidable (machine.Enabled s x)
  | .call thread c => inferInstanceAs (Decidable (c.Allowed s ∧ ∀ m ∈ thread, s.Free m))
  | .post j => inferInstanceAs (Decidable (j < s.postings.length))
  | .timers m _ => inferInstanceAs (Decidable (s.Free m))
  | .run m => inferInstanceAs (Decidable ((s.engines m).frame = .stopped))
  | .check m => inferInstanceAs (Decidable (s.Free m ∧ (s.engines m).frame = .loop))
  | .epollWait m evs _ => inferInstanceAs (Decidable (s.Free m ∧ (s.engines m).frame = .wait ∧
      ∀ e ∈ evs, (s.descs e.desc).registered = some m))
  | .event m => inferInstanceAs (Decidable (s.Free m ∧ (s.engines m).frame.hasEvent = true))
  | .leave m => inferInstanceAs (Decidable (s.Free m ∧ (s.engines m).frame.atEnd = true))
  | .opRun m => inferInstanceAs (Decidable (s.Free m ∧ (s.engines m).frame.hasTask = true))
  | .postProc m r => inferInstanceAs (Decidable (s.Free m ∧ ∃ o ∈ s.front m, r.Possible s o))
  | .advance m => inferInstanceAs (Decidable (s.Free m ∧ (s.engines m).frame.dispatches = true ∧
      s.front m = none))

def initial : State where
  engines _ := ⟨0, 0, [], .stopped⟩
  descs _ := ⟨false, ⟨0, false⟩, fun _ => [], none, 0, false, false⟩
  made := 0
  sockets _ := ⟨0, none⟩
  postings := []
  errors _ := .success
  accepts _ := none
  places _ := .nowhere
  released _ := false
  invoked := []
  fault := false

end EpollMachine
