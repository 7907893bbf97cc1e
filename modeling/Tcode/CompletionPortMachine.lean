import Tcode.SupportReferenceCount
import Tcode.SupportTransitionSystem

/-! # The completion-port multiplexer

Calls on sockets start overlapped operations, of which the kernel completes each once, in
any order. A call that may fail is broken where another thread can come in between. What the
system functions answer is part of the step.
-/
namespace CompletionPortMachine

open SupportReferenceCount SupportTransitionSystem

abbrev DescriptorId := Nat

abbrev SocketId := Nat

abbrev OperationId := Nat

/-- `_descriptor`; `failed` and `unbound` note that its creation failed and was undone, and
that its unbind closure has run. -/
structure Descriptor where
  cell : Cell
  fd : Bool
  failed : Bool
  unbound : Bool
  deriving DecidableEq, Repr

inductive Kind where
  | connect
  | write
  | read
  | readFixedLen
  | accept (accepted : SocketId)
  | udpWrite
  | udpRead
  deriving DecidableEq, Repr

/-- An operation whose `OVERLAPPED` is in use. -/
structure Overlapped where
  op : OperationId
  kind : Kind
  desc : DescriptorId
  deriving DecidableEq, Repr

/-- A call that has taken its reference and asks the system to start the operation. -/
structure Attempt where
  overlapped : Overlapped
  onLoop : Bool
  deriving DecidableEq, Repr

inductive Posted where
  | op (op : OperationId)
  | unbind (d : DescriptorId)
  deriving DecidableEq, Repr

/-- Where the loop thread is in `completion_port::run`. -/
inductive Frame where
  | idle
  | completing (o : Overlapped)
  | releasing (d : DescriptorId)
  deriving DecidableEq, Repr

structure State where
  descs : DescriptorId → Descriptor
  made : Nat
  sockets : SocketId → Option DescriptorId
  attempts : List Attempt
  inFlight : List Overlapped
  posted : List Posted
  frame : Frame
  engine : Int
  fault : Bool

/-! ## Descriptors -/

def State.set (s : State) (d : DescriptorId) (v : Descriptor) : State :=
  { s with descs := Function.update s.descs d v }

/-- The descriptor is read or written. -/
def State.access (s : State) (d : DescriptorId) : State :=
  { s with fault := s.fault || (s.descs d).cell.deleted }

def descriptorAddRef (s : State) (d : DescriptorId) : State :=
  (s.access d).set d { s.descs d with cell := (s.descs d).cell.acquire }

def descriptorRelease (s : State) (d : DescriptorId) : State :=
  { (s.access d).set d { s.descs d with cell := (s.descs d).cell.release } with
    engine := if (s.descs d).cell.refcount = 1 then s.engine - 1 else s.engine }

/-- `descriptor_create` and `bind`; a descriptor that cannot be bound is deleted at once. -/
def State.create (s : State) (k : SocketId) (bound : Bool) : State :=
  { s.set s.made ⟨⟨1, !bound⟩, bound, !bound, false⟩ with
    made := s.made + 1
    engine := s.engine + 1
    sockets := Function.update s.sockets k (if bound then some s.made else none) }

def State.post (s : State) (c : Posted) : State :=
  { s with posted := s.posted ++ [c], engine := s.engine + 1 }

/-! ## Calls -/

/-- What becomes of a connect call: no descriptor is made, or it cannot be bound or started,
or `ConnectEx` has been started. -/
inductive ConnectResult where
  | noDescriptor
  | failed
  | started
  deriving DecidableEq, Repr

inductive Call where
  /-- `listen`, `open` and the `bind` of a datagram socket. -/
  | openSocket (k : SocketId) (bound : Bool)
  | connect (k : SocketId) (op : OperationId) (r : ConnectResult)
  | start (k : SocketId) (op : OperationId) (kind : Kind)
  /-- Without a descriptor a datagram socket makes one first, if it can. -/
  | udpWriteNull (k : SocketId) (op : OperationId) (created : Option Bool)
  | udpReadNull (op : OperationId)
  | unbind (k : SocketId)
  deriving DecidableEq, Repr

/-- Reads, writes and accepts need a descriptor. -/
def Call.Allowed (s : State) : Call → Prop
  | .start k _ kind => (s.sockets k).isSome = true ∧ kind ≠ .connect
  | .udpWriteNull k _ _ => s.sockets k = none
  | _ => True

def State.attempt (s : State) (o : Overlapped) (onLoop : Bool) : State :=
  { descriptorAddRef s o.desc with attempts := s.attempts ++ [⟨o, onLoop⟩] }

def Call.effect (onLoop : Bool) (s : State) : Call → State
  | .openSocket k bound => s.create k bound
  | .connect k op r =>
    match r with
    | .noDescriptor => s.post (.op op)
    | .failed => (s.create k false).post (.op op)
    | .started => { s.create k true with inFlight := s.inFlight ++ [⟨op, .connect, s.made⟩] }
  | .start k op kind =>
    match s.sockets k with
    | none => s
    | some d => s.attempt ⟨op, kind, d⟩ onLoop
  | .udpWriteNull k op created =>
    match created with
    | none => s.post (.op op)
    | some false => (s.create k false).post (.op op)
    | some true => (s.create k true).attempt ⟨op, .udpWrite, s.made⟩ onLoop
  | .udpReadNull op => s.post (.op op)
  | .unbind k =>
    match s.sockets k with
    | none => s
    | some d => { s with sockets := Function.update s.sockets k none }.post (.unbind d)

/-! ## Steps -/

/-- What `post_proc` comes to: the operation is done, it is started once more, or it has made
the descriptor of an accepted socket. -/
inductive PostResult where
  | done
  | again
  | accepted (bound : Bool)
  deriving DecidableEq, Repr

inductive Step where
  | call (onLoop : Bool) (c : Call)
  | result (j : Nat) (started : Bool)
  | complete (j : Nat)
  | postProc (r : PostResult)
  | release
  | task
  deriving DecidableEq, Repr

/-- Only stream writes and reads of a fixed length are started once more, and only an accept
makes a descriptor. -/
def Kind.mayPost : Kind → PostResult → Bool
  | _, .done => true
  | .write, .again | .readFixedLen, .again => true
  | .accept _, .accepted _ => true
  | _, _ => false

/-- The loop thread is not inside a call. -/
def State.Free (s : State) : Prop := ∀ a ∈ s.attempts, a.onLoop = false

def Frame.mayPost (r : PostResult) : Frame → Bool
  | .completing o => o.kind.mayPost r
  | _ => false

def Frame.releases : Frame → Bool
  | .releasing _ => true
  | _ => false

def Enabled (s : State) : Step → Prop
  | .call onLoop c => c.Allowed s ∧ (onLoop = true → s.Free)
  | .result j _ => j < s.attempts.length
  | .complete j => s.Free ∧ s.frame = .idle ∧ j < s.inFlight.length
  | .postProc r => s.Free ∧ s.frame.mayPost r = true
  | .release => s.Free ∧ s.frame.releases = true
  | .task => s.Free ∧ s.frame = .idle ∧ s.posted ≠ []

def postProc (s : State) (o : Overlapped) : PostResult → State
  | .done => s.access o.desc
  | .again => s.attempt o true
  | .accepted bound =>
    match o.kind with
    | .accept k => (s.access o.desc).create k bound
    | _ => s

/-- The unbind closure. -/
def runUnbind (s : State) (d : DescriptorId) : State :=
  let t := (s.access d).set d { s.descs d with fd := false, unbound := true }
  descriptorRelease t d

def next (s : State) : Step → State
  | .call onLoop c => c.effect onLoop s
  | .result j started =>
    match s.attempts[j]? with
    | none => s
    | some a =>
      let t := { s with attempts := s.attempts.eraseIdx j }
      if started then { t with inFlight := s.inFlight ++ [a.overlapped] }
      else (descriptorRelease t a.overlapped.desc).post (.op a.overlapped.op)
  | .complete j =>
    match s.inFlight[j]? with
    | none => s
    | some o => { s with inFlight := s.inFlight.eraseIdx j, frame := .completing o }
  | .postProc r =>
    match s.frame with
    | .completing o => { postProc s o r with frame := .releasing o.desc }
    | _ => s
  | .release =>
    match s.frame with
    | .releasing d => { descriptorRelease s d with frame := .idle }
    | _ => s
  | .task =>
    match s.posted with
    | [] => s
    | .op _ :: rest => { s with posted := rest, engine := s.engine - 1 }
    | .unbind d :: rest => runUnbind { s with posted := rest, engine := s.engine - 1 } d

instance (s : State) : ∀ c : Call, Decidable (c.Allowed s)
  | .start k _ kind => inferInstanceAs (Decidable ((s.sockets k).isSome = true ∧ ¬ kind = .connect))
  | .udpWriteNull k _ _ => inferInstanceAs (Decidable (s.sockets k = none))
  | .openSocket _ _ | .connect _ _ _ | .udpReadNull _ | .unbind _ => isTrue trivial

instance (s : State) : Decidable s.Free :=
  inferInstanceAs (Decidable (∀ a ∈ s.attempts, a.onLoop = false))

instance (s : State) : ∀ e : Step, Decidable (Enabled s e)
  | .call onLoop c => inferInstanceAs (Decidable (c.Allowed s ∧ (onLoop = true → s.Free)))
  | .result j _ => inferInstanceAs (Decidable (j < s.attempts.length))
  | .complete j => inferInstanceAs (Decidable (s.Free ∧ s.frame = .idle ∧ j < s.inFlight.length))
  | .postProc r => inferInstanceAs (Decidable (s.Free ∧ s.frame.mayPost r = true))
  | .release => inferInstanceAs (Decidable (s.Free ∧ s.frame.releases = true))
  | .task => inferInstanceAs (Decidable (s.Free ∧ s.frame = .idle ∧ ¬ s.posted = []))

def machine : System State Step where
  Enabled := Enabled
  next := next

instance (s : State) (e : Step) : Decidable (machine.Enabled s e) :=
  inferInstanceAs (Decidable (Enabled s e))

def initial : State where
  descs _ := ⟨⟨0, false⟩, false, false, false⟩
  made := 0
  sockets _ := none
  attempts := []
  inFlight := []
  posted := []
  frame := .idle
  engine := 0
  fault := false

end CompletionPortMachine
