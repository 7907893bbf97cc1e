import Tcode.BufferByteBuffer
import Tcode.ChannelFlagWord
import Tcode.SupportListSums
import Tcode.SupportTransitionSystem

/-! # A channel and the threads that use it

The run-loop thread works off a list of instructions; so does, one instruction at a
time, every call from another thread. An instruction makes at most one operation on
`_flag`. Closures wait in the engine, socket operations with the kernel, and the
loop thread starts one of them when it has nothing left to do. Handlers are callbacks
from which the channel may be used again.

`reposts`, `user`, `winners`, `accepted`, `completed` and `wire` are bookkeeping.
-/
namespace ChannelMachine

open SupportMachineInt BufferByteBuffer ChannelFlagWord SupportTransitionSystem

/-- The value of a `std::error_code`. -/
abbrev ErrorCode := Int

/-- What the channel fires into its pipeline. -/
inductive Event where
  | onOpen
  | onRead (nbytes : Int)
  | onWrite (nbytes : Int) (flush : Bool)
  | onError (ec : ErrorCode)
  | onClose
  | onEndReference
  deriving DecidableEq, Repr

/-- Whose reference a `release` gives back. -/
inductive Holder where
  | opened
  | read
  | write
  | caller
  deriving DecidableEq, Repr

/-- Closures that hold a reference from `add_ref` to `release`. -/
inductive Held where
  | doWrite (buf : ByteBuffer)
  | filterEvent
  deriving DecidableEq, Repr

/-- The closures given to `engine().execute`. -/
inductive Task where
  | fireOnOpen
  | fireOnClose (ec : ErrorCode)
  | fireOnEndReference
  | held (h : Held)
  deriving DecidableEq, Repr

/-- How a socket operation ends: an error code or the number of bytes. -/
abbrev Result := Except ErrorCode Int

inductive Instr where
  | fireOnOpen
  | fire (e : Event)
  | callback
  | read
  | readBody
  | handleRead (r : Result)
  | doWrite (buf : ByteBuffer)
  | writeRemains
  | writeBody
  | handleWrite (r : Result)
  | close (ec : ErrorCode)
  | fireOnClose (ec : ErrorCode)
  | execute (t : Task)
  | addRefExecute (h : Held)
  | release (h : Holder)
  | delete
  deriving DecidableEq

/-- Operations given to the socket and not completed. -/
inductive Op where
  | read
  | write (bufs : List (List UInt8))
  deriving DecidableEq, Repr

structure State (F : Type) where
  flag : F
  writeBuffers : List ByteBuffer
  main : List Instr
  others : List Instr
  tasks : List Task
  ops : List Op
  events : List Event
  deleted : Bool
  reposts : Nat
  user : Nat
  winners : List ErrorCode
  accepted : List UInt8
  completed : List UInt8
  wire : List UInt8
  deriving DecidableEq

def Task.code : Task → List Instr
  | .fireOnOpen => [.fireOnOpen]
  | .fireOnClose ec => [.fireOnClose ec]
  | .fireOnEndReference => [.fire .onEndReference, .delete]
  | .held (.doWrite buf) => [.doWrite buf, .release .caller]
  | .held .filterEvent => [.callback, .release .caller]

def Op.handler : Op → Result → List Instr
  | .read, r => [.handleRead r, .release .read]
  | .write _, r => [.handleWrite r, .release .write]

/-! ## The write queue -/

/-- `io::buffer( rd_ptr() , length())`: the length is narrowed to an int and widened again. -/
def ioBuffer (buf : ByteBuffer) : List UInt8 :=
  (buf.fromReadPosition.getD []).take (toSize (toInt buf.length))

/-- The buffers of one write. With more than one, the vector already holds as many empty
buffers when the first is pushed back. -/
def writeRequest : List ByteBuffer → List (List UInt8)
  | [buf] => [ioBuffer buf]
  | bufs => List.replicate bufs.length [] ++ bufs.map ioBuffer

/-- The loop of `handle_write` over `_write_buffers`. -/
def skipWritten : List ByteBuffer → Int → List ByteBuffer
  | [], _ => []
  | buf :: bufs, bytes =>
    if 0 < bytes then (buf.rdPtr bytes).2 :: skipWritten bufs (bytes - (buf.rdPtr bytes).1)
    else buf :: bufs

def trim (bufs : List ByteBuffer) (nbytes : Int) : List ByteBuffer :=
  (skipWritten bufs nbytes).filter fun buf => buf.length ≠ 0

/-! ## Instructions -/

section Machine

variable {F : Type} (W : FlagWord F)

/-- One instruction, on the run-loop thread or on another, and the instructions that it
puts before the rest. -/
def exec (onLoop : Bool) (s : State F) : Instr → State F × List Instr
  | .fireOnOpen =>
    ({ s with flag := W.addRef s.flag, reposts := if onLoop then s.reposts else s.reposts + 1 },
      if onLoop then [.fire .onOpen, .read] else [.execute .fireOnOpen])
  | .fire e => ({ s with events := s.events ++ [e] }, [.callback])
  | .callback => (s, [])
  | .read => (s, if W.contains .close s.flag then [.readBody] else [])
  | .readBody => ({ s with flag := W.addRef s.flag, ops := s.ops ++ [.read] }, [])
  | .handleRead r =>
    if W.contains .close s.flag then
      match r with
      | .error ec => (s, [.close ec])
      | .ok nbytes => (s, [.fire (.onRead nbytes), .read])
    else (s, [])
  | .doWrite buf =>
    if W.contains .close s.flag then
      if onLoop then
        ({ s with
            writeBuffers := s.writeBuffers ++ [buf]
            accepted := s.accepted ++ buf.contents },
          if s.writeBuffers.isEmpty then [.writeRemains] else [])
      else (s, [.addRefExecute (.doWrite buf)])
    else (s, [])
  | .writeRemains => (s, if W.contains .close s.flag then [.writeBody] else [])
  | .writeBody =>
    ({ s with
        flag := W.addRef s.flag
        ops := s.ops ++ [.write (writeRequest s.writeBuffers)]
        wire := s.wire ++ (writeRequest s.writeBuffers).flatten }, [])
  | .handleWrite r =>
    if W.contains .close s.flag then
      match r with
      | .error ec => (s, [.close ec])
      | .ok nbytes =>
        ({ s with writeBuffers := trim s.writeBuffers nbytes },
          .fire (.onWrite nbytes (trim s.writeBuffers nbytes).isEmpty) ::
            if (trim s.writeBuffers nbytes).isEmpty then [] else [.writeRemains])
    else (s, [])
  | .close ec =>
    if W.contains .close s.flag then
      ({ s with flag := W.reset .close s.flag, winners := s.winners ++ [ec] },
        [.execute (.fireOnClose ec)])
    else (s, [])
  | .fireOnClose ec =>
    -- `_fd.close()` is seen only in how the operations still open complete.
    if W.contains .error s.flag then
      ({ s with flag := W.reset .error s.flag },
        [.fire (.onError ec), .fire .onClose, .release .opened])
    else (s, [.fire .onClose, .release .opened])
  | .execute t => ({ s with tasks := s.tasks ++ [t] }, [])
  | .addRefExecute h => ({ s with flag := W.addRef s.flag }, [.execute (.held h)])
  | .release _ =>
    ({ s with flag := W.release s.flag },
      if W.isZero (W.release s.flag) then [.execute .fireOnEndReference] else [])
  | .delete => ({ s with deleted := true }, [])

/-- What users of a channel call, on any thread. -/
inductive Call where
  | close (ec : ErrorCode)
  | doWrite (buf : ByteBuffer)
  | filterEvent
  | addRef
  | release
  deriving DecidableEq

def Call.code : Call → List Instr
  | .close ec => [.close ec]
  | .doWrite buf => [.doWrite buf]
  | .filterEvent => [.addRefExecute .filterEvent]
  | .addRef => []
  | .release => [.release .caller]

/-- A reference may be taken on behalf of a caller while one is held, and while the count
leaves room for those that the channel takes itself. -/
def MayAddRef (s : State F) : Prop :=
  1 ≤ W.references s.flag ∧ W.references s.flag + 8 ≤ 268435456

def Call.Allowed (s : State F) : Call → Prop
  | .addRef => MayAddRef W s
  | .release => 1 ≤ s.user
  | _ => True

def Call.effect (s : State F) : Call → State F
  | .addRef => { s with flag := W.addRef s.flag, user := s.user + 1 }
  | .release => { s with user := s.user - 1 }
  | _ => s

def Instr.Ready (s : State F) : Instr → Prop
  | .addRefExecute _ => MayAddRef W s
  | _ => True

inductive Step where
  | run
  | runOther (k : Nat)
  | task
  | complete (k : Nat) (r : Result)
  | call (c : Call)
  | callOther (c : Call)
  deriving DecidableEq

/-- The channel is live, and nobody else uses it before its opener has a reference. -/
def Usable (s : State F) : Prop := s.deleted = false ∧ Instr.fireOnOpen ∉ s.others

def Enabled (s : State F) : Step → Prop
  | .run => ∃ i ∈ s.main.head?, i.Ready W s
  | .runOther k => ∃ i ∈ s.others[k]?, i.Ready W s
  | .task => s.main = [] ∧ s.tasks ≠ []
  | .complete k _ => s.main = [] ∧ k < s.ops.length
  | .call c => (s.main = [] ∨ s.main.head? = some .callback) ∧ Usable s ∧ c.Allowed W s
  | .callOther c => Usable s ∧ c.Allowed W s

instance (s : State F) : Decidable (MayAddRef W s) := inferInstanceAs (Decidable (_ ∧ _))

instance (s : State F) : ∀ c : Call, Decidable (c.Allowed W s)
  | .addRef => inferInstanceAs (Decidable (MayAddRef W s))
  | .release => inferInstanceAs (Decidable (1 ≤ s.user))
  | .close _ | .doWrite _ | .filterEvent => isTrue trivial

instance (s : State F) : ∀ i : Instr, Decidable (i.Ready W s)
  | .addRefExecute _ => inferInstanceAs (Decidable (MayAddRef W s))
  | .fireOnOpen | .fire _ | .callback | .read | .readBody | .handleRead _ | .doWrite _
  | .writeRemains | .writeBody | .handleWrite _ | .close _ | .fireOnClose _ | .execute _
  | .release _ | .delete => isTrue trivial

instance (s : State F) : Decidable (Usable s) := inferInstanceAs (Decidable (_ ∧ _))

instance (s : State F) : ∀ e : Step, Decidable (Enabled W s e)
  | .run => inferInstanceAs (Decidable (∃ i ∈ s.main.head?, i.Ready W s))
  | .runOther k => inferInstanceAs (Decidable (∃ i ∈ s.others[k]?, i.Ready W s))
  | .task => inferInstanceAs (Decidable (_ ∧ _))
  | .complete k _ => inferInstanceAs (Decidable (s.main = [] ∧ k < s.ops.length))
  | .call _ => inferInstanceAs (Decidable (_ ∧ _ ∧ _))
  | .callOther _ => inferInstanceAs (Decidable (_ ∧ _))

/-- The bytes of a write of which `r` bytes were written. -/
def written : Op → Result → List UInt8
  | .write bufs, .ok nbytes => bufs.flatten.take nbytes.toNat
  | _, _ => []

def next (s : State F) : Step → State F
  | .run =>
    match s.main with
    | [] => s
    | i :: rest =>
      let (s', front) := exec W true { s with main := rest } i
      { s' with main := front ++ rest }
  | .runOther k =>
    match s.others[k]? with
    | none => s
    | some i =>
      let (s', front) := exec W false { s with others := s.others.eraseIdx k } i
      { s' with others := s'.others ++ front }
  | .task =>
    match s.tasks with
    | [] => s
    | t :: tasks => { s with tasks, main := t.code }
  | .complete k r =>
    match s.ops[k]? with
    | none => s
    | some op =>
      { s with
        ops := s.ops.eraseIdx k
        main := op.handler r
        completed := s.completed ++ written op r }
  | .call c => { c.effect W s with main := c.code ++ s.main }
  | .callOther c => { c.effect W s with others := s.others ++ c.code }

def machine : System (State F) Step where
  Enabled := Enabled W
  next := next W

instance (s : State F) (e : Step) : Decidable ((machine W).Enabled s e) :=
  inferInstanceAs (Decidable (Enabled W s e))

/-- `fire_on_open` is called on a new channel. -/
def opening (onLoop : Bool) : State F where
  flag := W.initial
  writeBuffers := []
  main := if onLoop then [.fireOnOpen] else []
  others := if onLoop then [] else [.fireOnOpen]
  tasks := []
  ops := []
  events := []
  deleted := false
  reposts := 0
  user := 0
  winners := []
  accepted := []
  completed := []
  wire := []

end Machine

end ChannelMachine
