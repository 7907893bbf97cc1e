import Mathlib.Data.Finset.Basic
import Tcode.CompletionPortReferences

/-! # Making a descriptor of the completion port

Six functions make a socket and a descriptor for it, and undo by hand what they have done when a
later system call fails. What the system calls answer is a parameter. A call is seen with the
variables that its caller passes by reference, and is connected to the steps of the machine.
-/
namespace CompletionPortSetup

open SupportReferenceCount SupportTransitionSystem
open CompletionPortMachine CompletionPortReferences

/-- `SOCKET`, but for `INVALID_SOCKET`. -/
abbrev Handle := Nat

/-- `_descriptor` with its memory. -/
structure Memory where
  fd : Option Handle
  cell : Cell
  deriving DecidableEq, Repr

inductive ErrorCode where
  /-- `error_invalid`. -/
  | invalid
  /-- `last_error()`. -/
  | system (code : Int)
  deriving DecidableEq, Repr

/-- The completion port, its engine and the open sockets, and what the caller passes:
its descriptor, the error of its operation, and the socket and address that were accepted. -/
structure Port where
  desc : Option DescriptorId
  error : Option ErrorCode
  acceptedFd : Option Handle
  address : List UInt8
  descs : DescriptorId → Memory
  made : Nat
  sockets : Finset Handle
  inFlight : List Overlapped
  opQueue : List Posted
  engine : Int

/-- What the system calls answer. `none` is `INVALID_SOCKET`; an operation is started when the
system has done it at once or says `WSA_IO_PENDING`. -/
structure Answers where
  socket : Option Handle
  /-- The pointer that `WSAIoctl` stores is not null. -/
  connectEx : Bool
  bound : Bool
  listening : Bool
  /-- `CreateIoCompletionPort` gives back the port. -/
  associated : Bool
  started : Bool
  lastError : Int
  remote : List UInt8
  deriving DecidableEq, Repr

namespace Port

def openSocket (w : Port) (fd : Handle) : Port := { w with sockets := insert fd w.sockets }

def closesocket (w : Port) (fd : Handle) : Port := { w with sockets := w.sockets.erase fd }

/-- `desc = descriptor_create( fd )`. -/
def descriptorCreate (w : Port) (fd : Option Handle) : Port :=
  { w with
    desc := some w.made
    descs := Function.update w.descs w.made ⟨fd, .new⟩
    made := w.made + 1
    engine := w.engine + 1 }

/-- `delete desc; desc = nullptr;` -/
def deleteDesc (w : Port) : Port :=
  match w.desc with
  | none => w
  | some d =>
    let m := w.descs d
    { w with
      desc := none
      descs := Function.update w.descs d { m with cell := { m.cell with deleted := true } } }

def descriptorAddRef (w : Port) (d : DescriptorId) : Port :=
  let m := w.descs d
  { w with descs := Function.update w.descs d { m with cell := m.cell.acquire } }

def descriptorRelease (w : Port) (d : DescriptorId) : Port :=
  let m := w.descs d
  { w with
    descs := Function.update w.descs d { m with cell := m.cell.release }
    engine := if m.cell.refcount = 1 then w.engine - 1 else w.engine }

/-- `op->error() = tcode::last_error()`. -/
def fail (w : Port) (a : Answers) : Port := { w with error := some (.system a.lastError) }

/-- `op_add` under the lock, and a wake-up. -/
def execute (w : Port) (op : OperationId) : Port :=
  { w with opQueue := w.opQueue ++ [.op op], engine := w.engine + 1 }

/-! ## The six functions

The flag says that the call did not fail: that it returned `true` or 0, or that it did not come
to the `execute` that reports a failure to make the descriptor. -/

def connect (w : Port) (a : Answers) (op : OperationId) : Port × Bool :=
  match a.socket with
  | none => ((w.fail a).execute op, false)
  | some fd =>
    let w := w.openSocket fd
    if a.connectEx then
      if a.bound then
        let w := w.descriptorCreate (some fd)
        if a.associated && a.started then
          ({ w with inFlight := w.inFlight ++ [⟨op, .connect, w.made - 1⟩] }, true)
        else ((((w.fail a).deleteDesc).closesocket fd).execute op, false)
      else (((w.fail a).closesocket fd).execute op, false)
    else (((w.fail a).closesocket fd).execute op, false)

def listen (w : Port) (a : Answers) : Port × Bool :=
  match a.socket with
  | none => (w, false)
  | some fd =>
    let w := w.openSocket fd
    if a.bound && a.listening then
      let w := w.descriptorCreate (some fd)
      if a.associated then (w, true) else (w.deleteDesc.closesocket fd, false)
    else (w.closesocket fd, false)

def «open» (w : Port) (a : Answers) : Port × Bool :=
  match a.socket with
  | none => (w, false)
  | some fd =>
    let w := (w.openSocket fd).descriptorCreate (some fd)
    if a.associated then (w, true) else (w.deleteDesc.closesocket fd, false)

/-- `bind( descriptor& , const ip::address& )`. -/
def bind (w : Port) (a : Answers) : Port × Bool :=
  match a.socket with
  | none => (w, false)
  | some fd =>
    let w := w.openSocket fd
    if a.bound then
      let w := w.descriptorCreate (some fd)
      if a.associated then (w, true) else (w.deleteDesc.closesocket fd, false)
    else (w.closesocket fd, false)

/-- `write` of a datagram from `descriptor_add_ref` on. -/
def sendTo (w : Port) (a : Answers) (op : OperationId) (d : DescriptorId) : Port :=
  let w := w.descriptorAddRef d
  if a.started then { w with inFlight := w.inFlight ++ [⟨op, .udpWrite, d⟩] }
  else ((w.fail a).descriptorRelease d).execute op

/-- `write( descriptor& , ip::udp::operation_write_base* )`. -/
def udpWrite (w : Port) (a : Answers) (op : OperationId) : Port × Bool :=
  match w.desc with
  | some d => (w.sendTo a op d, true)
  | none =>
    match a.socket with
    | none => ((w.fail a).execute op, false)
    | some fd =>
      let w := (w.openSocket fd).descriptorCreate (some fd)
      if a.associated then (w.sendTo a op (w.made - 1), true)
      else ((((w.fail a).deleteDesc).closesocket fd).execute op, false)

/-- What `accept` does last when it fails. -/
def abandon (w : Port) : Port :=
  { w.acceptedFd.elim w w.closesocket with acceptedFd := none }

/-- `accept` behind `AcceptEx`, where the error of the operation is already known. -/
def accept (w : Port) (a : Answers) (listenFd : Option Handle) : Port × Bool :=
  match listenFd with
  | none => ({ w with error := some .invalid }.abandon, false)
  | some _ =>
    match w.error with
    | some _ => (w.abandon, false)
    | none =>
      let w := w.descriptorCreate w.acceptedFd
      if a.associated then ({ w with address := a.remote }, true)
      else ((w.fail a).deleteDesc.abandon, false)

end Port

inductive SetupCall where
  | connect (op : OperationId)
  | listen
  | open
  | bind
  | udpWrite (op : OperationId)
  | accept (listenFd : Option Handle)
  deriving DecidableEq, Repr

namespace SetupCall

def run (w : Port) (a : Answers) : SetupCall → Port × Bool
  | .connect op => w.connect a op
  | .listen => w.listen a
  | .open => w.open a
  | .bind => w.bind a
  | .udpWrite op => w.udpWrite a op
  | .accept listenFd => w.accept a listenFd

/-- The socket that the call makes or is given. -/
def socket (w : Port) (a : Answers) : SetupCall → Option Handle
  | .accept _ => w.acceptedFd
  | _ => a.socket

/-- The system calls that come before `descriptor_create` go well. -/
def creates (w : Port) (a : Answers) : SetupCall → Bool
  | .connect _ => a.socket.isSome && a.connectEx && a.bound
  | .listen => a.socket.isSome && a.bound && a.listening
  | .open => a.socket.isSome
  | .bind => a.socket.isSome && a.bound
  | .udpWrite _ => w.desc.isNone && a.socket.isSome
  | .accept listenFd => listenFd.isSome && w.error.isNone

end SetupCall

/-- The caller's descriptor is null, the socket is closed and no other one, and the engine has the
references that it had and those of the operations that were queued. -/
structure CleansUp (w w' : Port) (fd : Option Handle) : Prop where
  desc : w'.desc = none
  sockets : w'.sockets = fd.elim w.sockets w.sockets.erase
  engine : w'.engine + w.opQueue.length = w.engine + w'.opQueue.length

namespace Port

variable {w : Port} {a : Answers} {fd : Handle} {op : OperationId}

/-- What a call has undone when it fails: all but the reference of a descriptor that it had made,
and that is the caller's if it made none. -/
structure Undone (w w' : Port) (fd : Option Handle) (created : Bool) : Prop where
  desc : w'.desc = if created then none else w.desc
  sockets : w'.sockets = fd.elim w.sockets w.sockets.erase
  engine : w'.engine + w.opQueue.length = w.engine + w'.opQueue.length + created.toNat

theorem Undone.cleansUp {w' : Port} {fd : Option Handle} {created : Bool}
    (h : Undone w w' fd created) : CleansUp w w' fd ↔ w.desc = none ∧ created = false := by
  obtain ⟨hdesc, hsockets, hengine⟩ := h
  cases created with
  | false =>
    refine ⟨fun hclean => ⟨hdesc.symm.trans hclean.desc, rfl⟩, fun hnone => ?_⟩
    exact ⟨hdesc.trans hnone.1, hsockets, by simpa using hengine⟩
  | true =>
    refine iff_of_false (fun hclean => ?_) (fun hnot => Bool.noConfusion hnot.2)
    have hclean := hclean.engine
    rw [Bool.toNat_true] at hengine
    omega

/-- Noting the error can wait. -/
@[simp] theorem closesocket_fail : (w.fail a).closesocket fd = (w.closesocket fd).fail a := rfl

@[simp] theorem execute_fail : (w.fail a).execute op = (w.execute op).fail a := rfl

@[simp] theorem deleteDesc_fail : (w.fail a).deleteDesc = w.deleteDesc.fail a := by
  cases hdesc : w.desc <;> simp [deleteDesc, fail, hdesc]

@[simp] theorem undone_fail {w' : Port} {fd : Option Handle} {created : Bool} :
    Undone w (w'.fail a) fd created ↔ Undone w w' fd created :=
  ⟨fun h => ⟨h.desc, h.sockets, h.engine⟩, fun h => ⟨h.desc, h.sockets, h.engine⟩⟩

theorem undone_refl : Undone w w none false := ⟨rfl, rfl, (Int.add_zero _).symm⟩

theorem undone_closed : Undone w ((w.openSocket fd).closesocket fd) (some fd) false :=
  ⟨rfl, Finset.erase_insert_eq_erase .., (Int.add_zero _).symm⟩

theorem undone_deleted {f : Option Handle} :
    Undone w (((w.openSocket fd).descriptorCreate f).deleteDesc.closesocket fd) (some fd) true := by
  refine ⟨rfl, Finset.erase_insert_eq_erase .., ?_⟩
  show w.engine + 1 + w.opQueue.length = w.engine + w.opQueue.length + ((1 : Nat) : Int)
  omega

theorem Undone.execute {w' : Port} {fd : Option Handle} {created : Bool}
    (h : Undone w w' fd created) (op : OperationId) : Undone w (w'.execute op) fd created := by
  refine ⟨h.desc, h.sockets, ?_⟩
  have hengine := h.engine
  show w'.engine + 1 + w.opQueue.length = w.engine + (w'.opQueue ++ [Posted.op op]).length + _
  rw [List.length_append, List.length_singleton]
  omega

theorem connect_undone (hfails : (w.connect a op).2 = false) :
    Undone w (w.connect a op).1 a.socket (SetupCall.creates w a (.connect op)) := by
  unfold connect at hfails ⊢
  cases hsocket : a.socket with
  | none => simpa [SetupCall.creates, hsocket] using undone_refl.execute op
  | some fd =>
    simp only [hsocket] at hfails ⊢
    split_ifs at hfails ⊢ with hex hbound hstarted
    · simpa [SetupCall.creates, hsocket, hex, hbound] using undone_deleted.execute op
    · simpa [SetupCall.creates, hsocket, hbound] using undone_closed.execute op
    · simpa [SetupCall.creates, hsocket, hex] using undone_closed.execute op

theorem listen_undone (hfails : (w.listen a).2 = false) :
    Undone w (w.listen a).1 a.socket (SetupCall.creates w a .listen) := by
  unfold listen at hfails ⊢
  cases hsocket : a.socket with
  | none => simpa [SetupCall.creates, hsocket] using undone_refl
  | some fd =>
    simp only [hsocket] at hfails ⊢
    split_ifs at hfails ⊢ with hlistening hassociated
    · simpa [SetupCall.creates, hsocket, hlistening] using undone_deleted
    · simpa [SetupCall.creates, hsocket, hlistening] using undone_closed

theorem open_undone (hfails : (w.open a).2 = false) :
    Undone w (w.open a).1 a.socket (SetupCall.creates w a .open) := by
  unfold Port.open at hfails ⊢
  cases hsocket : a.socket with
  | none => simpa [SetupCall.creates, hsocket] using undone_refl
  | some fd =>
    simp only [hsocket] at hfails ⊢
    split_ifs at hfails ⊢ with hassociated
    simpa [SetupCall.creates, hsocket] using undone_deleted

theorem bind_undone (hfails : (w.bind a).2 = false) :
    Undone w (w.bind a).1 a.socket (SetupCall.creates w a .bind) := by
  unfold bind at hfails ⊢
  cases hsocket : a.socket with
  | none => simpa [SetupCall.creates, hsocket] using undone_refl
  | some fd =>
    simp only [hsocket] at hfails ⊢
    split_ifs at hfails ⊢ with hbound hassociated
    · simpa [SetupCall.creates, hsocket, hbound] using undone_deleted
    · simpa [SetupCall.creates, hsocket, hbound] using undone_closed

theorem udpWrite_undone (hfails : (w.udpWrite a op).2 = false) :
    Undone w (w.udpWrite a op).1 a.socket (SetupCall.creates w a (.udpWrite op)) := by
  unfold udpWrite at hfails ⊢
  cases hdesc : w.desc with
  | some d => simp [hdesc] at hfails
  | none =>
    cases hsocket : a.socket with
    | none => simpa [SetupCall.creates, hdesc, hsocket] using undone_refl.execute op
    | some fd =>
      simp only [hdesc, hsocket] at hfails ⊢
      split_ifs at hfails ⊢ with hassociated
      simpa [SetupCall.creates, hdesc, hsocket] using undone_deleted.execute op

/-- The socket that was accepted has been open since `AcceptEx`. -/
theorem Undone.abandon {w' : Port} {created : Bool} (h : Undone w w' none created)
    (hfd : w'.acceptedFd = w.acceptedFd) : Undone w w'.abandon w.acceptedFd created := by
  have hsockets : w'.sockets = w.sockets := h.sockets
  cases hw : w.acceptedFd with
  | none =>
    rw [hw] at hfd
    simp only [Port.abandon, hfd]
    exact ⟨h.desc, hsockets, h.engine⟩
  | some fd =>
    rw [hw] at hfd
    simp only [Port.abandon, hfd]
    exact ⟨h.desc, congrArg (Finset.erase · fd) hsockets, h.engine⟩

theorem accept_undone {listenFd : Option Handle} (hfails : (w.accept a listenFd).2 = false) :
    Undone w (w.accept a listenFd).1 w.acceptedFd
      (SetupCall.creates w a (.accept listenFd)) := by
  unfold accept at hfails ⊢
  cases listenFd with
  | none =>
    have hinvalid : Undone w { w with error := some .invalid } none false :=
      ⟨rfl, rfl, (Int.add_zero _).symm⟩
    simpa [SetupCall.creates] using hinvalid.abandon rfl
  | some listen =>
    cases herror : w.error with
    | some ec => simpa [SetupCall.creates, herror] using undone_refl.abandon rfl
    | none =>
      have hdeleted : Undone w ((w.descriptorCreate w.acceptedFd).deleteDesc.fail a) none true :=
        ⟨rfl, rfl, Int.add_right_comm ..⟩
      simp only [herror] at hfails ⊢
      split_ifs at hfails ⊢ with hassociated
      simpa [SetupCall.creates, herror] using hdeleted.abandon rfl

end Port

theorem run_undone {w : Port} {a : Answers} {c : SetupCall} (hfails : (c.run w a).2 = false) :
    Port.Undone w (c.run w a).1 (c.socket w a) (c.creates w a) := by
  cases c with
  | connect op => exact Port.connect_undone hfails
  | listen => exact Port.listen_undone hfails
  | «open» => exact Port.open_undone hfails
  | bind => exact Port.bind_undone hfails
  | udpWrite op => exact Port.udpWrite_undone hfails
  | accept listenFd => exact Port.accept_undone hfails

/-- A call that fails cleans up exactly if it fails before it has made a descriptor, and the
caller has none. -/
theorem cleansUp_iff (w : Port) (a : Answers) (c : SetupCall) (hfails : (c.run w a).2 = false) :
    CleansUp w (c.run w a).1 (c.socket w a) ↔ w.desc = none ∧ c.creates w a = false :=
  (run_undone hfails).cleansUp

/-- A socket on an idle completion port. -/
def idle : Port where
  desc := none
  error := none
  acceptedFd := none
  address := []
  descs _ := ⟨none, ⟨0, false⟩⟩
  made := 0
  sockets := ∅
  inFlight := []
  opQueue := []
  engine := 0

/-- The address that a connect is bound to is in use. -/
def inUse : Answers := ⟨some 7, true, false, true, true, true, 10048, []⟩

theorem cleansUp_iff_inUse :
    (SetupCall.run idle inUse (.connect 1)).2 = false ∧
      CleansUp idle (SetupCall.run idle inUse (.connect 1)).1 (some 7) :=
  ⟨rfl, (cleansUp_iff idle inUse (.connect 1) rfl).mpr ⟨rfl, rfl⟩⟩

/-- The port is not given back for a listening socket, and the engine keeps a reference. -/
theorem notAssociated_not_cleansUp :
    ¬ ∀ (w : Port) (a : Answers) (c : SetupCall), (c.run w a).2 = false → w.desc = none →
      CleansUp w (c.run w a).1 (c.socket w a) := by
  intro h
  have hclean := h idle ⟨some 7, true, true, true, false, true, 6, []⟩ .listen rfl rfl
  exact absurd hclean.engine (by decide)

/-! ## The calls as steps of the machine -/

/-- The machine has the descriptors, the operations and the references of the port, and its
socket `k` is the caller's. -/
structure Represents (w : Port) (k : SocketId) (s : State) : Prop where
  desc : s.sockets k = w.desc
  cells : ∀ d, (s.descs d).cell = (w.descs d).cell
  made : s.made = w.made
  inFlight : s.inFlight = w.inFlight
  posted : s.posted = w.opQueue
  engine : s.engine = w.engine

/-- What a call other than `accept` does in the machine; `j` is the place of its attempt. -/
def SetupCall.steps (w : Port) (a : Answers) (k : SocketId) (onLoop : Bool) (j : Nat) :
    SetupCall → List Step
  | .connect op =>
    [.call onLoop (.connect k op
      (if SetupCall.creates w a (.connect op) then
        if a.associated && a.started then .started else .failed
      else .noDescriptor))]
  | .udpWrite op =>
    match w.desc with
    | some _ => [.call onLoop (.start k op .udpWrite), .result j a.started]
    | none =>
      if a.socket.isSome && a.associated then
        [.call onLoop (.udpWriteNull k op (some true)), .result j a.started]
      else [.call onLoop (.udpWriteNull k op (if a.socket.isSome then some false else none))]
  | c => if c.creates w a then [.call onLoop (.openSocket k a.associated)] else []

namespace Represents

variable {w : Port} {k : SocketId} {s : State}

theorem created (h : Represents w k s) (fd : Option Handle) :
    Represents (w.descriptorCreate fd) k (s.create k true) := by
  refine ⟨?_, fun d => ?_, ?_, h.inFlight, h.posted, ?_⟩
  · simp [State.create, Port.descriptorCreate, h.made]
  · by_cases hd : d = w.made
    · subst hd
      simp [State.create, State.set, Port.descriptorCreate, h.made, Cell.new]
    · simp [State.create, State.set, Port.descriptorCreate, h.made, hd, h.cells]
  · exact congrArg (· + 1) h.made
  · exact congrArg (· + 1) h.engine

theorem deleted (h : Represents w k s) (fd : Option Handle) :
    Represents (w.descriptorCreate fd).deleteDesc k (s.create k false) := by
  refine ⟨?_, fun d => ?_, ?_, h.inFlight, h.posted, ?_⟩
  · simp [State.create, Port.descriptorCreate, Port.deleteDesc]
  · by_cases hd : d = w.made
    · subst hd
      simp [State.create, State.set, Port.descriptorCreate, Port.deleteDesc, h.made, Cell.new]
    · simp [State.create, State.set, Port.descriptorCreate, Port.deleteDesc, h.made, hd, h.cells]
  · exact congrArg (· + 1) h.made
  · exact congrArg (· + 1) h.engine

theorem executed (h : Represents w k s) (op : OperationId) :
    Represents (w.execute op) k (s.post (.op op)) :=
  ⟨h.desc, h.cells, h.made, h.inFlight, congrArg (· ++ [Posted.op op]) h.posted,
    congrArg (· + 1) h.engine⟩

theorem addRef (h : Represents w k s) (d : DescriptorId) :
    Represents (w.descriptorAddRef d) k (descriptorAddRef s d) := by
  refine ⟨h.desc, fun e => ?_, h.made, h.inFlight, h.posted, h.engine⟩
  by_cases he : e = d
  · subst he
    simp [addRef_self, Port.descriptorAddRef, h.cells]
  · simp [addRef_other he, Port.descriptorAddRef, he, h.cells]

theorem release (h : Represents w k s) (d : DescriptorId) :
    Represents (w.descriptorRelease d) k (descriptorRelease s d) := by
  refine ⟨h.desc, fun e => ?_, h.made, h.inFlight, h.posted, ?_⟩
  · by_cases he : e = d
    · subst he
      simp [release_self, Port.descriptorRelease, h.cells]
    · simp [release_other he, Port.descriptorRelease, he, h.cells]
  · simp [descriptorRelease, Port.descriptorRelease, h.cells, h.engine]

/-- A datagram is handed to the system and the answer comes at once. -/
theorem sent (h : Represents w k s) (a : Answers) (op : OperationId) (d : DescriptorId)
    (onLoop : Bool) :
    Represents (w.sendTo a op d) k
      (next (s.attempt ⟨op, .udpWrite, d⟩ onLoop) (.result s.attempts.length a.started)) := by
  have htaken : Represents (w.descriptorAddRef d) k
      { descriptorAddRef s d with attempts := s.attempts } := by
    obtain ⟨hdesc, hcells, hmade, hinFlight, hposted, hengine⟩ := h.addRef d
    exact ⟨hdesc, hcells, hmade, hinFlight, hposted, hengine⟩
  have herase : (s.attempts ++ [(⟨⟨op, .udpWrite, d⟩, onLoop⟩ : Attempt)]).eraseIdx
      s.attempts.length = s.attempts := by
    rw [List.eraseIdx_append_of_length_le (Nat.le_refl _)]
    simp
  simp only [next, State.attempt, List.getElem?_concat_length, herase, Port.sendTo]
  cases a.started with
  | true =>
    exact ⟨htaken.desc, htaken.cells, htaken.made, congrArg (· ++ _) htaken.inFlight,
      htaken.posted, htaken.engine⟩
  | false =>
    obtain ⟨hdesc, hcells, hmade, hinFlight, hposted, hengine⟩ := (htaken.release d).executed op
    exact ⟨hdesc, hcells, hmade, hinFlight, hposted, hengine⟩

/-- Sockets and errors are not in the machine. -/
theorem same (h : Represents w k s) {w' : Port} (hdesc : w'.desc = w.desc)
    (hdescs : w'.descs = w.descs) (hmade : w'.made = w.made)
    (hinFlight : w'.inFlight = w.inFlight) (hqueue : w'.opQueue = w.opQueue)
    (hengine : w'.engine = w.engine) : Represents w' k s :=
  ⟨hdesc ▸ h.desc, hdescs ▸ h.cells, hmade ▸ h.made, hinFlight ▸ h.inFlight, hqueue ▸ h.posted,
    hengine ▸ h.engine⟩

/-- Noting an error and closing a socket are no steps. -/
theorem closed (h : Represents w k s) (fd : Handle) :
    Represents (w.closesocket fd) k s := h.same rfl rfl rfl rfl rfl rfl

theorem opened (h : Represents w k s) (fd : Handle) :
    Represents (w.openSocket fd) k s := h.same rfl rfl rfl rfl rfl rfl

theorem failed (h : Represents w k s) (a : Answers) :
    Represents (w.fail a) k s := h.same rfl rfl rfl rfl rfl rfl

theorem abandoned (h : Represents w k s) : Represents w.abandon k s := by
  cases hfd : w.acceptedFd with
  | none =>
    simp only [Port.abandon, hfd]
    exact h.same rfl rfl rfl rfl rfl rfl
  | some fd =>
    simp only [Port.abandon, hfd]
    exact h.same rfl rfl rfl rfl rfl rfl

theorem connect (h : Represents w k s) (a : Answers) (op : OperationId) (onLoop : Bool) (j : Nat) :
    Represents (w.connect a op).1 k
      (machine.runTrace s ((SetupCall.connect op).steps w a k onLoop j)) := by
  obtain ⟨socket, connectEx, bound, listening, associated, started, lastError, remote⟩ := a
  cases socket with
  | none => exact (h.failed _).executed op
  | some fd =>
    have hopen := h.opened fd
    cases connectEx with
    | false => exact ((hopen.failed _).closed fd).executed op
    | true =>
      cases bound with
      | false => exact ((hopen.failed _).closed fd).executed op
      | true =>
        have hdeleted := (((hopen.deleted (some fd)).failed
          ⟨some fd, true, true, listening, associated, started, lastError, remote⟩).closed
            fd).executed op
        cases associated with
        | false => exact hdeleted
        | true =>
          cases started with
          | false => exact hdeleted
          | true =>
            obtain ⟨hdesc, hcells, hmade, hinFlight, hposted, hengine⟩ := hopen.created (some fd)
            refine ⟨hdesc, hcells, hmade, ?_, hposted, hengine⟩
            show s.inFlight ++ [_] = w.inFlight ++ [_]
            rw [h.inFlight, h.made]
            rfl

/-- Three calls that make a descriptor and start nothing. -/
theorem socketOpened (h : Represents w k s) (fd : Handle) (associated onLoop : Bool) :
    Represents (if associated then ((w.openSocket fd).descriptorCreate (some fd), true)
        else (((w.openSocket fd).descriptorCreate (some fd)).deleteDesc.closesocket fd, false)).1 k
      (machine.runTrace s [.call onLoop (.openSocket k associated)]) := by
  cases associated with
  | false => exact ((h.opened fd).deleted (some fd)).closed fd
  | true => exact (h.opened fd).created (some fd)

theorem udpWrite (h : Represents w k s) (a : Answers) (op : OperationId) (onLoop : Bool) :
    Represents (w.udpWrite a op).1 k
      (machine.runTrace s ((SetupCall.udpWrite op).steps w a k onLoop s.attempts.length)) := by
  obtain ⟨socket, connectEx, bound, listening, associated, started, lastError, remote⟩ := a
  cases hdesc : w.desc with
  | some d =>
    have hsocket : s.sockets k = some d := h.desc.trans hdesc
    simp only [Port.udpWrite, SetupCall.steps, hdesc]
    simpa [System.runTrace, machine, next, Call.effect, hsocket] using h.sent _ op d onLoop
  | none =>
    simp only [Port.udpWrite, SetupCall.steps, hdesc]
    cases socket with
    | none => exact (h.failed _).executed op
    | some fd =>
      have hopen := h.opened fd
      cases associated with
      | false => exact (((hopen.deleted (some fd)).failed _).closed fd).executed op
      | true =>
        have hlast : ((w.openSocket fd).descriptorCreate (some fd)).made - 1 = s.made := h.made.symm
        show Represents (((w.openSocket fd).descriptorCreate (some fd)).sendTo _ op
          (((w.openSocket fd).descriptorCreate (some fd)).made - 1)) k _
        rw [hlast]
        exact (hopen.created (some fd)).sent _ op s.made onLoop

/-- What a call does to the port, its steps do to the machine. -/
theorem run (h : Represents w k s) (a : Answers) (c : SetupCall) (onLoop : Bool)
    (hc : ∀ listenFd, c ≠ .accept listenFd) :
    Represents (c.run w a).1 k
      (machine.runTrace s (c.steps w a k onLoop s.attempts.length)) := by
  obtain ⟨socket, connectEx, bound, listening, associated, started, lastError, remote⟩ := a
  cases c with
  | connect op => exact h.connect _ op onLoop _
  | udpWrite op => exact h.udpWrite _ op onLoop
  | accept listenFd => exact absurd rfl (hc listenFd)
  | «open» =>
    cases socket with
    | none => exact h
    | some fd => exact h.socketOpened fd associated onLoop
  | listen =>
    cases socket with
    | none => exact h
    | some fd =>
      cases bound with
      | false => exact (h.opened fd).closed fd
      | true =>
        cases listening with
        | false => exact (h.opened fd).closed fd
        | true => exact h.socketOpened fd associated onLoop
  | bind =>
    cases socket with
    | none => exact h
    | some fd =>
      cases bound with
      | false => exact (h.opened fd).closed fd
      | true => exact h.socketOpened fd associated onLoop

/-- What `accept` does to the port, the machine does behind the completion. -/
theorem accept (h : Represents w k s) (a : Answers) {listenFd : Option Handle} {o : Overlapped}
    (ho : o.kind = .accept k) (hcreates : (SetupCall.accept listenFd).creates w a = true) :
    Represents (w.accept a listenFd).1 k (postProc s o (.accepted a.associated)) := by
  have haccess : Represents w k (s.access o.desc) :=
    ⟨h.desc, h.cells, h.made, h.inFlight, h.posted, h.engine⟩
  obtain ⟨hlisten, herror⟩ := Bool.and_eq_true_iff.mp hcreates
  obtain ⟨fd, rfl⟩ := Option.isSome_iff_exists.mp hlisten
  have hnone : w.error = none := Option.isNone_iff_eq_none.mp herror
  simp only [Port.accept, hnone, postProc, ho]
  cases a.associated with
  | true => exact (haccess.created w.acceptedFd).same rfl rfl rfl rfl rfl rfl
  | false =>
    simp only [Bool.false_eq_true, if_false, Port.deleteDesc_fail]
    exact ((haccess.deleted w.acceptedFd).failed a).abandoned

end Represents

/-! ## The reference that is left behind -/

variable {s t : State} {d : DescriptorId}

/-- A descriptor that could not be set up. -/
def LeftBehind (s : State) (d : DescriptorId) : Prop :=
  d < s.made ∧ (s.descs d).failed = true

theorem leftBehind_create (s : State) (k : SocketId) : LeftBehind (s.create k false) s.made := by
  refine ⟨Nat.lt_succ_self _, ?_⟩
  rw [create_self]
  rfl

/-- The loop of `engine::run` does not end while there is one. -/
theorem engine_pos (h : Invariant s) (hd : LeftBehind s d) : 0 < s.engine := by
  have hcount : Nat.count (owns s · = true) s.made ≠ 0 := by
    refine Nat.count_ne_iff_exists.mpr ⟨d, hd.1, ?_⟩
    rw [owns, hd.2, Bool.true_or]
  have hengine := h.engine
  omega

theorem leftBehind_of_eq (h : LeftBehind s d) (hmade : s.made ≤ t.made)
    (hfailed : (t.descs d).failed = (s.descs d).failed) : LeftBehind t d :=
  ⟨Nat.lt_of_lt_of_le h.1 hmade, hfailed.trans h.2⟩

theorem LeftBehind.create (h : LeftBehind s d) (k : SocketId) (bound : Bool) :
    LeftBehind (s.create k bound) d := by
  refine leftBehind_of_eq h (Nat.le_succ _) ?_
  rw [create_other bound (Nat.ne_of_lt h.1)]

theorem LeftBehind.addRef (h : LeftBehind s d) (e : DescriptorId) :
    LeftBehind (descriptorAddRef s e) d := by
  refine leftBehind_of_eq h (Nat.le_refl _) ?_
  by_cases he : d = e
  · rw [he, addRef_self]
  · rw [addRef_other he]

theorem LeftBehind.release (h : LeftBehind s d) (e : DescriptorId) :
    LeftBehind (descriptorRelease s e) d := by
  refine leftBehind_of_eq h (Nat.le_refl _) ?_
  by_cases he : d = e
  · rw [he, release_self]
  · rw [release_other he]

theorem LeftBehind.effect (h : LeftBehind s d) (onLoop : Bool) (c : Call) :
    LeftBehind (c.effect onLoop s) d := by
  cases c with
  | openSocket k bound => exact h.create k bound
  | connect k op r =>
    cases r with
    | noDescriptor => exact h
    | failed => exact h.create k false
    | started => exact h.create k true
  | start k op kind =>
    simp only [Call.effect]
    split
    · exact h
    · exact h.addRef _
  | udpWriteNull k op created =>
    cases created with
    | none => exact h
    | some bound =>
      cases bound with
      | false => exact h.create k false
      | true => exact (h.create k true).addRef _
  | udpReadNull op => exact h
  | unbind k =>
    simp only [Call.effect]
    split <;> exact h

theorem LeftBehind.postProc (h : LeftBehind s d) (o : Overlapped) (r : PostResult) :
    LeftBehind (postProc s o r) d := by
  cases r with
  | done => exact h
  | again => exact h.addRef _
  | accepted bound =>
    simp only [CompletionPortMachine.postProc]
    split
    · exact LeftBehind.create (s := s.access o.desc) h _ bound
    · exact h

theorem LeftBehind.runUnbind (h : LeftBehind s d) (e : DescriptorId) :
    LeftBehind (runUnbind s e) d := by
  have hset :
      LeftBehind ((s.access e).set e { s.descs e with fd := false, unbound := true }) d := by
    refine leftBehind_of_eq h (Nat.le_refl _) ?_
    by_cases he : d = e
    · rw [he]
      simp [State.set, State.access]
    · simp [State.set, State.access, he]
  exact hset.release e

theorem LeftBehind.next (h : LeftBehind s d) (e : Step) : LeftBehind (next s e) d := by
  cases e with
  | call onLoop c => exact h.effect onLoop c
  | result j started =>
    simp only [CompletionPortMachine.next]
    split
    · exact h
    · next a _ =>
      cases started with
      | true => exact h
      | false => exact LeftBehind.release (s := { s with attempts := _ }) h _
  | complete j =>
    simp only [CompletionPortMachine.next]
    split <;> exact h
  | postProc r =>
    simp only [CompletionPortMachine.next]
    split
    · exact h.postProc _ r
    · exact h
  | release =>
    simp only [CompletionPortMachine.next]
    split
    · exact h.release _
    · exact h
  | task =>
    simp only [CompletionPortMachine.next]
    split
    · exact h
    · exact h
    · exact LeftBehind.runUnbind (s := { s with posted := _, engine := _ }) h _

/-- One failed set-up keeps `engine::run` from ending, whatever comes after it. -/
theorem leftBehind_lasts (h : Invariant s) (hd : LeftBehind s d)
    (hrun : machine.Execution (fun _ e => ¬ StartsConnect e) s t) : 0 < t.engine := by
  have hboth : Invariant t ∧ LeftBehind t d :=
    hrun.invariant (I := fun u => Invariant u ∧ LeftBehind u d) ⟨h, hd⟩ fun _ e _ hu he hconnect =>
      ⟨invariant_step hu.1 he hconnect, hu.2.next e⟩
  exact engine_pos hboth.1 hboth.2

end CompletionPortSetup
