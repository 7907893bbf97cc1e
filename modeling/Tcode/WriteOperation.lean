import Tcode.SupportListSums
import Tcode.SupportMachineInt
import Tcode.SupportTransitionSystem

/-! # Write operations of a stream socket

The operations that wait in the write queue of one descriptor, and the loop that works
them off. Every answer of the kernel to `writev` is one step.
-/
namespace WriteOperation

open SupportListSums SupportMachineInt SupportTransitionSystem

abbrev Memory := Int → UInt8

/-- An `iovec`. -/
structure Buffer where
  base : Int
  iovLen : Nat
  deriving DecidableEq, Repr

def Buffer.len (b : Buffer) : Int := toInt b.iovLen

def Buffer.skip (b : Buffer) (n : Int) : Buffer where
  base := b.base + n
  iovLen := toSize (toInt (b.len - n))

def Buffer.bytes (memory : Memory) (b : Buffer) : List UInt8 :=
  (List.range b.iovLen).map fun i : Nat => memory (b.base + i)

inductive ErrorCode where
  | success
  | invalid
  | system (errno : Nat)
  deriving DecidableEq, Repr

/-- `memory` is what the buffers point to, which stays as it is until the handler is called. -/
structure Operation where
  handler : Nat
  memory : Memory
  buffers : List Buffer
  bufferCount : Int
  write : Int
  error : ErrorCode

/-- `operation_writev`, which hands the size of its vector on as an `int`. -/
def operationWritev (handler : Nat) (memory : Memory) (buffers : List Buffer) : Operation where
  handler := handler
  memory := memory
  buffers := buffers
  bufferCount := toInt buffers.length
  write := 0
  error := .success

def bytes (memory : Memory) (buffers : List Buffer) : List UInt8 :=
  buffers.flatMap (Buffer.bytes memory)

/-- What the buffers of the operation still hold. -/
def Operation.remaining (op : Operation) : List UInt8 := bytes op.memory op.buffers

/-- The array that `writev` gets. -/
def Operation.iovecs (op : Operation) : List Buffer := op.buffers.take op.bufferCount.toNat

/-! ## One attempt to write -/

inductive Answer where
  | accepted (n : Nat)
  | interrupted
  | again
  | failed (errno : Nat)
  deriving DecidableEq, Repr

/-- The result of `epoll::writev` after this answer; it asks again when it was interrupted. -/
def writev (ec : ErrorCode) : Answer → Option (Int × ErrorCode)
  | .accepted n => some (toInt n, ec)
  | .interrupted => none
  | .again => some (-1, .success)
  | .failed errno => some (-1, .system errno)

/-- The loop over the buffers, with `writeskip` and `remain`. -/
def skipBuffers : List Buffer → Int → Int → List Buffer × Int
  | [], _, remain => ([], remain)
  | b :: buffers, writeskip, remain =>
    let perSkip := min writeskip b.len
    let skipped := if 0 < writeskip then b.skip perSkip else b
    let writeskip := if 0 < writeskip then writeskip - perSkip else writeskip
    let rest := skipBuffers buffers writeskip (remain + skipped.len)
    (skipped :: rest.1, rest.2)

/-- `post_write_impl` from the result of `writev` on, and whether the operation is done. -/
def postWriteImpl (op : Operation) (write : Int) (ec : ErrorCode) : Operation × Bool :=
  if ec ≠ .success then ({ op with error := ec }, true)
  else if write < 0 then ({ op with error := ec }, false)
  else
    let looped := skipBuffers op.iovecs write 0
    ({ op with
        buffers := looped.1 ++ op.buffers.drop op.bufferCount.toNat
        write := op.write + write
        error := ec }, looped.2 = 0)

/-! ## The descriptor -/

/-- What a handler was called with. -/
structure Completion where
  handler : Nat
  error : ErrorCode
  writeSize : Int
  deriving DecidableEq, Repr

/-- `submitted` and `stream` are bookkeeping: the operations as they came, and the bytes that
the kernel accepted. -/
structure State where
  fd : Int
  queue : List Operation
  dispatching : Bool
  submitted : List Operation
  stream : List UInt8
  completed : List Completion

inductive Step where
  | dispatchWrite (memory : Memory) (buffers : List Buffer)
  | event
  | answer (a : Answer)
  | closed
  | leave
  | close

/-- The kernel accepts no more than it is offered, and nothing for a negative count. -/
def Answer.Possible (op : Operation) : Answer → Prop
  | .accepted n => 0 ≤ op.bufferCount ∧ n ≤ total Buffer.iovLen op.iovecs
  | _ => True

def Enabled (s : State) : Step → Prop
  | .dispatchWrite _ _ | .event => s.dispatching = false
  | .answer a => s.dispatching = true ∧ s.fd ≠ -1 ∧ ∃ op ∈ s.queue.head?, a.Possible op
  | .closed => s.dispatching = true ∧ s.fd = -1 ∧ s.queue.isEmpty = false
  | .leave => s.dispatching = true ∧ s.queue.isEmpty = true
  | .close => True

/-- The dispatch loop after the front operation has been tried. -/
def afterPost (s : State) (rest : List Operation) (posted : Operation × Bool) : State :=
  if posted.2 then
    { s with
      queue := rest
      completed := s.completed ++ [⟨posted.1.handler, posted.1.error, posted.1.write⟩] }
  else { s with queue := posted.1 :: rest, dispatching := false }

def Answer.accepts (op : Operation) : Answer → List UInt8
  | .accepted n => (bytes op.memory op.iovecs).take n
  | _ => []

def next (s : State) : Step → State
  | .dispatchWrite memory buffers =>
    let op := operationWritev s.submitted.length memory buffers
    { s with queue := s.queue ++ [op], submitted := s.submitted ++ [op], dispatching := true }
  | .event => { s with dispatching := true }
  | .answer a =>
    match s.queue with
    | [] => s
    | op :: rest =>
      match writev op.error a with
      | none => s
      | some (write, ec) =>
        afterPost { s with stream := s.stream ++ a.accepts op } rest (postWriteImpl op write ec)
  | .closed =>
    match s.queue with
    | [] => s
    | op :: rest => afterPost s rest (postWriteImpl op (-1) .invalid)
  | .leave => { s with dispatching := false }
  | .close => { s with fd := -1 }

instance (op : Operation) : ∀ a : Answer, Decidable (a.Possible op)
  | .accepted _ => inferInstanceAs (Decidable (_ ∧ _))
  | .interrupted | .again | .failed _ => isTrue trivial

instance (s : State) : ∀ e : Step, Decidable (Enabled s e)
  | .dispatchWrite _ _ | .event => inferInstanceAs (Decidable (s.dispatching = false))
  | .answer _ =>
    inferInstanceAs (Decidable (s.dispatching = true ∧ s.fd ≠ -1 ∧ ∃ op ∈ s.queue.head?, _))
  | .closed =>
    inferInstanceAs (Decidable (s.dispatching = true ∧ s.fd = -1 ∧ s.queue.isEmpty = false))
  | .leave => inferInstanceAs (Decidable (s.dispatching = true ∧ s.queue.isEmpty = true))
  | .close => isTrue trivial

def machine : System State Step where
  Enabled := Enabled
  next := next

instance (s : State) (e : Step) : Decidable (machine.Enabled s e) :=
  inferInstanceAs (Decidable (Enabled s e))

def initial (fd : Int) : State where
  fd := fd
  queue := []
  dispatching := false
  submitted := []
  stream := []
  completed := []

/-! ## The loop over the buffers -/

section Buffers

variable {memory : Memory} {b : Buffer} {buffers : List Buffer} {n : Nat}

/-- The addresses that a buffer covers. -/
def Buffer.addresses (b : Buffer) : List Int := (List.range b.iovLen).map fun i : Nat => b.base + i

def addresses (buffers : List Buffer) : List Int := buffers.flatMap Buffer.addresses

theorem bytes_eq : bytes memory buffers = (addresses buffers).map memory := by
  rw [bytes, addresses, List.map_flatMap]
  congr 1
  funext b
  rw [Buffer.bytes, Buffer.addresses, List.map_map]
  rfl

theorem addresses_cons : addresses (b :: buffers) = b.addresses ++ addresses buffers :=
  List.flatMap_cons

theorem addresses_length : (addresses buffers).length = total Buffer.iovLen buffers := by
  induction buffers with
  | nil => rfl
  | cons b buffers ih => simp [addresses_cons, Buffer.addresses, ← ih]

theorem bytes_length : (bytes memory buffers).length = total Buffer.iovLen buffers := by
  rw [bytes_eq, List.length_map, addresses_length]

theorem len_of_lt (h : b.iovLen < 2147483648) : b.len = b.iovLen :=
  toInt_of_range (by omega) (by omega)

theorem skip_of_le (h : b.iovLen < 2147483648) (hn : n ≤ b.iovLen) :
    b.skip n = ⟨b.base + n, b.iovLen - n⟩ := by
  have hlen : toInt (b.len - n) = ((b.iovLen - n : Nat) : Int) := by
    have hcast : b.len - n = ((b.iovLen - n : Nat) : Int) := by
      rw [len_of_lt h]
      omega
    rw [hcast]
    exact toInt_of_range (by omega) (by omega)
  rw [Buffer.skip, hlen, toSize_natCast (by omega)]

theorem addresses_skip (h : b.iovLen < 2147483648) (hn : n ≤ b.iovLen) :
    (b.skip n).addresses = b.addresses.drop n := by
  rw [skip_of_le h hn]
  refine List.ext_getElem (by simp [Buffer.addresses]) fun i _ _ => ?_
  simp only [Buffer.addresses, List.getElem_drop, List.getElem_map, List.getElem_range]
  omega

/-- The loop takes the first `n` addresses off the front and adds up what is left. -/
theorem skipBuffers_addresses (remain : Int) (h : total Buffer.iovLen buffers < 2147483648)
    (hn : n ≤ total Buffer.iovLen buffers) :
    addresses (skipBuffers buffers n remain).1 = (addresses buffers).drop n ∧
      (skipBuffers buffers n remain).1.length = buffers.length ∧
      (skipBuffers buffers n remain).2 = remain + (total Buffer.iovLen buffers - n : Nat) := by
  induction buffers generalizing n remain with
  | nil =>
    obtain rfl : n = 0 := Nat.le_zero.mp hn
    simp [skipBuffers, addresses]
  | cons b buffers ih =>
    rw [total_cons] at h hn
    have hlen : b.len = b.iovLen := len_of_lt (by omega)
    -- this buffer loses `k` bytes, the others the rest
    obtain ⟨k, hk⟩ : ∃ k, k = min n b.iovLen := ⟨_, rfl⟩
    have hmin : min (n : Int) b.len = (k : Int) := by omega
    have hskip : (if (0 : Int) < n then b.skip (min n b.len) else b) = b.skip k := by
      rw [hmin]
      split
      · rfl
      · have hzero : k = 0 := by omega
        rw [skip_of_le (by omega) (by omega), hzero]
        simp
    have hrest : (if (0 : Int) < n then (n : Int) - min (n : Int) b.len else n) =
        ((n - k : Nat) : Int) := by
      rw [hmin]
      split <;> omega
    have hkeep : (b.skip k).len = ((b.iovLen - k : Nat) : Int) := by
      have hlt : b.iovLen - k < 2147483648 := by omega
      rw [skip_of_le (by omega) (by omega)]
      exact len_of_lt (b := ⟨b.base + k, b.iovLen - k⟩) hlt
    have hsum : total Buffer.iovLen buffers < 2147483648 := by omega
    have hle : n - k ≤ total Buffer.iovLen buffers := by omega
    obtain ⟨haddresses, hlength, hremain⟩ := ih (remain + (b.skip k).len) hsum hle
    rw [skipBuffers, hskip, hrest]
    refine ⟨?_, by simp [hlength], ?_⟩
    · have hb : b.addresses.length = b.iovLen := by simp [Buffer.addresses]
      have hfirst : b.addresses.drop k = b.addresses.drop n := by
        by_cases hle : n ≤ b.iovLen
        · have hkn : k = n := by omega
          rw [hkn]
        · rw [List.drop_eq_nil_of_le (by omega), List.drop_eq_nil_of_le (by omega)]
      have hothers : n - k = n - b.addresses.length := by omega
      rw [addresses_cons, addresses_cons, haddresses, addresses_skip (by omega) (by omega),
        List.drop_append, hfirst, hothers]
    · rw [hremain, hkeep, total_cons]
      omega

/-- The loop takes the first `n` bytes off the front and adds up what is left. -/
theorem skipBuffers_spec (memory : Memory) (remain : Int)
    (h : total Buffer.iovLen buffers < 2147483648) (hn : n ≤ total Buffer.iovLen buffers) :
    bytes memory (skipBuffers buffers n remain).1 = (bytes memory buffers).drop n ∧
      (skipBuffers buffers n remain).1.length = buffers.length ∧
      (skipBuffers buffers n remain).2 = remain + (total Buffer.iovLen buffers - n : Nat) := by
  obtain ⟨haddresses, hlength, hremain⟩ := skipBuffers_addresses remain h hn
  refine ⟨?_, hlength, hremain⟩
  rw [bytes_eq, bytes_eq, haddresses, List.map_drop]

end Buffers

end WriteOperation
