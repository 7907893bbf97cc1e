import Tcode.WriteOperation

/-! # Fixed-length read operations of a stream socket

One operation and the memory that its buffers point to. Every answer of the kernel to `readv` is
one step; between two of them other events may pass.
-/
namespace ReadOperation

open SupportListSums SupportMachineInt SupportTransitionSystem
open WriteOperation (Memory Buffer skipBuffers addresses)

inductive ErrorCode where
  | success
  | disconnected
  | invalid
  | system (errno : Nat)
  deriving DecidableEq, Repr

structure Operation where
  buffers : List Buffer
  bufferCount : Int
  read : Int
  error : ErrorCode
  deriving DecidableEq, Repr

/-- `operation_readv`, which hands the size of its vector on as an `int`; `operation_read` is
that of one buffer. -/
def operationReadv (buffers : List Buffer) : Operation where
  buffers := buffers
  bufferCount := toInt buffers.length
  read := 0
  error := .success

/-- The array that `readv` gets. -/
def Operation.iovecs (op : Operation) : List Buffer := op.buffers.take op.bufferCount.toNat

inductive Answer where
  | received (bs : List UInt8)
  | interrupted
  | again
  | endOfStream
  | failed (errno : Nat)
  deriving DecidableEq, Repr

/-- The result of `epoll::readv` after this answer; it asks again when it was interrupted. -/
def readv (ec : ErrorCode) : Answer → Option (Int × ErrorCode)
  | .received bs => some (toInt bs.length, ec)
  | .interrupted => none
  | .again => some (-1, .success)
  | .endOfStream => some (-1, .disconnected)
  | .failed errno => some (-1, .system errno)

/-- `post_read_impl_fixed_len` from the result of `readv` on, and whether the operation is done.
Its loop over the buffers is that of a write. -/
def postReadImplFixedLen (op : Operation) (read : Int) (ec : ErrorCode) : Operation × Bool :=
  if ec ≠ .success then ({ op with error := ec }, true)
  else if read < 0 then ({ op with error := ec }, false)
  else
    let looped := skipBuffers op.iovecs read 0
    ({ op with
        buffers := looped.1 ++ op.buffers.drop op.bufferCount.toNat
        read := op.read + read
        error := ec }, looped.2 = 0)

/-! ## What arrives in memory -/

/-- Where `readv` stores what it has received: in the order of the array. -/
def stores (iovecs : List Buffer) (bs : List UInt8) : List (Int × UInt8) :=
  (addresses iovecs).zip bs

def write (memory : Memory) : List (Int × UInt8) → Memory
  | [] => memory
  | (a, b) :: more => write (Function.update memory a b) more

/-- `received` and `stored` are bookkeeping: the bytes as they came, and where they went. -/
structure State where
  fd : Int
  op : Operation
  memory : Memory
  received : List UInt8
  stored : List (Int × UInt8)
  /-- What the handler was called with. -/
  result : Option (ErrorCode × Int)

inductive Step where
  | answer (a : Answer)
  | closed
  | close
  deriving DecidableEq, Repr

/-- The kernel gives at least one byte and no more than it is asked for, and nothing for a
negative count. -/
def Answer.Possible (op : Operation) : Answer → Prop
  | .received bs => 0 ≤ op.bufferCount ∧ 0 < bs.length ∧ bs.length ≤ total Buffer.iovLen op.iovecs
  | _ => True

def Enabled (s : State) : Step → Prop
  | .answer a => s.result = none ∧ s.fd ≠ -1 ∧ a.Possible s.op
  | .closed => s.result = none ∧ s.fd = -1
  | .close => True

def Answer.arrives (op : Operation) (s : State) : Answer → State
  | .received bs =>
    { s with
      memory := write s.memory (stores op.iovecs bs)
      received := s.received ++ bs
      stored := s.stored ++ stores op.iovecs bs }
  | _ => s

/-- The handler of an operation that is done is called. -/
def afterPost (s : State) (posted : Operation × Bool) : State :=
  { s with
    op := posted.1
    result := if posted.2 then some (posted.1.error, posted.1.read) else none }

def next (s : State) : Step → State
  | .answer a =>
    match readv s.op.error a with
    | none => s
    | some (read, ec) => afterPost (a.arrives s.op s) (postReadImplFixedLen s.op read ec)
  | .closed => afterPost s (postReadImplFixedLen s.op (-1) .invalid)
  | .close => { s with fd := -1 }

instance (op : Operation) : ∀ a : Answer, Decidable (a.Possible op)
  | .received _ => inferInstanceAs (Decidable (_ ∧ _ ∧ _))
  | .interrupted | .again | .endOfStream | .failed _ => isTrue trivial

instance (s : State) : ∀ e : Step, Decidable (Enabled s e)
  | .answer a => inferInstanceAs (Decidable (s.result = none ∧ s.fd ≠ -1 ∧ a.Possible s.op))
  | .closed => inferInstanceAs (Decidable (s.result = none ∧ s.fd = -1))
  | .close => isTrue trivial

def machine : System State Step where
  Enabled := Enabled
  next := next

instance (s : State) (e : Step) : Decidable (machine.Enabled s e) :=
  inferInstanceAs (Decidable (Enabled s e))

def initial (fd : Int) (memory : Memory) (buffers : List Buffer) : State where
  fd := fd
  op := operationReadv buffers
  memory := memory
  received := []
  stored := []
  result := none

/-! ## Memory -/

section Writes

variable {memory : Memory} {places : List Int} {bs cs : List UInt8} {l m : List (Int × UInt8)}

theorem write_append : write memory (l ++ m) = write (write memory l) m := by
  induction l generalizing memory with
  | nil => rfl
  | cons x l ih => exact ih

theorem write_elsewhere {a : Int} (h : a ∉ l.map Prod.fst) : write memory l a = memory a := by
  induction l generalizing memory with
  | nil => rfl
  | cons x l ih =>
    rw [List.map_cons, List.mem_cons, not_or] at h
    rw [write, ih h.2]
    exact Function.update_of_ne h.1 ..

/-- Bytes that are written to different places are there afterwards. -/
theorem write_zip (hnodup : places.Nodup) (hlength : bs.length ≤ places.length) :
    (places.take bs.length).map (write memory (places.zip bs)) = bs := by
  induction places generalizing memory bs with
  | nil =>
    obtain rfl : bs = [] := List.eq_nil_of_length_eq_zero (Nat.le_zero.mp hlength)
    rfl
  | cons a places ih =>
    obtain ⟨ha, hplaces⟩ := List.nodup_cons.mp hnodup
    cases bs with
    | nil => rfl
    | cons b bs =>
      have hfirst : write memory ((a :: places).zip (b :: bs)) a = b := by
        have hnot : a ∉ (places.zip bs).map Prod.fst := by
          intro hmem
          obtain ⟨x, hx, rfl⟩ := List.mem_map.mp hmem
          exact ha (List.of_mem_zip hx).1
        rw [List.zip_cons_cons, write, write_elsewhere hnot, Function.update_self]
      rw [List.length_cons, List.take_succ_cons, List.map_cons, hfirst]
      exact congrArg (b :: ·) (ih hplaces (Nat.le_of_succ_le_succ hlength))

/-- What comes later is stored behind what came before. -/
theorem zip_append (h : bs.length ≤ places.length) :
    places.zip (bs ++ cs) = places.zip bs ++ (places.drop bs.length).zip cs := by
  induction places generalizing bs with
  | nil =>
    obtain rfl : bs = [] := List.eq_nil_of_length_eq_zero (Nat.le_zero.mp h)
    rfl
  | cons a places ih =>
    cases bs with
    | nil => rfl
    | cons b bs => exact congrArg ((a, b) :: ·) (ih (Nat.le_of_succ_le_succ h))

theorem fst_zip : (places.zip bs).map Prod.fst = places.take bs.length := by
  induction places generalizing bs with
  | nil => rw [List.zip_nil_left, List.map_nil, List.take_nil]
  | cons a places ih =>
    cases bs with
    | nil => rfl
    | cons b bs => exact congrArg (a :: ·) ih

end Writes

/-! ## One attempt to read -/

/-- The operation after `k` of the bytes that its buffers hold. -/
structure Filled (buffers : List Buffer) (op : Operation) (k : Nat) : Prop where
  read : op.read = k
  fits : k ≤ total Buffer.iovLen buffers
  addresses : addresses op.buffers = (addresses buffers).drop k
  countable : op.buffers.length < 4294967296
  count : op.bufferCount = toInt op.buffers.length

variable {buffers : List Buffer} {op : Operation} {k : Nat} {bs : List UInt8}

theorem Filled.total (h : Filled buffers op k) :
    total Buffer.iovLen op.buffers = total Buffer.iovLen buffers - k := by
  have hlength := congrArg List.length h.addresses
  rw [List.length_drop, WriteOperation.addresses_length, WriteOperation.addresses_length] at hlength
  exact hlength

/-- A count that is not negative counts all buffers. -/
theorem Filled.iovecs_eq (h : Filled buffers op k) (hcount : 0 ≤ op.bufferCount) :
    op.bufferCount.toNat = op.buffers.length ∧ op.iovecs = op.buffers := by
  have hall : op.bufferCount.toNat = op.buffers.length := by
    have hsmall := h.countable
    rw [h.count, toInt] at hcount
    rw [h.count, toInt]
    omega
  refine ⟨hall, ?_⟩
  rw [Operation.iovecs, hall, List.take_length]

theorem filled_received (h : Filled buffers op k)
    (hshort : total Buffer.iovLen buffers < 2147483648)
    (hok : op.error = .success) (hpossible : (Answer.received bs).Possible op) :
    ∃ op', postReadImplFixedLen op (toInt bs.length) op.error =
        (op', decide (k + bs.length = total Buffer.iovLen buffers)) ∧
      Filled buffers op' (k + bs.length) ∧ op'.error = .success ∧
      stores op.iovecs bs = ((addresses buffers).drop k).zip bs := by
  obtain ⟨hcount, _, hn⟩ := hpossible
  obtain ⟨hall, hiovecs⟩ := h.iovecs_eq hcount
  have hfits := h.fits
  have htotal := h.total
  rw [hiovecs] at hn
  have hint : toInt bs.length = bs.length := toInt_of_range (by omega) (by omega)
  obtain ⟨haddresses, hlength, hremain⟩ :=
    WriteOperation.skipBuffers_addresses 0 (by omega) hn
  refine ⟨{ op with
    buffers := (skipBuffers op.buffers bs.length 0).1, read := op.read + bs.length },
    ?_, ?_, hok, ?_⟩
  · have hdone : ((skipBuffers op.buffers bs.length 0).2 = 0) ↔
        k + bs.length = SupportListSums.total Buffer.iovLen buffers := by
      rw [hremain]
      omega
    have hnonneg : ¬ ((bs.length : Int) < 0) := by omega
    simp only [postReadImplFixedLen, hok, hint, hiovecs, hall, List.drop_length, List.append_nil,
      hnonneg, if_false, ne_eq, not_true_eq_false]
    exact Prod.ext rfl (decide_eq_decide.mpr hdone)
  · constructor
    · show op.read + bs.length = _
      rw [h.read]
      omega
    · omega
    · show addresses (skipBuffers op.buffers bs.length 0).1 = _
      rw [haddresses, h.addresses, List.drop_drop]
    · show (skipBuffers op.buffers bs.length 0).1.length < _
      rw [hlength]
      exact h.countable
    · show op.bufferCount = toInt (skipBuffers op.buffers bs.length 0).1.length
      rw [hlength]
      exact h.count
  · rw [stores, hiovecs, h.addresses]

/-! ## Runs -/

variable {s : State} {memory : Memory}

/-- What every reachable state of a run meets. -/
structure Invariant (memory : Memory) (buffers : List Buffer) (s : State) : Prop where
  filled : Filled buffers s.op s.received.length
  stored : s.stored = (addresses buffers).zip s.received
  memory : s.memory = write memory s.stored
  waiting : s.result = none →
    s.op.error = .success ∧ s.received.length < total Buffer.iovLen buffers
  done : ∀ ec size, s.result = some (ec, size) → size = s.received.length ∧
    (ec = .success ↔ s.received.length = total Buffer.iovLen buffers)

theorem invariant_initial {fd : Int} (hpos : 0 < total Buffer.iovLen buffers)
    (hcount : buffers.length < 4294967296) :
    Invariant memory buffers (initial fd memory buffers) where
  filled := ⟨rfl, Nat.zero_le _, rfl, hcount, rfl⟩
  stored := by rw [initial, List.zip_nil_right]
  memory := rfl
  waiting _ := ⟨rfl, hpos⟩
  done := nofun

/-- An attempt that fails ends the operation as it is. -/
theorem invariant_failed (h : Invariant memory buffers s) (hnone : s.result = none)
    {ec : ErrorCode} (hec : ec ≠ .success) (read : Int) :
    Invariant memory buffers (afterPost s (postReadImplFixedLen s.op read ec)) := by
  have heq : postReadImplFixedLen s.op read ec = ({ s.op with error := ec }, true) := if_pos hec
  rw [heq]
  obtain ⟨_, hless⟩ := h.waiting hnone
  refine ⟨⟨h.filled.read, h.filled.fits, h.filled.addresses, h.filled.countable, h.filled.count⟩,
    h.stored, h.memory, nofun, ?_⟩
  intro ec' size hresult
  obtain ⟨rfl, rfl⟩ := Prod.mk.inj (Option.some.inj hresult)
  refine ⟨h.filled.read, ?_⟩
  constructor
  · exact fun hsuccess => absurd hsuccess hec
  · exact fun hall => absurd hall (Nat.ne_of_lt hless)

theorem invariant_again (h : Invariant memory buffers s) (hnone : s.result = none) :
    Invariant memory buffers (afterPost s (postReadImplFixedLen s.op (-1) .success)) := by
  obtain ⟨hok, _⟩ := h.waiting hnone
  have hsame : afterPost s (postReadImplFixedLen s.op (-1) .success) = s := by
    show { s with op := { s.op with error := .success }, result := none } = s
    rw [← hok, ← hnone]
  rw [hsame]
  exact h

theorem invariant_received (h : Invariant memory buffers s)
    (hshort : total Buffer.iovLen buffers < 2147483648) (hnone : s.result = none)
    (hpossible : (Answer.received bs).Possible s.op) :
    Invariant memory buffers (afterPost ((Answer.received bs).arrives s.op s)
      (postReadImplFixedLen s.op (toInt bs.length) s.op.error)) := by
  obtain ⟨hok, hless⟩ := h.waiting hnone
  obtain ⟨op', hposted, hfilled, hok', hstores⟩ := filled_received h.filled hshort hok hpossible
  have hlength : (s.received ++ bs).length = s.received.length + bs.length := List.length_append
  have hstored :
      s.stored ++ stores s.op.iovecs bs = (addresses buffers).zip (s.received ++ bs) := by
    rw [h.stored, hstores, zip_append]
    rw [WriteOperation.addresses_length]
    exact h.filled.fits
  rw [hposted]
  constructor
  · show Filled buffers op' (s.received ++ bs).length
    rw [hlength]
    exact hfilled
  · exact hstored
  · show write s.memory (stores s.op.iovecs bs) = write memory (s.stored ++ stores s.op.iovecs bs)
    rw [write_append, h.memory]
  · intro hresult
    refine ⟨hok', ?_⟩
    show (s.received ++ bs).length < _
    have hmore : ¬ s.received.length + bs.length = total Buffer.iovLen buffers := by
      intro hall
      rw [hall] at hresult
      simp [afterPost] at hresult
    have hfits := hfilled.fits
    omega
  · intro ec size hresult
    have hall : s.received.length + bs.length = total Buffer.iovLen buffers := by
      by_cases hall : s.received.length + bs.length = total Buffer.iovLen buffers
      · exact hall
      · simp [afterPost, hall] at hresult
    have hended : some (op'.error, op'.read) = some (ec, size) := by
      rw [← hresult]
      simp [afterPost, hall]
    obtain ⟨rfl, rfl⟩ := Prod.mk.inj (Option.some.inj hended)
    show op'.read = (s.received ++ bs).length ∧
      (op'.error = .success ↔ (s.received ++ bs).length = _)
    rw [hlength]
    exact ⟨hfilled.read, fun _ => hall, fun _ => hok'⟩

theorem invariant_step (h : Invariant memory buffers s)
    (hshort : total Buffer.iovLen buffers < 2147483648) {e : Step} (he : Enabled s e) :
    Invariant memory buffers (next s e) := by
  cases e with
  | answer a =>
    obtain ⟨hnone, _, hpossible⟩ := he
    cases a with
    | received bs => exact invariant_received h hshort hnone hpossible
    | interrupted => exact h
    | again => exact invariant_again h hnone
    | endOfStream =>
      have hec : ErrorCode.disconnected ≠ .success := nofun
      exact invariant_failed h hnone hec (-1)
    | failed errno =>
      have hec : ErrorCode.system errno ≠ .success := nofun
      exact invariant_failed h hnone hec (-1)
  | closed =>
    have hec : ErrorCode.invalid ≠ .success := nofun
    exact invariant_failed h he.1 hec (-1)
  | close => exact ⟨h.filled, h.stored, h.memory, h.waiting, h.done⟩

/-! ## The buffers are filled exactly -/

structure ReadsExactly (memory : Memory) (buffers : List Buffer) (s : State) : Prop where
  /-- The `i`th byte goes to the `i`th place of the original buffers. -/
  stored : s.stored = (addresses buffers).zip s.received
  fits : s.received.length ≤ total Buffer.iovLen buffers
  content : (addresses buffers).Nodup →
    ((addresses buffers).take s.received.length).map s.memory = s.received
  frame : ∀ a, a ∉ (addresses buffers).take s.received.length → s.memory a = memory a
  completes : (∃ size, s.result = some (.success, size)) ↔
    s.received.length = total Buffer.iovLen buffers
  size : ∀ ec size, s.result = some (ec, size) → size = s.received.length

theorem readsExactly_of_invariant (h : Invariant memory buffers s) :
    ReadsExactly memory buffers s := by
  have hfits : s.received.length ≤ (addresses buffers).length := by
    rw [WriteOperation.addresses_length]
    exact h.filled.fits
  constructor
  · exact h.stored
  · exact h.filled.fits
  · intro hnodup
    rw [h.memory, h.stored]
    exact write_zip hnodup hfits
  · intro a ha
    rw [h.memory, h.stored]
    apply write_elsewhere
    rw [fst_zip]
    exact ha
  · constructor
    · rintro ⟨size, hresult⟩
      exact (h.done _ _ hresult).2.mp rfl
    · intro hall
      cases hresult : s.result with
      | none =>
        have hless := (h.waiting hresult).2
        omega
      | some r =>
        obtain ⟨ec, size⟩ := r
        obtain rfl := (h.done _ _ hresult).2.mpr hall
        exact ⟨size, rfl⟩
  · exact fun ec size hresult => (h.done ec size hresult).1

/-- A fixed-length read of fewer than 2^31 bytes in fewer than 2^32 buffers fills exactly them. -/
theorem reads_exactly {fd : Int} (hpos : 0 < total Buffer.iovLen buffers)
    (hshort : total Buffer.iovLen buffers < 2147483648) (hcount : buffers.length < 4294967296)
    (h : machine.Reachable (initial fd memory buffers) s) : ReadsExactly memory buffers s := by
  apply readsExactly_of_invariant
  exact h.invariant (invariant_initial hpos hcount)
    fun _ _ _ hinvariant he _ => invariant_step hinvariant hshort he

/-- Three buffers, one of them empty, filled in two parts with a wait and an interruption. -/
def twoParts : List Step :=
  [.answer (.received [1, 2, 3]), .answer .again, .answer .interrupted, .answer (.received [4])]

theorem reads_exactly_twoParts :
    let buffers : List Buffer := [⟨10, 2⟩, ⟨0, 0⟩, ⟨20, 2⟩]
    let s := machine.runTrace (initial 3 (fun _ => 0) buffers) twoParts
    ReadsExactly (fun _ => 0) buffers s ∧ s.result = some (.success, 4) ∧
      s.stored = [(10, 1), (11, 2), (20, 3), (21, 4)] := by
  have hvalid : machine.ValidTrace (fun _ _ => True)
      (initial 3 (fun _ => 0) [⟨10, 2⟩, ⟨0, 0⟩, ⟨20, 2⟩]) twoParts := by decide
  exact ⟨reads_exactly (by decide) (by decide) (by decide) hvalid.reachable, by decide, by decide⟩

/-- The count of these buffers is converted to one. -/
def uncountable : List Buffer :=
  ⟨0, 1⟩ :: (List.replicate 4294967295 ⟨0, 0⟩ ++ [⟨1, 1⟩])

theorem uncountable_total : total Buffer.iovLen uncountable = 2 := by
  rw [uncountable, total_cons, total_append, total_eq_zero]
  · rfl
  · intro b hb
    rw [List.eq_of_mem_replicate hb]

theorem uncountable_count : toInt uncountable.length = 1 := by
  rw [uncountable, List.length_cons, List.length_append, List.length_replicate]
  rfl

/-- An operation whose count is one is done when its first buffer is full. -/
theorem next_uncountable {others : List Buffer} (hcount : op.bufferCount = 1)
    (hbuffers : op.buffers = ⟨0, 1⟩ :: others) (hread : op.read = 0) (hok : op.error = .success)
    {fd : Int} : (next ⟨fd, op, memory, [], [], none⟩ (.answer (.received [7]))).result =
      some (.success, 1) := by
  have hiovecs : op.iovecs = [⟨0, 1⟩] := by
    rw [Operation.iovecs, hcount, hbuffers]
    rfl
  have hint : toInt 1 = 1 := by decide
  have hskip : skipBuffers [⟨0, 1⟩] 1 0 = ([⟨1, 0⟩], 0) := by decide
  have hposted : postReadImplFixedLen op 1 .success =
      ({ op with buffers := [⟨1, 0⟩] ++ op.buffers.drop (1 : Int).toNat, read := op.read + 1
                 error := .success }, true) := by
    rw [postReadImplFixedLen, if_neg (by decide), if_neg (by decide), hiovecs, hskip, hcount]
    simp only [decide_true]
  show (afterPost _ (postReadImplFixedLen op (toInt 1) op.error)).result = _
  rw [hint, hok, hposted, hread]
  rfl

/-- With 2^32 + 1 buffers the operation is done after the first one. -/
theorem uncountable_not_exactly :
    ¬ ∀ (fd : Int) (memory : Memory) (buffers : List Buffer) (s : State),
      0 < total Buffer.iovLen buffers → total Buffer.iovLen buffers < 2147483648 →
      machine.Reachable (initial fd memory buffers) s → ReadsExactly memory buffers s := by
  intro h
  obtain ⟨buffers, hbuffers⟩ : ∃ buffers, buffers = uncountable := ⟨_, rfl⟩
  have htotal : total Buffer.iovLen buffers = 2 := hbuffers ▸ uncountable_total
  have hcount : (operationReadv buffers).bufferCount = 1 := by
    rw [hbuffers]
    exact uncountable_count
  have hcons : (operationReadv buffers).buffers = ⟨0, 1⟩ :: uncountable.tail := by
    rw [hbuffers]
    rfl
  have hiovecs : (operationReadv buffers).iovecs = [⟨0, 1⟩] := by
    rw [Operation.iovecs, hcount, hcons]
    rfl
  have hpossible : (Answer.received [7]).Possible (operationReadv buffers) := by
    refine ⟨by rw [hcount]; decide, by decide, ?_⟩
    rw [hiovecs]
    decide
  have henabled : machine.Enabled (initial 0 (fun _ => 0) buffers) (.answer (.received [7])) :=
    ⟨rfl, (by decide : (0 : Int) ≠ -1), hpossible⟩
  have hreachable : machine.Reachable (initial 0 (fun _ => 0) buffers)
      (next (initial 0 (fun _ => 0) buffers) (.answer (.received [7]))) :=
    System.Reachable.tail .refl henabled
  have hresult : (next (initial 0 (fun _ => 0) buffers) (.answer (.received [7]))).result = _ :=
    next_uncountable hcount hcons rfl rfl
  have hsize := (h 0 (fun _ => 0) buffers _ (by omega) (by omega) hreachable).completes.mp
    ⟨1, hresult⟩
  rw [htotal] at hsize
  have hone : ([7] : List UInt8).length = 2 := hsize
  exact absurd hone (by decide)

end ReadOperation
