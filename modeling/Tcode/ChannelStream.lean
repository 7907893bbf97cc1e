import Tcode.ChannelRefinement

/-! # The bytes a channel writes

Runs in which a write that succeeds has written all it was given. The bytes accepted and
not completed are those of `_write_buffers`, except between a completion and its handler.
-/
namespace ChannelStream

open SupportMachineInt BufferByteBuffer ChannelFlagWord ChannelMachine ChannelTokens
open ChannelInvariant ChannelRefinement SupportListSums SupportTransitionSystem

/-- A buffer whose positions are in order inside its block, with a length that an int holds. -/
structure Sendable (buf : ByteBuffer) : Prop where
  has_block : buf.block.isSome
  inside : ∀ k ∈ buf.block, buf.pos.write ≤ k.bytes.length
  order : buf.pos.read ≤ buf.pos.write
  short : buf.pos.write < buf.pos.read + 2147483648
  address : buf.pos.write < 18446744073709551616

variable {buf : ByteBuffer} {bufs : List ByteBuffer}

theorem Sendable.length_eq (h : Sendable buf) : buf.length = buf.pos.write - buf.pos.read := by
  have horder := h.order
  have haddress := h.address
  simp only [ByteBuffer.length, toSize]
  omega

theorem Sendable.contents_length (h : Sendable buf) : buf.contents.length = buf.length := by
  obtain ⟨k, hk⟩ := Option.isSome_iff_exists.mp h.has_block
  have hinside := h.inside k hk
  rw [h.length_eq]
  simp only [ByteBuffer.contents, hk, List.length_take, List.length_drop]
  omega

theorem Sendable.ioBuffer_eq (h : Sendable buf) : ioBuffer buf = buf.contents := by
  obtain ⟨k, hk⟩ := Option.isSome_iff_exists.mp h.has_block
  have horder := h.order
  have hshort := h.short
  have hlen := h.length_eq
  have hsize : toSize (toInt buf.length) = buf.pos.write - buf.pos.read := by
    rw [toInt_of_range (x := (buf.length : Int)) (by omega) (by omega), toSize_natCast (by omega),
      hlen]
  simp [ioBuffer, ByteBuffer.fromReadPosition, ByteBuffer.contents, hk, hsize]

theorem Sendable.rdPtr_spec (h : Sendable buf) {n : Int} (hn : 0 < n) :
    (buf.rdPtr n).1 = min n buf.length ∧ Sendable (buf.rdPtr n).2 ∧
      (buf.rdPtr n).2.contents = buf.contents.drop n.toNat := by
  have horder := h.order
  have hshort := h.short
  have haddress := h.address
  have hlen := h.length_eq
  have hto : toInt buf.length = buf.length :=
    toInt_of_range (x := (buf.length : Int)) (by omega) (by omega)
  have hmove : (buf.rdPtr n).1 = min n buf.length := by
    simp only [ByteBuffer.rdPtr, if_pos (Int.le_of_lt hn), hto]
  have hpos : (buf.rdPtr n).2 =
      ⟨buf.block, ⟨buf.pos.read + min n.toNat buf.length, buf.pos.write⟩⟩ := by
    have hsize : toSize (buf.pos.read + min n buf.length) =
        buf.pos.read + min n.toNat buf.length := by
      clear hto hmove
      unfold toSize
      omega
    simp only [ByteBuffer.rdPtr, if_pos (Int.le_of_lt hn), hto, hsize]
  refine ⟨hmove, ?_, ?_⟩
  · rw [hpos]
    clear hto hmove hpos
    exact ⟨h.has_block, h.inside, by dsimp only; omega, by dsimp only; omega, h.address⟩
  · obtain ⟨k, hk⟩ := Option.isSome_iff_exists.mp h.has_block
    rw [hpos]
    clear hto hmove hpos
    simp only [ByteBuffer.contents, hk, List.drop_take, List.drop_drop]
    by_cases hs : n.toNat ≤ buf.length
    · rw [Nat.min_eq_left hs, Nat.sub_sub, Nat.add_comm]
    · have h0 : buf.pos.write - (buf.pos.read + min n.toNat buf.length) = 0 := by omega
      have h1 : buf.pos.write - buf.pos.read - n.toNat = 0 := by omega
      simp [h0, h1]

/-- The bytes not yet completed that a queue holds. -/
def queued (bufs : List ByteBuffer) : List UInt8 := bufs.flatMap ByteBuffer.contents

theorem writeRequest_flatten (h : ∀ buf ∈ bufs, Sendable buf) :
    (writeRequest bufs).flatten = queued bufs := by
  have hmap : bufs.map ioBuffer = bufs.map ByteBuffer.contents :=
    List.map_congr_left fun buf hbuf => (h buf hbuf).ioBuffer_eq
  have hempty (n : Nat) : (List.replicate n ([] : List UInt8)).flatten = [] := by
    simp
  unfold writeRequest queued
  split
  · next buf => simpa using hmap
  · rw [List.flatten_append, hempty, hmap, List.nil_append, List.flatMap_def]

/-- The loop of `handle_write` takes the completed bytes off the front of the queue. -/
theorem skipWritten_spec (h : ∀ buf ∈ bufs, Sendable buf) (n : Int) :
    (∀ buf ∈ skipWritten bufs n, Sendable buf) ∧
      queued (skipWritten bufs n) = (queued bufs).drop n.toNat := by
  induction bufs generalizing n with
  | nil => exact ⟨h, by simp [skipWritten, queued]⟩
  | cons buf bufs ih =>
    obtain ⟨hbuf, hbufs⟩ := List.forall_mem_cons.mp h
    by_cases hn : 0 < n
    · obtain ⟨hmove, hsend, hcont⟩ := hbuf.rdPtr_spec hn
      obtain ⟨hall, hdrop⟩ := ih hbufs (n - (buf.rdPtr n).1)
      simp only [skipWritten, if_pos hn]
      refine ⟨List.forall_mem_cons.mpr ⟨hsend, hall⟩, ?_⟩
      have hlen := hbuf.contents_length
      simp only [queued, List.flatMap_cons] at hdrop ⊢
      rw [hcont, hdrop, hmove, List.drop_append]
      congr 2
      omega
    · have hzero : n.toNat = 0 := by omega
      simp only [skipWritten, if_neg hn, hzero, List.drop_zero]
      exact ⟨h, trivial⟩

theorem queued_filter (h : ∀ buf ∈ bufs, Sendable buf) :
    queued (bufs.filter fun buf => buf.length ≠ 0) = queued bufs := by
  induction bufs with
  | nil => rfl
  | cons buf bufs ih =>
    obtain ⟨hbuf, hbufs⟩ := List.forall_mem_cons.mp h
    have hrest := ih hbufs
    simp only [queued] at hrest ⊢
    by_cases hlen : buf.length = 0
    · have hnil : buf.contents = [] := by
        apply List.eq_nil_of_length_eq_zero
        rw [hbuf.contents_length, hlen]
      rw [List.filter_cons_of_neg (by simpa using hlen), hrest, List.flatMap_cons, hnil,
        List.nil_append]
    · rw [List.filter_cons_of_pos (by simpa using hlen), List.flatMap_cons, hrest,
        List.flatMap_cons]

/-- `handle_write` leaves the bytes behind the completed ones, in buffers that have some. -/
theorem trim_spec (h : ∀ buf ∈ bufs, Sendable buf) (n : Int) :
    (∀ buf ∈ trim bufs n, Sendable buf) ∧ queued (trim bufs n) = (queued bufs).drop n.toNat ∧
      (trim bufs n = [] ↔ (queued bufs).drop n.toNat = []) := by
  obtain ⟨hall, hdrop⟩ := skipWritten_spec h n
  have htrim : queued (trim bufs n) = (queued bufs).drop n.toNat := by
    rw [trim, queued_filter hall, hdrop]
  refine ⟨fun buf hbuf => hall buf (List.mem_of_mem_filter hbuf), htrim, fun hnil => ?_,
    fun hnil => ?_⟩
  · rw [← htrim, hnil]
    rfl
  · cases hcases : trim bufs n with
    | nil => rfl
    | cons buf rest =>
      have hmem : buf ∈ trim bufs n := by rw [hcases]; exact List.mem_cons_self
      have hlen : buf.length ≠ 0 := by simpa using (List.mem_filter.mp hmem).2
      have hcont := (hall buf (List.mem_of_mem_filter hmem)).contents_length
      have hempty : buf.contents = [] := by
        rw [← htrim, hcases, queued, List.flatMap_cons, List.append_eq_nil_iff] at hnil
        exact hnil.1
      rw [hempty] at hcont
      exact absurd hcont.symm hlen

/-! ## Runs -/

def Task.buffers : Task → List ByteBuffer
  | .held (.doWrite buf) => [buf]
  | _ => []

def Instr.buffers : Instr → List ByteBuffer
  | .doWrite buf | .addRefExecute (.doWrite buf) => [buf]
  | .execute t => Task.buffers t
  | _ => []

/-- A write that succeeds has written all it was given. -/
def FullCompletions {F : Type} (s : State F) : Step → Prop
  | .complete k (.ok nbytes) => ∀ bufs, s.ops[k]? = some (.write bufs) →
      nbytes = bufs.flatten.length
  | _ => True

/-- Callers write buffers that can be sent. -/
def SendableCalls : Step → Prop
  | .call (.doWrite buf) | .callOther (.doWrite buf) => Sendable buf
  | _ => True

def FullWrites {F : Type} (s : State F) (e : Step) : Prop := FullCompletions s e ∧ SendableCalls e

structure Buffers (s : State Counters) : Prop where
  main : ∀ i ∈ s.main, ∀ buf ∈ Instr.buffers i, Sendable buf
  others : ∀ i ∈ s.others, ∀ buf ∈ Instr.buffers i, Sendable buf
  tasks : ∀ t ∈ s.tasks, ∀ buf ∈ Task.buffers t, Sendable buf
  queue : ∀ buf ∈ s.writeBuffers, Sendable buf

def Instr.firesWrite : Instr → Bool
  | .fire (.onWrite _ _) => true
  | _ => false

/-- How far the writing of what was accepted has come. -/
inductive Stage (s : State Counters) : Prop where
  | idle (tokens : writeTokens.load s = 0) (queue : s.writeBuffers = [])
      (completed : s.completed = s.accepted) (wire : s.wire = s.accepted)
  | ready (main : .writeRemains ∈ s.main ∨ .writeBody ∈ s.main) (wire : s.wire = s.completed)
      (accepted : s.completed ++ queued s.writeBuffers = s.accepted)
  | inFlight (bufs : List (List UInt8)) (op : .write bufs ∈ s.ops)
      (wire : s.wire = s.completed ++ bufs.flatten) (front : bufs.flatten <+: queued s.writeBuffers)
      (accepted : s.completed ++ queued s.writeBuffers = s.accepted)
  | handling (n : Int) (main : .handleWrite (.ok n) ∈ s.main) (wire : s.wire = s.completed)
      (accepted : s.completed ++ (queued s.writeBuffers).drop n.toNat = s.accepted)
  | failing (ec : ErrorCode) (main : .handleWrite (.error ec) ∈ s.main)
      (wire : s.wire <+: s.accepted)
  | stopped (tokens : writeTokens.load s = 0) (closed : s.flag.close = false ∨ Closing s)
      (wire : s.wire <+: s.accepted)

/-- The event of a handled write is fired before anything else is done on the loop. -/
structure Flushes (s : State Counters) : Prop where
  tail : ∀ j ∈ s.main.tail, Instr.firesWrite j = false
  head : ∀ n flush, s.main.head? = some (.fire (.onWrite n flush)) →
    (flush = true ↔ s.completed = s.accepted)

structure Stream (onLoop : Bool) (s : State Counters) : Prop where
  invariant : Invariant onLoop s
  buffers : Buffers s
  stage : Stage s
  flushes : Flushes s

variable {onLoop b : Bool} {i : Instr} {c : Call} {s t u : State Counters} {front rest : List Instr}

/-! ## One instruction -/

theorem front_buffers (h : Outcome b s i u front) :
    (∀ j ∈ front, ∀ buf ∈ Instr.buffers j, buf ∈ Instr.buffers i) ∧
      ∀ t ∈ newTasks i, ∀ buf ∈ Task.buffers t, buf ∈ Instr.buffers i := by
  cases h with
  | addRefExecute held => cases held <;> simp [Instr.buffers, Task.buffers, newTasks]
  | _ => simp [Instr.buffers, Task.buffers, newTasks]

theorem queue_buffers (h : Outcome b s i u front) (hqueue : ∀ buf ∈ s.writeBuffers, Sendable buf)
    (hi : ∀ buf ∈ Instr.buffers i, Sendable buf) : ∀ buf ∈ u.writeBuffers, Sendable buf := by
  cases h with
  | writeFirst buf | writeBehind buf =>
    intro x hx
    rcases List.mem_append.mp hx with hx | hx
    · exact hqueue x hx
    · exact hi x hx
  | writeFlushed n | writeLeft n => exact (trim_spec hqueue n).1
  | _ => exact hqueue

theorem buffers_ran (hr : Ran b i s t u front) (h : Buffers s)
    (hi : ∀ buf ∈ Instr.buffers i, Sendable buf) :
    (∀ j ∈ front, ∀ buf ∈ Instr.buffers j, Sendable buf) ∧
      (∀ task ∈ t.tasks, ∀ buf ∈ Task.buffers task, Sendable buf) ∧
      ∀ buf ∈ t.writeBuffers, Sendable buf := by
  obtain ⟨hfront, htasks⟩ := front_buffers hr.outcome
  refine ⟨fun j hj buf hbuf => hi buf (hfront j hj buf hbuf), fun task ht buf hbuf => ?_, ?_⟩
  · rw [hr.tasks] at ht
    rcases List.mem_append.mp ht with ht | ht
    · exact h.tasks task ht buf hbuf
    · exact hi buf (htasks task ht buf hbuf)
  · rw [hr.writeBuffers]
    exact queue_buffers hr.outcome h.queue hi

theorem buffers_run (h : Buffers s) (hr : Ran true i s t u front) (hs : s.main = i :: rest)
    (hmain : t.main = front ++ rest) (hothers : t.others = s.others) : Buffers t := by
  obtain ⟨hfront, htasks, hqueue⟩ :=
    buffers_ran hr h (h.main i (by rw [hs]; exact List.mem_cons_self))
  refine ⟨fun j hj => ?_, hothers ▸ h.others, htasks, hqueue⟩
  rcases List.mem_append.mp (hmain ▸ hj) with hj | hj
  · exact hfront j hj
  · exact h.main j (by rw [hs]; exact List.mem_cons_of_mem _ hj)

theorem buffers_runOther (h : Buffers s) (hr : Ran false i s t u front) {k : Nat}
    (hi : s.others[k]? = some i) (hmain : t.main = s.main)
    (hothers : t.others = s.others.eraseIdx k ++ front) : Buffers t := by
  obtain ⟨hfront, htasks, hqueue⟩ :=
    buffers_ran hr h (h.others i (List.mem_of_getElem? hi))
  refine ⟨hmain ▸ h.main, fun j hj => ?_, htasks, hqueue⟩
  rcases List.mem_append.mp (hothers ▸ hj) with hj | hj
  · exact h.others j (List.mem_of_mem_eraseIdx hj)
  · exact hfront j hj

/-- What is not about writing leaves the stage as it is. -/
structure Passed (s t : State Counters) : Prop where
  tokens : writeTokens.load t = writeTokens.load s
  queue : t.writeBuffers = s.writeBuffers
  accepted : t.accepted = s.accepted
  completed : t.completed = s.completed
  wire : t.wire = s.wire
  main : ∀ j ∈ s.main, writeTokens.instr j = 1 → j ∈ t.main
  ops : ∀ op ∈ s.ops, writeTokens.op op = 1 → op ∈ t.ops
  closed : s.flag.close = false ∨ Closing s → t.flag.close = false ∨ Closing t

theorem Stage.passed (h : Stage s) (hp : Passed s t) : Stage t := by
  cases h with
  | idle tokens queue completed wire =>
    exact .idle (hp.tokens.trans tokens) (hp.queue.trans queue)
      (hp.completed.trans (completed.trans hp.accepted.symm))
      (hp.wire.trans (wire.trans hp.accepted.symm))
  | ready main wire accepted =>
    refine .ready (main.imp (fun hj => hp.main _ hj rfl) fun hj => hp.main _ hj rfl) ?_ ?_
    · rw [hp.wire, hp.completed, wire]
    · rw [hp.completed, hp.queue, hp.accepted, accepted]
  | inFlight bufs op wire front accepted =>
    refine .inFlight bufs (hp.ops _ op rfl) ?_ (hp.queue ▸ front) ?_
    · rw [hp.wire, hp.completed, wire]
    · rw [hp.completed, hp.queue, hp.accepted, accepted]
  | handling n main wire accepted =>
    refine .handling n (hp.main _ main rfl) ?_ ?_
    · rw [hp.wire, hp.completed, wire]
    · rw [hp.completed, hp.queue, hp.accepted, accepted]
  | failing ec main wire =>
    exact .failing ec (hp.main _ main rfl) (by rwa [hp.wire, hp.accepted])
  | stopped tokens closed wire =>
    exact .stopped (hp.tokens.trans tokens) (hp.closed closed) (by rwa [hp.wire, hp.accepted])

/-- Instructions of the loop thread that are not about writing. -/
theorem passed_run (hr : Ran true i s t u front) (hs : s.main = i :: rest)
    (hmain : t.main = front ++ rest) (htoken : writeTokens.instr i = 0)
    (hwrite : ∀ buf, i = .doWrite buf → s.flag.close = false) : Passed s t := by
  have htokens := hr.load writeTokens
  have hops := hr.ops
  have hsame : u.writeBuffers = s.writeBuffers ∧ u.accepted = s.accepted ∧ u.wire = s.wire ∧
      (s.flag.close = false → u.flag.close = false) ∧
      (∀ ec, i = .close ec → u.flag.close = false) ∧
      total writeTokens.instr front + total writeTokens.task (newTasks i) +
        total writeTokens.op (newOps s i) = 0 := by
    cases hr.outcome with
    | writeFirst buf hb hc | writeBehind buf hb hc =>
      rw [hwrite buf rfl] at hc
      cases hc
    | writeMore | writeNoMore | writeBody | writeFailed | writeFlushed | writeLeft | writeLate =>
      cases htoken
    | closeWon ec hc => exact ⟨rfl, rfl, rfl, fun _ => rfl, fun _ _ => rfl, rfl⟩
    | closeLost ec hc => exact ⟨rfl, rfl, rfl, id, fun _ _ => hc, rfl⟩
    | _ => exact ⟨rfl, rfl, rfl, id, nofun, rfl⟩
  obtain ⟨hqueue, haccepted, hwire, hclose, hclosing, hzero⟩ := hsame
  exact {
    tokens := by omega
    queue := hr.writeBuffers.trans hqueue
    accepted := hr.accepted.trans haccepted
    completed := hr.completed
    wire := hr.wire.trans hwire
    main := by
      intro j hj hone
      rw [hs] at hj
      rcases List.mem_cons.mp hj with rfl | hj
      · omega
      · exact hmain ▸ List.mem_append_right _ hj
    ops := fun op hop _ => hops ▸ List.mem_append_left _ hop
    closed := by
      rintro (hclosed | ⟨ec, hec⟩)
      · exact Or.inl ((congrArg Counters.close hr.flag).trans (hclose hclosed))
      · refine Or.inl ((congrArg Counters.close hr.flag).trans (hclosing ec ?_))
        simpa [hs] using hec }

theorem passed_runOther (hr : Ran false i s t u front) (hi : Instr.OnOther i)
    (hmain : t.main = s.main) : Passed s t := by
  have htokens := hr.load writeTokens
  have hops := hr.ops
  have hsame : u.writeBuffers = s.writeBuffers ∧ u.accepted = s.accepted ∧ u.wire = s.wire ∧
      (s.flag.close = false → u.flag.close = false) ∧
      total writeTokens.instr front + total writeTokens.task (newTasks i) +
        total writeTokens.op (newOps s i) = 0 ∧ writeTokens.instr i = 0 := by
    cases hr.outcome with
    | writeFirst buf hb | writeBehind buf hb => cases hb
    | writeMore | writeNoMore | writeBody | writeFailed | writeFlushed | writeLeft | writeLate =>
      exact hi.elim
    | closeWon ec hc => exact ⟨rfl, rfl, rfl, fun _ => rfl, rfl, rfl⟩
    | _ => exact ⟨rfl, rfl, rfl, id, rfl, rfl⟩
  obtain ⟨hqueue, haccepted, hwire, hclose, hzero, htoken⟩ := hsame
  exact {
    tokens := by omega
    queue := hr.writeBuffers.trans hqueue
    accepted := hr.accepted.trans haccepted
    completed := hr.completed
    wire := hr.wire.trans hwire
    main := fun j hj _ => hmain ▸ hj
    ops := fun op hop _ => hops ▸ List.mem_append_left _ hop
    closed := by
      rintro (hclosed | ⟨ec, hec⟩)
      · exact Or.inl ((congrArg Counters.close hr.flag).trans (hclose hclosed))
      · exact Or.inr ⟨ec, hmain ▸ hec⟩ }

theorem passed_call (hcall : Called c s t)
    (hmain : t.main = s.main ∨
      t.main = c.code ++ s.main ∧ (s.main = [] ∨ s.main.head? = some .callback)) :
    Passed s t := by
  obtain ⟨hclose, -, hqueue, -⟩ := hcall.flag
  have hsame : t.accepted = s.accepted ∧ t.completed = s.completed ∧ t.wire = s.wire ∧
      t.ops = s.ops := by
    rw [hcall.effect]
    cases c <;> exact ⟨rfl, rfl, rfl, rfl⟩
  obtain ⟨haccepted, hcompleted, hwire, hops⟩ := hsame
  exact {
    tokens := by rw [hcall.load, (code_tokens c).2.2.2.1, Nat.add_zero]
    queue := hqueue
    accepted := haccepted
    completed := hcompleted
    wire := hwire
    main := by
      intro j hj _
      rcases hmain with hmain | ⟨hmain, -⟩
      · exact hmain ▸ hj
      · exact hmain ▸ List.mem_append_right _ hj
    ops := fun op hop _ => hops ▸ hop
    closed := by
      rintro (hclosed | ⟨ec, hec⟩)
      · exact Or.inl (hclose.trans hclosed)
      · rcases hmain with hmain | ⟨-, hidle | hidle⟩
        · exact Or.inr ⟨ec, hmain ▸ hec⟩
        · simp [hidle] at hec
        · simp [hidle] at hec }

/-! ## Instructions that write -/

/-- A token in one place leaves none for another. -/
theorem Stream.tokens_le (h : Stream onLoop s) : writeTokens.load s ≤ 1 := h.invariant.writes.1

theorem stage_doWrite (h : Stream onLoop s) (hr : Ran true (.doWrite buf) s t u front)
    (hs : s.main = .doWrite buf :: rest) (hmain : t.main = front ++ rest) : Stage t := by
  cases hc : s.flag.close with
  | false => exact h.stage.passed (passed_run hr hs hmain rfl fun _ _ => hc)
  | true =>
    have hqueued : t.wire = s.wire ∧ t.accepted = s.accepted ++ buf.contents ∧
        queued t.writeBuffers = queued s.writeBuffers ++ buf.contents ∧
        (s.writeBuffers = [] → .writeRemains ∈ t.main) := by
      rw [hr.wire, hr.accepted, hr.writeBuffers, hmain]
      cases hr.outcome with
      | writeFirst buf => exact ⟨rfl, rfl, by simp [queued], fun _ => List.mem_cons_self⟩
      | writeBehind buf hb hc hq => exact ⟨rfl, rfl, by simp [queued], fun hnil => absurd hnil hq⟩
      | writePosted buf hb => cases hb
      | writeRefused buf hc' =>
        rw [hc] at hc'
        cases hc'
    obtain ⟨hwire, haccepted, hqueue, hfirst⟩ := hqueued
    have hcompleted := hr.completed
    have hops := hr.ops
    have hrest {j : Instr} (hj : j ∈ s.main) (hone : writeTokens.instr j = 1) : j ∈ t.main := by
      rw [hs] at hj
      rcases List.mem_cons.mp hj with rfl | hj
      · cases hone
      · exact hmain ▸ List.mem_append_right _ hj
    cases h.stage with
    | idle tokens queue completed wire =>
      refine .ready (Or.inl (hfirst queue)) ?_ ?_
      · rw [hwire, hcompleted, wire, completed]
      · rw [hcompleted, hqueue, haccepted, completed, queue]
        rfl
    | ready main wire accepted =>
      refine .ready (main.imp (fun hj => hrest hj rfl) fun hj => hrest hj rfl) ?_ ?_
      · rw [hwire, hcompleted, wire]
      · rw [hcompleted, hqueue, haccepted, ← accepted, List.append_assoc]
    | inFlight bufs op wire front accepted =>
      refine .inFlight bufs (hops ▸ List.mem_append_left _ op) ?_ ?_ ?_
      · rw [hwire, hcompleted, wire]
      · exact hqueue ▸ front.trans (List.prefix_append _ _)
      · rw [hcompleted, hqueue, haccepted, ← accepted, List.append_assoc]
    | handling n main =>
      -- A handler starts on an idle loop thread and is still at the head.
      have htail := h.invariant.heads.tail (.handleWrite (.ok n))
      rw [hs] at main htail
      simp only [List.mem_cons, reduceCtorEq, false_or] at main
      cases htail main
    | failing ec main wire =>
      refine .failing ec (hrest main rfl) ?_
      rw [hwire, haccepted]
      exact wire.trans (List.prefix_append _ _)
    | stopped tokens closed =>
      rcases closed with hclosed | ⟨ec, hec⟩
      · rw [hc] at hclosed
        cases hclosed
      · simp [hs] at hec

/-- While an instruction of the loop thread has the token, no other place has it. -/
theorem stage_ready (h : Stream onLoop s) (hs : s.main = i :: rest)
    (hi : i = .writeRemains ∨ i = .writeBody) :
    s.wire = s.completed ∧ s.completed ++ queued s.writeBuffers = s.accepted ∧
      total writeTokens.instr rest + total writeTokens.op s.ops = 0 := by
  have hone : writeTokens.instr i = 1 := by rcases hi with rfl | rfl <;> rfl
  have hle := h.tokens_le
  simp only [Tokens.load, hs, total_cons, hone] at hle
  have hload : writeTokens.load s ≠ 0 := by
    simp only [Tokens.load, hs, total_cons, hone]
    omega
  have hzero : total writeTokens.instr rest + total writeTokens.op s.ops = 0 := by omega
  have hnotHead {r : Result} (hmem : .handleWrite r ∈ s.main) : False := by
    rw [hs] at hmem
    rcases List.mem_cons.mp hmem with rfl | hmem
    · rcases hi with hi | hi <;> cases hi
    · have : 1 ≤ total writeTokens.instr rest := total_pos_of_mem (w := writeTokens.instr) hmem
      omega
  cases h.stage with
  | idle tokens => exact absurd tokens hload
  | ready main wire accepted => exact ⟨wire, accepted, hzero⟩
  | inFlight bufs op =>
    have : 1 ≤ total writeTokens.op s.ops := total_pos_of_mem (w := writeTokens.op) op
    omega
  | handling n main => exact (hnotHead main).elim
  | failing ec main => exact (hnotHead main).elim
  | stopped tokens => exact absurd tokens hload

theorem stage_writeRemains (h : Stream onLoop s) (hr : Ran true .writeRemains s t u front)
    (hs : s.main = .writeRemains :: rest) (hmain : t.main = front ++ rest) : Stage t := by
  obtain ⟨hwire, haccepted, hzero⟩ := stage_ready h hs (Or.inl rfl)
  have hload := hr.load writeTokens
  have hle := h.tokens_le
  have hcompleted := hr.completed
  have hqueue := hr.writeBuffers
  have hwire' := hr.wire
  have haccepted' := hr.accepted
  have hflag := hr.flag
  cases hr.outcome with
  | writeMore hc =>
    refine .ready (Or.inr (hmain ▸ List.mem_cons_self)) ?_ ?_
    · rw [hwire', hcompleted, hwire]
    · rw [hcompleted, hqueue, haccepted', haccepted]
  | writeNoMore hc =>
    have hgain : writeTokens.load t + 1 = writeTokens.load s := hload
    refine .stopped (by omega) (Or.inl (by rw [hflag, hc])) ?_
    rw [hwire', haccepted', hwire, ← haccepted]
    exact List.prefix_append _ _

theorem stage_writeBody (h : Stream onLoop s) (hr : Ran true .writeBody s t u front)
    (hs : s.main = .writeBody :: rest) : Stage t := by
  obtain ⟨hwire, haccepted, -⟩ := stage_ready h hs (Or.inr rfl)
  have hrequest := writeRequest_flatten h.buffers.queue
  have hops := hr.ops
  have hcompleted := hr.completed
  have hqueue := hr.writeBuffers
  have hwire' := hr.wire
  have haccepted' := hr.accepted
  cases hr.outcome with
  | writeBody =>
    refine .inFlight (writeRequest s.writeBuffers) ?_ ?_ ?_ ?_
    · rw [hops]
      exact List.mem_append_right _ List.mem_cons_self
    · rw [hwire', hcompleted, hwire]
    · have heq : (writeRequest s.writeBuffers).flatten = queued t.writeBuffers := by
        rw [hqueue, hrequest]
      exact heq ▸ List.prefix_refl _
    · rw [hcompleted, hqueue, haccepted', haccepted]

/-- The stage of a state whose loop thread handles a completion. -/
theorem stage_handling (h : Stream onLoop s) {r : Result} (hs : s.main = .handleWrite r :: rest) :
    s.wire <+: s.accepted ∧ ∀ n, r = .ok n →
      s.wire = s.completed ∧ s.completed ++ (queued s.writeBuffers).drop n.toNat = s.accepted := by
  have htail := h.invariant.heads.tail
  rw [hs, List.tail_cons] at htail
  have hle := h.tokens_le
  have hone : writeTokens.instr (.handleWrite r) = 1 := rfl
  simp only [Tokens.load, hs, total_cons, hone] at hle
  have hload : writeTokens.load s ≠ 0 := by
    simp only [Tokens.load, hs, total_cons, hone]
    omega
  have hnotRest {j : Instr} (hj : j ∈ rest) (htoken : writeTokens.instr j = 1) : False := by
    have : 1 ≤ total writeTokens.instr rest :=
      htoken ▸ total_pos_of_mem (w := writeTokens.instr) hj
    omega
  cases h.stage with
  | idle tokens => exact absurd tokens hload
  | ready main =>
    rw [hs] at main
    simp only [List.mem_cons, reduceCtorEq, false_or] at main
    rcases main with hj | hj <;> exact (hnotRest hj rfl).elim
  | inFlight bufs op =>
    have : 1 ≤ total writeTokens.op s.ops := total_pos_of_mem (w := writeTokens.op) op
    omega
  | handling n main wire accepted =>
    rw [hs] at main
    rcases List.mem_cons.mp main with heq | hj
    · obtain rfl := Instr.handleWrite.inj heq
      refine ⟨?_, fun m hm => ?_⟩
      · rw [wire, ← accepted]
        exact List.prefix_append _ _
      · obtain rfl := Except.ok.inj hm
        exact ⟨wire, accepted⟩
    · exact (hnotRest hj rfl).elim
  | failing ec main wire =>
    rw [hs] at main
    rcases List.mem_cons.mp main with heq | hj
    · obtain rfl := Instr.handleWrite.inj heq
      exact ⟨wire, fun m hm => by cases hm⟩
    · exact (hnotRest hj rfl).elim
  | stopped tokens => exact absurd tokens hload

/-- `handle_write` and the value of `flush` that its event carries. -/
theorem stage_handleWrite (h : Stream onLoop s) {r : Result}
    (hr : Ran true (.handleWrite r) s t u front) (hs : s.main = .handleWrite r :: rest)
    (hmain : t.main = front ++ rest) :
    Stage t ∧ ∀ n flush, t.main.head? = some (.fire (.onWrite n flush)) →
      (flush = true ↔ t.completed = t.accepted) := by
  obtain ⟨hwire, hdone⟩ := stage_handling h hs
  have hrest := h.invariant.heads.head (.handleWrite r) (by rw [hs]; rfl) rfl
  rw [hs, List.tail_cons] at hrest
  have hload : writeTokens.load t + 1 = writeTokens.load s + total writeTokens.instr front :=
    hr.load writeTokens
  have hle := h.tokens_le
  have hcompleted := hr.completed
  have hqueue := hr.writeBuffers
  have hwire' := hr.wire
  have haccepted' := hr.accepted
  have hflag := hr.flag
  cases hr.outcome with
  | writeFailed ec hc =>
    have hgain : total writeTokens.instr [.close ec] = 0 := rfl
    refine ⟨.stopped (by omega) (Or.inr ⟨ec, by rw [hmain]; rfl⟩) ?_, fun n flush hhead => ?_⟩
    · rwa [hwire', haccepted']
    · simp [hmain] at hhead
  | writeFlushed n hc hq =>
    obtain ⟨heq, haccepted⟩ := hdone n rfl
    obtain ⟨-, -, hnil⟩ := trim_spec h.buffers.queue n
    rw [hnil.mp hq, List.append_nil] at haccepted
    have hgain : total writeTokens.instr [.fire (.onWrite n true)] = 0 := rfl
    have hdone' : t.completed = t.accepted := by rw [hcompleted, haccepted', haccepted]
    refine ⟨.idle (by omega) (hqueue.trans hq) hdone' ?_, fun m flush hhead => ?_⟩
    · rw [hwire', haccepted', heq, haccepted]
    · simp only [hmain, List.singleton_append, List.head?_cons, Option.some.injEq,
        Instr.fire.injEq, Event.onWrite.injEq] at hhead
      exact iff_of_true hhead.2.symm hdone'
  | writeLeft n hc hq =>
    obtain ⟨heq, haccepted⟩ := hdone n rfl
    obtain ⟨-, htrim, hnil⟩ := trim_spec h.buffers.queue n
    refine ⟨.ready (Or.inl ?_) ?_ ?_, fun m flush hhead => ?_⟩
    · exact hmain ▸ List.mem_cons_of_mem _ List.mem_cons_self
    · rw [hwire', hcompleted, heq]
    · rw [hcompleted, hqueue, htrim, haccepted', haccepted]
    · simp only [hmain, List.cons_append, List.head?_cons, Option.some.injEq,
        Instr.fire.injEq, Event.onWrite.injEq] at hhead
      refine iff_of_false (by simp [← hhead.2]) fun hsame => hq (hnil.mpr ?_)
      rw [hcompleted, haccepted', ← haccepted] at hsame
      exact List.self_eq_append_right.mp hsame
  | writeLate r hc =>
    have hgain : total writeTokens.instr [] = 0 := rfl
    refine ⟨.stopped (by omega) (Or.inl (by rw [hflag, hc])) ?_, fun n flush hhead => ?_⟩
    · rwa [hwire', haccepted']
    · rw [hmain, List.nil_append] at hhead
      obtain ⟨holder, hj⟩ := hrest _ (List.mem_of_mem_head? hhead)
      cases hj

theorem stage_run (h : Stream onLoop s) (hr : Ran true i s t u front) (hs : s.main = i :: rest)
    (hmain : t.main = front ++ rest) : Stage t := by
  cases i with
  | doWrite buf => exact stage_doWrite h hr hs hmain
  | writeRemains => exact stage_writeRemains h hr hs hmain
  | writeBody => exact stage_writeBody h hr hs
  | handleWrite r => exact (stage_handleWrite h hr hs hmain).1
  | execute task => exact h.stage.passed (passed_run hr hs hmain rfl nofun)
  | _ => exact h.stage.passed (passed_run hr hs hmain rfl nofun)

theorem front_firesWrite (h : Outcome b s i u front) :
    (∀ j ∈ front.tail, Instr.firesWrite j = false) ∧
      ((∀ r, i ≠ .handleWrite r) → ∀ j ∈ front, Instr.firesWrite j = false) := by
  cases h <;> simp [Instr.firesWrite]

theorem flushes_run (h : Stream onLoop s) (hr : Ran true i s t u front) (hs : s.main = i :: rest)
    (hmain : t.main = front ++ rest) : Flushes t := by
  obtain ⟨hfrontTail, hfront⟩ := front_firesWrite hr.outcome
  have hrest := h.flushes.tail
  rw [hs, List.tail_cons] at hrest
  refine ⟨fun j hj => ?_, fun n flush hhead => ?_⟩
  · rw [hmain] at hj
    cases front with
    | nil => exact hrest j (List.mem_of_mem_tail hj)
    | cons f front =>
      rcases List.mem_append.mp hj with hj | hj
      · exact hfrontTail j hj
      · exact hrest j hj
  · by_cases hhandle : ∀ r, i ≠ .handleWrite r
    · have hj : .fire (.onWrite n flush) ∈ t.main := List.mem_of_mem_head? hhead
      rw [hmain] at hj
      have hfires : Instr.firesWrite (.fire (.onWrite n flush)) = false := by
        rcases List.mem_append.mp hj with hj | hj
        · exact hfront hhandle _ hj
        · exact hrest _ hj
      cases hfires
    · obtain ⟨r, hr'⟩ := not_forall.mp hhandle
      obtain rfl := not_not.mp hr'
      exact (stage_handleWrite h hr hs hmain).2 n flush hhead

theorem flushes_of_none (h : ∀ j ∈ t.main, Instr.firesWrite j = false) : Flushes t := by
  refine ⟨fun j hj => h j (List.mem_of_mem_tail hj), fun n flush hhead => ?_⟩
  cases h _ (List.mem_of_mem_head? hhead)

/-! ## Steps -/

theorem code_buffers (task : Task) :
    ∀ i ∈ task.code, ∀ buf ∈ Instr.buffers i, buf ∈ Task.buffers task := by
  rcases task with _ | _ | _ | (buf | _) <;> simp [Task.code, Instr.buffers, Task.buffers]

theorem stream_task (h : Stream onLoop s) (hmain : s.main = []) (htasks : s.tasks ≠ []) :
    Stream onLoop (next counters s .task) := by
  have hst := started_task hmain htasks
  have hload := hst.load writeTokens
  have hinv := hst.invariant h.invariant
  obtain ⟨task, tasks, hcons⟩ := List.exists_cons_of_ne_nil htasks
  have hnext : next counters s .task = { s with tasks, main := task.code } := by
    simp only [next, hcons]
  rw [hnext] at hload hinv ⊢
  have hbuffers := h.buffers.tasks task (by rw [hcons]; exact List.mem_cons_self)
  refine ⟨hinv, ⟨?_, h.buffers.others, ?_, h.buffers.queue⟩, ?_, flushes_of_none ?_⟩
  · exact fun i hi buf hbuf => hbuffers buf (code_buffers task i hi buf hbuf)
  · intro x hx
    exact h.buffers.tasks x (by rw [hcons]; exact List.mem_cons_of_mem _ hx)
  · refine h.stage.passed ⟨hload, rfl, rfl, rfl, rfl, by simp [hmain], fun op hop _ => hop, ?_⟩
    exact fun hclosed => Or.inl (hclosed.resolve_right (by simp [Closing, hmain]))
  · rcases task with _ | _ | _ | (buf | _) <;> simp [Task.code, Instr.firesWrite]

/-- A completed read or write; what was written is counted, the handler starts. -/
theorem stage_complete (h : Stream onLoop s) (hmain : s.main = []) {k : Nat} {op : Op}
    (hop : s.ops[k]? = some op) (r : Result) (hfull : FullCompletions s (.complete k r)) :
    Stage (next counters s (.complete k r)) := by
  have hload := load_complete counters writeTokens s k r hmain
  have herase := total_eraseIdx (w := writeTokens.op) hop
  have hle := h.tokens_le
  have hnext : next counters s (.complete k r) =
      { s with
        ops := s.ops.eraseIdx k
        main := op.handler r
        completed := s.completed ++ written op r } := by
    simp only [next, hop]
  rw [hnext] at hload ⊢
  simp only [Tokens.load, hmain, total_nil, Nat.zero_add] at hle
  cases op with
  | read =>
    refine h.stage.passed ⟨hload, rfl, rfl, List.append_nil _, rfl, by simp [hmain], ?_, ?_⟩
    · intro x hx hone
      refine mem_eraseIdx_of_ne hx fun heq => ?_
      obtain rfl := Option.some.inj (hop.symm.trans heq)
      cases hone
    · exact fun hclosed => Or.inl (hclosed.resolve_right (by simp [Closing, hmain]))
  | write bufs =>
    have hone : writeTokens.op (.write bufs) = 1 := rfl
    have hpos : writeTokens.load s ≠ 0 := by
      simp only [Tokens.load]
      omega
    cases h.stage with
    | idle tokens => exact absurd tokens hpos
    | ready main => simp [hmain] at main
    | handling n main => simp [hmain] at main
    | failing ec main => simp [hmain] at main
    | stopped tokens => exact absurd tokens hpos
    | inFlight bufs' op wire front accepted =>
      have hsame : bufs' = bufs := by
        by_contra hne
        have hmem : .write bufs' ∈ s.ops.eraseIdx k :=
          mem_eraseIdx_of_ne op fun heq => hne (by simpa [hop] using heq.symm)
        have : 1 ≤ total writeTokens.op (s.ops.eraseIdx k) :=
          total_pos_of_mem (w := writeTokens.op) hmem
        omega
      subst hsame
      obtain ⟨behind, hbehind⟩ := front
      cases r with
      | error ec =>
        refine .failing ec List.mem_cons_self ?_
        rw [wire, ← accepted, ← hbehind, ← List.append_assoc]
        exact List.prefix_append _ _
      | ok n =>
        have hn : n = bufs'.flatten.length := hfull bufs' hop
        have hnat : n.toNat = bufs'.flatten.length := by rw [hn, Int.toNat_natCast]
        have hwritten : written (.write bufs') (.ok n) = bufs'.flatten := by
          rw [written, hnat, List.take_length]
        refine .handling n List.mem_cons_self ?_ ?_
        · rw [hwritten, wire]
        · rw [hwritten, hnat, ← accepted, ← hbehind, List.drop_left, List.append_assoc]

theorem stream_complete (h : Stream onLoop s) (hmain : s.main = []) {k : Nat}
    (hk : k < s.ops.length) (r : Result) (hfull : FullCompletions s (.complete k r)) :
    Stream onLoop (next counters s (.complete k r)) := by
  have hop : s.ops[k]? = some s.ops[k] := List.getElem?_eq_getElem hk
  have hstage := stage_complete h hmain hop r hfull
  have hinv := (started_complete hmain hk r).invariant h.invariant
  have hnext : next counters s (.complete k r) =
      { s with
        ops := s.ops.eraseIdx k
        main := s.ops[k].handler r
        completed := s.completed ++ written s.ops[k] r } := by
    simp only [next, hop]
  rw [hnext] at hstage hinv ⊢
  refine ⟨hinv, ⟨?_, h.buffers.others, h.buffers.tasks, h.buffers.queue⟩, hstage,
    flushes_of_none ?_⟩
  · cases s.ops[k] <;> simp [Op.handler, Instr.buffers]
  · cases s.ops[k] <;> simp [Op.handler, Instr.firesWrite]

theorem stream_called (h : Stream onLoop s) (hcall : Called c s t) (hinv : Invariant onLoop t)
    (hmain : t.main = s.main ∨
      t.main = c.code ++ s.main ∧ (s.main = [] ∨ s.main.head? = some .callback))
    (hothers : t.others = s.others ∨ t.others = s.others ++ c.code)
    (hfull : ∀ i ∈ c.code, ∀ buf ∈ Instr.buffers i, Sendable buf) : Stream onLoop t := by
  have hsame : t.tasks = s.tasks ∧ t.writeBuffers = s.writeBuffers ∧
      t.completed = s.completed ∧ t.accepted = s.accepted := by
    rw [hcall.effect]
    cases c <;> exact ⟨rfl, rfl, rfl, rfl⟩
  obtain ⟨htasks, hqueue, hcompleted, haccepted⟩ := hsame
  refine ⟨hinv,
    ⟨fun i hi => ?_, fun i hi => ?_, htasks ▸ h.buffers.tasks, hqueue ▸ h.buffers.queue⟩,
    h.stage.passed (passed_call hcall hmain), ?_⟩
  · rcases hmain with hmain | ⟨hmain, -⟩
    · exact h.buffers.main i (hmain ▸ hi)
    · rcases List.mem_append.mp (hmain ▸ hi) with hi | hi
      · exact hfull i hi
      · exact h.buffers.main i hi
  · rcases hothers with hothers | hothers
    · exact h.buffers.others i (hothers ▸ hi)
    · rcases List.mem_append.mp (hothers ▸ hi) with hi | hi
      · exact h.buffers.others i hi
      · exact hfull i hi
  · rcases hmain with hmain | ⟨hmain, hidle⟩
    · refine ⟨hmain ▸ h.flushes.tail, fun n flush hhead => ?_⟩
      rw [hcompleted, haccepted]
      exact h.flushes.head n flush (hmain ▸ hhead)
    · refine flushes_of_none fun j hj => ?_
      rcases List.mem_append.mp (hmain ▸ hj) with hj | hj
      · cases c <;> simp [Call.code] at hj <;> rw [hj] <;> rfl
      · rcases hidle with hidle | hidle
        · simp [hidle] at hj
        · obtain ⟨tail, hs⟩ := List.head?_eq_some_iff.mp hidle
          rcases List.mem_cons.mp (hs ▸ hj) with rfl | hj
          · rfl
          · exact h.flushes.tail j (by rw [hs]; exact hj)

theorem stream_opening (onLoop : Bool) : Stream onLoop (opening counters onLoop) := by
  refine ⟨invariant_opening onLoop, ⟨?_, ?_, ?_, ?_⟩, ?_, flushes_of_none ?_⟩
  · cases onLoop <;> simp [opening, Instr.buffers]
  · cases onLoop <;> simp [opening, Instr.buffers]
  · simp [opening]
  · simp [opening]
  · cases onLoop <;> exact .idle rfl rfl rfl rfl
  · cases onLoop <;> simp [opening, Instr.firesWrite]

theorem stream_step (h : Stream onLoop s) (e : Step) (he : Enabled counters s e)
    (hfull : FullWrites s e) : Stream onLoop (next counters s e) := by
  have hinv := invariant_step h.invariant e he
  cases e with
  | run =>
    obtain ⟨i, hi, hready⟩ := he
    obtain ⟨rest, hs⟩ := List.head?_eq_some_iff.mp hi
    obtain ⟨u, front, hr, hmain, hothers⟩ := ran_run hs
    exact ⟨hinv, buffers_run h.buffers hr hs hmain hothers, stage_run h hr hs hmain,
      flushes_run h hr hs hmain⟩
  | runOther k =>
    obtain ⟨i, hi, hready⟩ := he
    obtain ⟨u, front, hr, hmain, hothers⟩ := ran_other hi
    have hon := h.invariant.threads i (List.mem_of_getElem? hi)
    have hpassed := passed_runOther hr hon hmain
    refine ⟨hinv, buffers_runOther h.buffers hr hi hmain hothers, h.stage.passed hpassed,
      hmain ▸ h.flushes.tail, fun n flush hhead => ?_⟩
    rw [hpassed.completed, hpassed.accepted]
    exact h.flushes.head n flush (hmain ▸ hhead)
  | task => exact stream_task h he.1 he.2
  | complete k r => exact stream_complete h he.1 he.2 r hfull.1
  | call c =>
    refine stream_called h ⟨he.2.2, he.2.1, by cases c <;> rfl, fun w => load_call counters w s c⟩
      hinv (Or.inr ⟨rfl, he.1⟩) (Or.inl (by cases c <;> rfl)) ?_
    cases c with
    | doWrite buf =>
      have hbuf : Sendable buf := hfull.2
      simpa [Call.code, Instr.buffers] using hbuf
    | _ => simp [Call.code, Instr.buffers]
  | callOther c =>
    refine stream_called h ⟨he.2, he.1, by cases c <;> rfl, fun w => load_callOther counters w s c⟩
      hinv (Or.inl (by cases c <;> rfl)) (Or.inr rfl) ?_
    cases c with
    | doWrite buf =>
      have hbuf : Sendable buf := hfull.2
      simpa [Call.code, Instr.buffers] using hbuf
    | _ => simp [Call.code, Instr.buffers]

theorem stream_reachable (h : (machine counters).Execution FullWrites (opening counters onLoop) s) :
    Stream onLoop s :=
  h.invariant (stream_opening onLoop) fun _ e _ hstream he hfull => stream_step hstream e he hfull

/-! ## The output of a channel -/

def Op.isWrite : Op → Bool
  | .read => false
  | .write _ => true

/-- One write at a time; each write is given what is accepted and not yet completed; what
was given to the socket begins what was accepted; `flush` tells that all of it is written. -/
structure FaithfulOutput (s : State (BitVec 32)) : Prop where
  oneWrite : (s.ops.filter Op.isWrite).length ≤ 1
  submits : s.main.head? = some .writeBody → s.wire = s.completed ∧
    s.completed ++ (writeRequest s.writeBuffers).flatten = s.accepted
  wire : s.wire <+: s.accepted
  flush : ∀ n flush, s.main.head? = some (.fire (.onWrite n flush)) →
    (flush = true ↔ s.completed = s.accepted)

theorem wire_prefix (h : Stream onLoop s) : s.wire <+: s.accepted := by
  cases h.stage with
  | idle tokens queue completed wire => exact wire ▸ List.prefix_refl _
  | ready main wire accepted => exact wire ▸ accepted ▸ List.prefix_append _ _
  | inFlight bufs op wire front accepted =>
    rw [wire, ← accepted]
    exact List.prefix_append_right_inj _ |>.mpr front
  | handling n main wire accepted => exact wire ▸ accepted ▸ List.prefix_append _ _
  | failing ec main wire => exact wire
  | stopped tokens closed wire => exact wire

theorem writes_le (ops : List Op) : (ops.filter Op.isWrite).length = total writeTokens.op ops := by
  induction ops with
  | nil => rfl
  | cons op ops ih =>
    cases op with
    | read => simpa [Op.isWrite, writeTokens] using ih
    | write bufs =>
      rw [List.filter_cons_of_pos rfl, List.length_cons, ih, total_cons, Nat.add_comm]
      rfl

/-- A block of 2^32 bytes, all of them readable: its length as an int is zero. -/
def fourGibibytes : ByteBuffer :=
  ⟨some ⟨1, 4294967296, List.replicate 4294967296 0⟩, ⟨0, 4294967296⟩⟩

theorem fourGibibytes_request :
    writeRequest [fourGibibytes] = [[]] ∧ fourGibibytes.contents.length = 4294967296 := by
  have hsize : toSize (toInt fourGibibytes.length) = 0 := by decide
  refine ⟨?_, ?_⟩
  · simp only [writeRequest, ioBuffer, hsize, List.take_zero]
  · simp only [fourGibibytes, ByteBuffer.contents, List.drop_zero, Nat.sub_zero, List.length_take,
      List.length_replicate, Nat.min_self]

/-- The channel once it is open and waits for what it is sent. -/
def waiting : State (BitVec 32) :=
  { opening word true with flag := 0x30000002#32, main := [], ops := [.read], events := [.onOpen] }

theorem waiting_execution (C : State (BitVec 32) → Step → Prop) (hrun : ∀ s, C s .run) :
    (machine word).Execution C (opening word true) waiting := by
  have hvalid : (machine word).ValidTrace (fun _ e => e = .run) (opening word true)
      (List.replicate 5 .run) := by decide +kernel
  have hstate : (machine word).runTrace (opening word true) (List.replicate 5 .run) = waiting := by
    decide +kernel
  exact hstate ▸ hvalid.execution.mono fun u e he => he ▸ hrun u

/-- The buffer is in the queue and the loop is about to give it to the socket. -/
def writing (buf : ByteBuffer) : State (BitVec 32) :=
  { waiting with main := [.writeBody], writeBuffers := [buf], accepted := buf.contents }

theorem writing_execution (C : State (BitVec 32) → Step → Prop) (buf : ByteBuffer)
    (hrun : ∀ s, C s .run) (hcall : C waiting (.call (.doWrite buf))) :
    (machine word).Execution C (opening word true) (writing buf) := by
  have hopen : word.contains .close (0x30000002#32) = true := by decide
  have hqueued : (machine word).next ((machine word).next waiting (.call (.doWrite buf))) .run =
      { writing buf with main := [.writeRemains] } := by
    simp [machine, next, exec, Call.code, Call.effect, waiting, writing, opening, hopen]
  have hready : (machine word).next { writing buf with main := [.writeRemains] } .run =
      writing buf := by
    simp [machine, next, exec, waiting, writing, hopen]
  have hrequest : (machine word).Execution C (opening word true)
      ((machine word).next waiting (.call (.doWrite buf))) :=
    .tail (waiting_execution C hrun)
      (show Enabled word waiting (.call (.doWrite buf)) from
        ⟨Or.inl rfl, ⟨rfl, List.not_mem_nil⟩, trivial⟩) hcall
  have hpushed : (machine word).Execution C (opening word true)
      { writing buf with main := [.writeRemains] } :=
    hqueued ▸ .tail hrequest (show Enabled word _ .run from ⟨.doWrite buf, rfl, trivial⟩) (hrun _)
  exact hready ▸
    .tail hpushed (show Enabled word _ .run from ⟨.writeRemains, rfl, trivial⟩) (hrun _)

/-- Three readable bytes of a block of four. -/
def threeBytes : ByteBuffer := ⟨some ⟨1, 4, [1, 2, 3, 0]⟩, ⟨0, 3⟩⟩

end ChannelStream
