import Tcode.FilterOpensslLoops

/-! # Data between two openssl_filters

Each filter has its own instructions and answers, and with them the bytes that OpenSSL takes and
gives. What one filter sends its channel brings to the other one. The channel calls
`filter_on_read` when its thread is in no call of the filter.

What OpenSSL has taken and given, and what the filter has, are bookkeeping.
-/
namespace FilterOpensslRelay

open SupportMachineInt SupportTransitionSystem BufferBlock BufferByteBuffer FilterOpenssl
open FilterOpensslLoops (mb readable)
open BufferByteBuffer.ByteBuffer

/-- What `BIO_read` and `SSL_read` put at the write position of a buffer. -/
def filled (b : ByteBuffer) (bs : List UInt8) : Option ByteBuffer := do
  let k ← b.block
  let bytes ← copyIn k.bytes b.pos.write bs bs.length
  return { b with block := some { k with bytes } }

/-- `reads` are the `mb` of those calls of `filter_on_read` that have read. -/
structure Endpoint where
  filter : FilterOpenssl.State
  reads : List ByteBuffer
  /-- Brought by the channel, and of it taken by `BIO_write`. -/
  received : List UInt8
  fed : List UInt8
  /-- Given by `SSL_read`, and of it fired. -/
  plain : List UInt8
  fired : List UInt8
  /-- Brought by the filters downstream, and of it taken by `SSL_write`. -/
  requested : List UInt8
  taken : List UInt8
  /-- Given by `BIO_read`, and of it fired. -/
  produced : List UInt8
  sent : List UInt8
  fault : Bool

def Endpoint.initial (hs : Handshake) : Endpoint :=
  ⟨FilterOpenssl.initial hs, [], [], [], [], [], [], [], [], [], false⟩

/-- What an instruction does with bytes. -/
def Endpoint.move (p : Endpoint) (a : Answer) (bs : List UInt8) : Instr → Endpoint
  | .writeRbio msg =>
    if 0 < msg.length ∧ 0 < a.len then
      { p with fed := p.fed ++ (readable msg).take a.len.toNat }
    else p
  | .writeWbio msg =>
    if 0 < msg.length ∧ 0 < a.len then
      { p with taken := p.taken ++ (readable msg).take a.len.toNat }
    else p
  | .bioRead =>
    if 0 < a.len then
      match filled mb bs with
      | none => { p with fault := true }
      | some b =>
        { p with produced := p.produced ++ bs, sent := p.sent ++ (b.wrPtr a.len).2.contents }
    else p
  | .sslRead =>
    if 0 < a.len then
      match filled mb bs with
      | none => { p with fault := true }
      | some b => { p with plain := p.plain ++ bs, reads := b :: p.reads }
    else { p with reads := mb :: p.reads }
  | .afterRead len _ =>
    match p.reads with
    | [] => { p with fault := true }
    | b :: reads =>
      if 0 < len then { p with reads, fired := p.fired ++ (b.wrPtr len).2.contents }
      else { p with reads }
  | _ => p

def Endpoint.run (p : Endpoint) (a : Answer) (bs : List UInt8) : Endpoint :=
  match p.filter.main with
  | [] => p
  | i :: _ => { p.move a bs i with filter := FilterOpenssl.next p.filter (.run a) }

def Endpoint.call (p : Endpoint) (c : Call) : Endpoint :=
  let p' := { p with filter := FilterOpenssl.next p.filter (.call c) }
  match c with
  | .filterOnOpen => p'
  | .filterOnRead buf => { p' with received := p.received ++ buf.contents }
  | .filterDoWrite buf => { p' with requested := p.requested ++ buf.contents }

inductive Side where
  | client
  | server
  deriving DecidableEq, Repr

def Side.peer : Side → Side
  | client => server
  | server => client

abbrev State := Side → Endpoint

def initial : State
  | .client => .initial .connect
  | .server => .initial .accept

/-- What the functions of OpenSSL answer: no more than they are given or have space for. If the
session has been fed with what the one of the peer gave, its data are those that the peer took. -/
def Answers (p peer : Endpoint) (a : Answer) (bs : List UInt8) : Instr → Prop
  | .writeRbio msg | .writeWbio msg => 0 < a.len → a.len ≤ toInt msg.length
  | .bioRead => 0 < a.len → (bs.length : Int) = a.len ∧ bs.length ≤ mb.space
  | .sslRead => 0 < a.len → (bs.length : Int) = a.len ∧ bs.length ≤ mb.space ∧
      (p.fed <+: peer.produced → p.plain ++ bs <+: peer.taken)
  | _ => True

inductive Event where
  | run (k : Side) (a : Answer) (bs : List UInt8)
  | call (k : Side) (c : Call)

def Enabled (s : State) : Event → Prop
  | .run k a _ => FilterOpenssl.Enabled (s k).filter (.run a)
  | .call k c => FilterOpenssl.Enabled (s k).filter (.call c)

def next (s : State) : Event → State
  | .run k a bs => Function.update s k ((s k).run a bs)
  | .call k c => Function.update s k ((s k).call c)

def machine : System State Event := ⟨Enabled, next⟩

/-- OpenSSL, the channel and the filters downstream do what the filter relies on. -/
def Documented (s : State) : Event → Prop
  | .run k a bs => ∀ i ∈ (s k).filter.main.head?, Answers (s k) (s k.peer) a bs i
  | .call _ .filterOnOpen => True
  | .call k (.filterOnRead buf) =>
    (s k).filter.main = [] ∧ buf.Valid ∧ (s k).received ++ buf.contents <+: (s k.peer).sent
  | .call _ (.filterDoWrite buf) => buf.Valid

/-! ## Buffers -/

variable {p q peer : Endpoint} {a : Answer} {bs : List UInt8} {i : Instr} {rest : List Instr}
  {msg b : ByteBuffer}

/-- The bytes are there when the write position has been moved. -/
theorem filled_spec (h : b.Valid) (hbs : bs.length ≤ b.space) :
    ∃ b' : ByteBuffer, filled b bs = some b' ∧
      (b'.wrPtr bs.length).2.contents = b.contents ++ bs := by
  obtain ⟨kb, ⟨read, write⟩⟩ := b
  obtain ⟨k, hb, hm, hr, hw, hc⟩ := h.block
  obtain rfl : kb = some k := congrArg ByteBuffer.block hb
  simp only at hr hw
  rw [space_mk hw hc] at hbs
  clear h hb
  obtain ⟨bytes, hcopy, -, hread⟩ := copyIn_spec k.bytes write (Nat.le_refl bs.length) (by omega)
  have hroom : space ⟨some { k with bytes }, ⟨read, write⟩⟩ = k.capacity - write :=
    space_mk (k := { k with bytes }) hw hc
  refine ⟨⟨some { k with bytes }, ⟨read, write⟩⟩, ?_, ?_⟩
  · simp only [filled, Option.bind_eq_bind, Option.bind_some, hcopy, Option.pure_def]
  · have hwithin : write + space ⟨some { k with bytes }, ⟨read, write⟩⟩ < 2147483648 := by
      omega
    have hmove := wrPtr_natCast ⟨some { k with bytes }, ⟨read, write⟩⟩ (n := bs.length)
      (by omega) hwithin
    have hcontents := hread read hr
    rw [List.take_length] at hcontents
    rw [hmove]
    exact hcontents

theorem filled_mb (hlen : (bs.length : Int) = a.len) (hroom : bs.length ≤ mb.space) :
    ∃ b : ByteBuffer, filled mb bs = some b ∧ (b.wrPtr a.len).2.contents = bs := by
  obtain ⟨hvalid, hempty, -⟩ := ofSize_valid (show 4096 < 2147483648 by decide)
  obtain ⟨b, hb, hcontents⟩ := filled_spec hvalid hroom
  rw [hempty, List.nil_append, hlen] at hcontents
  exact ⟨b, hb, hcontents⟩

/-- What has been taken of a buffer and what it has left are what it had. -/
theorem take_readable (h : msg.Valid) (hpos : 0 < a.len) (hle : a.len ≤ toInt msg.length) :
    (readable msg).take a.len.toNat ++ (msg.rdPtr a.len).2.contents = msg.contents ∧
      (msg.rdPtr a.len).2.Valid := by
  obtain ⟨-, hvalid, hcontents⟩ := h.rdPtr_spec (Int.le_of_lt hpos)
  have hlt := h.length_lt
  have hlen := h.length_eq
  have hint : toInt msg.length = msg.length := toInt_of_range (by omega) (by omega)
  obtain ⟨k, hb, hm, hr, hw, hc⟩ := h.block
  have hreadable : (readable msg).take a.len.toNat = msg.contents.take a.len.toNat := by
    have hblock : msg.block = some k := by rw [hb]
    have hbytes : readable msg = k.bytes.drop msg.pos.read := by
      simp [readable, fromReadPosition, hblock]
    have hmin : min a.len.toNat (msg.pos.write - msg.pos.read) = a.len.toNat := by omega
    rw [hbytes]
    simp only [contents, hblock, List.take_take, hmin]
  rw [hreadable, hcontents]
  exact ⟨List.take_append_drop _ _, hvalid⟩

/-! ## Instructions -/

/-- The buffer that an instruction still has to give to OpenSSL. -/
def buffer : Instr → Option ByteBuffer
  | .filterOnRead buf | .filterDoWrite buf | .writeRbio buf | .writeWbio buf => some buf
  | _ => none

def toBio : Instr → List UInt8
  | .filterOnRead buf | .writeRbio buf => buf.contents
  | _ => []

def toSsl : Instr → List UInt8
  | .filterDoWrite buf | .writeWbio buf => buf.contents
  | _ => []

/-- The instructions of `filter_on_read`, up to what it fires. -/
def inbound : Instr → Bool
  | .filterOnRead _ | .writeRbio _ | .sslRead | .afterRead _ _ => true
  | _ => false

def readLen : Instr → Option Int
  | .afterRead len _ => some len
  | _ => none

theorem toBio_of_buffer (h : buffer i = none) : toBio i = [] := by
  cases i with
  | filterOnRead buf => cases h
  | writeRbio buf => cases h
  | _ => rfl

theorem toSsl_of_buffer (h : buffer i = none) : toSsl i = [] := by
  cases i with
  | filterDoWrite buf => cases h
  | writeWbio buf => cases h
  | _ => rfl

theorem inbound_of_readLen {len : Int} (h : readLen i = some len) : inbound i = true := by
  cases i with
  | afterRead len' failed => rfl
  | _ => cases h

section Exec

variable (a) (i) (s : FilterOpenssl.State)

/-- Only the first of the instructions that are put before the rest has a buffer. -/
theorem exec_buffer : ∀ j ∈ (exec s a i).2.tail, buffer j = none := by
  cases i <;> simp only [exec] <;> repeat' split
  all_goals simp [buffer]

theorem exec_inbound : (exec s a i).2.countP inbound ≤ [i].countP inbound := by
  cases i <;> simp only [exec] <;> repeat' split
  all_goals simp [inbound]

theorem exec_readLen (hread : i ≠ .sslRead) (hafter : ∀ len failed, i ≠ .afterRead len failed) :
    readLen i = none ∧ (exec s a i).2.filterMap readLen = [] := by
  cases i with
  | sslRead => exact absurd rfl hread
  | afterRead len failed => exact absurd rfl (hafter len failed)
  | _ =>
    refine ⟨rfl, ?_⟩
    simp only [exec]
    repeat' split
    all_goals simp [readLen]

theorem exec_toBio (hwrite : ∀ msg, i ≠ .writeRbio msg) :
    (exec s a i).2.flatMap toBio = toBio i := by
  cases i with
  | writeRbio msg => exact absurd rfl (hwrite msg)
  | _ =>
    simp only [exec]
    repeat' split
    all_goals simp [toBio]

theorem exec_toSsl (hwrite : ∀ msg, i ≠ .writeWbio msg) :
    (exec s a i).2.flatMap toSsl = toSsl i := by
  cases i with
  | writeWbio msg => exact absurd rfl (hwrite msg)
  | _ =>
    simp only [exec]
    repeat' split
    all_goals simp [toSsl]

theorem exec_valid (h : ∀ buf ∈ buffer i, buf.Valid) :
    ∀ j ∈ (exec s a i).2, ∀ buf ∈ buffer j, buf.Valid := by
  have hmove (msg : ByteBuffer) (hmsg : msg.Valid) (hpos : ¬ a.len ≤ 0) :
      (msg.rdPtr a.len).2.Valid :=
    (hmsg.rdPtr_spec (Int.le_of_lt (Int.not_le.mp hpos))).2.1
  cases i with
  | filterOnRead buf => simpa [exec, buffer] using h
  | filterDoWrite buf => simpa [exec, buffer] using h
  | writeRbio msg =>
    have hmsg : msg.Valid := h msg rfl
    simp only [exec]
    split_ifs with _ hpos
    · simpa [buffer] using hmsg
    · simp [buffer]
    · simpa [buffer] using hmove msg hmsg hpos
    · simp [buffer]
  | writeWbio msg =>
    have hmsg : msg.Valid := h msg rfl
    simp only [exec]
    split_ifs with _ hpos
    · simp [buffer]
    · simpa [buffer] using hmsg
    · simpa [buffer] using hmove msg hmsg hpos
    · simp [buffer]
  | _ =>
    simp only [exec]
    repeat' split
    all_goals simp [buffer]

theorem exec_log : s.log ⊆ (exec s a i).1.log ∧
    ∀ ec, i = .close ec → .close ec ∈ (exec s a i).1.log := by
  cases i <;> simp only [exec] <;> repeat' split
  all_goals simp [FilterOpenssl.State.ssl]

end Exec

/-! ## One filter -/

/-- What a call that has read `len` bytes into `b` is about to fire. -/
def ahead (len : Int) (b : ByteBuffer) : List UInt8 :=
  if 0 < len then (b.wrPtr len).2.contents else []

/-- All that the calls that have read are about to fire. -/
def Endpoint.pending (p : Endpoint) : List UInt8 :=
  (List.zipWith ahead (p.filter.main.filterMap readLen) p.reads).flatten

/-- A filter has no more than one call of `filter_on_read`, and only the instruction that is next
has a buffer. -/
structure Shape (p : Endpoint) : Prop where
  tail : ∀ i ∈ p.filter.main.tail, buffer i = none
  valid : ∀ i ∈ p.filter.main, ∀ buf ∈ buffer i, buf.Valid
  single : p.filter.main.countP inbound ≤ 1
  depth : (p.filter.main.filterMap readLen).length = p.reads.length

/-- Of what is given the rest is `ahead`, unless the channel is closed with `ec`. -/
def Passes (ec : CloseError) (ahead : Instr → List UInt8) (taken given : List UInt8)
    (s : FilterOpenssl.State) : Prop :=
  .close ec ∉ s.log → taken <+: given ∧
    (s.main.head? = some (.close ec) ∨ taken ++ s.main.flatMap ahead = given)

structure Invariant (p : Endpoint) : Prop where
  shape : Shape p
  plain : p.plain = p.fired ++ p.pending
  fed : Passes .bioWrite toBio p.fed p.received p.filter
  taken : Passes .sslWrite toSsl p.taken p.requested p.filter
  sent : p.sent = p.produced
  defined : p.fault = false

theorem run_eq (a : Answer) (bs : List UInt8) (hmain : p.filter.main = i :: rest) :
    p.run a bs = { p.move a bs i with filter := FilterOpenssl.next p.filter (.run a) } := by
  simp only [Endpoint.run, hmain]

theorem run_main (a : Answer) (bs : List UInt8) (hmain : p.filter.main = i :: rest) :
    (p.run a bs).filter.main = (exec p.filter a i).2 ++ rest := by
  rw [run_eq a bs hmain]
  exact congrArg FilterOpenssl.State.main (next_run hmain)

theorem run_log (a : Answer) (bs : List UInt8) (hmain : p.filter.main = i :: rest) :
    (p.run a bs).filter.log = (exec p.filter a i).1.log := by
  rw [run_eq a bs hmain]
  have hlog := congrArg FilterOpenssl.State.log (next_run (a := a) hmain)
  exact hlog

theorem flatMap_rest {f : Instr → List UInt8} (hf : ∀ i, buffer i = none → f i = [])
    (h : ∀ i ∈ rest, buffer i = none) : rest.flatMap f = [] :=
  List.flatMap_eq_nil_iff.mpr fun i hi => hf i (h i hi)

theorem move_reads (a : Answer) (bs : List UInt8) (hread : i ≠ .sslRead) (hafter : ∀ len failed, i ≠ .afterRead len failed) :
    (p.move a bs i).reads = p.reads ∧ (p.move a bs i).plain = p.plain ∧
      (p.move a bs i).fired = p.fired := by
  cases i with
  | sslRead => exact absurd rfl hread
  | afterRead len failed => exact absurd rfl (hafter len failed)
  | _ =>
    simp only [Endpoint.move]
    repeat' split
    all_goals simp

/-- The bytes that are read are fired next. -/
theorem pending_run (h : Invariant p) (hmain : p.filter.main = i :: rest)
    (hanswer : Answers p peer a bs i) :
    ((p.run a bs).filter.main.filterMap readLen).length = (p.run a bs).reads.length ∧
      (p.run a bs).plain = (p.run a bs).fired ++ (p.run a bs).pending := by
  have hmain' := run_main a bs hmain
  have hdepth := h.shape.depth
  have hplain := h.plain
  have hsingle := h.shape.single
  have hnone (hi : inbound i = true) : rest.filterMap readLen = [] := by
    rw [hmain, List.countP_cons_of_pos hi] at hsingle
    have hrest := List.countP_eq_zero.mp (Nat.le_zero.mp (Nat.le_of_succ_le_succ hsingle))
    rw [List.filterMap_eq_nil_iff]
    intro j hj
    cases hlen : readLen j with
    | none => rfl
    | some len => exact absurd (inbound_of_readLen hlen) (hrest j hj)
  rw [Endpoint.pending] at hplain ⊢
  rw [hmain', List.filterMap_append]
  rw [hmain] at hdepth hplain
  rw [run_eq a bs hmain]
  rcases eq_or_ne i .sslRead with rfl | hread
  · have hempty : rest.filterMap readLen = [] := hnone rfl
    have hreads : p.reads = [] := by
      rw [List.filterMap_cons_none rfl, hempty] at hdepth
      exact List.eq_nil_of_length_eq_zero hdepth.symm
    have hfront : (exec p.filter a .sslRead).2.filterMap readLen = [a.len] := by
      simp only [exec]
      split <;> rfl
    rw [hreads, List.zipWith_nil_right, List.flatten_nil, List.append_nil] at hplain
    rw [hfront, hempty, List.append_nil]
    by_cases hpos : 0 < a.len
    · obtain ⟨hlen, hroom, -⟩ := hanswer hpos
      obtain ⟨b, hb, hcontents⟩ := filled_mb hlen hroom
      simp [Endpoint.move, hpos, hb, hreads, ahead, hcontents, hplain]
    · simp [Endpoint.move, hpos, hreads, ahead, hplain]
  by_cases hafter : ∃ len failed, i = .afterRead len failed
  · obtain ⟨len, failed, rfl⟩ := hafter
    have hempty : rest.filterMap readLen = [] := hnone rfl
    have hlen : readLen (.afterRead len failed) = some len := rfl
    rw [List.filterMap_cons_some hlen, hempty] at hdepth hplain
    obtain ⟨b, hreads⟩ := List.length_eq_one_iff.mp hdepth.symm
    have hfront : (exec p.filter a (.afterRead len failed)).2.filterMap readLen = [] := by
      simp only [exec]
      repeat' split
      all_goals simp [readLen]
    rw [hreads] at hplain
    rw [hfront, hempty]
    by_cases hpos : 0 < len
    · simpa [Endpoint.move, hreads, hpos, ahead] using hplain
    · simpa [Endpoint.move, hreads, hpos, ahead] using hplain
  · have hother (len : Int) (failed : Bool) : i ≠ .afterRead len failed :=
      fun heq => hafter ⟨len, failed, heq⟩
    obtain ⟨hi, hfront⟩ := exec_readLen a i p.filter hread hother
    obtain ⟨hreads, hplain', hfired⟩ := move_reads (p := p) a bs hread hother
    rw [List.filterMap_cons_none hi] at hdepth hplain
    rw [hfront, List.nil_append, hreads, hplain', hfired]
    exact ⟨hdepth, hplain⟩

/-- The instructions behind the next one have no buffer, and those of `filter_on_read` are not
doubled. -/
theorem Shape.run (h : Shape p) (hmain : p.filter.main = i :: rest)
    (hdepth : ((p.run a bs).filter.main.filterMap readLen).length = (p.run a bs).reads.length) :
    Shape (p.run a bs) := by
  have hmain' := run_main a bs hmain
  have htail := h.tail
  have hvalid := h.valid
  have hsingle := h.single
  rw [hmain] at htail hvalid hsingle
  have hrest (j : Instr) (hj : j ∈ rest) : buffer j = none := htail j hj
  constructor
  · intro j hj
    rw [hmain'] at hj
    have hfront := exec_buffer a i p.filter
    cases hcode : (exec p.filter a i).2 with
    | nil =>
      rw [hcode, List.nil_append] at hj
      exact hrest j (List.mem_of_mem_tail hj)
    | cons j' front =>
      rw [hcode, List.cons_append, List.tail_cons] at hj
      rw [hcode, List.tail_cons] at hfront
      rcases List.mem_append.mp hj with hj | hj
      · exact hfront j hj
      · exact hrest j hj
  · intro j hj
    rw [hmain'] at hj
    rcases List.mem_append.mp hj with hj | hj
    · exact exec_valid a i p.filter (hvalid i List.mem_cons_self) j hj
    · exact hvalid j (List.mem_cons_of_mem i hj)
  · rw [hmain', List.countP_append]
    have hfront := exec_inbound a i p.filter
    rw [← List.singleton_append, List.countP_append] at hsingle
    omega
  · exact hdepth

/-- A step takes of what the next instruction has, or closes the channel. -/
theorem Passes.run {s : FilterOpenssl.State} {ec : CloseError} {f : Instr → List UInt8}
    {taken taken' given : List UInt8} (h : Passes ec f taken given s)
    (hmain : s.main = i :: rest) (hf : ∀ j, buffer j = none → f j = [])
    (htail : ∀ j ∈ rest, buffer j = none)
    (hstep : (exec s a i).2.head? = some (.close ec) ∧ taken' = taken ∨
      taken' ++ (exec s a i).2.flatMap f = taken ++ f i) :
    Passes ec f taken' given (FilterOpenssl.next s (.run a)) := by
  rw [next_run hmain]
  intro hlog
  obtain ⟨hsub, hclose⟩ := exec_log a i s
  obtain ⟨hbegins, hrest⟩ := h fun hin => hlog (hsub hin)
  have hequal : taken ++ f i = given := by
    rcases hrest with hhead | hequal
    · rw [hmain, List.head?_cons] at hhead
      exact absurd (hclose ec (Option.some.inj hhead)) hlog
    · rw [hmain, List.flatMap_cons, flatMap_rest hf htail, List.append_nil] at hequal
      exact hequal
  rcases hstep with ⟨hhead, rfl⟩ | hstep
  · refine ⟨hbegins, Or.inl ?_⟩
    obtain ⟨front, hfront⟩ := List.head?_eq_some_iff.mp hhead
    simp only [hfront, List.cons_append, List.head?_cons]
  · have hgiven : taken' ++ ((exec s a i).2 ++ rest).flatMap f = given := by
      rw [List.flatMap_append, flatMap_rest hf htail, List.append_nil, hstep, hequal]
    exact ⟨hgiven ▸ List.prefix_append _ _, Or.inr hgiven⟩

theorem run_data (a : Answer) (bs : List UInt8) (hmain : p.filter.main = i :: rest) :
    (p.run a bs).filter = FilterOpenssl.next p.filter (.run a) ∧
      (p.run a bs).received = p.received ∧ (p.run a bs).requested = p.requested ∧
      ((∀ msg, i ≠ .writeRbio msg) → (p.run a bs).fed = p.fed) ∧
      ((∀ msg, i ≠ .writeWbio msg) → (p.run a bs).taken = p.taken) := by
  rw [run_eq a bs hmain]
  cases i with
  | writeRbio msg =>
    simp only [Endpoint.move]
    split <;> simp
  | writeWbio msg =>
    simp only [Endpoint.move]
    split <;> simp
  | _ =>
    simp only [Endpoint.move]
    repeat' split
    all_goals simp

theorem contents_of_length (h : msg.Valid) (hlength : ¬ 0 < msg.length) : msg.contents = [] :=
  List.eq_nil_of_length_eq_zero (h.contents_length.trans (Nat.eq_zero_of_not_pos hlength))

theorem fed_run (h : Invariant p) (hmain : p.filter.main = i :: rest)
    (hanswer : Answers p peer a bs i) :
    Passes .bioWrite toBio (p.run a bs).fed (p.run a bs).received (p.run a bs).filter := by
  obtain ⟨hfilter, hreceived, -, hfed, -⟩ := run_data a bs hmain
  have htail := h.shape.tail
  rw [hmain, List.tail_cons] at htail
  rw [hfilter, hreceived]
  apply h.fed.run hmain (fun j => toBio_of_buffer) htail
  by_cases hwrite : ∃ msg, i = .writeRbio msg
  · obtain ⟨msg, rfl⟩ := hwrite
    have hvalid : msg.Valid := h.shape.valid _ (hmain ▸ List.mem_cons_self) msg rfl
    rw [run_eq a bs hmain]
    simp only [exec, Endpoint.move, toBio]
    by_cases hlength : 0 < msg.length
    · by_cases hpos : 0 < a.len
      · have htake := (take_readable hvalid hpos (hanswer hpos)).1
        right
        simp [hlength, hpos, Int.not_le.mpr hpos, toBio, htake]
      · by_cases hretry : a.shouldRetry = true
        · right
          simp [hlength, hpos, Int.not_lt.mp hpos, hretry, toBio]
        · left
          simp [hlength, hpos, Int.not_lt.mp hpos, hretry]
    · right
      simp [hlength, toBio, contents_of_length hvalid hlength]
  · have hother (msg : ByteBuffer) : i ≠ .writeRbio msg := fun heq => hwrite ⟨msg, heq⟩
    right
    rw [hfed hother, exec_toBio a i p.filter hother]

theorem taken_run (h : Invariant p) (hmain : p.filter.main = i :: rest)
    (hanswer : Answers p peer a bs i) :
    Passes .sslWrite toSsl (p.run a bs).taken (p.run a bs).requested (p.run a bs).filter := by
  obtain ⟨hfilter, -, hrequested, -, htaken⟩ := run_data a bs hmain
  have htail := h.shape.tail
  rw [hmain, List.tail_cons] at htail
  rw [hfilter, hrequested]
  apply h.taken.run hmain (fun j => toSsl_of_buffer) htail
  by_cases hwrite : ∃ msg, i = .writeWbio msg
  · obtain ⟨msg, rfl⟩ := hwrite
    have hvalid : msg.Valid := h.shape.valid _ (hmain ▸ List.mem_cons_self) msg rfl
    rw [run_eq a bs hmain]
    by_cases hlength : 0 < msg.length
    · by_cases hpos : 0 < a.len
      · have htake := (take_readable hvalid hpos (hanswer hpos)).1
        right
        simp [exec, Endpoint.move, hlength, hpos, Int.not_le.mpr hpos, toSsl, htake]
      · by_cases hfatal : isFatalError a.error = true
        · left
          simp [exec, Endpoint.move, hlength, hpos, Int.not_lt.mp hpos, hfatal]
        · right
          simp [exec, Endpoint.move, hlength, hpos, Int.not_lt.mp hpos, hfatal, toSsl]
    · right
      simp [exec, Endpoint.move, hlength, toSsl, contents_of_length hvalid hlength]
  · have hother (msg : ByteBuffer) : i ≠ .writeWbio msg := fun heq => hwrite ⟨msg, heq⟩
    right
    rw [htaken hother, exec_toSsl a i p.filter hother]

/-- What `BIO_read` gives is fired, and every buffer has space for what is put into it. -/
theorem sent_run (h : Invariant p) (hmain : p.filter.main = i :: rest)
    (hanswer : Answers p peer a bs i) :
    (p.run a bs).sent = (p.run a bs).produced ∧ (p.run a bs).fault = false := by
  have hsent := h.sent
  have hdefined := h.defined
  rw [run_eq a bs hmain]
  cases i with
  | bioRead =>
    by_cases hpos : 0 < a.len
    · obtain ⟨hlen, hroom⟩ := hanswer hpos
      obtain ⟨b, hb, hcontents⟩ := filled_mb hlen hroom
      simp [Endpoint.move, hpos, hb, hcontents, hsent, hdefined]
    · simp [Endpoint.move, hpos, hsent, hdefined]
  | sslRead =>
    by_cases hpos : 0 < a.len
    · obtain ⟨hlen, hroom, -⟩ := hanswer hpos
      obtain ⟨b, hb, hcontents⟩ := filled_mb hlen hroom
      simp [Endpoint.move, hpos, hb, hsent, hdefined]
    · simp [Endpoint.move, hpos, hsent, hdefined]
  | afterRead len failed =>
    have hdepth := h.shape.depth
    have hlen : readLen (.afterRead len failed) = some len := rfl
    rw [hmain, List.filterMap_cons_some hlen, List.length_cons] at hdepth
    obtain ⟨b, reads, hreads⟩ := List.exists_cons_of_length_pos (by omega : 0 < p.reads.length)
    simp only [Endpoint.move, hreads]
    split <;> exact ⟨hsent, hdefined⟩
  | writeRbio msg =>
    simp only [Endpoint.move]
    split <;> exact ⟨hsent, hdefined⟩
  | writeWbio msg =>
    simp only [Endpoint.move]
    split <;> exact ⟨hsent, hdefined⟩
  | _ => exact ⟨hsent, hdefined⟩

theorem invariant_run (h : Invariant p) (hmain : p.filter.main = i :: rest)
    (hanswer : Answers p peer a bs i) : Invariant (p.run a bs) := by
  obtain ⟨hdepth, hplain⟩ := pending_run h hmain hanswer
  obtain ⟨hsent, hdefined⟩ := sent_run h hmain hanswer
  exact ⟨h.shape.run hmain hdepth, hplain, fed_run h hmain hanswer, taken_run h hmain hanswer,
    hsent, hdefined⟩

/-! ## Calls -/

theorem call_filter (p : Endpoint) (c : Call) :
    (p.call c).filter = FilterOpenssl.next p.filter (.call c) ∧ (p.call c).reads = p.reads ∧
      (p.call c).plain = p.plain ∧ (p.call c).fired = p.fired ∧ (p.call c).fed = p.fed ∧
      (p.call c).taken = p.taken ∧ (p.call c).produced = p.produced ∧
      (p.call c).sent = p.sent ∧ (p.call c).fault = p.fault := by
  cases c with
  | filterOnOpen => exact ⟨rfl, rfl, rfl, rfl, rfl, rfl, rfl, rfl, rfl⟩
  | filterOnRead buf => exact ⟨rfl, rfl, rfl, rfl, rfl, rfl, rfl, rfl, rfl⟩
  | filterDoWrite buf => exact ⟨rfl, rfl, rfl, rfl, rfl, rfl, rfl, rfl, rfl⟩

/-- A filter that may be called has nothing that waits for OpenSSL. -/
theorem Passes.call {s : FilterOpenssl.State} {ec : CloseError} {f : Instr → List UInt8}
    {taken given : List UInt8} {c : Call} (h : Passes ec f taken given s)
    (hidle : ∀ j ∈ s.main, buffer j = none) (hf : ∀ j, buffer j = none → f j = [])
    (hcall : s.main = [] ∨ s.main.head? = some .callback) :
    Passes ec f taken (given ++ f c.code) (FilterOpenssl.next s (.call c)) := by
  intro hlog
  obtain ⟨hbegins, hrest⟩ := h hlog
  have hequal : taken = given := by
    rcases hrest with hhead | hequal
    · rcases hcall with hnil | hcallback
      · rw [hnil] at hhead
        cases hhead
      · rw [hcallback] at hhead
        cases hhead
    · rw [flatMap_rest hf hidle, List.append_nil] at hequal
      exact hequal
  refine ⟨hbegins.trans (List.prefix_append _ _), Or.inr ?_⟩
  show taken ++ (c.code :: s.main).flatMap f = given ++ f c.code
  rw [List.flatMap_cons, flatMap_rest hf hidle, List.append_nil, hequal]

theorem invariant_call {c : Call} (h : Invariant p)
    (hcall : p.filter.main = [] ∨ p.filter.main.head? = some .callback)
    (hbuf : ∀ buf ∈ buffer c.code, buf.Valid)
    (hread : ∀ buf, c = .filterOnRead buf → p.filter.main = []) : Invariant (p.call c) := by
  obtain ⟨hfilter, hreads, hplain, hfired, hfed, htaken, hproduced, hsent, hfault⟩ :=
    call_filter p c
  have hmain : (p.call c).filter.main = c.code :: p.filter.main := by
    rw [hfilter]
    rfl
  have hidle (j : Instr) (hj : j ∈ p.filter.main) : buffer j = none := by
    rcases hcall with hnil | hcallback
    · rw [hnil] at hj
      cases hj
    · obtain ⟨rest, hrest⟩ := List.head?_eq_some_iff.mp hcallback
      have htail := h.shape.tail
      rw [hrest] at hj htail
      rcases List.mem_cons.mp hj with rfl | hj
      · rfl
      · exact htail j hj
  have hcode : readLen c.code = none := by cases c <;> rfl
  have hlens : (p.call c).filter.main.filterMap readLen = p.filter.main.filterMap readLen := by
    rw [hmain, List.filterMap_cons_none hcode]
  constructor
  · constructor
    · rw [hmain]
      exact hidle
    · intro j hj
      rw [hmain] at hj
      rcases List.mem_cons.mp hj with rfl | hj
      · exact hbuf
      · exact h.shape.valid j hj
    · rw [hmain]
      cases c with
      | filterOnRead buf =>
        rw [hread buf rfl]
        exact Nat.le_refl 1
      | filterOnOpen => exact h.shape.single
      | filterDoWrite buf => exact h.shape.single
    · rw [hlens, hreads]
      exact h.shape.depth
  · rw [hplain, hfired, Endpoint.pending, hlens, hreads]
    exact h.plain
  · have hpasses := h.fed.call (c := c) hidle (fun j => toBio_of_buffer) hcall
    rw [hfed, hfilter]
    cases c with
    | filterOnRead buf => exact hpasses
    | filterOnOpen =>
      rw [show toBio Call.filterOnOpen.code = [] from rfl, List.append_nil] at hpasses
      exact hpasses
    | filterDoWrite buf =>
      rw [show toBio (Call.filterDoWrite buf).code = [] from rfl, List.append_nil] at hpasses
      exact hpasses
  · have hpasses := h.taken.call (c := c) hidle (fun j => toSsl_of_buffer) hcall
    rw [htaken, hfilter]
    cases c with
    | filterDoWrite buf => exact hpasses
    | filterOnOpen =>
      rw [show toSsl Call.filterOnOpen.code = [] from rfl, List.append_nil] at hpasses
      exact hpasses
    | filterOnRead buf =>
      rw [show toSsl (Call.filterOnRead buf).code = [] from rfl, List.append_nil] at hpasses
      exact hpasses
  · rw [hsent, hproduced]
    exact h.sent
  · rw [hfault]
    exact h.defined

/-! ## Both filters -/

variable {s : State} {k : Side} {e : Event}

theorem Side.peer_ne (k : Side) : k.peer ≠ k := by cases k <;> decide

theorem Side.eq_peer {j k : Side} (h : j ≠ k) : j = k.peer := by
  cases j <;> cases k <;> first | rfl | exact absurd rfl h

@[simp] theorem Side.peer_peer (k : Side) : k.peer.peer = k := by cases k <;> rfl

/-- What the filters have of each other. -/
structure Linked (p peer : Endpoint) : Prop where
  received : p.received <+: peer.sent
  plain : .close .bioWrite ∉ p.filter.log → p.plain <+: peer.taken

structure Joined (s : State) : Prop where
  each : ∀ k, Invariant (s k)
  linked : ∀ k, Linked (s k) (s k.peer)

/-- What goes out of a filter only becomes more. -/
theorem run_grows (p : Endpoint) (a : Answer) (bs : List UInt8) :
    p.sent <+: (p.run a bs).sent ∧ p.taken <+: (p.run a bs).taken ∧
      (p.run a bs).received = p.received ∧ p.filter.log ⊆ (p.run a bs).filter.log := by
  cases hmain : p.filter.main with
  | nil =>
    have hrun : p.run a bs = p := by simp only [Endpoint.run, hmain]
    rw [hrun]
    exact ⟨List.prefix_rfl, List.prefix_rfl, rfl, List.Subset.refl _⟩
  | cons i rest =>
    obtain ⟨-, hreceived, -⟩ := run_data a bs hmain
    refine ⟨?_, ?_, hreceived, ?_⟩
    · rw [run_eq a bs hmain]
      cases i <;> simp only [Endpoint.move] <;> repeat' split
      all_goals simp
    · rw [run_eq a bs hmain]
      cases i <;> simp only [Endpoint.move] <;> repeat' split
      all_goals simp
    · rw [run_log a bs hmain]
      exact (exec_log a i p.filter).1

/-- Only `SSL_read` gives more data. -/
theorem run_plain (a : Answer) (bs : List UInt8) (hmain : p.filter.main = i :: rest) :
    (p.run a bs).plain = p.plain ∨ i = .sslRead ∧ 0 < a.len ∧ (p.run a bs).plain = p.plain ++ bs := by
  rw [run_eq a bs hmain]
  cases i with
  | sslRead =>
    simp only [Endpoint.move]
    repeat' split
    all_goals simp_all
  | _ =>
    left
    simp only [Endpoint.move]
    repeat' split
    all_goals rfl

theorem Joined.update (h : Joined s) {k : Side} (hq : Invariant q) (hself : Linked q (s k.peer))
    (hpeer : Linked (s k.peer) q) : Joined (Function.update s k q) := by
  have hk : Function.update s k q k = q := Function.update_self ..
  have hother : Function.update s k q k.peer = s k.peer := Function.update_of_ne k.peer_ne ..
  constructor
  · intro j
    by_cases hj : j = k
    · rw [hj, hk]
      exact hq
    · rw [Function.update_of_ne hj]
      exact h.each j
  · intro j
    by_cases hj : j = k
    · rw [hj, hk, hother]
      exact hself
    · rw [Side.eq_peer hj, Side.peer_peer, hk, hother]
      exact hpeer

/-- A session that is fed with what its peer gave gives what its peer took. -/
theorem joined_run (h : Joined s) (hmain : (s k).filter.main = i :: rest)
    (hanswer : Answers (s k) (s k.peer) a bs i) :
    Joined (Function.update s k ((s k).run a bs)) := by
  have hlinked := h.linked k
  have hpeer := h.linked k.peer
  rw [Side.peer_peer] at hpeer
  obtain ⟨hsent, htaken, hreceived, hlog⟩ := run_grows (s k) a bs
  apply h.update (invariant_run (h.each k) hmain hanswer)
  · constructor
    · rw [hreceived]
      exact hlinked.received
    · intro hopen
      have hclose : .close .bioWrite ∉ (s k).filter.log := fun hin => hopen (hlog hin)
      rcases run_plain a bs hmain with hplain | ⟨rfl, hpos, hplain⟩
      · rw [hplain]
        exact hlinked.plain hclose
      · rw [hplain]
        apply (hanswer hpos).2.2
        rw [← (h.each k.peer).sent]
        exact ((h.each k).fed hclose).1.trans hlinked.received
  · exact ⟨hpeer.received.trans hsent, fun hopen => (hpeer.plain hopen).trans htaken⟩

theorem joined_next (h : Joined s) (he : Enabled s e) (hdocumented : Documented s e) :
    Joined (next s e) := by
  cases e with
  | run k a bs =>
    obtain ⟨i, hi, -⟩ := he
    obtain ⟨rest, hmain⟩ := List.head?_eq_some_iff.mp hi
    exact joined_run h hmain (hdocumented i hi)
  | call k c =>
    obtain ⟨hfilter, -, hplain, -, -, htaken, -, hsent, -⟩ := call_filter (s k) c
    have hlinked := h.linked k
    have hpeer := h.linked k.peer
    rw [Side.peer_peer] at hpeer
    have hlog : ((s k).call c).filter.log = (s k).filter.log := by
      rw [hfilter]
      rfl
    have hreceived : ((s k).call c).received <+: (s k.peer).sent := by
      cases c with
      | filterOnRead buf => exact hdocumented.2.2
      | filterOnOpen => exact hlinked.received
      | filterDoWrite buf => exact hlinked.received
    apply h.update
    · apply invariant_call (h.each k) he
      · cases c with
        | filterOnRead buf => simpa [Call.code, buffer] using hdocumented.2.1
        | filterOnOpen => simp [Call.code, buffer]
        | filterDoWrite buf =>
          have hvalid : buf.Valid := hdocumented
          simpa [Call.code, buffer] using hvalid
      · rintro buf rfl
        exact hdocumented.1
    · exact ⟨hreceived, by rw [hlog, hplain]; exact hlinked.plain⟩
    · exact ⟨hsent ▸ hpeer.received, htaken ▸ hpeer.plain⟩

theorem joined_initial : Joined initial := by
  have heach (hs : Handshake) : Invariant (.initial hs) := by
    constructor
    · exact ⟨fun i hi => absurd hi List.not_mem_nil, fun i hi => absurd hi List.not_mem_nil,
        Nat.zero_le _, rfl⟩
    · rfl
    · exact fun _ => ⟨List.prefix_rfl, Or.inr rfl⟩
    · exact fun _ => ⟨List.prefix_rfl, Or.inr rfl⟩
    · rfl
    · rfl
  constructor
  · intro k
    cases k with
    | client => exact heach .connect
    | server => exact heach .accept
  · intro k
    cases k with
    | client => exact ⟨List.prefix_rfl, fun _ => List.prefix_rfl⟩
    | server => exact ⟨List.prefix_rfl, fun _ => List.prefix_rfl⟩

/-- A filter between its channel, its session and the filters downstream. It holds nothing back
when no call of it is left; what it has taken and not passed on is lost only with the channel. -/
structure Relayed (p peer : Endpoint) : Prop where
  defined : p.fault = false
  sent : p.sent = p.produced
  fired : p.fired <+: p.plain ∧ (p.filter.main = [] → p.fired = p.plain)
  fed : .close .bioWrite ∉ p.filter.log →
    p.fed <+: p.received ∧ (p.filter.main = [] → p.fed = p.received)
  taken : .close .sslWrite ∉ p.filter.log →
    p.taken <+: p.requested ∧ (p.filter.main = [] → p.taken = p.requested)
  /-- What the filters downstream get is what those of the peer gave. -/
  order : .close .bioWrite ∉ p.filter.log → .close .sslWrite ∉ peer.filter.log →
    p.fired <+: peer.requested

theorem Passes.spec {s : FilterOpenssl.State} {ec : CloseError} {f : Instr → List UInt8}
    {taken given : List UInt8} (h : Passes ec f taken given s) (hlog : .close ec ∉ s.log) :
    taken <+: given ∧ (s.main = [] → taken = given) := by
  obtain ⟨hbegins, hrest⟩ := h hlog
  refine ⟨hbegins, fun hidle => ?_⟩
  rcases hrest with hhead | hequal
  · rw [hidle] at hhead
    cases hhead
  · rw [hidle, List.flatMap_nil, List.append_nil] at hequal
    exact hequal

/-- However OpenSSL answers and however the calls come: what one filter fires is what the other
was given, in order. -/
theorem relays_faithfully (h : machine.Execution Documented initial s) (k : Side) :
    Relayed (s k) (s k.peer) := by
  have hjoined : Joined s := h.invariant joined_initial
    fun u e _ hu he hdocumented => joined_next hu he hdocumented
  have hself := hjoined.each k
  have hfired : (s k).fired <+: (s k).plain := hself.plain ▸ List.prefix_append _ _
  refine ⟨hself.defined, hself.sent, ⟨hfired, fun hidle => ?_⟩, hself.fed.spec, hself.taken.spec,
    fun hself' hpeer => ?_⟩
  · have hplain := hself.plain
    rw [Endpoint.pending, hidle, List.filterMap_nil, List.zipWith_nil_left, List.flatten_nil,
      List.append_nil] at hplain
    exact hplain.symm
  · exact (hfired.trans ((hjoined.linked k).plain hself')).trans
      ((hjoined.each k.peer).taken hpeer).1

instance (b : ByteBuffer) : Decidable b.Valid :=
  decidable_of_iff (b.block.isSome ∧ (∀ k ∈ b.block, k.bytes.length = k.capacity) ∧
      b.pos.read ≤ b.pos.write ∧ b.pos.write ≤ b.capacity ∧ b.capacity < 2147483648)
    ⟨fun h => ⟨h.1, h.2.1, h.2.2.1, h.2.2.2.1, h.2.2.2.2⟩,
      fun h => ⟨h.has_block, h.memory, h.read_le, h.write_le, h.capacity_lt⟩⟩

instance (p peer : Endpoint) (a : Answer) (bs : List UInt8) :
    ∀ i : Instr, Decidable (Answers p peer a bs i)
  | .writeRbio _ | .writeWbio _ | .bioRead => inferInstanceAs (Decidable (_ → _))
  | .sslRead => inferInstanceAs (Decidable (_ → _ ∧ _ ∧ (_ → _)))
  | .filterOnOpen | .filterOnRead _ | .filterDoWrite _ | .beginHandshake | .endHandshake _
  | .setComplete | .sendPending | .afterRead _ _ | .close _ | .callback => isTrue trivial

instance (s : State) : ∀ e : Event, Decidable (Documented s e)
  | .run k a bs =>
    inferInstanceAs (Decidable (∀ i ∈ (s k).filter.main.head?, Answers (s k) (s k.peer) a bs i))
  | .call _ .filterOnOpen => isTrue trivial
  | .call _ (.filterOnRead _) => inferInstanceAs (Decidable (_ ∧ _ ∧ _))
  | .call _ (.filterDoWrite buf) => inferInstanceAs (Decidable buf.Valid)

instance (s : State) : ∀ e : Event, Decidable (machine.Enabled s e)
  | .run k a _ => inferInstanceAs (Decidable (FilterOpenssl.Enabled (s k).filter (.run a)))
  | .call k c => inferInstanceAs (Decidable (FilterOpenssl.Enabled (s k).filter (.call c)))

def record (bs : List UInt8) : ByteBuffer := ⟨some ⟨1, bs.length, bs⟩, ⟨0, bs.length⟩⟩

/-- A step whose call into OpenSSL, if it makes one, returns no data. -/
def idle (k : Side) (pending finished : Bool) : Event :=
  .run k ⟨-1, .wantRead, pending, false, finished⟩ []

def data (k : Side) (bs : List UInt8) (finished : Bool) : Event :=
  .run k ⟨bs.length, .none, false, false, finished⟩ bs

/-- A handshake, from which the client is called again to write. -/
def exchange : List Event :=
  [.call .client .filterOnOpen, idle .client false false, idle .client false false,
    idle .client true false, data .client [1] false, idle .client false false,
    idle .client false false,
    .call .server .filterOnOpen, idle .server false false, idle .server false false,
    idle .server false false,
    .call .server (.filterOnRead (record [1])), idle .server false false, data .server [1] false,
    idle .server false false, idle .server false true, idle .server false true,
    idle .server false true, idle .server false true, idle .server false true,
    idle .server true true, data .server [2] true, idle .server false true,
    idle .server false true,
    .call .client (.filterOnRead (record [2])), idle .client false false, data .client [2] false,
    idle .client false false, idle .client false true, idle .client false true,
    .call .client (.filterDoWrite (record [7, 8])), idle .client false true,
    data .client [7, 8] true, idle .client false true, idle .client true true,
    data .client [3] true, idle .client false true, idle .client false true,
    idle .client false true, idle .client false true, idle .client false true,
    idle .client false true,
    .call .server (.filterOnRead (record [3])), idle .server false true, data .server [3] true,
    idle .server false true, data .server [7, 8] true, idle .server false true,
    idle .server false true, idle .server false true, idle .server false true,
    idle .server false true]

theorem relays_faithfully_exchange :
    let s := machine.runTrace initial exchange
    (s .server).fired = [7, 8] ∧ (s .client).filter.main = [] ∧ (s .server).filter.main = [] ∧
      Relayed (s .server) (s .client) := by
  have hvalid : machine.ValidTrace Documented initial exchange := by decide +kernel
  exact ⟨by decide +kernel, by decide +kernel, by decide +kernel,
    relays_faithfully hvalid.execution .server⟩

end FilterOpensslRelay
