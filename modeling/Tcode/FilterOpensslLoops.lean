import Mathlib.Algebra.GroupWithZero.Nat
import Mathlib.Data.Prod.Lex
import Tcode.FilterOpenssl
import Tcode.SupportIteration

/-! # The loops of openssl_filter

OpenSSL is what its calls answer and do to a session. The filter runs by itself: a step is the
next instruction, with the answer that OpenSSL gives to it, or a call that a filter downstream
makes from what was fired. Each loop either gets on with the bytes that it moves or tries the same
call again.
-/
namespace FilterOpensslLoops

open SupportMachineInt SupportIteration BufferByteBuffer FilterOpenssl

/-- What a call returns, what `SSL_get_error` answers to it, and the session behind it. -/
structure Reply (σ : Type) where
  len : Int
  error : SslError
  session : σ

/-- A session with its two memory BIOs. -/
structure OpenSsl (σ : Type) where
  /-- `SSL_set_accept_state` and `SSL_set_connect_state`. -/
  sslSetState : Handshake → σ → σ
  sslRead : σ → Nat → Reply σ
  sslWrite : σ → List UInt8 → Int → Reply σ
  /-- `BIO_read( _wbio , .. )`. -/
  bioRead : σ → Nat → Reply σ
  /-- `BIO_write( _rbio , .. )`. -/
  bioWrite : σ → List UInt8 → Int → Reply σ
  /-- `BIO_ctrl_pending( _wbio )`. -/
  bioCtrlPending : σ → Nat
  /-- `BIO_should_retry( _rbio )`. -/
  bioShouldRetry : σ → Bool
  sslIsInitFinished : σ → Bool

/-- `unread` bounds how often `SSL_read` returns data before more is put into the read BIO. An
`SSL_write` that is to be retried, and a `BIO_write` of nothing, get the same answer again. -/
structure Documented {σ : Type} (ssl : OpenSsl σ) (unread : σ → Nat) : Prop where
  sslRead_unread : ∀ x n, unread (ssl.sslRead x n).session ≤ unread x
  sslRead_data : ∀ x n, 0 < (ssl.sslRead x n).len → unread (ssl.sslRead x n).session < unread x
  sslWrite_unread : ∀ x bs n, unread (ssl.sslWrite x bs n).session ≤ unread x
  sslWrite_atMost : ∀ x bs n, 0 < (ssl.sslWrite x bs n).len → (ssl.sslWrite x bs n).len ≤ n
  sslWrite_retry : ∀ x bs n, (ssl.sslWrite x bs n).len ≤ 0 →
    isFatalError (ssl.sslWrite x bs n).error = false →
    let again := ssl.sslWrite (ssl.sslWrite x bs n).session bs n
    again.len = (ssl.sslWrite x bs n).len ∧ again.error = (ssl.sslWrite x bs n).error
  bioRead_unread : ∀ x n, unread (ssl.bioRead x n).session ≤ unread x
  bioRead_pending : ∀ x n, ssl.bioCtrlPending (ssl.bioRead x n).session ≤ ssl.bioCtrlPending x
  bioRead_data : ∀ x n, 0 < (ssl.bioRead x n).len →
    ssl.bioCtrlPending (ssl.bioRead x n).session < ssl.bioCtrlPending x
  bioWrite_accepts : ∀ x bs n, 0 < n → 0 < (ssl.bioWrite x bs n).len
  bioWrite_atMost : ∀ x bs n, 0 < (ssl.bioWrite x bs n).len → (ssl.bioWrite x bs n).len ≤ n
  bioWrite_retry : ∀ x bs n, n ≤ 0 → ssl.bioShouldRetry (ssl.bioWrite x bs n).session = true →
    ssl.bioShouldRetry (ssl.bioWrite (ssl.bioWrite x bs n).session bs n).session = true

variable {σ : Type} {ssl : OpenSsl σ} {unread : σ → Nat}

def OpenSsl.answer (ssl : OpenSsl σ) (r : Reply σ) : Answer :=
  ⟨r.len, r.error, decide (0 < ssl.bioCtrlPending r.session), ssl.bioShouldRetry r.session,
    ssl.sslIsInitFinished r.session⟩

/-- `tcode::byte_buffer mb( 4096 )`. -/
def mb : ByteBuffer := .ofSize 4096

/-- The bytes from the read position on. -/
def readable (msg : ByteBuffer) : List UInt8 := msg.fromReadPosition.getD []

/-- The call that an instruction makes. One that makes none leaves the session as it is. -/
def OpenSsl.reply (ssl : OpenSsl σ) (s : State) (x : σ) : Instr → Reply σ
  | .filterOnOpen => ⟨0, .none, ssl.sslSetState s.handshake x⟩
  | .beginHandshake => ssl.sslRead x 0
  | .bioRead => ssl.bioRead x mb.space
  | .writeRbio msg =>
    if 0 < msg.length then ssl.bioWrite x (readable msg) (toInt msg.length) else ⟨0, .none, x⟩
  | .writeWbio msg =>
    if 0 < msg.length then ssl.sslWrite x (readable msg) (toInt msg.length) else ⟨0, .none, x⟩
  | .sslRead => ssl.sslRead x mb.space
  | .filterOnRead _ | .filterDoWrite _ | .endHandshake _ | .setComplete | .sendPending
  | .afterRead _ _ | .close _ | .callback => ⟨0, .none, x⟩

/-- The filter, the session, and what the filters downstream do each time one of them is called:
call the filter, or return. -/
structure Config (σ : Type) where
  state : State
  session : σ
  downstream : List (Option Call)

def step (ssl : OpenSsl σ) (p : Config σ) : Config σ :=
  match p.state.main with
  | [] => p
  | i :: _ =>
    match i, p.downstream with
    | .callback, some c :: more => ⟨next p.state (.call c), p.session, more⟩
    | .callback, more => ⟨next p.state (.run (ssl.answer ⟨0, .none, p.session⟩)), p.session,
        more.tail⟩
    | i, more =>
      let r := ssl.reply p.state p.session i
      ⟨next p.state (.run (ssl.answer r)), r.session, more⟩

def Done (p : Config σ) : Prop := p.state.main = []

/-- The filter is called and gets to the end of all that it was in. -/
def Terminates (ssl : OpenSsl σ) (p : Config σ) (c : Call) : Prop :=
  Reaches (step ssl) Done { p with state := next p.state (.call c) }

/-- The loop is about to try again: `SSL_write` has an answer that is not fatal, or `BIO_write`
is given a length that is not positive as an `int`. -/
def Retries (ssl : OpenSsl σ) (x : σ) : Instr → Prop
  | .writeWbio msg =>
    let r := ssl.sslWrite x (readable msg) (toInt msg.length)
    0 < msg.length ∧ r.len ≤ 0 ∧ isFatalError r.error = false
  | .writeRbio msg =>
    let r := ssl.bioWrite x (readable msg) (toInt msg.length)
    0 < msg.length ∧ toInt msg.length ≤ 0 ∧ ssl.bioShouldRetry r.session = true
  | _ => False

def Stuck (ssl : OpenSsl σ) (p : Config σ) : Prop :=
  ∃ i ∈ p.state.main.head?, Retries ssl p.session i

/-! ## What is left to do -/

def rbioBytes : Instr → Nat
  | .filterOnOpen => 1
  | .filterOnRead msg | .writeRbio msg => msg.length
  | _ => 0

def wbioBytes : Instr → Nat
  | .filterDoWrite msg | .writeWbio msg => msg.length
  | _ => 0

/-- Whether an instruction leads to an `SSL_read` that may return no data. -/
def lastRead : Instr → Nat
  | .beginHandshake | .filterOnRead _ | .writeRbio _ | .sslRead => 1
  | .afterRead len _ => if len ≤ 0 then 0 else 1
  | _ => 0

/-- How many instructions follow when no byte is moved. -/
def steps : Instr → Nat
  | .filterOnOpen | .beginHandshake | .sslRead => 0
  | .callback | .setComplete | .close _ | .writeRbio _ => 1
  | .filterOnRead _ => 2
  | .endHandshake _ => 3
  | .bioRead => 5
  | .sendPending => 6
  | .afterRead _ _ | .writeWbio _ => 7
  | .filterDoWrite _ => 8

def total (w : Instr → Nat) (main : List Instr) : Nat := (main.map w).sum

abbrev Rank := Nat ×ₗ Nat ×ₗ Nat ×ₗ Nat ×ₗ Nat ×ₗ Nat ×ₗ Nat

/-- Every call puts work on the stack, `BIO_write` makes room for more data, `SSL_read` and
`SSL_write` make room for more records, and so on. -/
def rank (ssl : OpenSsl σ) (unread : σ → Nat) (p : Config σ) : Rank :=
  toLex (p.downstream.length, toLex (total rbioBytes p.state.main, toLex (unread p.session,
    toLex (total wbioBytes p.state.main, toLex (total lastRead p.state.main,
      toLex (ssl.bioCtrlPending p.session, total steps p.state.main))))))

@[simp] theorem total_nil (w : Instr → Nat) : total w [] = 0 := rfl

@[simp] theorem total_cons (w : Instr → Nat) (i : Instr) (main : List Instr) :
    total w (i :: main) = w i + total w main := rfl

@[simp] theorem total_append (w : Instr → Nat) (main more : List Instr) :
    total w (main ++ more) = total w main + total w more := by
  rw [total, List.map_append, List.sum_append]
  rfl

/-- Reading what has been written takes it off the length, whatever the positions are. -/
theorem length_rdPtr {msg : ByteBuffer} {len : Int} (hpos : 0 < len)
    (hle : len ≤ toInt msg.length) : (msg.rdPtr len).2.length + len.toNat = msg.length := by
  have hmove : min len (toInt msg.length) = len := Int.min_eq_left hle
  have hint : toInt msg.length ≤ msg.length := by
    unfold toInt
    omega
  simp only [ByteBuffer.rdPtr, if_pos (Int.le_of_lt hpos), hmove]
  simp only [ByteBuffer.length, toSize] at hint hle ⊢
  omega

/-- What an instruction leaves to do is less, with the bytes of the first kind counting most. -/
def Lowers (ssl : OpenSsl σ) (unread : σ → Nat) (i : Instr) (x : σ) (front : List Instr) (y : σ) :
    Prop :=
  toLex (total rbioBytes front, toLex (unread y, toLex (total wbioBytes front,
      toLex (total lastRead front, toLex (ssl.bioCtrlPending y, total steps front))))) <
    toLex (rbioBytes i, toLex (unread x, toLex (wbioBytes i,
      toLex (lastRead i, toLex (ssl.bioCtrlPending x, steps i)))))

theorem lowers_iff {i : Instr} {x y : σ} {front : List Instr} :
    Lowers ssl unread i x front y ↔
      total rbioBytes front < rbioBytes i ∨ total rbioBytes front = rbioBytes i ∧
        (unread y < unread x ∨ unread y = unread x ∧
          (total wbioBytes front < wbioBytes i ∨ total wbioBytes front = wbioBytes i ∧
            (total lastRead front < lastRead i ∨ total lastRead front = lastRead i ∧
              (ssl.bioCtrlPending y < ssl.bioCtrlPending x ∨
                ssl.bioCtrlPending y = ssl.bioCtrlPending x ∧ total steps front < steps i)))) := by
  simp only [Lowers, Prod.Lex.toLex_lt_toLex]

/-- An instruction that is not about to try again leaves less to do. -/
theorem exec_lowers (h : Documented ssl unread) (s : State) {x : σ} {i : Instr} {r : Reply σ}
    {a : Answer} (hr : ssl.reply s x i = r) (ha : ssl.answer r = a) (hi : ¬ Retries ssl x i) :
    Lowers ssl unread i x (exec s a i).2 r.session := by
  have hlen : a.len = r.len := by rw [← ha, OpenSsl.answer]
  have herror : a.error = r.error := by rw [← ha, OpenSsl.answer]
  have hretry : a.shouldRetry = ssl.bioShouldRetry r.session := by rw [← ha, OpenSsl.answer]
  rw [lowers_iff]
  cases i with
  | filterOnOpen => exact Or.inl Nat.zero_lt_one
  | filterOnRead _ | filterDoWrite _ | setComplete | close _ | callback =>
    simp [← hr, exec, OpenSsl.reply, rbioBytes, wbioBytes, lastRead, steps]
  | endHandshake | sendPending =>
    simp only [← hr, exec, OpenSsl.reply]
    split_ifs <;> simp [rbioBytes, wbioBytes, lastRead, steps]
  | beginHandshake =>
    have hunread := h.sslRead_unread x 0
    rw [show ssl.sslRead x 0 = r from hr] at hunread
    simp only [exec]
    split_ifs <;> simp [rbioBytes, wbioBytes, lastRead] <;> omega
  | bioRead =>
    have hunread := h.bioRead_unread x mb.space
    have hpending := h.bioRead_pending x mb.space
    have hdata := h.bioRead_data x mb.space
    rw [show ssl.bioRead x mb.space = r from hr] at hunread hpending hdata
    simp only [exec]
    split_ifs <;> simp [rbioBytes, wbioBytes, lastRead, steps] <;> omega
  | writeRbio msg =>
    simp only [exec]
    by_cases hmsg : 0 < msg.length
    · have haccepts := h.bioWrite_accepts x (readable msg) (toInt msg.length)
      have hmost := h.bioWrite_atMost x (readable msg) (toInt msg.length)
      rw [OpenSsl.reply, if_pos hmsg] at hr
      rw [hr] at haccepts hmost
      rw [if_pos hmsg]
      split_ifs with hshort hagain
      · exact absurd ⟨hmsg, by omega, by rw [hr, ← hretry, hagain]⟩ hi
      · simp [rbioBytes, hmsg]
      · have hmove := length_rdPtr (Int.not_le.mp hshort) (hlen ▸ hmost (by omega))
        simp only [total_cons, total_nil, rbioBytes]
        omega
    · rw [OpenSsl.reply, if_neg hmsg] at hr
      simp only [← hr, if_neg hmsg, total_cons, total_nil, rbioBytes, wbioBytes, lastRead, steps,
        true_and]
      omega
  | writeWbio msg =>
    simp only [exec]
    by_cases hmsg : 0 < msg.length
    · have hunread := h.sslWrite_unread x (readable msg) (toInt msg.length)
      have hmost := h.sslWrite_atMost x (readable msg) (toInt msg.length)
      have hnot : ¬ (_ ∧ _ ∧ _) := hi
      rw [OpenSsl.reply, if_pos hmsg] at hr
      rw [hr] at hunread hmost hnot
      rw [if_pos hmsg]
      split_ifs with hshort hfatal
      · simp only [total_cons, total_nil, rbioBytes, wbioBytes, true_and]
        omega
      · exact absurd ⟨hmsg, by omega, by rw [← herror, Bool.eq_false_iff.mpr hfatal]⟩ hnot
      · have hmove := length_rdPtr (Int.not_le.mp hshort) (hlen ▸ hmost (by omega))
        simp only [total_cons, total_nil, rbioBytes, wbioBytes, true_and]
        omega
    · rw [OpenSsl.reply, if_neg hmsg] at hr
      simp only [← hr, if_neg hmsg, total_cons, total_nil, rbioBytes, wbioBytes, lastRead, steps,
        true_and]
      omega
  | sslRead =>
    have hunread := h.sslRead_unread x mb.space
    have hdata := h.sslRead_data x mb.space
    rw [show ssl.sslRead x mb.space = r from hr] at hunread hdata
    simp only [exec]
    split_ifs <;>
      simp only [total_cons, total_nil, rbioBytes, wbioBytes, lastRead, true_and] <;>
      split_ifs <;> omega
  | afterRead len failed =>
    simp only [← hr, exec, OpenSsl.reply]
    split_ifs with hshort hfailed <;> simp [hshort, rbioBytes, wbioBytes, lastRead, steps]

theorem rank_lt {p q : Config σ} {i : Instr} {front rest : List Instr}
    (hdown : q.downstream.length ≤ p.downstream.length) (hp : p.state.main = i :: rest)
    (hq : q.state.main = front ++ rest) (h : Lowers ssl unread i p.session front q.session) :
    rank ssl unread q < rank ssl unread p := by
  rw [lowers_iff] at h
  simp only [rank, Prod.Lex.toLex_lt_toLex, hp, hq, total_append, total_cons]
  omega

/-- The next instruction with its answer, where no filter downstream makes a call. -/
theorem step_run (ssl : OpenSsl σ) {p : Config σ} {i : Instr} {rest : List Instr}
    (hmain : p.state.main = i :: rest)
    (hcall : i = .callback → ∀ c more, p.downstream ≠ some c :: more) :
    let r := ssl.reply p.state p.session i
    (step ssl p).session = r.session ∧
      (step ssl p).state.main = (exec p.state (ssl.answer r) i).2 ++ rest ∧
      (step ssl p).downstream <:+ p.downstream := by
  cases i with
  | callback =>
    cases hdown : p.downstream with
    | nil => simp [step, hmain, hdown, next_run hmain, OpenSsl.reply, exec]
    | cons c more =>
      cases c with
      | none => simp [step, hmain, hdown, next_run hmain, OpenSsl.reply, exec]
      | some c => exact absurd hdown (hcall rfl c more)
  | filterOnOpen | filterOnRead _ | filterDoWrite _ | beginHandshake | endHandshake _
  | setComplete | sendPending | bioRead | writeRbio _ | writeWbio _ | sslRead | afterRead _ _
  | close _ => simp [step, hmain, next_run hmain]

/-- A filter downstream calls from what was fired. -/
theorem step_call {p : Config σ} {rest : List Instr} {c : Call} {more : List (Option Call)}
    (hmain : p.state.main = .callback :: rest) (hdown : p.downstream = some c :: more) :
    step ssl p = ⟨next p.state (.call c), p.session, more⟩ := by
  simp only [step, hmain, hdown]

theorem rank_step (h : Documented ssl unread) (p : Config σ) (hdone : ¬ Done p)
    (hstuck : ¬ Stuck ssl p) : rank ssl unread (step ssl p) < rank ssl unread p := by
  obtain ⟨i, rest, hmain⟩ := List.exists_cons_of_ne_nil hdone
  have hretries : ¬ Retries ssl p.session i := fun hi => hstuck ⟨i, by simp [hmain], hi⟩
  by_cases hcall : ∃ c more, i = .callback ∧ p.downstream = some c :: more
  · obtain ⟨c, more, rfl, hdown⟩ := hcall
    rw [step_call hmain hdown, rank, rank, hdown]
    exact Prod.Lex.toLex_lt_toLex.mpr (Or.inl (Nat.lt_succ_self _))
  · have hcall' : i = .callback → ∀ c more, p.downstream ≠ some c :: more :=
      fun hi c more hdown => hcall ⟨c, more, hi, hdown⟩
    obtain ⟨hsession, hmain', hdown⟩ := step_run ssl hmain hcall'
    refine rank_lt hdown.length_le hmain hmain' ?_
    rw [hsession]
    exact exec_lowers h p.state rfl rfl hretries

/-- Nothing gets the loop away from a call that is to be tried again. -/
theorem stuck_step (h : Documented ssl unread) (p : Config σ) (hstuck : Stuck ssl p) :
    ¬ Done p ∧ Stuck ssl (step ssl p) := by
  obtain ⟨i, hi, hretries⟩ := hstuck
  obtain ⟨rest, hmain⟩ := List.head?_eq_some_iff.mp hi
  refine ⟨fun hdone => List.cons_ne_nil _ _ (hmain.symm.trans hdone), ?_⟩
  cases i with
  | writeWbio msg =>
    obtain ⟨hmsg, hlen, hfatal⟩ := hretries
    obtain ⟨hsession, hmain', -⟩ := step_run ssl hmain (by simp)
    obtain ⟨hlen', herror'⟩ := h.sslWrite_retry _ _ _ hlen hfatal
    have hreply : ssl.reply p.state p.session (.writeWbio msg) =
        ssl.sslWrite p.session (readable msg) (toInt msg.length) := if_pos hmsg
    rw [hreply] at hsession hmain'
    refine ⟨.writeWbio msg, ?_, hmsg, ?_, ?_⟩
    · rw [hmain']
      simp [exec, hmsg, OpenSsl.answer, hlen, hfatal]
    · rw [hsession, hlen']
      exact hlen
    · rw [hsession, herror']
      exact hfatal
  | writeRbio msg =>
    obtain ⟨hmsg, hsize, hretry⟩ := hretries
    obtain ⟨hsession, hmain', -⟩ := step_run ssl hmain (by simp)
    have hmost := h.bioWrite_atMost p.session (readable msg) (toInt msg.length)
    have hreply : ssl.reply p.state p.session (.writeRbio msg) =
        ssl.bioWrite p.session (readable msg) (toInt msg.length) := if_pos hmsg
    rw [hreply] at hsession hmain'
    have hlen : (ssl.bioWrite p.session (readable msg) (toInt msg.length)).len ≤ 0 := by omega
    refine ⟨.writeRbio msg, ?_, hmsg, hsize, ?_⟩
    · rw [hmain']
      simp [exec, hmsg, OpenSsl.answer, hlen, hretry]
    · rw [hsession]
      exact h.bioWrite_retry _ _ _ hsize hretry
  | filterOnOpen | filterOnRead _ | filterDoWrite _ | beginHandshake | endHandshake _
  | setComplete | sendPending | bioRead | sslRead | afterRead _ _ | close _ | callback =>
    exact absurd hretries id

theorem progress (h : Documented ssl unread) :
    Progress (step ssl) Done (Stuck ssl) (rank ssl unread) where
  rests p hdone := by
    have hmain : p.state.main = [] := hdone
    simpa only [step, hmain] using hdone
  sticks := stuck_step h
  decreases := rank_step h

/-- A call comes to its end exactly if no loop in it has to try again. -/
theorem terminates_iff (h : Documented ssl unread) (p : Config σ) (c : Call) :
    Terminates ssl p c ↔
      ∀ n, ¬ Stuck ssl ((step ssl)^[n] { p with state := next p.state (.call c) }) :=
  (progress h).reaches_iff _

/-! ## Reading without a write in between -/

/-- The instructions of a `filter_on_read` of fewer than 2^31 bytes. -/
def Reading : Instr → Prop
  | .filterDoWrite _ | .writeWbio _ => False
  | .filterOnRead msg | .writeRbio msg => msg.length < 2147483648
  | _ => True

/-- Nothing in the configuration writes. -/
structure OnlyReads (p : Config σ) : Prop where
  reading : ∀ i ∈ p.state.main, Reading i
  quiet : ∀ d ∈ p.downstream, d = none

theorem exec_reading (h : Documented ssl unread) (s : State) (x : σ) {i : Instr}
    (hi : Reading i) : ∀ j ∈ (exec s (ssl.answer (ssl.reply s x i)) i).2, Reading j := by
  cases i with
  | filterDoWrite | writeWbio => exact absurd hi id
  | writeRbio msg =>
    have hmost := h.bioWrite_atMost x (readable msg) (toInt msg.length)
    simp only [exec]
    split_ifs with hmsg hshort hagain
    · simpa using hi
    · simp [Reading]
    · have hlen : (ssl.answer (ssl.reply s x (.writeRbio msg))).len =
          (ssl.bioWrite x (readable msg) (toInt msg.length)).len := by
        rw [OpenSsl.reply, if_pos hmsg, OpenSsl.answer]
      rw [hlen] at hshort ⊢
      have hmove := length_rdPtr (Int.not_le.mp hshort) (hmost (Int.not_le.mp hshort))
      have hlong : msg.length < 2147483648 := hi
      simp only [List.mem_singleton, forall_eq, Reading]
      omega
    · simp [Reading]
  | filterOnRead msg => simpa [exec, Reading] using hi
  | filterOnOpen | setComplete | close _ | callback => simp [exec, Reading]
  | beginHandshake | endHandshake | sendPending | bioRead | sslRead | afterRead =>
    simp only [exec]
    split_ifs <;> simp [Reading]

theorem OnlyReads.step {p : Config σ} (h : Documented ssl unread) (hp : OnlyReads p) :
    OnlyReads (step ssl p) := by
  by_cases hdone : Done p
  · have hmain : p.state.main = [] := hdone
    rwa [FilterOpensslLoops.step, hmain]
  · obtain ⟨i, rest, hmain⟩ := List.exists_cons_of_ne_nil hdone
    have hcall : i = .callback → ∀ c more, p.downstream ≠ some c :: more := by
      intro _ c more hdown
      exact absurd (hp.quiet (some c) (hdown ▸ List.mem_cons_self)) (Option.some_ne_none c)
    obtain ⟨-, hmain', hdown⟩ := step_run ssl hmain hcall
    obtain ⟨hi, hrest⟩ := List.forall_mem_cons.mp (hmain ▸ hp.reading)
    refine ⟨fun j hj => ?_, fun d hd => hp.quiet d (hdown.subset hd)⟩
    rw [hmain'] at hj
    rcases List.mem_append.mp hj with hj | hj
    · exact exec_reading h _ _ hi j hj
    · exact hrest j hj

theorem OnlyReads.not_stuck {p : Config σ} (hp : OnlyReads p) : ¬ Stuck ssl p := by
  rintro ⟨i, hi, hretries⟩
  have hreading := hp.reading i (List.mem_of_mem_head? hi)
  cases i with
  | writeRbio msg =>
    obtain ⟨hmsg, hsize, -⟩ := hretries
    have hlong : msg.length < 2147483648 := hreading
    rw [toInt_of_range (by omega) (by omega)] at hsize
    omega
  | writeWbio _ => exact hreading
  | filterOnOpen | filterOnRead _ | filterDoWrite _ | beginHandshake | endHandshake _
  | setComplete | sendPending | bioRead | sslRead | afterRead _ _ | close _ | callback =>
    exact hretries

/-- `filter_on_read` comes to its end where no filter downstream writes from what it fires. -/
theorem filterOnRead_terminates (h : Documented ssl unread) {p : Config σ} (hdone : Done p)
    (hquiet : ∀ d ∈ p.downstream, d = none) {buf : ByteBuffer} (hbuf : buf.length < 2147483648) :
    Terminates ssl p (.filterOnRead buf) := by
  have hmain : p.state.main = [] := hdone
  have hstart : OnlyReads { p with state := next p.state (.call (.filterOnRead buf)) } := by
    refine ⟨?_, hquiet⟩
    simpa [next, Call.code, hmain, Reading] using hbuf
  exact (progress h).reaches _ fun n =>
    (iterate_mem (fun _ hp => hp.step h) (n := 0) hstart (Nat.zero_le n)).not_stuck

/-! ## A session before and after its handshake -/

/-- The session is the number of bytes in the write BIO. -/
def memorySession (finished : Bool) : OpenSsl Nat where
  sslSetState _ x := x
  sslRead x _ := ⟨-1, .wantRead, x⟩
  sslWrite x _ n :=
    if n ≤ 0 then ⟨-1, .ssl, x⟩
    else if finished then ⟨n, .none, x + n.toNat⟩
    else ⟨-1, .wantRead, x⟩
  bioRead x n := ⟨if x = 0 then -1 else min x n, .wantRead, x - n⟩
  bioWrite x _ n := ⟨max 0 n, .none, x⟩
  bioCtrlPending x := x
  bioShouldRetry _ := false
  sslIsInitFinished _ := finished

theorem memorySession_documented (finished : Bool) :
    Documented (memorySession finished) fun _ => 0 where
  sslRead_unread _ _ := Nat.le_refl 0
  sslRead_data _ _ hlen := absurd hlen (Int.not_lt.mpr (Int.negSucc_le_zero 0))
  sslWrite_unread _ _ _ := Nat.le_refl 0
  sslWrite_atMost x bs n hlen := by
    simp only [memorySession] at hlen ⊢
    split_ifs at hlen ⊢
    · exact absurd hlen (Int.not_lt.mpr (Int.negSucc_le_zero 0))
    · exact Int.le_refl n
    · exact absurd hlen (Int.not_lt.mpr (Int.negSucc_le_zero 0))
  sslWrite_retry x bs n hlen hfatal := by
    simp only [memorySession] at hlen hfatal ⊢
    split_ifs at hlen hfatal ⊢
    · exact ⟨rfl, rfl⟩
    · exact absurd hlen ‹_›
    · exact ⟨rfl, rfl⟩
  bioRead_unread _ _ := Nat.le_refl 0
  bioRead_pending x n := Nat.sub_le x n
  bioRead_data x n hlen := by
    simp only [memorySession] at hlen ⊢
    split_ifs at hlen
    · exact absurd hlen (Int.not_lt.mpr (Int.negSucc_le_zero 0))
    · omega
  bioWrite_accepts x bs n hn := by
    simp only [memorySession]
    omega
  bioWrite_atMost x bs n hlen := by
    simp only [memorySession] at hlen ⊢
    omega
  bioWrite_retry x bs n hn hretry := hretry

/-- A finished session takes what it is given. -/
theorem memorySession_not_stuck (p : Config Nat) : ¬ Stuck (memorySession true) p := by
  rintro ⟨i, -, hretries⟩
  cases i with
  | writeWbio msg =>
    obtain ⟨-, hlen, hfatal⟩ := hretries
    simp only [memorySession] at hlen hfatal
    split_ifs at hlen hfatal
    · exact Bool.noConfusion hfatal
    · exact absurd hlen ‹_›
  | writeRbio msg => exact Bool.noConfusion hretries.2.2
  | filterOnOpen | filterOnRead _ | filterDoWrite _ | beginHandshake | endHandshake _
  | setComplete | sendPending | bioRead | sslRead | afterRead _ _ | close _ | callback =>
    exact hretries

def threeBytes : ByteBuffer := ⟨some ⟨1, 4, [1, 2, 3, 0]⟩, ⟨0, 3⟩⟩

/-- An open connection that is written to, and once more from what the filter fires. -/
theorem terminates_iff_openConnection :
    let p : Config Nat := ⟨{ initial .complete with finished := true }, 0,
      [some (.filterDoWrite threeBytes)]⟩
    Documented (memorySession true) (fun _ => 0) ∧
      Terminates (memorySession true) p (.filterDoWrite threeBytes) :=
  ⟨memorySession_documented true,
    (terminates_iff (memorySession_documented true) _ _).mpr fun _ => memorySession_not_stuck _⟩

/-- A write before the handshake is finished is tried again for ever. -/
theorem writeBeforeHandshake_not_terminates :
    ¬ ∀ (σ : Type) (ssl : OpenSsl σ) (unread : σ → Nat), Documented ssl unread →
      ∀ (p : Config σ) (c : Call), Terminates ssl p c := by
  intro h
  have hdoc := memorySession_documented false
  let p : Config Nat := ⟨initial .connect, 0, []⟩
  have hends := h Nat (memorySession false) _ hdoc p (.filterDoWrite threeBytes)
  have hstuck : Stuck (memorySession false) ((step (memorySession false))^[1]
      { p with state := next p.state (.call (.filterDoWrite threeBytes)) }) :=
    ⟨.writeWbio threeBytes, rfl, by decide, by decide, by decide⟩
  exact ((progress hdoc).reaches_iff _).mp hends 1 hstuck

end FilterOpensslLoops
