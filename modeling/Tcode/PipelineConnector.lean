import Tcode.SupportHistory
import Tcode.SupportMachineInt
import Tcode.SupportTransitionSystem

/-! # pipeline_connector

A socket is here no more than whether its engine is null, which it is after the socket was moved
from. The timer may tick at any time. `connect` and `connect_sequence` are called when no attempt
is in progress. A code of zero is success.

`succeeded` and `log` are bookkeeping.
-/
namespace PipelineConnector

open SupportHistory SupportMachineInt SupportTransitionSystem

abbrev ErrorCode := Int

/-- What is done to sockets, whether their engine was there, and what is reported. -/
inductive Event (α : Type) where
  | sequence (addrs : List α)
  | connect (engine : Bool) (addr : Option α)
  | close (engine : Bool)
  | opened (addr : Option α)
  | onError (ec : ErrorCode) (addr : Option α)
  deriving DecidableEq, Repr

structure State (α : Type) where
  /-- The engine of `_fd` is not null. -/
  engine : Bool
  address : List α
  currentAddressIndex : Int
  timeout : Int
  connectInProgress : Bool
  connectTime : Int
  succeeded : Bool
  log : List (Event α)
  deriving DecidableEq, Repr

variable {α : Type}

def initial : State α := ⟨true, [], 0, 60000000, false, 0, false, []⟩

/-- `_address[_current_address_index]`. -/
def State.current (s : State α) : Option α :=
  if 0 ≤ s.currentAddressIndex then s.address[s.currentAddressIndex.toNat]? else none

def State.record (s : State α) (e : Event α) : State α := { s with log := s.log ++ [e] }

/-- `do_connect()` when the clock reads `now`. -/
def doConnect (now : Int) (s : State α) : State α :=
  { s with
    connectInProgress := true
    connectTime := now
    log := s.log ++ [.connect s.engine s.current] }

def connectSequence (addrs : List α) (wait now : Int) (s : State α) : State α :=
  doConnect now
    { s with
      timeout := wait
      address := addrs
      currentAddressIndex := 0
      log := s.log ++ [.sequence addrs] }

/-- The index is an int, and the size a size_t. -/
def State.nextIndex (s : State α) : Int :=
  toInt (toSize (s.currentAddressIndex + 1) % s.address.length : Nat)

/-- The end of `handle_connect`: the attempt has failed. -/
def failed (ec : ErrorCode) (doContinue : Bool) (now : Int) (s : State α) : State α :=
  let s := (s.record (.close s.engine)).record (.onError ec s.current)
  let s := { s with currentAddressIndex := s.nextIndex }
  if doContinue then doConnect now s else s

/-- `handle_connect`, with the answers of `build` and `do_continue`. -/
def handleConnect (ec : ErrorCode) (build doContinue : Bool) (now : Int) (s : State α) : State α :=
  let s := { s with connectInProgress := false }
  if ec = 0 then
    -- The socket is moved into the channel.
    let channelEngine := s.engine
    let s := { s with engine := false }
    if build then { s.record (.opened s.current) with succeeded := true }
    -- The channel's destructor closes its socket.
    else failed ec doContinue now (s.record (.close channelEngine))
  else failed ec doContinue now s

def onTimer (ec : ErrorCode) (now : Int) (s : State α) : State α :=
  if ec ≠ 0 then s
  else if s.connectInProgress ∧ s.connectTime + s.timeout < now then s.record (.close s.engine)
  else s

inductive Step (α : Type) where
  | connect (addr : α) (wait now : Int)
  | connectSequence (addrs : List α) (wait now : Int)
  | handleConnect (ec : ErrorCode) (build doContinue : Bool) (now : Int)
  | onTimer (ec : ErrorCode) (now : Int)
  | timeout (timeout : Int)
  deriving DecidableEq, Repr

def Enabled (s : State α) : Step α → Prop
  | .connect _ _ _ => s.connectInProgress = false
  | .connectSequence addrs _ _ => s.connectInProgress = false ∧ addrs ≠ []
  | .handleConnect _ _ _ _ => s.connectInProgress = true
  | .onTimer _ _ | .timeout _ => True

def next (s : State α) : Step α → State α
  | .connect addr wait now => connectSequence [addr] wait now s
  | .connectSequence addrs wait now => connectSequence addrs wait now s
  | .handleConnect ec build doContinue now => handleConnect ec build doContinue now s
  | .onTimer ec now => onTimer ec now s
  | .timeout timeout => { s with timeout }

def machine (α : Type) : System (State α) (Step α) := ⟨Enabled, next⟩

instance [DecidableEq α] (s : State α) : ∀ e : Step α, Decidable (Enabled s e)
  | .connect _ _ _ => inferInstanceAs (Decidable (s.connectInProgress = false))
  | .connectSequence _ _ _ => inferInstanceAs (Decidable (_ ∧ _))
  | .handleConnect _ _ _ _ => inferInstanceAs (Decidable (s.connectInProgress = true))
  | .onTimer _ _ | .timeout _ => isTrue trivial

instance [DecidableEq α] (s : State α) (e : Step α) : Decidable ((machine α).Enabled s e) :=
  inferInstanceAs (Decidable (Enabled s e))

/-! ## What is to hold -/

/-- The current list of addresses and the number of attempts made with it. -/
def attempts (log : List (Event α)) : List α × Nat :=
  log.foldl (fun acc e =>
    match e with
    | .sequence addrs => (addrs, 0)
    | .connect _ _ => (acc.1, acc.2 + 1)
    | .close _ | .opened _ | .onError _ _ => acc) ([], 0)

/-- The address of an attempt, by its number, in cyclic order. -/
def cyclic (addrs : List α) (attempt : Nat) : Option α := addrs[attempt % addrs.length]?

/-- Sockets are alive, addresses come in turn, and failures are reported as such. -/
def Sound (before : List (Event α)) : Event α → Prop
  | .sequence _ => True
  | .connect engine addr =>
    engine = true ∧ addr.isSome ∧ addr = cyclic (attempts before).1 (attempts before).2
  | .close engine => engine = true
  | .opened addr => addr.isSome ∧ addr = cyclic (attempts before).1 ((attempts before).2 - 1)
  | .onError ec addr =>
    ec ≠ 0 ∧ addr.isSome ∧ addr = cyclic (attempts before).1 ((attempts before).2 - 1)

structure Truthful (s : State α) : Prop where
  log : Justified Sound s.log
  index : s.address ≠ [] →
    0 ≤ s.currentAddressIndex ∧ s.currentAddressIndex < s.address.length

/-- A pipeline that is built, no call after that, and a list whose indices an int holds. -/
def Clean (s : State α) : Step α → Prop
  | .connect _ _ _ => s.succeeded = false
  | .connectSequence addrs _ _ => s.succeeded = false ∧ addrs.length < 2147483648
  | .handleConnect ec build _ _ => ec = 0 → build = true
  | .onTimer _ _ | .timeout _ => True

instance (s : State α) : ∀ e : Step α, Decidable (Clean s e)
  | .connect _ _ _ => inferInstanceAs (Decidable (s.succeeded = false))
  | .connectSequence _ _ _ => inferInstanceAs (Decidable (_ ∧ _))
  | .handleConnect _ _ _ _ => inferInstanceAs (Decidable (_ → _))
  | .onTimer _ _ | .timeout _ => isTrue trivial

variable {s : State α} {ec : ErrorCode} {build doContinue : Bool} {now wait : Int}
  {addrs : List α} {log : List (Event α)}

theorem attempts_snoc (e : Event α) : attempts (log ++ [e]) =
    match e with
    | .sequence addrs => (addrs, 0)
    | .connect _ _ => ((attempts log).1, (attempts log).2 + 1)
    | .close _ | .opened _ | .onError _ _ => attempts log := by
  simp only [attempts, List.foldl_append, List.foldl_cons, List.foldl_nil]

/-- The index is that of an attempt of the current list. -/
structure Points (s : State α) (attempt : Nat) : Prop where
  nonEmpty : s.address ≠ []
  short : s.address.length < 2147483648
  index : s.currentAddressIndex = (attempt % s.address.length : Nat)

theorem Points.inside {attempt : Nat} (h : Points s attempt) :
    attempt % s.address.length < s.address.length :=
  Nat.mod_lt _ (List.length_pos_iff.mpr h.nonEmpty)

theorem Points.current {attempt : Nat} (h : Points s attempt) :
    s.current = cyclic s.address attempt ∧ s.current.isSome := by
  have hcurrent : s.current = s.address[attempt % s.address.length]? := by
    rw [State.current, h.index, if_pos (Int.natCast_nonneg _), Int.toNat_natCast]
  exact ⟨hcurrent, by rw [hcurrent, List.getElem?_eq_getElem h.inside]; rfl⟩

theorem Points.nextIndex {attempt : Nat} (h : Points s attempt) :
    s.nextIndex = ((attempt + 1) % s.address.length : Nat) := by
  have hinside := h.inside
  have hshort := h.short
  have hsize : toSize (s.currentAddressIndex + 1) = attempt % s.address.length + 1 := by
    rw [h.index]
    unfold toSize
    omega
  have hmod : (attempt % s.address.length + 1) % s.address.length =
      (attempt + 1) % s.address.length := Nat.mod_add_mod _ _ _
  have hlt : (attempt + 1) % s.address.length < s.address.length :=
    Nat.mod_lt _ (List.length_pos_iff.mpr h.nonEmpty)
  rw [State.nextIndex, hsize, hmod]
  exact toInt_of_range (by omega) (by omega)

theorem Points.range {attempt : Nat} (h : Points s attempt) :
    0 ≤ s.currentAddressIndex ∧ s.currentAddressIndex < s.address.length := by
  have hinside := h.inside
  rw [h.index]
  omega

structure Invariant (s : State α) : Prop where
  log : Justified Sound s.log
  list : (attempts s.log).1 = s.address
  engine : s.engine = !s.succeeded
  progress : s.connectInProgress = true → s.succeeded = false ∧
    ∃ attempt, (attempts s.log).2 = attempt + 1 ∧ Points s attempt
  points : s.address ≠ [] → ∃ attempt, Points s attempt

theorem invariant_initial : Invariant (initial : State α) :=
  ⟨justified_nil, rfl, rfl, nofun, fun h => absurd rfl h⟩

/-- The attempt that is next is made on a live socket. -/
theorem doConnect_invariant (hlog : Justified Sound s.log) (hlist : (attempts s.log).1 = s.address)
    (hengine : s.engine = true) (hsucceeded : s.succeeded = false)
    (hpoints : Points s (attempts s.log).2) : Invariant (doConnect now s) := by
  obtain ⟨hcurrent, hsome⟩ := hpoints.current
  have hpoints' : Points (doConnect now s) (attempts s.log).2 :=
    ⟨hpoints.nonEmpty, hpoints.short, hpoints.index⟩
  refine ⟨justified_snoc.mpr ⟨hlog, hengine, hsome, hlist.symm ▸ hcurrent⟩, ?_, ?_, fun _ => ?_,
    fun _ => ⟨_, hpoints'⟩⟩
  · rw [doConnect, attempts_snoc]
    exact hlist
  · rw [doConnect, hengine, hsucceeded]
    rfl
  · refine ⟨hsucceeded, (attempts s.log).2, ?_, hpoints'⟩
    rw [doConnect, attempts_snoc]

theorem connectSequence_invariant (h : Invariant s) (hsucceeded : s.succeeded = false)
    (hnonEmpty : addrs ≠ []) (hshort : addrs.length < 2147483648) :
    Invariant (connectSequence addrs wait now s) := by
  have hengine := h.engine
  rw [hsucceeded] at hengine
  unfold connectSequence
  apply doConnect_invariant
  · exact justified_snoc.mpr ⟨h.log, trivial⟩
  · rw [attempts_snoc]
  · exact hengine
  · exact hsucceeded
  · rw [attempts_snoc]
    exact ⟨hnonEmpty, hshort, by rw [Nat.zero_mod]; rfl⟩

/-- A failed attempt is closed and reported, and the next address is tried. -/
theorem failed_invariant {attempt : Nat} (hlog : Justified Sound s.log)
    (hlist : (attempts s.log).1 = s.address) (hengine : s.engine = true)
    (hsucceeded : s.succeeded = false) (hidle : s.connectInProgress = false)
    (hattempt : (attempts s.log).2 = attempt + 1) (hpoints : Points s attempt) (hec : ec ≠ 0) :
    Invariant (failed ec doContinue now s) := by
  obtain ⟨hcurrent, hsome⟩ := hpoints.current
  let u : State α := { (s.record (.close s.engine)).record (.onError ec s.current) with
    currentAddressIndex := s.nextIndex }
  have hattempts : attempts u.log = attempts s.log := by
    simp only [u, State.record]
    rw [attempts_snoc, attempts_snoc]
  have hlog' : Justified Sound u.log := by
    refine justified_snoc.mpr ⟨justified_snoc.mpr ⟨hlog, hengine⟩, hec, hsome, ?_⟩
    rw [State.record, attempts_snoc, hlist, hattempt]
    exact hcurrent
  have hpoints' : Points u (attempt + 1) :=
    ⟨hpoints.nonEmpty, hpoints.short, hpoints.nextIndex⟩
  have heq : failed ec doContinue now s = if doContinue then doConnect now u else u := rfl
  rw [heq]
  split
  · apply doConnect_invariant hlog' (hattempts ▸ hlist) hengine hsucceeded
    rw [hattempts, hattempt]
    exact hpoints'
  · refine ⟨hlog', hattempts ▸ hlist, ?_, fun hprogress => ?_, fun _ => ⟨_, hpoints'⟩⟩
    · have hu : u.engine = true ∧ u.succeeded = false := ⟨hengine, hsucceeded⟩
      rw [hu.1, hu.2]
      rfl
    · exact absurd (hidle.symm.trans hprogress) Bool.false_ne_true

theorem handleConnect_invariant (h : Invariant s) (hprogress : s.connectInProgress = true)
    (hclean : ec = 0 → build = true) : Invariant (handleConnect ec build doContinue now s) := by
  obtain ⟨hsucceeded, attempt, hattempt, hpoints⟩ := h.progress hprogress
  have hengine := h.engine
  rw [hsucceeded] at hengine
  have hpoints' : Points { s with connectInProgress := false } attempt :=
    ⟨hpoints.nonEmpty, hpoints.short, hpoints.index⟩
  unfold handleConnect
  by_cases hec : ec = 0
  · obtain ⟨hcurrent, hsome⟩ := hpoints.current
    simp only [if_pos hec, if_pos (hclean hec)]
    refine ⟨justified_snoc.mpr ⟨h.log, hsome, ?_⟩, ?_, rfl, nofun, fun _ => ?_⟩
    · rw [h.list, hattempt]
      exact hcurrent
    · rw [State.record, attempts_snoc]
      exact h.list
    · exact ⟨attempt, hpoints.nonEmpty, hpoints.short, hpoints.index⟩
  · simp only [if_neg hec]
    exact failed_invariant h.log h.list hengine hsucceeded rfl hattempt hpoints' hec

theorem onTimer_invariant (h : Invariant s) : Invariant (onTimer ec now s) := by
  unfold onTimer
  split
  · exact h
  split
  · next hlate =>
    obtain ⟨hsucceeded, attempt, hattempt, hpoints⟩ := h.progress hlate.1
    have hengine := h.engine
    rw [hsucceeded] at hengine
    refine ⟨justified_snoc.mpr ⟨h.log, hengine⟩, ?_, h.engine,
      fun _ => ⟨hsucceeded, attempt, ?_, ?_⟩,
      fun hne => (h.points hne).imp fun _ hp => ⟨hp.nonEmpty, hp.short, hp.index⟩⟩
    · rw [State.record, attempts_snoc]
      exact h.list
    · rw [State.record, attempts_snoc]
      exact hattempt
    · exact ⟨hpoints.nonEmpty, hpoints.short, hpoints.index⟩
  · exact h

theorem invariant_step {e : Step α} (h : Invariant s) (he : Enabled s e) (hclean : Clean s e) :
    Invariant (next s e) := by
  cases e with
  | connect addr wait now =>
    exact connectSequence_invariant h hclean (List.cons_ne_nil _ _) (by simp)
  | connectSequence addrs wait now => exact connectSequence_invariant h hclean.1 he.2 hclean.2
  | handleConnect ec build doContinue now => exact handleConnect_invariant h he hclean
  | onTimer ec now => exact onTimer_invariant h
  | timeout timeout =>
    refine ⟨h.log, h.list, h.engine, fun hprogress => ?_, fun hne => ?_⟩
    · obtain ⟨hsucceeded, attempt, hattempt, hp⟩ := h.progress hprogress
      exact ⟨hsucceeded, attempt, hattempt, hp.nonEmpty, hp.short, hp.index⟩
    · exact (h.points hne).imp fun _ hp => ⟨hp.nonEmpty, hp.short, hp.index⟩

theorem invariant_execution (h : (machine α).Execution Clean initial s) : Invariant s :=
  h.invariant invariant_initial fun _ _ _ hi he hc => invariant_step hi he hc

/-- In every run of clean steps the connector works on live sockets, goes through its addresses
in turn and reports failures only. -/
theorem connects_truthfully (h : (machine α).Execution Clean initial s) : Truthful s := by
  have hinv := invariant_execution h
  refine ⟨hinv.log, fun hne => ?_⟩
  obtain ⟨attempt, hpoints⟩ := hinv.points hne
  exact hpoints.range

/-- The second of two addresses answers, after the first has timed out. -/
def secondAnswers : List (Step Nat) :=
  [.connectSequence [10, 20] 1000 0, .onTimer 0 2000, .handleConnect 125 true true 2000,
    .handleConnect 0 true true 2500]

theorem connects_truthfully_secondAnswers :
    let s := (machine Nat).runTrace initial secondAnswers
    s.log = [.sequence [10, 20], .connect true (some 10), .close true, .close true,
        .onError 125 (some 10), .connect true (some 20), .opened (some 20)] ∧
      Truthful s := by
  have hvalid : (machine Nat).ValidTrace Clean initial secondAnswers := by decide
  exact ⟨by decide, connects_truthfully hvalid.execution⟩

/-- The condition is exact: a pipeline that is not built, or a call behind a success, goes wrong
at once. -/
theorem Invariant.untruthful_of_unclean {e : Step α} (h : Invariant s) (he : Enabled s e)
    (hclean : ¬ Clean s e)
    (hshort : ∀ addrs wait now, e = .connectSequence addrs wait now → addrs.length < 2147483648) :
    ¬ Truthful (next s e) := by
  have hafter (addrs : List α) (wait now : Int) (hsucceeded : s.succeeded = true) :
      ¬ Truthful (connectSequence addrs wait now s) := by
    intro htruthful
    have hlast := (justified_snoc.mp htruthful.log).2
    have hengine := h.engine.symm.trans hlast.1
    rw [hsucceeded] at hengine
    exact Bool.false_ne_true hengine
  cases e with
  | connect addr wait now => exact hafter [addr] wait now (by simpa [Clean] using hclean)
  | connectSequence addrs wait now =>
    refine hafter addrs wait now ?_
    have hlen := hshort addrs wait now rfl
    simpa [Clean, hlen] using hclean
  | handleConnect ec build doContinue now =>
    obtain ⟨hec, hbuild⟩ := Classical.not_imp.mp hclean
    intro htruthful
    have hlog := htruthful.log
    simp only [next, handleConnect, if_pos hec, if_neg hbuild, failed] at hlog
    have hclose : Justified Sound ((s.log ++ [.close s.engine]) ++ [.close false]) := by
      split at hlog
      · exact hlog.of_append.of_append
      · exact hlog.of_append
    exact Bool.false_ne_true (justified_snoc.mp hclose).2
  | onTimer ec now => exact absurd trivial hclean
  | timeout timeout => exact absurd trivial hclean

/-- The connection is there and the pipeline is not built: success is reported as the error. -/
theorem unbuilt_not_truthful :
    ¬ ∀ s : State Nat, (machine Nat).Reachable initial s → Truthful s := by
  intro h
  let trace : List (Step Nat) := [.connect 10 1000 0, .handleConnect 0 false false 1]
  have hvalid : (machine Nat).ValidTrace (fun _ _ => True) initial trace := by decide
  have hlog : ((machine Nat).runTrace initial trace).log =
      [.sequence [10], .connect true (some 10), .close true, .close false] ++
        [.onError 0 (some 10)] := by decide
  have htruthful := (h _ hvalid.reachable).log
  rw [hlog] at htruthful
  exact (justified_snoc.mp htruthful).2.1 rfl

end PipelineConnector
