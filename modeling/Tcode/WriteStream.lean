import Tcode.WriteOperation

/-! # One ordered stream

Until an operation fails, what the kernel accepted and what the queued operations still hold
are together what was submitted.
-/
namespace WriteStream

open SupportListSums SupportMachineInt SupportTransitionSystem WriteOperation

def Unfailed (s : State) : Prop := ∀ c ∈ s.completed, c.error = .success

instance (s : State) : Decidable (Unfailed s) :=
  inferInstanceAs (Decidable (∀ c ∈ s.completed, c.error = .success))

/-- Less than 2 GiB in one operation. -/
def Short : Step → Prop
  | .dispatchWrite _ buffers => total Buffer.iovLen buffers < 2147483648
  | _ => True

/-- Fewer than 2 ^ 32 buffers in one operation. -/
def Countable : Step → Prop
  | .dispatchWrite _ buffers => buffers.length < 4294967296
  | _ => True

instance : ∀ e : Step, Decidable (Short e)
  | .dispatchWrite _ buffers => inferInstanceAs (Decidable (total Buffer.iovLen buffers < _))
  | .event | .answer _ | .closed | .leave | .close => isTrue trivial

instance : ∀ e : Step, Decidable (Countable e)
  | .dispatchWrite _ buffers => inferInstanceAs (Decidable (buffers.length < _))
  | .event | .answer _ | .closed | .leave | .close => isTrue trivial

/-- What the operation of a handler held when it was submitted. -/
def payload (s : State) (handler : Nat) : List UInt8 :=
  s.submitted[handler]?.elim [] Operation.remaining

def submittedBytes (s : State) : List UInt8 := s.submitted.flatMap Operation.remaining

structure Fits (op : Operation) : Prop where
  short : total Buffer.iovLen op.buffers < 2147483648
  countable : op.buffers.length < 4294967296
  count : op.bufferCount = toInt op.buffers.length
  error : op.error = .success

/-- The operation has been written up to its write size. -/
structure Waits (s : State) (op : Operation) : Prop where
  fits : Fits op
  written : 0 ≤ op.write ∧ op.write ≤ (payload s op.handler).length
  remaining : op.remaining = (payload s op.handler).drop op.write.toNat

structure Invariant (s : State) : Prop where
  order : s.completed.map Completion.handler ++ s.queue.map Operation.handler =
    List.range s.submitted.length
  sizes : ∀ c ∈ s.completed, c.error = .success → c.writeSize = (payload s c.handler).length
  waiting : ∀ op ∈ s.queue, Waits s op
  ordered : s.stream <+: submittedBytes s
  sent : Unfailed s → s.stream ++ s.queue.flatMap Operation.remaining = submittedBytes s

variable {s t : State} {op : Operation} {rest : List Operation} {n : Nat}

/-! ## One attempt -/

/-- A count that is not negative counts all buffers. -/
theorem Fits.iovecs_eq (h : Fits op) (hcount : 0 ≤ op.bufferCount) :
    op.bufferCount.toNat = op.buffers.length := by
  have hsmall := h.countable
  have hc := h.count
  rw [hc, toInt] at hcount
  rw [hc, toInt]
  omega

/-- What the operation is after the kernel has accepted `n` bytes of it. -/
structure Advanced (op : Operation) (n : Nat) (op' : Operation) : Prop where
  handler : op'.handler = op.handler
  write : op'.write = op.write + n
  remaining : op'.remaining = op.remaining.drop n
  fits : Fits op'

theorem postWriteImpl_accepted (h : Fits op) (hpossible : (Answer.accepted n).Possible op) :
    ∃ op', postWriteImpl op (toInt n) op.error = (op', decide (op'.remaining = [])) ∧
      Advanced op n op' ∧ (Answer.accepted n).accepts op = op.remaining.take n := by
  obtain ⟨hcount, hn⟩ := hpossible
  have hall := h.iovecs_eq hcount
  have hiovecs : op.iovecs = op.buffers := by
    rw [Operation.iovecs, hall, List.take_length]
  rw [hiovecs] at hn
  have hshort := h.short
  have hint : toInt n = n := toInt_of_range (by omega) (by omega)
  obtain ⟨hbytes, hlength, hremain⟩ := skipBuffers_spec op.memory 0 hshort hn
  refine ⟨{ op with buffers := (skipBuffers op.buffers n 0).1, write := op.write + n },
    ?_, ?_, ?_⟩
  · have hdone : ((skipBuffers op.buffers n 0).2 = 0) ↔
        bytes op.memory (skipBuffers op.buffers n 0).1 = [] := by
      rw [hremain, hbytes, List.drop_eq_nil_iff, bytes_length]
      omega
    have hnonneg : ¬ ((n : Int) < 0) := by omega
    simp only [postWriteImpl, h.error, hint, hiovecs, hall, List.drop_length, List.append_nil,
      hnonneg, if_false, ne_eq, not_true_eq_false]
    exact Prod.ext rfl (decide_eq_decide.mpr hdone)
  · constructor
    · rfl
    · rfl
    · exact hbytes
    · constructor
      · have hlen := congrArg List.length hbytes
        rw [List.length_drop, bytes_length, bytes_length] at hlen
        show total Buffer.iovLen (skipBuffers op.buffers n 0).1 < _
        omega
      · show (skipBuffers op.buffers n 0).1.length < _
        rw [hlength]
        exact h.countable
      · show op.bufferCount = toInt (skipBuffers op.buffers n 0).1.length
        rw [hlength]
        exact h.count
      · exact h.error
  · rw [Answer.accepts, hiovecs, Operation.remaining]

/-! ## Steps -/

theorem payload_append (s : State) {op : Operation} {handler : Nat}
    (h : handler < s.submitted.length) :
    payload { s with submitted := s.submitted ++ [op] } handler = payload s handler := by
  rw [payload, payload, List.getElem?_append_left h]

theorem mem_range_of_order (h : Invariant s) :
    (∀ c ∈ s.completed, c.handler < s.submitted.length) ∧
      ∀ op ∈ s.queue, op.handler < s.submitted.length := by
  have hmem (k : Nat) (hk : k ∈ s.completed.map Completion.handler ++
      s.queue.map Operation.handler) : k < s.submitted.length := by
    rw [h.order] at hk
    exact List.mem_range.mp hk
  constructor
  · intro c hc
    exact hmem c.handler (List.mem_append_left _ (List.mem_map_of_mem hc))
  · intro op hop
    exact hmem op.handler (List.mem_append_right _ (List.mem_map_of_mem hop))

theorem fits_operationWritev (memory : Memory) {buffers : List Buffer} (handler : Nat)
    (hshort : total Buffer.iovLen buffers < 2147483648) (hcount : buffers.length < 4294967296) :
    Fits (operationWritev handler memory buffers) := ⟨hshort, hcount, rfl, rfl⟩

theorem invariant_dispatchWrite (h : Invariant s) {memory : Memory} {buffers : List Buffer}
    (hshort : Short (.dispatchWrite memory buffers))
    (hcount : Countable (.dispatchWrite memory buffers)) :
    Invariant (next s (.dispatchWrite memory buffers)) := by
  obtain ⟨hcompleted, hqueue⟩ := mem_range_of_order h
  have hfits := fits_operationWritev memory s.submitted.length hshort hcount
  generalize hop : operationWritev s.submitted.length memory buffers = op at hfits
  have hhandler : op.handler = s.submitted.length := by rw [← hop]; rfl
  have hwrite : op.write = 0 := by rw [← hop]; rfl
  have hnext : next s (.dispatchWrite memory buffers) =
      { s with
        queue := s.queue ++ [op], submitted := s.submitted ++ [op], dispatching := true } := by
    rw [← hop]
    rfl
  have hpayload (k : Nat) (hk : k < s.submitted.length) :
      payload (next s (.dispatchWrite memory buffers)) k = payload s k := by
    rw [hnext]
    exact payload_append s hk
  have hown : payload (next s (.dispatchWrite memory buffers)) op.handler = op.remaining := by
    rw [hnext, payload, hhandler]
    simp
  constructor
  · rw [hnext]
    simp only [List.map_append, List.length_append, List.map_cons, List.map_nil,
      List.length_singleton, List.range_succ, hhandler]
    rw [← List.append_assoc, h.order]
  · intro c hc hok
    rw [hnext] at hc
    rw [hpayload _ (hcompleted c hc)]
    exact h.sizes c hc hok
  · intro op' hmem
    rw [hnext] at hmem
    rcases List.mem_append.mp hmem with hmem | hmem
    · obtain ⟨hfits', hwritten, hremaining⟩ := h.waiting op' hmem
      have hsame := hpayload _ (hqueue op' hmem)
      exact ⟨hfits', hsame ▸ hwritten, hsame ▸ hremaining⟩
    · rw [List.mem_singleton.mp hmem]
      refine ⟨hfits, ?_, ?_⟩
      · rw [hwrite]
        omega
      · rw [hown, hwrite]
        rfl
  · have hmore : submittedBytes (next s (.dispatchWrite memory buffers)) =
        submittedBytes s ++ op.remaining := by
      rw [hnext, submittedBytes, submittedBytes]
      simp
    rw [hmore, hnext]
    exact h.ordered.trans (List.prefix_append _ _)
  · intro hok
    rw [hnext] at hok ⊢
    simp only [submittedBytes, List.flatMap_append, ← List.append_assoc]
    rw [h.sent hok]
    rfl

theorem Waits.congr (h : Waits s op) (hsubmitted : t.submitted = s.submitted) : Waits t op := by
  have hpayload : payload t op.handler = payload s op.handler := by
    rw [payload, payload, hsubmitted]
  exact ⟨h.fits, hpayload ▸ h.written, hpayload ▸ h.remaining⟩

/-- What an attempt does to the front operation, when `sent` is what the kernel accepted. -/
structure Posted (s : State) (op : Operation) (sent : List UInt8) (posted : Operation × Bool) :
    Prop where
  handler : posted.1.handler = op.handler
  split : op.remaining = sent ++ posted.1.remaining
  failed : posted.1.error ≠ .success → posted.2 = true ∧ sent = []
  done : posted.2 = true → posted.1.error = .success →
    posted.1.remaining = [] ∧ posted.1.write = (payload s op.handler).length
  parked : posted.2 = false → Waits s posted.1

theorem invariant_afterPost (h : Invariant s) (hok : Unfailed s) (hqueue : s.queue = op :: rest)
    {sent : List UInt8} {posted : Operation × Bool} (hposted : Posted s op sent posted) :
    Invariant (afterPost { s with stream := s.stream ++ sent } rest posted) := by
  have hsent := h.sent hok
  rw [hqueue, List.flatMap_cons, hposted.split, List.append_assoc, ← List.append_assoc] at hsent
  have hordered : s.stream ++ sent <+: submittedBytes s := by
    rw [← hsent]
    exact List.prefix_append _ _
  have horder := h.order
  rw [hqueue, List.map_cons, ← hposted.handler] at horder
  have hrest (op' : Operation) (hmem : op' ∈ rest) : Waits s op' :=
    h.waiting op' (hqueue ▸ List.mem_cons_of_mem _ hmem)
  cases hdone : posted.2 with
  | true =>
    simp only [afterPost, hdone, if_true]
    refine ⟨?_, ?_, fun op' hmem => (hrest op' hmem).congr rfl, hordered, ?_⟩
    · rw [← horder]
      simp
    · intro c hc hsucceeded
      rcases List.mem_append.mp hc with hc | hc
      · exact h.sizes c hc hsucceeded
      · rw [List.mem_singleton.mp hc] at hsucceeded ⊢
        show posted.1.write = (payload s posted.1.handler).length
        rw [hposted.handler]
        exact (hposted.done hdone hsucceeded).2
    · intro hok'
      have hsucceeded : posted.1.error = .success :=
        hok' _ (List.mem_append_right _ (List.mem_singleton_self _))
      rw [(hposted.done hdone hsucceeded).1, List.nil_append] at hsent
      exact hsent
  | false =>
    simp only [afterPost, hdone, Bool.false_eq_true, if_false]
    refine ⟨horder, h.sizes, ?_, hordered, fun _ => hsent⟩
    intro op' hmem
    rcases List.mem_cons.mp hmem with heq | hmem
    · rw [heq]
      exact (hposted.parked hdone).congr rfl
    · exact (hrest op' hmem).congr rfl

theorem posted_failed {ec : ErrorCode} (hec : ec ≠ .success) (w : Int) :
    Posted s op [] (postWriteImpl op w ec) := by
  have heq : postWriteImpl op w ec = ({ op with error := ec }, true) := if_pos hec
  rw [heq]
  exact ⟨rfl, rfl, fun _ => ⟨rfl, rfl⟩, fun _ hok => absurd hok hec, nofun⟩

theorem posted_again (h : Waits s op) : Posted s op [] (postWriteImpl op (-1) .success) := by
  have heq : postWriteImpl op (-1) .success = ({ op with error := .success }, false) := rfl
  have hsame : { op with error := .success } = op := by
    rw [← h.fits.error]
  rw [heq, hsame]
  exact ⟨rfl, rfl, fun hfail => absurd h.fits.error hfail, nofun, fun _ => h⟩

theorem posted_accepted (h : Waits s op) (hpossible : (Answer.accepted n).Possible op) :
    Posted s op ((Answer.accepted n).accepts op) (postWriteImpl op (toInt n) op.error) := by
  obtain ⟨op', heq, hadvanced, haccepts⟩ := postWriteImpl_accepted h.fits hpossible
  obtain ⟨hnonneg, hle⟩ := h.written
  have hremaining := h.remaining
  have hn : n ≤ op.remaining.length := by
    obtain ⟨hcount, hn⟩ := hpossible
    rw [Operation.iovecs, h.fits.iovecs_eq hcount, List.take_length] at hn
    rw [Operation.remaining, bytes_length]
    exact hn
  have hlength : op.remaining.length = (payload s op.handler).length - op.write.toNat := by
    rw [hremaining, List.length_drop]
  have hwrite := hadvanced.write
  rw [heq, haccepts]
  constructor
  · exact hadvanced.handler
  · show op.remaining = op.remaining.take n ++ op'.remaining
    rw [hadvanced.remaining, List.take_append_drop]
  · intro hfail
    exact absurd hadvanced.fits.error hfail
  · intro hdone _
    have hnil : op'.remaining = [] := of_decide_eq_true hdone
    refine ⟨hnil, ?_⟩
    rw [hadvanced.remaining, List.drop_eq_nil_iff] at hnil
    show op'.write = _
    omega
  · intro _
    refine ⟨hadvanced.fits, ?_, ?_⟩
    · show 0 ≤ op'.write ∧ op'.write ≤ (payload s op'.handler).length
      rw [hadvanced.handler]
      omega
    · show op'.remaining = (payload s op'.handler).drop op'.write.toNat
      have hsum : op'.write.toNat = op.write.toNat + n := by omega
      rw [hadvanced.remaining, hadvanced.handler, hremaining, List.drop_drop, hsum]

theorem posted_answer (h : Waits s op) {a : Answer} (hpossible : a.Possible op) {w : Int}
    {ec : ErrorCode} (hw : writev op.error a = some (w, ec)) :
    Posted s op (a.accepts op) (postWriteImpl op w ec) := by
  cases a with
  | accepted n =>
    obtain ⟨rfl, rfl⟩ := Prod.mk.inj (Option.some.inj hw)
    exact posted_accepted h hpossible
  | interrupted => cases hw
  | again =>
    obtain ⟨rfl, rfl⟩ := Prod.mk.inj (Option.some.inj hw)
    exact posted_again h
  | failed errno =>
    obtain ⟨rfl, rfl⟩ := Prod.mk.inj (Option.some.inj hw)
    exact posted_failed ErrorCode.noConfusion _

theorem invariant_moved (h : Invariant s) (dispatching : Bool) (fd : Int) :
    Invariant { s with dispatching := dispatching, fd := fd } :=
  ⟨h.order, h.sizes, fun op hop => (h.waiting op hop).congr rfl, h.ordered, h.sent⟩

theorem invariant_step (h : Invariant s) (hok : Unfailed s) {e : Step} (he : Enabled s e)
    (hshort : Short e) (hcount : Countable e) : Invariant (next s e) := by
  cases e with
  | dispatchWrite memory buffers => exact invariant_dispatchWrite h hshort hcount
  | event => exact invariant_moved h true s.fd
  | answer a =>
    obtain ⟨-, -, op, hhead, hpossible⟩ := he
    obtain ⟨rest, hqueue⟩ : ∃ rest, s.queue = op :: rest := List.head?_eq_some_iff.mp hhead
    have hwaits := h.waiting op (hqueue ▸ List.mem_cons_self)
    simp only [next, hqueue]
    split
    · exact h
    · next w ec hw => exact invariant_afterPost h hok hqueue (posted_answer hwaits hpossible hw)
  | closed =>
    obtain ⟨op, rest, hqueue⟩ := List.exists_cons_of_ne_nil (List.isEmpty_eq_false_iff.mp he.2.2)
    simp only [next, hqueue]
    have hinvalid : ErrorCode.invalid ≠ .success := nofun
    have hposted := invariant_afterPost h hok hqueue (posted_failed hinvalid (-1))
    rwa [List.append_nil] at hposted
  | leave => exact invariant_moved h false s.fd
  | close => exact invariant_moved h s.dispatching (-1)

theorem invariant_reachable {fd : Int}
    (h : machine.Execution (fun u e => Unfailed u ∧ Short e ∧ Countable e) (initial fd) s) :
    Invariant s := by
  refine h.invariant ?_ fun u e _ hinv he hc => invariant_step hinv hc.1 he hc.2.1 hc.2.2
  exact ⟨rfl, by simp [initial], by simp [initial], List.nil_prefix, fun _ => rfl⟩

/-! ## The stream -/

structure OneStream (s : State) : Prop where
  accepted : s.stream <+: submittedBytes s
  /-- What the kernel has not accepted is what the queue holds, each byte once. -/
  once : Unfailed s → s.stream ++ s.queue.flatMap Operation.remaining = submittedBytes s
  order : s.completed.map Completion.handler ++ s.queue.map Operation.handler =
    List.range s.submitted.length
  sizes : ∀ c ∈ s.completed, c.error = .success → c.writeSize = (payload s c.handler).length
  unsent : ∀ op ∈ s.queue, 0 ≤ op.write ∧ op.write ≤ (payload s op.handler).length ∧
    op.remaining = (payload s op.handler).drop op.write.toNat

/-- Up to and including a first error, the writes of a descriptor form one ordered stream. -/
theorem writes_in_order {fd : Int}
    (h : machine.Execution (fun u e => Unfailed u ∧ Short e ∧ Countable e) (initial fd) s) :
    OneStream s := by
  obtain ⟨order, sizes, waiting, ordered, sent⟩ := invariant_reachable h
  refine ⟨ordered, sent, order, sizes, fun op hop => ?_⟩
  obtain ⟨-, ⟨hnonneg, hle⟩, hremaining⟩ := waiting op hop
  exact ⟨hnonneg, hle, hremaining⟩

/-- Two operations, the first of two buffers, with short counts and interruptions. -/
def shortCounts : List Step :=
  [.dispatchWrite (fun i => UInt8.ofNat i.toNat) [⟨0, 2⟩, ⟨10, 1⟩], .answer (.accepted 1),
    .dispatchWrite (fun i => UInt8.ofNat i.toNat) [⟨5, 2⟩], .answer .interrupted,
    .answer (.accepted 2), .answer .again, .event, .answer (.accepted 2), .leave]

theorem writes_in_order_shortCounts :
    let s := machine.runTrace (initial 3) shortCounts
    OneStream s ∧ s.stream = [0, 1, 10, 5, 6] ∧
      s.completed = [⟨0, .success, 3⟩, ⟨1, .success, 2⟩] := by
  have hvalid : machine.ValidTrace (fun u e => Unfailed u ∧ Short e ∧ Countable e) (initial 3)
      shortCounts := by decide
  exact ⟨writes_in_order hvalid.execution, by decide, by decide⟩

/-- The count of these buffers is converted to one. -/
def uncountable : List Buffer :=
  ⟨0, 0⟩ :: (List.replicate 4294967295 ⟨0, 0⟩ ++ [⟨0, 1⟩])

theorem uncountable_total : total Buffer.iovLen uncountable = 1 := by
  rw [uncountable, total_cons, total_append, total_eq_zero]
  · rfl
  · intro b hb
    rw [List.eq_of_mem_replicate hb]

theorem uncountable_count : toInt uncountable.length = 1 := by
  rw [uncountable, List.length_cons, List.length_append, List.length_replicate]
  rfl

/-- An operation whose count is one is done with its first buffer. -/
theorem postWriteImpl_uncountable (hcount : op.bufferCount = 1)
    {others : List Buffer} (hbuffers : op.buffers = ⟨0, 0⟩ :: others) :
    postWriteImpl op 0 .success = ({ op with error := .success }, true) := by
  have hiovecs : op.iovecs = [⟨0, 0⟩] := by
    rw [Operation.iovecs, hcount, hbuffers]
    rfl
  have hskip : skipBuffers [⟨0, 0⟩] 0 0 = ([⟨0, 0⟩], 0) := by decide
  have hsame : [⟨0, 0⟩] ++ op.buffers.drop (1 : Int).toNat = op.buffers := by
    rw [hbuffers]
    rfl
  rw [postWriteImpl, if_neg (by decide), if_neg (by decide), hiovecs, hskip, hcount]
  simp only [hsame, Int.add_zero, decide_true]

theorem uncountable_not_in_order :
    ¬ ∀ (fd : Int) (s : State),
      machine.Execution (fun u e => Unfailed u ∧ Short e) (initial fd) s → OneStream s := by
  intro h
  obtain ⟨buffers, hbuffers⟩ : ∃ buffers, buffers = uncountable := ⟨_, rfl⟩
  obtain ⟨op, hop⟩ : ∃ op, op = operationWritev 0 (fun _ => 0) buffers := ⟨_, rfl⟩
  have hshort : Short (.dispatchWrite (fun _ => 0) buffers) := by
    show total Buffer.iovLen buffers < 2147483648
    rw [hbuffers, uncountable_total]
    decide
  have hcount : op.bufferCount = 1 := by
    rw [hop, hbuffers]
    exact uncountable_count
  have hqueued : machine.Execution (fun u e => Unfailed u ∧ Short e) (initial 0)
      ⟨0, [op], true, [op], [], []⟩ := by
    have htail := System.Execution.refl.tail (M := machine) (s := initial 0)
      (C := fun u e => Unfailed u ∧ Short e) (e := .dispatchWrite (fun _ => 0) buffers) rfl
      ⟨by decide, hshort⟩
    rw [hop]
    exact htail
  have hdone : machine.Execution (fun u e => Unfailed u ∧ Short e) (initial 0)
      ⟨0, [], true, [op], [], [⟨op.handler, .success, op.write⟩]⟩ := by
    have hpossible : (Answer.accepted 0).Possible op := ⟨by rw [hcount]; decide, Nat.zero_le _⟩
    have henabled : Enabled ⟨0, [op], true, [op], [], []⟩ (.answer (.accepted 0)) :=
      ⟨rfl, nofun, op, rfl, hpossible⟩
    have htail := hqueued.tail (e := Step.answer (.accepted 0)) henabled
      ⟨by simp [Unfailed], trivial⟩
    have herror : op.error = .success := hop ▸ rfl
    have hposted := postWriteImpl_uncountable hcount
      (show op.buffers = ⟨0, 0⟩ :: uncountable.tail by rw [hop, hbuffers]; rfl)
    have hint : toInt 0 = 0 := by decide
    have hnext : machine.next ⟨0, [op], true, [op], [], []⟩ (.answer (.accepted 0)) =
        ⟨0, [], true, [op], [], [⟨op.handler, .success, op.write⟩]⟩ := by
      show afterPost _ [] (postWriteImpl op (toInt 0) op.error) = _
      rw [hint, herror, hposted]
      rfl
    exact hnext ▸ htail
  have hsizes := (h 0 _ hdone).sizes _ (List.mem_singleton_self _) rfl
  have hwrite : op.write = 0 := hop ▸ rfl
  have hhandler : op.handler = 0 := hop ▸ rfl
  have hremaining : op.remaining.length = 1 := by
    rw [Operation.remaining, bytes_length, hop, operationWritev, hbuffers]
    exact uncountable_total
  rw [hwrite, hhandler] at hsizes
  have hpayload : (0 : Int) = (op.remaining.length : Int) := hsizes
  rw [hremaining] at hpayload
  exact absurd hpayload (by decide)

end WriteStream
