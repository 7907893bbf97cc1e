import Tcode.EpollPlaces

/-! # Edges and the operations that wait for them

The kernel queues an edge when something arrives for a descriptor. An operation may wait at the
front of a queue only as long as the system function that it calls would give `EAGAIN`, or while
an edge is still to be worked off. A fixed-length read breaks this: after a short read it waits
without having seen `EAGAIN`.
-/
namespace EpollReadiness

open SupportTransitionSystem EpollMachine EpollReferences

/-- What `post_proc` of an operation is; connects and the operations of datagram sockets are
`other`. -/
inductive Kind where
  | read (fixedLen : Bool)
  | write
  | accept
  | other
  deriving DecidableEq, Repr

/-- What the kernel holds for each descriptor, the edges that it has queued, and how many bytes
the buffers of each operation still have. -/
structure Kernel where
  available : DescriptorId → Nat
  finished : DescriptorId → Bool
  space : DescriptorId → Nat
  connections : DescriptorId → Nat
  edges : DescriptorId → Direction → Bool
  left : OperationId → Nat

/-! ## System functions and `post_proc` -/

/-- `::readv`; without a value it gives `EAGAIN`. -/
def Kernel.sysReadv (κ : Kernel) (d : DescriptorId) (n : Nat) : Option Nat × Kernel :=
  if 0 < κ.available d then
    (some (min n (κ.available d)),
      { κ with available := Function.update κ.available d (κ.available d - n) })
  else if κ.finished d then (some 0, κ)
  else (none, κ)

/-- `::writev` -/
def Kernel.sysWritev (κ : Kernel) (d : DescriptorId) (n : Nat) : Option Nat × Kernel :=
  if 0 < κ.space d then
    (some (min n (κ.space d)), { κ with space := Function.update κ.space d (κ.space d - n) })
  else (none, κ)

/-- `::accept` -/
def Kernel.sysAccept (κ : Kernel) (d : DescriptorId) : Bool × Kernel :=
  if 0 < κ.connections d then
    (true, { κ with connections := Function.update κ.connections d (κ.connections d - 1) })
  else (false, κ)

/-- `epoll::readv`; no count stands for -1. -/
def readv (κ : Kernel) (fd : Bool) (d : DescriptorId) (n : Nat) :
    (Option Nat × ErrorCode) × Kernel :=
  if fd then
    match κ.sysReadv d n with
    | (some r, κ) => if 0 < r then ((some r, .success), κ) else ((none, .disconnected), κ)
    | (none, κ) => ((none, .success), κ)
  else ((none, .invalid), κ)

/-- `epoll::writev` -/
def writev (κ : Kernel) (fd : Bool) (d : DescriptorId) (n : Nat) :
    (Option Nat × ErrorCode) × Kernel :=
  if fd then
    match κ.sysWritev d n with
    | (some r, κ) => ((some r, .success), κ)
    | (none, κ) => ((none, .success), κ)
  else ((none, .invalid), κ)

inductive Answer where
  | again
  | done (ec : ErrorCode)
  | accepted
  deriving DecidableEq, Repr

/-- `post_read_impl` -/
def postReadImpl (κ : Kernel) (fd : Bool) (d : DescriptorId) (o : OperationId) :
    Answer × Kernel :=
  match readv κ fd d (κ.left o) with
  | ((r, ec), κ) => if ec ≠ .success ∨ r.isSome then (.done ec, κ) else (.again, κ)

/-- What a read or a write has moved is skipped in its buffers. -/
def Kernel.skip (κ : Kernel) (o : OperationId) (r : Nat) : Answer × Kernel :=
  let remain := κ.left o - r
  (if remain = 0 then .done .success else .again,
    { κ with left := Function.update κ.left o remain })

/-- `post_read_impl_fixed_len` -/
def postReadImplFixedLen (κ : Kernel) (fd : Bool) (d : DescriptorId) (o : OperationId) :
    Answer × Kernel :=
  match readv κ fd d (κ.left o) with
  | ((r, ec), κ) =>
    if ec ≠ .success then (.done ec, κ)
    else
      match r with
      | none => (.again, κ)
      | some r => κ.skip o r

/-- `post_write_impl` -/
def postWriteImpl (κ : Kernel) (fd : Bool) (d : DescriptorId) (o : OperationId) :
    Answer × Kernel :=
  match writev κ fd d (κ.left o) with
  | ((r, ec), κ) =>
    if ec ≠ .success then (.done ec, κ)
    else
      match r with
      | none => (.again, κ)
      | some r => κ.skip o r

/-- `post_accept_impl` -/
def postAcceptImpl (κ : Kernel) (fd : Bool) (d : DescriptorId) : Answer × Kernel :=
  if fd then
    match κ.sysAccept d with
    | (true, κ) => (.accepted, κ)
    | (false, κ) => (.again, κ)
  else (.done .invalid, κ)

def postProc (κ : Kernel) (kind : Kind) (fd : Bool) (d : DescriptorId) (o : OperationId) :
    Answer × Kernel :=
  match kind with
  | .read false => postReadImpl κ fd d o
  | .read true => postReadImplFixedLen κ fd d o
  | .write => postWriteImpl κ fd d o
  | .accept => postAcceptImpl κ fd d
  | .other => (.again, κ)

/-! ## The kernel as an environment -/

/-- The operation of the kind belongs into the queue of the direction. -/
def Kind.Suits : Kind → Direction → Prop
  | .read _, i | .accept, i => i = .read
  | .write, i => i = .write
  | .other, _ => True

/-- The descriptor and the operation that `descriptor_dispatch` looks at. -/
def attempt (s : State) (m : EngineId) : Option (DescriptorId × OperationId) :=
  match (s.engines m).frame with
  | .dispatching d (i :: _) _ => ((s.descs d).opQueue i).head?.map (d, ·)
  | _ => none

def Answer.Gives : Answer → PostResult → Prop
  | .again, r => r = .again
  | .done ec, r => r = .done ec
  | .accepted, r => match r with
    | .accepted _ _ => True
    | _ => False

inductive Arrival where
  | data (d : DescriptorId) (n : Nat)
  | finished (d : DescriptorId)
  | space (d : DescriptorId) (n : Nat)
  | connection (d : DescriptorId)
  deriving DecidableEq, Repr

def Kernel.edge (κ : Kernel) (d : DescriptorId) (i : Direction) : Kernel :=
  { κ with edges := Function.update κ.edges d (Function.update (κ.edges d) i true) }

/-- Events take the edges that they report. -/
def Kernel.report (κ : Kernel) (evs : List Event) : Kernel :=
  { κ with edges := fun d i => κ.edges d i && !evs.any fun e => e.desc = d && decide (i ∈ e.flags) }

/-- Data and the end of the stream, connections, and space where there was none queue an edge. -/
def Kernel.arrive (κ : Kernel) : Arrival → Kernel
  | .data d n => { κ with
      available := Function.update κ.available d (κ.available d + n) }.edge d .read
  | .finished d => { κ with finished := Function.update κ.finished d true }.edge d .read
  | .space d n =>
    let κ' := { κ with space := Function.update κ.space d (κ.space d + n) }
    if κ.space d = 0 then κ'.edge d .write else κ'
  | .connection d => { κ with
      connections := Function.update κ.connections d (κ.connections d + 1) }.edge d .read

section Environment

variable (kind : OperationId → Kind)

def kernel : System.Environment State Step Kernel Arrival where
  Allows p
    | .call _ (.start _ i o) => (kind o).Suits i
    | .call _ (.accept _ o _) => kind o = .accept
    | .call _ (.udpWriteNull _ o _) | .call _ (.connect _ o _) => kind o = .other
    | .postProc m r => ∀ x ∈ attempt p.1 m, kind x.2 = .other ∨
        (postProc p.2 (kind x.2) (p.1.descs x.1).fd x.1 x.2).1.Gives r
    | _ => True
  reacts p
    | .epollWait _ evs _ => p.2.report evs
    | .postProc m _ =>
      match attempt p.1 m with
      | some (d, o) => (postProc p.2 (kind o) (p.1.descs d).fd d o).2
      | none => p.2
    | _ => p.2
  Enabled p
    | .data d n => 0 < n ∧ p.2.finished d = false
    | .finished d => p.2.finished d = false
    | .space _ n => 0 < n
    | .connection _ => True
  next p a := p.2.arrive a

/-- What the operation waits for is there. -/
def Ready (κ : Kernel) (d : DescriptorId) (o : OperationId) : Prop :=
  match kind o with
  | .read _ => 0 < κ.available d ∨ κ.finished d = true
  | .write => 0 < κ.space d
  | .accept => 0 < κ.connections d
  | .other => False

end Environment

def Position.attends : Position → List (DescriptorId × Direction)
  | .events evs _ => evs.flatMap fun e => e.flags.map (e.desc, ·)
  | .drain _ => []

/-- The queues that the loop thread is going to look at, or is looking at. -/
def Frame.attends : Frame → List (DescriptorId × Direction)
  | .within p => Position.attends p
  | .dispatching d dirs p => dirs.map (d, ·) ++ Position.attends p
  | _ => []

/-- An edge of the descriptor has been delivered, or an operation submitted, and the loop thread
has not worked it off. -/
def Attended (s : State) (d : DescriptorId) (i : Direction) : Prop :=
  ∃ m, (d, i) ∈ Frame.attends (s.engines m).frame

/-- No operation at the front of a queue waits for what is there, unless an edge is queued or is
being worked off. -/
def Awake (kind : OperationId → Kind) (p : State × Kernel) : Prop :=
  ∀ d i o, ((p.1.descs d).opQueue i).head? = some o → (p.1.descs d).fd = true →
    Ready kind p.2 d o → p.2.edges d i = true ∨ Attended p.1 d i

/-- The buffers of a fixed-length read take all data, and the end of the stream is there too. -/
def ShortAtEnd (kind : OperationId → Kind) (κ : Kernel) (d : DescriptorId) (o : OperationId) :
    Prop :=
  kind o = .read true ∧ 0 < κ.available d ∧ κ.available d < κ.left o ∧ κ.finished d = true

/-- A fixed-length read that gets all data together with the end of the stream does so before the
edge of the end is worked off. -/
def EndsWithEdge (kind : OperationId → Kind) (p : State × Kernel) : Step ⊕ Arrival → Prop
  | .inl (.postProc m _) => ∀ x ∈ attempt p.1 m, (p.1.descs x.1).fd = true →
      ShortAtEnd kind p.2 x.1 x.2 → p.2.edges x.1 .read = true
  | _ => True

/-! ## What system functions take -/

/-- The kernel has at most what it had, and the same edges. -/
structure Consumes (κ κ' : Kernel) : Prop where
  available : ∀ d, κ'.available d ≤ κ.available d
  finished : κ'.finished = κ.finished
  space : ∀ d, κ'.space d ≤ κ.space d
  connections : ∀ d, κ'.connections d ≤ κ.connections d
  edges : κ'.edges = κ.edges

variable {kind : OperationId → Kind} {κ κ' : Kernel} {d e : DescriptorId} {o : OperationId}
  {n : Nat}

theorem Consumes.refl (κ : Kernel) : Consumes κ κ :=
  ⟨fun _ => Nat.le_refl _, rfl, fun _ => Nat.le_refl _, fun _ => Nat.le_refl _, rfl⟩

theorem update_le {f : DescriptorId → Nat} (h : n ≤ f d) (e : DescriptorId) :
    Function.update f d n e ≤ f e := by
  by_cases he : e = d
  · subst he
    rw [Function.update_self]
    exact h
  · rw [Function.update_of_ne he]

theorem sysReadv_consumes : Consumes κ (κ.sysReadv d n).2 := by
  rw [Kernel.sysReadv]
  split
  · exact ⟨update_le (Nat.sub_le _ _), rfl, fun _ => Nat.le_refl _, fun _ => Nat.le_refl _, rfl⟩
  · split <;> exact Consumes.refl κ

theorem sysWritev_consumes : Consumes κ (κ.sysWritev d n).2 := by
  rw [Kernel.sysWritev]
  split
  · exact ⟨fun _ => Nat.le_refl _, rfl, update_le (Nat.sub_le _ _), fun _ => Nat.le_refl _, rfl⟩
  · exact Consumes.refl κ

theorem sysAccept_consumes : Consumes κ (κ.sysAccept d).2 := by
  rw [Kernel.sysAccept]
  split
  · exact ⟨fun _ => Nat.le_refl _, rfl, fun _ => Nat.le_refl _, update_le (Nat.sub_le _ _), rfl⟩
  · exact Consumes.refl κ

theorem readv_consumes (fd : Bool) : Consumes κ (readv κ fd d n).2 := by
  have h := sysReadv_consumes (κ := κ) (d := d) (n := n)
  unfold readv
  split
  · split
    · next r κ' heq =>
      rw [heq] at h
      split <;> exact h
    · next κ' heq =>
      rw [heq] at h
      exact h
  · exact Consumes.refl κ

theorem writev_consumes (fd : Bool) : Consumes κ (writev κ fd d n).2 := by
  have h := sysWritev_consumes (κ := κ) (d := d) (n := n)
  unfold writev
  split
  · split
    · next r κ' heq =>
      rw [heq] at h
      exact h
    · next κ' heq =>
      rw [heq] at h
      exact h
  · exact Consumes.refl κ

theorem Consumes.skip (h : Consumes κ κ') (o : OperationId) (r : Nat) :
    Consumes κ (κ'.skip o r).2 :=
  ⟨h.available, h.finished, h.space, h.connections, h.edges⟩

theorem postProc_consumes (k : Kind) (fd : Bool) : Consumes κ (postProc κ k fd d o).2 := by
  cases k with
  | read fixedLen =>
    have h := readv_consumes (κ := κ) (d := d) (n := κ.left o) fd
    cases fixedLen with
    | false =>
      show Consumes κ (postReadImpl κ fd d o).2
      unfold postReadImpl
      split
      next r ec κ' heq =>
        rw [heq] at h
        split <;> exact h
    | true =>
      show Consumes κ (postReadImplFixedLen κ fd d o).2
      unfold postReadImplFixedLen
      split
      next r ec κ' heq =>
        rw [heq] at h
        split
        · exact h
        · split
          · exact h
          · exact h.skip o _
  | write =>
    have h := writev_consumes (κ := κ) (d := d) (n := κ.left o) fd
    show Consumes κ (postWriteImpl κ fd d o).2
    unfold postWriteImpl
    split
    next r ec κ' heq =>
      rw [heq] at h
      split
      · exact h
      · split
        · exact h
        · exact h.skip o _
  | accept =>
    have h := sysAccept_consumes (κ := κ) (d := d)
    show Consumes κ (postAcceptImpl κ fd d).2
    unfold postAcceptImpl
    split
    · split
      · next κ' heq =>
        rw [heq] at h
        exact h
      · next κ' heq =>
        rw [heq] at h
        exact h
    · exact Consumes.refl κ
  | other => exact Consumes.refl κ

theorem Consumes.ready (h : Consumes κ κ') (hready : Ready kind κ' d o) : Ready kind κ d o := by
  have havailable := h.available d
  have hspace := h.space d
  have hconnections := h.connections d
  unfold Ready at hready ⊢
  cases hk : kind o with
  | read fixedLen =>
    rw [hk] at hready
    rcases hready with hdata | hfinished
    · exact Or.inl (by omega)
    · exact Or.inr (h.finished ▸ hfinished)
  | write =>
    rw [hk] at hready
    show 0 < κ.space d
    replace hready : 0 < κ'.space d := hready
    omega
  | accept =>
    rw [hk] at hready
    show 0 < κ.connections d
    replace hready : 0 < κ'.connections d := hready
    omega
  | other =>
    rw [hk] at hready
    exact hready

/-! ## What an operation that has to wait has seen -/

theorem readv_closed : readv κ false d n = ((none, .invalid), κ) := rfl

theorem readv_data (h : 0 < κ.available d) : readv κ true d n =
    (if 0 < n then (some (min n (κ.available d)), .success) else (none, .disconnected),
      { κ with available := Function.update κ.available d (κ.available d - n) }) := by
  unfold readv
  rw [if_pos rfl, Kernel.sysReadv, if_pos h]
  by_cases hn : 0 < n
  · have hmin : 0 < min n (κ.available d) := Nat.lt_min.mpr ⟨hn, h⟩
    simp only [if_pos hmin, if_pos hn]
  · have hmin : ¬ 0 < min n (κ.available d) := fun hmin => hn (Nat.lt_min.mp hmin).1
    simp only [if_neg hmin, if_neg hn]

theorem readv_finished (h : κ.available d = 0) (hf : κ.finished d = true) :
    readv κ true d n = ((none, .disconnected), κ) := by
  unfold readv
  have hnone : ¬ 0 < κ.available d := by omega
  rw [if_pos rfl, Kernel.sysReadv, if_neg hnone, if_pos hf]
  rfl

theorem readv_eagain (h : κ.available d = 0) (hf : κ.finished d = false) :
    readv κ true d n = ((none, .success), κ) := by
  unfold readv
  have hnone : ¬ 0 < κ.available d := by omega
  have hopen : ¬ κ.finished d = true := by rw [hf]; exact nofun
  rw [if_pos rfl, Kernel.sysReadv, if_neg hnone, if_neg hopen]

theorem postReadImpl_again {fd : Bool} (h : (postReadImpl κ fd d o).1 = .again) :
    (postReadImpl κ fd d o).2 = κ ∧ κ.available d = 0 ∧ κ.finished d = false := by
  unfold postReadImpl at h ⊢
  cases fd with
  | false =>
    rw [readv_closed] at h
    cases h
  | true =>
    by_cases hdata : 0 < κ.available d
    · rw [readv_data hdata] at h
      by_cases hn : 0 < κ.left o
      · rw [if_pos hn] at h
        simp at h
      · rw [if_neg hn] at h
        simp at h
    · have hzero : κ.available d = 0 := by omega
      cases hf : κ.finished d with
      | true =>
        rw [readv_finished hzero hf] at h
        cases h
      | false =>
        rw [readv_eagain hzero hf]
        exact ⟨rfl, hzero, rfl⟩

/-- A fixed-length read has to wait after `EAGAIN`, and after it has taken all that was there. -/
theorem postReadImplFixedLen_again {fd : Bool}
    (h : (postReadImplFixedLen κ fd d o).1 = .again) :
    ((postReadImplFixedLen κ fd d o).2 = κ ∧ κ.available d = 0 ∧ κ.finished d = false) ∨
      (0 < κ.available d ∧ κ.available d < κ.left o ∧
        (postReadImplFixedLen κ fd d o).2.available d = 0) := by
  unfold postReadImplFixedLen at h ⊢
  cases fd with
  | false =>
    rw [readv_closed] at h
    cases h
  | true =>
    by_cases hdata : 0 < κ.available d
    · rw [readv_data hdata] at h ⊢
      by_cases hn : 0 < κ.left o
      · rw [if_pos hn] at h ⊢
        simp only [ne_eq, not_true_eq_false, if_false, Kernel.skip] at h ⊢
        refine Or.inr ⟨hdata, ?_⟩
        split at h
        · cases h
        · next hmore =>
          have hless : κ.available d < κ.left o := by omega
          refine ⟨hless, ?_⟩
          show Function.update κ.available d _ d = 0
          rw [Function.update_self]
          omega
      · rw [if_neg hn] at h
        cases h
    · have hzero : κ.available d = 0 := by omega
      cases hf : κ.finished d with
      | true =>
        rw [readv_finished hzero hf] at h
        cases h
      | false =>
        rw [readv_eagain hzero hf]
        exact Or.inl ⟨rfl, hzero, rfl⟩

theorem postWriteImpl_again {fd : Bool} (h : (postWriteImpl κ fd d o).1 = .again) :
    (postWriteImpl κ fd d o).2.space d = 0 := by
  unfold postWriteImpl writev Kernel.sysWritev at *
  cases fd with
  | false => cases h
  | true =>
    by_cases hspace : 0 < κ.space d
    · simp only [if_pos hspace, if_true, ne_eq, not_true_eq_false, if_false, Kernel.skip] at h ⊢
      split at h
      · cases h
      · show Function.update κ.space d _ d = 0
        rw [Function.update_self]
        omega
    · simp only [if_neg hspace, if_true, ne_eq, not_true_eq_false, if_false]
      omega

theorem postAcceptImpl_again {fd : Bool} (h : (postAcceptImpl κ fd d).1 = .again) :
    (postAcceptImpl κ fd d).2.connections d = 0 := by
  unfold postAcceptImpl Kernel.sysAccept at *
  cases fd with
  | false => cases h
  | true =>
    by_cases hsome : 0 < κ.connections d
    · simp only [if_pos hsome, if_true] at h
      cases h
    · simp only [if_neg hsome, if_true]
      omega

/-- An operation that has to wait is not ready, or it is a fixed-length read at the end. -/
theorem ready_of_again {fd : Bool} (h : (postProc κ (kind o) fd d o).1 = .again)
    (hready : Ready kind (postProc κ (kind o) fd d o).2 d o) : ShortAtEnd kind κ d o := by
  have hconsumes := postProc_consumes (κ := κ) (d := d) (o := o) (kind o) fd
  unfold Ready at hready
  unfold postProc at h hready hconsumes
  cases hk : kind o with
  | read fixedLen =>
    rw [hk] at h hready hconsumes
    cases fixedLen with
    | false =>
      obtain ⟨hsame, hdata, hfinished⟩ := postReadImpl_again h
      simp only [hsame] at hready
      rcases hready with hsome | hend
      · omega
      · rw [hfinished] at hend
        cases hend
    | true =>
      rcases postReadImplFixedLen_again h with ⟨hsame, hdata, hfinished⟩ | ⟨hdata, hless, hzero⟩
      · simp only [hsame] at hready
        rcases hready with hsome | hend
        · omega
        · rw [hfinished] at hend
          cases hend
      · rcases hready with hsome | hend
        · simp only [hzero] at hsome
          omega
        · exact ⟨hk, hdata, hless, hconsumes.finished ▸ hend⟩
  | write =>
    rw [hk] at h hready
    have hzero := postWriteImpl_again h
    simp only [hzero] at hready
    omega
  | accept =>
    rw [hk] at h hready
    have hzero := postAcceptImpl_again h
    simp only [hzero] at hready
    omega
  | other =>
    rw [hk] at hready
    exact hready.elim

end EpollReadiness
