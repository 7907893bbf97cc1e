import Mathlib.Algebra.Order.Group.Multiset
import Mathlib.Tactic.Abel
import Tcode.CompletionPortMachine
import Tcode.SupportSimulation

/-! # Delivery by the completion port

An operation that is handed to the completion port is invoked once: behind its completion, or as
a closure when it could not be started. What waits is always worked off, unless calls keep coming
or operations are started over and over.
-/
namespace CompletionPortMachine

open SupportSimulation SupportTransitionSystem

variable {s t : State} {e : Step} {o : Overlapped} {j : Nat}

/-- The operations that a step hands over. -/
def issued (s : State) : Step → List OperationId
  | .call _ (.connect _ op _) => [op]
  | .call _ (.start k op _) => if (s.sockets k).isSome then [op] else []
  | .call _ (.udpWriteNull _ op _) => [op]
  | .call _ (.udpReadNull op) => [op]
  | _ => []

/-- The operations that a step invokes. -/
def invoked (s : State) : Step → List OperationId
  | .postProc r =>
    match s.frame with
    | .completing o => if r = .again then [] else [o.op]
    | _ => []
  | .task =>
    match s.posted with
    | .op op :: _ => [op]
    | _ => []
  | _ => []

def Posted.operation : Posted → Option OperationId
  | .op o => some o
  | .unbind _ => none

def Frame.operations : Frame → List OperationId
  | .completing o => [o.op]
  | _ => []

/-- The operations that are on their way. -/
def waiting (s : State) : Multiset OperationId :=
  s.attempts.map (·.overlapped.op) + s.inFlight.map (·.op) +
    s.posted.filterMap Posted.operation + s.frame.operations

/-- A step of a thread that is in a call, or of the loop. -/
def Step.works : Step → Bool
  | .call _ _ => false
  | .postProc r => r ≠ .again
  | _ => true

def Frame.work : Frame → Nat
  | .idle => 0
  | .completing _ => 2
  | .releasing _ => 1

/-- How many steps it takes at most to work off what is there. -/
def rank (s : State) : Nat :=
  4 * s.attempts.length + 3 * s.inFlight.length + s.posted.length + s.frame.work

/-! ## Steps -/

theorem coe_erase {α β : Type*} {l : List α} {a : α} (f : α → β) (ha : l[j]? = some a) :
    ((l.map f : List β) : Multiset β) =
      (([f a] : List β) : Multiset β) + ((l.eraseIdx j).map f : List β) := by
  obtain ⟨hj, rfl⟩ := List.getElem?_eq_some_iff.mp ha
  exact Multiset.coe_eq_coe.mpr ((List.getElem_cons_eraseIdx_perm hj).map f).symm

@[simp] theorem waiting_create (s : State) (k : SocketId) (bound : Bool) :
    waiting (s.create k bound) = waiting s := rfl

@[simp] theorem waiting_access (s : State) (d : DescriptorId) :
    waiting (s.access d) = waiting s := rfl

@[simp] theorem waiting_release (s : State) (d : DescriptorId) :
    waiting (descriptorRelease s d) = waiting s := rfl

@[simp] theorem waiting_sockets (s : State) (sockets : SocketId → Option DescriptorId) :
    waiting { s with sockets := sockets } = waiting s := rfl

@[simp] theorem waiting_unbind (s : State) (d : DescriptorId) :
    waiting (runUnbind s d) = waiting s := rfl

@[simp] theorem waiting_post (s : State) (c : Posted) :
    waiting (s.post c) = waiting s + (c.operation.toList : Multiset OperationId) := by
  have hposted : ((s.post c).posted.filterMap Posted.operation : Multiset OperationId) =
      s.posted.filterMap Posted.operation + (c.operation.toList : Multiset OperationId) := by
    rw [Multiset.coe_add]
    refine congrArg _ (List.filterMap_append.trans (congrArg _ ?_))
    cases hc : c.operation <;> simp [hc]
  have hattempts : (s.post c).attempts = s.attempts := rfl
  have hinFlight : (s.post c).inFlight = s.inFlight := rfl
  have hframe : (s.post c).frame = s.frame := rfl
  rw [waiting, hposted, hattempts, hinFlight, hframe, waiting]
  abel

@[simp] theorem waiting_attempt (s : State) (o : Overlapped) (onLoop : Bool) :
    waiting (s.attempt o onLoop) = waiting s + ([o.op] : Multiset OperationId) := by
  have hattempts : ((s.attempt o onLoop).attempts.map (·.overlapped.op) : Multiset OperationId) =
      s.attempts.map (·.overlapped.op) + ([o.op] : Multiset OperationId) := by
    rw [Multiset.coe_add]
    exact congrArg _ List.map_append
  have hinFlight : (s.attempt o onLoop).inFlight = s.inFlight := rfl
  have hposted : (s.attempt o onLoop).posted = s.posted := rfl
  have hframe : (s.attempt o onLoop).frame = s.frame := rfl
  rw [waiting, hattempts, hinFlight, hposted, hframe, waiting]
  abel

theorem waiting_start (s : State) (o : Overlapped) :
    waiting { s with inFlight := s.inFlight ++ [o] } =
      waiting s + ([o.op] : Multiset OperationId) := by
  have hinFlight : ((s.inFlight ++ [o]).map (·.op) : Multiset OperationId) =
      s.inFlight.map (·.op) + ([o.op] : Multiset OperationId) := by
    rw [Multiset.coe_add]
    exact congrArg _ List.map_append
  rw [waiting, hinFlight, waiting]
  abel

theorem waiting_completing (h : s.frame = .completing o) (d : DescriptorId) :
    waiting s = ([o.op] : Multiset OperationId) + waiting { s with frame := .releasing d } := by
  simp only [waiting, h, Frame.operations]
  abel

theorem waiting_releasing {d : DescriptorId} (h : s.frame = .releasing d) :
    waiting { s with frame := .idle } = waiting s := by
  simp only [waiting, h, Frame.operations]

theorem waiting_taken {c : Posted} {rest : List Posted} (hp : s.posted = c :: rest) :
    waiting s = (c.operation.toList : Multiset OperationId) +
      waiting { s with posted := rest, engine := s.engine - 1 } := by
  have hposted : (s.posted.filterMap Posted.operation : Multiset OperationId) =
      (c.operation.toList : Multiset OperationId) + rest.filterMap Posted.operation := by
    rw [hp, Multiset.coe_add]
    cases hc : c.operation <;> simp [hc]
  rw [waiting, hposted, waiting]
  abel

theorem frame_postProc (s : State) (o : Overlapped) (r : PostResult) :
    (postProc s o r).frame = s.frame := by
  cases r with
  | done | again => rfl
  | accepted bound => cases hkind : o.kind <;> simp [postProc, hkind, State.create, State.set,
      State.access]

theorem waiting_postProc (s : State) (o : Overlapped) (r : PostResult) :
    waiting (postProc s o r) =
      waiting s + ((if r = .again then [o.op] else [] : List OperationId) :) := by
  cases r with
  | done | again => simp [postProc]
  | accepted bound => cases hkind : o.kind <;> simp [postProc, hkind]

/-- Every operation that is handed over waits until it is invoked. -/
theorem waiting_next (h : Enabled s e) :
    waiting s + (issued s e : Multiset OperationId) =
      (invoked s e : Multiset OperationId) + waiting (next s e) := by
  cases e with
  | call onLoop c =>
    show _ = 0 + _
    rw [zero_add]
    cases c with
    | openSocket k bound => simp [issued, next, Call.effect]
    | connect k op r =>
      cases r with
      | noDescriptor | failed => simp [issued, next, Call.effect, Posted.operation]
      | started => exact (waiting_start (s.create k true) ⟨op, .connect, s.made⟩).symm
    | start k op kind =>
      cases hk : s.sockets k <;> simp [issued, next, Call.effect, hk]
    | udpWriteNull k op created =>
      cases created with
      | none => simp [issued, next, Call.effect, Posted.operation]
      | some bound => cases bound <;> simp [issued, next, Call.effect, Posted.operation]
    | udpReadNull op => simp [issued, next, Call.effect, Posted.operation]
    | unbind k =>
      cases hk : s.sockets k <;> simp [issued, next, Call.effect, hk, Posted.operation]
  | result j started =>
    show _ + 0 = 0 + _
    obtain ⟨a, ha⟩ : ∃ a, s.attempts[j]? = some a := ⟨_, List.getElem?_eq_getElem h⟩
    have htaken : waiting s = waiting { s with attempts := s.attempts.eraseIdx j } +
        ([a.overlapped.op] : Multiset OperationId) := by
      rw [waiting, coe_erase _ ha, waiting]
      abel
    cases started with
    | true =>
      rw [add_zero, zero_add, htaken, ← waiting_start]
      simp only [next, ha, if_true]
    | false => simp [next, ha, htaken, Posted.operation]
  | complete j =>
    obtain ⟨-, hidle, hj⟩ := h
    show _ + 0 = 0 + _
    obtain ⟨o, ho⟩ : ∃ o, s.inFlight[j]? = some o := ⟨_, List.getElem?_eq_getElem hj⟩
    simp only [waiting, coe_erase _ ho, next, ho, hidle, Frame.operations]
    show _ + 0 + 0 = 0 + _
    abel
  | postProc r =>
    show _ + 0 = _
    obtain ⟨-, hpost⟩ := h
    cases hframe : s.frame with
    | idle | releasing d =>
      rw [hframe] at hpost
      cases hpost
    | completing o =>
      rw [hframe] at hpost
      have hpostProc := waiting_postProc s o r
      have hmoved := waiting_completing ((frame_postProc s o r).trans hframe) o.desc
      rw [hpostProc] at hmoved
      simp only [invoked, next, hframe]
      rw [add_zero]
      by_cases hagain : r = .again
      · rw [if_pos hagain] at hmoved ⊢
        rw [add_comm] at hmoved
        exact (add_left_cancel hmoved).trans (zero_add _).symm
      · rw [if_neg hagain] at hmoved ⊢
        exact (add_zero _).symm.trans hmoved
  | release =>
    obtain ⟨-, hreleases⟩ := h
    show _ + 0 = 0 + _
    rw [add_zero, zero_add]
    cases hframe : s.frame with
    | idle | completing o =>
      rw [hframe] at hreleases
      cases hreleases
    | releasing d =>
      have hsame : (descriptorRelease s d).frame = .releasing d := hframe
      simp only [next, hframe]
      exact (waiting_releasing hsame).symm
  | task =>
    obtain ⟨-, -, hposted⟩ := h
    show _ + 0 = _
    rw [add_zero]
    cases hp : s.posted with
    | nil => exact absurd hp hposted
    | cons c rest =>
      rw [waiting_taken hp]
      cases c with
      | op o => simp only [invoked, next, hp, Posted.operation, Option.toList_some]
      | unbind d =>
        simp only [invoked, next, hp, Posted.operation, Option.toList_none, waiting_unbind]

/-! ## Progress -/

theorem waiting_of_rank (h : rank s = 0) : waiting s = 0 := by
  unfold rank at h
  have hattempts : s.attempts = [] := List.eq_nil_of_length_eq_zero (by omega)
  have hinFlight : s.inFlight = [] := List.eq_nil_of_length_eq_zero (by omega)
  have hposted : s.posted = [] := List.eq_nil_of_length_eq_zero (by omega)
  have hframe : s.frame.operations = [] := by
    cases hs : s.frame with
    | completing o =>
      rw [hs, Frame.work] at h
      omega
    | _ => rfl
  rw [waiting, hattempts, hinFlight, hposted, hframe]
  rfl

/-- As long as something is there, a step that starts nothing anew leaves less. -/
theorem exists_work (h : rank s ≠ 0) : ∃ e : Step, e.works ∧ Enabled s e ∧
    rank (next s e) < rank s := by
  cases hattempts : s.attempts with
  | cons a rest =>
    have hlen : s.attempts.length = rest.length + 1 := by rw [hattempts, List.length_cons]
    refine ⟨.result 0 true, rfl, by rw [Enabled]; omega, ?_⟩
    simp [next, hattempts, rank]
    omega
  | nil =>
    have hfree : s.Free := by simp [State.Free, hattempts]
    cases hframe : s.frame with
    | completing o =>
      refine ⟨.postProc .done, rfl, ⟨hfree, ?_⟩, ?_⟩
      · rw [hframe]
        simp [Frame.mayPost, Kind.mayPost]
      · simp [next, hframe, rank, postProc, State.access, Frame.work]
    | releasing d =>
      refine ⟨.release, rfl, ⟨hfree, by rw [hframe]; rfl⟩, ?_⟩
      simp [next, hframe, rank, descriptorRelease, State.access, State.set, Frame.work]
    | idle =>
      cases hinFlight : s.inFlight with
      | cons o rest =>
        refine ⟨.complete 0, rfl, ⟨hfree, hframe, by rw [hinFlight, List.length_cons]; omega⟩, ?_⟩
        simp [next, hframe, hinFlight, rank, Frame.work]
        omega
      | nil =>
        cases hposted : s.posted with
        | nil => simp [rank, hattempts, hinFlight, hposted, hframe, Frame.work] at h
        | cons c rest =>
          refine ⟨.task, rfl, ⟨hfree, hframe, by rw [hposted]; exact List.cons_ne_nil c rest⟩, ?_⟩
          cases c <;> simp [next, hposted, rank, runUnbind, descriptorRelease, State.access,
            State.set, hframe]

theorem exists_drain (s : State) : ∃ es : List Step, (∀ e ∈ es, e.works = true) ∧
    machine.ValidTrace (fun _ _ => True) s es ∧ rank (machine.runTrace s es) = 0 := by
  induction hn : rank s using Nat.strong_induction_on generalizing s with
  | _ n ih =>
    by_cases hzero : rank s = 0
    · exact ⟨[], fun e he => absurd he List.not_mem_nil, trivial, hzero⟩
    · obtain ⟨e, hworks, hen, hless⟩ := exists_work hzero
      obtain ⟨es, hall, hvalid, hdone⟩ := ih (rank (next s e)) (hn ▸ hless) (next s e) rfl
      refine ⟨e :: es, ?_, ⟨hen, trivial, hvalid⟩, hdone⟩
      rintro f (_ | ⟨_, hf⟩)
      · exact hworks
      · exact hall f hf

theorem issued_works (h : e.works = true) : issued s e = [] := by
  cases e with
  | call onLoop c => cases h
  | _ => rfl

theorem labels_works {es : List Step} (h : ∀ e ∈ es, e.works = true) :
    labels machine issued s es = [] := by
  induction es generalizing s with
  | nil => rfl
  | cons e es ih =>
    rw [labels, issued_works (h e List.mem_cons_self),
      ih fun f hf => h f (List.mem_cons_of_mem e hf)]
    rfl

/-! ## Runs -/

/-- No operation is invoked more often than it is handed over, and no call is needed to get all
of them invoked. -/
theorem invokes_once {es : List Step} (h : machine.ValidTrace (fun _ _ => True) initial es) :
    (labels machine invoked initial es).Subperm (labels machine issued initial es) ∧
      ∃ more : List Step, (∀ e ∈ more, e.works = true) ∧
        machine.ValidTrace (fun _ _ => True) initial (es ++ more) ∧
        (labels machine invoked initial (es ++ more)).Perm (labels machine issued initial es) := by
  have hconserved (es : List Step) (hes : machine.ValidTrace (fun _ _ => True) initial es) :
      waiting initial + (labels machine issued initial es : Multiset OperationId) =
        (labels machine invoked initial es : Multiset OperationId) +
          waiting (machine.runTrace initial es) :=
    labels_conserved hes fun s e hen _ => waiting_next hen
  have hempty : waiting initial = 0 := rfl
  constructor
  · rw [← Multiset.coe_le]
    have hes := hconserved es h
    rw [hempty, zero_add] at hes
    rw [hes]
    exact Multiset.le_add_right _ _
  · obtain ⟨more, hworks, hvalid, hdone⟩ := exists_drain (machine.runTrace initial es)
    have hall := validTrace_append h hvalid
    refine ⟨more, hworks, hall, ?_⟩
    rw [← Multiset.coe_eq_coe]
    have hes := hconserved (es ++ more) hall
    rw [hempty, zero_add, runTrace_append, waiting_of_rank hdone, add_zero, labels_append,
      labels_works hworks, List.append_nil] at hes
    exact hes.symm

/-- A read and a write of which the later one is completed first, and one that cannot be
started. -/
def outOfOrder : List Step :=
  [.call true (.openSocket 0 true), .call true (.start 0 7 .read), .result 0 true,
    .call true (.start 0 8 .write), .result 0 true, .call false (.start 0 9 .read),
    .complete 1, .postProc .again, .result 0 false, .result 0 true, .release, .task, .complete 0]

theorem invokes_once_outOfOrder :
    labels machine invoked initial outOfOrder = [9] ∧
      ∃ more : List Step, (∀ e ∈ more, e.works = true) ∧
        (labels machine invoked initial (outOfOrder ++ more)).Perm [7, 8, 9] := by
  have hvalid : machine.ValidTrace (fun _ _ => True) initial outOfOrder := by decide
  obtain ⟨-, more, hworks, -, hperm⟩ := invokes_once hvalid
  exact ⟨by decide, more, hworks, hperm⟩

end CompletionPortMachine
