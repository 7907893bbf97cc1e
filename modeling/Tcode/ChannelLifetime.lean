import Tcode.ChannelEvents

/-! # The lifetime of a channel

Nothing is left to do and no caller holds a reference: then the channel is gone, if
`fire_on_open` was called on its run-loop thread. A call from another thread takes a
second reference when it is run again on the loop, and nobody gives that one back.
-/
namespace ChannelLifetime

open ChannelFlagWord ChannelMachine ChannelTokens ChannelInvariant ChannelRefinement
open ChannelEvents SupportTransitionSystem

variable {F : Type} {onLoop : Bool}

/-- The references that operations, closures, handlers and callers hold. -/
def holding (s : State F) : Nat := refTokens.load s + s.user

structure SafeLifetime (s : State (BitVec 32)) : Prop where
  deleted : s.deleted = true → s.flag = 0 ∧ holding s = 0
  once : s.events.count .onEndReference ≤ 1
  last : .onEndReference ∈ s.events →
    s.flag = 0 ∧ holding s = 0 ∧
      ∃ before, s.events = before ++ [.onEndReference] ∧ .onClose ∈ before

/-- Every operation has completed, every closure and call has run, every reference that a
caller took was given back. -/
def Quiescent (s : State F) : Prop :=
  s.main = [] ∧ s.others = [] ∧ s.tasks = [] ∧ s.ops = [] ∧ s.user = 0

def Balanced (s : State (BitVec 32)) : Prop :=
  s.flag = 0 ∧ s.events.count .onEndReference = 1 ∧ .onClose ∈ s.events ∧ s.deleted = true

instance (s : State F) : Decidable (Quiescent s) :=
  inferInstanceAs (Decidable (_ ∧ _ ∧ _ ∧ _ ∧ _))

instance (s : State (BitVec 32)) : Decidable (Balanced s) :=
  inferInstanceAs (Decidable (_ ∧ _ ∧ _ ∧ _))

theorem holding_of_zero {s : State Counters} (h : Opened s)
    (hz : counters.isZero s.flag = true) : holding s = 0 := by
  have haccounted := h.invariant.accounted
  have hrefs : s.flag.refs = 0 ∧ s.flag.error = false ∧ s.flag.close = false := by
    simpa [counters, and_assoc] using hz
  obtain ⟨hrefs, herror, hclose⟩ := hrefs
  rw [Accounted, hrefs, hclose, Bool.toNat_false] at haccounted
  unfold holding
  cases h.invariant.phase with
  | before thread main refs error =>
    rw [herror] at error
    cases error
  | done thread reposts tokens => omega
  | start thread => cases thread
  | posted thread => cases thread

theorem flag_eq_zero {s : State Counters} (h : Invariant onLoop s) :
    (State.encode s).flag = 0 ↔ counters.isZero s.flag = true := by
  have hlt : s.flag.refs < 268435456 := Nat.lt_of_succ_lt h.refs_lt
  rw [← encode_isZero hlt]
  exact beq_iff_eq.symm

/-- The end of references is the last event, behind the close event. -/
theorem end_last {s : State Counters} (h : Opened s) (hend : .onEndReference ∈ s.events) :
    ∃ before, s.events = before ++ [.onEndReference] ∧ .onClose ∈ before := by
  have hevents : s.events <+: story s := List.prefix_append _ _
  obtain ⟨traffic, htraffic, hstory⟩ := h.story
  have hnot : Event.onEndReference ∉ traffic := fun hmem => htraffic _ hmem
  have hin := hevents.subset hend
  rcases hstory with ⟨-, hstory⟩ | ⟨-, ec, -, hstory | hstory⟩
  · simp [hstory, hnot] at hin
  · simp [hstory, hnot] at hin
  · refine ⟨.onOpen :: traffic ++ [.onError ec, .onClose], ?_, by simp⟩
    have hsplit :
        story s = (.onOpen :: traffic ++ [.onError ec, .onClose]) ++ [.onEndReference] := by
      rw [hstory, List.append_assoc]
      rfl
    rw [hsplit] at hevents
    rcases List.prefix_concat_iff.mp hevents with heq | hshort
    · exact heq
    · have := hshort.subset hend
      simp [hnot] at this

theorem safeLifetime {s : State Counters} (h : Opened s) : SafeLifetime (State.encode s) := by
  have hends := h.ends
  have hdeletes := h.deletes
  have hone := Bool.toNat_le (counters.isZero s.flag)
  have hzero (hpos : 0 < (counters.isZero s.flag).toNat) : counters.isZero s.flag = true := by
    cases hz : counters.isZero s.flag with
    | true => rfl
    | false => simp [hz] at hpos
  rw [Ends] at hends
  rw [Deletes] at hdeletes
  refine ⟨fun hd => ?_, ?_, fun hend => ?_⟩
  · have hd' : s.deleted = true := hd
    rw [hd', Bool.toNat_true] at hdeletes
    have hz := hzero (by omega)
    exact ⟨(flag_eq_zero h.invariant).mpr hz, holding_of_zero h hz⟩
  · show s.events.count .onEndReference ≤ 1
    omega
  · have hcount : 0 < s.events.count .onEndReference := List.count_pos_iff.mpr hend
    have hz := hzero (by omega)
    exact ⟨(flag_eq_zero h.invariant).mpr hz, holding_of_zero h hz, end_last h hend⟩

/-- With nothing left to do, the reading has ended, so the channel was closed; with no
reference held the count is zero. -/
theorem zero_of_quiescent {s : State Counters} (h : Opened s) (hq : Quiescent s) :
    counters.isZero s.flag = true := by
  obtain ⟨hmain, hothers, htasks, hops, huser⟩ := hq
  have hload (w : Tokens) : w.load s = 0 := by
    simp [Tokens.load, hmain, hothers, htasks, hops]
  have hclose : s.flag.close = false := by
    cases hc : s.flag.close with
    | false => rfl
    | true =>
      rcases h.invariant.reads.2 hc with hread | ⟨ec, hclosing⟩
      · rw [hload] at hread
        cases hread
      · simp [hmain] at hclosing
  have hcloses := h.invariant.closes
  have haccounted := h.invariant.accounted
  rw [Closes, hclose, hload] at hcloses
  rw [Accounted, hclose, hload, hload, huser] at haccounted
  have herror : s.flag.error = false := by
    cases he : s.flag.error with
    | false => rfl
    | true => simp [he] at hcloses
  have hreposts : s.reposts = 0 := by
    cases h.invariant.phase with
    | before thread main => simp [hmain] at main
    | done thread reposts => exact reposts
    | start thread => cases thread
    | posted thread => cases thread
  have hrefs : s.flag.refs = 0 := by
    rw [hreposts, Bool.toNat_false] at haccounted
    omega
  simp [counters, hrefs, herror, hclose]

theorem balanced_of_quiescent {s : State Counters} (h : Opened s) (hq : Quiescent s) :
    Balanced (State.encode s) := by
  have hz := zero_of_quiescent h hq
  obtain ⟨hmain, hothers, htasks, hops, -⟩ := hq
  have hload (w : Tokens) : w.load s = 0 := by
    simp [Tokens.load, hmain, hothers, htasks, hops]
  have hends := h.ends
  have hdeletes := h.deletes
  rw [Ends, hload, hz, Nat.zero_add, Bool.toNat_true] at hends
  rw [Deletes, hload, hz, Nat.zero_add, Bool.toNat_true] at hdeletes
  have hend : .onEndReference ∈ s.events := List.count_pos_iff.mp (by omega)
  obtain ⟨before, hbefore, hclosed⟩ := end_last h hend
  refine ⟨(flag_eq_zero h.invariant).mpr hz, hends, ?_, ?_⟩
  · show Event.onClose ∈ s.events
    exact hbefore ▸ List.mem_append_left _ hclosed
  · show s.deleted = true
    cases hd : s.deleted with
    | true => rfl
    | false => simp [hd] at hdeletes

/-- The reference of the call that posted itself is still counted. -/
theorem leaked_of_quiescent {s : State Counters} (h : Invariant false s) (hq : Quiescent s) :
    s.flag.refs = s.flag.close.toNat + 1 := by
  obtain ⟨hmain, hothers, htasks, hops, huser⟩ := hq
  have hload (w : Tokens) : w.load s = 0 := by
    simp [Tokens.load, hmain, hothers, htasks, hops]
  have haccounted := h.accounted
  rw [Accounted, hload, hload, huser] at haccounted
  cases h.phase with
  | start thread state => simp [state, opening] at hothers
  | before thread => cases thread
  | posted thread reposts => omega
  | done thread => cases thread

/-- A channel opened on its run-loop thread is never deleted while a reference is held, and
it is gone when nothing is left to do; the count of one opened elsewhere is not zero then. -/
theorem lifetime_balanced_iff {s : State (BitVec 32)}
    (h : (machine word).Reachable (opening word onLoop) s) :
    (onLoop = true → SafeLifetime s) ∧ (Quiescent s → (Balanced s ↔ onLoop = true)) := by
  obtain ⟨s, hs, rfl⟩ := execution_encode h
  have hinv := invariant_reachable hs
  cases onLoop with
  | true =>
    have hopen := opened_reachable (hs.mono fun _ _ _ => trivial)
    exact ⟨fun _ => safeLifetime hopen, fun hq =>
      iff_of_true (balanced_of_quiescent hopen hq) rfl⟩
  | false =>
    refine ⟨nofun, fun hq => ?_⟩
    refine iff_of_false (fun hb => ?_) (by decide)
    have hz := (flag_eq_zero hinv).mp hb.1
    have hrefs : s.flag.refs = 0 := by
      have : s.flag.refs = 0 ∧ s.flag.error = false ∧ s.flag.close = false := by
        simpa [counters, and_assoc] using hz
      exact this.1
    have := leaked_of_quiescent hinv hq
    omega

/-- Opened on another thread, then reset by the peer. -/
def openedElsewhere : List Step :=
  [.runOther 0, .runOther 0, .task] ++ List.replicate 5 Step.run ++ [.complete 0 (.error 104)] ++
    List.replicate 4 Step.run ++ [.task] ++ List.replicate 6 Step.run

theorem openedElsewhere_not_balanced :
    ¬ ∀ (onLoop : Bool) (s : State (BitVec 32)),
      (machine word).Reachable (opening word onLoop) s → Quiescent s → Balanced s := by
  intro h
  have hvalid : (machine word).ValidTrace (fun _ _ => True) (opening word false)
      openedElsewhere := by decide +kernel
  have hbalanced := h false _ (System.ValidTrace.reachable hvalid) (by decide +kernel)
  revert hbalanced
  decide +kernel

theorem lifetime_balanced_iff_resetByPeer :
    let s := (machine word).runTrace (opening word true) resetByPeer
    SafeLifetime s ∧ Balanced s := by
  intro s
  have hs : (machine word).Reachable (opening word true) s :=
    System.ValidTrace.reachable (by decide +kernel)
  have hlifetime := lifetime_balanced_iff hs
  exact ⟨hlifetime.1 rfl, (hlifetime.2 (by decide +kernel)).mpr rfl⟩

end ChannelLifetime
