import Tcode.SupportHistory
import Tcode.TimerAborts

/-! # timeout_filter

The filter on an engine whose other timers others use as they like. Nobody but the filter has
its timer. The events of the channel come on the run-loop thread; where the filter stands in its
pipeline makes no difference to what it does with its timer and its reference.

`releases`, `addRefs` and `log` are bookkeeping.
-/
namespace FilterTimeout

open SupportHistory SupportTransitionSystem SupportUpperBound
open TimerReferences TimerCancel TimerAborts
open TimerMachine (TimerId ErrorCode Closure Frame Pending)

inductive Event where
  | opened (now : Int)
  | read (now : Int)
  /-- `close( tcode::error_timeout )`. -/
  | closeRequested (now : Int)
  deriving DecidableEq, Repr

structure State where
  engine : TimerMachine.State
  /-- `_timer`, null until the filter is opened. -/
  timer : Option TimerId
  stamp : Int
  closed : Bool
  /-- `_timer` was null when it was used. -/
  nullTimer : Bool
  addRefs : Nat
  releases : Nat
  log : List Event

/-- A filter that was made when the clock read `now`. -/
def initial (now : Int) : State :=
  ⟨TimerMachine.initial, none, now, false, false, 0, 0, []⟩

section Filter

variable (timeout : Int)

def filterOnOpen (now : Int) (s : State) : State :=
  let id := s.engine.made
  let calls : List TimerMachine.Call :=
    [.make, .dueTime id (now + timeout), .repeatSpan id timeout, .fire id]
  { s with
    engine := calls.foldl (fun engine c => c.effect true engine) s.engine
    timer := some id
    stamp := now
    addRefs := s.addRefs + 1
    log := s.log ++ [.opened now] }

def onTimer (now : Int) (s : State) : ErrorCode → State
  | .aborted => { s with releases := s.releases + 1 }
  | .success =>
    if timeout < now - s.stamp then { s with log := s.log ++ [.closeRequested now] } else s

def filterOnRead (now : Int) (s : State) : State :=
  { s with stamp := now, log := s.log ++ [.read now] }

def filterOnClose (s : State) : State :=
  match s.timer with
  | none => { s with closed := true, nullTimer := true }
  | some id => { s with closed := true, engine := TimerMachine.timerCancel true s.engine id }

/-- What the timer's callback is called with in a step of the engine. -/
def callsBack (s : State) : TimerMachine.Step → Option ErrorCode
  | .run =>
    match s.engine.frame with
    | .aborting id _ => if s.timer = some id then some .aborted else none
    | .firing id _ => if s.timer = some id then some .success else none
    | _ => none
  | _ => none

/-- A step of the engine when the clock reads `now`. -/
def engineStep (e : TimerMachine.Step) (now : Int) (s : State) : State :=
  let s' := { s with engine := TimerMachine.next s.engine e }
  match callsBack s e with
  | none => s'
  | some ec => onTimer timeout now s' ec

inductive Step where
  | filterOnOpen (now : Int)
  | filterOnRead (now : Int)
  | filterOnClose
  | engine (e : TimerMachine.Step) (now : Int)
  deriving DecidableEq, Repr

/-- The timer that a call is about. -/
def callTimer : TimerMachine.Call → Option TimerId
  | .make => none
  | .destroy id | .dueTime id _ | .repeatSpan id _ | .fire id | .cancel id => some id

/-- The step is not a call on the timer. -/
def Stranger (i : TimerId) : TimerMachine.Step → Prop
  | .call c | .callOther c => callTimer c ≠ some i
  | .other _ | .task | .drain _ | .run => True

def Enabled (s : State) : Step → Prop
  | .filterOnOpen _ => s.engine.frame.User ∧ s.timer = none
  | .filterOnRead _ => s.engine.frame.User
  | .filterOnClose => s.engine.frame.User ∧ s.closed = false
  | .engine e _ => TimerMachine.Enabled s.engine e ∧ ∀ i ∈ s.timer, Stranger i e

def next (s : State) : Step → State
  | .filterOnOpen now => filterOnOpen timeout now s
  | .filterOnRead now => filterOnRead now s
  | .filterOnClose => filterOnClose s
  | .engine e now => engineStep timeout e now s

def machine : System State Step := ⟨Enabled, next timeout⟩

/-- The filter is opened before it is closed, and its timer is fired only if it repeats. -/
def Clean (s : State) : Step → Prop
  | .filterOnClose => s.timer.isSome
  | .engine e _ => callsBack s e = some .success → timeout.tdiv 1000 ≠ 0
  | _ => True

end Filter

instance (i : TimerId) : ∀ e : TimerMachine.Step, Decidable (Stranger i e)
  | .call c | .callOther c => inferInstanceAs (Decidable (callTimer c ≠ some i))
  | .other _ | .task | .drain _ | .run => isTrue trivial

instance (s : State) : ∀ e : Step, Decidable (Enabled s e)
  | .filterOnOpen _ | .filterOnClose => inferInstanceAs (Decidable (_ ∧ _))
  | .filterOnRead _ => inferInstanceAs (Decidable s.engine.frame.User)
  | .engine e _ =>
    inferInstanceAs (Decidable (TimerMachine.Enabled s.engine e ∧ ∀ i ∈ s.timer, Stranger i e))

instance (timeout : Int) (s : State) (e : Step) : Decidable ((machine timeout).Enabled s e) :=
  inferInstanceAs (Decidable (Enabled s e))

instance (timeout : Int) (s : State) : ∀ e : Step, Decidable (Clean timeout s e)
  | .filterOnClose => inferInstanceAs (Decidable (s.timer.isSome = true))
  | .engine _ _ => inferInstanceAs (Decidable (_ → _))
  | .filterOnOpen _ | .filterOnRead _ => isTrue trivial

variable {timeout now : Int} {s t : State} {i id : TimerId} {e : TimerMachine.Step}

/-! ## The time since the last event -/

/-- When the filter was last opened or read. -/
def lastActive (log : List Event) : Option Int :=
  log.foldl (fun last e =>
    match e with
    | .opened now | .read now => some now
    | .closeRequested _ => last) none

/-- A close is requested only when more than the timeout has passed. -/
def Late (timeout : Int) (before : List Event) : Event → Prop
  | .closeRequested now => ∃ active, lastActive before = some active ∧ timeout < now - active
  | _ => True

@[simp] theorem lastActive_opened (log : List Event) (now : Int) :
    lastActive (log ++ [.opened now]) = some now := by
  simp [lastActive]

@[simp] theorem lastActive_read (log : List Event) (now : Int) :
    lastActive (log ++ [.read now]) = some now := by
  simp [lastActive]

@[simp] theorem lastActive_closeRequested (log : List Event) (now : Int) :
    lastActive (log ++ [.closeRequested now]) = lastActive log := by
  simp [lastActive]

structure Stamped (timeout : Int) (s : State) : Prop where
  stamp : s.timer.isSome = true → lastActive s.log = some s.stamp
  late : Justified (Late timeout) s.log

theorem stamped_callback (h : Stamped timeout s) (e : TimerMachine.Step) (now : Int) :
    Stamped timeout (engineStep timeout e now s) := by
  unfold engineStep
  cases hcall : callsBack s e with
  | none => exact ⟨h.stamp, h.late⟩
  | some ec =>
    cases ec with
    | aborted => exact ⟨h.stamp, h.late⟩
    | success =>
      have htimer : s.timer.isSome = true := by
        cases e with
        | run =>
          simp only [callsBack] at hcall
          split at hcall
          · split at hcall <;> simp at hcall
          · split at hcall
            · next heq => simp [heq]
            · simp at hcall
          · simp at hcall
        | call _ | callOther _ | other _ | task | drain _ => simp [callsBack] at hcall
      simp only [onTimer]
      split
      · next hlate =>
        refine ⟨fun _ => ?_, justified_snoc.mpr ⟨h.late, s.stamp, h.stamp htimer, hlate⟩⟩
        rw [lastActive_closeRequested]
        exact h.stamp htimer
      · exact ⟨h.stamp, h.late⟩

theorem stamped_reachable {start : Int} (h : (machine timeout).Reachable (initial start) s) :
    Stamped timeout s := by
  refine h.invariant ⟨nofun, justified_nil⟩ ?_
  intro u e _ hu _ _
  cases e with
  | filterOnOpen now =>
    exact ⟨fun _ => lastActive_opened _ _, justified_snoc.mpr ⟨hu.late, trivial⟩⟩
  | filterOnRead now =>
    exact ⟨fun _ => lastActive_read _ _, justified_snoc.mpr ⟨hu.late, trivial⟩⟩
  | filterOnClose =>
    simp only [machine, next, filterOnClose]
    split
    · exact ⟨hu.stamp, hu.late⟩
    · exact ⟨hu.stamp, hu.late⟩
  | engine e now => exact stamped_callback hu e now

/-! ## A timer that nobody else uses -/

def pendingTimer : Pending → TimerId
  | .timerCancel id _ => id
  | .post c => closureId c

def cancels (i : TimerId) : Closure → Bool
  | .cancel id _ => decide (id = i)
  | .schedule _ => false

/-- The loop thread runs a cancel closure that has not called the timer back yet. -/
def cancelsNow (i : TimerId) : Frame → Nat
  | .cancel id _ | .aborting id _ => if id = i then 1 else 0
  | _ => 0

/-- The cancel closures that have not called the timer back yet. -/
def cancelsLeft (s : TimerMachine.State) (i : TimerId) : Nat :=
  s.posted.countP (cancels i) + cancelsNow i s.frame

/-- The entry of the timer was taken out by its cancel closure. -/
def Aborting (i : TimerId) (f : Frame) : Prop := ∃ k, f = .aborting i k

/-- The callback of the timer was called and it is not yet put back. -/
def Repeating (i : TimerId) (f : Frame) : Prop := ∃ ts, f = .inFire i ts ∨ f = .repeats i ts

structure Private (timeout : Int) (s : TimerMachine.State) (i : TimerId) : Prop where
  alive : s.alive i = true
  span : TimerAborts.State.repeatSpan s i = timeout
  others : ∀ p ∈ s.others, pendingTimer p ≠ i
  repeats : Repeating i s.frame → timeout.tdiv 1000 ≠ 0

variable {u : TimerMachine.State} {c : TimerMachine.Call} {onLoop : Bool}

theorem made_of_alive (h : Counted u) (halive : u.alive i = true) : i < u.made := by
  cases h.accounts i with
  | unborn made none =>
    have hpos := object_pos halive
    omega
  | live made => exact made
  | gone made => exact made

theorem alive_effect (halive : u.alive i = true) (hc : callTimer c ≠ some i) :
    (c.effect onLoop u).alive i = true := by
  cases c with
  | make =>
    by_cases hi : i = u.made
    · simp [TimerMachine.Call.effect, hi]
    · simpa [TimerMachine.Call.effect, hi] using halive
  | destroy j =>
    have hne : i ≠ j := fun heq => hc (by rw [callTimer, heq])
    simpa [TimerMachine.Call.effect, hne] using halive
  | dueTime | repeatSpan => exact halive
  | fire j => cases onLoop <;> exact halive
  | cancel j =>
    simp only [TimerMachine.Call.effect, TimerMachine.timerCancel]
    split
    · cases onLoop <;> exact halive
    · exact halive

theorem span_effect (hmade : i < u.made) (hc : callTimer c ≠ some i) :
    TimerAborts.State.repeatSpan (c.effect onLoop u) i = TimerAborts.State.repeatSpan u i := by
  cases c with
  | make => simp [TimerAborts.State.repeatSpan, TimerMachine.Call.effect, TimerMachine.State.set,
      Nat.ne_of_lt hmade]
  | destroy j => exact congrFun repeatSpan_release i
  | dueTime j ts =>
    exact congrFun (repeatSpan_set (s := u.access j) (v := { u.ids j with dueTime := ts }) rfl) i
  | repeatSpan j span =>
    have hne : i ≠ j := fun heq => hc (by rw [callTimer, heq])
    simp [TimerAborts.State.repeatSpan, TimerMachine.Call.effect, TimerMachine.State.set,
      TimerMachine.State.access, hne]
  | fire j => exact congrFun (repeatSpan_schedule onLoop) i
  | cancel j => exact congrFun (repeatSpan_cancel onLoop) i

/-- A call on another timer leaves the closures of this one alone. -/
theorem outside_effect (hothers : ∀ p ∈ u.others, pendingTimer p ≠ i)
    (hc : callTimer c ≠ some i) :
    (∀ p ∈ (c.effect onLoop u).others, pendingTimer p ≠ i) ∧
      cancelsLeft (c.effect onLoop u) i = cancelsLeft u i := by
  rw [cancelsLeft, effect_frame, cancelsLeft]
  cases c with
  | make | dueTime | repeatSpan => exact ⟨hothers, rfl⟩
  | destroy j =>
    simp only [TimerMachine.Call.effect, release_others, release_posted]
    exact ⟨hothers, trivial⟩
  | fire j =>
    have hne : j ≠ i := fun heq => hc (by rw [callTimer, heq])
    cases onLoop with
    | true => exact ⟨hothers, rfl⟩
    | false =>
      refine ⟨fun p hp => ?_, rfl⟩
      rcases List.mem_append.mp hp with hp | hp
      · exact hothers p hp
      · rw [List.mem_singleton.mp hp]
        exact hne
  | cancel j =>
    have hne : j ≠ i := fun heq => hc (by rw [callTimer, heq])
    simp only [TimerMachine.Call.effect, TimerMachine.timerCancel]
    split
    · cases onLoop with
      | true =>
        refine ⟨hothers, ?_⟩
        simp [TimerMachine.State.addRef, TimerMachine.State.set, TimerMachine.State.access,
          TimerMachine.State.record, List.countP_append, cancels, hne]
      | false =>
        refine ⟨fun p hp => ?_, rfl⟩
        rcases List.mem_append.mp hp with hp | hp
        · exact hothers p hp
        · rw [List.mem_singleton.mp hp]
          exact hne
    · exact ⟨hothers, rfl⟩

/-- Where the loop thread is after its next access. -/
def frameAfter (u : TimerMachine.State) : Frame :=
  match u.frame with
  | .idle => .idle
  | .schedule id => .scheduled id
  | .scheduled _ => .idle
  | .cancel id k => if id ∈ u.timers then .aborting id k else .cancelled id k
  | .aborting id k => .inAbort id k
  | .inAbort id k => .aborted id k
  | .aborted id k => .cancelled id k
  | .cancelled _ _ => .idle
  | .drain ts =>
    match u.timers with
    | [] => .idle
    | id :: _ => if u.dueTime id ≤ ts then .firing id ts else .idle
  | .firing id ts => .inFire id ts
  | .inFire id ts => .repeats id ts
  | .repeats id ts => .fired id ts
  | .fired _ ts => .drain ts

theorem run_frameAfter (u : TimerMachine.State) :
    (TimerMachine.run u).frame = frameAfter u := by
  unfold TimerMachine.run frameAfter
  cases hf : u.frame with
  | idle => exact hf
  | cancel | «repeats» =>
    dsimp only
    split <;> rfl
  | drain ts =>
    cases u.timers with
    | nil => rfl
    | cons id rest =>
      dsimp only
      split <;> rfl
  | schedule | scheduled | aborting | inAbort | aborted | cancelled | firing | inFire | fired => rfl

theorem repeating_run (h : Repeating i (TimerMachine.run u).frame) :
    (∃ ts, u.frame = .firing i ts) ∨ Repeating i u.frame := by
  obtain ⟨ts, h⟩ := h
  rw [run_frameAfter, frameAfter] at h
  cases hf : u.frame with
  | firing j ts' =>
    simp only [hf, Frame.inFire.injEq, reduceCtorEq, or_false] at h
    exact Or.inl ⟨ts', by rw [h.1]⟩
  | inFire j ts' =>
    simp only [hf, reduceCtorEq, Frame.repeats.injEq, false_or] at h
    exact Or.inr ⟨ts', Or.inl (by rw [h.1])⟩
  | drain ts' =>
    simp only [hf] at h
    split at h
    · simp at h
    · split at h <;> simp at h
  | cancel j k =>
    simp only [hf] at h
    split at h <;> simp at h
  | idle | schedule | scheduled | aborting | inAbort | aborted | cancelled | «repeats» | fired =>
    simp [hf] at h

theorem private_step (h : Private timeout u i) (hcounted : Counted u)
    (he : TimerMachine.Enabled u e) (hs : Stranger i e)
    (hfire : e = .run → ∀ ts, u.frame = .firing i ts → timeout.tdiv 1000 ≠ 0) :
    Private timeout (TimerMachine.next u e) i := by
  have hmade := made_of_alive hcounted h.alive
  have hspan (hcall : ∀ c, e ≠ .call c ∧ e ≠ .callOther c) :
      TimerAborts.State.repeatSpan (TimerMachine.next u e) i = timeout :=
    (congrFun (repeatSpan_step he hcall) i).trans h.span
  cases e with
  | call c =>
    exact ⟨alive_effect h.alive hs, (span_effect hmade hs).trans h.span,
      (outside_effect h.others hs).1, fun hrep => h.repeats (effect_frame c true ▸ hrep)⟩
  | callOther c =>
    exact ⟨alive_effect h.alive hs, (span_effect hmade hs).trans h.span,
      (outside_effect h.others hs).1, fun hrep => h.repeats (effect_frame c false ▸ hrep)⟩
  | other k =>
    have hk : u.others[k]? = some u.others[k] := List.getElem?_eq_getElem he
    have hp := h.others _ (List.getElem_mem he)
    have hspan' := hspan fun c => ⟨by simp, by simp⟩
    simp only [TimerMachine.next, hk] at hspan' ⊢
    generalize u.others[k] = p at hp hspan' ⊢
    cases p with
    | timerCancel j l =>
      refine ⟨h.alive, hspan', fun q hq => ?_, h.repeats⟩
      rcases List.mem_append.mp hq with hq | hq
      · exact h.others q (List.mem_of_mem_eraseIdx hq)
      · rw [List.mem_singleton.mp hq]
        exact hp
    | post c =>
      exact ⟨h.alive, hspan', fun q hq => h.others q (List.mem_of_mem_eraseIdx hq), h.repeats⟩
  | task =>
    obtain ⟨c, posted, hposted⟩ := List.exists_cons_of_ne_nil he.2
    have hspan' := hspan fun c => ⟨by simp, by simp⟩
    simp only [TimerMachine.next, hposted] at hspan' ⊢
    refine ⟨h.alive, hspan', h.others, ?_⟩
    rintro ⟨ts, hf⟩
    cases c <;> simp [TimerMachine.Closure.frame] at hf
  | drain ts =>
    refine ⟨h.alive, hspan fun c => ⟨by simp, by simp⟩, h.others, ?_⟩
    rintro ⟨ts', hf⟩
    simp [TimerMachine.next] at hf
  | run =>
    obtain ⟨hothers, halive, -⟩ := run_outside u
    refine ⟨(congrFun halive i).trans h.alive, hspan fun c => ⟨by simp, by simp⟩,
      fun p hp => h.others p (hothers ▸ hp), fun hrep => ?_⟩
    rcases repeating_run hrep with ⟨ts, hf⟩ | hrep
    · exact hfire rfl ts hf
    · exact h.repeats hrep

/-- The loop thread goes on with a cancel closure, up to the callback. -/
theorem cancelsNow_run (hcancel : ∀ k, u.frame = .cancel i k → i ∈ u.timers) :
    cancelsNow i (TimerMachine.run u).frame = cancelsNow i u.frame ∧ ¬ Aborting i u.frame ∨
      cancelsNow i (TimerMachine.run u).frame + 1 = cancelsNow i u.frame ∧ Aborting i u.frame := by
  rw [run_frameAfter, frameAfter]
  cases hf : u.frame with
  | cancel j k =>
    refine Or.inl ⟨?_, by simp [Aborting]⟩
    by_cases hj : j = i
    · subst hj
      simp [hcancel k hf, cancelsNow]
    · dsimp only
      split <;> simp [cancelsNow, hj]
  | aborting j k =>
    by_cases hj : j = i
    · subst hj
      exact Or.inr ⟨by simp [cancelsNow], k, rfl⟩
    · exact Or.inl ⟨by simp [cancelsNow, hj], by simp [Aborting, hj]⟩
  | drain ts =>
    refine Or.inl ⟨?_, by simp [Aborting]⟩
    dsimp only
    split
    · rfl
    · split <;> rfl
  | idle | schedule | scheduled | inAbort | aborted | cancelled | firing | inFire | «repeats»
  | fired => exact Or.inl ⟨rfl, by simp [Aborting]⟩

/-- Every step of the engine keeps the cancel closures of the timer, but for the callback. -/
theorem cancelsLeft_step (hothers : ∀ p ∈ u.others, pendingTimer p ≠ i)
    (he : TimerMachine.Enabled u e) (hs : Stranger i e)
    (hcancel : ∀ k, u.frame = .cancel i k → i ∈ u.timers) :
    cancelsLeft (TimerMachine.next u e) i = cancelsLeft u i ∧ ¬ (e = .run ∧ Aborting i u.frame) ∨
      cancelsLeft (TimerMachine.next u e) i + 1 = cancelsLeft u i ∧
        e = .run ∧ Aborting i u.frame := by
  cases e with
  | call c => exact Or.inl ⟨(outside_effect hothers hs).2, by simp⟩
  | callOther c => exact Or.inl ⟨(outside_effect hothers hs).2, by simp⟩
  | other k =>
    refine Or.inl ⟨?_, by simp⟩
    have hk : u.others[k]? = some u.others[k] := List.getElem?_eq_getElem he
    have hp := hothers _ (List.getElem_mem he)
    simp only [TimerMachine.next, hk]
    generalize u.others[k] = p at hp ⊢
    cases p with
    | timerCancel j l => rfl
    | post c =>
      have hnot : cancels i c = false := by
        cases c with
        | schedule j => rfl
        | cancel j l => exact decide_eq_false hp
      simp [cancelsLeft, Pending.go, List.countP_append, hnot]
  | task =>
    refine Or.inl ⟨?_, by simp⟩
    obtain ⟨c, posted, hposted⟩ := List.exists_cons_of_ne_nil he.2
    have hidle := he.1
    simp only [TimerMachine.next, hposted, cancelsLeft, hidle]
    cases c with
    | schedule j => simp [cancels, cancelsNow, TimerMachine.Closure.frame]
    | cancel j k =>
      by_cases hj : j = i
      · simp [cancels, cancelsNow, TimerMachine.Closure.frame, hj]
      · simp [cancels, cancelsNow, TimerMachine.Closure.frame, hj]
  | drain ts =>
    refine Or.inl ⟨?_, by simp⟩
    have hidle : u.frame = .idle := he
    simp [TimerMachine.next, cancelsLeft, hidle, cancelsNow]
  | run =>
    obtain ⟨-, -, hposted⟩ := run_outside u
    have hleft : cancelsLeft (TimerMachine.next u .run) i =
        u.posted.countP (cancels i) + cancelsNow i (TimerMachine.run u).frame := by
      rw [← hposted]
      rfl
    rw [hleft, cancelsLeft]
    rcases cancelsNow_run hcancel with ⟨hsame, hnot⟩ | ⟨hless, habort⟩
    · exact Or.inl ⟨by rw [hsame], fun h => hnot h.2⟩
    · exact Or.inr ⟨by omega, rfl, habort⟩

/-- The timer is due until its cancel closure takes it out of the list. -/
theorem due_step (hdue : Due u i) (he : TimerMachine.Enabled u e)
    (hrepeats : ∀ ts, u.frame = .repeats i ts → u.repeating i) :
    Due (TimerMachine.next u e) i ∨ Aborting i (TimerMachine.next u e).frame := by
  have hidle (hf : u.frame = .idle) : i ∈ u.timers := hdue.resolve_right (by simp [hf, Frame.fires])
  cases e with
  | call c =>
    exact Or.inl (hdue.imp timers_effect fun hfires => effect_frame (s := u) c true ▸ hfires)
  | callOther c =>
    exact Or.inl (hdue.imp timers_effect fun hfires => effect_frame (s := u) c false ▸ hfires)
  | other k =>
    have hk : u.others[k]? = some u.others[k] := List.getElem?_eq_getElem he
    simp only [TimerMachine.next, hk]
    cases u.others[k] <;> exact Or.inl hdue
  | task =>
    obtain ⟨c, posted, hposted⟩ := List.exists_cons_of_ne_nil he.2
    simp only [TimerMachine.next, hposted]
    exact Or.inl (Or.inl (hidle he.1))
  | drain ts => exact Or.inl (Or.inl (hidle he))
  | run =>
    by_cases hcancel : ∃ k, u.frame = .cancel i k
    · obtain ⟨k, hf⟩ := hcancel
      have hmem : i ∈ u.timers := hdue.resolve_right (by simp [hf, Frame.fires])
      refine Or.inr ⟨k, ?_⟩
      rw [TimerMachine.next, run_frameAfter, frameAfter, hf]
      simp [hmem]
    · rw [not_exists] at hcancel
      exact Or.inl (due_run hdue hrepeats hcancel)

/-- Until it is called back the loop thread stays where it has taken the timer out. -/
theorem aborting_step (h : Aborting i u.frame) (he : TimerMachine.Enabled u e)
    (hrun : e ≠ .run) : Aborting i (TimerMachine.next u e).frame := by
  obtain ⟨k, hf⟩ := h
  cases e with
  | call c =>
    have huser := he.1
    rw [hf] at huser
    cases huser
  | callOther c => exact ⟨k, (effect_frame c false).trans hf⟩
  | other l =>
    have hl : u.others[l]? = some u.others[l] := List.getElem?_eq_getElem he
    simp only [TimerMachine.next, hl]
    cases u.others[l] <;> exact ⟨k, hf⟩
  | task => exact absurd (he.1.symm.trans hf) (by simp)
  | drain ts =>
    have hidle : u.frame = .idle := he
    exact absurd (hidle.symm.trans hf) (by simp)
  | run => exact absurd rfl hrun

/-! ## The reference -/

/-- Nothing refers to an id that was not made yet. -/
theorem fresh_made (h : TimerReferences.Invariant u) :
    (∀ p ∈ u.others, pendingTimer p ≠ u.made) ∧ cancelsLeft u u.made = 0 ∧
      ¬ Repeating u.made u.frame := by
  have hnone : holders u u.made = 0 := by
    cases h.counted.accounts u.made with
    | unborn made none => exact none
    | live made => exact absurd made (Nat.lt_irrefl _)
    | gone made none => exact none
  rw [holders_eq, waiting] at hnone
  have hframe : frameHolds u.made u.frame = 0 := by omega
  refine ⟨fun p hp => ?_, ?_, ?_⟩
  · cases p with
    | timerCancel id k =>
      have halive := h.calling _ hp id rfl
      exact Nat.ne_of_lt (made_of_alive h.counted halive)
    | post c =>
      intro heq
      have hpos : 0 < u.others.countP (postsFor u.made) :=
        List.countP_pos_iff.mpr ⟨_, hp, decide_eq_true heq.symm⟩
      omega
  · have hposted : u.posted.countP (cancels u.made) = 0 := by
      apply List.countP_eq_zero.mpr
      intro c hc hcancels
      have hpos : 0 < u.posted.countP fun c => decide (u.made = closureId c) := by
        refine List.countP_pos_iff.mpr ⟨c, hc, ?_⟩
        cases c with
        | schedule id => exact absurd hcancels Bool.false_ne_true
        | cancel id k => exact decide_eq_true (of_decide_eq_true hcancels).symm
      omega
    have hnow : cancelsNow u.made u.frame = 0 := by
      cases hf : u.frame with
      | cancel id k | aborting id k =>
        rw [hf] at hframe
        by_cases hid : id = u.made
        · simp [frameHolds, runsClosure, hid] at hframe
        · simp [cancelsNow, hid]
      | _ => rfl
    rw [cancelsLeft, hposted, hnow]
  · rintro ⟨ts, hf | hf⟩ <;> rw [hf] at hframe <;> simp [frameHolds, firesEntry] at hframe

theorem reachable_call (h : TimerMachine.machine.Reachable TimerMachine.initial u)
    (huser : u.frame.User) (hc : c.Allowed u) :
    TimerMachine.machine.Reachable TimerMachine.initial (c.effect true u) :=
  have he : TimerMachine.machine.Enabled u (.call c) := ⟨huser, hc⟩
  h.tail he

/-- A new timer that is set and fired on the run-loop thread is due. -/
theorem fired_new (timeout : Int) (h : TimerMachine.machine.Reachable TimerMachine.initial u)
    (huser : u.frame.User) (due : Int) :
    let calls : List TimerMachine.Call :=
      [.make, .dueTime u.made due, .repeatSpan u.made timeout, .fire u.made]
    let v := calls.foldl (fun u c => c.effect true u) u
    TimerMachine.machine.Reachable TimerMachine.initial v ∧ Private timeout v u.made ∧
      cancelsLeft v u.made = 0 ∧ Due v u.made := by
  obtain ⟨hothers, hleft, hrepeating⟩ := fresh_made (invariant_reachable h)
  intro calls v
  have hmade := reachable_call (c := .make) h huser trivial
  have hdue := reachable_call (c := .dueTime u.made due) hmade huser (by
    simp [TimerMachine.Call.Allowed, TimerMachine.Call.effect])
  have hspan := reachable_call (c := .repeatSpan u.made timeout) hdue huser (by
    simp [TimerMachine.Call.Allowed, TimerMachine.Call.effect, TimerMachine.State.set,
      TimerMachine.State.access])
  have hfire := reachable_call (c := .fire u.made) hspan huser (by
    simp [TimerMachine.Call.Allowed, TimerMachine.Call.effect, TimerMachine.State.set,
      TimerMachine.State.access])
  refine ⟨hfire, ⟨?_, ?_, hothers, fun hrep => absurd hrep hrepeating⟩, hleft,
    Or.inl (mem_insertByKey.mpr (Or.inl rfl))⟩
  · simp [v, calls, TimerMachine.Call.effect, TimerMachine.timerSchedule, TimerMachine.State.insert,
      TimerMachine.State.addRef, TimerMachine.State.set, TimerMachine.State.access]
  · simp [v, calls, TimerAborts.State.repeatSpan, TimerMachine.Call.effect,
      TimerMachine.timerSchedule, TimerMachine.State.insert, TimerMachine.State.addRef,
      TimerMachine.State.set, TimerMachine.State.access]

/-- How far the filter has come with its timer. -/
structure Owned (timeout : Int) (s : State) (i : TimerId) : Prop where
  own : Private timeout s.engine i
  balance : cancelsLeft s.engine i + s.releases = s.closed.toNat
  due : s.releases = 0 → Due s.engine i ∨ Aborting i s.engine.frame

structure Invariant (timeout : Int) (s : State) : Prop where
  engine : TimerMachine.machine.Reachable TimerMachine.initial s.engine
  noNull : s.nullTimer = false
  added : s.addRefs = s.timer.isSome.toNat
  unopened : s.timer = none → s.closed = false ∧ s.releases = 0
  owned : ∀ i ∈ s.timer, Owned timeout s i

/-- What is due is held by more than its timer object. -/
theorem refcount_of_due (h : Counted u) (halive : u.alive i = true) (hdue : Due u i) :
    (u.ids i).refcount ≠ 1 := by
  intro href
  have hclear := clear_of_refcount h halive href
  rcases hdue with hmem | hfires
  · exact hclear.timers hmem
  · exact hclear.frame (fires_pursues hfires)

theorem close_step (h : Invariant timeout s) (he : Enabled s .filterOnClose)
    (hclean : s.timer.isSome = true) : Invariant timeout (filterOnClose s) := by
  obtain ⟨i, hi⟩ := Option.isSome_iff_exists.mp hclean
  have hs := h.owned i hi
  have hbalance := hs.balance
  rw [he.2, Bool.toNat_false] at hbalance
  have hdue : Due s.engine i := by
    refine (hs.due (by omega)).resolve_right ?_
    rintro ⟨k, hf⟩
    have huser := he.1
    rw [hf] at huser
    cases huser
  have hcounted := (invariant_reachable h.engine).counted
  have href := refcount_of_due hcounted hs.own.alive hdue
  have hengine := reachable_call (c := .cancel i) h.engine he.1 hs.own.alive
  have hposted : (TimerMachine.timerCancel true s.engine i).posted =
      s.engine.posted ++ [.cancel i s.engine.cancels.length] := by
    simp [TimerMachine.timerCancel, href]
  have hothers : (TimerMachine.timerCancel true s.engine i).others = s.engine.others := by
    simp [TimerMachine.timerCancel, href, TimerMachine.State.addRef, TimerMachine.State.set,
      TimerMachine.State.access, TimerMachine.State.record]
  have halive : (TimerMachine.timerCancel true s.engine i).alive = s.engine.alive := by
    simp [TimerMachine.timerCancel, href, TimerMachine.State.addRef, TimerMachine.State.set,
      TimerMachine.State.access, TimerMachine.State.record]
  have hframe : (TimerMachine.timerCancel true s.engine i).frame = s.engine.frame :=
    effect_frame (.cancel i) true
  simp only [filterOnClose, hi]
  refine ⟨hengine, h.noNull, by rw [h.added, hi], by simp, fun j hj => ?_⟩
  obtain rfl := Option.some.inj hj
  refine ⟨⟨halive ▸ hs.own.alive, (congrFun (repeatSpan_cancel true) i).trans hs.own.span,
    hothers ▸ hs.own.others, hframe ▸ hs.own.repeats⟩, ?_, fun _ => Or.inl ?_⟩
  · rw [cancelsLeft, hposted, hframe, List.countP_append]
    rw [cancelsLeft] at hbalance
    simp [cancels]
    omega
  · exact hdue.imp (timers_effect (c := .cancel i)) fun hfires => hframe ▸ hfires

/-- All that a step of the engine changes apart from the clock and what is logged. -/
structure EngineStepped (s : State) (e : TimerMachine.Step) (t : State) : Prop where
  engine : t.engine = TimerMachine.next s.engine e
  timer : t.timer = s.timer
  closed : t.closed = s.closed
  noNull : t.nullTimer = s.nullTimer
  added : t.addRefs = s.addRefs
  released : t.releases = s.releases + if callsBack s e = some .aborted then 1 else 0

theorem engineStep_stepped (s : State) (e : TimerMachine.Step) (now : Int) :
    EngineStepped s e (engineStep timeout e now s) := by
  unfold engineStep
  cases hcall : callsBack s e with
  | none => exact ⟨rfl, rfl, rfl, rfl, rfl, by simp [hcall]⟩
  | some ec =>
    cases ec with
    | aborted => exact ⟨rfl, rfl, rfl, rfl, rfl, by simp [hcall, onTimer]⟩
    | success =>
      simp only [onTimer]
      split
      · exact ⟨rfl, rfl, rfl, rfl, rfl, by simp [hcall]⟩
      · exact ⟨rfl, rfl, rfl, rfl, rfl, by simp [hcall]⟩

theorem callsBack_aborted (hi : s.timer = some i) :
    callsBack s e = some .aborted ↔ e = .run ∧ Aborting i s.engine.frame := by
  cases e with
  | run =>
    cases hf : s.engine.frame with
    | aborting j k => simp [callsBack, hf, hi, Aborting, eq_comm]
    | firing j ts => simp [callsBack, hf, Aborting]
    | _ => simp [callsBack, hf, Aborting]
  | _ => simp [callsBack]

theorem callsBack_success (hi : s.timer = some i) {ts : Int}
    (hf : s.engine.frame = .firing i ts) : callsBack s .run = some .success := by
  simp [callsBack, hf, hi]

theorem owned_engine (h : Invariant timeout s) (hi : s.timer = some i)
    (he : TimerMachine.Enabled s.engine e) (hs : Stranger i e)
    (hclean : callsBack s e = some .success → timeout.tdiv 1000 ≠ 0)
    (ht : EngineStepped s e t) : Owned timeout t i := by
  have howned := h.owned i hi
  have hbalance := howned.balance
  have hle := Bool.toNat_le s.closed
  have hcounted := (invariant_reachable h.engine).counted
  have hcancel (k : Nat) (hf : s.engine.frame = .cancel i k) : i ∈ s.engine.timers := by
    have hnow : cancelsNow i s.engine.frame = 1 := by simp [hf, cancelsNow]
    rw [cancelsLeft, hnow] at hbalance
    refine ((howned.due (by omega)).resolve_right ?_).resolve_right ?_
    · simp [Aborting, hf]
    · simp [Frame.fires, hf]
  have hprivate : Private timeout t.engine i := by
    rw [ht.engine]
    exact private_step howned.own hcounted he hs fun hrun ts hf =>
      hclean (hrun ▸ callsBack_success hi hf)
  rcases cancelsLeft_step howned.own.others he hs hcancel with ⟨hsame, hnot⟩ | ⟨hless, habort⟩
  · have hreleased := ht.released
    rw [if_neg (fun hcall => hnot ((callsBack_aborted hi).mp hcall)), Nat.add_zero] at hreleased
    refine ⟨hprivate, by rw [ht.engine, ht.closed, hreleased, hsame, hbalance], fun hzero => ?_⟩
    rw [ht.engine]
    rcases howned.due (hreleased ▸ hzero) with hdue | haborting
    · refine due_step hdue he fun ts hf => ?_
      have hspan : (s.engine.ids i).repeatSpan = timeout := howned.own.span
      rw [TimerMachine.State.repeating, hspan]
      exact howned.own.repeats ⟨ts, Or.inr hf⟩
    · exact Or.inr (aborting_step haborting he fun hrun => hnot ⟨hrun, haborting⟩)
  · have hreleased := ht.released
    rw [if_pos ((callsBack_aborted hi).mpr habort)] at hreleased
    refine ⟨hprivate, ?_, fun hzero => ?_⟩
    · rw [ht.engine, ht.closed, hreleased]
      omega
    · rw [hreleased] at hzero
      exact absurd hzero (Nat.succ_ne_zero _)

theorem callsBack_unopened (h : s.timer = none) : callsBack s e = none := by
  cases e with
  | run =>
    simp only [callsBack, h]
    split <;> simp
  | _ => rfl

theorem engine_step (h : Invariant timeout s) (he : Enabled s (.engine e now))
    (hclean : Clean timeout s (.engine e now)) :
    Invariant timeout (engineStep timeout e now s) := by
  have ht : EngineStepped s e (engineStep timeout e now s) := engineStep_stepped s e now
  have hreach : TimerMachine.machine.Reachable TimerMachine.initial
      (engineStep timeout e now s).engine := ht.engine ▸ h.engine.tail he.1
  refine ⟨hreach, ht.noNull.trans h.noNull, by rw [ht.added, ht.timer, h.added], fun hnone => ?_,
    fun i hi => ?_⟩
  · rw [ht.timer] at hnone
    obtain ⟨hclosed, hreleases⟩ := h.unopened hnone
    exact ⟨ht.closed.trans hclosed, by rw [ht.released, callsBack_unopened hnone, hreleases]; rfl⟩
  · have hi' : s.timer = some i := ht.timer ▸ hi
    exact owned_engine h hi' he.1 (he.2 i hi') hclean ht

theorem invariant_step {e : Step} (h : Invariant timeout s) (he : Enabled s e)
    (hclean : Clean timeout s e) : Invariant timeout (next timeout s e) := by
  cases e with
  | filterOnOpen now =>
    obtain ⟨hreach, hown, hleft, hdue⟩ :=
      fired_new timeout h.engine he.1 (now + timeout)
    obtain ⟨hclosed, hreleases⟩ := h.unopened he.2
    refine ⟨hreach, h.noNull, ?_, nofun, fun i hi => ?_⟩
    · simp [next, filterOnOpen, h.added, he.2]
    · obtain rfl := Option.some.inj hi
      refine ⟨hown, ?_, fun _ => Or.inl hdue⟩
      simp only [next, filterOnOpen, hreleases, hclosed]
      exact hleft
  | filterOnRead now =>
    exact ⟨h.engine, h.noNull, h.added, h.unopened, fun i hi =>
      ⟨(h.owned i hi).own, (h.owned i hi).balance, (h.owned i hi).due⟩⟩
  | filterOnClose => exact close_step h he hclean
  | engine e now => exact engine_step h he hclean

theorem invariant_execution {start : Int}
    (h : (machine timeout).Execution (Clean timeout) (initial start) s) : Invariant timeout s := by
  refine h.invariant ⟨.refl, rfl, rfl, fun _ => ⟨rfl, rfl⟩, nofun⟩ ?_
  exact fun _ _ _ hi he hc => invariant_step hi he hc

/-- The filter never uses a null timer; what it took on open it has given back, once it is
closed, or a cancel closure of its timer is still to give it back, and not before; and it
requests a close only when its channel was silent for longer than the timeout. -/
structure Balanced (timeout : Int) (s : State) : Prop where
  noNull : s.nullTimer = false
  before : s.closed = false → s.releases = 0
  after : ∀ i ∈ s.timer, s.closed = true → s.addRefs = 1 ∧
    s.releases + cancelsLeft s.engine i = 1
  late : Justified (Late timeout) s.log

/-- The timer ticks once, too early for a close, and is cancelled when the channel is closed. -/
def openReadClose : List Step :=
  [.filterOnOpen 0, .filterOnRead 3000, .engine (.drain 5000) 5000, .engine .run 5000,
    .engine .run 5000, .engine .run 5000, .engine .run 5000, .engine .run 5000, .engine .run 5000,
    .filterOnClose, .engine .task 6000, .engine .run 6000, .engine .run 6000]

end FilterTimeout
