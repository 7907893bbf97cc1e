import Tcode.TimerReferences

/-! # The order of the timer list

The list is searched for an upper bound and drained from its front, so it has to stand in
the order of the due times. They are kept in the ids and can change below the entries.
-/
namespace TimerOrder

open SupportTransitionSystem SupportUpperBound TimerMachine TimerReferences

/-- A due time changes only where no entry of the timer in the list is left behind one that
is due later or in front of one that is due earlier. -/
def KeepsOrder (s : State) : Step → Prop
  | .call (.dueTime id ts) | .callOther (.dueTime id ts) => Fits s.dueTime id ts s.timers
  | .run =>
    match s.frame with
    | .repeats id _ => s.repeating id →
      Fits s.dueTime id (s.dueTime id + (s.ids id).repeatSpan) s.timers
    | _ => True
  | _ => True

instance (s : State) : ∀ e : Step, Decidable (KeepsOrder s e)
  | .call c | .callOther c => by
    cases c <;> first | exact isTrue trivial | exact inferInstanceAs (Decidable (Fits _ _ _ _))
  | .run => by
    unfold KeepsOrder
    cases s.frame <;> infer_instance
  | .other _ | .task | .drain _ => isTrue trivial

def Sorted (s : State) : Prop := SortedBy s.dueTime s.timers

variable {s t : State} {id : TimerId}

theorem dueTime_set (v : Id) : (s.set id v).dueTime = Function.update s.dueTime id v.dueTime := by
  funext i
  by_cases hi : i = id
  · simp [State.dueTime, State.set, hi]
  · simp [State.dueTime, State.set, hi]

theorem dueTime_set_same {v : Id} (hv : v.dueTime = s.dueTime id) :
    (s.set id v).dueTime = s.dueTime := by
  rw [dueTime_set, hv, Function.update_eq_self]

@[simp] theorem dueTime_access : (s.access id).dueTime = s.dueTime := rfl

@[simp] theorem dueTime_addRef : (s.addRef id).dueTime = s.dueTime :=
  dueTime_set_same (s := s.access id) rfl

@[simp] theorem dueTime_release : (s.release id).dueTime = s.dueTime := by
  by_cases hone : (s.ids id).refcount = 1
  · rw [release_last hone]
    exact dueTime_set_same (s := s.access id) rfl
  · rw [release_more hone]
    exact dueTime_set_same (s := s.access id) rfl

theorem sorted_release (h : Sorted s) : Sorted (s.release id) := by
  rw [Sorted, dueTime_release, release_timers]
  exact h

theorem sorted_schedule (h : Sorted s) (onLoop : Bool) : Sorted (timerSchedule onLoop s id) := by
  have haddRef : SortedBy (s.addRef id).dueTime s.timers := by
    rw [dueTime_addRef]
    exact h
  cases onLoop with
  | false => exact haddRef
  | true => exact haddRef.insertByKey

/-- A timer that is made has no entry yet. -/
theorem sorted_make (h : Sorted s) (hinv : Invariant s) (onLoop : Bool) :
    Sorted (Call.make.effect onLoop s) := by
  have hnot : s.made ∉ s.timers := by
    intro hmem
    have hpos := entries_pos hmem
    cases hinv.counted.accounts s.made with
    | unborn made none => omega
    | live made => exact absurd made (Nat.lt_irrefl _)
    | gone made => exact absurd made (Nat.lt_irrefl _)
  refine List.Pairwise.imp_of_mem ?_ h
  intro a b ha hb hle
  have hne {x : TimerId} (hx : x ∈ s.timers) : x ≠ s.made := fun heq => hnot (heq ▸ hx)
  show (s.set s.made ⟨1, 0, 0, false⟩).dueTime a ≤ (s.set s.made ⟨1, 0, 0, false⟩).dueTime b
  rw [dueTime_set, Function.update_of_ne (hne ha), Function.update_of_ne (hne hb)]
  exact hle

theorem sorted_dueTime_iff (h : Sorted s) {ts : Int} (onLoop : Bool) :
    Sorted ((Call.dueTime id ts).effect onLoop s) ↔ Fits s.dueTime id ts s.timers := by
  show SortedBy ((s.access id).set id { s.ids id with dueTime := ts }).dueTime s.timers ↔ _
  rw [dueTime_set]
  exact SortedBy.update_iff h

theorem sorted_effect (h : Sorted s) (hinv : Invariant s) (onLoop : Bool) {c : Call}
    (hfits : ∀ id ts, c = .dueTime id ts → Fits s.dueTime id ts s.timers) :
    Sorted (c.effect onLoop s) := by
  cases c with
  | make => exact sorted_make h hinv onLoop
  | destroy id => exact sorted_release (s := { s with alive := _ }) h
  | dueTime id ts => exact (sorted_dueTime_iff h onLoop).mpr (hfits id ts rfl)
  | repeatSpan id span =>
    have hsame : ((s.access id).set id { s.ids id with repeatSpan := span }).dueTime =
        s.dueTime := dueTime_set_same (s := s.access id) rfl
    show SortedBy ((s.access id).set id { s.ids id with repeatSpan := span }).dueTime s.timers
    rw [hsame]
    exact h
  | fire id => exact sorted_schedule (s := { s with cancels := disturb id s.cancels }) h onLoop
  | cancel id =>
    simp only [Call.effect, timerCancel]
    split
    · cases onLoop with
      | false => exact h
      | true =>
        show SortedBy (((s.access id).record id).addRef id).dueTime s.timers
        rw [dueTime_addRef]
        exact h
    · exact h

/-- The repeat step: a new due time, and then another entry. -/
theorem sorted_repeats_iff (h : Sorted s) {ts : Int} (hf : s.frame = .repeats id ts)
    (hrep : s.repeating id) :
    Sorted (run s) ↔ Fits s.dueTime id (s.dueTime id + (s.ids id).repeatSpan) s.timers := by
  have hrun : run s = { timerSchedule true ((s.access id).set id { s.ids id with
      dueTime := (s.ids id).dueTime + (s.ids id).repeatSpan }) id with frame := .fired id ts } := by
    simp only [run, hf]
    exact if_pos hrep
  have hkey : (((s.access id).set id { s.ids id with
      dueTime := (s.ids id).dueTime + (s.ids id).repeatSpan }).addRef id).dueTime =
      Function.update s.dueTime id (s.dueTime id + (s.ids id).repeatSpan) := by
    rw [dueTime_addRef, dueTime_set]
    rfl
  rw [← SortedBy.update_iff h, ← hkey, hrun, ← sortedBy_insertByKey_iff]
  exact Iff.rfl

theorem sorted_run (h : Sorted s)
    (hfits : ∀ id ts, s.frame = .repeats id ts → s.repeating id →
      Fits s.dueTime id (s.dueTime id + (s.ids id).repeatSpan) s.timers) : Sorted (run s) := by
  cases hf : s.frame with
  | repeats id ts =>
    by_cases hrep : s.repeating id
    · exact (sorted_repeats_iff h hf hrep).mpr (hfits id ts hf hrep)
    · have hrun : run s = { s.access id with frame := .fired id ts } := by
        simp only [run, hf]
        exact if_neg hrep
      rw [hrun]
      exact h
  | schedule id =>
    have hrun : run s = { timerSchedule true s id with frame := .scheduled id } := by
      simp [run, hf]
    rw [hrun]
    exact sorted_schedule h true
  | cancel id k =>
    simp only [run, hf]
    split
    · exact h.sublist List.erase_sublist
    · exact h
  | drain ts =>
    simp only [run, hf]
    split
    · exact h
    · next id rest htimers =>
      split
      · exact (List.pairwise_cons.mp (htimers ▸ h : SortedBy s.dueTime (id :: rest))).2
      · exact h
  | scheduled id =>
    rw [run, hf]
    exact sorted_release h
  | aborted id k =>
    rw [run, hf]
    exact sorted_release h
  | cancelled id k =>
    rw [run, hf]
    exact sorted_release h
  | fired id ts =>
    rw [run, hf]
    exact sorted_release h
  | _ =>
    rw [run, hf]
    exact h

theorem sorted_step (h : Sorted s) (hinv : Invariant s) {e : Step} (he : Enabled s e)
    (hkeeps : KeepsOrder s e) : Sorted (next s e) := by
  cases e with
  | call c =>
    refine sorted_effect h hinv true fun id ts hc => ?_
    rw [hc] at hkeeps
    exact hkeeps
  | callOther c =>
    refine sorted_effect h hinv false fun id ts hc => ?_
    rw [hc] at hkeeps
    exact hkeeps
  | other k =>
    have hk : s.others[k]? = some s.others[k] := List.getElem?_eq_getElem he
    simp only [next, hk]
    cases s.others[k] with
    | timerCancel id j =>
      have haddRef : SortedBy ((({ s with others := s.others.eraseIdx k } : State).addRef
          id).dueTime) s.timers := by
        rw [dueTime_addRef]
        exact h
      exact haddRef
    | post c => exact h
  | task =>
    obtain ⟨c, posted, hposted⟩ := List.exists_cons_of_ne_nil he.2
    simp only [next, hposted]
    exact h
  | drain ts => exact h
  | run =>
    refine sorted_run h fun id ts hf hrep => ?_
    simp only [KeepsOrder, hf] at hkeeps
    exact hkeeps hrep

/-- The condition is exact: a step that does not meet it leaves the list out of order. -/
theorem sorted_step_iff (h : Sorted s) (hinv : Invariant s) {e : Step} (he : Enabled s e) :
    Sorted (next s e) ↔ KeepsOrder s e := by
  refine ⟨fun hnext => ?_, sorted_step h hinv he⟩
  cases e with
  | call c =>
    cases c with
    | dueTime id ts => exact (sorted_dueTime_iff h true).mp hnext
    | _ => trivial
  | callOther c =>
    cases c with
    | dueTime id ts => exact (sorted_dueTime_iff h false).mp hnext
    | _ => trivial
  | run =>
    cases hf : s.frame with
    | repeats id ts =>
      simp only [KeepsOrder, hf]
      exact fun hrep => (sorted_repeats_iff h hf hrep).mp hnext
    | _ => simp only [KeepsOrder, hf]
  | _ => trivial

theorem sorted_reachable (h : machine.Execution KeepsOrder initial s) : Sorted s := by
  refine h.invariant List.Pairwise.nil fun u e hu hsorted he hkeeps => ?_
  exact sorted_step hsorted (invariant_reachable hu.reachable) he hkeeps

/-- The list is in order, a drain that ends leaves no timer that is due, and the wake-up
time is that of the earliest entry. -/
structure OrderedTimers (s : State) : Prop where
  sorted : s.timers.Pairwise fun a b => s.dueTime a ≤ s.dueTime b
  drained : ∀ ts, s.frame = .drain ts → (run s).frame = .idle →
    ∀ id ∈ (run s).timers, ts < (run s).dueTime id
  wakeUp : ∀ now, s.timers ≠ [] → ∃ id ∈ s.timers, (∀ j ∈ s.timers, s.dueTime id ≤ s.dueTime j) ∧
    nextWakeUpTime s now = max 0 (s.dueTime id - now)

theorem Sorted.first_le (h : Sorted s) {first : TimerId} {rest : List TimerId}
    (htimers : s.timers = first :: rest) : ∀ j ∈ s.timers, s.dueTime first ≤ s.dueTime j := by
  intro j hj
  rw [Sorted, htimers] at h
  rw [htimers] at hj
  rcases List.mem_cons.mp hj with rfl | hmem
  · exact Int.le_refl _
  · exact (List.pairwise_cons.mp h).1 j hmem

theorem drained_of_sorted (h : Sorted s) {ts : Int} (hf : s.frame = .drain ts)
    (hidle : (run s).frame = .idle) : ∀ id ∈ (run s).timers, ts < (run s).dueTime id := by
  intro id hid
  cases htimers : s.timers with
  | nil =>
    simp only [run, hf, htimers] at hid
    cases hid
  | cons first rest =>
    by_cases hdue : s.dueTime first ≤ ts
    · simp [run, hf, htimers, hdue] at hidle
    · have hrun : run s = { s.access first with frame := .idle } := by
        simp [run, hf, htimers, hdue]
      rw [hrun] at hid ⊢
      exact Int.lt_of_lt_of_le (Int.not_le.mp hdue) (h.first_le htimers id hid)

theorem wakeUp_of_sorted (h : Sorted s) (now : Int) (hne : s.timers ≠ []) :
    ∃ id ∈ s.timers, (∀ j ∈ s.timers, s.dueTime id ≤ s.dueTime j) ∧
      nextWakeUpTime s now = max 0 (s.dueTime id - now) := by
  obtain ⟨first, rest, htimers⟩ := List.exists_cons_of_ne_nil hne
  refine ⟨first, htimers ▸ List.mem_cons_self, h.first_le htimers, ?_⟩
  rw [nextWakeUpTime, htimers]
  dsimp only
  split <;> omega

/-- While no due time is changed across another entry, the timer list stays in order. -/
theorem timers_ordered (h : machine.Execution KeepsOrder initial s) : OrderedTimers s := by
  have hsorted := sorted_reachable h
  exact ⟨hsorted, fun _ => drained_of_sorted hsorted, wakeUp_of_sorted hsorted⟩

/-- A timer with an earlier due time is fired after another, which is drained and repeats. -/
def firedInTurn : List Step :=
  [.call .make, .call (.dueTime 0 20), .call (.repeatSpan 0 5000), .call (.fire 0), .call .make,
    .call (.dueTime 1 10), .call (.fire 1), .drain 30, .run, .run, .run, .run, .run, .run, .run,
    .run, .run]

theorem timers_ordered_firedInTurn :
    machine.ValidTrace KeepsOrder initial firedInTurn ∧
      OrderedTimers (machine.runTrace initial firedInTurn) := by
  have hvalid : machine.ValidTrace KeepsOrder initial firedInTurn := by decide
  exact ⟨hvalid, timers_ordered hvalid.execution⟩

/-- The earlier of two scheduled timers is given the later due time. -/
def overtaken : List Step :=
  [.call .make, .call .make, .call (.dueTime 0 10), .call (.dueTime 1 20), .call (.fire 0),
    .call (.fire 1), .call (.dueTime 0 30)]

theorem overtaken_not_ordered :
    ¬ ∀ s : State, machine.Reachable initial s → OrderedTimers s := by
  intro h
  have hvalid : machine.ValidTrace (fun _ _ => True) initial overtaken := by decide
  have hsorted := (h _ hvalid.reachable).sorted
  revert hsorted
  decide

end TimerOrder
