import Tcode.TimerCancel

/-! # What a cancelled timer is told

A timer that was scheduled when it was cancelled is called back with `aborted`: its entry
stays in the list, or is fired and put back by the repeat step, until some cancel closure
takes it out.
-/
namespace TimerAborts

open SupportTransitionSystem SupportUpperBound TimerMachine TimerReferences TimerCancel

variable {s t : State} {id i : TimerId} {k : Nat} {r : CancelCall}

/-! ## The repeat time -/

def State.repeatSpan (s : State) (i : TimerId) : Int := (s.ids i).repeatSpan

theorem repeatSpan_set {v : Id} (hv : v.repeatSpan = (s.ids id).repeatSpan) :
    State.repeatSpan (s.set id v) = State.repeatSpan s := by
  funext i
  by_cases hi : i = id
  · subst hi
    simp [State.repeatSpan, State.set, hv]
  · simp [State.repeatSpan, State.set, hi]

theorem repeatSpan_addRef : State.repeatSpan (s.addRef id) = State.repeatSpan s :=
  repeatSpan_set (s := s.access id) rfl

theorem repeatSpan_release : State.repeatSpan (s.release id) = State.repeatSpan s := by
  by_cases hlast : (s.ids id).refcount = 1
  · rw [release_last hlast]
    exact repeatSpan_set (s := s.access id) rfl
  · rw [release_more hlast]
    exact repeatSpan_set (s := s.access id) rfl

theorem repeatSpan_schedule (onLoop : Bool) :
    State.repeatSpan (timerSchedule onLoop s id) = State.repeatSpan s := by
  cases onLoop with
  | true => exact repeatSpan_addRef
  | false => exact repeatSpan_addRef

theorem repeatSpan_cancel (onLoop : Bool) :
    State.repeatSpan (timerCancel onLoop s id) = State.repeatSpan s := by
  unfold timerCancel
  split
  · cases onLoop with
    | true => exact repeatSpan_addRef (s := (s.access id).record id)
    | false => rfl
  · rfl

theorem repeatSpan_run (s : State) : State.repeatSpan (run s) = State.repeatSpan s := by
  unfold run
  cases s.frame with
  | schedule j => exact repeatSpan_schedule true
  | scheduled j => exact repeatSpan_release
  | aborted j l => exact repeatSpan_release
  | cancelled j l => exact repeatSpan_release
  | fired j ts => exact repeatSpan_release
  | cancel j l => dsimp only; split <;> rfl
  | drain ts =>
    dsimp only
    split
    · rfl
    · split <;> rfl
  | repeats j ts =>
    dsimp only
    split
    · exact (repeatSpan_schedule true).trans (repeatSpan_set (s := s.access j) rfl)
    · rfl
  | _ => rfl

/-! ## An id that nothing but its timer holds -/

theorem pursues_holds {f : Frame} (h : Frame.pursues id f) : 0 < frameHolds id f := by
  cases f with
  | schedule j =>
    cases (h : j = id)
    simp [frameHolds, runsClosure, firesEntry, abortsEntry]
  | firing j ts | inFire j ts | repeats j ts =>
    cases (h : j = id)
    simp [frameHolds, runsClosure, firesEntry, abortsEntry]
  | _ => cases h

/-- Where only the timer object holds a reference, nothing can call it back. -/
theorem clear_of_holders (h : holders s id ≤ object s id) : Clear s id := by
  rw [holders_eq, waiting] at h
  constructor
  · intro hmem
    have hpos : 0 < entries s id := List.count_pos_iff.mpr hmem
    omega
  · intro hmem
    have hpos : 0 < s.posted.countP fun c => id = closureId c :=
      List.countP_pos_iff.mpr ⟨_, hmem, by simp [closureId]⟩
    omega
  · intro hmem
    have hpos : 0 < s.others.countP (postsFor id) :=
      List.countP_pos_iff.mpr ⟨_, hmem, by simp [postsFor, closureId]⟩
    omega
  · intro hpursues
    have hpos : 0 < frameHolds id s.frame := pursues_holds hpursues
    omega

theorem clear_of_unborn (h : Counted s) (hmade : s.made ≤ id) : Clear s id := by
  refine clear_of_holders ?_
  cases h.accounts id with
  | unborn made none => omega
  | live made => exact absurd made (Nat.not_lt.mpr hmade)
  | gone made => exact absurd made (Nat.not_lt.mpr hmade)

/-- `timer::cancel` looks at the reference count only, and that is enough. -/
theorem clear_of_refcount (h : Counted s) (halive : s.alive id = true)
    (href : (s.ids id).refcount = 1) : Clear s id := by
  have hpos := object_pos halive
  refine clear_of_holders ?_
  rw [object, halive]
  cases h.accounts id with
  | unborn made none => omega
  | live made some refcount =>
    rw [href] at refcount
    exact Nat.le_of_eq (Int.ofNat.inj refcount).symm
  | gone made none => omega

/-! ## A repeating timer -/

def Pursued (s : State) (id : TimerId) : Prop := s.repeating id ∨ Clear s id

theorem repeating_congr (h : s.repeating id)
    (hspan : State.repeatSpan t id = State.repeatSpan s id) :
    t.repeating id := by
  have hspan' : (t.ids id).repeatSpan = (s.ids id).repeatSpan := hspan
  rw [State.repeating, hspan']
  exact h

theorem repeating_effect (h : Counted s) (hid : s.repeating id) {c : Call} (onLoop : Bool)
    (hset : ∀ span, c = .repeatSpan id span → span.tdiv 1000 ≠ 0) :
    Pursued (c.effect onLoop s) id := by
  cases c with
  | make =>
    by_cases hmade : id = s.made
    · have hclear := clear_of_unborn h (Nat.le_of_eq hmade.symm)
      exact Or.inr ⟨hclear.timers, hclear.posted, hclear.others, hclear.frame⟩
    · refine Or.inl (repeating_congr hid ?_)
      simp [State.repeatSpan, Call.effect, State.set, hmade]
  | destroy j => exact Or.inl (repeating_congr hid (congrFun repeatSpan_release id))
  | dueTime j ts =>
    have hsame : State.repeatSpan ((s.access j).set j { s.ids j with dueTime := ts }) =
        State.repeatSpan s := repeatSpan_set (s := s.access j) rfl
    exact Or.inl (repeating_congr hid (congrFun hsame id))
  | repeatSpan j span =>
    refine Or.inl ?_
    by_cases hj : j = id
    · subst hj
      have hne := hset span rfl
      simpa [State.repeating, Call.effect, State.set] using hne
    · refine repeating_congr hid ?_
      simp [State.repeatSpan, Call.effect, State.set, State.access, Ne.symm hj]
  | fire j =>
    exact Or.inl (repeating_congr hid (congrFun (repeatSpan_schedule onLoop) id))
  | cancel j => exact Or.inl (repeating_congr hid (congrFun (repeatSpan_cancel onLoop) id))

theorem repeatSpan_step {e : Step} (he : Enabled s e)
    (hcall : ∀ c, e ≠ .call c ∧ e ≠ .callOther c) :
    State.repeatSpan (next s e) = State.repeatSpan s := by
  cases e with
  | call c => exact absurd rfl (hcall c).1
  | callOther c => exact absurd rfl (hcall c).2
  | other k =>
    have hk : s.others[k]? = some s.others[k] := List.getElem?_eq_getElem he
    simp only [next, hk]
    cases s.others[k] with
    | timerCancel j l => exact repeatSpan_addRef (s := { s with others := s.others.eraseIdx k })
    | post c => rfl
  | task =>
    obtain ⟨c, posted, hposted⟩ := List.exists_cons_of_ne_nil he.2
    simp only [next, hposted]
    rfl
  | drain ts => rfl
  | run => exact repeatSpan_run s

/-- The timer repeats whenever it is fired. -/
theorem repeating_of_fires {e : Step} (hfire : Fires id e) (hrep : Repeats id s e) :
    s.repeating id := by
  cases e with
  | call c =>
    cases c with
    | fire j => exact hrep hfire
    | _ => cases hfire
  | callOther c =>
    cases c with
    | fire j => exact hrep hfire
    | _ => cases hfire
  | _ => cases hfire

theorem repeating_step (hid : s.repeating id) (hcount : Counted s) {e : Step} (he : Enabled s e)
    (hrep : Repeats id s e) : Pursued (next s e) id := by
  by_cases hcall : ∀ c, e ≠ .call c ∧ e ≠ .callOther c
  · exact Or.inl (repeating_congr hid (congrFun (repeatSpan_step he hcall) id))
  · cases e with
    | call c =>
      refine repeating_effect hcount hid true fun span hc => ?_
      subst hc
      exact hrep rfl
    | callOther c =>
      refine repeating_effect hcount hid false fun span hc => ?_
      subst hc
      exact hrep rfl
    | _ => exact absurd (fun c => ⟨nofun, nofun⟩) hcall

theorem pursued_step (h : Pursued s id) (hcount : Counted s) {e : Step} (he : Enabled s e)
    (hrep : Repeats id s e) : Pursued (next s e) id := by
  by_cases hfire : Fires id e
  · exact repeating_step (repeating_of_fires hfire hrep) hcount he hrep
  · rcases h with hid | hclear
    · exact repeating_step hid hcount he hrep
    · exact Or.inr (clear_step hclear he hfire)

/-! ## What is owed to a cancel call -/

/-- The loop thread fires the timer and has not put it back yet. -/
def Frame.fires (id : TimerId) : Frame → Prop
  | .firing j _ | .inFire j _ | .repeats j _ => j = id
  | _ => False

/-- The timer is scheduled, or will be by the repeat step. -/
def Due (s : State) (id : TimerId) : Prop := id ∈ s.timers ∨ Frame.fires id s.frame

/-- The timer was called back with `aborted` since the call, or will be. -/
inductive Owed (s : State) (id : TimerId) (k : Nat) (r : CancelCall) : Prop where
  | paid (aborts : r.aborts < s.count id .aborted)
  | aborting (l : Nat) (frame : s.frame = .aborting id l) (done : r.done = false)
  | due (done : r.done = false) (looked : Frame.looked s.frame ≠ some k) (due : Due s id)

structure Honours (s : State) (id : TimerId) : Prop where
  pursued : Pursued s id
  aborts : ∀ r ∈ s.cancels, r.id = id → r.aborts ≤ s.count id .aborted
  owed : ∀ k r, s.cancels[k]? = some r → r.id = id → r.scheduled = true → Owed s id k r

theorem fires_pursues {f : Frame} (h : Frame.fires id f) : Frame.pursues id f := by
  cases f with
  | firing j ts | inFire j ts | repeats j ts => exact h
  | _ => cases h

theorem timers_effect {c : Call} {onLoop : Bool} (h : id ∈ s.timers) :
    id ∈ (c.effect onLoop s).timers := by
  cases c with
  | destroy j =>
    rw [Call.effect, release_timers]
    exact h
  | fire j =>
    cases onLoop with
    | true => exact mem_insertByKey.mpr (Or.inr h)
    | false => exact h
  | cancel j =>
    simp only [Call.effect, timerCancel]
    split
    · cases onLoop <;> exact h
    · exact h
  | _ => exact h

theorem honours_effect (h : Honours s id) (hnum : Numbered s) {c : Call} (onLoop : Bool)
    (hpursued : Pursued (c.effect onLoop s) id) :
    Honours (c.effect onLoop s) id := by
  have hcallbacks (j : TimerId) (ec : ErrorCode) :
      (c.effect onLoop s).count j ec = s.count j ec := by
    rw [State.count, effect_callbacks, State.count]
  have hframe := effect_frame (s := s) c onLoop
  refine ⟨hpursued, fun r hmem hid => ?_, fun k r hk hid hsched => ?_⟩
  · obtain ⟨k, hk⟩ := List.getElem?_of_mem hmem
    rw [hcallbacks]
    rcases call_of_effect hk with ⟨r₀, hr₀, hsame, -, -⟩ | ⟨-, hr⟩
    · have hle := h.aborts r₀ (List.mem_of_getElem? hr₀) (hsame.id.trans hid)
      rwa [hsame.aborts] at hle
    · rw [← hid]
      exact Nat.le_of_eq (congrArg CancelCall.aborts hr)
  · rcases call_of_effect hk with ⟨r₀, hr₀, hsame, hdone, -⟩ | ⟨hlast, hr⟩
    · cases h.owed k r₀ hr₀ (hsame.id.trans hid) (hsame.scheduled.trans hsched) with
      | paid aborts => exact .paid (by rwa [hcallbacks, ← hsame.aborts])
      | aborting l hf hd => exact .aborting l (hframe.trans hf) (hdone ▸ hd)
      | due hd looked due =>
        refine .due (hdone ▸ hd) (hframe ▸ looked) ?_
        rcases due with hmem | hfires
        · exact Or.inl (timers_effect hmem)
        · exact Or.inr (hframe ▸ hfires)
    · have hmem : id ∈ s.timers := by
        rw [hr, hid] at hsched
        simpa using hsched
      refine .due (by rw [hr]) (fun hlooked => ?_) (Or.inl (timers_effect hmem))
      rw [hframe, hlast] at hlooked
      obtain ⟨j, hcancelling⟩ := cancelling_of_looked hlooked
      exact absurd (lt_of_cancelling hnum hcancelling) (Nat.lt_irrefl _)

/-- Where the loop thread was idle, or goes on where it was, nothing is taken from a call. -/
theorem honours_moved (h : Honours s id) (hpursued : Pursued t id)
    (hcancels : t.cancels = s.cancels)
    (hcallbacks : t.callbacks = s.callbacks) (htimers : t.timers = s.timers)
    (hframe : t.frame = s.frame ∨ s.frame = .idle ∧ ∀ k, Frame.looked t.frame ≠ some k) :
    Honours t id := by
  have hcount : t.count id .aborted = s.count id .aborted := by
    rw [State.count, hcallbacks, State.count]
  refine ⟨hpursued, fun r hmem hid => ?_, fun k r hk hid hsched => ?_⟩
  · rw [hcount]
    exact h.aborts r (hcancels ▸ hmem) hid
  · cases h.owed k r (hcancels ▸ hk) hid hsched with
    | paid aborts => exact .paid (hcount ▸ aborts)
    | aborting l hf hd =>
      rcases hframe with hframe | ⟨hidle, -⟩
      · exact .aborting l (hframe.trans hf) hd
      · rw [hidle] at hf
        cases hf
    | due hd looked due =>
      rcases hframe with hframe | ⟨hidle, hnone⟩
      · refine .due hd (hframe ▸ looked) ?_
        rcases due with hmem | hfires
        · exact Or.inl (htimers ▸ hmem)
        · exact Or.inr (hframe ▸ hfires)
      · refine .due hd (hnone k) (Or.inl ?_)
        rcases due with hmem | hfires
        · exact htimers ▸ hmem
        · rw [hidle] at hfires
          cases hfires

/-- A timer stays due until a cancel closure takes its entry out. -/
theorem due_run (h : Due s id) (hrepeats : ∀ ts, s.frame = .repeats id ts → s.repeating id)
    (hcancel : ∀ l, s.frame ≠ .cancel id l) : Due (run s) id := by
  unfold run
  cases hf : s.frame with
  | idle => exact h
  | schedule j =>
    rcases h with hmem | hfires
    · exact Or.inl (mem_insertByKey.mpr (Or.inr hmem))
    · rw [hf] at hfires
      cases hfires
  | cancel j l =>
    have hne : id ≠ j := fun heq => hcancel l (heq ▸ hf)
    have hmem : id ∈ s.timers := h.resolve_right (by simp [hf, Frame.fires])
    dsimp only
    split
    · exact Or.inl ((List.mem_erase_of_ne hne).mpr hmem)
    · exact Or.inl hmem
  | drain ts =>
    have hmem : id ∈ s.timers := h.resolve_right (by simp [hf, Frame.fires])
    dsimp only
    split
    · exact Or.inl hmem
    · next j rest htimers =>
      split
      · rw [htimers] at hmem
        rcases List.mem_cons.mp hmem with heq | hmem
        · exact Or.inr heq.symm
        · exact Or.inl hmem
      · exact Or.inl hmem
  | firing j ts =>
    rw [Due, hf] at h
    exact h
  | inFire j ts =>
    rw [Due, hf] at h
    exact h
  | repeats j ts =>
    rw [Due, hf] at h
    dsimp only
    rcases h with hmem | hj
    · split
      · exact Or.inl (mem_insertByKey.mpr (Or.inr hmem))
      · exact Or.inl hmem
    · have hj : j = id := hj
      subst hj
      rw [if_pos (show (s.access j).repeating j from hrepeats ts hf)]
      exact Or.inl (mem_insertByKey.mpr (Or.inl rfl))
  | _ =>
    have hmem : id ∈ s.timers := h.resolve_right (by simp [hf, Frame.fires])
    exact Or.inl (by simpa [State.access] using hmem)

theorem honours_run (h : Honours s id) (hnum : Numbered s) (hpursued : Pursued (run s) id) :
    Honours (run s) id := by
  have hle : s.count id .aborted ≤ (run s).count id .aborted := by
    rw [State.count, State.count, run_callbacks, List.count_append]
    exact Nat.le_add_right _ _
  have haborts : ∀ r ∈ (run s).cancels, r.id = id → r.aborts ≤ s.count id .aborted := by
    intro r hmem hid
    obtain ⟨k, hk⟩ := List.getElem?_of_mem hmem
    obtain ⟨r₀, hr₀, hsame, -, -⟩ := call_of_run hk
    exact hsame.aborts ▸ h.aborts r₀ (List.mem_of_getElem? hr₀) (hsame.id.trans hid)
  refine ⟨hpursued, fun r hmem hid => Nat.le_trans (haborts r hmem hid) hle,
    fun k r hk hid hsched => ?_⟩
  obtain ⟨r₀, hr₀, hsame, -, hdone⟩ := call_of_run hk
  have hid₀ := hsame.id.trans hid
  cases h.owed k r₀ hr₀ hid₀ (hsame.scheduled.trans hsched) with
  | paid aborts => exact .paid (Nat.lt_of_lt_of_le (hsame.aborts ▸ aborts) hle)
  | aborting l hf hd =>
    -- the callback is invoked now
    refine .paid (Nat.lt_of_le_of_lt (haborts r (List.mem_of_getElem? hk) hid) ?_)
    rw [State.count, State.count, run_callbacks, hf, Frame.calls, List.count_append]
    simp
  | due hd looked due =>
    have hnot : r.done = false := by
      refine Bool.eq_false_iff.mpr fun hr => ?_
      rcases hdone hr with hr₀ | ⟨j, hf⟩
      · rw [hd] at hr₀
        cases hr₀
      · exact looked (by rw [hf]; rfl)
    by_cases hcancel : ∃ l, s.frame = .cancel id l
    · obtain ⟨l, hf⟩ := hcancel
      have hmem : id ∈ s.timers := due.resolve_right (by simp [hf, Frame.fires])
      exact .aborting l (by simp [run, hf, hmem]) hnot
    · rw [not_exists] at hcancel
      have hrepeats (ts : Int) (hf : s.frame = .repeats id ts) : s.repeating id :=
        h.pursued.resolve_right fun hclear => hclear.frame (by rw [hf]; rfl)
      refine .due hnot (fun hlooked => ?_) (due_run due hrepeats hcancel)
      rcases run_looked hlooked with hlooked | ⟨j, hf⟩
      · exact looked hlooked
      · have hj : r₀.id = j := names_call (hnum.frame j k (by rw [hf]; rfl)) hr₀
        rw [← hj, hid₀] at hf
        exact hcancel k hf

theorem honours_step (h : Honours s id) (hnum : Numbered s) (hcount : Counted s) {e : Step}
    (he : Enabled s e) (hrep : Repeats id s e) : Honours (next s e) id := by
  have hpursued := pursued_step h.pursued hcount he hrep
  cases e with
  | call c => exact honours_effect h hnum true hpursued
  | callOther c => exact honours_effect h hnum false hpursued
  | other k =>
    have hk : s.others[k]? = some s.others[k] := List.getElem?_eq_getElem he
    simp only [next, hk] at hpursued ⊢
    cases hp : s.others[k] with
    | timerCancel j l => exact honours_moved h (hp ▸ hpursued) rfl rfl rfl (Or.inl rfl)
    | post c => exact honours_moved h (hp ▸ hpursued) rfl rfl rfl (Or.inl rfl)
  | task =>
    obtain ⟨c, posted, hposted⟩ := List.exists_cons_of_ne_nil he.2
    simp only [next, hposted] at hpursued ⊢
    exact honours_moved h hpursued rfl rfl rfl (Or.inr ⟨he.1, looked_closure c⟩)
  | drain ts => exact honours_moved h hpursued rfl rfl rfl (Or.inr ⟨he, by rintro k ⟨⟩⟩)
  | run => exact honours_run h hnum hpursued

theorem honours_reachable (h : machine.Execution (Repeats id) initial s) : Honours s id := by
  refine h.invariant (I := fun u => Honours u id) ?_ fun u e hu hhon he hrep => ?_
  · refine ⟨Or.inr ?_, by simp [initial], by simp [initial]⟩
    exact clear_of_unborn invariant_initial.counted (Nat.zero_le _)
  · have hreach := hu.reachable
    exact honours_step hhon (numbered_reachable hreach) (invariant_reachable hreach).counted he hrep

/-- The timer is called back with `aborted` if it was scheduled at the call. -/
theorem aborted_of_done (h : machine.Execution (Repeats id) initial s) (hmem : r ∈ s.cancels)
    (hid : r.id = id) (hdone : r.done = true) (hsched : r.scheduled = true) :
    r.aborts < s.count id .aborted := by
  obtain ⟨k, hk⟩ := List.getElem?_of_mem hmem
  cases (honours_reachable h).owed k r hk hid hsched with
  | paid aborts => exact aborts
  | aborting l frame done => exact absurd hdone (by simp [done])
  | due done => exact absurd hdone (by simp [done])

/-! ## Both halves -/

structure CancelStops (s : State) (id : TimerId) : Prop where
  stopped : Stopped s id → ∀ t, machine.Execution (fun _ e => ¬ Fires id e) s t →
    t.count id .success = s.count id .success
  /-- A cancel call that posts nothing finds nothing to stop. -/
  skipped : s.alive id = true → (s.ids id).refcount = 1 → id ∉ s.timers ∧
    ∀ t, machine.Execution (fun _ e => ¬ Fires id e) s t →
      t.count id .success = s.count id .success
  aborted : ∀ r ∈ s.cancels, r.id = id → r.done = true → r.scheduled = true →
    r.aborts < s.count id .aborted

/-- While no cancel closure runs with a second entry or a late `fire` around, cancelling a
repeating timer stops it. -/
theorem cancel_stops
    (h : machine.Execution (fun u e => CancelsAll u e ∧ Repeats id u e) initial s) :
    CancelStops s id := by
  have hall := h.mono fun _ _ hc => hc.1
  have hrep := h.mono fun _ _ hc => hc.2
  constructor
  · intro hstopped t ht
    exact success_unchanged hall hstopped ht
  · intro halive href
    have hclear := clear_of_refcount (invariant_reachable h.reachable).counted halive href
    exact ⟨hclear.timers, fun t ht => success_of_clear_run hclear ht⟩
  · intro r hmem hid hdone hsched
    exact aborted_of_done hrep hmem hid hdone hsched

/-- A repeating timer is fired, drained and cancelled in its callback, and the loop goes on. -/
def cancelledInCallback : List Step :=
  [.call .make, .call (.repeatSpan 0 5000), .call (.fire 0), .drain 0, .run, .run,
    .call (.cancel 0), .run, .run, .run, .run, .task, .run, .run, .run, .run, .run]

theorem cancel_stops_cancelledInCallback :
    let s := machine.runTrace initial cancelledInCallback
    CancelStops s 0 ∧ Stopped s 0 ∧ s.count 0 .aborted = 1 := by
  have hvalid : machine.ValidTrace (fun u e => CancelsAll u e ∧ Repeats 0 u e) initial
      cancelledInCallback := by decide
  exact ⟨cancel_stops hvalid.execution, by decide, by decide⟩

/-- Fired twice, the timer has two entries, of which the cancel closure takes out the first. -/
def firedTwice : List Step :=
  [.call .make, .call (.repeatSpan 0 5000), .call (.fire 0), .call (.fire 0), .call (.cancel 0),
    .task, .run, .run, .run, .run, .run]

theorem firedTwice_not_stopped :
    ¬ ∀ (s : State) (id : TimerId),
      machine.Execution (Repeats id) initial s → CancelStops s id := by
  intro h
  have hvalid : machine.ValidTrace (Repeats 0) initial firedTwice := by decide
  have hmore : machine.ValidTrace (fun _ e => ¬ Fires 0 e)
      (machine.runTrace initial firedTwice) [.drain 0, .run, .run] := by decide
  have hsame := (h _ 0 hvalid.execution).stopped (by decide) _ hmore.execution
  revert hsame
  decide

end TimerAborts
