import Tcode.TimerReferences

/-! # Cancelling a repeating timer

A cancel closure takes out the first entry of its timer. What it does not see is a second
entry, and a `fire` of another thread that was called before but is posted later.
-/
namespace TimerCancel

open SupportTransitionSystem SupportUpperBound TimerMachine TimerReferences

/-- The closure of a cancel call on which no `fire` followed finds at most one entry, and no
`fire` of its timer is still on the way. -/
def Frame.TakesAll (s : State) : Frame → Prop
  | .cancel id k => (s.cancels[k]?.any fun r => r.quiet) = true →
    s.timers.count id ≤ 1 ∧ .schedule id ∉ s.posted ∧ .post (.schedule id) ∉ s.others
  | _ => True

def CancelsAll (s : State) : Step → Prop
  | .run => Frame.TakesAll s s.frame
  | _ => True

/-- The timer is repeating whenever it is fired, and stays so. -/
def Repeats (id : TimerId) (s : State) : Step → Prop
  | .call (.fire j) | .callOther (.fire j) => j = id → s.repeating id
  | .call (.repeatSpan j span) | .callOther (.repeatSpan j span) => j = id → span.tdiv 1000 ≠ 0
  | _ => True

def Fires (id : TimerId) : Step → Prop
  | .call (.fire j) | .callOther (.fire j) => j = id
  | _ => False

/-- A cancel call has run through and the timer has not been fired since that call. -/
def Stopped (s : State) (id : TimerId) : Prop :=
  ∃ r ∈ s.cancels, r.id = id ∧ r.quiet = true ∧ r.done = true

instance (s : State) : ∀ f : Frame, Decidable (Frame.TakesAll s f)
  | .cancel id _ => inferInstanceAs (Decidable (_ → s.timers.count id ≤ 1 ∧ _ ∧ _))
  | .idle | .schedule _ | .scheduled _ | .aborting _ _ | .inAbort _ _ | .aborted _ _
  | .cancelled _ _ | .drain _ | .firing _ _ | .inFire _ _ | .repeats _ _ | .fired _ _ =>
    isTrue trivial

instance (s : State) : ∀ e : Step, Decidable (CancelsAll s e)
  | .run => inferInstanceAs (Decidable (Frame.TakesAll s s.frame))
  | .call _ | .callOther _ | .other _ | .task | .drain _ => isTrue trivial

instance (id : TimerId) (s : State) : ∀ e : Step, Decidable (Repeats id s e)
  | .call (.fire j) | .callOther (.fire j) => inferInstanceAs (Decidable (j = id → s.repeating id))
  | .call (.repeatSpan j span) | .callOther (.repeatSpan j span) =>
    inferInstanceAs (Decidable (j = id → span.tdiv 1000 ≠ 0))
  | .call .make | .call (.destroy _) | .call (.dueTime _ _) | .call (.cancel _)
  | .callOther .make | .callOther (.destroy _) | .callOther (.dueTime _ _)
  | .callOther (.cancel _) | .other _ | .task | .drain _ | .run => isTrue trivial

instance (id : TimerId) : ∀ e : Step, Decidable (Fires id e)
  | .call (.fire j) | .callOther (.fire j) => inferInstanceAs (Decidable (j = id))
  | .call .make | .call (.destroy _) | .call (.dueTime _ _) | .call (.cancel _)
  | .call (.repeatSpan _ _) | .callOther .make | .callOther (.destroy _)
  | .callOther (.dueTime _ _) | .callOther (.cancel _) | .callOther (.repeatSpan _ _)
  | .other _ | .task | .drain _ | .run => isFalse nofun

instance (s : State) (id : TimerId) : Decidable (Stopped s id) :=
  inferInstanceAs (Decidable (∃ r ∈ s.cancels, r.id = id ∧ r.quiet = true ∧ r.done = true))

/-- The loop thread is about to schedule the timer or to fire it. -/
def Frame.pursues (id : TimerId) : Frame → Prop
  | .schedule j | .firing j _ | .inFire j _ | .repeats j _ => j = id
  | _ => False

/-- Nothing is left that could call the timer back with success. -/
structure Clear (s : State) (id : TimerId) : Prop where
  timers : id ∉ s.timers
  posted : .schedule id ∉ s.posted
  others : .post (.schedule id) ∉ s.others
  frame : ¬ Frame.pursues id s.frame

/-- The cancel call whose closure the loop thread runs. -/
def Frame.cancelling : Frame → Option (TimerId × Nat)
  | .cancel id k | .aborting id k | .inAbort id k | .aborted id k | .cancelled id k => some (id, k)
  | _ => none

/-- The cancel call whose closure has looked for its entry. -/
def Frame.looked : Frame → Option Nat
  | .aborting _ k | .inAbort _ k | .aborted _ k | .cancelled _ k => some k
  | _ => none

/-! ## The numbers of cancel calls -/

def Names (s : State) (id : TimerId) (k : Nat) : Prop :=
  (s.cancels.map CancelCall.id)[k]? = some id

structure Numbered (s : State) : Prop where
  posted : ∀ id k, .cancel id k ∈ s.posted → Names s id k
  calling : ∀ id k, .timerCancel id k ∈ s.others → Names s id k
  posting : ∀ id k, .post (.cancel id k) ∈ s.others → Names s id k
  frame : ∀ id k, Frame.cancelling s.frame = some (id, k) → Names s id k

variable {s t : State} {id i : TimerId} {k : Nat}

theorem map_disturb (cancels : List CancelCall) :
    (disturb id cancels).map CancelCall.id = cancels.map CancelCall.id := by
  rw [disturb, List.map_map]
  refine List.map_congr_left fun r _ => ?_
  by_cases hr : r.id = id
  · simp [hr]
  · simp [hr]

theorem map_done (cancels : List CancelCall) (k : Nat) :
    (cancels.modify k fun r => { r with done := true }).map CancelCall.id =
      cancels.map CancelCall.id := by
  refine List.ext_getElem? fun j => ?_
  rw [List.getElem?_map, List.getElem?_map, List.getElem?_modify]
  by_cases hj : k = j
  · cases cancels[j]? <;> simp [hj]
  · simp [hj]

theorem names_append {cancels : List CancelCall} {r : CancelCall}
    (h : (cancels.map CancelCall.id)[k]? = some id) :
    ((cancels ++ [r]).map CancelCall.id)[k]? = some id := by
  obtain ⟨hlt, -⟩ := List.getElem?_eq_some_iff.mp h
  rw [List.map_append, List.getElem?_append_left hlt, h]

theorem names_last {cancels : List CancelCall} {r : CancelCall} :
    ((cancels ++ [r]).map CancelCall.id)[cancels.length]? = some r.id := by
  rw [List.map_append, List.getElem?_append_right (by simp)]
  simp

theorem numbered_moved (h : Numbered s) (hnames : ∀ id k, Names s id k → Names t id k)
    (hposted : t.posted = s.posted) (hothers : t.others = s.others)
    (hframe : ∀ id k, Frame.cancelling t.frame = some (id, k) →
      Frame.cancelling s.frame = some (id, k)) : Numbered t := by
  constructor
  · intro id k hmem
    exact hnames id k (h.posted id k (hposted ▸ hmem))
  · intro id k hmem
    exact hnames id k (h.calling id k (hothers ▸ hmem))
  · intro id k hmem
    exact hnames id k (h.posting id k (hothers ▸ hmem))
  · intro id k hmem
    exact hnames id k (h.frame id k (hframe id k hmem))

theorem numbered_schedule (h : Numbered s) (onLoop : Bool) :
    Numbered (timerSchedule onLoop s id) := by
  cases onLoop with
  | true => exact ⟨h.posted, h.calling, h.posting, h.frame⟩
  | false =>
    refine ⟨h.posted, fun j k hmem => ?_, fun j k hmem => ?_, h.frame⟩
    · rcases List.mem_append.mp hmem with hmem | hmem
      · exact h.calling j k hmem
      · simp at hmem
    · rcases List.mem_append.mp hmem with hmem | hmem
      · exact h.posting j k hmem
      · simp at hmem

theorem numbered_cancel (h : Numbered s) (onLoop : Bool) :
    Numbered (timerCancel onLoop s id) := by
  unfold timerCancel
  split
  · have hnames (j k : Nat) (hk : Names s j k) : Names ((s.access id).record id) j k :=
      names_append hk
    have hlast : Names ((s.access id).record id) id s.cancels.length := names_last
    cases onLoop with
    | true =>
      refine ⟨fun j k hmem => ?_, fun j k hmem => hnames j k (h.calling j k hmem),
        fun j k hmem => hnames j k (h.posting j k hmem),
        fun j k hmem => hnames j k (h.frame j k hmem)⟩
      rcases List.mem_append.mp hmem with hmem | hmem
      · exact hnames j k (h.posted j k hmem)
      · cases List.mem_singleton.mp hmem
        exact hlast
    | false =>
      refine ⟨fun j k hmem => hnames j k (h.posted j k hmem), fun j k hmem => ?_,
        fun j k hmem => ?_, fun j k hmem => hnames j k (h.frame j k hmem)⟩
      · rcases List.mem_append.mp hmem with hmem | hmem
        · exact hnames j k (h.calling j k hmem)
        · cases List.mem_singleton.mp hmem
          exact hlast
      · rcases List.mem_append.mp hmem with hmem | hmem
        · exact hnames j k (h.posting j k hmem)
        · simp at hmem
  · exact ⟨h.posted, h.calling, h.posting, h.frame⟩

theorem numbered_effect (h : Numbered s) (onLoop : Bool) (c : Call) :
    Numbered (c.effect onLoop s) := by
  cases c with
  | destroy id =>
    refine numbered_moved h ?_ (release_posted _ _) (release_others _ _) ?_
    · intro j k hk
      show ((State.release _ _).cancels.map CancelCall.id)[k]? = some j
      rw [release_cancels]
      exact hk
    · intro j k hk
      rw [Call.effect, release_frame] at hk
      exact hk
  | fire id =>
    refine numbered_schedule (s := { s with cancels := disturb id s.cancels }) ?_ onLoop
    refine numbered_moved h (fun j k hk => ?_) rfl rfl fun _ _ hk => hk
    show ((disturb id s.cancels).map CancelCall.id)[k]? = some j
    rw [map_disturb]
    exact hk
  | cancel id => exact numbered_cancel h onLoop
  | _ => exact ⟨h.posted, h.calling, h.posting, h.frame⟩

theorem run_cancels (s : State) : (run s).cancels =
    match s.frame with
    | .cancelled _ k => s.cancels.modify k fun r => { r with done := true }
    | _ => s.cancels := by
  unfold run
  cases s.frame with
  | scheduled id => exact release_cancels s id
  | aborted id k => exact release_cancels s id
  | fired id ts => exact release_cancels s id
  | cancel id k => dsimp only; split <;> rfl
  | repeats id ts => dsimp only; split <;> rfl
  | drain ts =>
    dsimp only
    split
    · rfl
    · split <;> rfl
  | _ => rfl

theorem run_frame (s : State) (hk : Frame.cancelling (run s).frame = some (id, k)) :
    Frame.cancelling s.frame = some (id, k) := by
  unfold run at hk
  cases hf : s.frame with
  | idle => simp [hf, Frame.cancelling] at hk
  | cancel j l =>
    simp only [hf] at hk
    split at hk <;> simpa [Frame.cancelling] using hk
  | drain ts =>
    simp only [hf] at hk
    split at hk
    · simp [Frame.cancelling] at hk
    · split at hk <;> simp [Frame.cancelling] at hk
  | repeats j ts =>
    simp only [hf] at hk
    split at hk <;> simp [Frame.cancelling] at hk
  | aborting j l => simpa [hf, Frame.cancelling] using hk
  | inAbort j l => simpa [hf, Frame.cancelling] using hk
  | aborted j l => simpa [hf, Frame.cancelling] using hk
  | _ => simp [hf, Frame.cancelling] at hk

theorem numbered_run (h : Numbered s) : Numbered (run s) := by
  obtain ⟨hothers, -, hposted⟩ := run_outside s
  refine numbered_moved h (fun j k hk => ?_) hposted hothers fun j k => run_frame s
  rw [Names, run_cancels]
  split
  · rw [map_done]
    exact hk
  · exact hk

theorem numbered_step (h : Numbered s) {e : Step} (he : Enabled s e) : Numbered (next s e) := by
  cases e with
  | call c => exact numbered_effect h true c
  | callOther c => exact numbered_effect h false c
  | other k =>
    have hk : s.others[k]? = some s.others[k] := List.getElem?_eq_getElem he
    have hmem := List.getElem_mem he
    simp only [next, hk]
    cases hp : s.others[k] with
    | timerCancel j l =>
      refine ⟨h.posted, fun i k hmem' => ?_, fun i k hmem' => ?_, h.frame⟩
      · rcases List.mem_append.mp hmem' with hmem' | hmem'
        · exact h.calling i k (List.mem_of_mem_eraseIdx hmem')
        · simp at hmem'
      · rcases List.mem_append.mp hmem' with hmem' | hmem'
        · exact h.posting i k (List.mem_of_mem_eraseIdx hmem')
        · cases List.mem_singleton.mp hmem'
          exact h.calling j l (hp ▸ hmem)
    | post c =>
      refine ⟨fun i k hmem' => ?_, fun i k hmem' => h.calling i k (List.mem_of_mem_eraseIdx hmem'),
        fun i k hmem' => h.posting i k (List.mem_of_mem_eraseIdx hmem'), h.frame⟩
      rcases List.mem_append.mp hmem' with hmem' | hmem'
      · exact h.posted i k hmem'
      · rw [← List.mem_singleton.mp hmem'] at hp
        exact h.posting i k (hp ▸ hmem)
  | task =>
    obtain ⟨c, posted, hposted⟩ := List.exists_cons_of_ne_nil he.2
    simp only [next, hposted]
    refine ⟨fun i k hmem => h.posted i k (hposted ▸ List.mem_cons_of_mem _ hmem), h.calling,
      h.posting, fun i k hk => ?_⟩
    cases c with
    | schedule j => simp [Closure.frame, Frame.cancelling] at hk
    | cancel j l =>
      have hsame : j = i ∧ l = k := by simpa [Closure.frame, Frame.cancelling] using hk
      rw [hsame.1, hsame.2] at hposted
      exact h.posted i k (hposted ▸ List.mem_cons_self)
  | drain ts =>
    exact ⟨h.posted, h.calling, h.posting, fun i k hk => by simp [next, Frame.cancelling] at hk⟩
  | run => exact numbered_run h

theorem numbered_reachable (h : machine.Reachable initial s) : Numbered s := by
  refine h.invariant ?_ fun u e _ hu he _ => numbered_step hu he
  exact ⟨by simp [initial], by simp [initial], by simp [initial],
    by simp [initial, Frame.cancelling]⟩

/-! ## A timer that is clear stays clear -/

theorem clear_schedule (h : Clear s id) {j : TimerId} (hne : j ≠ id) (onLoop : Bool) :
    Clear (timerSchedule onLoop s j) id := by
  cases onLoop with
  | true =>
    refine ⟨fun hmem => ?_, h.posted, h.others, h.frame⟩
    rcases mem_insertByKey.mp hmem with heq | hmem
    · exact hne heq.symm
    · exact h.timers hmem
  | false =>
    refine ⟨h.timers, h.posted, fun hmem => ?_, h.frame⟩
    rcases List.mem_append.mp hmem with hmem | hmem
    · exact h.others hmem
    · have heq : id = j := by simpa using hmem
      exact hne heq.symm

theorem clear_effect (h : Clear s id) {c : Call} (onLoop : Bool) (hfire : c ≠ .fire id) :
    Clear (c.effect onLoop s) id := by
  cases c with
  | destroy j =>
    constructor
    · rw [Call.effect, release_timers]
      exact h.timers
    · rw [Call.effect, release_posted]
      exact h.posted
    · rw [Call.effect, release_others]
      exact h.others
    · rw [Call.effect, release_frame]
      exact h.frame
  | fire j =>
    have hquiet : Clear { s with cancels := disturb j s.cancels } id :=
      ⟨h.timers, h.posted, h.others, h.frame⟩
    exact clear_schedule hquiet (fun heq => hfire (heq ▸ rfl)) onLoop
  | cancel j =>
    simp only [Call.effect, timerCancel]
    split
    · cases onLoop with
      | true =>
        refine ⟨h.timers, fun hmem => ?_, h.others, h.frame⟩
        rcases List.mem_append.mp hmem with hmem | hmem
        · exact h.posted hmem
        · simp at hmem
      | false =>
        refine ⟨h.timers, h.posted, fun hmem => ?_, h.frame⟩
        rcases List.mem_append.mp hmem with hmem | hmem
        · exact h.others hmem
        · simp at hmem
    · exact ⟨h.timers, h.posted, h.others, h.frame⟩
  | _ => exact ⟨h.timers, h.posted, h.others, h.frame⟩

theorem clear_run (h : Clear s id) : Clear (run s) id := by
  obtain ⟨hothers, -, hposted⟩ := run_outside s
  have hframe := h.frame
  suffices id ∉ (run s).timers ∧ ¬ Frame.pursues id (run s).frame from
    ⟨this.1, hposted ▸ h.posted, hothers ▸ h.others, this.2⟩
  have hrelease (j : TimerId) : id ∉ (s.release j).timers := by
    rw [release_timers]
    exact h.timers
  unfold run
  cases hf : s.frame with
  | idle => exact ⟨h.timers, h.frame⟩
  | schedule j =>
    rw [hf] at hframe
    exact ⟨(clear_schedule h hframe true).timers, nofun⟩
  | scheduled j => exact ⟨hrelease j, nofun⟩
  | cancel j k =>
    dsimp only
    split
    · exact ⟨fun hmem => h.timers (List.mem_of_mem_erase hmem), nofun⟩
    · exact ⟨h.timers, nofun⟩
  | aborting j k => exact ⟨h.timers, nofun⟩
  | inAbort j k => exact ⟨h.timers, nofun⟩
  | aborted j k => exact ⟨hrelease j, nofun⟩
  | cancelled j k => exact ⟨hrelease j, nofun⟩
  | drain ts =>
    dsimp only
    split
    · exact ⟨h.timers, nofun⟩
    · next j rest htimers =>
      have hnot := h.timers
      rw [htimers] at hnot
      split
      · exact ⟨fun hmem => hnot (List.mem_cons_of_mem _ hmem),
          fun heq => hnot (heq ▸ List.mem_cons_self)⟩
      · exact ⟨h.timers, nofun⟩
  | firing j ts =>
    rw [hf] at hframe
    exact ⟨h.timers, hframe⟩
  | inFire j ts =>
    rw [hf] at hframe
    exact ⟨h.timers, hframe⟩
  | repeats j ts =>
    rw [hf] at hframe
    dsimp only
    split
    · have hset : Clear ((s.access j).set j { s.ids j with
          dueTime := (s.ids j).dueTime + (s.ids j).repeatSpan }) id :=
        ⟨h.timers, h.posted, h.others, h.frame⟩
      exact ⟨(clear_schedule hset hframe true).timers, nofun⟩
    · exact ⟨h.timers, nofun⟩
  | fired j ts => exact ⟨hrelease j, nofun⟩

theorem clear_step (h : Clear s id) {e : Step} (he : Enabled s e) (hfire : ¬ Fires id e) :
    Clear (next s e) id := by
  cases e with
  | call c => exact clear_effect h true fun hc => hfire (hc ▸ rfl)
  | callOther c => exact clear_effect h false fun hc => hfire (hc ▸ rfl)
  | other k =>
    have hk : s.others[k]? = some s.others[k] := List.getElem?_eq_getElem he
    have hmem := List.getElem_mem he
    simp only [next, hk]
    cases hp : s.others[k] with
    | timerCancel j l =>
      refine ⟨h.timers, h.posted, fun hmem' => ?_, h.frame⟩
      rcases List.mem_append.mp hmem' with hmem' | hmem'
      · exact h.others (List.mem_of_mem_eraseIdx hmem')
      · simp at hmem'
    | post c =>
      refine ⟨h.timers, fun hmem' => ?_, fun hmem' => h.others (List.mem_of_mem_eraseIdx hmem'),
        h.frame⟩
      rcases List.mem_append.mp hmem' with hmem' | hmem'
      · exact h.posted hmem'
      · rw [← List.mem_singleton.mp hmem'] at hp
        exact h.others (hp ▸ hmem)
  | task =>
    obtain ⟨c, posted, hposted⟩ := List.exists_cons_of_ne_nil he.2
    have hnot := h.posted
    rw [hposted] at hnot
    simp only [next, hposted]
    refine ⟨h.timers, fun hmem => hnot (List.mem_cons_of_mem _ hmem), h.others, fun hc => ?_⟩
    cases c with
    | schedule j =>
      have heq : j = id := hc
      exact hnot (heq ▸ List.mem_cons_self)
    | cancel j l => exact hc
  | drain ts => exact ⟨h.timers, h.posted, h.others, fun hc => hc⟩
  | run => exact clear_run h

/-! ## A cancel call that has run through -/

/-- The call stands, and its closure has looked for its entry. -/
structure Looked (s : State) (k : Nat) (r : CancelCall) : Prop where
  call : s.cancels[k]? = some r
  quiet : r.quiet = true
  looked : r.done = true ∨ Frame.looked s.frame = some k

def Stops (s : State) : Prop := ∀ k r, Looked s k r → Clear s r.id

variable {r : CancelCall}

theorem cancelling_of_looked {f : Frame} (h : Frame.looked f = some k) :
    ∃ id, Frame.cancelling f = some (id, k) := by
  cases f with
  | aborting id l => exact ⟨id, by simpa [Frame.looked, Frame.cancelling] using h⟩
  | inAbort id l => exact ⟨id, by simpa [Frame.looked, Frame.cancelling] using h⟩
  | aborted id l => exact ⟨id, by simpa [Frame.looked, Frame.cancelling] using h⟩
  | cancelled id l => exact ⟨id, by simpa [Frame.looked, Frame.cancelling] using h⟩
  | _ => simp [Frame.looked] at h

/-- A closure that is taken up has not looked for its entry. -/
theorem looked_closure (c : Closure) (k : Nat) : Frame.looked c.frame ≠ some k := by
  cases c <;> simp [Closure.frame, Frame.looked]

/-- What a cancel call noted when it was made. -/
structure SameCall (r₀ r : CancelCall) : Prop where
  id : r₀.id = r.id
  scheduled : r₀.scheduled = r.scheduled
  aborts : r₀.aborts = r.aborts

/-- A call of the user ends that a cancel call stands, or makes a new one. -/
theorem call_of_effect {c : Call} {onLoop : Bool} (h : (c.effect onLoop s).cancels[k]? = some r) :
    (∃ r₀, s.cancels[k]? = some r₀ ∧ SameCall r₀ r ∧ r₀.done = r.done ∧
      (r.quiet = true → r₀.quiet = true ∧ c ≠ .fire r.id)) ∨
    k = s.cancels.length ∧
      r = ⟨r.id, decide (r.id ∈ s.timers), s.count r.id .aborted, true, false⟩ := by
  cases c with
  | destroy j =>
    rw [Call.effect, release_cancels] at h
    exact Or.inl ⟨r, h, ⟨rfl, rfl, rfl⟩, rfl, fun hq => ⟨hq, by simp⟩⟩
  | fire j =>
    have hcancels : ((Call.fire j).effect onLoop s).cancels = disturb j s.cancels := by
      cases onLoop <;> rfl
    rw [hcancels, disturb, List.getElem?_map] at h
    obtain ⟨r₀, hr₀, rfl⟩ := Option.map_eq_some_iff.mp h
    refine Or.inl ⟨r₀, hr₀, ?_⟩
    by_cases hid : r₀.id = j
    · rw [if_pos hid]
      exact ⟨⟨rfl, rfl, rfl⟩, rfl, by simp⟩
    · rw [if_neg hid]
      exact ⟨⟨rfl, rfl, rfl⟩, rfl, fun hq => ⟨hq, fun heq => hid (Call.fire.inj heq).symm⟩⟩
  | cancel j =>
    simp only [Call.effect, timerCancel] at h
    split at h
    · have hcall :
          (s.cancels ++ [⟨j, decide (j ∈ s.timers), s.count j .aborted, true, false⟩])[k]? =
            some r := by
        cases onLoop <;> exact h
      by_cases hlt : k < s.cancels.length
      · rw [List.getElem?_append_left hlt] at hcall
        exact Or.inl ⟨r, hcall, ⟨rfl, rfl, rfl⟩, rfl, fun hq => ⟨hq, by simp⟩⟩
      · obtain ⟨hlen, hget⟩ := List.getElem?_eq_some_iff.mp hcall
        rw [List.length_append, List.length_singleton] at hlen
        have hk : k = s.cancels.length := by omega
        subst hk
        rw [List.getElem_concat_length rfl] at hget
        exact Or.inr ⟨rfl, by rw [← hget]⟩
    · exact Or.inl ⟨r, h, ⟨rfl, rfl, rfl⟩, rfl, fun hq => ⟨hq, by simp⟩⟩
  | _ => exact Or.inl ⟨r, h, ⟨rfl, rfl, rfl⟩, rfl, fun hq => ⟨hq, by simp⟩⟩

theorem call_of_run (h : (run s).cancels[k]? = some r) :
    ∃ r₀, s.cancels[k]? = some r₀ ∧ SameCall r₀ r ∧ r₀.quiet = r.quiet ∧
      (r.done = true → r₀.done = true ∨ ∃ id, s.frame = .cancelled id k) := by
  rw [run_cancels] at h
  split at h
  · next id l hf =>
    rw [List.getElem?_modify] at h
    obtain ⟨r₀, hr₀, rfl⟩ := Option.map_eq_some_iff.mp h
    refine ⟨r₀, hr₀, ?_⟩
    by_cases hl : l = k
    · rw [if_pos hl]
      exact ⟨⟨rfl, rfl, rfl⟩, rfl, fun _ => Or.inr ⟨id, hl ▸ hf⟩⟩
    · rw [if_neg hl]
      exact ⟨⟨rfl, rfl, rfl⟩, rfl, Or.inl⟩
  · exact ⟨r, h, ⟨rfl, rfl, rfl⟩, rfl, Or.inl⟩

theorem effect_frame (c : Call) (onLoop : Bool) : (c.effect onLoop s).frame = s.frame := by
  cases c with
  | destroy id => exact release_frame _ _
  | fire id => cases onLoop <;> rfl
  | cancel id =>
    simp only [Call.effect, timerCancel]
    split
    · cases onLoop <;> rfl
    · rfl
  | _ => rfl

/-- The closure that runs belongs to a call that was made before. -/
theorem lt_of_cancelling (h : Numbered s) (hk : Frame.cancelling s.frame = some (id, k)) :
    k < s.cancels.length := by
  obtain ⟨hlt, -⟩ := List.getElem?_eq_some_iff.mp (h.frame id k hk)
  simpa using hlt

theorem names_call (h : Names s id k) (hcall : s.cancels[k]? = some r) : r.id = id := by
  rw [Names, List.getElem?_map, hcall] at h
  exact Option.some.inj h

/-- A call of the user makes no cancel call look for its entry. -/
theorem looked_effect (hnum : Numbered s) {c : Call} {onLoop : Bool}
    (h : Looked (c.effect onLoop s) k r) :
    ∃ r₀, Looked s k r₀ ∧ r₀.id = r.id ∧ c ≠ .fire r.id := by
  have hlooked := h.looked
  rw [effect_frame] at hlooked
  rcases call_of_effect h.call with ⟨r₀, hcall, hsame, hdone, hquiet⟩ | ⟨rfl, hr⟩
  · obtain ⟨hq, hfire⟩ := hquiet h.quiet
    exact ⟨r₀, ⟨hcall, hq, hdone ▸ hlooked⟩, hsame.id, hfire⟩
  · rcases hlooked with hdone | hframe
    · rw [hr] at hdone
      cases hdone
    · obtain ⟨id, hcancelling⟩ := cancelling_of_looked hframe
      exact absurd (lt_of_cancelling hnum hcancelling) (Nat.lt_irrefl _)

theorem run_looked (h : Frame.looked (run s).frame = some k) :
    Frame.looked s.frame = some k ∨ ∃ id, s.frame = .cancel id k := by
  unfold run at h
  cases hf : s.frame with
  | idle => simp [hf, Frame.looked] at h
  | cancel j l =>
    simp only [hf] at h
    have hl : l = k := by
      split at h <;> simpa [Frame.looked] using h
    exact Or.inr ⟨j, hl ▸ rfl⟩
  | aborting j l => exact Or.inl (by simpa [hf, Frame.looked] using h)
  | inAbort j l => exact Or.inl (by simpa [hf, Frame.looked] using h)
  | aborted j l => exact Or.inl (by simpa [hf, Frame.looked] using h)
  | drain ts =>
    simp only [hf] at h
    split at h
    · simp [Frame.looked] at h
    · split at h <;> simp [Frame.looked] at h
  | repeats j ts =>
    simp only [hf] at h
    split at h <;> simp [Frame.looked] at h
  | _ => simp [hf, Frame.looked] at h

/-- Either the closure had looked before, or it does so now. -/
theorem looked_run (h : Looked (run s) k r) : ∃ r₀, r₀.id = r.id ∧
    (Looked s k r₀ ∨ ∃ id, s.frame = .cancel id k ∧ s.cancels[k]? = some r₀ ∧ r₀.quiet = true) := by
  obtain ⟨r₀, hcall, hsame, hquiet, hdone⟩ := call_of_run h.call
  have hq := hquiet.trans h.quiet
  refine ⟨r₀, hsame.id, ?_⟩
  rcases h.looked with hd | hlooked
  · rcases hdone hd with hd | ⟨id, hf⟩
    · exact Or.inl ⟨hcall, hq, Or.inl hd⟩
    · exact Or.inl ⟨hcall, hq, Or.inr (by rw [hf]; rfl)⟩
  · rcases run_looked hlooked with hlooked | ⟨id, hf⟩
    · exact Or.inl ⟨hcall, hq, Or.inr hlooked⟩
    · exact Or.inr ⟨id, hf, hcall, hq⟩

/-- A closure that finds at most one entry leaves its timer clear. -/
theorem clear_of_cancel (hf : s.frame = .cancel id k) (hcount : s.timers.count id ≤ 1)
    (hposted : .schedule id ∉ s.posted) (hothers : .post (.schedule id) ∉ s.others) :
    Clear (run s) id := by
  simp only [run, hf]
  split
  · refine ⟨fun hmem => ?_, hposted, hothers, nofun⟩
    have hpos := List.count_pos_iff.mpr hmem
    rw [List.count_erase_self] at hpos
    omega
  · next hnot => exact ⟨hnot, hposted, hothers, nofun⟩

theorem stops_step (h : Stops s) (hnum : Numbered s) {e : Step} (he : Enabled s e)
    (hall : CancelsAll s e) : Stops (next s e) := by
  intro k r hr
  have hstays (hlooked : Looked s k r) (hfire : ¬ Fires r.id e) : Clear (next s e) r.id :=
    clear_step (h k r hlooked) he hfire
  cases e with
  | call c =>
    obtain ⟨r₀, hlooked, hid, hfire⟩ := looked_effect hnum hr
    exact clear_effect (hid ▸ h k r₀ hlooked) true hfire
  | callOther c =>
    obtain ⟨r₀, hlooked, hid, hfire⟩ := looked_effect hnum hr
    exact clear_effect (hid ▸ h k r₀ hlooked) false hfire
  | other j =>
    have hj : s.others[j]? = some s.others[j] := List.getElem?_eq_getElem he
    refine hstays ?_ id
    simp only [next, hj] at hr
    cases hp : s.others[j] with
    | timerCancel i l =>
      rw [hp] at hr
      exact ⟨hr.call, hr.quiet, hr.looked⟩
    | post c =>
      rw [hp] at hr
      exact ⟨hr.call, hr.quiet, hr.looked⟩
  | task =>
    obtain ⟨c, posted, hposted⟩ := List.exists_cons_of_ne_nil he.2
    refine hstays ?_ id
    simp only [next, hposted] at hr
    exact ⟨hr.call, hr.quiet, Or.inl (hr.looked.resolve_right (looked_closure c k))⟩
  | drain ts =>
    refine hstays ?_ id
    exact ⟨hr.call, hr.quiet, Or.inl (hr.looked.resolve_right (by rintro ⟨⟩))⟩
  | run =>
    obtain ⟨r₀, hid, hlooked | ⟨id, hf, hcall, hquiet⟩⟩ := looked_run hr
    · exact hid ▸ clear_run (h k r₀ hlooked)
    · have hname : r₀.id = id := names_call (hnum.frame id k (by rw [hf]; rfl)) hcall
      simp only [CancelsAll, Frame.TakesAll, hf, hcall, Option.any_some] at hall
      obtain ⟨hcount, hposted, hothers⟩ := hall hquiet
      exact hid ▸ hname ▸ clear_of_cancel hf hcount hposted hothers

theorem stops_reachable (h : machine.Execution CancelsAll initial s) : Stops s := by
  refine h.invariant ?_ fun u e hu hstops he hall => ?_
  · intro k r hr
    have hcall := hr.call
    simp [initial] at hcall
  · exact stops_step hstops (numbered_reachable hu.reachable) he hall

/-! ## No success after that -/

theorem effect_callbacks (c : Call) (onLoop : Bool) :
    (c.effect onLoop s).callbacks = s.callbacks := by
  cases c with
  | destroy id => exact release_callbacks _ _
  | fire id => cases onLoop <;> rfl
  | cancel id =>
    simp only [Call.effect, timerCancel]
    split
    · cases onLoop <;> rfl
    · rfl
  | _ => rfl

/-- What the loop thread calls back next. -/
def Frame.calls : Frame → List (TimerId × ErrorCode)
  | .aborting id _ => [(id, .aborted)]
  | .firing id _ => [(id, .success)]
  | _ => []

theorem run_callbacks (s : State) : (run s).callbacks = s.callbacks ++ Frame.calls s.frame := by
  have hrelease (id : TimerId) : (s.release id).callbacks = s.callbacks ++ [] := by simp
  unfold run
  cases s.frame with
  | scheduled id => exact hrelease id
  | aborted id k => exact hrelease id
  | cancelled id k => exact hrelease id
  | fired id ts => exact hrelease id
  | cancel id k => dsimp only; split <;> exact (List.append_nil _).symm
  | repeats id ts => dsimp only; split <;> exact (List.append_nil _).symm
  | drain ts =>
    dsimp only
    split
    · exact (List.append_nil _).symm
    · split <;> exact (List.append_nil _).symm
  | aborting id k => rfl
  | firing id ts => rfl
  | _ => exact (List.append_nil _).symm

theorem next_callbacks {e : Step} (he : Enabled s e) : (next s e).callbacks =
    s.callbacks ++ if e = .run then Frame.calls s.frame else [] := by
  cases e with
  | call c => simp [next, effect_callbacks]
  | callOther c => simp [next, effect_callbacks]
  | other k =>
    have hk : s.others[k]? = some s.others[k] := List.getElem?_eq_getElem he
    simp only [next, hk]
    cases s.others[k] <;> simp [Pending.go, State.addRef, State.set, State.access]
  | task =>
    obtain ⟨c, posted, hposted⟩ := List.exists_cons_of_ne_nil he.2
    simp [next, hposted]
  | drain ts => simp [next]
  | run => simp [next, run_callbacks]

theorem success_of_clear (h : Clear s id) {e : Step} (he : Enabled s e) :
    (next s e).count id .success = s.count id .success := by
  rw [State.count, next_callbacks he, List.count_append]
  have hnone : (Frame.calls s.frame).count (id, .success) = 0 := by
    rw [List.count_eq_zero]
    intro hmem
    cases hf : s.frame with
    | aborting j k => simp [hf, Frame.calls] at hmem
    | firing j ts =>
      have heq : id = j := by simpa [hf, Frame.calls] using hmem
      exact h.frame (by rw [hf]; exact heq.symm)
    | _ => simp [hf, Frame.calls] at hmem
  split
  · rw [hnone, Nat.add_zero, State.count]
  · rfl

theorem success_of_clear_run (h : Clear s id)
    (hrun : machine.Execution (fun _ e => ¬ Fires id e) s t) :
    t.count id .success = s.count id .success := by
  suffices Clear t id ∧ t.count id .success = s.count id .success from this.2
  refine hrun.invariant (I := fun u => Clear u id ∧ u.count id .success = s.count id .success)
    ⟨h, rfl⟩ fun u e _ hinv he hfire => ?_
  exact ⟨clear_step hinv.1 he hfire, (success_of_clear hinv.1 he).trans hinv.2⟩

theorem clear_of_stopped (h : Stops s) (hstopped : Stopped s id) : Clear s id := by
  obtain ⟨r, hmem, hid, hquiet, hdone⟩ := hstopped
  obtain ⟨k, hk⟩ := List.getElem?_of_mem hmem
  exact hid ▸ h k r ⟨hk, hquiet, Or.inl hdone⟩

/-- As long as the timer is not fired again, it is not called back with success. -/
theorem success_unchanged (h : machine.Execution CancelsAll initial s) (hstopped : Stopped s id)
    (hrun : machine.Execution (fun _ e => ¬ Fires id e) s t) :
    t.count id .success = s.count id .success :=
  success_of_clear_run (clear_of_stopped (stops_reachable h) hstopped) hrun

end TimerCancel
