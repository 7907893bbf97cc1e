import Tcode.EpollReadiness

/-! # No operation sleeps through an edge

The loop thread looks at the front of a queue until it is empty or has to wait. What has to wait
is not ready then, and gets ready only together with an edge.
-/
namespace EpollReadiness

open SupportReferenceCount SupportTransitionSystem EpollMachine EpollReferences

variable {kind : OperationId → Kind} {κ : Kernel} {s t u : State} {d e : DescriptorId}
  {k : SocketId} {m : EngineId} {o : OperationId}

/-- Operations are in queues that suit them, or on their way to one. -/
structure Suited (kind : OperationId → Kind) (s : State) : Prop where
  queue : ∀ d i, ∀ o ∈ (s.descs d).opQueue i, (kind o).Suits i
  flight : ∀ i d o, InFlight s (.dispatch i d o) → (kind o).Suits i

/-- What a step may change about the queues: the operation at the front of a queue that is not
attended was there before. -/
structure Kept (kind : OperationId → Kind) (s t : State) : Prop where
  queue : ∀ d i, ∀ o ∈ (t.descs d).opQueue i, o ∈ (s.descs d).opQueue i ∨ (kind o).Suits i
  flight : ∀ i d o, InFlight t (.dispatch i d o) →
    InFlight s (.dispatch i d o) ∨ (kind o).Suits i
  front : ∀ d i o, ((t.descs d).opQueue i).head? = some o → (t.descs d).fd = true →
    kind o ≠ .other → Attended t d i ∨
      ((s.descs d).opQueue i).head? = some o ∧ (s.descs d).fd = true ∧ ¬ Attended s d i

theorem Kept.suited (h : Kept kind s t) (hs : Suited kind s) : Suited kind t := by
  constructor
  · intro d i o ho
    rcases h.queue d i o ho with hold | hsuits
    · exact hs.queue d i o hold
    · exact hsuits
  · intro i d o ho
    rcases h.flight i d o ho with hold | hsuits
    · exact hs.flight i d o hold
    · exact hsuits

theorem not_other_of_ready (h : Ready kind κ d o) : kind o ≠ .other := by
  intro hother
  rw [Ready, hother] at h
  exact h

theorem Kept.awake (h : Kept kind s t) {κ' : Kernel} (hs : Awake kind (s, κ))
    (hκ : Consumes κ κ') : Awake kind (t, κ') := by
  intro d i o ho hfd hready
  rcases h.front d i o ho hfd (not_other_of_ready hready) with hattended | ⟨hold, hfd', hnot⟩
  · exact Or.inr hattended
  · rcases hs d i o hold hfd' (hκ.ready hready) with hedge | hattended
    · exact Or.inl (hκ.edges ▸ hedge)
    · exact absurd hattended hnot

theorem Kept.trans (h : Kept kind s t) (k : Kept kind t u) : Kept kind s u := by
  constructor
  · intro d i o ho
    rcases k.queue d i o ho with hold | hsuits
    · exact h.queue d i o hold
    · exact Or.inr hsuits
  · intro i d o ho
    rcases k.flight i d o ho with hold | hsuits
    · exact h.flight i d o hold
    · exact Or.inr hsuits
  · intro d i o ho hfd hkind
    rcases k.front d i o ho hfd hkind with hattended | ⟨hold, hfd', hnot⟩
    · exact Or.inl hattended
    · rcases h.front d i o hold hfd' hkind with hattended | hbefore
      · exact absurd hattended hnot
      · exact Or.inr hbefore

/-! ## Changes that keep them -/

/-- The engines go on looking at what they were going to look at. -/
theorem kept_of_attended
    (hqueue : ∀ d i, ∀ o ∈ (t.descs d).opQueue i, o ∈ (s.descs d).opQueue i ∨ (kind o).Suits i)
    (hflight : ∀ i d o, InFlight t (.dispatch i d o) →
      InFlight s (.dispatch i d o) ∨ (kind o).Suits i)
    (hattended : ∀ d i, Attended s d i → Attended t d i)
    (hfront : ∀ d i o, ((t.descs d).opQueue i).head? = some o → (t.descs d).fd = true →
      kind o ≠ .other → Attended t d i ∨
        ((s.descs d).opQueue i).head? = some o ∧ (s.descs d).fd = true) : Kept kind s t := by
  refine ⟨hqueue, hflight, ?_⟩
  intro d i o ho hfd hkind
  rcases hfront d i o ho hfd hkind with hnow | ⟨hold, hfd'⟩
  · exact Or.inl hnow
  · by_cases hs : Attended s d i
    · exact Or.inl (hattended d i hs)
    · exact Or.inr ⟨hold, hfd', hs⟩

theorem kept_same (hpostings : t.postings = s.postings) (hengines : t.engines = s.engines)
    (hdescs : ∀ d, (t.descs d).opQueue = (s.descs d).opQueue ∧ (t.descs d).fd = (s.descs d).fd) :
    Kept kind s t := by
  apply kept_of_attended
  · intro d i o ho
    exact Or.inl ((hdescs d).1 ▸ ho)
  · intro i d o ho
    apply Or.inl
    rcases ho with ⟨p, hp, hpa⟩ | ⟨n, hn⟩
    · exact Or.inl ⟨p, hpostings ▸ hp, hpa⟩
    · rw [tasks, hengines] at hn
      exact Or.inr ⟨n, hn⟩
  · intro d i hs
    rw [Attended, hengines]
    exact hs
  · intro d i o ho hfd _
    rw [(hdescs d).1] at ho
    rw [(hdescs d).2] at hfd
    exact Or.inr ⟨ho, hfd⟩

theorem kept_refl (s : State) : Kept kind s s := kept_same rfl rfl fun _ => ⟨rfl, rfl⟩

theorem kept_access : Kept kind s (s.access d) := kept_same rfl rfl fun _ => ⟨rfl, rfl⟩

theorem kept_setPlace {p : Place} : Kept kind s (s.setPlace o p) :=
  kept_same rfl rfl fun _ => ⟨rfl, rfl⟩

theorem kept_setDesc {v : Descriptor}
    (hqueue : ∀ i, ∀ o ∈ v.opQueue i, o ∈ (s.descs d).opQueue i ∨ (kind o).Suits i)
    (hfront : ∀ i o, (v.opQueue i).head? = some o → v.fd = true → kind o ≠ .other →
      Attended s d i ∨ ((s.descs d).opQueue i).head? = some o ∧ (s.descs d).fd = true) :
    Kept kind s (s.setDesc d v) := by
  have hself : (s.setDesc d v).descs d = v := Function.update_self ..
  have hother (e : DescriptorId) (he : e ≠ d) : (s.setDesc d v).descs e = s.descs e :=
    Function.update_of_ne he ..
  apply kept_of_attended
  · intro e i o ho
    by_cases he : e = d
    · subst he
      rw [hself] at ho
      exact hqueue i o ho
    · rw [hother e he] at ho
      exact Or.inl ho
  · intro i e o ho
    exact Or.inl ho
  · intro e i hs
    exact hs
  · intro e i o ho hfd hkind
    by_cases he : e = d
    · subst he
      rw [hself] at ho hfd
      exact hfront i o ho hfd hkind
    · rw [hother e he] at ho hfd
      exact Or.inr ⟨ho, hfd⟩

theorem attended_setEngine {v : Engine} {i : Direction}
    (h : ∀ x ∈ Frame.attends (s.engines m).frame, x ∈ Frame.attends v.frame)
    (hs : Attended s d i) : Attended (s.setEngine m v) d i := by
  obtain ⟨n, hn⟩ := hs
  refine ⟨n, ?_⟩
  by_cases hnm : n = m
  · subst hnm
    rw [engines_self]
    exact h _ hn
  · rw [engines_other hnm]
    exact hn

theorem kept_setEngine {v : Engine}
    (htasks : ∀ a ∈ v.opQueue ++ Frame.tasks v.frame, a ∈ tasks s m)
    (hattends : ∀ x ∈ Frame.attends (s.engines m).frame, x ∈ Frame.attends v.frame) :
    Kept kind s (s.setEngine m v) := by
  apply kept_of_attended
  · intro e i o ho
    exact Or.inl ho
  · intro i e o ho
    exact Or.inl (inFlight_setEngine htasks ho)
  · intro e i hs
    exact attended_setEngine hattends hs
  · intro e i o ho hfd _
    exact Or.inr ⟨ho, hfd⟩

theorem kept_setFrame {f : Frame} (htasks : Frame.tasks f = Frame.tasks (s.engines m).frame)
    (hattends : ∀ x ∈ Frame.attends (s.engines m).frame, x ∈ Frame.attends f) :
    Kept kind s (s.setFrame m f) := by
  apply kept_setEngine _ hattends
  intro a ha
  rw [tasks, ← htasks]
  exact ha

theorem kept_opAdd {a : Task} (ha : InFlight s a ∨ ∃ d, a = .unbind d) :
    Kept kind s (opAdd s m a) := by
  apply kept_of_attended
  · intro e i o ho
    exact Or.inl ho
  · intro i e o ho
    rcases ho with hp | ⟨n, hn⟩
    · exact Or.inl (Or.inl hp)
    · rcases mem_tasks_opAdd.mp hn with ⟨_, rfl⟩ | hs
      · rcases ha with hflight | ⟨d, heq⟩
        · exact Or.inl hflight
        · cases heq
      · exact Or.inl (Or.inr ⟨n, hs⟩)
  · rintro e i ⟨n, hn⟩
    refine ⟨n, ?_⟩
    rw [frame_opAdd]
    exact hn
  · intro e i o ho hfd _
    exact Or.inr ⟨ho, hfd⟩

theorem kept_posting {p : Posting}
    (hp : ∀ i d o, p.task = .dispatch i d o → (kind o).Suits i) :
    Kept kind s { s with postings := s.postings ++ [p] } := by
  refine kept_of_attended (fun e i o ho => Or.inl ho) ?_ (fun e i hs => hs)
    fun e i o ho hfd _ => Or.inr ⟨ho, hfd⟩
  intro i e o ho
  rcases ho with ⟨q, hq, hqa⟩ | hn
  · rcases List.mem_append.mp hq with hq | hq
    · exact Or.inl (Or.inl ⟨q, hq, hqa⟩)
    · rw [List.mem_singleton.mp hq] at hqa
      exact Or.inr (hp i e o hqa)
  · exact Or.inl (Or.inr hn)

theorem kept_eraseIdx (j : Nat) : Kept kind s { s with postings := s.postings.eraseIdx j } := by
  refine kept_of_attended (fun e i o ho => Or.inl ho) ?_ (fun e i hs => hs)
    fun e i o ho hfd _ => Or.inr ⟨ho, hfd⟩
  intro i e o ho
  apply Or.inl
  rcases ho with ⟨q, hq, hqa⟩ | hn
  · exact Or.inl ⟨q, List.mem_of_mem_eraseIdx hq, hqa⟩
  · exact Or.inr hn

/-- The queues of a new descriptor are empty. -/
theorem kept_made (hpostings : t.postings = s.postings)
    (htasks : ∀ n, tasks t n = tasks s n) (hframes : ∀ n, (t.engines n).frame = (s.engines n).frame)
    (hothers : ∀ e, e ≠ s.made → t.descs e = s.descs e)
    (hnew : (t.descs s.made).opQueue = fun _ => []) : Kept kind s t := by
  apply kept_of_attended
  · intro e i o ho
    by_cases he : e = s.made
    · rw [he, hnew] at ho
      cases ho
    · rw [hothers e he] at ho
      exact Or.inl ho
  · intro i e o ho
    apply Or.inl
    rcases ho with ⟨p, hp, hpa⟩ | ⟨n, hn⟩
    · exact Or.inl ⟨p, hpostings ▸ hp, hpa⟩
    · exact Or.inr ⟨n, htasks n ▸ hn⟩
  · rintro e i ⟨n, hn⟩
    exact ⟨n, by rw [hframes]; exact hn⟩
  · intro e i o ho hfd _
    by_cases he : e = s.made
    · rw [he, hnew] at ho
      cases ho
    · rw [hothers e he] at ho hfd
      exact Or.inr ⟨ho, hfd⟩

theorem kept_descriptorCreate {registered : Bool} :
    Kept kind s (descriptorCreate s m k registered) := by
  apply kept_made (s := s) (t := descriptorCreate s m k registered) rfl
  · exact created_tasks
  · exact created_frame
  · intro e he
    exact Function.update_of_ne he ..
  · exact created_queue

theorem kept_create (bound : Bool) : Kept kind s (s.create m k bound) := by
  cases bound with
  | false =>
    apply kept_made (s := s) (t := s.create m k false) rfl (fun _ => rfl) (fun _ => rfl)
    · intro e he
      exact Function.update_of_ne he ..
    · exact notBound_queue
  | true => exact kept_descriptorCreate

theorem kept_abort : Kept kind s (s.abort m d) := by
  apply kept_of_attended
  · intro e i o ho
    by_cases he : e = d
    · rw [he, abort_queue] at ho
      cases ho
    · rw [abort_descs_other he] at ho
      exact Or.inl ho
  · intro i e o ho
    apply Or.inl
    rcases ho with hp | ⟨n, hn⟩
    · exact Or.inl hp
    · rcases mem_tasks_abort hn with hold | ⟨b, _, heq⟩
      · exact Or.inr ⟨n, hold⟩
      · cases heq
  · rintro e i ⟨n, hn⟩
    refine ⟨n, ?_⟩
    rw [frame_abort]
    exact hn
  · intro e i o ho hfd _
    by_cases he : e = d
    · rw [he, abort_queue] at ho
      cases ho
    · rw [abort_descs_other he] at ho hfd
      exact Or.inr ⟨ho, hfd⟩

theorem kept_setCell (v : Cell) : Kept kind s (s.setDesc d { s.descs d with cell := v }) :=
  kept_setDesc (fun _ _ ho => Or.inl ho) fun _ _ ho hfd _ => Or.inr ⟨ho, hfd⟩

theorem kept_release : Kept kind s (descriptorRelease s m d) := by
  rw [descriptorRelease]
  split
  · exact kept_abort
  · exact kept_access.trans (kept_setCell _)

/-! ## The loop thread -/

section OpRun

variable {ops : List Task} {a : Task}

theorem kept_popped (hframe : (s.engines m).frame = .within (.drain (a :: ops))) {f : Frame}
    (htasks : Frame.tasks f = ops) : Kept kind s (s.setEngine m (popped s m f)) := by
  apply kept_setEngine
  · intro b hb
    rw [tasks_of_drain hframe]
    replace hb : b ∈ (s.engines m).opQueue ++ Frame.tasks f := hb
    rw [htasks] at hb
    rcases List.mem_append.mp hb with hb | hb
    · exact List.mem_append_left _ hb
    · exact List.mem_append_right _ (List.mem_cons_of_mem a hb)
  · rw [hframe]
    exact fun x hx => absurd hx List.not_mem_nil

theorem kept_invoke : Kept kind s (s.invoke o) := kept_same rfl rfl fun _ => ⟨rfl, rfl⟩

theorem head?_updated_queue {i j : Direction} {l : List OperationId}
    {f : Direction → List OperationId} (h : (Function.update f i l j).head? = some o) :
    j = i ∧ l.head? = some o ∨ (f j).head? = some o := by
  by_cases hj : j = i
  · subst hj
    rw [Function.update_self] at h
    exact Or.inl ⟨rfl, h⟩
  · rw [Function.update_of_ne hj] at h
    exact Or.inr h

theorem kept_opRun (h : Suited kind s)
    (hframe : (s.engines m).frame = .within (.drain (a :: ops))) :
    Kept kind s (opRun s m a ops) := by
  have hflight : InFlight s a := Or.inr ⟨m, mem_tasks_of_drain hframe⟩
  cases a with
  | op o => exact (kept_popped hframe (f := .within (.drain ops)) rfl).trans kept_invoke
  | dispatch i d o =>
    rw [opRun_dispatch_eq]
    generalize hp : s.setEngine m (popped s m (.dispatching d [i] (.drain ops))) = p
    have hpopped : Kept kind s p := by
      rw [← hp]
      exact kept_popped hframe (f := .dispatching d [i] (.drain ops)) rfl
    have hattended : Attended (p.access d) d i := by
      refine ⟨m, ?_⟩
      rw [← hp]
      show (d, i) ∈ Frame.attends ((s.setEngine m _).engines m).frame
      rw [engines_self]
      exact List.mem_cons_self
    have hdescs : (p.access d).descs d = s.descs d := by rw [← hp]; rfl
    apply hpopped.trans (kept_access.trans (Kept.trans (kept_setDesc _ _) kept_setPlace))
    · intro j b hb
      rw [hdescs]
      rcases mem_updated_queue hb with ⟨rfl, hb⟩ | hb
      · rcases List.mem_append.mp hb with hb | hb
        · exact Or.inl hb
        · rw [List.mem_singleton.mp hb]
          exact Or.inr (h.flight _ d o hflight)
      · exact Or.inl hb
    · intro j b hb hfd _
      rcases head?_updated_queue hb with ⟨rfl, _⟩ | hold
      · exact Or.inl hattended
      · rw [hdescs]
        exact Or.inr ⟨hold, hfd⟩
  | unbind d =>
    apply Kept.trans _ kept_release
    apply (kept_popped hframe (f := .within (.drain ops)) rfl).trans
    apply kept_access.trans
    apply kept_setDesc
    · intro i o ho
      exact Or.inl ho
    · exact fun i o _ hfd => nomatch hfd

end OpRun

theorem attended_of_dispatching {i : Direction} {dirs : List Direction} {p : Position}
    (hframe : (s.engines m).frame = .dispatching d dirs p) (hi : i ∈ dirs) : Attended s d i := by
  refine ⟨m, ?_⟩
  rw [hframe]
  exact List.mem_append_left _ (List.mem_map_of_mem hi)

/-- The queue whose front is finished is being looked at. -/
theorem kept_finish {i : Direction} {ec : ErrorCode} (hattended : Attended s d i) :
    Kept kind s (s.finish d i o ec) := by
  have hqueue : Kept kind s (s.setDesc d { s.descs d with
      opQueue := Function.update (s.descs d).opQueue i ((s.descs d).opQueue i).tail }) := by
    apply kept_setDesc
    · intro j b hb
      rcases mem_updated_queue hb with ⟨rfl, hb⟩ | hb
      · exact Or.inl (List.mem_of_mem_tail hb)
      · exact Or.inl hb
    · intro j b hb hfd _
      rcases head?_updated_queue hb with ⟨rfl, _⟩ | hold
      · exact Or.inl hattended
      · exact Or.inr ⟨hold, hfd⟩
  exact hqueue.trans (kept_same rfl rfl fun _ => ⟨rfl, rfl⟩)

theorem kept_finished {i : Direction} {dirs : List Direction} {p : Position}
    (hframe : (s.engines m).frame = .dispatching d (i :: dirs) p) {r : PostResult}
    (hr : r ≠ .again) : Kept kind s (dispatchTurn s m d i dirs p o r) := by
  have hattended : Attended s d i := attended_of_dispatching hframe List.mem_cons_self
  apply kept_access.trans
  cases r with
  | again => exact absurd rfl hr
  | done ec => exact kept_finish (s := s.access d) hattended
  | accepted k registered =>
    have hcreated : Kept kind (s.access d) (descriptorCreate (s.access d) m k registered) :=
      kept_descriptorCreate
    apply hcreated.trans
    apply kept_finish
    obtain ⟨n, hn⟩ := hattended
    refine ⟨n, ?_⟩
    rw [created_frame]
    exact hn

/-- The loop thread goes on with the next direction. -/
theorem attended_next {i j : Direction} {dirs : List Direction} {p : Position}
    (hframe : (s.engines m).frame = .dispatching d (i :: dirs) p) (hs : Attended s e j) :
    (e = d ∧ j = i) ∨ Attended ((s.access d).setFrame m (.dispatching d dirs p)) e j := by
  obtain ⟨n, hn⟩ := hs
  by_cases hnm : n = m
  · subst hnm
    rw [hframe] at hn
    have hnext : (e, j) = (d, i) ∨ (e, j) ∈ Frame.attends (.dispatching d dirs p) := by
      rcases List.mem_append.mp hn with hn | hn
      · rcases List.mem_cons.mp hn with heq | hn
        · exact Or.inl heq
        · exact Or.inr (List.mem_append_left _ hn)
      · exact Or.inr (List.mem_append_right _ hn)
    rcases hnext with heq | hnext
    · exact Or.inl (Prod.mk.inj heq)
    · refine Or.inr ⟨n, ?_⟩
      rw [State.setFrame, engines_self]
      exact hnext
  · refine Or.inr ⟨n, ?_⟩
    rw [State.setFrame, engines_other hnm]
    exact hn

/-- An operation that has to wait has seen that there is nothing for it. -/
theorem awake_again (h : Awake kind (s, κ)) (hs : Suited kind s) {i : Direction}
    {dirs : List Direction} {p : Position}
    (hframe : (s.engines m).frame = .dispatching d (i :: dirs) p)
    (ho : ((s.descs d).opQueue i).head? = some o)
    (hagain : kind o = .other ∨ (postProc κ (kind o) (s.descs d).fd d o).1 = .again)
    (hends : (s.descs d).fd = true → ShortAtEnd kind κ d o → κ.edges d .read = true) :
    Awake kind ((s.access d).setFrame m (.dispatching d dirs p),
      (postProc κ (kind o) (s.descs d).fd d o).2) := by
  have hconsumes := postProc_consumes (κ := κ) (d := d) (o := o) (kind o) (s.descs d).fd
  intro e j b hb hfd hready
  rcases h e j b hb hfd (hconsumes.ready hready) with hedge | hattended
  · exact Or.inl (hconsumes.edges ▸ hedge)
  · rcases attended_next hframe hattended with ⟨rfl, rfl⟩ | hnext
    · obtain rfl : b = o := Option.some.inj (hb.symm.trans ho)
      rcases hagain with hother | hagain
      · exact absurd hother (not_other_of_ready hready)
      · have hshort := ready_of_again hagain hready
        have hread := hs.queue e j b (List.mem_of_mem_head? ho)
        rw [hshort.1] at hread
        obtain rfl : j = .read := hread
        left
        show (postProc κ (kind b) (s.descs e).fd e b).2.edges e .read = true
        rw [hconsumes.edges]
        exact hends hfd hshort
    · exact Or.inr hnext

theorem kept_advance {dirs : List Direction} {p : Position}
    (hframe : (s.engines m).frame = .dispatching d dirs p) (hfront : s.front m = none) :
    Kept kind s (advance s m d dirs p) := by
  cases dirs with
  | cons i dirs =>
    rw [State.front, hframe] at hfront
    replace hfront : ((s.descs d).opQueue i).head? = none := hfront
    refine ⟨fun e j o ho => Or.inl ho, ?_, ?_⟩
    · intro j e o ho
      apply Or.inl
      apply inFlight_setEngine (s := s.access d) _ ho
      intro a ha
      show a ∈ (s.engines m).opQueue ++ Frame.tasks (s.engines m).frame
      rw [hframe]
      exact ha
    · intro e j o ho hfd _
      by_cases hs : Attended s e j
      · rcases attended_next hframe hs with ⟨rfl, rfl⟩ | hnext
        · rw [show ((s.descs e).opQueue j).head? = some o from ho] at hfront
          cases hfront
        · exact Or.inl hnext
      · exact Or.inr ⟨ho, hfd, hs⟩
  | nil =>
    cases p with
    | events evs x =>
      apply kept_setFrame
      · rw [hframe]
        rfl
      · rw [hframe]
        exact fun x hx => hx
    | drain ops =>
      show Kept kind s ((descriptorRelease s m d).setFrame m (.within (.drain ops)))
      rw [release_setFrame]
      apply Kept.trans _ kept_release
      apply kept_setFrame
      · rw [hframe]
        rfl
      · rw [hframe]
        exact fun x hx => hx

theorem kept_event {e : Event} {evs : List Event} {x : Bool}
    (hframe : (s.engines m).frame = .within (.events (e :: evs) x)) :
    Kept kind s ((s.access e.desc).setFrame m
      (.dispatching e.desc (directions e.flags) (.events evs x))) := by
  apply kept_access.trans
  apply kept_setFrame
  · show _ = Frame.tasks (s.engines m).frame
    rw [hframe]
    rfl
  · intro y hy
    replace hy : y ∈ Frame.attends (s.engines m).frame := hy
    rw [hframe] at hy
    rcases List.mem_append.mp hy with hy | hy
    · obtain ⟨i, hi, rfl⟩ := List.mem_map.mp hy
      apply List.mem_append_left
      apply List.mem_map_of_mem
      rw [directions, List.mem_filter]
      refine ⟨?_, decide_eq_true hi⟩
      cases i <;> simp
    · exact List.mem_append_right _ hy

/-! ## Calls -/

theorem kept_execute (thread : Option EngineId) : Kept kind s (s.execute thread m o) :=
  kept_setPlace.trans (kept_posting nofun)

theorem kept_startOn (thread : Option EngineId) {i : Direction} (hi : (kind o).Suits i) :
    Kept kind s (s.startOn thread m i d o) := by
  have hadded : Kept kind s (descriptorAddRef s d) := kept_access.trans (kept_setCell _)
  apply hadded.trans
  apply kept_setPlace.trans
  apply kept_posting
  intro j e b heq
  cases heq
  exact hi

theorem suits_other (h : kind o = .other) (i : Direction) : (kind o).Suits i := by
  rw [h]
  trivial

theorem kept_call {c : Call} (thread : Option EngineId) {κ : Kernel}
    (ha : (kernel kind).Allows (s, κ) (.call thread c)) : Kept kind s (c.effect thread s) := by
  have hfails {t : State} (ht : Kept kind s t) (o : OperationId) (ec : ErrorCode) (m : EngineId) :
      Kept kind s ((t.setError o ec).execute thread m o) := by
    have herror : Kept kind t (t.setError o ec) := kept_same rfl rfl fun _ => ⟨rfl, rfl⟩
    exact ht.trans (herror.trans (kept_execute thread))
  cases c with
  | socket k m => exact kept_same rfl rfl fun _ => ⟨rfl, rfl⟩
  | execute m o => exact kept_execute thread
  | connect k o r =>
    cases r with
    | failed ec => exact hfails (kept_refl s) o ec _
    | notBound ec => exact hfails (kept_create false) o ec _
    | started =>
      have hcreated : Kept kind s (s.create (s.sockets k).engine k true) := kept_create true
      apply hcreated.trans
      apply Kept.trans (kept_setDesc (d := s.made) _ _) kept_setPlace
      · intro i b hb
        rcases mem_updated_queue hb with ⟨_, hb⟩ | hb
        · rw [List.mem_singleton.mp hb]
          exact Or.inr (suits_other ha i)
        · exact Or.inl hb
      · intro i b hb hfd hkind
        rcases head?_updated_queue hb with ⟨_, hnew⟩ | hold
        · obtain rfl := Option.some.inj hnew
          exact absurd ha hkind
        · exact Or.inr ⟨hold, hfd⟩
  | openSocket k bound => exact kept_create bound
  | start k i o =>
    simp only [Call.effect]
    split
    · exact kept_refl s
    · exact kept_startOn thread ha
  | accept k o accepted =>
    simp only [Call.effect]
    split
    · exact kept_refl s
    · have haccepts : Kept kind s
          { s with accepts := Function.update s.accepts o (some accepted) } :=
        kept_same rfl rfl fun _ => ⟨rfl, rfl⟩
      have hsuits : (kind o).Suits .read := by
        rw [show kind o = .accept from ha]
        rfl
      exact haccepts.trans (kept_startOn thread hsuits)
  | udpWriteNull k o r =>
    cases r with
    | noFile ec => exact hfails (kept_refl s) o ec _
    | notBound ec => exact hfails (kept_create false) o ec _
    | opened => exact (kept_create true).trans (kept_startOn thread (suits_other ha .write))
  | udpReadNull k o => exact hfails (kept_refl s) o .invalid _
  | unbind k =>
    simp only [Call.effect]
    split
    · exact kept_refl s
    · next d _ =>
      have hsocket : Kept kind s (s.setSocket k { s.sockets k with desc := none }) :=
        kept_same rfl rfl fun _ => ⟨rfl, rfl⟩
      exact hsocket.trans (kept_opAdd (Or.inr ⟨d, rfl⟩))

/-! ## Steps -/

theorem again_of_gives {a : Answer} (h : a.Gives .again) : a = .again := by
  cases a with
  | again => rfl
  | done ec => cases h
  | accepted => exact h.elim

theorem attempt_eq {i : Direction} {dirs : List Direction} {p : Position}
    (hframe : (s.engines m).frame = .dispatching d (i :: dirs) p)
    (ho : ((s.descs d).opQueue i).head? = some o) : attempt s m = some (d, o) := by
  rw [attempt, hframe]
  show ((s.descs d).opQueue i).head?.map (d, ·) = _
  rw [ho]
  rfl

theorem attends_of_atEnd {f : Frame} (h : f.atEnd = true) : Frame.attends f = [] := by
  cases f with
  | within p =>
    cases p with
    | events evs x =>
      cases evs with
      | nil => rfl
      | cons e evs => cases h
    | drain ops => rfl
  | _ => cases h

/-- Steps other than a turn of the dispatch loop and the call of `epoll_wait`. -/
theorem kept_step (hs : Suited kind s) {x : Step} (hx : Enabled s x)
    (ha : (kernel kind).Allows (s, κ) x) (hwait : ∀ m evs b, x ≠ .epollWait m evs b)
    (hturn : ∀ m r, x ≠ .postProc m r) : Kept kind s (next s x) := by
  cases x with
  | call thread c => exact kept_call thread ha
  | post j =>
    simp only [next]
    split
    · exact kept_refl s
    · next p hp =>
      have hflight : InFlight s p.task := Or.inl ⟨p, List.mem_of_getElem? hp, rfl⟩
      have hposted : Kept kind s (opAdd { s with postings := s.postings.eraseIdx j } p.engine
          p.task) :=
        Kept.trans (kept_opAdd (m := p.engine) (Or.inl hflight)) (kept_eraseIdx j)
      split
      · exact hposted.trans kept_setPlace
      · exact hposted.trans kept_setPlace
      · exact hposted
  | timers m n => exact kept_setEngine (fun a ha => ha) fun y hy => hy
  | run m =>
    have hframe : (s.engines m).frame = .stopped := hx
    apply kept_setFrame
    · rw [hframe]
      rfl
    · rw [hframe]
      exact fun y hy => absurd hy List.not_mem_nil
  | check m =>
    have hframe : (s.engines m).frame = .loop := hx.2
    simp only [next]
    split
    all_goals
      apply kept_setFrame
      · rw [hframe]
        rfl
      · rw [hframe]
        exact fun y hy => absurd hy List.not_mem_nil
  | epollWait m evs b => exact absurd rfl (hwait m evs b)
  | event m =>
    simp only [next]
    split
    · next e evs x hframe => exact kept_event hframe
    · exact kept_refl s
  | leave m =>
    have hnone : Frame.attends (s.engines m).frame = [] := attends_of_atEnd hx.2
    simp only [next]
    split
    · next hframe =>
      apply kept_setEngine
      · intro a ha
        rw [tasks, hframe]
        exact List.mem_append_left _ ha
      · rw [hnone]
        exact fun y hy => absurd hy List.not_mem_nil
    · apply kept_setFrame
      · rw [tasks_of_atEnd hx.2]
        rfl
      · rw [hnone]
        exact fun y hy => absurd hy List.not_mem_nil
  | opRun m =>
    simp only [next]
    split
    · next a ops hframe => exact kept_opRun hs hframe
    · exact kept_refl s
  | postProc m r => exact absurd rfl (hturn m r)
  | advance m =>
    simp only [next]
    split
    · next d dirs p hframe => exact kept_advance hframe hx.2.2
    · exact kept_refl s

/-- The edges that `epoll_wait` reports are worked off by the loop thread. -/
theorem awake_epollWait (h : Awake kind (s, κ)) {evs : List Event} {x : Bool}
    (hframe : (s.engines m).frame = .wait) :
    Awake kind (s.setFrame m (.within (.events evs x)), κ.report evs) := by
  intro d i o ho hfd hready
  rcases h d i o ho hfd hready with hedge | ⟨n, hn⟩
  · by_cases hreported : ∃ e ∈ evs, e.desc = d ∧ i ∈ e.flags
    · obtain ⟨e, he, rfl, hi⟩ := hreported
      right
      refine ⟨m, ?_⟩
      rw [State.setFrame, engines_self]
      exact List.mem_flatMap.mpr ⟨e, he, List.mem_map_of_mem hi⟩
    · left
      show (κ.edges d i && !evs.any fun e => e.desc = d && decide (i ∈ e.flags)) = true
      have hnone : (evs.any fun e => e.desc = d && decide (i ∈ e.flags)) = false := by
        rw [List.any_eq_false]
        intro e he hboth
        simp only [Bool.and_eq_true, decide_eq_true_eq] at hboth
        exact hreported ⟨e, he, hboth⟩
      rw [show κ.edges d i = true from hedge, hnone]
      rfl
  · have hnm : n ≠ m := by
      rintro rfl
      rw [hframe] at hn
      cases hn
    right
    refine ⟨n, ?_⟩
    rw [State.setFrame, engines_other hnm]
    exact hn

theorem edge_self {i : Direction} : (κ.edge d i).edges d i = true := by
  show Function.update κ.edges d (Function.update (κ.edges d) i true) d i = true
  rw [Function.update_self, Function.update_self]

theorem edge_kept {i j : Direction} (h : κ.edges e j = true) : (κ.edge d i).edges e j = true := by
  show Function.update κ.edges d (Function.update (κ.edges d) i true) e j = true
  by_cases he : e = d
  · subst he
    rw [Function.update_self]
    by_cases hj : j = i
    · subst hj
      rw [Function.update_self]
    · rw [Function.update_of_ne hj]
      exact h
  · rw [Function.update_of_ne he]
    exact h

theorem arrive_edges (a : Arrival) {i : Direction} (h : κ.edges d i = true) :
    (κ.arrive a).edges d i = true := by
  cases a with
  | data e n => exact edge_kept h
  | finished e => exact edge_kept h
  | connection e => exact edge_kept h
  | space e n =>
    rw [Kernel.arrive]
    split
    · exact edge_kept h
    · exact h

/-- A queue that is not the one of the edge has what it had. -/
theorem ready_update {f : DescriptorId → Nat} {n : Nat} (h : 0 < Function.update f e n d) :
    d = e ∨ 0 < f d := by
  by_cases hd : d = e
  · exact Or.inl hd
  · rw [Function.update_of_ne hd] at h
    exact Or.inr h

theorem arrive_space {n : Nat} : (κ.arrive (.space e n)).available = κ.available ∧
    (κ.arrive (.space e n)).finished = κ.finished ∧
    (κ.arrive (.space e n)).connections = κ.connections := by
  rw [Kernel.arrive]
  split <;> exact ⟨rfl, rfl, rfl⟩

/-- What arrives makes an operation ready only together with an edge. -/
theorem arrive_ready (a : Arrival) (h : Ready kind (κ.arrive a) d o) :
    Ready kind κ d o ∨ ∀ i, (kind o).Suits i → (κ.arrive a).edges d i = true := by
  cases hk : kind o with
  | other => exact absurd hk (not_other_of_ready h)
  | read fixedLen =>
    rw [Ready, hk] at h ⊢
    cases a with
    | data e n =>
      rcases h with hdata | hend
      · rcases ready_update hdata with rfl | hdata
        · right
          rintro i rfl
          exact edge_self
        · exact Or.inl (Or.inl hdata)
      · exact Or.inl (Or.inr hend)
    | finished e =>
      rcases h with hdata | hend
      · exact Or.inl (Or.inl hdata)
      · by_cases hd : d = e
        · subst hd
          right
          rintro i rfl
          exact edge_self
        · replace hend : Function.update κ.finished e true d = true := hend
          rw [Function.update_of_ne hd] at hend
          exact Or.inl (Or.inr hend)
    | space e n =>
      obtain ⟨havailable, hfinished, _⟩ := arrive_space (κ := κ) (e := e) (n := n)
      simp only [havailable, hfinished] at h
      exact Or.inl h
    | connection e => exact Or.inl h
  | write =>
    rw [Ready, hk] at h ⊢
    cases a with
    | data e n => exact Or.inl h
    | finished e => exact Or.inl h
    | connection e => exact Or.inl h
    | space e n =>
      rw [Kernel.arrive] at h ⊢
      by_cases hfull : κ.space e = 0
      · rw [if_pos hfull] at h ⊢
        rcases ready_update h with rfl | hspace
        · right
          rintro i rfl
          exact edge_self
        · exact Or.inl hspace
      · rw [if_neg hfull] at h ⊢
        rcases ready_update h with rfl | hspace
        · exact Or.inl (Nat.pos_of_ne_zero hfull)
        · exact Or.inl hspace
  | accept =>
    rw [Ready, hk] at h ⊢
    cases a with
    | data e n => exact Or.inl h
    | finished e => exact Or.inl h
    | space e n =>
      simp only [arrive_space.2.2] at h
      exact Or.inl h
    | connection e =>
      rcases ready_update h with rfl | hsome
      · right
        rintro i rfl
        exact edge_self
      · exact Or.inl hsome

theorem awake_arrive (h : Awake kind (s, κ)) (hs : Suited kind s) (a : Arrival) :
    Awake kind (s, κ.arrive a) := by
  intro d i o ho hfd hready
  rcases arrive_ready a hready with hbefore | hedge
  · rcases h d i o ho hfd hbefore with hqueued | hattended
    · exact Or.inl (arrive_edges a hqueued)
    · exact Or.inr hattended
  · exact Or.inl (hedge i (hs.queue d i o (List.mem_of_mem_head? ho)))

/-! ## Runs -/

/-- What every reachable state of a run meets. -/
structure Watchful (kind : OperationId → Kind) (p : State × Kernel) : Prop where
  suited : Suited kind p.1
  awake : Awake kind p

theorem watchful_initial (κ : Kernel) : Watchful kind (initial, κ) where
  suited :=
    { queue := fun _ _ _ ho => absurd ho List.not_mem_nil
      flight := by
        rintro i d o (⟨p, hp, _⟩ | ⟨n, hn⟩)
        · cases hp
        · cases hn }
  awake := nofun

theorem suited_setFrame (h : Suited kind s) {f : Frame}
    (htasks : Frame.tasks f = Frame.tasks (s.engines m).frame) : Suited kind (s.setFrame m f) := by
  refine ⟨h.queue, ?_⟩
  intro i d o ho
  apply h.flight i d o
  apply inFlight_setEngine _ ho
  intro a ha
  rw [tasks, ← htasks]
  exact ha

theorem exists_of_front (ho : o ∈ s.front m) : ∃ d i dirs p,
    (s.engines m).frame = .dispatching d (i :: dirs) p ∧
      ((s.descs d).opQueue i).head? = some o := by
  unfold State.front at ho
  split at ho
  · next d i dirs p hframe => exact ⟨d, i, dirs, p, hframe, ho⟩
  · cases ho

/-- A turn of the dispatch loop for the operation at the front. -/
theorem watchful_postProc (h : Watchful kind (s, κ)) {r : PostResult}
    (hx : Enabled s (.postProc m r)) (ha : (kernel kind).Allows (s, κ) (.postProc m r))
    (hc : EndsWithEdge kind (s, κ) (.inl (.postProc m r))) :
    Watchful kind (next s (.postProc m r), (kernel kind).reacts (s, κ) (.postProc m r)) := by
  obtain ⟨_, o, ho, _⟩ := hx
  obtain ⟨d, i, dirs, p, hframe, hfront⟩ := exists_of_front ho
  have hattempt : attempt s m = some (d, o) := attempt_eq hframe hfront
  have hreacts : (kernel kind).reacts (s, κ) (.postProc m r) =
      (postProc κ (kind o) (s.descs d).fd d o).2 := by
    simp only [kernel, hattempt]
  have hnext : next s (.postProc m r) = dispatchTurn s m d i dirs p o r := by
    have hsome : s.front m = some o := ho
    simp only [next, hframe, hsome]
  rw [hreacts, hnext]
  by_cases hr : r = .again
  · subst hr
    constructor
    · apply suited_setFrame (s := s.access d)
      · exact ⟨h.suited.queue, h.suited.flight⟩
      · show Frame.tasks (.dispatching d dirs p) = Frame.tasks (s.engines m).frame
        rw [hframe]
        rfl
    · apply awake_again h.awake h.suited hframe hfront
      · rcases ha (d, o) hattempt with hother | hgives
        · exact Or.inl hother
        · exact Or.inr (again_of_gives hgives)
      · exact hc (d, o) hattempt
  · have hkept : Kept kind s (dispatchTurn s m d i dirs p o r) := kept_finished hframe hr
    exact ⟨hkept.suited h.suited, hkept.awake h.awake (postProc_consumes (kind o) _)⟩

theorem watchful_step (h : Watchful kind (s, κ)) {x : Step} (hx : Enabled s x)
    (ha : (kernel kind).Allows (s, κ) x) (hc : EndsWithEdge kind (s, κ) (.inl x)) :
    Watchful kind (next s x, (kernel kind).reacts (s, κ) x) := by
  have hkeeps (hwait : ∀ m evs b, x ≠ .epollWait m evs b) (hturn : ∀ m r, x ≠ .postProc m r)
      (hreacts : (kernel kind).reacts (s, κ) x = κ) :
      Watchful kind (next s x, (kernel kind).reacts (s, κ) x) := by
    have hkept : Kept kind s (next s x) := kept_step h.suited hx ha hwait hturn
    rw [hreacts]
    exact ⟨hkept.suited h.suited, hkept.awake h.awake (Consumes.refl κ)⟩
  cases x with
  | postProc m r => exact watchful_postProc h hx ha hc
  | epollWait m evs b =>
    have hframe : (s.engines m).frame = .wait := hx.2.1
    constructor
    · apply suited_setFrame h.suited
      rw [hframe]
      rfl
    · exact awake_epollWait h.awake hframe
  | call thread c => exact hkeeps nofun nofun rfl
  | post j => exact hkeeps nofun nofun rfl
  | timers m n => exact hkeeps nofun nofun rfl
  | run m => exact hkeeps nofun nofun rfl
  | check m => exact hkeeps nofun nofun rfl
  | event m => exact hkeeps nofun nofun rfl
  | leave m => exact hkeeps nofun nofun rfl
  | opRun m => exact hkeeps nofun nofun rfl
  | advance m => exact hkeeps nofun nofun rfl

theorem watchful_execution {p : State × Kernel}
    (h : (machine.inside (kernel kind)).Execution (EndsWithEdge kind) (initial, κ) p) :
    Watchful kind p := by
  apply h.invariant (watchful_initial κ)
  rintro ⟨s, κ⟩ x _ hwatchful hx hc
  cases x with
  | inl x => exact watchful_step hwatchful hx.1 hx.2 hc
  | inr a => exact ⟨hwatchful.suited, awake_arrive hwatchful.awake hwatchful.suited a⟩

/-- In runs where the end of a stream is not taken for more data, no operation waits for what is
already there, except while an edge of its queue is still to be worked off. -/
theorem no_lost_wakeup {p : State × Kernel}
    (h : (machine.inside (kernel kind)).Execution (EndsWithEdge kind) (initial, κ) p) :
    Awake kind p := (watchful_execution h).awake

theorem postReadImplFixedLen_short (hshort : ShortAtEnd kind κ d o) :
    (postReadImplFixedLen κ true d o).1 = .again := by
  obtain ⟨_, hdata, hless, _⟩ := hshort
  have hleft : 0 < κ.left o := by omega
  unfold postReadImplFixedLen
  rw [readv_data hdata, if_pos hleft]
  simp only [ne_eq, not_true_eq_false, if_false, Kernel.skip]
  rw [if_neg]
  omega

/-- The condition is exact: without an edge such a read waits for the end that is there. -/
theorem sleeps_of_short {dirs : List Direction} {p : Position}
    (ho : ((s.descs d).opQueue .read).head? = some o) (hfd : (s.descs d).fd = true)
    (hshort : ShortAtEnd kind κ d o) (hedge : κ.edges d .read = false)
    (hattended : ¬ Attended ((s.access d).setFrame m (.dispatching d dirs p)) d .read) :
    let answer := postProc κ (kind o) (s.descs d).fd d o
    answer.1 = .again ∧
      ¬ Awake kind ((s.access d).setFrame m (.dispatching d dirs p), answer.2) := by
  have hconsumes := postProc_consumes (κ := κ) (d := d) (o := o) (kind o) (s.descs d).fd
  constructor
  · rw [hshort.1, hfd]
    exact postReadImplFixedLen_short hshort
  · intro hawake
    have hready : Ready kind (postProc κ (kind o) (s.descs d).fd d o).2 d o := by
      rw [Ready, hshort.1]
      rw [hshort.1] at hconsumes
      exact Or.inr (hconsumes.finished ▸ hshort.2.2.2)
    rcases hawake d .read o ho hfd hready with hqueued | hnow
    · replace hqueued : (postProc κ (kind o) (s.descs d).fd d o).2.edges d .read = true := hqueued
      rw [hconsumes.edges, hedge] at hqueued
      cases hqueued
    · exact hattended hnow

instance : ∀ (k : Kind) (i : Direction), Decidable (k.Suits i)
  | .read _, i | .accept, i => inferInstanceAs (Decidable (i = .read))
  | .write, i => inferInstanceAs (Decidable (i = .write))
  | .other, _ => isTrue trivial

instance : ∀ (a : Answer) (r : PostResult), Decidable (a.Gives r)
  | .again, r => inferInstanceAs (Decidable (r = .again))
  | .done ec, r => inferInstanceAs (Decidable (r = .done ec))
  | .accepted, .accepted _ _ => isTrue trivial
  | .accepted, .again | .accepted, .done _ => isFalse id

instance (p : State × Kernel) : ∀ x : Step, Decidable ((kernel kind).Allows p x)
  | .call _ (.start _ i o) => inferInstanceAs (Decidable ((kind o).Suits i))
  | .call _ (.accept _ o _) => inferInstanceAs (Decidable (kind o = .accept))
  | .call _ (.udpWriteNull _ o _) | .call _ (.connect _ o _) =>
    inferInstanceAs (Decidable (kind o = .other))
  | .call _ (.socket _ _) | .call _ (.execute _ _) | .call _ (.openSocket _ _)
  | .call _ (.udpReadNull _ _) | .call _ (.unbind _) => isTrue trivial
  | .postProc m r => inferInstanceAs (Decidable (∀ x ∈ attempt p.1 m, kind x.2 = .other ∨
      (postProc p.2 (kind x.2) (p.1.descs x.1).fd x.1 x.2).1.Gives r))
  | .post _ | .timers _ _ | .run _ | .check _ | .epollWait _ _ _ | .event _ | .leave _
  | .opRun _ | .advance _ => isTrue trivial

instance (p : State × Kernel) : ∀ a : Arrival, Decidable ((kernel kind).Enabled p a)
  | .data d n => inferInstanceAs (Decidable (0 < n ∧ p.2.finished d = false))
  | .finished d => inferInstanceAs (Decidable (p.2.finished d = false))
  | .space _ n => inferInstanceAs (Decidable (0 < n))
  | .connection _ => isTrue trivial

instance (p : State × Kernel) :
    ∀ e : Step ⊕ Arrival, Decidable ((machine.inside (kernel kind)).Enabled p e)
  | .inl x => inferInstanceAs (Decidable (machine.Enabled p.1 x ∧ (kernel kind).Allows p x))
  | .inr a => inferInstanceAs (Decidable ((kernel kind).Enabled p a))

instance (d : DescriptorId) : Decidable (ShortAtEnd kind κ d o) :=
  inferInstanceAs (Decidable (kind o = .read true ∧ 0 < κ.available d ∧
    κ.available d < κ.left o ∧ κ.finished d = true))

instance (p : State × Kernel) : ∀ e : Step ⊕ Arrival, Decidable (EndsWithEdge kind p e)
  | .inl (.postProc m _) => inferInstanceAs (Decidable (∀ x ∈ attempt p.1 m,
      (p.1.descs x.1).fd = true → ShortAtEnd kind p.2 x.1 x.2 → p.2.edges x.1 .read = true))
  | .inl (.call _ _) | .inl (.post _) | .inl (.timers _ _) | .inl (.run _) | .inl (.check _)
  | .inl (.epollWait _ _ _) | .inl (.event _) | .inl (.leave _) | .inl (.opRun _)
  | .inl (.advance _) | .inr _ => isTrue trivial

/-- An accept and a fixed-length read. -/
def acceptedRead (o : OperationId) : Kind := if o = 0 then .accept else .read true

def quiet : Kernel where
  available _ := 0
  finished _ := false
  space _ := 0
  connections _ := 0
  edges _ _ := false
  left _ := 5

/-- A connection is accepted and a fixed-length read of five bytes is submitted. Three bytes
arrive and are reported, which takes the edge, and then the read runs. -/
def shortReadTrace (before after : List (Step ⊕ Arrival)) : List (Step ⊕ Arrival) :=
  [.inl (.call none (.socket 0 0)), .inl (.call none (.openSocket 0 true)),
    .inl (.call none (.accept 0 0 1)), .inl (.post 0), .inl (.run 0), .inl (.check 0),
    .inl (.epollWait 0 [] true), .inl (.leave 0), .inl (.opRun 0), .inr (.connection 0),
    .inl (.postProc 0 (.accepted 1 true)), .inl (.call none (.start 1 .read 1)),
    .inl (.post 0), .inr (.data 1 3)] ++ before ++
  [.inl (.advance 0), .inl (.advance 0), .inl (.leave 0), .inl (.check 0),
    .inl (.epollWait 0 [⟨1, [.read]⟩] true), .inl (.event 0), .inl (.advance 0),
    .inl (.advance 0), .inl (.leave 0), .inl (.opRun 0), .inl (.postProc 0 .again)] ++ after

/-- The end of the stream comes after the short read, together with an edge. -/
theorem no_lost_wakeup_short :
    let p := (machine.inside (kernel acceptedRead)).runTrace (initial, quiet)
      (shortReadTrace [] [.inr (.finished 1)])
    ((p.1.descs 1).opQueue .read).head? = some 1 ∧ Ready acceptedRead p.2 1 1 ∧
      Awake acceptedRead p :=
  ⟨by decide, Or.inr (by decide), no_lost_wakeup (System.ValidTrace.execution
    (show (machine.inside (kernel acceptedRead)).ValidTrace (EndsWithEdge acceptedRead)
      (initial, quiet) (shortReadTrace [] [.inr (.finished 1)]) by decide))⟩

/-- The end of the stream comes before the short read, which then waits for it without an edge. -/
theorem endOfStream_lost :
    let p := (machine.inside (kernel acceptedRead)).runTrace (initial, quiet)
      (shortReadTrace [.inr (.finished 1)] [])
    (machine.inside (kernel acceptedRead)).Reachable (initial, quiet) p ∧
      ((p.1.descs 1).opQueue .read).head? = some 1 ∧ (p.1.descs 1).fd = true ∧
      p.2.finished 1 = true ∧ p.2.edges 1 .read = false ∧ ¬ Attended p.1 1 .read ∧
      ¬ Awake acceptedRead p := by
  have hidle : ¬ Attended ((machine.inside (kernel acceptedRead)).runTrace (initial, quiet)
      (shortReadTrace [.inr (.finished 1)] [])).1 1 .read := by
    rintro ⟨m, hm⟩
    cases m with
    | zero =>
      revert hm
      decide
    | succ m => exact List.not_mem_nil hm
  refine ⟨System.ValidTrace.reachable (by decide), by decide, by decide, by decide, by decide,
    hidle, ?_⟩
  intro hawake
  rcases hawake 1 .read 1 (by decide) (by decide) (Or.inr (by decide)) with hedge | hattended
  · revert hedge
    decide
  · exact hidle hattended

end EpollReadiness
