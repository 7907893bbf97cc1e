import Tcode.EpollDescriptors
import Tcode.EpollPosting

/-! # The loop thread gives references back

The reference count of an engine is the number of operations that it has to run plus the number
of its descriptors, so a loop that ends leaves neither.
-/
namespace EpollReferences

open SupportReferenceCount SupportTransitionSystem EpollMachine

variable {s t : State} {d e : DescriptorId} {k : SocketId} {m : EngineId}

/-- Engine `m` goes on as `v`, with closures that it had to run. -/
structure Takes (s : State) (m : EngineId) (v : Engine) : Prop where
  queued : (v.opQueue ++ Frame.tasks v.frame).Sublist (tasks s m)
  running : ∀ d, Frame.closure v.frame = some d → home s d = m
  polled : Frame.polled v.frame = []

section

variable {v : Engine} (h : Takes s m v)
include h

theorem Takes.sublist (n : EngineId) : (tasks (s.setEngine m v) n).Sublist (tasks s n) := by
  by_cases hn : n = m
  · rw [hn, tasks_self]
    exact h.queued
  · rw [tasks_other hn]

theorem Takes.polled_old {n : EngineId}
    (hd : d ∈ Frame.polled ((s.setEngine m v).engines n).frame) :
    d ∈ Frame.polled (s.engines n).frame := by
  by_cases hn : n = m
  · rw [hn, engines_self, h.polled] at hd
    cases hd
  · rw [engines_other hn] at hd
    exact hd

theorem Takes.free (hfree : Free s d) : Free (s.setEngine m v) d :=
  ⟨hfree.sockets, fun hmem => hfree.tasks ((h.sublist _).subset hmem), hfree.registered,
    fun hd => hfree.polled (h.polled_old hd)⟩

theorem Takes.belongs (hs : Belongs s) : Belongs (s.setEngine m v) := by
  refine ⟨hs.sockets, hs.postings, ?_, ?_, ?_, hs.registered⟩
  · intro n a ha
    exact hs.tasks n a ((h.sublist n).subset ha)
  · intro n d hd
    by_cases hn : n = m
    · rw [hn, engines_self] at hd
      rw [hn]
      exact h.running d hd
    · rw [engines_other hn] at hd
      exact hs.closure n d hd
  · intro n d hd
    exact hs.polled n d (h.polled_old hd)

theorem Takes.owned (hs : Owned s) : Owned (s.setEngine m v) := by
  refine ⟨hs.sockets, ?_, ?_, hs.postings⟩
  · intro j d hj hmem
    exact hs.closed j d hj ((h.sublist _).subset hmem)
  · intro d
    exact ((h.sublist _).count_le _).trans (hs.once d)

end

theorem closures_other {v : Engine} (h : home s e ≠ m) :
    closures (s.setEngine m v) e = closures s e := by
  have hhome : home (s.setEngine m v) e = home s e := rfl
  rw [closures, closures, hhome, tasks_other h, engines_other h]
  rfl

theorem closures_self {v : Engine} (h : home s e = m) : closures (s.setEngine m v) e =
    s.postings.countP (fun p => Task.captures e p.task) +
      (v.opQueue ++ Frame.tasks v.frame).countP (Task.captures e) +
        if Frame.closure v.frame = some e then 1 else 0 := by
  have hhome : home (s.setEngine m v) e = m := h
  rw [closures, hhome, tasks_self, engines_self]
  rfl

/-! ## The end of a closure -/

theorem live_of_closure (h : Invariant s) (hd : Frame.closure (s.engines m).frame = some d) :
    Live s d ∧ home s d = m := by
  have hm := h.belongs.closure m d hd
  refine ⟨(h.accounts d).live (Or.inl ?_), hm⟩
  rw [closures, hm, if_pos hd]
  omega

theorem live_of_mem (h : Invariant s) {a : Task} (ha : a ∈ tasks s m)
    (hdesc : Task.desc a = some d) : Live s d ∧ home s d = m := by
  have hm := h.belongs.tasks m a ha d hdesc
  refine ⟨(h.accounts d).live ?_, hm⟩
  by_cases hunbind : a = .unbind d
  · right
    intro hfree
    apply hfree.tasks
    rw [hm, ← hunbind]
    exact ha
  · left
    have hpos : 0 < (tasks s m).countP (Task.captures d) :=
      List.countP_pos_iff.mpr ⟨a, ha, captures_of_desc hdesc hunbind⟩
    rw [closures, hm]
    omega

theorem release_setFrame {f : Frame} : (descriptorRelease s m d).setFrame m f =
    descriptorRelease (s.setFrame m f) m d := by
  by_cases hlast : (s.descs d).cell.refcount = 1
  · have hlast' : ((s.setFrame m f).descs d).cell.refcount = 1 := hlast
    rw [descriptorRelease, descriptorRelease, if_pos hlast, if_pos hlast']
    simp only [State.abort, State.setFrame, State.setEngine, State.setDesc, State.access,
      Function.update_self, Function.update_idem]
    rfl
  · have hmore : ¬ ((s.setFrame m f).descs d).cell.refcount = 1 := hlast
    rw [descriptorRelease, descriptorRelease, if_neg hlast, if_neg hmore]
    rfl

/-- The closure of a read, write or accept returns. -/
theorem invariant_closure_returns (h : Invariant s) {ops : List Task}
    (hframe : (s.engines m).frame = .dispatching d [] (.drain ops)) :
    Invariant ((descriptorRelease s m d).setFrame m (.within (.drain ops))) := by
  have hclosure : Frame.closure (s.engines m).frame = some d := by
    rw [hframe]
    rfl
  obtain ⟨hlive, hm⟩ := live_of_closure h hclosure
  have htakes : Takes s m { s.engines m with frame := .within (.drain ops) } := by
    refine ⟨?_, nofun, rfl⟩
    rw [tasks, hframe]
    rfl
  have hcount (e : DescriptorId) (he : home s e = m) : closures s e =
      closures (s.setFrame m (.within (.drain ops))) e + if e = d then 1 else 0 := by
    rw [State.setFrame, closures_self he, closures, he, tasks, hframe]
    simp [Frame.closure, Frame.tasks, eq_comm]
  rw [release_setFrame]
  apply invariant_release h hlive hm
  · rfl
  · rfl
  · exact hlive.failed
  · rfl
  · have hone := hcount d hm
    rw [if_pos rfl] at hone
    rw [hone]
    rfl
  · intro hunbound
    exact htakes.free (hlive.free hunbound)
  · intro e he
    refine ⟨Agrees.refl _, ?_, htakes.free⟩
    by_cases hem : home s e = m
    · have hsame := hcount e hem
      rw [if_neg he] at hsame
      exact hsame.symm
    · exact closures_other hem
  · exact htakes.belongs h.belongs
  · exact htakes.owned h.owned
  · intro n
    by_cases hn : n = m
    · subst hn
      rw [State.setFrame, engines_self, tasks_self, tasks, hframe]
      rfl
    · rw [State.setFrame, engines_other hn, tasks_other hn]
  · exact h.noFault

/-! ## A descriptor is closed -/

/-- What an unbind closure does to the descriptor before it gives the base reference back. -/
def detach (s : State) (d : DescriptorId) : State :=
  (s.access d).setDesc d { s.descs d with fd := false, registered := none, unbound := true }

theorem detach_self : (detach s d).descs d =
    { s.descs d with fd := false, registered := none, unbound := true } := Function.update_self ..

theorem detach_other (he : e ≠ d) : (detach s d).descs e = s.descs e := Function.update_of_ne he ..

theorem home_detach (e : DescriptorId) : home (detach s d) e = home s e := by
  by_cases he : e = d
  · rw [he, home, detach_self, home]
  · rw [home, detach_other he, home]

theorem registered_detach {n : EngineId} (h : ((detach s d).descs e).registered = some n) :
    (s.descs e).registered = some n := by
  by_cases he : e = d
  · rw [he, detach_self] at h
    cases h
  · rwa [detach_other he] at h

theorem closures_detach (e : DescriptorId) : closures (detach s d) e = closures s e := by
  rw [closures, home_detach]
  rfl

theorem free_detach (h : Free s e) : Free (detach s d) e := by
  constructor
  · exact h.sockets
  · rw [home_detach]
    exact h.tasks
  · cases hn : ((detach s d).descs e).registered with
    | none => rfl
    | some n => exact (registered_detach hn).symm.trans h.registered
  · rw [home_detach]
    exact h.polled

theorem belongs_detach (h : Belongs s) : Belongs (detach s d) := by
  constructor
  · intro j e
    rw [home_detach]
    exact h.sockets j e
  · intro p hp e
    rw [home_detach]
    exact h.postings p hp e
  · intro n b hb e
    rw [home_detach]
    exact h.tasks n b hb e
  · intro n e
    rw [home_detach]
    exact h.closure n e
  · intro n e
    rw [home_detach]
    exact h.polled n e
  · intro n e he
    rw [home_detach]
    exact h.registered n e (registered_detach he)

theorem owned_detach (h : Owned s) : Owned (detach s d) := by
  constructor
  · exact h.sockets
  · intro j e
    rw [home_detach]
    exact h.closed j e
  · intro e
    rw [home_detach]
    exact h.once e
  · exact h.postings

/-! ## Operations are run -/

section OpRun

variable {ops : List Task} {a : Task}

/-- The engine after `op_run` has released it. -/
def popped (s : State) (m : EngineId) (f : Frame) : Engine :=
  { s.engines m with frame := f, refcount := (s.engines m).refcount - 1 }

theorem tasks_of_drain (hframe : (s.engines m).frame = .within (.drain (a :: ops))) :
    tasks s m = (s.engines m).opQueue ++ a :: ops := by
  rw [tasks, hframe]
  rfl

theorem takes_popped (h : Belongs s) (hframe : (s.engines m).frame = .within (.drain (a :: ops)))
    {f : Frame} (htasks : Frame.tasks f = ops) (hpolled : Frame.polled f = [])
    (hclosure : ∀ d, Frame.closure f = some d → Task.desc a = some d) :
    Takes s m (popped s m f) := by
  refine ⟨?_, ?_, hpolled⟩
  · rw [tasks_of_drain hframe]
    show (_ ++ Frame.tasks f).Sublist _
    rw [htasks]
    exact (List.sublist_cons_self a ops).append_left _
  · intro d hd
    apply h.tasks m a _ d (hclosure d hd)
    rw [tasks_of_drain hframe]
    exact List.mem_append_right _ List.mem_cons_self

theorem engine_popped (hframe : (s.engines m).frame = .within (.drain (a :: ops))) {f : Frame}
    (htasks : Frame.tasks f = ops) (n : EngineId) :
    ((s.setEngine m (popped s m f)).engines n).refcount + (tasks s n).length =
      (s.engines n).refcount + (tasks (s.setEngine m (popped s m f)) n).length := by
  by_cases hn : n = m
  · subst hn
    rw [engines_self, tasks_self, tasks_of_drain hframe]
    show (s.engines n).refcount - 1 + ((s.engines n).opQueue ++ a :: ops).length =
      (s.engines n).refcount + ((s.engines n).opQueue ++ Frame.tasks f).length
    rw [htasks, List.length_append, List.length_append, List.length_cons]
    omega
  · rw [engines_other hn, tasks_other hn]

theorem closures_popped (hframe : (s.engines m).frame = .within (.drain (a :: ops))) {f : Frame}
    (htasks : Frame.tasks f = ops) (he : home s e = m) :
    closures (s.setEngine m (popped s m f)) e + (if Task.captures e a = true then 1 else 0) =
      closures s e + if Frame.closure f = some e then 1 else 0 := by
  have hnone : Frame.closure (s.engines m).frame ≠ some e := by
    rw [hframe]
    exact nofun
  rw [closures_self he, closures, he, tasks_of_drain hframe, if_neg hnone]
  show _ + ((s.engines m).opQueue ++ Frame.tasks f).countP _ +
    (if Frame.closure f = some e then 1 else 0) + _ = _
  rw [htasks, List.countP_append, List.countP_append, List.countP_cons]
  omega

theorem opRun_dispatch_eq (i : Direction) (o : OperationId) : opRun s m (.dispatch i d o) ops =
    (((s.setEngine m (popped s m (.dispatching d [i] (.drain ops)))).access d).setDesc d
      { s.descs d with
        opQueue := Function.update (s.descs d).opQueue i ((s.descs d).opQueue i ++ [o]) }).setPlace
          o (.descriptor d i) := by
  simp only [opRun, runTask, popped, State.setFrame, State.setEngine, State.setDesc,
    State.setPlace, State.access, Function.update_self, Function.update_idem]

variable (h : Invariant s) (hframe : (s.engines m).frame = .within (.drain (a :: ops)))
include h hframe

theorem invariant_popped {f : Frame} (htasks : Frame.tasks f = ops) (hpolled : Frame.polled f = [])
    (hclosure : ∀ d, Frame.closure f = some d ↔ Task.captures d a = true) :
    Invariant (s.setEngine m (popped s m f)) := by
  have hdesc (d : DescriptorId) (hd : Frame.closure f = some d) : Task.desc a = some d :=
    desc_of_captures ((hclosure d).mp hd)
  have htakes := takes_popped h.belongs hframe htasks hpolled hdesc
  apply invariant_moved (t := s.setEngine m (popped s m f)) h rfl
  · intro e
    exact Agrees.refl _
  · intro e
    by_cases he : home s e = m
    · have hcount := closures_popped hframe htasks he
      simp only [hclosure] at hcount
      omega
    · exact closures_other he
  · intro e hfree
    exact htakes.free hfree
  · exact htakes.belongs h.belongs
  · exact htakes.owned h.owned
  · exact engine_popped hframe htasks
  · exact h.noFault

omit h in
theorem mem_tasks_of_drain : a ∈ tasks s m := by
  rw [tasks_of_drain hframe]
  exact List.mem_append_right _ List.mem_cons_self

omit hframe in
theorem invariant_opRun_op {o : OperationId}
    (hframe : (s.engines m).frame = .within (.drain (.op o :: ops))) :
    Invariant (opRun s m (.op o) ops) := by
  apply invariant_invoke
  apply invariant_popped h hframe (f := .within (.drain ops)) rfl rfl
  intro d
  constructor <;> exact nofun

omit hframe in
theorem invariant_opRun_dispatch {i : Direction} {o : OperationId}
    (hframe : (s.engines m).frame = .within (.drain (.dispatch i d o :: ops))) :
    Invariant (opRun s m (.dispatch i d o) ops) := by
  have hpopped := invariant_popped h hframe (f := .dispatching d [i] (.drain ops)) rfl rfl
    (fun e => by rw [captures_dispatch]; exact ⟨fun he => (Option.some.inj he).symm,
      fun he => congrArg some he.symm⟩)
  have hlive := (live_of_closure hpopped (d := d) (m := m) (by rw [engines_self]; rfl)).1
  rw [opRun_dispatch_eq]
  exact invariant_setPlace (invariant_setQueue (invariant_access hpopped hlive) _) o _

omit hframe in
/-- The unbind closure gives the base reference back. -/
theorem invariant_opRun_unbind
    (hframe : (s.engines m).frame = .within (.drain (.unbind d :: ops))) :
    Invariant (opRun s m (.unbind d) ops) := by
  have hmem : .unbind d ∈ tasks s m := mem_tasks_of_drain hframe
  obtain ⟨hlive, hm⟩ := live_of_mem h hmem (d := d) rfl
  have hbound : (s.descs d).unbound = false := by
    apply Bool.eq_false_iff.mpr
    intro hunbound
    exact (hlive.free hunbound).tasks (hm ▸ hmem)
  have htakes := takes_popped h.belongs hframe (f := .within (.drain ops)) rfl rfl nofun
  have hbelongs := htakes.belongs h.belongs
  have howned := htakes.owned h.owned
  have hfree (e : DescriptorId) (he : Free s e) := htakes.free he
  generalize hp : s.setEngine m (popped s m (.within (.drain ops))) = p at hbelongs howned hfree
  have hdescs (e : DescriptorId) : p.descs e = s.descs e := by
    rw [← hp]
    rfl
  have hhome (e : DescriptorId) : home p e = home s e := congrArg Descriptor.home (hdescs e)
  have hclosures (e : DescriptorId) : closures (detach p d) e = closures s e := by
    rw [closures_detach, ← hp]
    by_cases he : home s e = m
    · have hcount := closures_popped hframe (f := .within (.drain ops)) rfl he
      simpa [Task.captures, Frame.closure] using hcount
    · exact closures_other he
  have heq : opRun s m (.unbind d) ops = descriptorRelease (detach p d) m d := by
    rw [← hp]
    rfl
  rw [heq]
  apply invariant_release h hlive hm
  · rw [← hp]
    rfl
  · rw [detach_self, hdescs]
  · rw [detach_self, hdescs]
    exact hlive.failed
  · rw [home_detach, hhome]
  · rw [base_of_unbound hbound, base, detach_self, if_pos rfl, hclosures]
    omega
  · intro _
    constructor
    · intro j hj
      rw [← hp] at hj
      exact h.owned.closed j d hj (hm ▸ hmem)
    · -- the closure was the only one that unbinds the descriptor
      have honce := h.owned.once d
      rw [hm, tasks_of_drain hframe, List.count_append, List.count_cons_self] at honce
      have htasks : tasks (detach p d) m = (s.engines m).opQueue ++ ops := by
        rw [← hp]
        exact tasks_self
      rw [home_detach, hhome, hm, htasks]
      apply List.count_eq_zero.mp
      rw [List.count_append]
      omega
    · rw [detach_self]
    · have hpolled : Frame.polled ((detach p d).engines m).frame = [] := by
        rw [← hp]
        exact congrArg (fun v => Frame.polled (Engine.frame v)) engines_self
      rw [home_detach, hhome, hm, hpolled]
      exact List.not_mem_nil
  · intro e he
    rw [hclosures, detach_other he, hdescs]
    exact ⟨Agrees.refl _, rfl, fun hs => free_detach (hfree e hs)⟩
  · exact belongs_detach hbelongs
  · exact owned_detach howned
  · intro n
    rw [← hp]
    exact engine_popped hframe rfl n
  · rw [← hp]
    exact h.access_noFault hlive

end OpRun

/-! ## Calls -/

theorem live_of_socket (h : Invariant s) (hk : (s.sockets k).desc = some d) :
    Live s d ∧ home s d = (s.sockets k).engine := by
  refine ⟨(h.accounts d).live (Or.inr ?_), h.belongs.sockets k d hk⟩
  intro hfree
  exact hfree.sockets k hk

/-- A socket without a descriptor takes the place of another one. -/
theorem invariant_setSocket (h : Invariant s) {v : Socket} (hv : v.desc = none) :
    Invariant (s.setSocket k v) := by
  have hold {j : SocketId} {d : DescriptorId} (hj : ((s.setSocket k v).sockets j).desc = some d) :
      (s.setSocket k v).sockets j = s.sockets j := (desc_setSocket hv hj).2
  apply invariant_moved (t := s.setSocket k v) h rfl
  · intro d
    exact Agrees.refl _
  · intro d
    rfl
  · intro d hfree
    refine ⟨?_, hfree.tasks, hfree.registered, hfree.polled⟩
    intro j hj
    exact hfree.sockets j (hold hj ▸ hj)
  · refine ⟨?_, h.belongs.postings, h.belongs.tasks, h.belongs.closure, h.belongs.polled,
      h.belongs.registered⟩
    intro j d hj
    rw [hold hj]
    exact h.belongs.sockets j d (hold hj ▸ hj)
  · refine ⟨?_, ?_, h.owned.once, h.owned.postings⟩
    · intro i j d hi hj
      exact h.owned.sockets i j d (hold hi ▸ hi) (hold hj ▸ hj)
    · intro j d hj
      exact h.owned.closed j d (hold hj ▸ hj)
  · intro n
    rfl
  · exact h.noFault

theorem socket_of_create : ((s.create m k true).sockets k).desc = some s.made := by
  show ((descriptorCreate s m k true).sockets k).desc = _
  simp [descriptorCreate, State.setSocket, State.setEngine]

theorem engine_of_create {bound : Bool} :
    ((s.create m k bound).sockets k).engine = (s.sockets k).engine := by
  cases bound <;> simp [State.create, descriptorCreate, State.setSocket, State.setEngine,
    State.setDesc]

theorem invariant_call (h : Invariant s) (thread : Option EngineId) (c : Call) :
    Invariant (c.effect thread s) := by
  cases c with
  | socket k m => exact invariant_setSocket h rfl
  | execute m o => exact invariant_execute h thread o
  | connect k o r =>
    cases r with
    | failed ec => exact invariant_execute (invariant_setError h o ec) thread o
    | notBound ec =>
      exact invariant_execute (invariant_setError (invariant_notBound h) o ec) thread o
    | started =>
      apply invariant_setPlace
      exact invariant_setQueue (invariant_create h true) _
  | openSocket k bound => exact invariant_create h bound
  | start k i o =>
    simp only [Call.effect]
    split
    · exact h
    · next d hk =>
      obtain ⟨hlive, hm⟩ := live_of_socket h hk
      exact invariant_startOn h hlive hm thread i o
  | accept k o accepted =>
    simp only [Call.effect]
    split
    · exact h
    · next d hk =>
      have haccepts : Invariant { s with accepts := Function.update s.accepts o (some accepted) } :=
        invariant_same h rfl rfl rfl rfl h.noFault fun _ => Agrees.refl _
      obtain ⟨hlive, hm⟩ := live_of_socket haccepts hk
      exact invariant_startOn haccepts hlive hm thread .read o
  | udpWriteNull k o r =>
    cases r with
    | noFile ec => exact invariant_execute (invariant_setError h o ec) thread o
    | notBound ec =>
      exact invariant_execute (invariant_setError (invariant_notBound h) o ec) thread o
    | opened =>
      have hcreated := invariant_create (k := k) h true
      obtain ⟨hlive, hm⟩ := live_of_socket hcreated socket_of_create
      rw [engine_of_create] at hm
      exact invariant_startOn hcreated hlive hm thread .write o
  | udpReadNull k o => exact invariant_execute (invariant_setError h o .invalid) thread o
  | unbind k =>
    simp only [Call.effect]
    split
    · exact h
    · next d hk => exact invariant_unbind h hk

/-! ## Runs -/

/-- A connection is accepted for a socket of the engine that accepts it. -/
def Confines (s : State) : Step → Prop
  | .postProc m (.accepted k _) => (s.sockets k).engine = m
  | _ => True

theorem invariant_finish (h : Invariant s) (i : Direction) (o : OperationId) (ec : ErrorCode) :
    Invariant (s.finish d i o ec) :=
  invariant_invoke (invariant_setError (invariant_setQueue h _) o ec) o

theorem live_of_polled (h : Invariant s) (hd : d ∈ Frame.polled (s.engines m).frame) :
    Live s d ∧ home s d = m := by
  have hm := h.belongs.polled m d hd
  refine ⟨(h.accounts d).live (Or.inr ?_), hm⟩
  intro hfree
  exact hfree.polled (hm ▸ hd)

/-- The descriptor that is dispatched is in use. -/
theorem live_of_dispatching (h : Invariant s) {dirs : List Direction} {p : Position}
    (hframe : (s.engines m).frame = .dispatching d dirs p) : Live s d := by
  cases p with
  | events evs x =>
    apply (live_of_polled h (m := m) _).1
    rw [hframe]
    exact List.mem_cons_self
  | drain ops =>
    apply (live_of_closure h (m := m) _).1
    rw [hframe]
    rfl

/-- The dispatch loop is done with a direction. -/
theorem invariant_passed (h : Invariant s) {i : Direction} {dirs : List Direction} {p : Position}
    (hframe : (s.engines m).frame = .dispatching d (i :: dirs) p) :
    Invariant ((s.access d).setFrame m (.dispatching d dirs p)) := by
  apply invariant_setFrame (invariant_access h (live_of_dispatching h hframe))
  · rw [access_engines, hframe]
    rfl
  · rw [access_engines, hframe]
    cases p <;> rfl
  · intro e he
    apply Or.inl
    rw [access_engines, hframe]
    cases p <;> exact he

theorem invariant_dispatchTurn (h : Invariant s) {i : Direction} {dirs : List Direction}
    {p : Position} (hframe : (s.engines m).frame = .dispatching d (i :: dirs) p) (o : OperationId)
    (r : PostResult) (hr : Confines s (.postProc m r)) :
    Invariant (dispatchTurn s m d i dirs p o r) := by
  have haccess := invariant_access h (live_of_dispatching h hframe)
  cases r with
  | again => exact invariant_passed h hframe
  | done ec => exact invariant_finish haccess i o ec
  | accepted k registered =>
    exact invariant_finish (invariant_descriptorCreate haccess hr registered) i o .success

theorem invariant_advance (h : Invariant s) {dirs : List Direction} {p : Position}
    (hframe : (s.engines m).frame = .dispatching d dirs p) : Invariant (advance s m d dirs p) := by
  cases dirs with
  | cons i dirs => exact invariant_passed h hframe
  | nil =>
    cases p with
    | events evs x =>
      apply invariant_setFrame h
      · rw [hframe]
        rfl
      · rw [hframe]
        rfl
      · intro e he
        apply Or.inl
        rw [hframe]
        exact List.mem_cons_of_mem d he
    | drain ops => exact invariant_closure_returns h hframe

theorem invariant_event (h : Invariant s) {e : Event} {evs : List Event} {x : Bool}
    (hframe : (s.engines m).frame = .within (.events (e :: evs) x)) (dirs : List Direction) :
    Invariant ((s.access e.desc).setFrame m (.dispatching e.desc dirs (.events evs x))) := by
  have hpolled : e.desc ∈ Frame.polled (s.engines m).frame := by
    rw [hframe]
    exact List.mem_cons_self
  apply invariant_setFrame (invariant_access h (live_of_polled h hpolled).1)
  · rw [access_engines, hframe]
    rfl
  · rw [access_engines, hframe]
    rfl
  · intro d hd
    apply Or.inl
    rw [access_engines, hframe]
    exact hd

/-- The loop goes on where there is nothing left to do in it. -/
theorem invariant_setFrame_done (h : Invariant s) {f : Frame}
    (htasks : Frame.tasks (s.engines m).frame = [])
    (hclosure : Frame.closure (s.engines m).frame = none)
    (hf : Frame.tasks f = [] ∧ Frame.closure f = none ∧ Frame.polled f = []) :
    Invariant (s.setFrame m f) := by
  apply invariant_setFrame h
  · rw [hf.1, htasks]
  · rw [hf.2.1, hclosure]
  · intro d hd
    rw [hf.2.2] at hd
    cases hd

/-- The loop thread takes the operations that are posted. -/
theorem invariant_take (h : Invariant s)
    (hframe : (s.engines m).frame = .within (.events [] true)) :
    Invariant (s.setEngine m { s.engines m with
      opQueue := [], frame := .within (.drain (s.engines m).opQueue) }) := by
  have htasks : tasks s m = (s.engines m).opQueue := by
    rw [tasks, hframe]
    exact List.append_nil _
  apply invariant_setEngine h
  · rw [htasks]
    rfl
  · rw [htasks]
    rfl
  · rw [hframe]
    rfl
  · rintro d ⟨⟩

theorem tasks_of_atEnd {f : Frame} (h : f.atEnd = true) : Frame.tasks f = [] := by
  cases f with
  | within p =>
    cases p with
    | events evs x => rfl
    | drain ops =>
      cases ops with
      | nil => rfl
      | cons a ops => cases h
  | _ => cases h

theorem closure_of_atEnd {f : Frame} (h : f.atEnd = true) : Frame.closure f = none := by
  cases f with
  | within p => rfl
  | _ => cases h

theorem invariant_leave (h : Invariant s) (hend : (s.engines m).frame.atEnd = true) :
    Invariant (next s (.leave m)) := by
  simp only [next]
  split
  · next hframe => exact invariant_take h hframe
  · exact invariant_setFrame_done h (tasks_of_atEnd hend) (closure_of_atEnd hend) ⟨rfl, rfl, rfl⟩

theorem invariant_opRun (h : Invariant s) : Invariant (next s (.opRun m)) := by
  simp only [next]
  split
  · next a ops hframe =>
    cases a with
    | op o => exact invariant_opRun_op h hframe
    | dispatch i d o => exact invariant_opRun_dispatch h hframe
    | unbind d => exact invariant_opRun_unbind h hframe
  · exact h

theorem invariant_post (h : Invariant s) (j : Nat) : Invariant (next s (.post j)) := by
  simp only [next]
  split
  · exact h
  · next p hp =>
    have hadded := invariant_posted h hp
    cases htask : p.task with
    | op o => exact invariant_setPlace (htask ▸ hadded) ..
    | dispatch i d o => exact invariant_setPlace (htask ▸ hadded) ..
    | unbind d => exact absurd htask (h.owned.postings p (List.mem_of_getElem? hp) d)

theorem invariant_step (h : Invariant s) {x : Step} (hx : Enabled s x) (hc : Confines s x) :
    Invariant (next s x) := by
  cases x with
  | call thread c => exact invariant_call h thread c
  | post j => exact invariant_post h j
  | timers m n => exact invariant_setEngine h rfl rfl rfl fun d hd => Or.inl hd
  | run m =>
    have hframe : (s.engines m).frame = .stopped := hx
    apply invariant_setFrame_done h _ _ ⟨rfl, rfl, rfl⟩
    all_goals
      rw [hframe]
      rfl
  | check m =>
    have hframe : (s.engines m).frame = .loop := hx.2
    simp only [next]
    split
    all_goals
      apply invariant_setFrame_done h _ _ ⟨rfl, rfl, rfl⟩
      all_goals
        rw [hframe]
        rfl
  | epollWait m evs executeOp =>
    obtain ⟨_, hframe, hevs⟩ := hx
    apply invariant_setFrame h
    · rw [hframe]
      rfl
    · rw [hframe]
      rfl
    · intro d hd
      obtain ⟨e, he, rfl⟩ := List.mem_map.mp hd
      exact Or.inr (hevs e he)
  | event m =>
    simp only [next]
    split
    · next e evs x hframe => exact invariant_event h hframe (directions e.flags)
    · exact h
  | leave m => exact invariant_leave h hx.2
  | opRun m => exact invariant_opRun h
  | postProc m r =>
    simp only [next]
    split
    · next d i dirs p o hframe _ => exact invariant_dispatchTurn h hframe o r hc
    · exact h
  | advance m =>
    simp only [next]
    split
    · next d dirs p hframe => exact invariant_advance h hframe
    · exact h

theorem invariant_initial : Invariant initial := by
  constructor
  · intro d
    refine .unborn (Nat.zero_le d) rfl ?_ rfl
    exact ⟨fun k => nofun, List.not_mem_nil, rfl, List.not_mem_nil⟩
  · refine ⟨fun k d => nofun, nofun, ?_, fun m d => nofun, ?_, fun m d => nofun⟩
    · intro m a ha
      cases ha
    · intro m d hd
      cases hd
  · refine ⟨fun j k d => nofun, fun k d => nofun, fun d => Nat.zero_le 1, nofun⟩
  · intro m
    rfl
  · rfl

theorem invariant_execution (h : machine.Execution Confines initial s) : Invariant s :=
  h.invariant invariant_initial fun _ _ _ hu he hc => invariant_step hu he hc

/-- The reference that a descriptor has from the start. -/
def baseReference (s : State) (d : DescriptorId) : Nat :=
  if (s.descs d).unbound || (s.descs d).failed then 0 else 1

theorem Invariant.held (h : Invariant s) (hd : d < s.made) :
    Held (s.descs d).cell (baseReference s d + closures s d) := by
  cases h.accounts d with
  | unborn made => exact absurd hd (Nat.not_lt.mpr made)
  | failed made failed held none =>
    rw [none, baseReference, failed, Bool.or_true]
    exact held
  | born made failed held =>
    rw [baseReference, failed, Bool.or_false]
    exact held

/-- A deleted descriptor is not referred to. -/
theorem Invariant.unmentioned (h : Invariant s) (hd : (s.descs d).cell.deleted = true)
    (hmade : d < s.made) : Unmentioned s d ∧ (s.descs d).registered = none := by
  cases h.accounts d with
  | unborn made => exact absurd hmade (Nat.not_lt.mpr made)
  | failed made failed held none free =>
    exact ⟨unmentioned_of_free free none h.belongs h.owned, free.registered⟩
  | born made failed held free =>
    have hzero := held.deleted_iff.mp hd
    have hunbound : (s.descs d).unbound = true := by
      cases hu : (s.descs d).unbound with
      | true => rfl
      | false =>
        rw [base_of_unbound hu] at hzero
        omega
    have hfree := free hunbound
    exact ⟨unmentioned_of_free hfree (by omega) h.belongs h.owned, hfree.registered⟩

/-- The descriptors of engine `m` that are not deleted. -/
def liveDescriptors (s : State) (m : EngineId) : Nat := Nat.count (owns s · m = true) s.made

theorem stops_iff : ((next s (.check m)).engines m).frame = .stopped ↔
    (s.engines m).refcount = 0 ∧ (s.engines m).timers = 0 := by
  simp only [next]
  split
  · next hmore =>
    rw [State.setFrame, engines_self]
    constructor
    · exact nofun
    · intro hzero
      exact absurd hzero (by omega)
  · next hzero =>
    rw [State.setFrame, engines_self]
    simp only [true_iff]
    omega

theorem Invariant.stopped (h : Invariant s)
    (hstop : ((next s (.check m)).engines m).frame = .stopped) :
    tasks s m = [] ∧ liveDescriptors s m = 0 ∧ (s.engines m).timers = 0 := by
  obtain ⟨hzero, htimers⟩ := stops_iff.mp hstop
  have hcount := h.engine m
  rw [hzero] at hcount
  refine ⟨?_, ?_, htimers⟩
  · apply List.eq_nil_of_length_eq_zero
    omega
  · show Nat.count _ _ = 0
    omega

instance (s : State) : ∀ x : Step, Decidable (Confines s x)
  | .postProc m (.accepted k _) => inferInstanceAs (Decidable ((s.sockets k).engine = m))
  | .postProc _ .again | .postProc _ (.done _) | .call _ _ | .post _ | .timers _ _ | .run _
  | .check _ | .epollWait _ _ _ | .event _ | .leave _ | .opRun _ | .advance _ => isTrue trivial

/-- A read is submitted, and the socket is closed before it gets to its descriptor. -/
def closedTrace : List Step :=
  [.call none (.socket 0 0), .call none (.openSocket 0 true), .call none (.start 0 .read 0),
    .call none (.unbind 0), .post 0, .run 0, .check 0, .epollWait 0 [] true, .leave 0, .opRun 0,
    .opRun 0, .postProc 0 .again, .advance 0]

end EpollReferences
