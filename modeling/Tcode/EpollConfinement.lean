import Tcode.EpollEngineCount

/-! # Accepted sockets and their engine

An acceptor prepares a socket of the engine that its builder names, and the connection is
accepted by the multiplexer of its own engine. Only where the two are one engine, the socket has
a descriptor of its engine.
-/
namespace EpollReferences

open SupportReferenceCount SupportTransitionSystem EpollMachine

variable {s t : State} {d e : DescriptorId} {k : SocketId} {m : EngineId}

/-- Every open socket is registered with the engine that it belongs to. -/
def Registered (s : State) : Prop :=
  ∀ k d, (s.sockets k).desc = some d → (s.descs d).registered = some (s.sockets k).engine

/-- Descriptors are made, counted, registered and dispatched by the engine of their socket. -/
structure Confined (s : State) : Prop where
  sockets : ∀ k d, (s.sockets k).desc = some d → home s d = (s.sockets k).engine
  registered : Registered s
  events : ∀ m, ∀ d ∈ Frame.polled (s.engines m).frame, home s d = m
  closures : ∀ m d, Frame.closure (s.engines m).frame = some d → home s d = m
  counted : ∀ m, (s.engines m).refcount = (tasks s m).length + liveDescriptors s m

/-- The builder names the engine of the acceptor, and the file of an accepted connection can be
registered. -/
def NamesOwnEngine (s : State) : Step → Prop
  | .postProc m (.accepted k registered) => (s.sockets k).engine = m ∧ registered = true
  | _ => True

theorem confines_of_names {x : Step} (h : NamesOwnEngine s x) : Confines s x := by
  cases x with
  | postProc m r =>
    cases r with
    | accepted k registered => exact h.1
    | _ => trivial
  | _ => trivial

/-! ## Registrations -/

theorem registered_same (h : Registered s) (hsockets : t.sockets = s.sockets)
    (hdescs : ∀ d, (t.descs d).registered = (s.descs d).registered) : Registered t := by
  intro k d hk
  rw [hsockets] at hk ⊢
  rw [hdescs]
  exact h k d hk

theorem registered_setQueue (h : Registered s) (q : Direction → List OperationId) :
    Registered (s.setDesc d { s.descs d with opQueue := q }) :=
  registered_same h rfl fun e =>
    (agrees_setDesc (v := { s.descs d with opQueue := q }) ⟨rfl, rfl, rfl, rfl, rfl⟩ e).registered

theorem finish_registered {i : Direction} {o : OperationId} {ec : ErrorCode} :
    ((s.finish d i o ec).descs e).registered = (s.descs e).registered :=
  (agrees_setDesc (s := s) (v := { s.descs d with
    opQueue := Function.update (s.descs d).opQueue i ((s.descs d).opQueue i).tail })
    ⟨rfl, rfl, rfl, rfl, rfl⟩ e).registered

theorem registered_startOn (h : Registered s) (thread : Option EngineId) (i : Direction)
    (o : OperationId) : Registered (s.startOn thread m i d o) :=
  registered_same h rfl fun e => (addRef_same e).2.1

theorem registered_creates {desc : Option DescriptorId} (h : Registered s)
    (hc : Creates s t m k desc) (hfresh : Unmentioned s s.made)
    (hnew : desc.isSome = true → (t.descs s.made).registered = some m) : Registered t := by
  intro j e hj
  by_cases hjk : j = k
  · subst hjk
    rw [hc.socket] at hj ⊢
    obtain ⟨rfl, hm⟩ := hc.desc e hj
    show _ = some (s.sockets j).engine
    rw [hm]
    apply hnew
    rw [show desc = _ from hj]
    rfl
  · rw [hc.sockets j hjk] at hj ⊢
    rw [hc.others e (hfresh.other_socket hj)]
    exact h j e hj

theorem registered_create (h : Registered s) (hs : Invariant s) (bound : Bool) :
    Registered (s.create (s.sockets k).engine k bound) := by
  cases bound with
  | false => exact registered_creates h creates_notBound hs.fresh nofun
  | true =>
    apply registered_creates h (creates_descriptorCreate rfl true) hs.fresh
    intro _
    rw [created_self]
    rfl

theorem registered_setSocket (h : Registered s) {v : Socket} (hv : v.desc = none) :
    Registered (s.setSocket k v) := by
  intro j d hj
  obtain ⟨-, hsame⟩ := desc_setSocket hv hj
  rw [hsame] at hj ⊢
  exact h j d hj

theorem registered_call (h : Registered s) (hs : Invariant s) (thread : Option EngineId)
    (c : Call) : Registered (c.effect thread s) := by
  cases c with
  | socket k m => exact registered_setSocket h rfl
  | execute m o => exact h
  | connect k o r =>
    cases r with
    | failed ec => exact h
    | notBound ec => exact registered_create h hs false
    | started => exact registered_setQueue (registered_create h hs true) _
  | openSocket k bound => exact registered_create h hs bound
  | start k i o =>
    simp only [Call.effect]
    split
    · exact h
    · exact registered_startOn h thread i o
  | accept k o accepted =>
    simp only [Call.effect]
    split
    · exact h
    · exact registered_startOn (m := (s.sockets k).engine) h thread .read o
  | udpWriteNull k o r =>
    cases r with
    | noFile ec => exact h
    | notBound ec => exact registered_create h hs false
    | opened => exact registered_startOn (registered_create h hs true) thread .write o
  | udpReadNull k o => exact h
  | unbind k =>
    simp only [Call.effect]
    split
    · exact h
    · exact registered_setSocket h rfl

/-- The closure takes the registration of a descriptor that no socket has. -/
theorem registered_opRun_unbind (h : Registered s) (hs : Invariant s) {ops : List Task}
    (hframe : (s.engines m).frame = .within (.drain (.unbind d :: ops))) :
    Registered (opRun s m (.unbind d) ops) := by
  have hmem : .unbind d ∈ tasks s m := mem_tasks_of_drain hframe
  have hm := (live_of_mem hs hmem (d := d) rfl).2
  have hsocket (j : SocketId) : (s.sockets j).desc ≠ some d := by
    intro hj
    exact hs.owned.closed j d hj (hm ▸ hmem)
  have hmirrors := mirrors_release (m := m) (d := d)
    (s := ((s.setEngine m (popped s m (.within (.drain ops)))).access d).setDesc d
      { s.descs d with fd := false, registered := none, unbound := true })
  intro j e hj
  have hsockets : (opRun s m (.unbind d) ops).sockets = s.sockets := hmirrors.sockets
  rw [hsockets] at hj ⊢
  have he : e ≠ d := fun heq => hsocket j (heq ▸ hj)
  refine (hmirrors.registered e).trans ?_
  show (Function.update s.descs d _ e).registered = _
  rw [Function.update_of_ne he]
  exact h j e hj

/-- A connection is accepted for a socket of the accepting engine. -/
theorem registered_accept (h : Registered s) (hs : Invariant (s.access d))
    (hm : (s.sockets k).engine = m) {i : Direction} {o : OperationId} :
    Registered ((descriptorCreate (s.access d) m k true).finish d i o .success) := by
  have hc := creates_descriptorCreate (s := s.access d) (k := k) hm true
  apply registered_setQueue (s := descriptorCreate (s.access d) m k true)
  apply registered_creates (s := s.access d) h hc hs.fresh
  intro _
  rw [created_self]
  rfl

theorem registered_step (h : Registered s) (hs : Invariant s) {x : Step}
    (hc : NamesOwnEngine s x) : Registered (next s x) := by
  cases x with
  | call thread c => exact registered_call h hs thread c
  | post j =>
    simp only [next]
    split
    · exact h
    · split <;> exact h
  | timers m n => exact h
  | run m => exact h
  | check m =>
    simp only [next]
    split <;> exact h
  | epollWait m evs executeOp => exact h
  | event m =>
    simp only [next]
    split <;> exact h
  | leave m =>
    simp only [next]
    split <;> exact h
  | opRun m =>
    simp only [next]
    split
    · next a ops hframe =>
      cases a with
      | op o => exact h
      | dispatch i d o => exact registered_setQueue (s := s) h _
      | unbind d => exact registered_opRun_unbind h hs hframe
    · exact h
  | postProc m r =>
    simp only [next]
    split
    · next d i dirs p o hframe _ =>
      cases r with
      | again => exact h
      | done ec => exact registered_setQueue (s := s) h _
      | accepted k registered =>
        obtain ⟨hm, rfl⟩ := hc
        exact registered_accept h (invariant_access hs (live_of_dispatching hs hframe)) hm
    · exact h
  | advance m =>
    simp only [next]
    split
    · next d dirs p hframe =>
      cases dirs with
      | cons i dirs => exact h
      | nil =>
        cases p with
        | events evs x => exact h
        | drain ops =>
          exact registered_same h mirrors_release.sockets mirrors_release.registered
    · exact h

theorem registered_execution (h : machine.Execution NamesOwnEngine initial s) : Registered s := by
  induction h with
  | refl => exact fun k d => nofun
  | @tail t x ht hx hc ih =>
    have hs := invariant_execution (ht.mono fun _ _ => confines_of_names)
    exact registered_step ih hs hc

/-- What an accepted connection is given shows at once. -/
theorem confined_accept_iff (h : Invariant s) (hr : Registered s) {i : Direction}
    {dirs : List Direction} {p : Position}
    (hframe : (s.engines m).frame = .dispatching d (i :: dirs) p)
    (o : OperationId) (registered : Bool) :
    Registered (dispatchTurn s m d i dirs p o (.accepted k registered)) ↔
      (s.sockets k).engine = m ∧ registered = true := by
  have hs := invariant_access h (live_of_dispatching h hframe)
  constructor
  · intro hafter
    have hk : ((descriptorCreate (s.access d) m k registered).sockets k) =
        { s.sockets k with desc := some s.made } := Function.update_self ..
    have hmade := hafter k s.made (congrArg Socket.desc hk)
    have hown : some (s.sockets k).engine = some
        ((descriptorCreate (s.access d) m k registered).sockets k).engine := by rw [hk]
    have hnew : (Descriptor.new m registered).registered = some (s.sockets k).engine := by
      rw [hown, ← created_self (s := s.access d) (k := k), ← finish_registered (d := d) (i := i)]
      exact hmade
    cases registered with
    | false => cases hnew
    | true => exact ⟨(Option.some.inj hnew).symm, rfl⟩
  · rintro ⟨hm, rfl⟩
    exact registered_accept hr hs hm

/-- In every run whose acceptors are given their own engine, what is accepted is confined. -/
theorem accepted_confined (h : machine.Execution NamesOwnEngine initial s) : Confined s := by
  have hs := invariant_execution (h.mono fun _ _ => confines_of_names)
  constructor
  · exact hs.belongs.sockets
  · exact registered_execution h
  · exact hs.belongs.polled
  · exact hs.belongs.closure
  · exact hs.engine

instance (s : State) : ∀ x : Step, Decidable (NamesOwnEngine s x)
  | .postProc m (.accepted k registered) =>
    inferInstanceAs (Decidable ((s.sockets k).engine = m ∧ registered = true))
  | .postProc _ .again | .postProc _ (.done _) | .call _ _ | .post _ | .timers _ _ | .run _
  | .check _ | .epollWait _ _ _ | .event _ | .leave _ | .opRun _ | .advance _ => isTrue trivial

/-- An acceptor of engine 0 accepts a connection for a socket of engine `m`. -/
def acceptTrace (m : EngineId) : List Step :=
  [.call none (.socket 0 0), .call none (.openSocket 0 true), .call none (.socket 1 m),
    .call none (.accept 0 0 1), .post 0, .run 0, .check 0, .epollWait 0 [] true, .leave 0,
    .opRun 0, .postProc 0 (.accepted 1 true), .advance 0, .advance 0]

theorem accepted_confined_ownEngine :
    let s := machine.runTrace initial (acceptTrace 0)
    (s.sockets 1).desc = some 1 ∧ Confined s :=
  ⟨by decide, accepted_confined (System.ValidTrace.execution
    (show machine.ValidTrace NamesOwnEngine initial (acceptTrace 0) by decide))⟩

/-- The channel closes its socket, and its engine runs the closure. -/
def closeOtherTrace : List Step :=
  acceptTrace 1 ++ [.call none (.unbind 1), .run 1, .check 1, .epollWait 1 [] true, .leave 1,
    .opRun 1]

/-- With another engine, the descriptor is counted by the one and given back to the other. -/
theorem otherEngine_not_confined :
    let s := machine.runTrace initial closeOtherTrace
    machine.Reachable initial s ∧ (s.engines 1).refcount = -1 ∧ (s.engines 0).refcount = 2 ∧
      liveDescriptors s 0 = 1 ∧ tasks s 0 = [] ∧ ¬ Confined s := by
  refine ⟨System.ValidTrace.reachable (by decide), by decide, by decide, by decide, by decide, ?_⟩
  intro h
  have hcount := h.counted 1
  revert hcount
  decide

end EpollReferences
