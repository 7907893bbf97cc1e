import Tcode.EpollReferences

/-! # References on their way to an engine

A closure takes its reference when it is made. It keeps it while the calling thread has not
posted it, and in the operation queue. The unbind closure takes the descriptor of its socket.
-/
namespace EpollReferences

open SupportReferenceCount SupportTransitionSystem EpollMachine

variable {s t : State} {d e : DescriptorId} {k : SocketId} {m : EngineId}

/-! ## Taking a reference, posting -/

theorem addRef_self : (descriptorAddRef s d).descs d =
    { s.descs d with cell := (s.descs d).cell.acquire } := Function.update_self ..

theorem addRef_other (h : e ≠ d) : (descriptorAddRef s d).descs e = s.descs e :=
  Function.update_of_ne h ..

theorem addRef_same (e : DescriptorId) : ((descriptorAddRef s d).descs e).home = home s e ∧
    ((descriptorAddRef s d).descs e).registered = (s.descs e).registered ∧
    ((descriptorAddRef s d).descs e).unbound = (s.descs e).unbound := by
  by_cases he : e = d
  · subst he
    rw [addRef_self]
    exact ⟨rfl, rfl, rfl⟩
  · rw [addRef_other he]
    exact ⟨rfl, rfl, rfl⟩

section StartOn

variable {thread : Option EngineId} {i : Direction} {o : OperationId}

theorem home_startOn (e : DescriptorId) : home (s.startOn thread m i d o) e = home s e :=
  (addRef_same e).1

theorem closures_startOn (e : DescriptorId) : closures (s.startOn thread m i d o) e =
    closures s e + if e = d then 1 else 0 := by
  have hpostings : (s.startOn thread m i d o).postings =
      s.postings ++ [⟨thread, m, .dispatch i d o⟩] := rfl
  have htasks (n : EngineId) : tasks (s.startOn thread m i d o) n = tasks s n := rfl
  have hengines : (s.startOn thread m i d o).engines = s.engines := rfl
  rw [closures, closures, hpostings, home_startOn, htasks, hengines, List.countP_append,
    List.countP_singleton]
  simp only [captures_dispatch]
  omega

theorem free_startOn (h : Free s e) : Free (s.startOn thread m i d o) e := by
  constructor
  · exact h.sockets
  · rw [home_startOn]
    exact h.tasks
  · exact (addRef_same e).2.1.trans h.registered
  · rw [home_startOn]
    exact h.polled

theorem belongs_startOn (h : Belongs s) (hm : home s d = m) :
    Belongs (s.startOn thread m i d o) := by
  constructor
  · intro k e
    rw [home_startOn]
    exact h.sockets k e
  · intro p hp e hdesc
    rw [home_startOn]
    rcases List.mem_append.mp hp with hp | hp
    · exact h.postings p hp e hdesc
    · rw [List.mem_singleton.mp hp] at hdesc ⊢
      rw [← Option.some.inj hdesc]
      exact hm
  · intro n b hb e
    rw [home_startOn]
    exact h.tasks n b hb e
  · intro n e
    rw [home_startOn]
    exact h.closure n e
  · intro n e
    rw [home_startOn]
    exact h.polled n e
  · intro n e hregistered
    rw [home_startOn]
    exact h.registered n e ((addRef_same e).2.1.symm.trans hregistered)

theorem owned_startOn (h : Owned s) : Owned (s.startOn thread m i d o) := by
  constructor
  · exact h.sockets
  · intro k e
    rw [home_startOn]
    exact h.closed k e
  · intro e
    rw [home_startOn]
    exact h.once e
  · intro p hp e
    rcases List.mem_append.mp hp with hp | hp
    · exact h.postings p hp e
    · rw [List.mem_singleton.mp hp]
      simp

end StartOn

/-- A reference is taken for a closure that is about to be posted in the engine of `d`. -/
theorem invariant_startOn (h : Invariant s) (hlive : Live s d) (hm : home s d = m)
    (thread : Option EngineId) (i : Direction) (o : OperationId) :
    Invariant (s.startOn thread m i d o) := by
  have hself : (s.startOn thread m i d o).descs d =
      { s.descs d with cell := (s.descs d).cell.acquire } := addRef_self
  have hunbound : ((s.startOn thread m i d o).descs d).unbound = (s.descs d).unbound :=
    (addRef_same d).2.2
  have hheld := hlive.held.acquire hlive.total
  apply invariant_counted (t := s.startOn thread m i d o) h hlive rfl (home_startOn d)
  · rw [hself]
    exact hlive.failed
  · rw [base, hunbound, closures_startOn, if_pos rfl, hself, ← Nat.add_assoc]
    exact hheld
  · intro hu
    exact free_startOn (hlive.free (hunbound ▸ hu))
  · intro e he
    have hother : (s.startOn thread m i d o).descs e = s.descs e := addRef_other he
    rw [hother, closures_startOn, if_neg he]
    exact ⟨Agrees.refl _, rfl, free_startOn⟩
  · exact belongs_startOn h.belongs hm
  · exact owned_startOn h.owned
  · intro n
    rw [hself, hheld.notDeleted (Nat.succ_pos _)]
    simp only [Bool.toNat_false, ite_self, Int.natCast_zero, Int.add_zero]
    rfl
  · exact h.access_noFault hlive

/-! ## Posting -/

theorem invariant_execute (h : Invariant s) (thread : Option EngineId) (o : OperationId) :
    Invariant (s.execute thread m o) := by
  apply invariant_mirrors (t := s.execute thread m o) h _ rfl
  · intro d
    exact Agrees.refl _
  · intro n
    rfl
  · exact h.noFault
  · refine ⟨rfl, ?_, fun _ => rfl, fun _ => rfl, fun _ => rfl, fun _ => rfl, ?_⟩
    · show (s.postings ++ _).filter _ = _
      rw [List.filter_append]
      exact List.append_nil _
    · intro n d hd
      exact Or.inl hd

theorem tasks_opAdd_perm (a : Task) : (tasks (opAdd s m a) m).Perm (a :: tasks s m) := by
  rw [opAdd, tasks_self, List.append_assoc]
  exact List.perm_middle

theorem tasks_opAdd_other {a : Task} {n : EngineId} (h : n ≠ m) :
    tasks (opAdd s m a) n = tasks s n := tasks_other h

theorem mem_tasks_opAdd {a b : Task} {n : EngineId} :
    b ∈ tasks (opAdd s m a) n ↔ (n = m ∧ b = a) ∨ b ∈ tasks s n := by
  by_cases hn : n = m
  · subst hn
    rw [(tasks_opAdd_perm a).mem_iff]
    simp
  · rw [tasks_opAdd_other hn]
    simp [hn]

theorem frame_opAdd {a : Task} {n : EngineId} :
    ((opAdd s m a).engines n).frame = (s.engines n).frame := by
  by_cases hn : n = m
  · subst hn
    rw [opAdd, engines_self]
  · rw [opAdd, engines_other hn]

theorem engine_opAdd {a : Task} (n : EngineId) :
    ((opAdd s m a).engines n).refcount + (tasks s n).length =
      (s.engines n).refcount + (tasks (opAdd s m a) n).length := by
  by_cases hn : n = m
  · subst hn
    rw [(tasks_opAdd_perm a).length_eq, opAdd, engines_self, List.length_cons]
    show (s.engines n).refcount + 1 + _ = _
    push_cast
    omega
  · rw [tasks_opAdd_other hn, opAdd, engines_other hn]

theorem countP_postings_eraseIdx (q : Posting → Bool) {j : Nat} {p : Posting}
    (hp : s.postings[j]? = some p) :
    s.postings.countP q = (s.postings.eraseIdx j).countP q + if q p = true then 1 else 0 := by
  obtain ⟨hj, rfl⟩ := List.getElem?_eq_some_iff.mp hp
  rw [(List.getElem_cons_eraseIdx_perm hj).symm.countP_eq, List.countP_cons]

/-- A task comes from `s` to the queue of engine `m`, and `u` is what remains. It holds a reference
in `s` already if it is a closure, and a socket gives its descriptor to it if it unbinds. -/
structure Leaves (s u : State) (a : Task) (m : EngineId) : Prop where
  made : u.made = s.made
  descs : u.descs = s.descs
  engines : u.engines = s.engines
  fault : u.fault = s.fault
  kept : ∀ p ∈ u.postings, p ∈ s.postings
  captured : ∀ d, u.postings.countP (fun p => Task.captures d p.task) +
    (if Task.captures d a = true then 1 else 0) =
      s.postings.countP fun p => Task.captures d p.task
  home : ∀ d, Task.desc a = some d → home s d = m
  sockets : ∀ k d, (u.sockets k).desc = some d → u.sockets k = s.sockets k ∧ a ≠ .unbind d
  unbinds : ∀ d, a = .unbind d → ∃ k, (s.sockets k).desc = some d

section Added

variable {u : State} {a : Task} (h : Invariant s) (hu : Leaves s u a m)
include hu

theorem Leaves.tasks_eq (n : EngineId) : tasks u n = tasks s n := by
  rw [tasks, hu.engines, tasks]

theorem Leaves.home_eq (e : DescriptorId) : EpollReferences.home (opAdd u m a) e =
    EpollReferences.home s e := congrArg Descriptor.home (congrFun hu.descs e)

theorem Leaves.mem_tasks {b : Task} {n : EngineId} (hb : b ∈ tasks (opAdd u m a) n) :
    n = m ∧ b = a ∨ b ∈ tasks s n := by
  rwa [mem_tasks_opAdd, hu.tasks_eq] at hb

theorem Leaves.closures_eq (e : DescriptorId) : closures (opAdd u m a) e = closures s e := by
  have hcaptured := hu.captured e
  have hpostings : (opAdd u m a).postings = u.postings := rfl
  rw [closures, closures, hu.home_eq, frame_opAdd, hu.engines, hpostings]
  by_cases he : EpollReferences.home s e = m
  · rw [he, (tasks_opAdd_perm a).countP_eq, List.countP_cons, hu.tasks_eq]
    omega
  · rw [if_neg fun hcaptures => he (hu.home e (desc_of_captures hcaptures))] at hcaptured
    rw [tasks_opAdd_other he, hu.tasks_eq]
    omega

theorem Leaves.free {e : DescriptorId} (hfree : Free s e) : Free (opAdd u m a) e := by
  constructor
  · intro k hk
    exact hfree.sockets k ((hu.sockets k e hk).1 ▸ hk)
  · intro hmem
    rw [hu.home_eq] at hmem
    rcases hu.mem_tasks hmem with ⟨-, hunbind⟩ | hs
    · obtain ⟨k, hk⟩ := hu.unbinds e hunbind.symm
      exact hfree.sockets k hk
    · exact hfree.tasks hs
  · exact (congrArg Descriptor.registered (congrFun hu.descs e)).trans hfree.registered
  · rw [hu.home_eq, frame_opAdd, hu.engines]
    exact hfree.polled

include h

theorem Leaves.belongs : Belongs (opAdd u m a) := by
  constructor
  · intro k e hk
    have hsame := (hu.sockets k e hk).1
    rw [hu.home_eq, h.belongs.sockets k e (hsame ▸ hk), ← hsame]
    rfl
  · intro p hp e hdesc
    rw [hu.home_eq]
    exact h.belongs.postings p (hu.kept p hp) e hdesc
  · intro n b hb e hdesc
    rw [hu.home_eq]
    rcases hu.mem_tasks hb with ⟨rfl, rfl⟩ | hs
    · exact hu.home e hdesc
    · exact h.belongs.tasks n b hs e hdesc
  · intro n e
    rw [hu.home_eq, frame_opAdd, hu.engines]
    exact h.belongs.closure n e
  · intro n e
    rw [hu.home_eq, frame_opAdd, hu.engines]
    exact h.belongs.polled n e
  · intro n e hregistered
    rw [hu.home_eq]
    apply h.belongs.registered n e
    exact (congrArg Descriptor.registered (congrFun hu.descs e)).symm.trans hregistered

theorem Leaves.owned : Owned (opAdd u m a) := by
  constructor
  · intro i j e hi hj
    exact h.owned.sockets i j e ((hu.sockets i e hi).1 ▸ hi) ((hu.sockets j e hj).1 ▸ hj)
  · intro k e hk hmem
    obtain ⟨hsame, hunbind⟩ := hu.sockets k e hk
    rw [hu.home_eq] at hmem
    rcases hu.mem_tasks hmem with ⟨-, heq⟩ | hs
    · exact hunbind heq.symm
    · exact h.owned.closed k e (hsame ▸ hk) hs
  · intro e
    have hs := h.owned.once e
    rw [hu.home_eq]
    by_cases he : EpollReferences.home s e = m
    · rw [he] at hs ⊢
      rw [(tasks_opAdd_perm a).count_eq, hu.tasks_eq, List.count_cons]
      by_cases hunbind : a = .unbind e
      · -- a socket has owned the descriptor so far
        obtain ⟨k, hk⟩ := hu.unbinds e hunbind
        have hclosed := h.owned.closed k e hk
        rw [he] at hclosed
        rw [List.count_eq_zero_of_not_mem hclosed]
        split <;> omega
      · rw [if_neg (by simpa using hunbind)]
        exact hs
    · rw [tasks_opAdd_other he, hu.tasks_eq]
      exact hs
  · intro p hp e
    exact h.owned.postings p (hu.kept p hp) e

theorem invariant_added : Invariant (opAdd u m a) := by
  apply invariant_moved (t := opAdd u m a) h hu.made
  · intro e
    exact congrFun hu.descs e ▸ Agrees.refl _
  · exact hu.closures_eq
  · intro e hfree
    exact hu.free hfree
  · exact hu.belongs h
  · exact hu.owned h
  · intro n
    have hs := engine_opAdd (s := u) (m := m) (a := a) n
    rwa [hu.engines, hu.tasks_eq] at hs
  · exact hu.fault.trans h.noFault

end Added

/-- A task goes from the thread that posts it to the engine. -/
theorem invariant_posted (h : Invariant s) {j : Nat} {p : Posting} (hp : s.postings[j]? = some p) :
    Invariant (opAdd { s with postings := s.postings.eraseIdx j } p.engine p.task) := by
  have hmem : p ∈ s.postings := List.mem_of_getElem? hp
  have hunbind (e : DescriptorId) : p.task ≠ .unbind e := h.owned.postings p hmem e
  refine invariant_added h ⟨rfl, rfl, rfl, rfl, ?_, ?_, ?_, ?_, ?_⟩
  · intro q hq
    exact List.mem_of_mem_eraseIdx hq
  · intro e
    exact (countP_postings_eraseIdx _ hp).symm
  · exact h.belongs.postings p hmem
  · intro k e _
    exact ⟨rfl, hunbind e⟩
  · intro e he
    exact absurd he (hunbind e)

/-! ## Unbinding -/

theorem sockets_self {v : Socket} : (s.setSocket k v).sockets k = v := Function.update_self ..

theorem sockets_other {v : Socket} {j : SocketId} (h : j ≠ k) :
    (s.setSocket k v).sockets j = s.sockets j := Function.update_of_ne h ..

theorem desc_setSocket {v : Socket} (hv : v.desc = none) {j : SocketId}
    (hj : ((s.setSocket k v).sockets j).desc = some d) :
    j ≠ k ∧ (s.setSocket k v).sockets j = s.sockets j := by
  by_cases hjk : j = k
  · rw [hjk, sockets_self, hv] at hj
    cases hj
  · exact ⟨hjk, sockets_other hjk⟩

/-- The socket gives its descriptor to the unbind closure. -/
theorem invariant_unbind (h : Invariant s) (hk : (s.sockets k).desc = some d) :
    Invariant (opAdd (s.setSocket k { s.sockets k with desc := none }) (s.sockets k).engine
      (.unbind d)) := by
  refine invariant_added h ⟨rfl, rfl, rfl, rfl, fun _ hp => hp, fun _ => rfl, ?_, ?_, ?_⟩
  · intro e he
    exact Option.some.inj he ▸ h.belongs.sockets k d hk
  · intro j e hj
    obtain ⟨hjk, hsame⟩ := desc_setSocket rfl hj
    refine ⟨hsame, fun heq => hjk ?_⟩
    exact h.owned.sockets j k e (hsame ▸ hj) (Task.unbind.inj heq ▸ hk)
  · intro e he
    exact ⟨k, Task.unbind.inj he ▸ hk⟩

end EpollReferences
