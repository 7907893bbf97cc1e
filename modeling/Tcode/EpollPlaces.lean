import Tcode.EpollEngineCount
import Tcode.SupportPlacement

/-! # Every operation is in one place

An operation is about to be posted, in an engine (by itself or inside a closure, queued or taken
off the queue), in a queue of a descriptor, or its handler has been called.
-/
namespace EpollReferences

open SupportReferenceCount SupportTransitionSystem SupportPlacement EpollMachine

def Task.operation : Task → Option OperationId
  | .op o | .dispatch _ _ o => some o
  | .unbind _ => none

/-- The operations that are in a place. -/
def held (s : State) : Place → List OperationId
  | .nowhere => []
  | .posting => s.postings.filterMap (Task.operation ·.task)
  | .engine m => (tasks s m).filterMap Task.operation
  | .descriptor d i => (s.descs d).opQueue i
  | .invoked => s.invoked.map Prod.fst

theorem held_posting (s : State) :
    held s .posting = s.postings.filterMap (Task.operation ·.task) := rfl

theorem held_engine (s : State) (m : EngineId) :
    held s (.engine m) = (tasks s m).filterMap Task.operation := rfl

theorem held_descriptor (s : State) (d : DescriptorId) (i : Direction) :
    held s (.descriptor d i) = (s.descs d).opQueue i := rfl

theorem held_invoked (s : State) : held s .invoked = s.invoked.map Prod.fst := rfl

/-- The task is posted, or about to be, or taken off a queue. -/
def InFlight (s : State) (a : Task) : Prop :=
  (∃ p ∈ s.postings, p.task = a) ∨ ∃ m, a ∈ tasks s m

/-- Descriptors that are deleted or not made yet have no operations. -/
def Emptied (s : State) : Prop :=
  ∀ d, s.made ≤ d ∨ (s.descs d).cell.deleted = true → ∀ i, (s.descs d).opQueue i = []

structure Completion (s : State) : Prop where
  placed : Placed .nowhere (held s) s.places
  emptied : Emptied s

variable {s t : State} {d e : DescriptorId} {k : SocketId} {m : EngineId} {o : OperationId}

theorem inFlight_setEngine {v : Engine} {a : Task}
    (htasks : ∀ a ∈ v.opQueue ++ Frame.tasks v.frame, a ∈ tasks s m)
    (ha : InFlight (s.setEngine m v) a) : InFlight s a := by
  rcases ha with hp | ⟨n, hn⟩
  · exact Or.inl hp
  · by_cases hnm : n = m
    · subst hnm
      rw [tasks_self] at hn
      exact Or.inr ⟨n, htasks a hn⟩
    · rw [tasks_other hnm] at hn
      exact Or.inr ⟨n, hn⟩

theorem setDesc_self (s : State) (d : DescriptorId) (v : Descriptor) :
    (s.setDesc d v).descs d = v := Function.update_self ..

theorem setDesc_other {v : Descriptor} (he : e ≠ d) : (s.setDesc d v).descs e = s.descs e :=
  Function.update_of_ne he ..

theorem setPlace_descs (s : State) (o : OperationId) (p : Place) :
    (s.setPlace o p).descs = s.descs := rfl

theorem descriptorCreate_descs_other {registered : Bool} (hd : d ≠ s.made) :
    (descriptorCreate s m k registered).descs d = s.descs d := setDesc_other hd

theorem mem_updated_queue {i j : Direction} {l : List OperationId}
    {f : Direction → List OperationId} (h : o ∈ Function.update f i l j) :
    j = i ∧ o ∈ l ∨ o ∈ f j := by
  by_cases hj : j = i
  · subst hj
    rw [Function.update_self] at h
    exact Or.inl ⟨rfl, h⟩
  · rw [Function.update_of_ne hj] at h
    exact Or.inr h

/-! ## Changes that leave operations where they are -/

theorem emptied_same (h : Emptied s) (hmade : t.made = s.made)
    (hdescs : ∀ d, (t.descs d).cell.deleted = (s.descs d).cell.deleted ∧
      (t.descs d).opQueue = (s.descs d).opQueue) : Emptied t := by
  intro d hd i
  obtain ⟨hcell, hqueue⟩ := hdescs d
  rw [hmade, hcell] at hd
  rw [hqueue]
  exact h d hd i

theorem completion_same (h : Completion s) (hplaces : t.places = s.places)
    (hheld : ∀ p, (held t p).Perm (held s p)) (hmade : t.made = s.made)
    (hdescs : ∀ d, (t.descs d).cell.deleted = (s.descs d).cell.deleted ∧
      (t.descs d).opQueue = (s.descs d).opQueue) : Completion t := by
  constructor
  · rw [hplaces]
    exact h.placed.same fun p _ => hheld p
  · exact emptied_same h.emptied hmade hdescs

/-- An engine goes on, with the operations that it had. -/
theorem completion_setEngine (h : Completion s) {v : Engine}
    (htasks : ((v.opQueue ++ Frame.tasks v.frame).filterMap Task.operation).Perm
      ((tasks s m).filterMap Task.operation)) : Completion (s.setEngine m v) := by
  apply completion_same (t := s.setEngine m v) h rfl
  · intro p
    cases p with
    | engine n =>
      rw [held_engine, held_engine]
      by_cases hn : n = m
      · subst hn
        rw [tasks_self]
        exact htasks
      · rw [tasks_other hn]
    | _ => exact List.Perm.refl _
  · rfl
  · intro d
    exact ⟨rfl, rfl⟩

theorem completion_setFrame (h : Completion s) {f : Frame}
    (htasks : Frame.tasks f = Frame.tasks (s.engines m).frame) : Completion (s.setFrame m f) := by
  apply completion_setEngine h
  rw [htasks]
  exact List.Perm.refl _

theorem completion_setError (h : Completion s) (ec : ErrorCode) : Completion (s.setError o ec) :=
  completion_same h rfl (fun p => by cases p <;> exact List.Perm.refl _) rfl fun _ => ⟨rfl, rfl⟩

theorem completion_access (h : Completion s) : Completion (s.access d) :=
  completion_same h rfl (fun p => by cases p <;> exact List.Perm.refl _) rfl fun _ => ⟨rfl, rfl⟩

theorem completion_setSocket (h : Completion s) {v : Socket} : Completion (s.setSocket k v) :=
  completion_same h rfl (fun p => by cases p <;> exact List.Perm.refl _) rfl fun _ => ⟨rfl, rfl⟩

/-- Descriptors that differ in neither their queues nor their life. -/
theorem completion_setDesc (h : Completion s) {v : Descriptor}
    (hcell : v.cell.deleted = (s.descs d).cell.deleted)
    (hqueue : v.opQueue = (s.descs d).opQueue) : Completion (s.setDesc d v) := by
  have hsame (e : DescriptorId) : ((s.setDesc d v).descs e).cell.deleted =
      (s.descs e).cell.deleted ∧ ((s.setDesc d v).descs e).opQueue = (s.descs e).opQueue := by
    by_cases he : e = d
    · subst he
      rw [setDesc_self]
      exact ⟨hcell, hqueue⟩
    · rw [setDesc_other he]
      exact ⟨rfl, rfl⟩
  apply completion_same (t := s.setDesc d v) h rfl
  · intro p
    cases p with
    | descriptor e i =>
      rw [held_descriptor, (hsame e).2]
      exact List.Perm.refl _
    | _ => exact List.Perm.refl _
  · rfl
  · exact hsame

/-- A new descriptor has no operations. -/
theorem completion_creates {desc : Option DescriptorId} (h : Completion s)
    (hc : Creates s t m k desc) (hnew : (t.descs s.made).opQueue = fun _ => [])
    (hplaces : t.places = s.places) (hinvoked : t.invoked = s.invoked) : Completion t := by
  constructor
  · rw [hplaces]
    apply h.placed.same
    intro p _
    cases p with
    | nowhere => exact List.Perm.refl _
    | posting =>
      rw [held_posting, hc.postings]
      exact List.Perm.refl _
    | engine n =>
      rw [held_engine, hc.queued]
      exact List.Perm.refl _
    | descriptor e i =>
      rw [held_descriptor, held_descriptor]
      by_cases he : e = s.made
      · rw [he, hnew, h.emptied s.made (Or.inl (Nat.le_refl _)) i]
      · rw [hc.others e he]
    | invoked =>
      rw [held_invoked, hinvoked]
      exact List.Perm.refl _
  · intro e he i
    by_cases hes : e = s.made
    · rw [hes, hnew]
    · rw [hc.others e hes] at he ⊢
      apply h.emptied e
      rcases he with hmade | hdeleted
      · rw [hc.made] at hmade
        exact Or.inl (Nat.le_of_succ_le hmade)
      · exact Or.inr hdeleted

theorem completion_create (h : Completion s) (bound : Bool) :
    Completion (s.create (s.sockets k).engine k bound) := by
  cases bound with
  | false =>
    apply completion_creates h (creates_notBound (m := (s.sockets k).engine) (k := k)) _ rfl rfl
    exact notBound_queue
  | true =>
    apply completion_creates h (creates_descriptorCreate (k := k) rfl true) _ rfl rfl
    exact created_queue

/-! ## Operations on their way to an engine -/

theorem filterMap_append_some {α : Type} {f : α → Option OperationId} {l : List α} {a : α}
    (ha : f a = some o) : ((l ++ [a]).filterMap f).Perm (o :: l.filterMap f) := by
  rw [List.filterMap_append, List.filterMap_cons_some ha]
  exact List.perm_append_singleton _ _

/-- An operation that has not been submitted is about to be posted. -/
theorem completion_posting (h : Completion s) (ho : s.places o = .nowhere) {p : Posting}
    (hp : Task.operation p.task = some o) :
    Completion { s.setPlace o .posting with postings := s.postings ++ [p] } := by
  constructor
  · apply h.placed.move (q := .posting) ho nofun
    · exact fun hne => absurd rfl hne
    · exact filterMap_append_some hp
    · intro r _ hr
      cases r with
      | posting => exact absurd rfl hr
      | _ => exact List.Perm.refl _
  · exact emptied_same h.emptied rfl fun _ => ⟨rfl, rfl⟩

theorem completion_startOn (h : Completion s) (ho : s.places o = .nowhere)
    (thread : Option EngineId) (i : Direction) : Completion (s.startOn thread m i d o) :=
  completion_posting (completion_setDesc (completion_access h) (d := d)
    (v := { s.descs d with cell := (s.descs d).cell.acquire }) rfl rfl) ho rfl

theorem held_opAdd_unbind (p : Place) : (held (opAdd s m (.unbind d)) p).Perm (held s p) := by
  cases p with
  | engine n =>
    rw [held_engine, held_engine]
    by_cases hn : n = m
    · subst hn
      exact (tasks_opAdd_perm (.unbind d)).filterMap Task.operation
    · rw [tasks_opAdd_other hn]
  | _ => exact List.Perm.refl _

theorem completion_unbind (h : Completion s) (d : DescriptorId) :
    Completion (opAdd (s.setSocket k { s.sockets k with desc := none }) (s.sockets k).engine
      (.unbind d)) := by
  have hs := completion_setSocket h (k := k) (v := { s.sockets k with desc := none })
  exact completion_same hs rfl held_opAdd_unbind rfl fun _ => ⟨rfl, rfl⟩

/-- The handler of the operation has been called. -/
theorem held_invoke {ec : ErrorCode} (h : t.invoked = s.invoked ++ [(o, ec)]) :
    (held t .invoked).Perm (o :: held s .invoked) := by
  rw [held_invoked, h, List.map_append]
  exact List.perm_append_singleton _ _

theorem perm_eraseIdx {l : List Posting} {j : Nat} {p : Posting} (hp : l[j]? = some p) :
    l.Perm (p :: l.eraseIdx j) := by
  obtain ⟨hj, rfl⟩ := List.getElem?_eq_some_iff.mp hp
  exact (List.getElem_cons_eraseIdx_perm hj).symm

theorem filterMap_cons_perm {α : Type} {f : α → Option OperationId} {l r : List α} {a : α}
    (h : l.Perm (a :: r)) (ha : f a = some o) : (l.filterMap f).Perm (o :: r.filterMap f) := by
  have hperm := h.filterMap f
  rw [List.filterMap_cons_some ha] at hperm
  exact hperm

theorem completion_posted (h : Completion s) {j : Nat} {p : Posting}
    (hp : s.postings[j]? = some p) (ho : Task.operation p.task = some o) :
    Completion ((opAdd { s with postings := s.postings.eraseIdx j } p.engine p.task).setPlace o
      (.engine p.engine)) := by
  have hperm := perm_eraseIdx hp
  have hfrom := filterMap_cons_perm (f := (Task.operation ·.task)) hperm ho
  have hplace : s.places o = .posting :=
    h.placed.place_of_mem nofun (hfrom.mem_iff.mpr List.mem_cons_self)
  constructor
  · apply h.placed.move (q := .engine p.engine) hplace nofun
    · exact fun _ => hfrom
    · exact filterMap_cons_perm (tasks_opAdd_perm p.task) ho
    · intro r hr hr'
      cases r with
      | posting => exact absurd rfl hr
      | engine n =>
        have hn : n ≠ p.engine := fun heq => hr' (congrArg Place.engine heq)
        exact List.Perm.of_eq (congrArg (List.filterMap Task.operation) (tasks_opAdd_other hn))
      | _ => exact List.Perm.refl _
  · exact emptied_same h.emptied rfl fun _ => ⟨rfl, rfl⟩

/-! ## Operations of a descriptor -/

theorem finish_descs (s : State) (d : DescriptorId) (i : Direction) (o : OperationId)
    (ec : ErrorCode) : (s.finish d i o ec).descs = Function.update s.descs d { s.descs d with
      opQueue := Function.update (s.descs d).opQueue i ((s.descs d).opQueue i).tail } := rfl

theorem abort_descs (s : State) (m : EngineId) (d : DescriptorId) : (s.abort m d).descs =
    Function.update s.descs d
      { s.descs d with cell := (s.descs d).cell.release, opQueue := fun _ => [] } := rfl

theorem abort_queue : ((s.abort m d).descs d).opQueue = fun _ => [] := by
  rw [abort_descs, Function.update_self]

theorem abort_descs_other (he : e ≠ d) : (s.abort m d).descs e = s.descs e :=
  Function.update_of_ne he ..

/-- The front operation of a queue is finished. -/
theorem completion_finish (h : Completion s) {i : Direction}
    (ho : ((s.descs d).opQueue i).head? = some o) (ec : ErrorCode) :
    Completion (s.finish d i o ec) := by
  obtain ⟨rest, hqueue⟩ : ∃ rest, (s.descs d).opQueue i = o :: rest :=
    List.head?_eq_some_iff.mp ho
  have hplace : s.places o = .descriptor d i := by
    apply h.placed.place_of_mem (p := .descriptor d i) nofun
    rw [held_descriptor, hqueue]
    exact List.mem_cons_self
  have hself : ((s.finish d i o ec).descs d).opQueue =
      Function.update (s.descs d).opQueue i rest := by
    rw [finish_descs, Function.update_self, hqueue]
    rfl
  have hother (e : DescriptorId) (he : e ≠ d) : (s.finish d i o ec).descs e = s.descs e :=
    Function.update_of_ne he ..
  constructor
  · apply h.placed.move (q := .invoked) hplace nofun
    · intro _
      rw [held_descriptor, held_descriptor, hself, hqueue, Function.update_self]
    · exact held_invoke rfl
    · intro r hr hr'
      cases r with
      | invoked => exact absurd rfl hr'
      | descriptor e j =>
        rw [held_descriptor, held_descriptor]
        by_cases he : e = d
        · subst he
          have hj : j ≠ i := fun heq => hr (heq ▸ rfl)
          rw [hself, Function.update_of_ne hj]
        · rw [hother e he]
      | _ => exact List.Perm.refl _
  · intro e he j
    by_cases hed : e = d
    · subst hed
      have hdead : s.made ≤ e ∨ (s.descs e).cell.deleted = true := by
        rcases he with hmade | hdeleted
        · exact Or.inl hmade
        · rw [finish_descs, Function.update_self] at hdeleted
          exact Or.inr hdeleted
      rw [h.emptied e hdead i] at hqueue
      cases hqueue
    · rw [hother e hed] at he ⊢
      exact h.emptied e he j

/-- The last release hands the operations of the descriptor to the engine. -/
theorem completion_abort (h : Completion s) : Completion (s.abort m d) := by
  have hops : (s.descs d).ops = [Place.descriptor d .read, .descriptor d .write,
      .descriptor d .pri].flatMap (held s) := by
    simp [Descriptor.ops, held]
  have htasks : tasks (s.abort m d) m =
      (s.engines m).opQueue ++ (s.descs d).ops.map .op ++ Frame.tasks (s.engines m).frame := by
    exact tasks_self
  constructor
  · show Placed _ _ (fun o => if o ∈ (s.descs d).ops then .engine m else s.places o)
    rw [hops]
    apply h.placed.gather
    · simp
    · simp
    · simp
    · intro p hp
      have hall : ∀ i, held (s.abort m d) (.descriptor d i) = [] := by
        intro i
        rw [held_descriptor, abort_queue]
      simp only [List.mem_cons, List.not_mem_nil, or_false] at hp
      rcases hp with rfl | rfl | rfl
      · exact hall .read
      · exact hall .write
      · exact hall .pri
    · rw [held_engine, held_engine, htasks, ← hops, tasks, List.append_assoc,
        List.filterMap_append, List.filterMap_append, List.filterMap_append, List.append_assoc]
      apply List.Perm.append_left
      refine List.perm_append_comm.trans (List.Perm.append_left _ ?_)
      rw [List.filterMap_map]
      exact List.Perm.of_eq List.filterMap_some
    · intro r hr hr'
      cases r with
      | engine n =>
        have hn : n ≠ m := fun heq => hr' (congrArg Place.engine heq)
        have hsame : tasks (s.abort m d) n = tasks s n := tasks_other hn
        rw [held_engine, held_engine, hsame]
      | descriptor e i =>
        have he : e ≠ d := by
          intro heq
          subst heq
          apply hr
          cases i <;> simp
        rw [held_descriptor, held_descriptor, abort_descs_other he]
      | _ => exact List.Perm.refl _
  · intro e he i
    by_cases hed : e = d
    · rw [hed, abort_queue]
    · rw [abort_descs_other hed] at he ⊢
      exact h.emptied e he i

theorem completion_release (h : Completion s) : Completion (descriptorRelease s m d) := by
  rw [descriptorRelease]
  by_cases hlast : (s.descs d).cell.refcount = 1
  · rw [if_pos hlast]
    exact completion_abort h
  · rw [if_neg hlast]
    apply completion_setDesc (completion_access h)
    · rw [Cell.release, if_neg hlast]
      rfl
    · rfl

/-! ## Operations are run -/

section OpRun

variable {ops : List Task} {a : Task}

theorem operations_of_drain (hframe : (s.engines m).frame = .within (.drain (a :: ops)))
    (ho : Task.operation a = some o) : (held s (.engine m)).Perm
      (o :: ((s.engines m).opQueue ++ ops).filterMap Task.operation) := by
  rw [held_engine, tasks_of_drain hframe]
  exact filterMap_cons_perm List.perm_middle ho

theorem held_popped {f : Frame} (htasks : Frame.tasks f = ops) :
    held (s.setEngine m (popped s m f)) (.engine m) =
      ((s.engines m).opQueue ++ ops).filterMap Task.operation := by
  rw [held_engine, tasks_self, popped, htasks]

theorem held_popped_other {v : Engine} {p : Place} (hp : p ≠ .engine m) :
    held (s.setEngine m v) p = held s p := by
  cases p with
  | engine n =>
    have hn : n ≠ m := fun heq => hp (congrArg Place.engine heq)
    rw [held_engine, held_engine, tasks_other hn]
  | _ => rfl

theorem completion_opRun_op (h : Completion s)
    (hframe : (s.engines m).frame = .within (.drain (.op o :: ops))) :
    Completion (opRun s m (.op o) ops) := by
  have hfrom := operations_of_drain hframe (o := o) rfl
  have hplace : s.places o = .engine m :=
    h.placed.place_of_mem nofun (hfrom.mem_iff.mpr List.mem_cons_self)
  constructor
  · apply h.placed.move (q := .invoked) hplace nofun
    · intro _
      have hleft : held (opRun s m (.op o) ops) (.engine m) =
          ((s.engines m).opQueue ++ ops).filterMap Task.operation :=
        held_popped (f := .within (.drain ops)) rfl
      rw [hleft]
      exact hfrom
    · exact held_invoke rfl
    · intro r hr hr'
      cases r with
      | invoked => exact absurd rfl hr'
      | engine n => exact List.Perm.of_eq (held_popped_other hr)
      | _ => exact List.Perm.refl _
  · exact emptied_same h.emptied rfl fun _ => ⟨rfl, rfl⟩

theorem completion_opRun_dispatch (h : Completion s) {i : Direction} (hlive : Live s d)
    (hframe : (s.engines m).frame = .within (.drain (.dispatch i d o :: ops))) :
    Completion (opRun s m (.dispatch i d o) ops) := by
  have hfrom := operations_of_drain hframe (o := o) rfl
  have hplace : s.places o = .engine m :=
    h.placed.place_of_mem (by simp) (hfrom.mem_iff.mpr List.mem_cons_self)
  generalize ht : opRun s m (.dispatch i d o) ops = t
  have hself : (t.descs d).cell = (s.descs d).cell ∧ (t.descs d).opQueue =
      Function.update (s.descs d).opQueue i ((s.descs d).opQueue i ++ [o]) := by
    rw [← ht, opRun_dispatch_eq, setPlace_descs, setDesc_self]
    exact ⟨rfl, rfl⟩
  have hother (e : DescriptorId) (he : e ≠ d) : t.descs e = s.descs e := by
    rw [← ht]
    exact Function.update_of_ne he ..
  have hengines : t.engines = (s.setEngine m
      (popped s m (.dispatching d [i] (.drain ops)))).engines := by
    rw [← ht, opRun_dispatch_eq]
    rfl
  have hheld (n : EngineId) : held t (.engine n) = held (s.setEngine m
      (popped s m (.dispatching d [i] (.drain ops)))) (.engine n) := by
    rw [held_engine, held_engine, tasks, hengines, tasks]
  have hrest : t.postings = s.postings ∧ t.invoked = s.invoked ∧ t.made = s.made ∧
      t.places = Function.update s.places o (.descriptor d i) := by
    rw [← ht]
    exact ⟨rfl, rfl, rfl, rfl⟩
  obtain ⟨hpostings, hinvoked, hmade, hplaces⟩ := hrest
  constructor
  · rw [hplaces]
    apply h.placed.move (q := .descriptor d i) hplace (by simp)
    · intro _
      rw [hheld, held_popped rfl]
      exact hfrom
    · rw [held_descriptor, held_descriptor, hself.2, Function.update_self]
      exact List.perm_append_singleton _ _
    · intro r hr hr'
      cases r with
      | nowhere => exact List.Perm.refl _
      | posting =>
        rw [held_posting, hpostings]
        exact List.Perm.refl _
      | engine n =>
        rw [hheld, held_popped_other hr]
      | descriptor e j =>
        rw [held_descriptor, held_descriptor]
        by_cases he : e = d
        · subst he
          have hj : j ≠ i := fun heq => hr' (heq ▸ rfl)
          rw [hself.2, Function.update_of_ne hj]
        · rw [hother e he]
      | invoked =>
        rw [held_invoked, hinvoked]
        exact List.Perm.refl _
  · intro e he j
    by_cases hed : e = d
    · subst hed
      rw [hmade, hself.1] at he
      rcases he with hmade' | hdeleted
      · exact absurd hlive.made (Nat.not_lt.mpr hmade')
      · have hkept := hlive.notDeleted
        rw [hkept] at hdeleted
        cases hdeleted
    · rw [hmade, hother e hed] at he
      rw [hother e hed]
      exact h.emptied e he j

/-- The unbind closure has run, up to the release. -/
theorem completion_unbound (h : Completion s)
    (hframe : (s.engines m).frame = .within (.drain (.unbind d :: ops))) :
    Completion (((s.setEngine m (popped s m (.within (.drain ops)))).access d).setDesc d
      { s.descs d with fd := false, registered := none, unbound := true }) := by
  have hpopped : Completion (s.setEngine m (popped s m (.within (.drain ops)))) := by
    apply completion_setEngine h
    rw [tasks_of_drain hframe, popped, List.filterMap_append, List.filterMap_append]
    exact List.Perm.refl _
  exact completion_setDesc (completion_access hpopped) rfl rfl

theorem completion_opRun_unbind (h : Completion s)
    (hframe : (s.engines m).frame = .within (.drain (.unbind d :: ops))) :
    Completion (opRun s m (.unbind d) ops) :=
  completion_release (completion_unbound h hframe)

end OpRun

/-! ## Runs -/

/-- The operation of a connect waits at a new descriptor. -/
theorem completion_connecting (h : Completion s) (ho : s.places o = .nowhere)
    (hlive : d < s.made ∧ (s.descs d).cell.deleted = false) {i : Direction}
    (hqueue : (s.descs d).opQueue i = []) :
    Completion ((s.setDesc d { s.descs d with
      opQueue := Function.update (s.descs d).opQueue i [o] }).setPlace o (.descriptor d i)) := by
  generalize ht : (s.setDesc d { s.descs d with
    opQueue := Function.update (s.descs d).opQueue i [o] }).setPlace o (.descriptor d i) = t
  have hself : (t.descs d).cell = (s.descs d).cell ∧
      (t.descs d).opQueue = Function.update (s.descs d).opQueue i [o] := by
    rw [← ht, setPlace_descs, setDesc_self]
    exact ⟨rfl, rfl⟩
  have hother (e : DescriptorId) (he : e ≠ d) : t.descs e = s.descs e := by
    rw [← ht]
    exact Function.update_of_ne he ..
  have hmade : t.made = s.made := by rw [← ht]; rfl
  constructor
  · have hmoved : Placed .nowhere (held t) (Function.update s.places o (.descriptor d i)) := by
      apply h.placed.move (q := .descriptor d i) ho nofun
      · exact fun hne => absurd rfl hne
      · rw [held_descriptor, held_descriptor, hself.2, hqueue, Function.update_self]
      · intro r _ hr
        cases r with
        | descriptor e j =>
          rw [held_descriptor, held_descriptor]
          by_cases he : e = d
          · subst he
            have hj : j ≠ i := fun heq => hr (heq ▸ rfl)
            rw [hself.2, Function.update_of_ne hj]
          · rw [hother e he]
        | _ =>
          rw [← ht]
          exact List.Perm.refl _
    rw [← ht] at hmoved ⊢
    exact hmoved
  · intro e he j
    by_cases hed : e = d
    · subst hed
      rw [hmade, hself.1] at he
      rcases he with hmade' | hdeleted
      · exact absurd hlive.1 (Nat.not_lt.mpr hmade')
      · have hkept := hlive.2
        rw [hkept] at hdeleted
        cases hdeleted
    · rw [hmade, hother e hed] at he
      rw [hother e hed]
      exact h.emptied e he j

theorem completion_call (h : Completion s) (thread : Option EngineId) {c : Call}
    (hc : c.Allowed s) : Completion (c.effect thread s) := by
  obtain ⟨_, hfresh⟩ := hc
  cases c with
  | socket k m => exact completion_setSocket h
  | execute m o => exact completion_posting h (hfresh o rfl).1 rfl
  | connect k o r =>
    have ho := (hfresh o rfl).1
    cases r with
    | failed ec => exact completion_posting (completion_setError h ec) ho rfl
    | notBound ec =>
      exact completion_posting (completion_setError (completion_create h false) ec) ho rfl
    | started =>
      have hnew : (s.create (s.sockets k).engine k true).descs s.made =
          .new (s.sockets k).engine true := created_self
      apply completion_connecting (completion_create h true) ho
      · rw [hnew]
        exact ⟨Nat.lt_succ_self _, rfl⟩
      · rw [hnew]
        rfl
  | openSocket k bound => exact completion_create h bound
  | start k i o =>
    simp only [Call.effect]
    split
    · exact h
    · exact completion_startOn h (hfresh o rfl).1 thread i
  | accept k o accepted =>
    simp only [Call.effect]
    split
    · exact h
    · have haccepts : Completion
          { s with accepts := Function.update s.accepts o (some accepted) } :=
        completion_same h rfl (fun p => by cases p <;> exact List.Perm.refl _) rfl
          fun _ => ⟨rfl, rfl⟩
      exact completion_startOn haccepts (hfresh o rfl).1 thread .read
  | udpWriteNull k o r =>
    have ho := (hfresh o rfl).1
    cases r with
    | noFile ec => exact completion_posting (completion_setError h ec) ho rfl
    | notBound ec =>
      exact completion_posting (completion_setError (completion_create h false) ec) ho rfl
    | opened => exact completion_startOn (completion_create h true) ho thread .write
  | udpReadNull k o =>
    exact completion_posting (completion_setError h .invalid) (hfresh o rfl).1 rfl
  | unbind k =>
    simp only [Call.effect]
    split
    · exact h
    · exact completion_unbind h _

theorem completion_passed (h : Completion s) {i : Direction} {dirs : List Direction}
    {p : Position} (hframe : (s.engines m).frame = .dispatching d (i :: dirs) p) :
    Completion ((s.access d).setFrame m (.dispatching d dirs p)) := by
  apply completion_setFrame (completion_access h)
  rw [access_engines, hframe]
  rfl

theorem completion_dispatchTurn (h : Completion s) (hs : Invariant s) {i : Direction}
    {dirs : List Direction} {p : Position}
    (hframe : (s.engines m).frame = .dispatching d (i :: dirs) p)
    (ho : ((s.descs d).opQueue i).head? = some o) (r : PostResult)
    (hr : Confines s (.postProc m r)) : Completion (dispatchTurn s m d i dirs p o r) := by
  have haccess := completion_access h (d := d)
  cases r with
  | again => exact completion_passed h hframe
  | done ec => exact completion_finish haccess ho ec
  | accepted k registered =>
    have hlive := live_of_dispatching hs hframe
    have hne : d ≠ s.made := Nat.ne_of_lt hlive.made
    have hcreated : Completion (descriptorCreate (s.access d) m k registered) := by
      have hc := creates_descriptorCreate (s := s.access d) (k := k) hr registered
      apply completion_creates haccess hc _ rfl rfl
      exact created_queue
    apply completion_finish hcreated
    rw [descriptorCreate_descs_other (s := s.access d) hne]
    exact ho

theorem completion_step (h : Completion s) (hs : Invariant s) {x : Step} (hx : Enabled s x)
    (hc : Confines s x) : Completion (next s x) := by
  cases x with
  | call thread c => exact completion_call h thread hx.1
  | post j =>
    simp only [next]
    split
    · exact h
    · next p hp =>
      obtain ⟨thread, n, a⟩ := p
      cases a with
      | op o => exact completion_posted h hp rfl
      | dispatch i d o => exact completion_posted h hp rfl
      | unbind d => exact absurd rfl (hs.owned.postings _ (List.mem_of_getElem? hp) d)
  | timers m n => exact completion_setEngine h (List.Perm.refl _)
  | run m =>
    have hframe : (s.engines m).frame = .stopped := hx
    apply completion_setFrame h
    rw [hframe]
    rfl
  | check m =>
    have hframe : (s.engines m).frame = .loop := hx.2
    simp only [next]
    split
    all_goals
      apply completion_setFrame h
      rw [hframe]
      rfl
  | epollWait m evs executeOp =>
    apply completion_setFrame h
    rw [hx.2.1]
    rfl
  | event m =>
    simp only [next]
    split
    · next e evs x hframe =>
      apply completion_setFrame (completion_access h)
      rw [access_engines, hframe]
      rfl
    · exact h
  | leave m =>
    simp only [next]
    split
    · next hframe =>
      apply completion_setEngine h
      rw [tasks, hframe]
      exact List.Perm.of_eq (congrArg _ (List.append_nil _).symm)
    · apply completion_setFrame h
      rw [tasks_of_atEnd hx.2]
      rfl
  | opRun m =>
    simp only [next]
    split
    · next a ops hframe =>
      cases a with
      | op o => exact completion_opRun_op h hframe
      | dispatch i d o =>
        have hlive := (live_of_mem hs (mem_tasks_of_drain hframe) (d := d) rfl).1
        exact completion_opRun_dispatch h hlive hframe
      | unbind d => exact completion_opRun_unbind h hframe
    · exact h
  | postProc m r =>
    simp only [next]
    split
    · next d i dirs p o hframe ho =>
      rw [State.front, hframe] at ho
      exact completion_dispatchTurn h hs hframe ho r hc
    · exact h
  | advance m =>
    simp only [next]
    split
    · next d dirs p hframe =>
      cases dirs with
      | cons i dirs => exact completion_passed h hframe
      | nil =>
        cases p with
        | events evs x =>
          apply completion_setFrame h
          rw [hframe]
          rfl
        | drain ops =>
          show Completion ((descriptorRelease s m d).setFrame m (.within (.drain ops)))
          rw [release_setFrame]
          apply completion_release
          apply completion_setFrame h
          rw [hframe]
          rfl
    · exact h

end EpollReferences
