import Mathlib.Data.List.Perm.Basic
import Tcode.EpollMachine

/-! # References to descriptors, and the reference count of an engine

A descriptor is held by its base reference, until its unbind closure has run, and by the
closures of reads, writes and accepts. This needs that a descriptor is used through the engine
that made it, which is so while accepted sockets belong to the engine that accepts them.
-/
namespace EpollReferences

open SupportReferenceCount SupportTransitionSystem EpollMachine

/-! ## Where descriptors are mentioned -/

def Position.tasks : Position → List Task
  | .events _ _ => []
  | .drain ops => ops

def Position.polled : Position → List DescriptorId
  | .events evs _ => evs.map Event.desc
  | .drain _ => []

/-- The operations that the loop thread has taken off its queue and not run. -/
def Frame.tasks : Frame → List Task
  | .within p | .dispatching _ _ p => Position.tasks p
  | _ => []

/-- The descriptors whose events the loop thread still has to work off. -/
def Frame.polled : Frame → List DescriptorId
  | .within p => Position.polled p
  | .dispatching d _ (.events evs x) => d :: Position.polled (.events evs x)
  | _ => []

/-- The descriptor of the closure that the loop thread runs. -/
def Frame.closure : Frame → Option DescriptorId
  | .dispatching d _ (.drain _) => some d
  | _ => none

def Task.desc : Task → Option DescriptorId
  | .op _ => none
  | .dispatch _ d _ | .unbind d => some d

/-- The task is a closure that holds a reference of the descriptor. -/
def Task.captures (d : DescriptorId) : Task → Bool
  | .dispatch _ e _ => e = d
  | _ => false

theorem captures_dispatch {d e : DescriptorId} {i : Direction} {o : OperationId} :
    Task.captures e (.dispatch i d o) = true ↔ e = d := by
  simp [Task.captures, eq_comm]

theorem desc_of_captures {d : DescriptorId} {a : Task} (h : Task.captures d a = true) :
    Task.desc a = some d := by
  cases a with
  | op o => cases h
  | dispatch i e o => exact congrArg some (captures_dispatch.mp h).symm
  | unbind e => cases h

theorem captures_of_desc {d : DescriptorId} {a : Task} (h : Task.desc a = some d)
    (hunbind : a ≠ .unbind d) : Task.captures d a = true := by
  cases a with
  | op o => cases h
  | dispatch i e o => exact captures_dispatch.mpr (Option.some.inj h).symm
  | unbind e => exact absurd (congrArg Task.unbind (Option.some.inj h)) hunbind

section Places

variable (s : State)

/-- The operations that engine `m` has to run. -/
def tasks (m : EngineId) : List Task := (s.engines m).opQueue ++ Frame.tasks (s.engines m).frame

variable (d : DescriptorId)

def home : EngineId := (s.descs d).home

/-- The closures of the descriptor that are posted, or about to be, and not finished. -/
def closures : Nat :=
  s.postings.countP (fun p => Task.captures d p.task) +
    (tasks s (home s d)).countP (Task.captures d) +
    if Frame.closure (s.engines (home s d)).frame = some d then 1 else 0

def base : Nat := if (s.descs d).unbound then 0 else 1

/-- Something that ends with the unbind closure refers to the descriptor. -/
structure Free : Prop where
  sockets : ∀ k, (s.sockets k).desc ≠ some d
  tasks : .unbind d ∉ tasks s (home s d)
  registered : (s.descs d).registered = none
  polled : d ∉ Frame.polled (s.engines (home s d)).frame

/-- The descriptor holds its reference of engine `m`. -/
def owns (m : EngineId) : Bool := (s.descs d).home = m && !(s.descs d).cell.deleted

inductive Account : Prop where
  | unborn (made : s.made ≤ d) (none : closures s d = 0) (free : Free s d)
      (notDeleted : (s.descs d).unbound = false)
  | failed (made : d < s.made) (failed : (s.descs d).failed = true)
      (held : Held (s.descs d).cell 0) (none : closures s d = 0) (free : Free s d)
  | born (made : d < s.made) (failed : (s.descs d).failed = false)
      (held : Held (s.descs d).cell (base s d + closures s d))
      (free : (s.descs d).unbound = true → Free s d)

end Places

/-- Descriptors are mentioned in their own engine only. -/
structure Belongs (s : State) : Prop where
  sockets : ∀ k d, (s.sockets k).desc = some d → home s d = (s.sockets k).engine
  postings : ∀ p ∈ s.postings, ∀ d, Task.desc p.task = some d → home s d = p.engine
  tasks : ∀ m, ∀ t ∈ tasks s m, ∀ d, Task.desc t = some d → home s d = m
  closure : ∀ m d, Frame.closure (s.engines m).frame = some d → home s d = m
  polled : ∀ m, ∀ d ∈ Frame.polled (s.engines m).frame, home s d = m
  registered : ∀ m d, (s.descs d).registered = some m → home s d = m

/-- One socket or one unbind closure owns a descriptor. -/
structure Owned (s : State) : Prop where
  sockets : ∀ j k d, (s.sockets j).desc = some d → (s.sockets k).desc = some d → j = k
  closed : ∀ k d, (s.sockets k).desc = some d → .unbind d ∉ tasks s (home s d)
  once : ∀ d, (tasks s (home s d)).count (.unbind d) ≤ 1
  postings : ∀ p ∈ s.postings, ∀ d, p.task ≠ .unbind d

structure Invariant (s : State) : Prop where
  accounts : ∀ d, Account s d
  belongs : Belongs s
  owned : Owned s
  engine : ∀ m, (s.engines m).refcount =
    (tasks s m).length + Nat.count (owns s · m = true) s.made
  noFault : s.fault = false

variable {s t : State} {d e : DescriptorId} {k : SocketId} {m : EngineId}

/-! ## What an account says -/

/-- A descriptor that is in use. -/
structure Live (s : State) (d : DescriptorId) : Prop where
  made : d < s.made
  failed : (s.descs d).failed = false
  held : Held (s.descs d).cell (base s d + closures s d)
  total : 0 < base s d + closures s d
  free : (s.descs d).unbound = true → Free s d

theorem Live.notDeleted (h : Live s d) : (s.descs d).cell.deleted = false :=
  h.held.notDeleted h.total

theorem base_of_unbound (h : (s.descs d).unbound = false) : base s d = 1 := by
  rw [base, h]
  rfl

theorem Account.live (h : Account s d) (hpos : 0 < closures s d ∨ ¬ Free s d) : Live s d := by
  cases h with
  | unborn made none free =>
    rcases hpos with hpos | hfree
    · omega
    · exact absurd free hfree
  | failed made failed held none free =>
    rcases hpos with hpos | hfree
    · omega
    · exact absurd free hfree
  | born made failed held free =>
    refine ⟨made, failed, held, ?_, free⟩
    rcases hpos with hpos | hfree
    · omega
    · have hunbound : (s.descs d).unbound = false := by
        apply Bool.eq_false_iff.mpr
        intro hunbound
        exact hfree (free hunbound)
      rw [base_of_unbound hunbound]
      omega

/-- Two descriptors that differ in what their queues hold. -/
structure Agrees (v w : Descriptor) : Prop where
  cell : v.cell = w.cell
  registered : v.registered = w.registered
  home : v.home = w.home
  failed : v.failed = w.failed
  unbound : v.unbound = w.unbound

theorem Agrees.refl (v : Descriptor) : Agrees v v := ⟨rfl, rfl, rfl, rfl, rfl⟩

theorem Account.moved (h : Account s d) (hmade : t.made = s.made)
    (hdesc : Agrees (t.descs d) (s.descs d)) (hclosures : closures t d = closures s d)
    (hfree : Free s d → Free t d) : Account t d := by
  have hbase : base t d = base s d := by rw [base, hdesc.unbound, base]
  cases h with
  | unborn made none free notDeleted =>
    exact .unborn (hmade ▸ made) (hclosures.trans none) (hfree free)
      (hdesc.unbound.trans notDeleted)
  | failed made failed held none free =>
    refine .failed (hmade ▸ made) (hdesc.failed.trans failed) ?_ (hclosures.trans none)
      (hfree free)
    rw [hdesc.cell]
    exact held
  | born made failed held free =>
    refine .born (hmade ▸ made) (hdesc.failed.trans failed) ?_ ?_
    · rw [hbase, hclosures, hdesc.cell]
      exact held
    · intro hunbound
      exact hfree (free (hdesc.unbound ▸ hunbound))

theorem owns_congr (hdesc : Agrees (t.descs d) (s.descs d)) : owns t d m = owns s d m := by
  rw [owns, hdesc.home, hdesc.cell, owns]

/-- The references of descriptors stay as they are. -/
theorem invariant_moved (h : Invariant s) (hmade : t.made = s.made)
    (hdescs : ∀ d, Agrees (t.descs d) (s.descs d)) (hclosures : ∀ d, closures t d = closures s d)
    (hfree : ∀ d, Free s d → Free t d) (hbelongs : Belongs t) (howned : Owned t)
    (hengine : ∀ m, (t.engines m).refcount + (tasks s m).length =
      (s.engines m).refcount + (tasks t m).length)
    (hfault : t.fault = false) : Invariant t := by
  constructor
  · intro d
    exact (h.accounts d).moved hmade (hdescs d) (hclosures d) (hfree d)
  · exact hbelongs
  · exact howned
  · intro m
    have hcount : Nat.count (owns t · m = true) s.made = Nat.count (owns s · m = true) s.made := by
      apply count_congr
      intro d _
      exact owns_congr (hdescs d)
    have hs := h.engine m
    have hmoved := hengine m
    rw [hmade, hcount]
    omega
  · exact hfault

/-- One descriptor in use is counted anew. -/
theorem invariant_counted (h : Invariant s) (hlive : Live s d) (hmade : t.made = s.made)
    (hhome : home t d = home s d) (hfailed : (t.descs d).failed = false)
    (hheld : Held (t.descs d).cell (base t d + closures t d))
    (hfree : (t.descs d).unbound = true → Free t d)
    (hothers : ∀ e, e ≠ d → Agrees (t.descs e) (s.descs e) ∧ closures t e = closures s e ∧
      (Free s e → Free t e))
    (hbelongs : Belongs t) (howned : Owned t)
    (hengine : ∀ m, (t.engines m).refcount + (tasks s m).length +
      (if home s d = m then (t.descs d).cell.deleted.toNat else 0) =
        (s.engines m).refcount + (tasks t m).length)
    (hfault : t.fault = false) : Invariant t := by
  constructor
  · intro e
    by_cases he : e = d
    · subst he
      exact .born (hmade ▸ hlive.made) hfailed hheld hfree
    · obtain ⟨hdesc, hclosures, hfree'⟩ := hothers e he
      exact (h.accounts e).moved hmade hdesc hclosures hfree'
  · exact hbelongs
  · exact howned
  · intro m
    have hs := h.engine m
    have hmoved := hengine m
    rw [hmade]
    by_cases hless : home s d = m ∧ (t.descs d).cell.deleted = true
    · obtain ⟨hm, hdeleted⟩ := hless
      have hhad : owns s d m = true := by
        rw [owns, hlive.notDeleted]
        simpa [home] using hm
      have hhas : owns t d m = false := by
        rw [owns, hdeleted]
        simp
      have hcount := count_clear (m := s.made) (p := (owns s · m)) (q := (owns t · m)) hlive.made
        hhad hhas fun e _ he => owns_congr (hothers e he).1
      rw [if_pos hm, hdeleted, Bool.toNat_true] at hmoved
      omega
    · have hcount : Nat.count (owns t · m = true) s.made =
          Nat.count (owns s · m = true) s.made := by
        apply count_congr
        intro e _
        by_cases he : e = d
        · subst he
          by_cases hm : home s e = m
          · have hnot : (t.descs e).cell.deleted = false := by
              apply Bool.eq_false_iff.mpr
              intro hdeleted
              exact hless ⟨hm, hdeleted⟩
            rw [owns, owns, hnot, hlive.notDeleted]
            show (decide (home t e = m) && _) = (decide (home s e = m) && _)
            rw [hhome]
          · have hs : owns s e m = false := by simp [owns, show ¬ (s.descs e).home = m from hm]
            have ht : owns t e m = false := by
              have hm' : ¬ (t.descs e).home = m := fun heq => hm (hhome ▸ heq)
              simp [owns, hm']
            rw [hs, ht]
        · exact owns_congr (hothers e he).1
      have hzero : (if home s d = m then (t.descs d).cell.deleted.toNat else 0) = 0 := by
        by_cases hm : home s d = m
        · rw [if_pos hm]
          cases hdeleted : (t.descs d).cell.deleted with
          | false => rfl
          | true => exact absurd ⟨hm, hdeleted⟩ hless
        · exact if_neg hm
      omega
  · exact hfault

/-! ## Changes that no reference takes part in -/

/-- The task is a closure. -/
def Task.refers : Task → Bool
  | .op _ => false
  | _ => true

section Refers

variable {l r : List Task} {a : Task}

theorem refers_of_desc (h : Task.desc a = some d) : Task.refers a = true := by
  cases a with
  | op o => cases h
  | dispatch i d o => rfl
  | unbind d => rfl

theorem mem_of_refers (h : l.filter Task.refers = r.filter Task.refers)
    (ha : Task.refers a = true) (hl : a ∈ l) : a ∈ r := by
  have hmem : a ∈ l.filter Task.refers := List.mem_filter.mpr ⟨hl, ha⟩
  rw [h] at hmem
  exact (List.mem_filter.mp hmem).1

theorem countP_captures_filter (l : List Task) :
    (l.filter Task.refers).countP (Task.captures d) = l.countP (Task.captures d) := by
  rw [List.countP_filter]
  apply List.countP_congr
  intro a _
  cases a <;> simp [Task.captures, Task.refers]

theorem count_unbind_filter (l : List Task) :
    (l.filter Task.refers).count (.unbind d) = l.count (.unbind d) := by
  apply List.count_filter
  rfl

theorem filter_ops (os : List OperationId) : (os.map Task.op).filter Task.refers = [] := by
  induction os with
  | nil => rfl
  | cons o os ih => exact ih

end Refers

/-- The closures, the sockets and the registered files of `t` are those of `s`. -/
structure Mirrors (s t : State) : Prop where
  sockets : t.sockets = s.sockets
  postings : t.postings.filter (Task.refers ·.task) = s.postings.filter (Task.refers ·.task)
  homes : ∀ d, home t d = home s d
  registered : ∀ d, (t.descs d).registered = (s.descs d).registered
  queued : ∀ n, (tasks t n).filter Task.refers = (tasks s n).filter Task.refers
  running : ∀ n, Frame.closure (t.engines n).frame = Frame.closure (s.engines n).frame
  polled : ∀ n, ∀ d ∈ Frame.polled (t.engines n).frame,
    d ∈ Frame.polled (s.engines n).frame ∨ (s.descs d).registered = some n

theorem countP_postings (l : List Posting) :
    (l.filter (Task.refers ·.task)).countP (fun p => Task.captures d p.task) =
      l.countP (fun p => Task.captures d p.task) := by
  rw [List.countP_filter]
  apply List.countP_congr
  rintro ⟨_, _, a⟩ _
  cases a <;> simp [Task.captures, Task.refers]

section

variable (h : Mirrors s t)
include h

theorem Mirrors.closures_eq (d : DescriptorId) : closures t d = closures s d := by
  rw [closures, closures, h.homes, h.running, ← countP_postings,
    h.postings, countP_postings, ← countP_captures_filter (tasks t _), h.queued,
    countP_captures_filter]

theorem Mirrors.mem_tasks {n : EngineId} {a : Task} (ha : a ∈ tasks t n)
    (hdesc : Task.desc a = some d) : a ∈ tasks s n :=
  mem_of_refers (h.queued n) (refers_of_desc hdesc) ha

theorem Mirrors.mem_postings {p : Posting} (hp : p ∈ t.postings)
    (hdesc : Task.desc p.task = some d) : p ∈ s.postings := by
  have hmem : p ∈ t.postings.filter (Task.refers ·.task) :=
    List.mem_filter.mpr ⟨hp, refers_of_desc hdesc⟩
  rw [h.postings] at hmem
  exact (List.mem_filter.mp hmem).1

theorem Mirrors.free (hfree : Free s d) : Free t d := by
  constructor
  · rw [h.sockets]
    exact hfree.sockets
  · intro hmem
    rw [h.homes] at hmem
    exact hfree.tasks (h.mem_tasks hmem rfl)
  · rw [h.registered]
    exact hfree.registered
  · intro hd
    rw [h.homes] at hd
    rcases h.polled _ d hd with hd | hregistered
    · exact hfree.polled hd
    · rw [hfree.registered] at hregistered
      cases hregistered

theorem Mirrors.belongs (hs : Belongs s) : Belongs t := by
  constructor
  · intro k d
    rw [h.sockets, h.homes]
    exact hs.sockets k d
  · intro p hp d hdesc
    rw [h.homes]
    exact hs.postings p (h.mem_postings hp hdesc) d hdesc
  · intro n a ha d hdesc
    rw [h.homes]
    exact hs.tasks n a (h.mem_tasks ha hdesc) d hdesc
  · intro n d
    rw [h.homes, h.running]
    exact hs.closure n d
  · intro n d hd
    rw [h.homes]
    rcases h.polled n d hd with hd | hregistered
    · exact hs.polled n d hd
    · exact hs.registered n d hregistered
  · intro n d
    rw [h.homes, h.registered]
    exact hs.registered n d

theorem Mirrors.owned (hs : Owned s) : Owned t := by
  constructor
  · rw [h.sockets]
    exact hs.sockets
  · intro k d hk hmem
    rw [h.sockets] at hk
    rw [h.homes] at hmem
    exact hs.closed k d hk (h.mem_tasks hmem rfl)
  · intro d
    rw [h.homes, ← count_unbind_filter, h.queued, count_unbind_filter]
    exact hs.once d
  · intro p hp d heq
    have hdesc : Task.desc p.task = some d := by rw [heq]; rfl
    exact hs.postings p (h.mem_postings hp hdesc) d heq

end

theorem invariant_mirrors (h : Invariant s) (hmirrors : Mirrors s t) (hmade : t.made = s.made)
    (hdescs : ∀ d, Agrees (t.descs d) (s.descs d))
    (hengine : ∀ m, (t.engines m).refcount + (tasks s m).length =
      (s.engines m).refcount + (tasks t m).length)
    (hfault : t.fault = false) : Invariant t :=
  invariant_moved h hmade hdescs hmirrors.closures_eq (fun _ => hmirrors.free)
    (hmirrors.belongs h.belongs) (hmirrors.owned h.owned) hengine hfault

/-- A state that differs in operations only. -/
theorem invariant_same (h : Invariant s) (hengines : t.engines = s.engines)
    (hmade : t.made = s.made) (hsockets : t.sockets = s.sockets)
    (hpostings : t.postings = s.postings) (hfault : t.fault = false)
    (hdescs : ∀ d, Agrees (t.descs d) (s.descs d)) : Invariant t := by
  have htasks (m : EngineId) : tasks t m = tasks s m := by rw [tasks, hengines, tasks]
  refine invariant_mirrors h ?_ hmade hdescs ?_ hfault
  · constructor
    · exact hsockets
    · rw [hpostings]
    · exact fun d => (hdescs d).home
    · exact fun d => (hdescs d).registered
    · intro n
      rw [htasks]
    · intro n
      rw [hengines]
    · intro n d hd
      rw [hengines] at hd
      exact Or.inl hd
  · intro m
    rw [hengines, htasks]

theorem Invariant.access_noFault (h : Invariant s) (hlive : Live s d) :
    (s.fault || (s.descs d).cell.deleted) = false := by
  rw [h.noFault, hlive.notDeleted]
  rfl

theorem invariant_access (h : Invariant s) (hlive : Live s d) : Invariant (s.access d) :=
  invariant_same h rfl rfl rfl rfl (h.access_noFault hlive) fun _ => Agrees.refl _

theorem invariant_setPlace (h : Invariant s) (o : OperationId) (p : Place) :
    Invariant (s.setPlace o p) :=
  invariant_same h rfl rfl rfl rfl h.noFault fun _ => Agrees.refl _

theorem invariant_setError (h : Invariant s) (o : OperationId) (ec : ErrorCode) :
    Invariant (s.setError o ec) :=
  invariant_same h rfl rfl rfl rfl h.noFault fun _ => Agrees.refl _

theorem invariant_invoke (h : Invariant s) (o : OperationId) : Invariant (s.invoke o) :=
  invariant_same h rfl rfl rfl rfl h.noFault fun _ => Agrees.refl _

theorem agrees_setDesc {v : Descriptor} (hv : Agrees v (s.descs d)) (e : DescriptorId) :
    Agrees ((s.setDesc d v).descs e) (s.descs e) := by
  by_cases he : e = d
  · subst he
    show Agrees (Function.update s.descs e v e) _
    rw [Function.update_self]
    exact hv
  · show Agrees (Function.update s.descs d v e) _
    rw [Function.update_of_ne he]
    exact Agrees.refl _

theorem invariant_setQueue (h : Invariant s) (q : Direction → List OperationId) :
    Invariant (s.setDesc d { s.descs d with opQueue := q }) :=
  invariant_same h rfl rfl rfl rfl h.noFault (agrees_setDesc ⟨rfl, rfl, rfl, rfl, rfl⟩)

/-! ## Engines -/

theorem engines_self {v : Engine} : (s.setEngine m v).engines m = v := Function.update_self ..

theorem engines_other {v : Engine} {n : EngineId} (h : n ≠ m) :
    (s.setEngine m v).engines n = s.engines n := Function.update_of_ne h ..

theorem access_engines (s : State) (d : DescriptorId) : (s.access d).engines = s.engines := rfl

theorem tasks_self {v : Engine} : tasks (s.setEngine m v) m = v.opQueue ++ Frame.tasks v.frame := by
  rw [tasks, engines_self]

theorem tasks_other {v : Engine} {n : EngineId} (h : n ≠ m) :
    tasks (s.setEngine m v) n = tasks s n := by
  rw [tasks, engines_other h, tasks]

/-- An engine goes on, without a change of the closures that it has to run. -/
theorem mirrors_setEngine {v : Engine}
    (htasks : (v.opQueue ++ Frame.tasks v.frame).filter Task.refers =
      (tasks s m).filter Task.refers)
    (hclosure : Frame.closure v.frame = Frame.closure (s.engines m).frame)
    (hpolled : ∀ d ∈ Frame.polled v.frame, d ∈ Frame.polled (s.engines m).frame ∨
      (s.descs d).registered = some m) : Mirrors s (s.setEngine m v) := by
  refine ⟨rfl, rfl, fun _ => rfl, fun _ => rfl, ?_, ?_, ?_⟩
  · intro n
    by_cases hn : n = m
    · rw [hn, tasks_self, htasks]
    · rw [tasks_other hn]
  · intro n
    by_cases hn : n = m
    · rw [hn, engines_self, hclosure]
    · rw [engines_other hn]
  · intro n d hd
    by_cases hn : n = m
    · subst hn
      rw [engines_self] at hd
      exact hpolled d hd
    · rw [engines_other hn] at hd
      exact Or.inl hd

theorem invariant_setEngine (h : Invariant s) {v : Engine}
    (hlength : v.refcount + (tasks s m).length =
      (s.engines m).refcount + (v.opQueue ++ Frame.tasks v.frame).length)
    (htasks : (v.opQueue ++ Frame.tasks v.frame).filter Task.refers =
      (tasks s m).filter Task.refers)
    (hclosure : Frame.closure v.frame = Frame.closure (s.engines m).frame)
    (hpolled : ∀ d ∈ Frame.polled v.frame, d ∈ Frame.polled (s.engines m).frame ∨
      (s.descs d).registered = some m) : Invariant (s.setEngine m v) := by
  apply invariant_mirrors h (mirrors_setEngine htasks hclosure hpolled) rfl
  · intro d
    exact Agrees.refl _
  · intro n
    by_cases hn : n = m
    · subst hn
      rw [engines_self, tasks_self]
      exact hlength
    · rw [engines_other hn, tasks_other hn]
  · exact h.noFault

theorem invariant_setFrame (h : Invariant s) {f : Frame}
    (htasks : Frame.tasks f = Frame.tasks (s.engines m).frame)
    (hclosure : Frame.closure f = Frame.closure (s.engines m).frame)
    (hpolled : ∀ d ∈ Frame.polled f, d ∈ Frame.polled (s.engines m).frame ∨
      (s.descs d).registered = some m) : Invariant (s.setFrame m f) := by
  have hsame : (s.engines m).opQueue ++ Frame.tasks f = tasks s m := by rw [htasks, tasks]
  refine invariant_setEngine h (v := { s.engines m with frame := f }) ?_ ?_ hclosure hpolled
  · exact congrArg (fun l : List Task => (s.engines m).refcount + (l.length : Int)) hsame.symm
  · exact congrArg (List.filter Task.refers) hsame

end EpollReferences
