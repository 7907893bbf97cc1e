import Tcode.EpollCompletion

/-! # Connects and the outcome of their connections

`post_connect` is finished whenever it is called, so the handler of a connect is called with
success by the first dispatch for writing that its descriptor gets: for an event, or because
another write has been submitted. The kernel is an environment of the multiplexers. It says once
for each connection whether it is established.
-/
namespace EpollConnect

open SupportTransitionSystem EpollMachine EpollReferences

inductive Outcome where
  | inProgress
  | established
  | failed
  deriving DecidableEq, Repr

/-- The operations of connects, the descriptors whose connections they wait for, and what has
become of these. -/
structure Kernel where
  connects : OperationId → Bool
  target : OperationId → Option DescriptorId
  outcome : DescriptorId → Outcome

structure Settle where
  desc : DescriptorId
  established : Bool
  deriving DecidableEq, Repr

def Kernel.submit (κ : Kernel) (o : OperationId) (d : Option DescriptorId) : Kernel :=
  { κ with
    connects := Function.update κ.connects o true
    target := Function.update κ.target o d }

def Kernel.settle (κ : Kernel) (e : Settle) : Kernel :=
  { κ with outcome :=
      Function.update κ.outcome e.desc (if e.established then .established else .failed) }

/-- System functions that fail give an error, and `post_connect` returns true. -/
def kernel : System.Environment State Step Kernel Settle where
  Allows p
    | .call _ (.connect _ _ (.failed ec)) | .call _ (.connect _ _ (.notBound ec)) => ec ≠ .success
    | .postProc m r => ∀ o ∈ p.1.front m, p.2.connects o = true → r = .done (p.1.errors o)
    | _ => True
  reacts p
    | .call _ (.connect _ o .started) => p.2.submit o (some p.1.made)
    | .call _ (.connect _ o _) => p.2.submit o none
    | _ => p.2
  Enabled p e := e.desc < p.1.made ∧ p.2.outcome e.desc = .inProgress
  next p e := p.2.settle e

def start : State × Kernel := (initial, ⟨fun _ => false, fun _ => none, fun _ => .inProgress⟩)

/-- A connect is answered with success only if its connection is established. -/
def Truthful (p : State × Kernel) : Prop :=
  ∀ o, p.2.connects o = true → (o, .success) ∈ p.1.invoked →
    ∃ d, p.2.target o = some d ∧ p.2.outcome d = .established

/-- A connect that waits at the descriptor waits for an established connection. -/
def Connected (p : State × Kernel) (d : DescriptorId) : Prop :=
  ∀ o ∈ (p.1.descs d).opQueue .write, p.2.connects o = true → p.2.outcome d = .established

/-- The descriptor of the write closure that the loop thread runs next. -/
def Frame.writeClosure : Frame → Option DescriptorId
  | .within (.drain (.dispatch .write d _ :: _)) => some d
  | _ => none

/-- Sockets belong to their engine, and neither is a descriptor reported writable nor is the
closure of a write run at it while a connect waits there for another outcome. -/
def Reported (p : State × Kernel) : Step ⊕ Settle → Prop
  | .inl (.epollWait _ evs _) => ∀ e ∈ evs, .write ∈ e.flags → Connected p e.desc
  | .inl (.opRun m) => ∀ d ∈ Frame.writeClosure (p.1.engines m).frame, Connected p d
  | .inl x => Confines p.1 x
  | .inr _ => True

/-! ## Where connects are -/

def Position.writes : Position → List DescriptorId
  | .events evs _ => (evs.filter (.write ∈ ·.flags)).map Event.desc
  | .drain _ => []

/-- The descriptors that the loop thread is going to dispatch for writing. -/
def Frame.writes : Frame → List DescriptorId
  | .within p => Position.writes p
  | .dispatching d dirs p => (if .write ∈ dirs then [d] else []) ++ Position.writes p
  | _ => []

structure Waits (s : State) (κ : Kernel) : Prop where
  submitted : ∀ o, κ.connects o = true → s.places o ≠ .nowhere
  queue : ∀ d i, ∀ o ∈ (s.descs d).opQueue i, κ.connects o = true → i = .write ∧ κ.target o = some d
  closures : ∀ i d o, InFlight s (.dispatch i d o) → κ.connects o = false
  failed : ∀ o, InFlight s (.op o) → κ.connects o = true → s.errors o ≠ .success
  ready : ∀ m, ∀ d ∈ Frame.writes (s.engines m).frame, Connected (s, κ) d
  truthful : Truthful (s, κ)

/-- What a step may change about connects that were submitted before it. -/
structure Kept (κ : Kernel) (s t : State) : Prop where
  queue : ∀ d i, ∀ o ∈ (t.descs d).opQueue i, κ.connects o = true → o ∈ (s.descs d).opQueue i
  flight : ∀ a, InFlight t a → InFlight s a ∨
    (∀ o, a = .op o → κ.connects o = true → t.errors o ≠ .success) ∧
      ∀ i d o, a = .dispatch i d o → κ.connects o = false
  errors : ∀ o, κ.connects o = true → s.errors o ≠ .success → t.errors o ≠ .success
  writes : ∀ m, ∀ d ∈ Frame.writes (t.engines m).frame,
    d ∈ Frame.writes (s.engines m).frame ∨ Connected (t, κ) d
  answers : ∀ o, κ.connects o = true → (o, .success) ∈ t.invoked →
    (o, .success) ∈ s.invoked ∨ ∃ d, κ.target o = some d ∧ κ.outcome d = .established

variable {κ : Kernel} {s t u : State} {d e : DescriptorId} {k : SocketId} {m : EngineId}
  {o : OperationId}

theorem Kept.connected (h : Kept κ s t) (hd : Connected (s, κ) d) : Connected (t, κ) d := by
  intro o ho hconnects
  exact hd o (h.queue d .write o ho hconnects) hconnects

theorem Kept.waits (h : Kept κ s t) (hs : Waits s κ)
    (hplaces : ∀ o, s.places o ≠ .nowhere → t.places o ≠ .nowhere) : Waits t κ := by
  constructor
  · intro o ho
    exact hplaces o (hs.submitted o ho)
  · intro d i o ho hconnects
    exact hs.queue d i o (h.queue d i o ho hconnects) hconnects
  · intro i d o ho
    rcases h.flight _ ho with hold | hnew
    · exact hs.closures i d o hold
    · exact hnew.2 i d o rfl
  · intro o ho hconnects
    rcases h.flight _ ho with hold | hnew
    · exact h.errors o hconnects (hs.failed o hold hconnects)
    · exact hnew.1 o rfl hconnects
  · intro m d hd
    rcases h.writes m d hd with hold | hnew
    · exact h.connected (hs.ready m d hold)
    · exact hnew
  · intro o hconnects ho
    rcases h.answers o hconnects ho with hold | hnew
    · exact hs.truthful o hconnects hold
    · exact hnew

theorem Kept.trans (h : Kept κ s t) (k : Kept κ t u) : Kept κ s u := by
  constructor
  · intro d i o ho hconnects
    exact h.queue d i o (k.queue d i o ho hconnects) hconnects
  · intro a ha
    rcases k.flight a ha with hold | hnew
    · rcases h.flight a hold with hold | hnew
      · exact Or.inl hold
      · refine Or.inr ⟨?_, hnew.2⟩
        intro o heq hconnects
        exact k.errors o hconnects (hnew.1 o heq hconnects)
    · exact Or.inr hnew
  · intro o hconnects ho
    exact k.errors o hconnects (h.errors o hconnects ho)
  · intro m d hd
    rcases k.writes m d hd with hold | hnew
    · rcases h.writes m d hold with hold | hnew
      · exact Or.inl hold
      · exact Or.inr (k.connected hnew)
    · exact Or.inr hnew
  · intro o hconnects ho
    rcases k.answers o hconnects ho with hold | hnew
    · exact h.answers o hconnects hold
    · exact Or.inr hnew

/-! ## Changes that keep them -/

/-- What connects depend on is the same. -/
theorem kept_same (herrors : t.errors = s.errors) (hinvoked : t.invoked = s.invoked)
    (hpostings : t.postings = s.postings) (hengines : t.engines = s.engines)
    (hdescs : ∀ d, (t.descs d).opQueue = (s.descs d).opQueue) : Kept κ s t := by
  constructor
  · intro d i o ho _
    exact hdescs d ▸ ho
  · intro a ha
    apply Or.inl
    rcases ha with ⟨p, hp, hpa⟩ | ⟨n, hn⟩
    · exact Or.inl ⟨p, hpostings ▸ hp, hpa⟩
    · rw [tasks, hengines] at hn
      exact Or.inr ⟨n, hn⟩
  · intro o _ ho
    exact herrors ▸ ho
  · intro n d hd
    rw [hengines] at hd
    exact Or.inl hd
  · intro o _ ho
    exact Or.inl (hinvoked ▸ ho)

theorem kept_access : Kept κ s (s.access d) := kept_same rfl rfl rfl rfl fun _ => rfl

theorem kept_setDesc {v : Descriptor} (hqueue : ∀ i, ∀ o ∈ v.opQueue i, κ.connects o = true →
    o ∈ (s.descs d).opQueue i) : Kept κ s (s.setDesc d v) := by
  refine ⟨?_, fun a ha => Or.inl ha, fun o _ ho => ho, fun n e he => Or.inl he,
    fun o _ ho => Or.inl ho⟩
  intro e i o ho hconnects
  by_cases he : e = d
  · subst he
    replace ho : o ∈ (Function.update s.descs e v e).opQueue i := ho
    rw [Function.update_self] at ho
    exact hqueue i o ho hconnects
  · replace ho : o ∈ (Function.update s.descs d v e).opQueue i := ho
    rw [Function.update_of_ne he] at ho
    exact ho

/-- An engine goes on with tasks that it had, and dispatches for writing what it was going to or
what is connected. -/
theorem kept_setEngine {v : Engine}
    (htasks : ∀ a ∈ v.opQueue ++ Frame.tasks v.frame, a ∈ tasks s m)
    (hwrites : ∀ d ∈ Frame.writes v.frame,
      d ∈ Frame.writes (s.engines m).frame ∨ Connected (s, κ) d) :
    Kept κ s (s.setEngine m v) := by
  refine ⟨fun e i o ho _ => ho, ?_, fun o _ ho => ho, ?_, fun o _ ho => Or.inl ho⟩
  · intro a ha
    exact Or.inl (inFlight_setEngine htasks ha)
  · intro n d hd
    by_cases hnm : n = m
    · subst hnm
      rw [engines_self] at hd
      exact hwrites d hd
    · rw [engines_other hnm] at hd
      exact Or.inl hd

theorem kept_setFrame {f : Frame} (htasks : Frame.tasks f = Frame.tasks (s.engines m).frame)
    (hwrites : ∀ d ∈ Frame.writes f,
      d ∈ Frame.writes (s.engines m).frame ∨ Connected (s, κ) d) : Kept κ s (s.setFrame m f) := by
  apply kept_setEngine _ hwrites
  intro a ha
  rw [tasks, ← htasks]
  exact ha

/-- A closure that does not take a connect to a descriptor. -/
theorem kept_opAdd {a : Task} (ha : InFlight s a ∨ ∃ d, a = .unbind d) :
    Kept κ s (opAdd s m a) := by
  refine ⟨fun e i o ho _ => ho, ?_, fun o _ ho => ho, ?_, fun o _ ho => Or.inl ho⟩
  · intro b hb
    rcases hb with hp | ⟨n, hn⟩
    · exact Or.inl (Or.inl hp)
    · rcases mem_tasks_opAdd.mp hn with ⟨_, rfl⟩ | hs
      · rcases ha with hflight | ⟨d, rfl⟩
        · exact Or.inl hflight
        · exact Or.inr ⟨nofun, nofun⟩
      · exact Or.inl (Or.inr ⟨n, hs⟩)
  · intro n d hd
    rw [frame_opAdd] at hd
    exact Or.inl hd

/-- A thread is about to post an operation that is no connect. -/
theorem kept_posting {p : Posting} (hp : ∀ o, Task.operation p.task = some o →
    κ.connects o = false) : Kept κ s { s with postings := s.postings ++ [p] } := by
  refine ⟨fun e i o ho _ => ho, ?_, fun o _ ho => ho, fun n d hd => Or.inl hd,
    fun o _ ho => Or.inl ho⟩
  intro a ha
  rcases ha with ⟨q, hq, rfl⟩ | hn
  · rcases List.mem_append.mp hq with hq | hq
    · exact Or.inl (Or.inl ⟨q, hq, rfl⟩)
    · rw [List.mem_singleton.mp hq]
      refine Or.inr ⟨?_, ?_⟩
      · intro o heq hconnects
        rw [hp o (by rw [heq]; rfl)] at hconnects
        cases hconnects
      · intro i d o heq
        exact hp o (by rw [heq]; rfl)
  · exact Or.inl (Or.inr hn)

/-- The error of an operation that is no connect, or that has no error. -/
theorem kept_setError {ec : ErrorCode} (ho : κ.connects o = true → s.errors o = .success) :
    Kept κ s (s.setError o ec) := by
  refine ⟨fun e i b hb _ => hb, fun a ha => Or.inl ha, ?_, fun n d hd => Or.inl hd,
    fun b _ hb => Or.inl hb⟩
  intro b hconnects hb
  by_cases hbo : b = o
  · subst hbo
    exact absurd (ho hconnects) hb
  · show Function.update s.errors o ec b ≠ _
    rw [Function.update_of_ne hbo]
    exact hb

theorem kept_invoke (ho : κ.connects o = true → s.errors o = .success →
    ∃ d, κ.target o = some d ∧ κ.outcome d = .established) : Kept κ s (s.invoke o) := by
  refine ⟨fun e i b hb _ => hb, fun a ha => Or.inl ha, fun b _ hb => hb, fun n d hd => Or.inl hd,
    ?_⟩
  intro b hconnects hb
  rcases List.mem_append.mp hb with hold | hnew
  · exact Or.inl hold
  · have heq : (b, ErrorCode.success) = (o, s.errors o) := List.mem_singleton.mp hnew
    obtain ⟨rfl, hsuccess⟩ := Prod.mk.inj heq
    exact Or.inr (ho hconnects hsuccess.symm)

theorem kept_creates {desc : Option DescriptorId} (hc : Creates s t m k desc)
    (hnew : (t.descs s.made).opQueue = fun _ => []) (herrors : t.errors = s.errors)
    (hinvoked : t.invoked = s.invoked) : Kept κ s t := by
  constructor
  · intro e i o ho _
    by_cases he : e = s.made
    · rw [he, hnew] at ho
      cases ho
    · rw [hc.others e he] at ho
      exact ho
  · intro a ha
    apply Or.inl
    rcases ha with ⟨p, hp, hpa⟩ | ⟨n, hn⟩
    · exact Or.inl ⟨p, hc.postings ▸ hp, hpa⟩
    · exact Or.inr ⟨n, hc.queued n ▸ hn⟩
  · intro o _ ho
    exact herrors ▸ ho
  · intro n d hd
    rw [hc.frames] at hd
    exact Or.inl hd
  · intro o _ ho
    exact Or.inl (hinvoked ▸ ho)

theorem kept_create (bound : Bool) : Kept κ s (s.create (s.sockets k).engine k bound) := by
  cases bound with
  | false =>
    apply kept_creates (creates_notBound (m := (s.sockets k).engine) (k := k)) _ rfl rfl
    exact notBound_queue
  | true =>
    apply kept_creates (creates_descriptorCreate (k := k) rfl true) _ rfl rfl
    exact created_queue

/-- Operations that are aborted have an error. -/
theorem kept_abort : Kept κ s (s.abort m d) := by
  constructor
  · intro e i o ho _
    by_cases he : e = d
    · subst he
      replace ho : o ∈ (Function.update s.descs e _ e).opQueue i := ho
      rw [Function.update_self] at ho
      cases ho
    · replace ho : o ∈ (Function.update s.descs d _ e).opQueue i := ho
      rw [Function.update_of_ne he] at ho
      exact ho
  · intro a ha
    rcases ha with hp | ⟨n, hn⟩
    · exact Or.inl (Or.inl hp)
    · rcases mem_tasks_abort hn with hold | ⟨o, ho, rfl⟩
      · exact Or.inl (Or.inr ⟨n, hold⟩)
      · refine Or.inr ⟨?_, nofun⟩
        rintro b hb _
        obtain rfl := Task.op.inj hb
        show (if o ∈ (s.descs d).ops ∧ s.errors o = .success then ErrorCode.aborted
          else s.errors o) ≠ _
        split
        · exact nofun
        · next hboth => exact fun hsuccess => hboth ⟨ho, hsuccess⟩
  · intro o _ ho
    show (if o ∈ (s.descs d).ops ∧ s.errors o = .success then ErrorCode.aborted
      else s.errors o) ≠ _
    rw [if_neg fun hboth => ho hboth.2]
    exact ho
  · intro n e he
    rw [frame_abort] at he
    exact Or.inl he
  · intro o _ ho
    exact Or.inl ho

theorem kept_release : Kept κ s (descriptorRelease s m d) := by
  rw [descriptorRelease]
  split
  · exact kept_abort
  · exact kept_access.trans
      (kept_setDesc (v := { s.descs d with cell := (s.descs d).cell.release }) fun i o ho _ => ho)

/-! ## The loop thread -/

section OpRun

variable {ops : List Task} {a : Task}

theorem kept_popped {f : Frame} (hframe : (s.engines m).frame = .within (.drain (a :: ops)))
    (htasks : Frame.tasks f = ops) (hwrites : ∀ d ∈ Frame.writes f, Connected (s, κ) d) :
    Kept κ s (s.setEngine m (popped s m f)) := by
  apply kept_setEngine _ fun e he => Or.inr (hwrites e he)
  intro b hb
  rw [tasks_of_drain hframe]
  rcases List.mem_append.mp hb with hb | hb
  · exact List.mem_append_left _ hb
  · replace hb : b ∈ Frame.tasks f := hb
    rw [htasks] at hb
    exact List.mem_append_right _ (List.mem_cons_of_mem a hb)

/-- An operation that is no connect joins a queue. -/
theorem kept_enqueue {i : Direction} (hnot : κ.connects o = false) :
    Kept κ s (((s.access d).setDesc d { s.descs d with
      opQueue := Function.update (s.descs d).opQueue i ((s.descs d).opQueue i ++ [o]) }).setPlace
        o (.descriptor d i)) := by
  apply kept_access.trans
  apply Kept.trans (kept_setDesc (d := d) (v := { s.descs d with
    opQueue := Function.update (s.descs d).opQueue i ((s.descs d).opQueue i ++ [o]) }) _)
  · exact kept_same rfl rfl rfl rfl fun _ => rfl
  · intro j b hb hconnects
    rcases mem_updated_queue hb with ⟨rfl, hb⟩ | hb
    · rcases List.mem_append.mp hb with hb | hb
      · exact hb
      · rw [List.mem_singleton.mp hb, hnot] at hconnects
        cases hconnects
    · exact hb

theorem kept_opRun (h : Waits s κ) (hframe : (s.engines m).frame = .within (.drain (a :: ops)))
    (hconnected : ∀ d o, a = .dispatch .write d o → Connected (s, κ) d) :
    Kept κ s (opRun s m a ops) := by
  have hflight : InFlight s a := Or.inr ⟨m, mem_tasks_of_drain hframe⟩
  have hpopped : Kept κ s (s.setEngine m (popped s m (.within (.drain ops)))) :=
    kept_popped hframe rfl fun e he => absurd he List.not_mem_nil
  cases a with
  | op o =>
    apply hpopped.trans
    apply kept_invoke
    intro hconnects hsuccess
    exact absurd hsuccess (h.failed o hflight hconnects)
  | dispatch i d o =>
    rw [opRun_dispatch_eq]
    apply Kept.trans (kept_popped hframe rfl _) (kept_enqueue (h.closures i d o hflight))
    intro e he
    replace he : e ∈ (if .write ∈ [i] then [d] else []) ++ [] := he
    rw [List.append_nil] at he
    split at he
    · next hi =>
      rw [List.mem_singleton.mp he]
      exact hconnected d o (by rw [List.mem_singleton.mp hi])
    · cases he
  | unbind d =>
    apply hpopped.trans
    apply Kept.trans _ kept_release
    exact kept_access.trans (kept_setDesc (v := { s.descs d with
      fd := false, registered := none, unbound := true }) fun i o ho _ => ho)

end OpRun

theorem mem_writes_of_dispatching {dirs : List Direction} {p : Position}
    (hframe : (s.engines m).frame = .dispatching d dirs p) (hwrite : .write ∈ dirs) :
    d ∈ Frame.writes (s.engines m).frame := by
  rw [hframe]
  apply List.mem_append_left
  rw [if_pos hwrite]
  exact List.mem_singleton_self d

/-- A connect that is finished waits for an established connection. -/
theorem established_of_front (h : Waits s κ) {i : Direction} {dirs : List Direction} {p : Position}
    (hframe : (s.engines m).frame = .dispatching d (i :: dirs) p)
    (ho : o ∈ (s.descs d).opQueue i) (hconnects : κ.connects o = true) :
    κ.target o = some d ∧ κ.outcome d = .established := by
  obtain ⟨rfl, htarget⟩ := h.queue d i o ho hconnects
  have hready := h.ready m d (mem_writes_of_dispatching hframe List.mem_cons_self)
  exact ⟨htarget, hready o ho hconnects⟩

theorem kept_finish (hsuccess : κ.connects o = true → s.errors o = .success) {i : Direction}
    {ec : ErrorCode} (hestablished : κ.connects o = true →
      ∃ e, κ.target o = some e ∧ κ.outcome e = .established) :
    Kept κ s (s.finish d i o ec) := by
  have hqueue : Kept κ s (s.setDesc d { s.descs d with
      opQueue := Function.update (s.descs d).opQueue i ((s.descs d).opQueue i).tail }) := by
    apply kept_setDesc
    intro j b hb _
    rcases mem_updated_queue hb with ⟨rfl, hb⟩ | hb
    · exact List.mem_of_mem_tail hb
    · exact hb
  apply hqueue.trans
  apply Kept.trans (kept_setError _) (kept_invoke _)
  · exact hsuccess
  · exact fun hconnects _ => hestablished hconnects

theorem writes_tail {i : Direction} {dirs : List Direction} {p : Position}
    (h : e ∈ Frame.writes (.dispatching d dirs p)) :
    e ∈ Frame.writes (.dispatching d (i :: dirs) p) := by
  rcases List.mem_append.mp h with h | h
  · apply List.mem_append_left
    split at h
    · next hwrite =>
      rw [if_pos (List.mem_cons_of_mem i hwrite)]
      exact h
    · cases h
  · exact List.mem_append_right _ h

/-- The dispatch loop is done with a direction. -/
theorem kept_passed {i : Direction} {dirs : List Direction} {p : Position}
    (hframe : (s.engines m).frame = .dispatching d (i :: dirs) p) :
    Kept κ s ((s.access d).setFrame m (.dispatching d dirs p)) := by
  apply kept_access.trans
  apply kept_setFrame
  · rw [access_engines, hframe]
    rfl
  · intro e he
    apply Or.inl
    rw [access_engines, hframe]
    exact writes_tail he

theorem kept_dispatchTurn (h : Waits s κ) (hr : Recorded s) {i : Direction}
    {dirs : List Direction} {p : Position}
    (hframe : (s.engines m).frame = .dispatching d (i :: dirs) p)
    (ho : o ∈ (s.descs d).opQueue i) (r : PostResult) (hc : Confines s (.postProc m r)) :
    Kept κ s (dispatchTurn s m d i dirs p o r) := by
  have hsuccess (_ : κ.connects o = true) : s.errors o = .success := hr.pending o (.queue ho)
  have hestablished (hconnects : κ.connects o = true) :
      ∃ e, κ.target o = some e ∧ κ.outcome e = .established :=
    ⟨d, established_of_front h hframe ho hconnects⟩
  cases r with
  | again => exact kept_passed hframe
  | done ec => exact kept_access.trans (kept_finish (s := s.access d) hsuccess hestablished)
  | accepted k registered =>
    have hc' := creates_descriptorCreate (s := s.access d) (k := k) hc registered
    have hnew : ((descriptorCreate (s.access d) m k registered).descs s.made).opQueue =
      fun _ => [] := created_queue
    have hcreated : Kept κ (s.access d) (descriptorCreate (s.access d) m k registered) :=
      kept_creates hc' hnew rfl rfl
    apply kept_access.trans
    exact hcreated.trans
      (kept_finish (s := descriptorCreate (s.access d) m k registered) hsuccess hestablished)

theorem kept_advance {dirs : List Direction} {p : Position}
    (hframe : (s.engines m).frame = .dispatching d dirs p) : Kept κ s (advance s m d dirs p) := by
  cases dirs with
  | cons i dirs => exact kept_passed hframe
  | nil =>
    cases p with
    | events evs x =>
      apply kept_setFrame
      · rw [hframe]
        rfl
      · intro e he
        apply Or.inl
        rw [hframe]
        exact List.mem_append_right _ he
    | drain ops =>
      show Kept κ s ((descriptorRelease s m d).setFrame m (.within (.drain ops)))
      rw [release_setFrame]
      apply Kept.trans _ kept_release
      apply kept_setFrame
      · rw [hframe]
        rfl
      · intro e he
        cases he

theorem kept_event {e : Event} {evs : List Event} {x : Bool}
    (hframe : (s.engines m).frame = .within (.events (e :: evs) x)) :
    Kept κ s ((s.access e.desc).setFrame m
      (.dispatching e.desc (directions e.flags) (.events evs x))) := by
  apply kept_access.trans
  apply kept_setFrame
  · rw [access_engines, hframe]
    rfl
  · intro d hd
    apply Or.inl
    rw [access_engines, hframe]
    apply List.mem_map.mpr
    rcases List.mem_append.mp hd with hd | hd
    · split at hd
      · next hwrite =>
        have hflag : .write ∈ e.flags := by simpa [directions] using hwrite
        refine ⟨e, List.mem_filter.mpr ⟨List.mem_cons_self, decide_eq_true hflag⟩, ?_⟩
        exact (List.mem_singleton.mp hd).symm
      · cases hd
    · obtain ⟨f, hf, rfl⟩ := List.mem_map.mp hd
      obtain ⟨hmem, hflag⟩ := List.mem_filter.mp hf
      exact ⟨f, List.mem_filter.mpr ⟨List.mem_cons_of_mem e hmem, hflag⟩, rfl⟩

theorem kept_posted {j : Nat} {p : Posting} (hp : s.postings[j]? = some p) :
    Kept κ s (opAdd { s with postings := s.postings.eraseIdx j } p.engine p.task) := by
  have hflight : InFlight s p.task := Or.inl ⟨p, List.mem_of_getElem? hp, rfl⟩
  apply (kept_opAdd (m := p.engine) (Or.inl hflight)).trans
  refine ⟨fun e i o ho _ => ho, ?_, fun o _ ho => ho, fun n d hd => Or.inl hd,
    fun o _ ho => Or.inl ho⟩
  intro a ha
  apply Or.inl
  rcases ha with ⟨q, hq, hqa⟩ | hn
  · exact Or.inl ⟨q, List.mem_of_mem_eraseIdx hq, hqa⟩
  · exact Or.inr hn

/-! ## Calls -/

theorem kept_execute (ho : κ.connects o = false) (thread : Option EngineId) :
    Kept κ s (s.execute thread m o) := by
  have hplace : Kept κ s (s.setPlace o .posting) := kept_same rfl rfl rfl rfl fun _ => rfl
  apply hplace.trans
  apply kept_posting
  intro b hb
  rw [← Option.some.inj hb]
  exact ho

theorem kept_startOn (ho : κ.connects o = false) (thread : Option EngineId) (i : Direction) :
    Kept κ s (s.startOn thread m i d o) := by
  have hadded : Kept κ s (descriptorAddRef s d) := kept_access.trans
    (kept_setDesc (v := { s.descs d with cell := (s.descs d).cell.acquire }) fun i o ho _ => ho)
  have hplace : Kept κ s ((descriptorAddRef s d).setPlace o .posting) :=
    hadded.trans (kept_same rfl rfl rfl rfl fun _ => rfl)
  apply hplace.trans
  apply kept_posting
  intro b hb
  rw [← Option.some.inj hb]
  exact ho

/-- An operation that is no connect is put into an empty queue. -/
theorem kept_waiting (ho : κ.connects o = false) {i : Direction} :
    Kept κ s ((s.setDesc d { s.descs d with
      opQueue := Function.update (s.descs d).opQueue i [o] }).setPlace o (.descriptor d i)) := by
  have hqueue : Kept κ s (s.setDesc d { s.descs d with
      opQueue := Function.update (s.descs d).opQueue i [o] }) := by
    apply kept_setDesc
    intro j b hb hconnects
    rcases mem_updated_queue hb with ⟨_, hb⟩ | hb
    · rw [List.mem_singleton.mp hb, ho] at hconnects
      cases hconnects
    · exact hb
  exact hqueue.trans (kept_same rfl rfl rfl rfl fun _ => rfl)

/-- The operation that a call submits was no connect before it. -/
theorem kept_call (h : Waits s κ) {c : Call} (hc : c.Allowed s) (thread : Option EngineId) :
    Kept κ s (c.effect thread s) := by
  have hfresh {o : OperationId} (ho : o ∈ c.op) : κ.connects o = false := by
    apply Bool.eq_false_iff.mpr
    intro hconnects
    exact h.submitted o hconnects (hc.2 o ho).1
  have hfails {o : OperationId} (ho : o ∈ c.op) {t : State} (ht : Kept κ s t) (ec : ErrorCode)
      (m : EngineId) : Kept κ s ((t.setError o ec).execute thread m o) := by
    apply ht.trans
    apply Kept.trans (kept_setError _) (kept_execute (hfresh ho) thread)
    intro hconnects
    rw [hfresh ho] at hconnects
    cases hconnects
  have hsame : Kept κ s s := kept_same rfl rfl rfl rfl fun _ => rfl
  cases c with
  | socket k m => exact kept_same rfl rfl rfl rfl fun _ => rfl
  | execute m o => exact kept_execute (hfresh rfl) thread
  | connect k o r =>
    cases r with
    | failed ec => exact hfails rfl hsame ec _
    | notBound ec => exact hfails rfl (kept_create false) ec _
    | started =>
      have hcreated : Kept κ s (s.create (s.sockets k).engine k true) := kept_create true
      apply hcreated.trans
      exact kept_waiting (hfresh rfl)
  | openSocket k bound => exact kept_create bound
  | start k i o =>
    simp only [Call.effect]
    split
    · exact hsame
    · exact kept_startOn (hfresh rfl) thread i
  | accept k o accepted =>
    simp only [Call.effect]
    split
    · exact hsame
    · have haccepts : Kept κ s { s with accepts := Function.update s.accepts o (some accepted) } :=
        kept_same rfl rfl rfl rfl fun _ => rfl
      exact haccepts.trans (kept_startOn (hfresh rfl) thread .read)
  | udpWriteNull k o r =>
    cases r with
    | noFile ec => exact hfails rfl hsame ec _
    | notBound ec => exact hfails rfl (kept_create false) ec _
    | opened => exact (kept_create true).trans (kept_startOn (hfresh rfl) thread .write)
  | udpReadNull k o => exact hfails rfl hsame .invalid _
  | unbind k =>
    simp only [Call.effect]
    split
    · exact hsame
    · next d _ =>
      have hsocket : Kept κ s (s.setSocket k { s.sockets k with desc := none }) :=
        kept_same rfl rfl rfl rfl fun _ => rfl
      exact hsocket.trans (kept_opAdd (Or.inr ⟨d, rfl⟩))

/-! ## Steps -/

theorem kept_loop {f : Frame} (htasks : Frame.tasks (s.engines m).frame = [])
    (hf : Frame.tasks f = [] ∧ Frame.writes f = []) : Kept κ s (s.setFrame m f) := by
  apply kept_setFrame (hf.1.trans htasks.symm)
  intro d hd
  rw [hf.2] at hd
  cases hd

theorem kept_step (h : Waits s κ) (hr : Recorded s) {x : Step} (hx : Enabled s x)
    (hc : Reported (s, κ) (.inl x)) : Kept κ s (next s x) := by
  have hsame : Kept κ s s := kept_same rfl rfl rfl rfl fun _ => rfl
  cases x with
  | call thread c => exact kept_call h hx.1 thread
  | post j =>
    simp only [next]
    split
    · exact hsame
    · next p hp =>
      have hposted := kept_posted (κ := κ) hp
      split
      · exact hposted.trans (kept_same rfl rfl rfl rfl fun _ => rfl)
      · exact hposted.trans (kept_same rfl rfl rfl rfl fun _ => rfl)
      · exact hposted
  | timers m n => exact kept_setEngine (fun a ha => ha) fun d hd => Or.inl hd
  | run m =>
    have hframe : (s.engines m).frame = .stopped := hx
    exact kept_loop (by rw [hframe]; rfl) ⟨rfl, rfl⟩
  | check m =>
    have hframe : (s.engines m).frame = .loop := hx.2
    have htasks : Frame.tasks (s.engines m).frame = [] := by
      rw [hframe]
      rfl
    simp only [next]
    split
    · exact kept_loop htasks ⟨rfl, rfl⟩
    · exact kept_loop htasks ⟨rfl, rfl⟩
  | epollWait m evs executeOp =>
    apply kept_setFrame
    · rw [hx.2.1]
      rfl
    · intro d hd
      obtain ⟨e, he, rfl⟩ := List.mem_map.mp hd
      obtain ⟨hmem, hflag⟩ := List.mem_filter.mp he
      exact Or.inr (hc e hmem (of_decide_eq_true hflag))
  | event m =>
    simp only [next]
    split
    · next e evs x hframe => exact kept_event hframe
    · exact hsame
  | leave m =>
    simp only [next]
    split
    · next hframe =>
      apply kept_setEngine
      · intro a ha
        rw [tasks, hframe]
        exact List.mem_append_left _ ha
      · intro d hd
        cases hd
    · exact kept_loop (tasks_of_atEnd hx.2) ⟨rfl, rfl⟩
  | opRun m =>
    simp only [next]
    split
    · next a ops hframe =>
      apply kept_opRun h hframe
      rintro d o rfl
      apply hc d
      rw [hframe]
      rfl
    · exact hsame
  | postProc m r =>
    simp only [next]
    split
    · next d i dirs p o hframe ho =>
      rw [State.front, hframe] at ho
      exact kept_dispatchTurn h hr hframe (List.mem_of_mem_head? ho) r hc
    · exact hsame
  | advance m =>
    simp only [next]
    split
    · next d dirs p hframe => exact kept_advance hframe
    · exact hsame

/-! ## Submitted connects -/

/-- An operation that has not been submitted is nowhere. -/
structure Absent (s : State) (o : OperationId) : Prop where
  flight : ∀ a, Task.operation a = some o → ¬ InFlight s a
  queue : ∀ d i, o ∉ (s.descs d).opQueue i
  invoked : ∀ ec, (o, ec) ∉ s.invoked

theorem absent_of_nowhere (h : Completion s) (ho : s.places o = .nowhere) : Absent s o := by
  constructor
  · intro a ha hflight
    rcases hflight with ⟨p, hp, rfl⟩ | ⟨m, hm⟩
    · rw [place_of_posting h hp ha] at ho
      cases ho
    · rw [place_of_task h hm ha] at ho
      cases ho
  · intro d i hmem
    rw [place_of_queue h hmem] at ho
    cases ho
  · intro ec hmem
    rw [place_of_invoked h hmem] at ho
    cases ho

theorem waits_submit (h : Waits s κ) {desc : Option DescriptorId}
    (hplace : s.places o ≠ .nowhere)
    (hqueue : ∀ d i, o ∈ (s.descs d).opQueue i → i = .write ∧ desc = some d)
    (hclosure : ∀ i d, ¬ InFlight s (.dispatch i d o))
    (hfailed : InFlight s (.op o) → s.errors o ≠ .success)
    (hready : ∀ m, ∀ d ∈ Frame.writes (s.engines m).frame, o ∉ (s.descs d).opQueue .write)
    (hinvoked : (o, .success) ∉ s.invoked) : Waits s (κ.submit o desc) := by
  have hself : (κ.submit o desc).connects o = true ∧ (κ.submit o desc).target o = desc :=
    ⟨Function.update_self .., Function.update_self ..⟩
  have hother {b : OperationId} (hb : b ≠ o) : (κ.submit o desc).connects b = κ.connects b ∧
      (κ.submit o desc).target b = κ.target b :=
    ⟨Function.update_of_ne hb .., Function.update_of_ne hb ..⟩
  constructor
  · intro b hconnects
    by_cases hb : b = o
    · exact hb ▸ hplace
    · exact h.submitted b ((hother hb).1 ▸ hconnects)
  · intro d i b hmem hconnects
    by_cases hb : b = o
    · subst hb
      rw [hself.2]
      exact hqueue d i hmem
    · rw [(hother hb).2]
      exact h.queue d i b hmem ((hother hb).1 ▸ hconnects)
  · intro i d b hflight
    have hb : b ≠ o := by
      rintro rfl
      exact hclosure i d hflight
    rw [(hother hb).1]
    exact h.closures i d b hflight
  · intro b hflight hconnects
    by_cases hb : b = o
    · subst hb
      exact hfailed hflight
    · exact h.failed b hflight ((hother hb).1 ▸ hconnects)
  · intro m d hd b hmem hconnects
    have hb : b ≠ o := by
      rintro rfl
      exact hready m d hd hmem
    exact h.ready m d hd b hmem ((hother hb).1 ▸ hconnects)
  · intro b hconnects hmem
    have hb : b ≠ o := by
      rintro rfl
      exact hinvoked hmem
    obtain ⟨d, htarget, houtcome⟩ := h.truthful b ((hother hb).1 ▸ hconnects) hmem
    exact ⟨d, (hother hb).2.trans htarget, houtcome⟩

theorem writes_mentioned {f : Frame} (h : d ∈ Frame.writes f) :
    d ∈ Frame.polled f ∨ Frame.closure f = some d := by
  cases f with
  | within p =>
    cases p with
    | events evs x =>
      obtain ⟨e, he, rfl⟩ := List.mem_map.mp h
      exact Or.inl (List.mem_map_of_mem (List.mem_filter.mp he).1)
    | drain ops => cases h
  | dispatching e dirs p =>
    rcases List.mem_append.mp h with h | h
    · split at h
      · rw [List.mem_singleton.mp h]
        cases p with
        | events evs x => exact Or.inl List.mem_cons_self
        | drain ops => exact Or.inr rfl
      · cases h
    · cases p with
      | events evs x =>
        obtain ⟨f, hf, rfl⟩ := List.mem_map.mp h
        exact Or.inl (List.mem_cons_of_mem e (List.mem_map_of_mem (List.mem_filter.mp hf).1))
      | drain ops => cases h
  | _ => cases h

/-- A connect that fails at once, in a state `t` where the call has made no other operation. -/
theorem waits_fails (ht : Waits (t.execute thread m o) κ) (habsent : Absent t o)
    (herror : t.errors o ≠ .success) : Waits (t.execute thread m o) (κ.submit o none) := by
  have hflight {a : Task} (ha : InFlight (t.execute thread m o) a) : InFlight t a ∨ a = .op o := by
    rcases ha with ⟨p, hp, rfl⟩ | hn
    · rcases List.mem_append.mp hp with hp | hp
      · exact Or.inl (Or.inl ⟨p, hp, rfl⟩)
      · rw [List.mem_singleton.mp hp]
        exact Or.inr rfl
    · exact Or.inl (Or.inr hn)
  apply waits_submit ht
  · show Function.update t.places o .posting o ≠ _
    rw [Function.update_self]
    exact nofun
  · intro d i hmem
    exact absurd hmem (habsent.queue d i)
  · intro i d hclosure
    rcases hflight hclosure with hold | heq
    · exact habsent.flight _ rfl hold
    · cases heq
  · intro _
    exact herror
  · intro n d _ hmem
    exact habsent.queue d .write hmem
  · exact habsent.invoked _

/-- A connect that is under way waits at the new descriptor, which is not being dispatched. -/
theorem waits_starts (thread : Option EngineId) (hi : Invariant s) (habsent : Absent s o)
    (ht : Waits ((Call.connect k o .started).effect thread s) κ) :
    Waits ((Call.connect k o .started).effect thread s) (κ.submit o (some s.made)) := by
  generalize htdef : (Call.connect k o .started).effect thread s = t at ht
  have hc := creates_descriptorCreate (s := s) (k := k) (m := (s.sockets k).engine) rfl true
  have hself : (t.descs s.made).opQueue =
      Function.update (Descriptor.new (s.sockets k).engine true).opQueue .write [o] := by
    rw [← htdef]
    show (Function.update (descriptorCreate s (s.sockets k).engine k true).descs s.made _
      s.made).opQueue = _
    rw [Function.update_self]
    show Function.update ((descriptorCreate s (s.sockets k).engine k true).descs
      s.made).opQueue .write [o] = _
    rw [created_self]
  have hother (e : DescriptorId) (he : e ≠ s.made) : t.descs e = s.descs e := by
    rw [← htdef]
    show Function.update _ s.made _ e = _
    rw [Function.update_of_ne he]
    exact hc.others e he
  have hframes (n : EngineId) : (t.engines n).frame = (s.engines n).frame := by
    rw [← htdef]
    exact hc.frames n
  have hflight {a : Task} (ha : InFlight t a) : InFlight s a := by
    rw [← htdef] at ha
    rcases ha with hp | ⟨n, hn⟩
    · exact Or.inl hp
    · exact Or.inr ⟨n, hc.queued n ▸ hn⟩
  have hrest : t.places o = .descriptor s.made .write ∧ t.invoked = s.invoked := by
    rw [← htdef]
    exact ⟨Function.update_self .., rfl⟩
  apply waits_submit ht
  · rw [hrest.1]
    exact nofun
  · intro e i hmem
    by_cases he : e = s.made
    · rw [he, hself] at hmem
      rcases mem_updated_queue hmem with ⟨hi, _⟩ | hnone
      · exact ⟨hi, congrArg some he.symm⟩
      · cases hnone
    · rw [hother e he] at hmem
      exact absurd hmem (habsent.queue e i)
  · intro i e hclosure
    exact habsent.flight _ rfl (hflight hclosure)
  · intro hop
    exact absurd (hflight hop) (habsent.flight _ rfl)
  · intro n e he hmem
    rw [hframes] at he
    by_cases hmade : e = s.made
    · subst hmade
      rcases writes_mentioned he with hpolled | hclosure
      · exact hi.fresh.polled n hpolled
      · exact hi.fresh.running n hclosure
    · rw [hother e hmade] at hmem
      exact habsent.queue e .write hmem
  · rw [hrest.2]
    exact habsent.invoked _

theorem waits_settle (h : Waits s κ) {e : Settle} (he : κ.outcome e.desc = .inProgress) :
    Waits s (κ.settle e) := by
  have hkept {d : DescriptorId} (hd : κ.outcome d = .established) :
      (κ.settle e).outcome d = .established := by
    have hne : d ≠ e.desc := by
      rintro rfl
      rw [hd] at he
      cases he
    show Function.update κ.outcome e.desc _ d = _
    rw [Function.update_of_ne hne]
    exact hd
  refine ⟨h.submitted, h.queue, h.closures, h.failed, ?_, ?_⟩
  · intro m d hd o ho hconnects
    exact hkept (h.ready m d hd o ho hconnects)
  · intro o hconnects ho
    obtain ⟨d, htarget, houtcome⟩ := h.truthful o hconnects ho
    exact ⟨d, htarget, hkept houtcome⟩

/-! ## Runs -/

structure ConnectInvariant (p : State × Kernel) : Prop where
  references : Invariant p.1
  completion : Completion p.1
  recorded : Recorded p.1
  waits : Waits p.1 p.2

theorem waits_step {p : State × Kernel} (h : ConnectInvariant p) {x : Step}
    (hx : Enabled p.1 x) (ha : kernel.Allows p x) (hc : Reported p (.inl x)) :
    Waits (next p.1 x) (kernel.reacts p x) := by
  obtain ⟨s, κ⟩ := p
  have hkept := (kept_step h.waits h.recorded hx hc).waits h.waits
    fun o ho => places_next hx (Or.inl ho)
  cases x with
  | call thread c =>
    cases c with
    | connect k o r =>
      have hnowhere := (hx.1.2 o rfl).1
      have habsent := absent_of_nowhere h.completion hnowhere
      cases r with
      | failed ec =>
        have hset : (s.setError o ec).errors o = ec := Function.update_self ..
        apply waits_fails hkept ⟨habsent.flight, habsent.queue, habsent.invoked⟩
        rw [hset]
        exact ha
      | notBound ec =>
        have hset : ((s.create (s.sockets k).engine k false).setError o ec).errors o = ec :=
          Function.update_self ..
        have hcreated := completion_create h.completion (k := k) false
        have hplace : (s.create (s.sockets k).engine k false).places o = .nowhere := by
          rw [places_create]
          exact hnowhere
        have habsent' := absent_of_nowhere hcreated hplace
        apply waits_fails hkept ⟨habsent'.flight, habsent'.queue, habsent'.invoked⟩
        rw [hset]
        exact ha
      | started => exact waits_starts thread h.references habsent hkept
    | _ => exact hkept
  | _ => exact hkept

theorem confines_of_reported {p : State × Kernel} {x : Step} (h : Reported p (.inl x)) :
    Confines p.1 x := by
  cases x with
  | epollWait m evs executeOp => trivial
  | opRun m => trivial
  | _ => exact h

theorem waits_start : Waits start.1 start.2 := by
  constructor
  · exact nofun
  · exact nofun
  · intro i d o _
    rfl
  · exact nofun
  · intro m d hd
    cases hd
  · exact nofun

theorem waits_execution {p : State × Kernel}
    (h : (machine.inside kernel).Execution Reported start p) : Waits p.1 p.2 := by
  apply h.invariant waits_start
  intro u e hu hwaits he hc
  cases e with
  | inl x =>
    have hinner := hu.inner fun _ _ => confines_of_reported
    have hrefs := invariant_execution hinner
    obtain ⟨hcompletion, hrecorded⟩ := recorded_execution hinner
    exact waits_step ⟨hrefs, hcompletion, hrecorded, hwaits⟩ he.1 he.2 hc
  | inr e => exact waits_settle hwaits he.2

/-- In a run that dispatches a waiting connect for writing only when its connection is
established, success is reported for established connections only. -/
theorem connects_truthful {p : State × Kernel}
    (h : (machine.inside kernel).Execution Reported start p) : Truthful p ∧
      ∀ o d ec, p.2.connects o = true → p.2.target o = some d → p.2.outcome d = .failed →
        (o, ec) ∈ p.1.invoked → ec ≠ .success := by
  have htruthful := (waits_execution h).truthful
  refine ⟨htruthful, ?_⟩
  rintro o d ec hconnects htarget hfailed hmem rfl
  obtain ⟨e, htarget', hestablished⟩ := htruthful o hconnects hmem
  rw [htarget] at htarget'
  obtain rfl := Option.some.inj htarget'
  rw [hfailed] at hestablished
  cases hestablished

/-- A dispatch that finds a waiting connect answers it truthfully exactly when its connection is
established. -/
theorem truthful_finish_iff {p : State × Kernel} (h : ConnectInvariant p) {i : Direction}
    (ho : o ∈ (p.1.descs d).opQueue i) (hconnects : p.2.connects o = true) :
    Truthful (p.1.finish d i o (p.1.errors o), p.2) ↔ p.2.outcome d = .established := by
  have hsuccess := h.recorded.pending o (.queue ho)
  have htarget := (h.waits.queue d i o ho hconnects).2
  have hinvoked : (p.1.finish d i o (p.1.errors o)).invoked = p.1.invoked ++ [(o, .success)] := by
    show p.1.invoked ++ [(o, Function.update p.1.errors o (p.1.errors o) o)] = _
    rw [Function.update_self, hsuccess]
  constructor
  · intro htruthful
    obtain ⟨e, he, hestablished⟩ := htruthful o hconnects (by
      rw [hinvoked]
      exact List.mem_append_right _ List.mem_cons_self)
    rw [show p.2.target o = some e from he] at htarget
    rw [← Option.some.inj htarget]
    exact hestablished
  · intro hestablished b hb hmem
    rw [hinvoked] at hmem
    rcases List.mem_append.mp hmem with hold | hnew
    · exact h.waits.truthful b hb hold
    · obtain ⟨rfl, _⟩ := Prod.mk.inj (List.mem_singleton.mp hnew)
      exact ⟨d, htarget, hestablished⟩

/-! ## A connection that is refused -/

instance (p : State × Kernel) : ∀ x : Step, Decidable (kernel.Allows p x)
  | .call _ (.connect _ _ (.failed ec)) | .call _ (.connect _ _ (.notBound ec)) =>
    inferInstanceAs (Decidable (ec ≠ .success))
  | .postProc m r => inferInstanceAs
    (Decidable (∀ o ∈ p.1.front m, p.2.connects o = true → r = .done (p.1.errors o)))
  | .call _ (.connect _ _ .started) | .call _ (.socket _ _) | .call _ (.execute _ _)
  | .call _ (.openSocket _ _) | .call _ (.start _ _ _) | .call _ (.accept _ _ _)
  | .call _ (.udpWriteNull _ _ _) | .call _ (.udpReadNull _ _) | .call _ (.unbind _)
  | .post _ | .timers _ _ | .run _ | .check _ | .epollWait _ _ _ | .event _ | .leave _ | .opRun _
  | .advance _ => isTrue trivial

instance (p : State × Kernel) : ∀ e : Step ⊕ Settle, Decidable ((machine.inside kernel).Enabled p e)
  | .inl x => inferInstanceAs (Decidable (machine.Enabled p.1 x ∧ kernel.Allows p x))
  | .inr e => inferInstanceAs
    (Decidable (e.desc < p.1.made ∧ p.2.outcome e.desc = .inProgress))

instance (p : State × Kernel) (d : DescriptorId) : Decidable (Connected p d) :=
  inferInstanceAs (Decidable (∀ o ∈ (p.1.descs d).opQueue .write, p.2.connects o = true →
    p.2.outcome d = .established))

instance (p : State × Kernel) : ∀ e : Step ⊕ Settle, Decidable (Reported p e)
  | .inl (.epollWait _ evs _) =>
    inferInstanceAs (Decidable (∀ e ∈ evs, .write ∈ e.flags → Connected p e.desc))
  | .inl (.opRun m) => inferInstanceAs
    (Decidable (∀ d ∈ Frame.writeClosure (p.1.engines m).frame, Connected p d))
  | .inl (.call thread c) => inferInstanceAs (Decidable (Confines p.1 (.call thread c)))
  | .inl (.post j) => inferInstanceAs (Decidable (Confines p.1 (.post j)))
  | .inl (.timers m n) => inferInstanceAs (Decidable (Confines p.1 (.timers m n)))
  | .inl (.run m) => inferInstanceAs (Decidable (Confines p.1 (.run m)))
  | .inl (.check m) => inferInstanceAs (Decidable (Confines p.1 (.check m)))
  | .inl (.event m) => inferInstanceAs (Decidable (Confines p.1 (.event m)))
  | .inl (.leave m) => inferInstanceAs (Decidable (Confines p.1 (.leave m)))
  | .inl (.postProc m r) => inferInstanceAs (Decidable (Confines p.1 (.postProc m r)))
  | .inl (.advance m) => inferInstanceAs (Decidable (Confines p.1 (.advance m)))
  | .inr _ => isTrue trivial

/-- A connect whose connection gets an outcome, which the kernel reports as readable and
writable. -/
def connectTrace (established : Bool) : List (Step ⊕ Settle) :=
  [.inl (.call none (.socket 0 0)), .inl (.call none (.connect 0 0 .started)), .inl (.run 0),
    .inr ⟨0, established⟩, .inl (.check 0), .inl (.epollWait 0 [⟨0, [.read, .write]⟩] false),
    .inl (.event 0), .inl (.advance 0), .inl (.postProc 0 (.done .success))]

theorem connects_truthful_established :
    let p := (machine.inside kernel).runTrace start (connectTrace true)
    p.1.invoked = [(0, .success)] ∧ Truthful p :=
  ⟨by decide, (connects_truthful (System.ValidTrace.execution
    (show (machine.inside kernel).ValidTrace Reported start (connectTrace true)
      by decide))).1⟩

/-- A write that is submitted before the connection has an outcome. -/
def earlyWriteTrace : List (Step ⊕ Settle) :=
  [.inl (.call none (.socket 0 0)), .inl (.call none (.connect 0 0 .started)),
    .inl (.call none (.start 0 .write 1)), .inl (.post 0), .inl (.run 0), .inl (.check 0),
    .inl (.epollWait 0 [] true), .inl (.leave 0), .inl (.opRun 0),
    .inl (.postProc 0 (.done .success))]

/-- The handler gets success for a refused connection, and for one that is still in progress. -/
theorem refused_not_truthful :
    let p := (machine.inside kernel).runTrace start (connectTrace false)
    let q := (machine.inside kernel).runTrace start earlyWriteTrace
    (machine.inside kernel).Reachable start p ∧ p.1.invoked = [(0, .success)] ∧
      p.2.target 0 = some 0 ∧ p.2.outcome 0 = .failed ∧ ¬ Truthful p ∧
    (machine.inside kernel).Reachable start q ∧ q.1.invoked = [(0, .success)] ∧
      q.2.target 0 = some 0 ∧ q.2.outcome 0 = .inProgress ∧ ¬ Truthful q := by
  refine ⟨System.ValidTrace.reachable (by decide), by decide, by decide, by decide, ?_,
    System.ValidTrace.reachable (by decide), by decide, by decide, by decide, ?_⟩
  · intro h
    obtain ⟨d, htarget, houtcome⟩ := h 0 (by decide) (by decide)
    obtain rfl := Option.some.inj (htarget : some 0 = some d)
    revert houtcome
    decide
  · intro h
    obtain ⟨d, htarget, houtcome⟩ := h 0 (by decide) (by decide)
    obtain rfl := Option.some.inj (htarget : some 0 = some d)
    revert houtcome
    decide

end EpollConnect
