import Tcode.EpollPlaces

/-! # Every operation is completed once

The handler of an operation is called once, with the error that was recorded for it, and before
the loop of its engine ends.
-/
namespace EpollReferences

open SupportReferenceCount SupportTransitionSystem SupportPlacement EpollMachine

variable {s t : State} {d e : DescriptorId} {k : SocketId} {m : EngineId} {o : OperationId}

/-! ## Recorded errors -/

/-- The operation waits for its descriptor, or a closure takes it there. -/
inductive Pending (s : State) (o : OperationId) : Prop where
  | posting {p : Posting} {i : Direction} {d : DescriptorId} (mem : p ∈ s.postings)
      (task : p.task = .dispatch i d o)
  | closure {m : EngineId} {i : Direction} {d : DescriptorId} (mem : .dispatch i d o ∈ tasks s m)
  | queue {d : DescriptorId} {i : Direction} (mem : o ∈ (s.descs d).opQueue i)

structure Recorded (s : State) : Prop where
  pending : ∀ o, Pending s o → s.errors o = .success
  invoked : ∀ x ∈ s.invoked, s.errors x.1 = x.2
  released : ∀ o, s.released o = true → s.errors o = .aborted

theorem place_of_posting (h : Completion s) {p : Posting} (hp : p ∈ s.postings)
    (ho : Task.operation p.task = some o) : s.places o = .posting :=
  h.placed.place_of_mem nofun (List.mem_filterMap.mpr ⟨p, hp, ho⟩)

theorem place_of_task (h : Completion s) {a : Task} (ha : a ∈ tasks s m)
    (ho : Task.operation a = some o) : s.places o = .engine m :=
  h.placed.place_of_mem nofun (List.mem_filterMap.mpr ⟨a, ha, ho⟩)

theorem place_of_queue (h : Completion s) {i : Direction} (ho : o ∈ (s.descs d).opQueue i) :
    s.places o = .descriptor d i :=
  h.placed.place_of_mem (p := .descriptor d i) nofun ho

theorem place_of_invoked (h : Completion s) {x : OperationId × ErrorCode} (hx : x ∈ s.invoked) :
    s.places x.1 = .invoked :=
  h.placed.place_of_mem (p := .invoked) nofun (List.mem_map_of_mem hx)

/-- An operation that is pending has been submitted, and its handler has not been called. -/
theorem Pending.place_ne (hp : Pending s o) (h : Completion s) :
    s.places o ≠ .nowhere ∧ s.places o ≠ .invoked := by
  cases hp with
  | posting mem task =>
    rw [place_of_posting h mem (by rw [task]; rfl)]
    exact ⟨nofun, nofun⟩
  | closure mem =>
    rw [place_of_task h mem rfl]
    exact ⟨nofun, nofun⟩
  | queue mem =>
    rw [place_of_queue h mem]
    exact ⟨nofun, nofun⟩

theorem recorded_same (h : Recorded s) (herrors : t.errors = s.errors)
    (hreleased : t.released = s.released) (hinvoked : t.invoked = s.invoked)
    (hpending : ∀ o, Pending t o → Pending s o ∨ s.errors o = .success) : Recorded t := by
  constructor
  · intro o ho
    rw [herrors]
    rcases hpending o ho with ho | hsuccess
    · exact h.pending o ho
    · exact hsuccess
  · rw [hinvoked, herrors]
    exact h.invoked
  · rw [hreleased, herrors]
    exact h.released

/-- The error of an operation that has not been submitted. -/
theorem recorded_setError (h : Recorded s) (hs : Completion s) (hplace : s.places o = .nowhere)
    (hsuccess : s.errors o = .success) (ec : ErrorCode) : Recorded (s.setError o ec) := by
  have hother {b : OperationId} (hb : b ≠ o) : (s.setError o ec).errors b = s.errors b :=
    Function.update_of_ne hb ..
  constructor
  · intro b hb
    have hpending : Pending s b := by
      cases hb with
      | posting mem task => exact .posting mem task
      | closure mem => exact .closure mem
      | queue mem => exact .queue mem
    have hne : b ≠ o := by
      rintro rfl
      exact (hpending.place_ne hs).1 hplace
    rw [hother hne]
    exact h.pending b hpending
  · intro x hx
    have hne : x.1 ≠ o := by
      intro heq
      have hinvoked := place_of_invoked hs hx
      rw [heq, hplace] at hinvoked
      cases hinvoked
    rw [hother hne]
    exact h.invoked x hx
  · intro b hb
    have hne : b ≠ o := by
      rintro rfl
      have haborted := h.released b hb
      rw [hsuccess] at haborted
      cases haborted
    rw [hother hne]
    exact h.released b hb

theorem recorded_setEngine (h : Recorded s) {v : Engine}
    (htasks : ∀ a ∈ v.opQueue ++ Frame.tasks v.frame, a ∈ tasks s m) :
    Recorded (s.setEngine m v) := by
  apply recorded_same (t := s.setEngine m v) h rfl rfl rfl
  intro o ho
  apply Or.inl
  cases ho with
  | posting mem task => exact .posting mem task
  | @closure n i d mem =>
    by_cases hn : n = m
    · subst hn
      rw [tasks_self] at mem
      exact .closure (htasks _ mem)
    · rw [tasks_other hn] at mem
      exact .closure mem
  | queue mem => exact .queue mem

theorem recorded_setFrame (h : Recorded s) {f : Frame}
    (htasks : Frame.tasks f = Frame.tasks (s.engines m).frame) : Recorded (s.setFrame m f) := by
  apply recorded_setEngine h
  intro a ha
  rw [tasks, ← htasks]
  exact ha

theorem recorded_setDesc (h : Recorded s) {v : Descriptor}
    (hqueue : ∀ i, ∀ o ∈ v.opQueue i, o ∈ (s.descs d).opQueue i ∨ s.errors o = .success) :
    Recorded (s.setDesc d v) := by
  apply recorded_same (t := s.setDesc d v) h rfl rfl rfl
  intro o ho
  cases ho with
  | posting mem task => exact Or.inl (.posting mem task)
  | closure mem => exact Or.inl (.closure mem)
  | @queue e i mem =>
    by_cases he : e = d
    · subst he
      replace mem : o ∈ (Function.update s.descs e v e).opQueue i := mem
      rw [Function.update_self] at mem
      rcases hqueue i o mem with hmem | hsuccess
      · exact Or.inl (.queue hmem)
      · exact Or.inr hsuccess
    · replace mem : o ∈ (Function.update s.descs d v e).opQueue i := mem
      rw [Function.update_of_ne he] at mem
      exact Or.inl (.queue mem)

/-- Operations without an error are put into one queue of a descriptor. -/
theorem recorded_setQueue (h : Recorded s) {i : Direction} {l : List OperationId}
    (hl : ∀ o ∈ l, o ∈ (s.descs d).opQueue i ∨ s.errors o = .success) :
    Recorded (s.setDesc d { s.descs d with
      opQueue := Function.update (s.descs d).opQueue i l }) := by
  apply recorded_setDesc h
  intro j o ho
  replace ho : o ∈ Function.update (s.descs d).opQueue i l j := ho
  by_cases hj : j = i
  · subst hj
    rw [Function.update_self] at ho
    exact hl o ho
  · rw [Function.update_of_ne hj] at ho
    exact Or.inl ho

/-- Only what the operations depend on counts. -/
theorem recorded_congr (h : Recorded s) (herrors : t.errors = s.errors)
    (hreleased : t.released = s.released) (hinvoked : t.invoked = s.invoked)
    (hpostings : t.postings = s.postings) (hengines : t.engines = s.engines)
    (hdescs : t.descs = s.descs) : Recorded t := by
  apply recorded_same h herrors hreleased hinvoked
  intro o ho
  apply Or.inl
  cases ho with
  | posting mem task => exact .posting (hpostings ▸ mem) task
  | closure mem =>
    rw [tasks, hengines] at mem
    exact .closure mem
  | queue mem => exact .queue (hdescs ▸ mem)

theorem recorded_access (h : Recorded s) : Recorded (s.access d) :=
  recorded_congr h rfl rfl rfl rfl rfl rfl

theorem recorded_opAdd (h : Recorded s) {a : Task}
    (ha : ∀ o i d, a = .dispatch i d o → Pending s o) : Recorded (opAdd s m a) := by
  apply recorded_same (t := opAdd s m a) h rfl rfl rfl
  intro o ho
  apply Or.inl
  cases ho with
  | posting mem task => exact .posting mem task
  | closure mem =>
    rcases mem_tasks_opAdd.mp mem with ⟨_, heq⟩ | hs
    · exact ha o _ _ heq.symm
    · exact .closure hs
  | queue mem => exact .queue mem

/-- A thread is about to post, an operation or the closure of one without an error. -/
theorem recorded_posting (h : Recorded s) {p : Posting}
    (hp : ∀ i d b, p.task = .dispatch i d b → s.errors b = .success) :
    Recorded { s with postings := s.postings ++ [p] } := by
  apply recorded_same (t := { s with postings := s.postings ++ [p] }) h rfl rfl rfl
  intro b hb
  cases hb with
  | posting mem task =>
    rcases List.mem_append.mp mem with mem | mem
    · exact Or.inl (.posting mem task)
    · rw [List.mem_singleton.mp mem] at task
      exact Or.inr (hp _ _ _ task)
  | closure mem => exact Or.inl (.closure mem)
  | queue mem => exact Or.inl (.queue mem)

theorem recorded_creates {desc : Option DescriptorId} (h : Recorded s)
    (hc : Creates s t m k desc) (hnew : (t.descs s.made).opQueue = fun _ => [])
    (herrors : t.errors = s.errors) (hreleased : t.released = s.released)
    (hinvoked : t.invoked = s.invoked) : Recorded t := by
  apply recorded_same h herrors hreleased hinvoked
  intro o ho
  apply Or.inl
  cases ho with
  | posting mem task => exact .posting (hc.postings ▸ mem) task
  | closure mem =>
    rw [hc.queued] at mem
    exact .closure mem
  | @queue e i mem =>
    by_cases he : e = s.made
    · rw [he, hnew] at mem
      cases mem
    · rw [hc.others e he] at mem
      exact .queue mem

theorem recorded_create (h : Recorded s) (bound : Bool) :
    Recorded (s.create (s.sockets k).engine k bound) := by
  cases bound with
  | false =>
    apply recorded_creates h (creates_notBound (m := (s.sockets k).engine) (k := k)) _ rfl rfl rfl
    exact notBound_queue
  | true =>
    apply recorded_creates h (creates_descriptorCreate (k := k) rfl true) _ rfl rfl rfl
    exact created_queue

theorem recorded_startOn (h : Recorded s) (ho : s.errors o = .success) (thread : Option EngineId)
    (i : Direction) : Recorded (s.startOn thread m i d o) := by
  have hadded : Recorded (descriptorAddRef s d) :=
    recorded_setDesc (v := { s.descs d with cell := (s.descs d).cell.acquire })
      (recorded_access h) fun j b hb => Or.inl hb
  have hposted := recorded_posting hadded (p := ⟨thread, m, .dispatch i d o⟩)
    (fun j e b heq => by cases heq; exact ho)
  exact recorded_congr hposted rfl rfl rfl rfl rfl rfl

theorem recorded_execute (h : Recorded s) (thread : Option EngineId) :
    Recorded (s.execute thread m o) :=
  recorded_congr (recorded_posting h (p := ⟨thread, m, .op o⟩) nofun) rfl rfl rfl rfl rfl rfl

theorem recorded_call (h : Recorded s) (hs : Completion s) (thread : Option EngineId) {c : Call}
    (hc : c.Allowed s) : Recorded (c.effect thread s) := by
  obtain ⟨_, hfresh⟩ := hc
  cases c with
  | socket k m => exact recorded_congr h rfl rfl rfl rfl rfl rfl
  | execute m o => exact recorded_execute h thread
  | connect k o r =>
    obtain ⟨hplace, hsuccess⟩ := hfresh o rfl
    cases r with
    | failed ec => exact recorded_execute (recorded_setError h hs hplace hsuccess ec) thread
    | notBound ec =>
      exact recorded_execute (recorded_setError (recorded_create h false)
        (completion_create hs false) hplace hsuccess ec) thread
    | started =>
      have hcreated := recorded_create (k := k) h true
      have hwaits := recorded_setQueue (d := s.made) (i := .write) (l := [o]) hcreated
        (fun b hb => Or.inr (List.mem_singleton.mp hb ▸ hsuccess))
      exact recorded_congr hwaits rfl rfl rfl rfl rfl rfl
  | openSocket k bound => exact recorded_create h bound
  | start k i o =>
    simp only [Call.effect]
    split
    · exact h
    · exact recorded_startOn h (hfresh o rfl).2 thread i
  | accept k o accepted =>
    simp only [Call.effect]
    split
    · exact h
    · have haccepts : Recorded
          { s with accepts := Function.update s.accepts o (some accepted) } :=
        recorded_congr h rfl rfl rfl rfl rfl rfl
      exact recorded_startOn haccepts (hfresh o rfl).2 thread .read
  | udpWriteNull k o r =>
    obtain ⟨hplace, hsuccess⟩ := hfresh o rfl
    cases r with
    | noFile ec => exact recorded_execute (recorded_setError h hs hplace hsuccess ec) thread
    | notBound ec =>
      exact recorded_execute (recorded_setError (recorded_create h false)
        (completion_create hs false) hplace hsuccess ec) thread
    | opened => exact recorded_startOn (recorded_create h true) hsuccess thread .write
  | udpReadNull k o =>
    obtain ⟨hplace, hsuccess⟩ := hfresh o rfl
    exact recorded_execute (recorded_setError h hs hplace hsuccess .invalid) thread
  | unbind k =>
    simp only [Call.effect]
    split
    · exact h
    · have hunbound : Recorded (s.setSocket k { s.sockets k with desc := none }) :=
        recorded_congr h rfl rfl rfl rfl rfl rfl
      exact recorded_opAdd hunbound (by simp)

/-- The front operation is answered with the error of its handler. -/
theorem recorded_finish (h : Recorded s) (hs : Completion s) {i : Direction}
    (ho : ((s.descs d).opQueue i).head? = some o) (ec : ErrorCode) :
    Recorded (s.finish d i o ec) := by
  have hmem : o ∈ (s.descs d).opQueue i := List.mem_of_mem_head? ho
  have hplace := place_of_queue hs hmem
  have hafter := completion_finish hs ho ec
  have hother {b : OperationId} (hb : b ≠ o) : (s.finish d i o ec).errors b = s.errors b :=
    Function.update_of_ne hb ..
  have hself : (s.finish d i o ec).errors o = ec := Function.update_self ..
  have hinvoked : (s.finish d i o ec).places o = .invoked := Function.update_self ..
  constructor
  · intro b hb
    have hne : b ≠ o := by
      rintro rfl
      exact (hb.place_ne hafter).2 hinvoked
    rw [hother hne]
    apply h.pending b
    cases hb with
    | posting mem task => exact .posting mem task
    | closure mem => exact .closure mem
    | @queue e j mem =>
      by_cases he : e = d
      · subst he
        replace mem : b ∈ (Function.update s.descs e _ e).opQueue j := mem
        rw [Function.update_self] at mem
        by_cases hj : j = i
        · subst hj
          replace mem : b ∈ Function.update (s.descs e).opQueue j _ j := mem
          rw [Function.update_self] at mem
          exact .queue (List.mem_of_mem_tail mem)
        · replace mem : b ∈ Function.update (s.descs e).opQueue i _ j := mem
          rw [Function.update_of_ne hj] at mem
          exact .queue mem
      · replace mem : b ∈ (Function.update s.descs d _ e).opQueue j := mem
        rw [Function.update_of_ne he] at mem
        exact .queue mem
  · intro x hx
    rcases List.mem_append.mp hx with hx | hx
    · have hne : x.1 ≠ o := by
        intro heq
        have hold := place_of_invoked hs hx
        rw [heq, hplace] at hold
        cases hold
      rw [hother hne]
      exact h.invoked x hx
    · rw [List.mem_singleton.mp hx]
      rfl
  · intro b hb
    have hne : b ≠ o := by
      rintro rfl
      have haborted := h.released b hb
      rw [h.pending b (.queue hmem)] at haborted
      cases haborted
    rw [hother hne]
    exact h.released b hb

theorem mem_ops {v : Descriptor} : o ∈ v.ops ↔ ∃ i, o ∈ v.opQueue i := by
  rw [Descriptor.ops, List.mem_append, List.mem_append]
  constructor
  · rintro ((h | h) | h)
    · exact ⟨.read, h⟩
    · exact ⟨.write, h⟩
    · exact ⟨.pri, h⟩
  · rintro ⟨i, h⟩
    cases i with
    | read => exact Or.inl (Or.inl h)
    | write => exact Or.inl (Or.inr h)
    | pri => exact Or.inr h

/-- The operations of a descriptor that is deleted are answered with `aborted`. -/
theorem recorded_abort (h : Recorded s) (hs : Completion s) : Recorded (s.abort m d) := by
  have hops {b : OperationId} (hb : b ∈ (s.descs d).ops) :
      s.errors b = .success ∧ ∃ i, s.places b = .descriptor d i := by
    obtain ⟨i, hi⟩ := mem_ops.mp hb
    exact ⟨h.pending b (.queue hi), i, place_of_queue hs hi⟩
  have herror (b : OperationId) : (s.abort m d).errors b =
      if b ∈ (s.descs d).ops ∧ s.errors b = .success then .aborted else s.errors b := rfl
  have hother {b : OperationId} (hb : b ∉ (s.descs d).ops) :
      (s.abort m d).errors b = s.errors b := by
    rw [herror, if_neg fun hboth => hb hboth.1]
  constructor
  · intro b hb
    have hkept : b ∉ (s.descs d).ops ∧ Pending s b := by
      cases hb with
      | posting mem task =>
        refine ⟨?_, .posting mem task⟩
        intro hmem
        obtain ⟨_, i, hplace⟩ := hops hmem
        rw [place_of_posting hs mem (by rw [task]; rfl)] at hplace
        cases hplace
      | @closure n i e mem =>
        have hold : .dispatch i e b ∈ tasks s n := by
          rcases mem_tasks_abort mem with hold | ⟨_, _, heq⟩
          · exact hold
          · cases heq
        refine ⟨?_, .closure hold⟩
        intro hmem
        obtain ⟨_, j, hplace⟩ := hops hmem
        rw [place_of_task hs hold rfl] at hplace
        cases hplace
      | @queue e i mem =>
        by_cases he : e = d
        · subst he
          replace mem : b ∈ (Function.update s.descs e _ e).opQueue i := mem
          rw [Function.update_self] at mem
          cases mem
        · replace mem : b ∈ (Function.update s.descs d _ e).opQueue i := mem
          rw [Function.update_of_ne he] at mem
          refine ⟨?_, .queue mem⟩
          intro hmem
          obtain ⟨_, j, hplace⟩ := hops hmem
          rw [place_of_queue hs mem] at hplace
          exact he (Place.descriptor.inj hplace).1
    rw [hother hkept.1]
    exact h.pending b hkept.2
  · intro x hx
    have hne : x.1 ∉ (s.descs d).ops := by
      intro hmem
      obtain ⟨_, i, hplace⟩ := hops hmem
      rw [place_of_invoked hs hx] at hplace
      cases hplace
    rw [hother hne]
    exact h.invoked x hx
  · intro b hb
    by_cases hmem : b ∈ (s.descs d).ops
    · rw [herror, if_pos ⟨hmem, (hops hmem).1⟩]
    · rw [hother hmem]
      apply h.released b
      replace hb : (decide (b ∈ (s.descs d).ops) || s.released b) = true := hb
      rw [decide_eq_false hmem] at hb
      exact hb

theorem recorded_release (h : Recorded s) (hs : Completion s) :
    Recorded (descriptorRelease s m d) := by
  rw [descriptorRelease]
  by_cases hlast : (s.descs d).cell.refcount = 1
  · rw [if_pos hlast]
    exact recorded_abort h hs
  · rw [if_neg hlast]
    exact recorded_setDesc (v := { s.descs d with cell := (s.descs d).cell.release })
      (recorded_access h) fun i b hb => Or.inl hb

theorem recorded_invoke (h : Recorded s) : Recorded (s.invoke o) := by
  constructor
  · intro b hb
    apply h.pending b
    cases hb with
    | posting mem task => exact .posting mem task
    | closure mem => exact .closure mem
    | queue mem => exact .queue mem
  · intro x hx
    rcases List.mem_append.mp hx with hx | hx
    · exact h.invoked x hx
    · rw [List.mem_singleton.mp hx]
      rfl
  · exact h.released

section OpRun

variable {ops : List Task} {a : Task}

theorem recorded_popped (h : Recorded s)
    (hframe : (s.engines m).frame = .within (.drain (a :: ops))) :
    Recorded (s.setEngine m (popped s m (.within (.drain ops)))) := by
  apply recorded_setEngine h
  intro b hb
  rw [tasks_of_drain hframe]
  rcases List.mem_append.mp hb with hb | hb
  · exact List.mem_append_left _ hb
  · exact List.mem_append_right _ (List.mem_cons_of_mem a hb)

theorem recorded_opRun (h : Recorded s) (hs : Completion s)
    (hframe : (s.engines m).frame = .within (.drain (a :: ops))) :
    Recorded (opRun s m a ops) := by
  have hpopped := recorded_popped h hframe
  cases a with
  | op o => exact recorded_invoke hpopped
  | dispatch i d o =>
    have hsuccess : s.errors o = .success :=
      h.pending o (.closure (mem_tasks_of_drain hframe))
    have hqueue := recorded_setQueue (d := d) (i := i) (l := (s.descs d).opQueue i ++ [o])
      (recorded_access (d := d) hpopped) (by
        intro b hb
        rcases List.mem_append.mp hb with hb | hb
        · exact Or.inl hb
        · exact Or.inr (List.mem_singleton.mp hb ▸ hsuccess))
    apply recorded_setFrame
    · exact recorded_congr hqueue rfl rfl rfl rfl rfl rfl
    · show _ = Frame.tasks ((s.setEngine m (popped s m (.within (.drain ops)))).engines m).frame
      rw [engines_self]
      rfl
  | unbind d =>
    apply recorded_release _ (completion_unbound hs hframe)
    exact recorded_setDesc
      (v := { s.descs d with fd := false, registered := none, unbound := true })
      (recorded_access hpopped) fun i b hb => Or.inl hb

end OpRun

theorem recorded_dispatchTurn (h : Recorded s) (hs : Completion s) (hi : Invariant s)
    {i : Direction} {dirs : List Direction} {p : Position}
    (hframe : (s.engines m).frame = .dispatching d (i :: dirs) p)
    (ho : ((s.descs d).opQueue i).head? = some o) (r : PostResult)
    (hr : Confines s (.postProc m r)) : Recorded (dispatchTurn s m d i dirs p o r) := by
  have haccess := recorded_access h (d := d)
  have haccess' := completion_access hs (d := d)
  cases r with
  | again =>
    apply recorded_setFrame haccess
    show _ = Frame.tasks (s.engines m).frame
    rw [hframe]
    rfl
  | done ec => exact recorded_finish haccess haccess' ho ec
  | accepted k registered =>
    have hne : d ≠ s.made := Nat.ne_of_lt (live_of_dispatching hi hframe).made
    have hc := creates_descriptorCreate (s := s.access d) (k := k) hr registered
    have hnew : ((descriptorCreate (s.access d) m k registered).descs s.made).opQueue =
      fun _ => [] := created_queue
    apply recorded_finish (recorded_creates haccess hc hnew rfl rfl rfl)
      (completion_creates haccess' hc hnew rfl rfl)
    show (((Function.update s.descs s.made _) d).opQueue i).head? = _
    rw [Function.update_of_ne hne]
    exact ho

theorem recorded_posted (h : Recorded s) {j : Nat} {p : Posting} (hp : s.postings[j]? = some p) :
    Recorded (opAdd { s with postings := s.postings.eraseIdx j } p.engine p.task) := by
  apply recorded_same h (t := opAdd { s with postings := s.postings.eraseIdx j } p.engine p.task)
    rfl rfl rfl
  intro b hb
  apply Or.inl
  cases hb with
  | posting mem task => exact .posting (List.mem_of_mem_eraseIdx mem) task
  | closure mem =>
    rcases mem_tasks_opAdd.mp mem with ⟨_, heq⟩ | hs
    · exact .posting (List.mem_of_getElem? hp) heq.symm
    · exact .closure hs
  | queue mem => exact .queue mem

theorem recorded_step (h : Recorded s) (hs : Completion s) (hi : Invariant s) {x : Step}
    (hx : Enabled s x) (hc : Confines s x) : Recorded (next s x) := by
  cases x with
  | call thread c => exact recorded_call h hs thread hx.1
  | post j =>
    simp only [next]
    split
    · exact h
    · next p hp =>
      have hposted := recorded_posted h hp
      split <;> exact recorded_congr hposted rfl rfl rfl rfl rfl rfl
  | timers m n => exact recorded_setEngine h fun a ha => ha
  | run m =>
    have hframe : (s.engines m).frame = .stopped := hx
    apply recorded_setFrame h
    rw [hframe]
    rfl
  | check m =>
    have hframe : (s.engines m).frame = .loop := hx.2
    simp only [next]
    split
    all_goals
      apply recorded_setFrame h
      rw [hframe]
      rfl
  | epollWait m evs executeOp =>
    apply recorded_setFrame h
    rw [hx.2.1]
    rfl
  | event m =>
    simp only [next]
    split
    · next e evs x hframe =>
      apply recorded_setFrame (recorded_access h)
      show _ = Frame.tasks (s.engines m).frame
      rw [hframe]
      rfl
    · exact h
  | leave m =>
    simp only [next]
    split
    · next hframe =>
      apply recorded_setEngine h
      intro a ha
      rw [tasks, hframe]
      exact List.mem_append_left _ ha
    · apply recorded_setFrame h
      rw [tasks_of_atEnd hx.2]
      rfl
  | opRun m =>
    simp only [next]
    split
    · next a ops hframe => exact recorded_opRun h hs hframe
    · exact h
  | postProc m r =>
    simp only [next]
    split
    · next d i dirs p o hframe ho =>
      rw [State.front, hframe] at ho
      exact recorded_dispatchTurn h hs hi hframe ho r hc
    · exact h
  | advance m =>
    simp only [next]
    split
    · next d dirs p hframe =>
      cases dirs with
      | cons i dirs =>
        apply recorded_setFrame (recorded_access h)
        show _ = Frame.tasks (s.engines m).frame
        rw [hframe]
        rfl
      | nil =>
        cases p with
        | events evs x =>
          apply recorded_setFrame h
          rw [hframe]
          rfl
        | drain ops =>
          have htasks : Frame.tasks (.within (.drain ops)) = Frame.tasks (s.engines m).frame := by
            rw [hframe]
            rfl
          show Recorded ((descriptorRelease s m d).setFrame m (.within (.drain ops)))
          rw [release_setFrame]
          exact recorded_release (recorded_setFrame h htasks) (completion_setFrame hs htasks)
    · exact h

theorem completion_initial : Completion initial := by
  constructor
  · intro o p hp
    cases p with
    | nowhere => exact absurd rfl hp
    | _ => rfl
  · intro d _ i
    rfl

theorem recorded_initial : Recorded initial := by
  constructor
  · intro o _
    rfl
  · exact nofun
  · exact nofun

theorem recorded_execution (h : machine.Execution Confines initial s) :
    Completion s ∧ Recorded s := by
  induction h with
  | refl => exact ⟨completion_initial, recorded_initial⟩
  | tail ht hx hc ih =>
    have hi := invariant_execution ht
    exact ⟨completion_step ih.1 hi hx hc, recorded_step ih.2 ih.1 hi hx hc⟩

/-! ## What a step does to an operation -/

/-- The operation that a step submits. -/
def Step.submits : Step → Option OperationId
  | .call _ c => c.op
  | _ => none

theorem errors_call {c : Call} (hc : c.Allowed s) (thread : Option EngineId)
    (ho : s.errors o ≠ .success) : (c.effect thread s).errors o = s.errors o := by
  have hother {b : OperationId} (hb : b ∈ c.op) (ec : ErrorCode) :
      Function.update s.errors b ec o = s.errors o := by
    apply Function.update_of_ne
    rintro rfl
    exact ho (hc.2 _ hb).2
  cases c with
  | connect k b r =>
    cases r with
    | failed ec => exact hother rfl ec
    | notBound ec => exact hother rfl ec
    | started => rfl
  | openSocket k bound => cases bound <;> rfl
  | start k i b =>
    simp only [Call.effect]
    split <;> rfl
  | accept k b accepted =>
    simp only [Call.effect]
    split <;> rfl
  | udpWriteNull k b r =>
    cases r with
    | noFile ec => exact hother rfl ec
    | notBound ec => exact hother rfl ec
    | opened => rfl
  | udpReadNull k b => exact hother rfl .invalid
  | unbind k =>
    simp only [Call.effect]
    split <;> rfl
  | _ => rfl

theorem errors_release (ho : s.errors o ≠ .success) :
    (descriptorRelease s m d).errors o = s.errors o := by
  rw [descriptorRelease]
  split
  · exact if_neg fun hboth => ho hboth.2
  · rfl

/-- An error that has been recorded stays. -/
theorem errors_next (h : Recorded s) {x : Step} (hx : Enabled s x) (ho : s.errors o ≠ .success) :
    (next s x).errors o = s.errors o := by
  cases x with
  | call thread c => exact errors_call hx.1 thread ho
  | post j =>
    simp only [next]
    split
    · rfl
    · split <;> rfl
  | timers m n => rfl
  | run m => rfl
  | check m =>
    simp only [next]
    split <;> rfl
  | epollWait m evs executeOp => rfl
  | event m =>
    simp only [next]
    split <;> rfl
  | leave m =>
    simp only [next]
    split <;> rfl
  | opRun m =>
    simp only [next]
    split
    · next a ops hframe =>
      cases a with
      | op b => rfl
      | dispatch i d b => rfl
      | unbind d => exact errors_release ho
    · rfl
  | postProc m r =>
    simp only [next]
    split
    · next d i dirs p b hframe hfront =>
      rw [State.front, hframe] at hfront
      have hne : o ≠ b := by
        rintro rfl
        exact ho (h.pending _ (.queue (List.mem_of_mem_head? hfront)))
      cases r with
      | again => rfl
      | done ec => exact Function.update_of_ne hne ..
      | accepted k registered => exact Function.update_of_ne hne ..
    · rfl
  | advance m =>
    simp only [next]
    split
    · next d dirs p hframe =>
      cases dirs with
      | cons i dirs => rfl
      | nil =>
        cases p with
        | events evs x => rfl
        | drain ops => exact errors_release ho
    · rfl

theorem update_ne_nowhere {b : OperationId} {p : Place} (hp : p ≠ .nowhere)
    (ho : s.places o ≠ .nowhere ∨ some b = some o) :
    Function.update s.places b p o ≠ .nowhere := by
  by_cases hb : o = b
  · subst hb
    rw [Function.update_self]
    exact hp
  · rw [Function.update_of_ne hb]
    rcases ho with ho | hbo
    · exact ho
    · exact absurd (Option.some.inj hbo).symm hb

theorem places_create {bound : Bool} : (s.create m k bound).places = s.places := by
  cases bound <;> rfl

theorem places_call {c : Call} (hc : c.Allowed s) (thread : Option EngineId)
    (ho : s.places o ≠ .nowhere ∨ c.op = some o) : (c.effect thread s).places o ≠ .nowhere := by
  have hunchanged (hnone : c.op = none) : s.places o ≠ .nowhere := by
    rcases ho with ho | hop
    · exact ho
    · rw [hnone] at hop
      cases hop
  cases c with
  | socket k m => exact hunchanged rfl
  | execute m b => exact update_ne_nowhere nofun ho
  | connect k b r =>
    cases r with
    | started =>
      show Function.update (s.create (s.sockets k).engine k true).places b _ o ≠ _
      rw [places_create]
      exact update_ne_nowhere nofun ho
    | _ => exact update_ne_nowhere nofun ho
  | openSocket k bound =>
    show (s.create (s.sockets k).engine k bound).places o ≠ _
    rw [places_create]
    exact hunchanged rfl
  | start k i b =>
    have hopen : (s.sockets k).desc.isSome = true := hc.1
    simp only [Call.effect]
    split
    · next hk =>
      rw [hk] at hopen
      cases hopen
    · exact update_ne_nowhere nofun ho
  | accept k b accepted =>
    have hopen : (s.sockets k).desc.isSome = true := hc.1
    simp only [Call.effect]
    split
    · next hk =>
      rw [hk] at hopen
      cases hopen
    · exact update_ne_nowhere nofun ho
  | udpWriteNull k b r => cases r <;> exact update_ne_nowhere nofun ho
  | udpReadNull k b => exact update_ne_nowhere nofun ho
  | unbind k =>
    simp only [Call.effect]
    split
    · exact hunchanged rfl
    · exact hunchanged rfl

theorem places_release (ho : s.places o ≠ .nowhere) :
    (descriptorRelease s m d).places o ≠ .nowhere := by
  rw [descriptorRelease]
  split
  · show (if o ∈ (s.descs d).ops then Place.engine m else s.places o) ≠ _
    split
    · simp
    · exact ho
  · exact ho

/-- A submitted operation is never lost. -/
theorem places_next {x : Step} (hx : Enabled s x)
    (ho : s.places o ≠ .nowhere ∨ Step.submits x = some o) :
    (next s x).places o ≠ .nowhere := by
  by_cases hcall : ∃ thread c, x = .call thread c
  · obtain ⟨thread, c, rfl⟩ := hcall
    exact places_call hx.1 thread ho
  · have hold : s.places o ≠ .nowhere := by
      rcases ho with ho | hsubmits
      · exact ho
      · cases x with
        | call thread c => exact absurd ⟨thread, c, rfl⟩ hcall
        | _ => cases hsubmits
    have hupdate {b : OperationId} {p : Place} (hp : p ≠ .nowhere) :
        Function.update s.places b p o ≠ .nowhere := update_ne_nowhere hp (Or.inl hold)
    cases x with
    | call thread c => exact absurd ⟨thread, c, rfl⟩ hcall
    | post j =>
      simp only [next]
      split
      · exact hold
      · split
        · exact hupdate (by simp)
        · exact hupdate (by simp)
        · exact hold
    | timers m n => exact hold
    | run m => exact hold
    | check m =>
      simp only [next]
      split <;> exact hold
    | epollWait m evs executeOp => exact hold
    | event m =>
      simp only [next]
      split <;> exact hold
    | leave m =>
      simp only [next]
      split <;> exact hold
    | opRun m =>
      simp only [next]
      split
      · next a ops hframe =>
        cases a with
        | op b => exact hupdate (by simp)
        | dispatch i d b => exact hupdate (by simp)
        | unbind d => exact places_release hold
      · exact hold
    | postProc m r =>
      simp only [next]
      split
      · cases r with
        | again => exact hold
        | done ec => exact hupdate (by simp)
        | accepted k registered => exact hupdate (by simp)
      · exact hold
    | advance m =>
      simp only [next]
      split
      · next d dirs p hframe =>
        cases dirs with
        | cons i dirs => exact hold
        | nil =>
          cases p with
          | events evs x => exact hold
          | drain ops => exact places_release hold
      · exact hold

/-! ## The end of a loop -/

/-- The operation is one that engine `m` still has to complete. -/
def Responsible (s : State) (m : EngineId) (o : OperationId) : Prop :=
  match s.places o with
  | .nowhere | .invoked => False
  | .posting => ∃ p ∈ s.postings, Task.operation p.task = some o ∧ p.engine = m
  | .engine n => n = m
  | .descriptor d _ => home s d = m

theorem liveDescriptors_pos (hmade : d < s.made) (hdeleted : (s.descs d).cell.deleted = false)
    (hm : home s d = m) : 0 < liveDescriptors s m := by
  have howns : owns s d m = true := by
    rw [owns, hdeleted]
    simpa [home] using hm
  exact Nat.lt_of_le_of_lt (Nat.zero_le _) (Nat.count_strict_mono howns hmade)

/-- A thread other than that of the loop has not come to the end of its call. -/
theorem unfinished_of_stopped (hi : Invariant s) (hs : Completion s) (hfree : s.Free m)
    (hstop : ((next s (.check m)).engines m).frame = .stopped) (ho : Responsible s m o) :
    ∃ p ∈ s.postings, p.task = .op o ∧ p.engine = m ∧ p.thread ≠ some m := by
  obtain ⟨htasks, hlive, _⟩ := hi.stopped hstop
  cases hplace : s.places o with
  | nowhere =>
    rw [Responsible, hplace] at ho
    exact ho.elim
  | invoked =>
    rw [Responsible, hplace] at ho
    exact ho.elim
  | posting =>
    rw [Responsible, hplace] at ho
    obtain ⟨p, hp, hoperation, hm⟩ := ho
    refine ⟨p, hp, ?_, hm, hfree p hp⟩
    cases htask : p.task with
    | op b =>
      rw [htask] at hoperation
      rw [Option.some.inj hoperation]
    | dispatch i d b =>
      have hhome : home s d = m := (hi.belongs.postings p hp d (by rw [htask]; rfl)).trans hm
      have hcaptured : 0 < s.postings.countP (fun p => Task.captures d p.task) :=
        List.countP_pos_iff.mpr ⟨p, hp, by rw [htask]; exact captures_dispatch.mpr rfl⟩
      have hd := (hi.accounts d).live (Or.inl (by rw [closures]; omega))
      have hpos := liveDescriptors_pos hd.made hd.notDeleted hhome
      omega
    | unbind d =>
      rw [htask] at hoperation
      cases hoperation
  | engine n =>
    rw [Responsible, hplace] at ho
    have hmem : o ∈ held s (.engine n) := hs.placed.mem_of_place (by simp) hplace
    replace hmem : o ∈ (tasks s n).filterMap Task.operation := hmem
    rw [show n = m from ho, htasks] at hmem
    cases hmem
  | descriptor d i =>
    rw [Responsible, hplace] at ho
    have hmem : o ∈ held s (.descriptor d i) := hs.placed.mem_of_place (by simp) hplace
    replace hmem : o ∈ (s.descs d).opQueue i := hmem
    have hfull : ¬ (s.made ≤ d ∨ (s.descs d).cell.deleted = true) := by
      intro hempty
      rw [hs.emptied d hempty i] at hmem
      cases hmem
    have hpos := liveDescriptors_pos (d := d) (m := m)
      (Nat.not_le.mp fun hmade => hfull (Or.inl hmade))
      (Bool.eq_false_iff.mpr fun hdeleted => hfull (Or.inr hdeleted)) ho
    omega

/-- What is promised about operations in a state and the next step. -/
structure CompletesOnce (s : State) : Prop where
  place : ∀ o p, p ≠ .nowhere → (held s p).count o = if s.places o = p then 1 else 0
  submitted : ∀ x o, Enabled s x → s.places o ≠ .nowhere ∨ Step.submits x = some o →
    (next s x).places o ≠ .nowhere
  once : ∀ o, (s.invoked.map Prod.fst).count o ≤ 1
  answer : ∀ o ec, (o, ec) ∈ s.invoked → s.errors o = ec
  recorded : ∀ x o, Enabled s x → s.errors o ≠ .success → (next s x).errors o = s.errors o
  aborted : ∀ o, s.released o = true → s.errors o = .aborted
  /-- Where the loop of an engine ends, only calls of other threads are not over. -/
  returned : ∀ m, Enabled s (.check m) → ((next s (.check m)).engines m).frame = .stopped →
    ∀ o, Responsible s m o →
      ∃ p ∈ s.postings, p.task = .op o ∧ p.engine = m ∧ p.thread ≠ some m

/-- After the closed socket's read has been aborted, the loop ends. -/
def abortedTrace : List Step :=
  closedTrace ++ [.leave 0, .check 0, .epollWait 0 [] true, .leave 0, .opRun 0, .leave 0]

end EpollReferences
