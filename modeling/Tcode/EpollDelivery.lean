import Tcode.EpollCompletion
import Tcode.SupportSimulation

/-! # Order of completion

The operations of one direction of a descriptor are invoked in the order in which their closures
are posted, those that are done as well as those that are aborted.
-/
namespace EpollReferences

open SupportReferenceCount SupportSimulation SupportTransitionSystem EpollMachine

variable {s t : State} {d e : DescriptorId} {i j : Direction} {k : SocketId} {m : EngineId}
  {o : OperationId} {os : List OperationId} {a : Task}

/-- The operations that a step posts for a direction of a descriptor. A socket that connects has
its operation in the queue from the beginning. -/
def posted (d : DescriptorId) (i : Direction) (s : State) : Step → List OperationId
  | .post j =>
    match s.postings[j]? with
    | some ⟨_, _, .dispatch i' d' o⟩ => if d' = d ∧ i' = i then [o] else []
    | _ => []
  | .call _ (.connect _ o .started) => if s.made = d ∧ .write = i then [o] else []
  | _ => []

/-- What engine `m` is going to run, in order. -/
def upcoming (s : State) (m : EngineId) : List Task :=
  Frame.tasks (s.engines m).frame ++ (s.engines m).opQueue

/-- The operation of a task that is going to join the queue, or comes from it: then it is among
those that have been posted. -/
def Task.fromPlace (d : DescriptorId) (i : Direction) (os : List OperationId) :
    Task → Option OperationId
  | .op o => if o ∈ os then some o else none
  | .dispatch i' d' o => if d' = d ∧ i' = i then some o else none
  | .unbind _ => none

/-- Of the operations `os` posted for `i`, those that are invoked come first, then those in the
queue and then those that the engine is going to run. -/
structure InLine (s : State) (d : DescriptorId) (i : Direction) (os : List OperationId) :
    Prop where
  line : os = (s.invoked.map Prod.fst).filter (· ∈ os) ++ (s.descs d).opQueue i ++
    (upcoming s (home s d)).filterMap (Task.fromPlace d i os)
  nodup : os.Nodup
  aborted : ∀ o ∈ os, .op o ∈ upcoming s (home s d) → (s.descs d).cell.deleted = true
  made : s.made ≤ d → os = []

/-! ## What engines are going to run -/

theorem mem_upcoming : a ∈ upcoming s m ↔ a ∈ tasks s m := by
  rw [upcoming, tasks, List.mem_append, List.mem_append, or_comm]

theorem upcoming_self {v : Engine} :
    upcoming (s.setEngine m v) m = Frame.tasks v.frame ++ v.opQueue := by
  rw [upcoming, engines_self]

theorem upcoming_other {v : Engine} {n : EngineId} (h : n ≠ m) :
    upcoming (s.setEngine m v) n = upcoming s n := by
  rw [upcoming, engines_other h, upcoming]

theorem upcoming_opAdd_self : upcoming (opAdd s m a) m = upcoming s m ++ [a] := by
  rw [opAdd, upcoming_self, upcoming, List.append_assoc]

theorem operation_of_fromPlace (h : Task.fromPlace d i os a = some o) :
    Task.operation a = some o := by
  cases a with
  | op b =>
    simp only [Task.fromPlace, Option.ite_none_right_eq_some] at h
    exact h.2
  | dispatch i' d' b =>
    simp only [Task.fromPlace, Option.ite_none_right_eq_some] at h
    exact h.2
  | unbind e => cases h

/-- An operation that has been posted is invoked, in its queue or with its engine. -/
theorem InLine.place (h : InLine s d i os) (hs : Completion s) (ho : o ∈ os) :
    s.places o = .invoked ∨ s.places o = .descriptor d i ∨ s.places o = .engine (home s d) := by
  rw [h.line, List.mem_append, List.mem_append] at ho
  rcases ho with (hinvoked | hqueue) | hengine
  · obtain ⟨x, hx, rfl⟩ := List.mem_map.mp (List.mem_of_mem_filter hinvoked)
    exact Or.inl (place_of_invoked hs hx)
  · exact Or.inr (Or.inl (place_of_queue hs hqueue))
  · obtain ⟨a, ha, heq⟩ := List.mem_filterMap.mp hengine
    exact Or.inr (Or.inr (place_of_task hs (mem_upcoming.mp ha) (operation_of_fromPlace heq)))

/-! ## Steps that leave the line as it is -/

theorem InLine.keep (h : InLine s d i os) (hinvoked : t.invoked = s.invoked)
    (hqueue : (t.descs d).opQueue i = (s.descs d).opQueue i)
    (hdeleted : (t.descs d).cell.deleted = (s.descs d).cell.deleted)
    (hup : upcoming t (home t d) = upcoming s (home s d)) (hmade : s.made ≤ t.made) :
    InLine t d i os := by
  constructor
  · rw [hinvoked, hqueue, hup]
    exact h.line
  · exact h.nodup
  · rw [hup, hdeleted]
    exact h.aborted
  · exact fun hd => h.made (hmade.trans hd)

theorem InLine.congr (h : InLine s d i os) (hinvoked : t.invoked = s.invoked)
    (hdescs : t.descs = s.descs) (hengines : t.engines = s.engines) (hmade : t.made = s.made) :
    InLine t d i os := by
  apply h.keep hinvoked
  · rw [hdescs]
  · rw [hdescs]
  · rw [upcoming, upcoming, home, home, hdescs, hengines]
  · exact hmade.ge

/-- An engine goes on, and is going to run the same. -/
theorem InLine.setEngine (h : InLine s d i os) {v : Engine}
    (hup : Frame.tasks v.frame ++ v.opQueue = upcoming s m) : InLine (s.setEngine m v) d i os := by
  refine h.keep (t := s.setEngine m v) rfl rfl rfl ?_ (Nat.le_refl _)
  have hhome : home (s.setEngine m v) d = home s d := rfl
  rw [hhome]
  by_cases hm : home s d = m
  · rw [hm, upcoming_self, hup]
  · exact upcoming_other hm

theorem InLine.setFrame (h : InLine s d i os) {f : Frame}
    (hf : Frame.tasks f = Frame.tasks (s.engines m).frame) : InLine (s.setFrame m f) d i os := by
  apply h.setEngine
  rw [hf, upcoming]

/-- Of a descriptor only the queue, the engine and its deletion matter. -/
theorem InLine.setDesc (h : InLine s d i os) {v : Descriptor}
    (hqueue : e = d → v.opQueue i = (s.descs e).opQueue i)
    (hdeleted : v.cell.deleted = (s.descs e).cell.deleted) (hhome : v.home = home s e) :
    InLine (s.setDesc e v) d i os := by
  by_cases he : d = e
  · subst he
    have hself : (s.setDesc d v).descs d = v := setDesc_self ..
    apply h.keep (t := s.setDesc d v) rfl
    · rw [hself, hqueue rfl]
    · rw [hself, hdeleted]
    · rw [home, hself, hhome]
      rfl
    · exact Nat.le_refl _
  · have hother : (s.setDesc e v).descs d = s.descs d := setDesc_other he
    apply h.keep (t := s.setDesc e v) rfl
    · rw [hother]
    · rw [hother]
    · rw [home, hother]
      rfl
    · exact Nat.le_refl _

/-- A task that belongs elsewhere is added, or by another engine. -/
theorem InLine.opAdd (h : InLine s d i os)
    (ha : home s d = m → Task.fromPlace d i os a = none) : InLine (opAdd s m a) d i os := by
  by_cases hm : home s d = m
  · have hup : upcoming (EpollMachine.opAdd s m a) (home s d) = upcoming s (home s d) ++ [a] := by
      rw [hm, upcoming_opAdd_self]
    constructor
    · show os = _ ++ (upcoming (EpollMachine.opAdd s m a) (home s d)).filterMap _
      rw [hup, List.filterMap_append, List.filterMap_cons_none (ha hm), List.filterMap_nil,
        List.append_nil]
      exact h.line
    · exact h.nodup
    · intro o ho hin
      replace hin : .op o ∈ upcoming (EpollMachine.opAdd s m a) (home s d) := hin
      rw [hup] at hin
      rcases List.mem_append.mp hin with hin | hin
      · exact h.aborted o ho hin
      · have hnone := ha hm
        rw [← List.mem_singleton.mp hin] at hnone
        simp [Task.fromPlace, ho] at hnone
    · exact h.made
  · exact h.keep (t := EpollMachine.opAdd s m a) rfl rfl rfl (upcoming_other hm) (Nat.le_refl _)

/-- Nothing has been posted for a descriptor of which nothing is heard. -/
theorem inLine_nil (hqueue : (s.descs d).opQueue i = [])
    (hnone : ∀ a ∈ upcoming s (home s d), Task.desc a ≠ some d) : InLine s d i [] := by
  have hup : (upcoming s (home s d)).filterMap (Task.fromPlace d i []) = [] := by
    rw [List.filterMap_eq_nil_iff]
    intro a ha
    cases a with
    | op o => rfl
    | dispatch i' d' o =>
      exact if_neg fun hboth => hnone _ ha (congrArg some hboth.1)
    | unbind e => rfl
  constructor
  · rw [hqueue, hup]
    simp
  · exact List.nodup_nil
  · intro o ho
    cases ho
  · exact fun _ => rfl

theorem upcoming_creates {desc : Option DescriptorId} (hc : Creates s t m k desc) (n : EngineId) :
    upcoming t n = upcoming s n := by
  have htasks := hc.queued n
  rw [tasks, tasks, hc.frames] at htasks
  rw [upcoming, upcoming, hc.frames, List.append_cancel_right htasks]

/-- A descriptor is made. -/
theorem InLine.creates {desc : Option DescriptorId} (h : InLine s d i os) (hi : Invariant s)
    (hc : Creates s t m k desc) (hnew : (t.descs s.made).opQueue = fun _ => [])
    (hinvoked : t.invoked = s.invoked) : InLine t d i os := by
  have hup := upcoming_creates hc
  by_cases hd : d = s.made
  · subst hd
    obtain rfl := h.made (Nat.le_refl _)
    apply inLine_nil
    · rw [hnew]
    · intro a ha
      rw [hup] at ha
      exact hi.fresh.queued _ a (mem_upcoming.mp ha)
  · apply h.keep hinvoked
    · rw [hc.others d hd]
    · rw [hc.others d hd]
    · rw [hup, hc.home_other hd]
    · rw [hc.made]
      exact Nat.le_succ _

/-! ## Posting -/

/-- What is waiting is not changed by an operation that is neither invoked nor run as such. -/
theorem line_append (os : List OperationId) {l : List OperationId} {r : List Task} (hl : o ∉ l) (hr : .op o ∉ r) :
    l.filter (· ∈ os ++ [o]) = l.filter (· ∈ os) ∧
      r.filterMap (Task.fromPlace d i (os ++ [o])) = r.filterMap (Task.fromPlace d i os) := by
  constructor
  · apply List.filter_congr
    intro b hb
    have hne : b ≠ o := fun heq => hl (heq ▸ hb)
    simp [hne]
  · apply List.filterMap_congr
    intro a ha
    cases a with
    | op b =>
      have hne : b ≠ o := fun heq => hr (heq ▸ ha)
      simp [Task.fromPlace, hne]
    | dispatch i' d' b => rfl
    | unbind e => rfl

theorem not_mem_of_place {p : Place} (h : InLine s d i os) (hs : Completion s)
    (hplace : s.places o = p) (hp : p = .nowhere ∨ p = .posting) :
    o ∉ os ∧ o ∉ s.invoked.map Prod.fst ∧ ∀ n, .op o ∉ upcoming s n := by
  refine ⟨fun ho => ?_, fun ho => ?_, fun n ho => ?_⟩
  · rcases h.place hs ho with hother | hother | hother
    all_goals
      rw [hplace] at hother
      rcases hp with rfl | rfl <;> cases hother
  · obtain ⟨x, hx, rfl⟩ := List.mem_map.mp ho
    rw [place_of_invoked hs hx] at hplace
    rcases hp with rfl | rfl <;> cases hplace
  · rw [place_of_task hs (mem_upcoming.mp ho) rfl] at hplace
    rcases hp with rfl | rfl <;> cases hplace

/-- The closure of an operation is posted to the engine of its descriptor. -/
theorem InLine.dispatch (h : InLine s d i os) (hm : home s d = m) (hmade : d < s.made)
    (ho : o ∉ os ∧ o ∉ s.invoked.map Prod.fst ∧ ∀ n, .op o ∉ upcoming s n) :
    InLine (EpollMachine.opAdd s m (.dispatch i d o)) d i (os ++ [o]) := by
  obtain ⟨hnew, hinvoked, hop⟩ := ho
  have hup : upcoming (EpollMachine.opAdd s m (.dispatch i d o)) (home s d) =
      upcoming s (home s d) ++ [.dispatch i d o] := by
    rw [hm, upcoming_opAdd_self]
  obtain ⟨hdone, hcoming⟩ := line_append (d := d) (i := i) os hinvoked (hop (home s d))
  constructor
  · show os ++ [o] = (s.invoked.map Prod.fst).filter (· ∈ os ++ [o]) ++ (s.descs d).opQueue i ++
      (upcoming (EpollMachine.opAdd s m (.dispatch i d o)) (home s d)).filterMap _
    have hlast : Task.fromPlace d i (os ++ [o]) (.dispatch i d o) = some o := if_pos ⟨rfl, rfl⟩
    rw [hup, List.filterMap_append, hdone, hcoming, List.filterMap_cons_some hlast,
      List.filterMap_nil, ← List.append_assoc, ← h.line]
  · exact h.nodup.append (List.nodup_singleton o) (List.disjoint_singleton.mpr hnew)
  · intro b hb hin
    replace hin : .op b ∈ upcoming (EpollMachine.opAdd s m (.dispatch i d o)) (home s d) := hin
    rw [hup] at hin
    rcases List.mem_append.mp hin with hin | hin
    · rcases List.mem_append.mp hb with hb | hb
      · exact h.aborted b hb hin
      · rw [List.mem_singleton.mp hb] at hin
        exact absurd hin (hop _)
    · cases List.mem_singleton.mp hin
  · exact fun hd => absurd hmade (Nat.not_lt.mpr hd)

theorem inLine_post (h : InLine s d i os) (hs : Completion s) (hi : Invariant s) (n : Nat) :
    InLine (next s (.post n)) d i (os ++ posted d i s (.post n)) := by
  simp only [next, posted]
  split
  · next hnone =>
    rw [hnone, List.append_nil]
    exact h
  · next p hp =>
    have hmem := List.mem_of_getElem? hp
    have hleft : InLine { s with postings := s.postings.eraseIdx n } d i os :=
      h.congr rfl rfl rfl rfl
    obtain ⟨thread, m, a⟩ := p
    rw [hp]
    cases a with
    | op o =>
      obtain ⟨hnew, -, -⟩ := not_mem_of_place h hs (place_of_posting hs hmem rfl) (Or.inr rfl)
      simp only [List.append_nil]
      have hadded := hleft.opAdd (m := m) (a := .op o) fun _ => if_neg hnew
      exact hadded.congr rfl rfl rfl rfl
    | dispatch i' d' o =>
      have hnew := not_mem_of_place h hs (place_of_posting hs hmem rfl) (Or.inr rfl)
      have hm : home s d' = m := hi.belongs.postings _ hmem d' rfl
      simp only
      split
      · next hplace =>
        obtain ⟨rfl, rfl⟩ := hplace
        have hpos : 0 < closures s d' := by
          have hcount : 0 < s.postings.countP (fun p => Task.captures d' p.task) :=
            List.countP_pos_iff.mpr ⟨_, hmem, captures_dispatch.mpr rfl⟩
          rw [closures]
          omega
        have hmade := ((hi.accounts d').live (Or.inl hpos)).made
        have hadded := hleft.dispatch (m := m) hm hmade hnew
        exact hadded.congr rfl rfl rfl rfl
      · next hother =>
        rw [List.append_nil]
        have hadded := hleft.opAdd (m := m) (a := .dispatch i' d' o) fun _ => if_neg hother
        exact hadded.congr rfl rfl rfl rfl
    | unbind e =>
      rw [List.append_nil]
      exact hleft.opAdd fun _ => rfl

/-! ## Calls -/

theorem inLine_create (h : InLine s d i os) (hi : Invariant s) (bound : Bool) :
    InLine (s.create (s.sockets k).engine k bound) d i os := by
  cases bound with
  | false =>
    exact h.creates hi (creates_notBound (m := (s.sockets k).engine) (k := k)) notBound_queue rfl
  | true => exact h.creates hi (creates_descriptorCreate (k := k) rfl true) created_queue rfl

theorem InLine.startOn (h : InLine s d i os) (thread : Option EngineId) :
    InLine (s.startOn thread m j e o) d i os := by
  have hacquired : InLine (descriptorAddRef s e) d i os :=
    InLine.setDesc (s := s.access e) (v := { s.descs e with cell := (s.descs e).cell.acquire })
      (h.congr rfl rfl rfl rfl) (fun _ => rfl) rfl rfl
  exact hacquired.congr rfl rfl rfl rfl

/-- The operation of a connect is the first one of its descriptor. -/
theorem InLine.first (h : InLine s d i []) (hnone : (s.descs d).opQueue = fun _ => [])
    (hmade : d < s.made)
    (ho : o ∉ s.invoked.map Prod.fst ∧ ∀ n, .op o ∉ upcoming s n) :
    InLine (s.setDesc d { s.descs d with
      opQueue := Function.update (s.descs d).opQueue i [o] }) d i [o] := by
  obtain ⟨hinvoked, hop⟩ := ho
  obtain ⟨hdone, hcoming⟩ := line_append (d := d) (i := i) [] hinvoked (hop (home s d))
  have hself := setDesc_self s d { s.descs d with
    opQueue := Function.update (s.descs d).opQueue i [o] }
  generalize ht : s.setDesc d _ = t at hself
  have hup : upcoming t (home t d) = upcoming s (home s d) := by
    rw [home, hself, ← ht]
    rfl
  have hsame : t.invoked = s.invoked ∧ t.made = s.made := by
    rw [← ht]
    exact ⟨rfl, rfl⟩
  have hline := h.line
  rw [hnone, List.append_nil] at hline
  obtain ⟨hdone', hcoming'⟩ := List.append_eq_nil_iff.mp hline.symm
  have hqueue : (t.descs d).opQueue i = [o] := by
    rw [hself]
    exact Function.update_self ..
  constructor
  · rw [hup, hqueue, hsame.1]
    rw [List.nil_append, hdone'] at hdone
    rw [List.nil_append, hcoming'] at hcoming
    rw [hdone, hcoming]
    rfl
  · exact List.nodup_singleton o
  · intro b hb hin
    rw [hup, List.mem_singleton.mp hb] at hin
    exact absurd hin (hop _)
  · intro hd
    rw [hsame.2] at hd
    exact absurd hmade (Nat.not_lt.mpr hd)

theorem inLine_connect (h : InLine s d i os) (hs : Completion s) (hi : Invariant s)
    (ho : s.places o = .nowhere) (thread : Option EngineId) :
    InLine (next s (.call thread (.connect k o .started))) d i
      (os ++ posted d i s (.call thread (.connect k o .started))) := by
  have hc := creates_descriptorCreate (k := k) rfl true (m := (s.sockets k).engine) (s := s)
  have hcreated := h.creates hi hc created_queue rfl
  have hnew : ((descriptorCreate s (s.sockets k).engine k true).descs s.made).opQueue =
      fun _ => [] := created_queue
  have hup := upcoming_creates hc
  have hmade := hc.made
  have hinvoked : (descriptorCreate s (s.sockets k).engine k true).invoked = s.invoked := rfl
  have hnext : next s (.call thread (.connect k o .started)) =
      ((descriptorCreate s (s.sockets k).engine k true).setDesc s.made
        { (descriptorCreate s (s.sockets k).engine k true).descs s.made with
          opQueue := Function.update
            ((descriptorCreate s (s.sockets k).engine k true).descs s.made).opQueue .write
              [o] }).setPlace o (.descriptor s.made .write) := rfl
  generalize descriptorCreate s (s.sockets k).engine k true = t at *
  rw [hnext]
  simp only [posted]
  split
  · next hplace =>
    obtain ⟨rfl, rfl⟩ := hplace
    obtain rfl := h.made (Nat.le_refl _)
    obtain ⟨-, hdone, hop⟩ := not_mem_of_place h hs ho (Or.inl rfl)
    have hfirst := hcreated.first (o := o) hnew (hmade ▸ Nat.lt_succ_self _)
      ⟨by rwa [hinvoked], fun n => by rw [hup]; exact hop n⟩
    exact hfirst.congr rfl rfl rfl rfl
  · next hother =>
    rw [List.append_nil]
    have hset := hcreated.setDesc (e := s.made) (v := { t.descs s.made with
        opQueue := Function.update (t.descs s.made).opQueue .write [o] }) ?_ rfl rfl
    · exact hset.congr rfl rfl rfl rfl
    · intro heq
      have hwrite : i ≠ .write := fun hw => hother ⟨heq, hw.symm⟩
      exact Function.update_of_ne hwrite ..

theorem inLine_call (h : InLine s d i os) (hs : Completion s) (hi : Invariant s)
    (thread : Option EngineId) {c : Call} (hc : c.Allowed s) :
    InLine (next s (.call thread c)) d i (os ++ posted d i s (.call thread c)) := by
  cases c with
  | connect k o r =>
    cases r with
    | failed ec =>
      simp only [posted, List.append_nil]
      exact h.congr rfl rfl rfl rfl
    | notBound ec =>
      simp only [posted, List.append_nil]
      exact (inLine_create (k := k) h hi false).congr rfl rfl rfl rfl
    | started => exact inLine_connect h hs hi (hc.2 o rfl).1 thread
  | socket k m =>
    simp only [posted, List.append_nil]
    exact h.congr rfl rfl rfl rfl
  | execute m o =>
    simp only [posted, List.append_nil]
    exact h.congr rfl rfl rfl rfl
  | openSocket k bound =>
    simp only [posted, List.append_nil]
    exact inLine_create h hi bound
  | start k j o =>
    simp only [posted, List.append_nil]
    simp only [next, Call.effect]
    split
    · exact h
    · exact h.startOn thread
  | accept k o accepted =>
    simp only [posted, List.append_nil]
    simp only [next, Call.effect]
    split
    · exact h
    · apply InLine.startOn
      exact h.congr rfl rfl rfl rfl
  | udpWriteNull k o r =>
    simp only [posted, List.append_nil]
    cases r with
    | noFile ec => exact h.congr rfl rfl rfl rfl
    | notBound ec => exact (inLine_create (k := k) h hi false).congr rfl rfl rfl rfl
    | opened => exact (inLine_create (k := k) h hi true).startOn thread
  | udpReadNull k o =>
    simp only [posted, List.append_nil]
    exact h.congr rfl rfl rfl rfl
  | unbind k =>
    simp only [posted, List.append_nil]
    simp only [next, Call.effect]
    split
    · exact h
    · apply InLine.opAdd
      · exact h.congr rfl rfl rfl rfl
      · exact fun _ => rfl

/-! ## The loop thread -/

/-- The operations in another queue are not those of this place. -/
theorem InLine.not_mem (h : InLine s d i os) (hs : Completion s)
    (ho : o ∈ (s.descs e).opQueue j) (hother : ¬ (e = d ∧ j = i)) : o ∉ os := by
  intro hin
  have hplace := place_of_queue hs ho
  rcases h.place hs hin with heq | heq | heq
  · rw [hplace] at heq
    cases heq
  · rw [hplace] at heq
    exact hother (Place.descriptor.inj heq)
  · rw [hplace] at heq
    cases heq

/-- The front operation of a queue is finished. -/
theorem InLine.finish (h : InLine s d i os) (hs : Completion s)
    (ho : ((s.descs e).opQueue j).head? = some o) (ec : ErrorCode) :
    InLine (s.finish e j o ec) d i os := by
  obtain ⟨rest, hfront⟩ : ∃ rest, (s.descs e).opQueue j = o :: rest :=
    List.head?_eq_some_iff.mp ho
  have hinvoked : (s.finish e j o ec).invoked.map Prod.fst = s.invoked.map Prod.fst ++ [o] := by
    show (s.invoked ++ [_]).map Prod.fst = _
    rw [List.map_append]
    rfl
  have hself := finish_descs s e j o ec
  have hup : upcoming (s.finish e j o ec) = upcoming s := rfl
  have hmade : (s.finish e j o ec).made = s.made := rfl
  generalize s.finish e j o ec = t at *
  have hhome : home t d = home s d ∧ (t.descs d).cell = (s.descs d).cell := by
    rw [home, hself]
    by_cases he : d = e
    · rw [he, Function.update_self]
      exact ⟨rfl, rfl⟩
    · rw [Function.update_of_ne he]
      exact ⟨rfl, rfl⟩
  constructor
  · rw [hinvoked, hup, hhome.1, List.filter_append]
    by_cases hplace : e = d ∧ j = i
    · obtain ⟨rfl, rfl⟩ := hplace
      have hmem : o ∈ os := by
        rw [h.line, hfront]
        simp
      have hdone : [o].filter (· ∈ os) = [o] := by simp [hmem]
      have hline := h.line
      rw [hfront] at hline
      have hqueue : (t.descs e).opQueue j = rest := by
        rw [hself, Function.update_self, hfront]
        exact Function.update_self ..
      rw [hdone, hqueue]
      simpa using hline
    · have hnot : o ∉ os := h.not_mem hs (hfront ▸ List.mem_cons_self) hplace
      have hnone : [o].filter (· ∈ os) = [] := by simp [hnot]
      have hqueue : (t.descs d).opQueue i = (s.descs d).opQueue i := by
        rw [hself]
        by_cases he : d = e
        · subst he
          have hne : i ≠ j := fun heq => hplace ⟨rfl, heq.symm⟩
          rw [Function.update_self]
          exact Function.update_of_ne hne ..
        · rw [Function.update_of_ne he]
      rw [hnone, List.append_nil, hqueue]
      exact h.line
  · exact h.nodup
  · rw [hup, hhome.1, hhome.2]
    exact h.aborted
  · rw [hmade]
    exact h.made

section OpRun

variable {ops : List Task} {f : Frame}

theorem upcoming_drain (hframe : (s.engines m).frame = .within (.drain (a :: ops))) :
    upcoming s m = a :: (ops ++ (s.engines m).opQueue) := by
  rw [upcoming, hframe]
  rfl

theorem upcoming_popped (hf : Frame.tasks f = ops) :
    upcoming (s.setEngine m (popped s m f)) m = ops ++ (s.engines m).opQueue := by
  rw [upcoming_self]
  show Frame.tasks f ++ (s.engines m).opQueue = _
  rw [hf]

/-- An engine takes a task that belongs elsewhere. -/
theorem InLine.popped (h : InLine s d i os)
    (hframe : (s.engines m).frame = .within (.drain (a :: ops))) (hf : Frame.tasks f = ops)
    (ha : home s d = m → Task.fromPlace d i os a = none) :
    InLine (s.setEngine m (EpollReferences.popped s m f)) d i os := by
  by_cases hm : home s d = m
  · have hline := h.line
    have haborted := h.aborted
    rw [hm, upcoming_drain hframe] at hline haborted
    rw [List.filterMap_cons_none (ha hm)] at hline
    have hup := upcoming_popped (s := s) (m := m) hf
    constructor
    · show os = _ ++ (upcoming _ (home s d)).filterMap _
      rw [hm, hup]
      exact hline
    · exact h.nodup
    · intro o ho hin
      replace hin : .op o ∈ upcoming (s.setEngine m (EpollReferences.popped s m f))
        (home s d) := hin
      rw [hm, hup] at hin
      exact haborted o ho (List.mem_cons_of_mem _ hin)
    · exact h.made
  · refine h.keep (t := s.setEngine m (EpollReferences.popped s m f)) rfl rfl rfl ?_
      (Nat.le_refl _)
    exact upcoming_other hm

/-- An operation is run: it comes from a descriptor that has been deleted, or from elsewhere. -/
theorem inLine_opRun_op (h : InLine s d i os) (hs : Completion s)
    (hframe : (s.engines m).frame = .within (.drain (.op o :: ops))) :
    InLine (opRun s m (.op o) ops) d i os := by
  have hinvoked : (opRun s m (.op o) ops).invoked.map Prod.fst =
      s.invoked.map Prod.fst ++ [o] := by
    show (s.invoked ++ [_]).map Prod.fst = _
    rw [List.map_append]
    rfl
  have hplace : s.places o = .engine m :=
    place_of_task hs (mem_tasks_of_drain hframe) rfl
  by_cases ho : o ∈ os
  · have hm : home s d = m := by
      rcases h.place hs ho with hother | hother | hother
      all_goals
        rw [hplace] at hother
        cases hother
      rfl
    have hline := h.line
    have haborted := h.aborted
    rw [hm, upcoming_drain hframe] at hline haborted
    have hqueue := hs.emptied d (Or.inr (haborted o ho List.mem_cons_self)) i
    have hhead : Task.fromPlace d i os (.op o) = some o := if_pos ho
    have hdone : [o].filter (· ∈ os) = [o] := by simp [ho]
    have hup : upcoming (opRun s m (.op o) ops) m = ops ++ (s.engines m).opQueue :=
      upcoming_popped (f := .within (.drain ops)) rfl
    constructor
    · show os = _ ++ (s.descs d).opQueue i ++ (upcoming _ (home s d)).filterMap _
      rw [hm, hup, hinvoked, List.filter_append, hdone, hqueue]
      rw [hqueue, List.filterMap_cons_some hhead] at hline
      simpa using hline
    · exact h.nodup
    · intro b hb hin
      replace hin : .op b ∈ upcoming (opRun s m (.op o) ops) (home s d) := hin
      rw [hm, hup] at hin
      exact haborted b hb (List.mem_cons_of_mem _ hin)
    · exact h.made
  · have hpopped := h.popped hframe (f := .within (.drain ops)) rfl fun _ => if_neg ho
    have hnone : [o].filter (· ∈ os) = [] := by simp [ho]
    constructor
    · rw [hinvoked, List.filter_append, hnone, List.append_nil]
      exact hpopped.line
    · exact hpopped.nodup
    · exact hpopped.aborted
    · exact hpopped.made

/-- The operation of a closure joins the queue. -/
theorem inLine_opRun_dispatch (h : InLine s d i os) (hi : Invariant s)
    (hframe : (s.engines m).frame = .within (.drain (.dispatch j e o :: ops))) :
    InLine (opRun s m (.dispatch j e o) ops) d i os := by
  have hm : home s e = m := hi.belongs.tasks m _ (mem_tasks_of_drain hframe) e rfl
  rw [opRun_dispatch_eq]
  by_cases hplace : e = d ∧ j = i
  · obtain ⟨rfl, rfl⟩ := hplace
    have hline := h.line
    have haborted := h.aborted
    rw [hm, upcoming_drain hframe] at hline haborted
    have hhead : Task.fromPlace e j os (.dispatch j e o) = some o := if_pos ⟨rfl, rfl⟩
    rw [List.filterMap_cons_some hhead] at hline
    have hup : upcoming (s.setEngine m (EpollReferences.popped s m
        (.dispatching e [j] (.drain ops)))) m = ops ++ (s.engines m).opQueue := upcoming_popped rfl
    generalize hu : s.setEngine m (EpollReferences.popped s m
      (.dispatching e [j] (.drain ops))) = u at hup
    have hsame : u.invoked = s.invoked ∧ u.made = s.made := by
      rw [← hu]
      exact ⟨rfl, rfl⟩
    have hself := setDesc_self (u.access e) e { s.descs e with
      opQueue := Function.update (s.descs e).opQueue j ((s.descs e).opQueue j ++ [o]) }
    have hengines : ((u.access e).setDesc e { s.descs e with
        opQueue := Function.update (s.descs e).opQueue j
          ((s.descs e).opQueue j ++ [o]) }).engines = u.engines := rfl
    have hrest : ((u.access e).setDesc e { s.descs e with
        opQueue := Function.update (s.descs e).opQueue j
          ((s.descs e).opQueue j ++ [o]) }).invoked = u.invoked ∧
        ((u.access e).setDesc e { s.descs e with
          opQueue := Function.update (s.descs e).opQueue j
            ((s.descs e).opQueue j ++ [o]) }).made = u.made := ⟨rfl, rfl⟩
    generalize (u.access e).setDesc e _ = t at *
    refine InLine.congr (s := t) (t := t.setPlace o (.descriptor e j)) ?_ rfl rfl rfl rfl
    have hupt : upcoming t (home t e) = ops ++ (s.engines m).opQueue := by
      have hhome : home t e = m := by
        rw [home, hself]
        exact hm
      rw [hhome, ← hup, upcoming, upcoming, hengines]
    have hqueue : (t.descs e).opQueue j = (s.descs e).opQueue j ++ [o] := by
      rw [hself]
      exact Function.update_self ..
    constructor
    · rw [hupt, hqueue, hrest.1, hsame.1]
      simpa using hline
    · exact h.nodup
    · intro b hb hin
      rw [hupt] at hin
      rw [hself]
      exact haborted b hb (List.mem_cons_of_mem _ hin)
    · rw [hrest.2, hsame.2]
      exact h.made
  · have hpopped := h.popped hframe (f := .dispatching e [j] (.drain ops)) rfl
      fun _ => if_neg hplace
    have haccess : InLine ((s.setEngine m (EpollReferences.popped s m
        (.dispatching e [j] (.drain ops)))).access e) d i os := hpopped.congr rfl rfl rfl rfl
    have hset := haccess.setDesc (e := e) (v := { s.descs e with
      opQueue := Function.update (s.descs e).opQueue j ((s.descs e).opQueue j ++ [o]) }) ?_ rfl rfl
    · exact hset.congr rfl rfl rfl rfl
    · intro heq
      exact Function.update_of_ne (fun hij => hplace ⟨heq, hij.symm⟩) ..

end OpRun

/-! ## Releases -/

/-- With the last reference the operations of the descriptor go to its engine. -/
theorem inLine_abort (h : InLine s d i os) (hs : Completion s) (hm : home s e = m)
    (hlast : (s.descs e).cell.refcount = 1) (hkept : (s.descs e).cell.deleted = false)
    (hnone : ∀ a ∈ upcoming s m, Task.desc a ≠ some e) : InLine (s.abort m e) d i os := by
  have hup : upcoming (s.abort m e) m = upcoming s m ++ (s.descs e).ops.map .op := by
    show upcoming (State.setEngine _ m _) m = _
    rw [upcoming_self, upcoming, List.append_assoc]
  have hinvoked : (s.abort m e).invoked = s.invoked := rfl
  have hmade : (s.abort m e).made = s.made := rfl
  by_cases hed : d = e
  · subst hed
    have hself : (s.abort m d).descs d =
        { s.descs d with cell := (s.descs d).cell.release, opQueue := fun _ => [] } := by
      rw [abort_descs, Function.update_self]
    have hhome : home (s.abort m d) d = m := by
      rw [home, hself]
      exact hm
    have hnothing : (upcoming s m).filterMap (Task.fromPlace d i os) = [] := by
      rw [List.filterMap_eq_nil_iff]
      intro a ha
      cases a with
      | op o =>
        refine if_neg fun ho => ?_
        have hdeleted := h.aborted o ho (hm ▸ ha)
        rw [hkept] at hdeleted
        cases hdeleted
      | dispatch j x o => exact if_neg fun hboth => hnone _ ha (congrArg some hboth.1)
      | unbind x => rfl
    have hops : ((s.descs d).ops.map Task.op).filterMap (Task.fromPlace d i os) =
        (s.descs d).opQueue i := by
      have hside (j : Direction) (hj : j ≠ i) :
          (((s.descs d).opQueue j).map Task.op).filterMap (Task.fromPlace d i os) = [] := by
        rw [List.filterMap_eq_nil_iff]
        intro a ha
        obtain ⟨o, ho, rfl⟩ := List.mem_map.mp ha
        exact if_neg (h.not_mem hs ho fun heq => hj heq.2)
      have hown : (((s.descs d).opQueue i).map Task.op).filterMap (Task.fromPlace d i os) =
          (s.descs d).opQueue i := by
        rw [List.filterMap_map]
        refine (List.filterMap_congr fun o ho => ?_).trans List.filterMap_some
        have hin : o ∈ os := by
          rw [h.line]
          exact List.mem_append_left _ (List.mem_append_right _ ho)
        exact if_pos hin
      rw [Descriptor.ops, List.map_append, List.map_append, List.filterMap_append,
        List.filterMap_append]
      cases i with
      | read =>
        rw [hown, hside .write (by decide), hside .pri (by decide), List.append_nil,
          List.append_nil]
      | write =>
        rw [hown, hside .read (by decide), hside .pri (by decide), List.append_nil,
          List.nil_append]
      | pri =>
        rw [hown, hside .read (by decide), hside .write (by decide), List.nil_append,
          List.nil_append]
    constructor
    · have hline := h.line
      rw [hm, hnothing, List.append_nil] at hline
      rw [hhome, hup, hself, hinvoked, List.filterMap_append, hnothing, hops, List.nil_append,
        List.append_nil]
      exact hline
    · exact h.nodup
    · intro o _ _
      rw [hself]
      simp [Cell.release, hlast]
    · exact h.made
  · have hother : (s.abort m e).descs d = s.descs d := abort_descs_other hed
    have hfree (b : OperationId) (hb : b ∈ (s.descs e).ops) : b ∉ os := by
      obtain ⟨j, hj⟩ := mem_ops.mp hb
      exact h.not_mem hs hj fun heq => hed heq.1.symm
    by_cases hd : home s d = m
    · have hhome : home (s.abort m e) d = m := by rw [home, hother, ← hd, home]
      have hmore : ((s.descs e).ops.map Task.op).filterMap (Task.fromPlace d i os) = [] := by
        rw [List.filterMap_eq_nil_iff]
        intro a ha
        obtain ⟨o, ho, rfl⟩ := List.mem_map.mp ha
        exact if_neg (hfree o ho)
      constructor
      · rw [hhome, hup, hother, hinvoked, List.filterMap_append, hmore, List.append_nil, ← hd]
        exact h.line
      · exact h.nodup
      · intro o ho hin
        rw [hhome, hup] at hin
        rw [hother]
        rcases List.mem_append.mp hin with hin | hin
        · exact h.aborted o ho (hd ▸ hin)
        · obtain ⟨b, hb, heq⟩ := List.mem_map.mp hin
          exact absurd ho (Task.op.inj heq ▸ hfree b hb)
      · exact h.made
    · apply h.keep (t := s.abort m e) hinvoked
      · rw [hother]
      · rw [hother]
      · have hhome : home (s.abort m e) d = home s d := by rw [home, hother, home]
        rw [hhome]
        exact upcoming_other hd
      · exact Nat.le_refl _

theorem inLine_release (h : InLine s d i os) (hs : Completion s) (hm : home s e = m)
    (hkept : (s.descs e).cell.deleted = false)
    (hnone : (s.descs e).cell.refcount = 1 → ∀ a ∈ upcoming s m, Task.desc a ≠ some e) :
    InLine (descriptorRelease s m e) d i os := by
  rw [descriptorRelease]
  by_cases hlast : (s.descs e).cell.refcount = 1
  · rw [if_pos hlast]
    exact inLine_abort h hs hm hlast hkept (hnone hlast)
  · rw [if_neg hlast]
    have haccess : InLine (s.access e) d i os := h.congr rfl rfl rfl rfl
    apply haccess.setDesc
    · exact fun _ => rfl
    · rw [Cell.release, if_neg hlast]
      rfl
    · rfl

/-! ## Runs -/

theorem inLine_dispatchTurn (h : InLine s d i os) (hs : Completion s) (hi : Invariant s)
    {dirs : List Direction} {p : Position}
    (hframe : (s.engines m).frame = .dispatching e (j :: dirs) p)
    (ho : ((s.descs e).opQueue j).head? = some o) (r : PostResult)
    (hr : Confines s (.postProc m r)) : InLine (dispatchTurn s m e j dirs p o r) d i os := by
  have haccess : InLine (s.access e) d i os := h.congr rfl rfl rfl rfl
  have haccess' := completion_access hs (d := e)
  cases r with
  | again =>
    apply haccess.setFrame
    show _ = Frame.tasks (s.engines m).frame
    rw [hframe]
    rfl
  | done ec => exact haccess.finish haccess' ho ec
  | accepted k registered =>
    have hlive := live_of_dispatching hi hframe
    have hne : e ≠ s.made := Nat.ne_of_lt hlive.made
    have hc := creates_descriptorCreate (s := s.access e) (k := k) hr registered
    have hnew : ((descriptorCreate (s.access e) m k registered).descs s.made).opQueue =
      fun _ => [] := created_queue
    apply (haccess.creates (invariant_access hi hlive) hc hnew rfl).finish
    · exact completion_creates haccess' hc hnew rfl rfl
    · show (((Function.update s.descs s.made _) e).opQueue j).head? = _
      rw [Function.update_of_ne hne]
      exact ho

/-- After the last release nothing refers to the descriptor. -/
theorem unmentioned_of_release {u : State} (hu : Invariant (descriptorRelease u m e))
    (hmade : e < u.made) (hlast : (u.descs e).cell.refcount = 1) : ∀ a ∈ upcoming u m, Task.desc a ≠ some e := by
  have hdeleted : ((descriptorRelease u m e).descs e).cell.deleted = true := by
    obtain ⟨q, hself⟩ := release_self u e m
    rw [hself]
    simp [Cell.release, hlast]
  rw [← release_made u e m] at hmade
  intro a ha
  apply (hu.unmentioned hdeleted hmade).1.queued m a
  rw [tasks, release_engines, if_pos rfl]
  rcases List.mem_append.mp ha with ha | ha
  · exact List.mem_append_right _ ha
  · exact List.mem_append_left _ (List.mem_append_left _ ha)

theorem inLine_opRun {ops : List Task} (h : InLine s d i os) (hs : Completion s)
    (hi : Invariant s) (hnext : Invariant (opRun s m a ops))
    (hframe : (s.engines m).frame = .within (.drain (a :: ops))) :
    InLine (opRun s m a ops) d i os := by
  cases a with
  | op o => exact inLine_opRun_op h hs hframe
  | dispatch j e o => exact inLine_opRun_dispatch h hi hframe
  | unbind e =>
    obtain ⟨hlive, hm⟩ := live_of_mem hi (mem_tasks_of_drain hframe) (d := e) rfl
    have hpopped := h.popped hframe (f := .within (.drain ops)) rfl fun _ => rfl
    have haccess : InLine ((s.setEngine m (EpollReferences.popped s m
        (.within (.drain ops)))).access e) d i os := hpopped.congr rfl rfl rfl rfl
    have hdetached := haccess.setDesc (e := e)
      (v := { s.descs e with fd := false, registered := none, unbound := true })
      (fun _ => rfl) rfl rfl
    have hself := detach_self (s := s.setEngine m (EpollReferences.popped s m
      (.within (.drain ops)))) (d := e)
    apply inLine_release hdetached (completion_unbound hs hframe)
    · show ((detach _ e).descs e).home = m
      rw [hself]
      exact hm
    · show ((detach _ e).descs e).cell.deleted = false
      rw [hself]
      exact hlive.notDeleted
    · exact unmentioned_of_release hnext hlive.made

theorem inLine_step (h : InLine s d i os) (hs : Completion s) (hi : Invariant s) {x : Step}
    (hx : Enabled s x) (hc : Confines s x) :
    InLine (next s x) d i (os ++ posted d i s x) := by
  have hnext := invariant_step hi hx hc
  cases x with
  | call thread c => exact inLine_call h hs hi thread hx.1
  | post j => exact inLine_post h hs hi j
  | timers m n =>
    simp only [posted, List.append_nil]
    exact h.setEngine rfl
  | run m =>
    have hframe : (s.engines m).frame = .stopped := hx
    simp only [posted, List.append_nil]
    apply h.setFrame
    rw [hframe]
    rfl
  | check m =>
    have hframe : (s.engines m).frame = .loop := hx.2
    simp only [posted, List.append_nil, next]
    split
    all_goals
      apply h.setFrame
      rw [hframe]
      rfl
  | epollWait m evs executeOp =>
    simp only [posted, List.append_nil]
    apply h.setFrame
    rw [hx.2.1]
    rfl
  | event m =>
    simp only [posted, List.append_nil, next]
    split
    · next e evs x hframe =>
      have haccess : InLine (s.access e.desc) d i os := h.congr rfl rfl rfl rfl
      apply haccess.setFrame
      show _ = Frame.tasks (s.engines m).frame
      rw [hframe]
      rfl
    · exact h
  | leave m =>
    simp only [posted, List.append_nil, next]
    split
    · next hframe =>
      apply h.setEngine
      rw [upcoming, hframe]
      exact List.append_nil _
    · apply h.setFrame
      rw [tasks_of_atEnd hx.2]
      rfl
  | opRun m =>
    simp only [next] at hnext
    simp only [posted, List.append_nil, next]
    split
    · next a ops hframe =>
      rw [hframe] at hnext
      exact inLine_opRun h hs hi hnext hframe
    · exact h
  | postProc m r =>
    simp only [posted, List.append_nil, next]
    split
    · next e j dirs p o hframe ho =>
      rw [State.front, hframe] at ho
      exact inLine_dispatchTurn h hs hi hframe ho r hc
    · exact h
  | advance m =>
    simp only [next] at hnext
    simp only [posted, List.append_nil, next]
    split
    · next e dirs p hframe =>
      rw [hframe] at hnext
      cases dirs with
      | cons j dirs =>
        have haccess : InLine (s.access e) d i os := h.congr rfl rfl rfl rfl
        apply haccess.setFrame
        show _ = Frame.tasks (s.engines m).frame
        rw [hframe]
        rfl
      | nil =>
        cases p with
        | events evs x =>
          apply h.setFrame
          rw [hframe]
          rfl
        | drain ops =>
          have hclosure : Frame.closure (s.engines m).frame = some e := by
            rw [hframe]
            rfl
          obtain ⟨hlive, hm⟩ := live_of_closure hi hclosure
          have htasks : Frame.tasks (.within (.drain ops)) = Frame.tasks (s.engines m).frame := by
            rw [hframe]
            rfl
          simp only [EpollMachine.advance] at hnext ⊢
          rw [release_setFrame] at hnext ⊢
          exact inLine_release (h.setFrame htasks) (completion_setFrame hs htasks) hm
            hlive.notDeleted (unmentioned_of_release hnext hlive.made)
    · exact h

theorem inLine_run {es : List Step} (h : InLine s d i os) (hs : Completion s) (hi : Invariant s)
    (hes : machine.ValidTrace Confines s es) :
    InLine (machine.runTrace s es) d i (os ++ labels machine (posted d i) s es) := by
  induction es generalizing s os with
  | nil =>
    rw [labels, List.append_nil]
    exact h
  | cons x es ih =>
    obtain ⟨hx, hc, hrest⟩ := hes
    rw [labels, ← List.append_assoc]
    exact ih (inLine_step h hs hi hx hc) (completion_step hs hi hx hc) (invariant_step hi hx hc)
      hrest

/-- When its loop ends, an engine has run all that was posted. -/
theorem InLine.all (h : InLine s d i os) (hs : Completion s) (hi : Invariant s)
    (hstop : ((next s (.check (home s d))).engines (home s d)).frame = .stopped) :
    (s.invoked.map Prod.fst).filter (· ∈ os) = os := by
  obtain ⟨htasks, hlive, -⟩ := hi.stopped hstop
  have hup : upcoming s (home s d) = [] := by
    rw [List.eq_nil_iff_forall_not_mem]
    intro a ha
    rw [mem_upcoming, htasks] at ha
    cases ha
  have hqueue : (s.descs d).opQueue i = [] := by
    apply hs.emptied
    by_contra hkept
    rw [not_or, Nat.not_le, Bool.not_eq_true] at hkept
    have hpos := liveDescriptors_pos hkept.1 hkept.2 rfl
    omega
  have hline := h.line
  rw [hup, hqueue, List.filterMap_nil, List.append_nil, List.append_nil] at hline
  exact hline.symm

/-- What is promised for a direction for which `os` have been posted: these are invoked in this
order, those that are not are in the queue of the descriptor, and behind them those that the
engine has, and when the loop of the engine ends all are invoked. -/
structure InOrder (s : State) (d : DescriptorId) (i : Direction) (os : List OperationId) :
    Prop where
  once : os.Nodup
  line : ∃ rest, os = (s.invoked.map Prod.fst).filter (· ∈ os) ++ (s.descs d).opQueue i ++ rest ∧
    ∀ o ∈ rest, ∃ a ∈ tasks s (home s d), Task.operation a = some o
  all : ((next s (.check (home s d))).engines (home s d)).frame = .stopped →
    (s.invoked.map Prod.fst).filter (· ∈ os) = os

/-- Two reads are submitted and posted the other way round; one is done and the socket is closed. -/
def halfRead : List Step :=
  [.call none (.socket 0 0), .call none (.openSocket 0 true), .call none (.start 0 .read 0),
    .call none (.start 0 .read 1), .post 1, .post 0, .call none (.unbind 0), .run 0, .check 0,
    .epollWait 0 [] true, .leave 0, .opRun 0, .postProc 0 (.done .success), .advance 0, .advance 0,
    .opRun 0, .postProc 0 .again, .advance 0, .opRun 0, .leave 0, .check 0, .epollWait 0 [] true,
    .leave 0, .opRun 0, .leave 0]

end EpollReferences
