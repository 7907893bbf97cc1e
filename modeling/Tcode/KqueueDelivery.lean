import Tcode.KqueueReferences
import Tcode.SupportCompletionQueue

/-! # Delivery by the kqueue multiplexer

Every operation that is handed to the multiplexer is invoked once: when it is done, or when the
last reference to its descriptor goes.
-/
namespace KqueueMachine

open EpollMachine (DescriptorId OperationId)
open SupportCompletionQueue SupportReferenceCount SupportSimulation SupportTransitionSystem

variable {s t : State} {d e : DescriptorId} {f : Filter} {done : OperationId → Bool}
  {q : Store (DescriptorId × Filter) OperationId}

def Task.entry : Task → Option (Entry (DescriptorId × Filter) OperationId)
  | .op o => some (.ready none o)
  | .dispatch f d o => some (.arriving (d, f) o)
  | .unbind _ => none

def Task.arrival : Task → Option ((DescriptorId × Filter) × OperationId)
  | .dispatch f d o => some ((d, f), o)
  | _ => none

/-- The queues that the state stands for. -/
def view (s : State) : View (DescriptorId × Filter) OperationId where
  arrivals := s.postings.filterMap Task.arrival
  work := (work s).filterMap Task.entry
  queue k := (s.descs k.1).opQueue k.2
  closed k := (s.descs k.1).cell.deleted
  completed := s.invoked

/-- What a step does with operations, seen from outside. A socket that connects has its operation
in the queue from the beginning. -/
def outside (s : State) : Event → List (Label (DescriptorId × Filter) OperationId)
  | .opens _ (some o) => [.seed (s.made, .write) o]
  | .take f d o => [.submit (d, f) o]
  | .post (.dispatch f d o) => [.post (d, f) o]
  | .execute o => [.execute o]
  | _ => []

def places (d : DescriptorId) : List (DescriptorId × Filter) := [(d, .read), (d, .write)]

theorem nodup_places : (places d).Nodup := by
  simp [places]

theorem mem_places {k : DescriptorId × Filter} : k ∈ places d ↔ k.1 = d := by
  obtain ⟨e, f⟩ := k
  cases f <;> simp [places]

/-! ## Functions -/

/-- The queues do not depend on the rest of a descriptor. -/
theorem view_update {v : Descriptor} (hdescs : t.descs = Function.update s.descs d v)
    (hqueue : v.opQueue = (s.descs d).opQueue)
    (hdeleted : v.cell.deleted = (s.descs d).cell.deleted) (hpostings : t.postings = s.postings)
    (hwork : work t = work s) (hinvoked : t.invoked = s.invoked) : view t = view s := by
  have hsame (e : DescriptorId) : (t.descs e).opQueue = (s.descs e).opQueue ∧
      (t.descs e).cell.deleted = (s.descs e).cell.deleted := by
    rw [hdescs]
    by_cases he : e = d
    · subst he
      rw [Function.update_self]
      exact ⟨hqueue, hdeleted⟩
    · rw [Function.update_of_ne he]
      exact ⟨rfl, rfl⟩
  apply View.ext
  · exact congrArg (List.filterMap Task.arrival) hpostings
  · exact congrArg (List.filterMap Task.entry) hwork
  · funext k
    exact congrFun (hsame k.1).1 k.2
  · funext k
    exact (hsame k.1).2
  · exact hinvoked

theorem view_closed : view (closed s d) = view s :=
  view_update (d := d) (v := { s.descs d with fd := -1 }) rfl rfl rfl rfl rfl rfl

theorem view_same (hdescs : t.descs = s.descs) (hpostings : t.postings = s.postings)
    (hwork : (work t).filterMap Task.entry = (work s).filterMap Task.entry)
    (hinvoked : t.invoked = s.invoked) : view t = view s := by
  rw [view, view, hdescs, hpostings, hwork, hinvoked]

theorem matched_same (h : Represents (view s) q) (hview : view t = view s) :
    Matched q [] (view t) := by
  rw [hview]
  exact h.matched

theorem view_dispatch : view (descriptorDispatch s d f done) =
    (view s).workOff [(d, f)] (fun _ => true) done := by
  have hself : (descriptorDispatch s d f done).descs d = { s.descs d with
      opQueue := Function.update (s.descs d).opQueue f (((s.descs d).opQueue f).dropWhile done) } :=
    setDesc_self ..
  have hother (e : DescriptorId) (he : e ≠ d) :
      (descriptorDispatch s d f done).descs e = s.descs e := setDesc_ne he
  apply View.ext
  · rfl
  · rfl
  · ext1 ⟨e, g⟩
    show ((descriptorDispatch s d f done).descs e).opQueue g = _
    by_cases he : e = d
    · subst he
      rw [hself]
      by_cases hg : g = f <;> simp [View.workOff, view, hg]
    · simp [hother e he, View.workOff, view, he]
  · ext1 ⟨e, g⟩
    show ((descriptorDispatch s d f done).descs e).cell.deleted = (s.descs e).cell.deleted
    by_cases he : e = d
    · rw [he, hself]
    · rw [hother e he]
  · simp [View.workOff, view, descriptorDispatch]

theorem view_enqueue (o : OperationId) : view (enqueue s f d o) =
    { view s with
      queue := Function.update (view s).queue (d, f) ((view s).queue (d, f) ++ [o]) } := by
  have hself : (enqueue s f d o).descs d = { s.descs d with
      opQueue := Function.update (s.descs d).opQueue f ((s.descs d).opQueue f ++ [o]) } :=
    setDesc_self ..
  have hother (e : DescriptorId) (he : e ≠ d) : (enqueue s f d o).descs e = s.descs e :=
    setDesc_ne he
  apply View.ext
  · rfl
  · rfl
  · ext1 ⟨e, g⟩
    show ((enqueue s f d o).descs e).opQueue g = _
    by_cases he : e = d
    · subst he
      rw [hself]
      by_cases hg : g = f <;> simp [view, hg]
    · simp [hother e he, view, he]
  · ext1 ⟨e, g⟩
    show ((enqueue s f d o).descs e).cell.deleted = (s.descs e).cell.deleted
    by_cases he : e = d
    · rw [he, hself]
    · rw [hother e he]
  · rfl

/-- A descriptor to which no closure refers gets no more operations. -/
theorem quiet_of_captures (h : captures s d = 0) (f : Filter) : (view s).Quiet (d, f) := by
  have hnone : (s.postings ++ work s).countP (Task.captures d) = 0 :=
    Nat.eq_zero_of_add_eq_zero_right h
  rw [List.countP_eq_zero] at hnone
  constructor
  · intro o ho
    obtain ⟨a, ha, heq⟩ := List.mem_filterMap.mp ho
    cases a with
    | dispatch g e o' =>
      obtain rfl : e = d := congrArg (fun x => x.1.1) (Option.some.inj heq)
      exact hnone _ (List.mem_append_left _ ha) (decide_eq_true rfl)
    | op o' => cases heq
    | unbind e => cases heq
  · intro o ho
    obtain ⟨a, ha, heq⟩ := List.mem_filterMap.mp ho
    cases a with
    | dispatch g e o' =>
      obtain rfl : e = d := congrArg Prod.fst (Entry.arriving.inj (Option.some.inj heq)).1
      exact hnone _ (List.mem_append_right _ ha) (decide_eq_true rfl)
    | op o' => cases heq
    | unbind e => cases heq

/-- The last release makes the operations of the descriptor ready. -/
theorem view_last (hlast : (s.descs d).cell.refcount = 1) :
    view (descriptorRelease s d) = (view s).closes (places d) := by
  have heq : descriptorRelease s d =
      { s.setDesc d
          { s.descs d with cell := (s.descs d).cell.release, opQueue := fun _ => [] } with
        opQueue := s.opQueue ++
          ((s.descs d).opQueue .read ++ (s.descs d).opQueue .write).map .op } := if_pos hlast
  have hself : (descriptorRelease s d).descs d =
      { s.descs d with cell := (s.descs d).cell.release, opQueue := fun _ => [] } := by
    rw [heq]
    exact setDesc_self ..
  have hother (e : DescriptorId) (he : e ≠ d) : (descriptorRelease s d).descs e = s.descs e := by
    rw [heq]
    exact setDesc_ne he
  have hdeleted : (s.descs d).cell.release.deleted = true := by rw [Cell.release, if_pos hlast]
  have hentries (os : List OperationId) :
      (os.map Task.op).filterMap Task.entry = os.map (Entry.ready none) := by
    rw [List.filterMap_map]
    exact congrFun (List.filterMap_eq_map (f := Entry.ready none)) os
  have hwork : work (descriptorRelease s d) = work s ++
      ((s.descs d).opQueue .read ++ (s.descs d).opQueue .write).map .op := by
    rw [heq]
    exact (List.append_assoc ..).symm
  apply View.ext
  · rw [heq]
    rfl
  · rw [view, hwork, List.filterMap_append, hentries]
    simp [View.closes, places, view]
  · ext1 ⟨e, f⟩
    show ((descriptorRelease s d).descs e).opQueue f = _
    by_cases he : e = d
    · subst he
      simp [hself, View.closes, mem_places]
    · simp [hother e he, he, View.closes, mem_places, view]
  · ext1 ⟨e, f⟩
    show ((descriptorRelease s d).descs e).cell.deleted = _
    by_cases he : e = d
    · subst he
      simp [hself, hdeleted, View.closes, mem_places]
    · simp [hother e he, he, View.closes, mem_places, view]
  · rw [heq]
    rfl

theorem matched_release (ho : Owned s (only d)) (hd : d < s.made) (h : Represents (view s) q) :
    Matched q [] (view (descriptorRelease s d)) := by
  have hheld := ho.counted d hd
  rw [only, if_pos rfl] at hheld
  by_cases hlast : (s.descs d).cell.refcount = 1
  · rw [view_last hlast]
    have hnone : captures s d = 0 := by
      rw [hheld.last_iff] at hlast
      omega
    apply h.closes nodup_places
    rintro ⟨e, f⟩ hk
    obtain rfl : e = d := mem_places.mp hk
    exact ⟨hheld.notDeleted (Nat.succ_pos _), quiet_of_captures hnone f⟩
  · apply matched_same h
    rw [descriptorRelease, if_neg hlast]
    exact view_update rfl rfl (by rw [Cell.release, if_neg hlast]) rfl rfl rfl

/-! ## Steps -/

theorem matched_opens {fd : Int} {connect : Option OperationId} (ho : Owned s fun _ => 0)
    (h : Represents (view s) q) :
    Matched q (outside s (.opens fd connect)) (view (next s (.opens fd connect))) := by
  have hunmade := ho.unmade s.made (Nat.le_refl _)
  have hself : (next s (.opens fd connect)).descs s.made =
      ⟨fd, fun f => if f = .write then connect.toList else [], .new, [.read, .write]⟩ :=
    Function.update_self ..
  have hother (e : DescriptorId) (he : e ≠ s.made) :
      (next s (.opens fd connect)).descs e = s.descs e := Function.update_of_ne he ..
  have hclosed : (view (next s (.opens fd connect))).closed = (view s).closed := by
    ext1 ⟨e, f⟩
    show ((next s (.opens fd connect)).descs e).cell.deleted = (s.descs e).cell.deleted
    by_cases he : e = s.made
    · rw [he, hself, hunmade.deleted]
      rfl
    · rw [hother e he]
  cases connect with
  | none =>
    apply matched_same h
    refine View.ext rfl rfl ?_ hclosed rfl
    ext1 ⟨e, f⟩
    show ((next s (.opens fd none)).descs e).opQueue f = (s.descs e).opQueue f
    by_cases he : e = s.made
    · rw [he, hself, hunmade.opQueue]
      simp
    · rw [hother e he]
  | some o =>
    have hview : view (next s (.opens fd (some o))) = (view s).seed (s.made, .write) o := by
      refine View.ext rfl rfl ?_ hclosed rfl
      ext1 ⟨e, f⟩
      show ((next s (.opens fd (some o))).descs e).opQueue f = _
      by_cases he : e = s.made
      · rw [he, hself]
        cases f <;> simp [View.seed, view, hunmade.opQueue]
      · rw [hother e he]
        simp [View.seed, view, he]
    rw [hview]
    exact h.seed hunmade.deleted (congrFun hunmade.opQueue _)
      (quiet_of_captures hunmade.captures _)

theorem matched_closure {a : Task} {ts : List Task} {run : Int} (ho : Owned s fun _ => 0)
    (hframe : s.frame = .within (.drain (a :: ts) run)) (h : Represents (view s) q) :
    Matched q [] (view (opRun s done (.drain ts (run + 1)) a)) := by
  have hwork : work s = a :: (ts ++ s.opQueue) := by rw [work, hframe]; rfl
  cases a with
  | op o =>
    have hentries : (view s).work = .ready none o :: (ts ++ s.opQueue).filterMap Task.entry := by
      rw [view, hwork]
      rfl
    exact h.run hentries
  | dispatch f d o =>
    have hentries : (view s).work =
        .arriving (d, f) o :: (ts ++ s.opQueue).filterMap Task.entry := by
      rw [view, hwork]
      rfl
    have hview : view (enqueue (s.goTo (.changing d [.read, .write] (.drain ts (run + 1)))) f d o) =
        (view s).enqueue (d, f) o ((ts ++ s.opQueue).filterMap Task.entry) := by
      rw [view_enqueue]
      rfl
    have henqueue := h.enqueue hentries
    rw [← hview] at henqueue
    refine Matched.trans henqueue fun r hr => ?_
    have hdispatch := hr.workOff (List.nodup_singleton (d, f)) (fun _ => true) done
    rw [← view_dispatch] at hdispatch
    exact hdispatch
  | unbind d =>
    have hin : .unbind d ∈ work s := hwork ▸ List.mem_cons_self
    obtain ⟨hd, hopen⟩ := ho.open_of_unbind hin
    have hrest : view (s.goTo (.within (.drain ts (run + 1)))) = view s := by
      refine view_same rfl rfl ?_ rfl
      rw [hwork, List.filterMap_cons_none rfl]
      rfl
    rw [← hrest, ← view_closed] at h
    have hrelease := matched_release (owned_closed ho hframe) hd h
    rw [← unbindClosure_goTo hopen] at hrelease
    exact hrelease

theorem matched_next {ev : Event} (ho : Owned s fun _ => 0) (hev : Enabled s ev)
    (h : Represents (view s) q) : Matched q (outside s ev) (view (next s ev)) := by
  have hidle (hframe : s.frame.tasks = []) : work s = s.opQueue := work_idle hframe
  cases ev with
  | opens fd connect => exact matched_opens ho h
  | bind d f fs =>
    exact matched_same h
      (view_update (d := d) (v := { s.descs d with binding := fs }) rfl rfl rfl rfl rfl rfl)
  | file fd isOpen =>
    cases isOpen with
    | true => exact matched_same h rfl
    | false => exact matched_same h rfl
  | take f d o =>
    have hone := ho.base_of_held hev
    have hopen : (view s).closed (d, f) = false := by
      apply ho.notDeleted (ho.held d hev).1
      omega
    have hacquired : view (descriptorAddRef s d) = view s := view_update rfl rfl rfl rfl rfl rfl
    have hview : view (next s (.take f d o)) = (view s).submit (d, f) o := by
      rw [← hacquired]
      exact View.ext List.filterMap_append rfl rfl rfl rfl
    rw [hview]
    exact h.submit hopen
  | post a =>
    obtain ⟨f, d, o, rfl⟩ := ho.postings a hev
    have hperm : (view s).arrivals.Perm
        (((d, f), o) :: (s.postings.erase (.dispatch f d o)).filterMap Task.arrival) :=
      (List.perm_cons_erase hev).filterMap Task.arrival
    have hwork : work (next s (.post (.dispatch f d o))) = work s ++ [.dispatch f d o] :=
      (List.append_assoc ..).symm
    have hview : view (next s (.post (.dispatch f d o))) = (view s).post (d, f) o
        ((s.postings.erase (.dispatch f d o)).filterMap Task.arrival) := by
      refine View.ext rfl ?_ rfl rfl rfl
      rw [view, hwork]
      exact List.filterMap_append
    rw [hview]
    exact h.post hperm
  | execute o =>
    have hwork : work (next s (.execute o)) = work s ++ [.op o] := (List.append_assoc ..).symm
    have hview : view (next s (.execute o)) = (view s).execute o := by
      refine View.ext rfl ?_ rfl rfl rfl
      rw [view, hwork]
      exact List.filterMap_append
    rw [hview]
    exact h.execute
  | unbind d =>
    have hwork : work (next s (.unbind d)) = work s ++ [.unbind d] := (List.append_assoc ..).symm
    refine matched_same h (view_same rfl rfl ?_ rfl)
    rw [hwork, List.filterMap_append]
    exact List.append_nil _
  | apply returned =>
    have hwork := hidle (by rw [show s.frame = _ from hev]; rfl)
    exact matched_same h (view_same rfl rfl (congrArg _ hwork.symm) rfl)
  | kevent evs =>
    have hwork := hidle (by rw [hev.1]; rfl)
    show Matched q [] (view (if evs.isEmpty then _ else _))
    split
    · exact matched_same h (view_same rfl rfl (congrArg _ hwork.symm) rfl)
    · exact matched_same h (view_same rfl rfl (congrArg _ hwork.symm) rfl)
  | event ev evs executeOp run done =>
    have hwork := hidle (by rw [show s.frame = _ from hev]; rfl)
    show Matched q [] (view (onEvent s ev evs executeOp run done))
    unfold onEvent
    split
    · next d _ =>
      have hrest : view (s.goTo (.changing d [.read, .write] (.events evs executeOp run))) =
          view s := view_same rfl rfl (congrArg _ hwork.symm) rfl
      rw [← hrest] at h
      have hdispatch := h.workOff (List.nodup_singleton (d, ev.filter)) (fun _ => true) done
      rw [← view_dispatch] at hdispatch
      exact hdispatch
    · exact matched_same h (view_same rfl rfl (congrArg _ hwork.symm) rfl)
  | change d f fs p =>
    refine matched_same h (view_same rfl rfl ?_ rfl)
    rw [work, work, show s.frame = _ from hev]
    rfl
  | dispatched d p =>
    cases p with
    | events evs executeOp run =>
      have hwork := hidle (by rw [show s.frame = _ from hev]; rfl)
      exact matched_same h (view_same rfl rfl (congrArg _ hwork.symm) rfl)
    | drain ops run =>
      have hrest : view (s.goTo (.within (.drain ops run))) = view s := by
        refine view_same rfl rfl ?_ rfl
        rw [work, work, show s.frame = _ from hev]
        rfl
      rw [← hrest] at h
      have hd : d < s.made := made_of_dispatched ho hev
      have hrelease := matched_release (owned_changed ho hev) hd h
      rw [← release_goTo] at hrelease
      exact hrelease
  | endEvents executeOp run =>
    have hwork := hidle (by rw [show s.frame = _ from hev]; rfl)
    cases executeOp with
    | true =>
      have htaken : work (next s (.endEvents true run)) = s.opQueue := List.append_nil _
      exact matched_same h (view_same rfl rfl (congrArg _ (htaken.trans hwork.symm)) rfl)
    | false => exact matched_same h (view_same rfl rfl (congrArg _ hwork.symm) rfl)
  | closure a ts run done => exact matched_closure ho hev h
  | endRun run =>
    have hwork := hidle (by rw [show s.frame = _ from hev]; rfl)
    exact matched_same h (view_same rfl rfl (congrArg _ hwork.symm) rfl)

/-! ## Runs -/

/-- The multiplexer is simulated by the queues that it stands for. -/
theorem simulates (wakeUp : Int) :
    Simulates machine (fun _ _ => True) outside
      (SupportCompletionQueue.machine (DescriptorId × Filter) OperationId) (fun _ _ => True) label
      fun s q => machine.Reachable (initial wakeUp) s ∧ Represents (view s) q := by
  rintro s q ev ⟨hreachable, h⟩ hev -
  obtain ⟨r, hr, hview⟩ := matched_next (owned_run hreachable) hev h
  exact ⟨r, hr, hreachable.tail hev, hview⟩

/-- A socket connects and is to be written to; only the first is done when it is unbound. -/
def halfDone : List Event :=
  [.opens 4 (some 6), .bind 0 .read [.write], .bind 0 .write [], .take .write 0 7,
    .post (.dispatch .write 0 7), .unbind 0, .apply 0, .kevent [⟨3, .read, none⟩],
    .event ⟨3, .read, none⟩ [] false 1 (fun _ => false), .endEvents true 0,
    .closure (.dispatch .write 0 7) [.unbind 0] 0 (fun o => o == 6),
    .change 0 .read [.write] (.drain [.unbind 0] 1), .change 0 .write [] (.drain [.unbind 0] 1),
    .dispatched 0 (.drain [.unbind 0] 1), .closure (.unbind 0) [] 1 (fun _ => false), .endRun 2,
    .apply 2, .kevent [⟨3, .read, none⟩], .event ⟨3, .read, none⟩ [] false 1 (fun _ => false),
    .endEvents true 0, .closure (.op 7) [] 0 (fun _ => false), .endRun 1]

end KqueueMachine
