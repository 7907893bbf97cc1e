import Tcode.PollDelivery
import Tcode.SelectReferences
import Tcode.SupportCompletionQueue

/-! # Delivery by the select multiplexer

Every operation that is handed to the multiplexer is invoked once: when it is done, or when the
last reference to its descriptor goes.
-/
namespace SelectMachine

open EpollMachine (Direction DescriptorId OperationId)
open PollMachine (Task)
open SelectRun (Sets)
open SupportCompletionQueue SupportReferenceCount SupportSimulation SupportTransitionSystem

variable {s t : State} {d e : DescriptorId} {i : Direction} {done : OperationId → Bool}
  {q : Store (DescriptorId × Direction) OperationId} {setSize : Nat}

/-- The queues that the state stands for. -/
def view (s : State) : View (DescriptorId × Direction) OperationId where
  arrivals := s.postings.filterMap PollMachine.Task.arrival
  work := (work s).filterMap PollMachine.Task.entry
  queue k := (s.descs k.1).opQueue k.2
  closed k := (s.descs k.1).cell.deleted
  completed := s.invoked

/-- What a step does with operations, seen from outside. A socket that connects has its operation
in the queue from the beginning. -/
def outside (s : State) : Event → List (Label (DescriptorId × Direction) OperationId)
  | .opens _ (some o) => [.seed (s.made, .write) o]
  | .take i d o => [.submit (d, i) o]
  | .post (.dispatch i d o) => [.post (d, i) o]
  | .execute o => [.execute o]
  | _ => []

/-! ## Functions -/

/-- The queues do not depend on the rest of a descriptor. -/
theorem view_update {v : Descriptor} (hdescs : t.descs = Function.update s.descs d v)
    (hqueue : v.opQueue = (s.descs d).opQueue)
    (hdeleted : v.cell.deleted = (s.descs d).cell.deleted) (hpostings : t.postings = s.postings)
    (hwork : work t = work s) (hinvoked : t.invoked = s.invoked) : view t = view s := by
  have hsame (e : DescriptorId) : (t.descs e).opQueue = (s.descs e).opQueue ∧
      (t.descs e).cell.deleted = (s.descs e).cell.deleted := by
    rw [hdescs]
    by_cases he : e = d
    · subst he
      rw [Function.update_self]
      exact ⟨hqueue, hdeleted⟩
    · rw [Function.update_of_ne he]
      exact ⟨rfl, rfl⟩
  apply View.ext
  · exact congrArg (List.filterMap PollMachine.Task.arrival) hpostings
  · exact congrArg (List.filterMap PollMachine.Task.entry) hwork
  · funext k
    exact congrFun (hsame k.1).1 k.2
  · funext k
    exact (hsame k.1).2
  · exact hinvoked

theorem view_same (hdescs : t.descs = s.descs) (hpostings : t.postings = s.postings)
    (hwork : (work t).filterMap PollMachine.Task.entry =
      (work s).filterMap PollMachine.Task.entry)
    (hinvoked : t.invoked = s.invoked) : view t = view s := by
  rw [view, view, hdescs, hpostings, hwork, hinvoked]

theorem matched_same (h : Represents (view s) q) (hview : view t = view s) :
    Matched q [] (view t) := by
  rw [hview]
  exact h.matched

theorem view_complete (s : State) (d : DescriptorId) (events : Direction → Bool)
    (done : OperationId → Bool) : view (complete s d events done) =
      (view s).workOff (PollMachine.places d) (fun k => events k.2) done := by
  have hself : (complete s d events done).descs d = { s.descs d with
      opQueue := fun i =>
        if events i then ((s.descs d).opQueue i).dropWhile done else (s.descs d).opQueue i } :=
    setDesc_self ..
  have hother (e : DescriptorId) (he : e ≠ d) : (complete s d events done).descs e = s.descs e :=
    setDesc_ne he
  apply View.ext
  · rfl
  · rfl
  · ext1 ⟨e, j⟩
    show ((complete s d events done).descs e).opQueue j = _
    by_cases he : e = d
    · subst he
      simp [hself, View.workOff, PollMachine.mem_places, view]
    · simp [hother e he, View.workOff, PollMachine.mem_places, view, he]
  · ext1 ⟨e, j⟩
    show ((complete s d events done).descs e).cell.deleted = (s.descs e).cell.deleted
    by_cases he : e = d
    · rw [he, hself]
    · rw [hother e he]
  · rfl

theorem matched_complete {events : Direction → Bool} (h : Represents (view s) q) :
    Matched q [] (view (complete s d events done)) := by
  rw [view_complete]
  exact h.workOff PollMachine.nodup_places _ done

/-- A descriptor to which no closure refers gets no more operations. -/
theorem quiet_of_captures (h : captures s d = 0) (i : Direction) : (view s).Quiet (d, i) := by
  rw [captures, List.countP_eq_zero] at h
  constructor
  · intro o ho
    obtain ⟨a, ha, heq⟩ := List.mem_filterMap.mp ho
    cases a with
    | dispatch j e o' =>
      obtain rfl : e = d := congrArg (fun x => x.1.1) (Option.some.inj heq)
      exact h _ (List.mem_append_left _ ha) (decide_eq_true rfl)
    | op o' => cases heq
    | bind e => cases heq
    | unbind e => cases heq
  · intro o ho
    obtain ⟨a, ha, heq⟩ := List.mem_filterMap.mp ho
    cases a with
    | dispatch j e o' =>
      obtain rfl : e = d := congrArg Prod.fst (Entry.arriving.inj (Option.some.inj heq)).1
      exact h _ (List.mem_append_right _ ha) (decide_eq_true rfl)
    | op o' => cases heq
    | bind e => cases heq
    | unbind e => cases heq

theorem view_abort (hlast : (s.descs d).cell.refcount = 1) :
    view (abort s d) = (view s).closes (PollMachine.places d) := by
  have hself : (abort s d).descs d =
      { s.descs d with cell := (s.descs d).cell.release, opQueue := fun _ => [] } :=
    setDesc_self ..
  have hdeleted : (s.descs d).cell.release.deleted = true := by rw [Cell.release, if_pos hlast]
  have hentries (os : List OperationId) :
      (os.map PollMachine.Task.op).filterMap PollMachine.Task.entry =
        os.map (Entry.ready none) := by
    rw [List.filterMap_map]
    exact congrFun (List.filterMap_eq_map (f := Entry.ready none)) os
  apply View.ext
  · rfl
  · have hwork : work (abort s d) = work s ++ (s.descs d).ops.map PollMachine.Task.op :=
      (List.append_assoc ..).symm
    rw [view, hwork, List.filterMap_append, hentries]
    simp [View.closes, PollMachine.places, view, work, Descriptor.ops]
  · ext1 ⟨e, i⟩
    show ((abort s d).descs e).opQueue i = _
    by_cases he : e = d
    · subst he
      simp [hself, View.closes, PollMachine.mem_places]
    · have hother : (abort s d).descs e = s.descs e := setDesc_ne he
      simp [hother, he, View.closes, PollMachine.mem_places, view]
  · ext1 ⟨e, i⟩
    show ((abort s d).descs e).cell.deleted = _
    by_cases he : e = d
    · subst he
      simp [hself, hdeleted, View.closes, PollMachine.mem_places]
    · have hother : (abort s d).descs e = s.descs e := setDesc_ne he
      simp [hother, he, View.closes, PollMachine.mem_places, view]
  · rfl

theorem matched_release (ho : Owned s (only d)) (hd : d < s.made)
    (h : Represents (view s) q) : Matched q [] (view (release s d)) := by
  have hheld := ho.counted d hd
  rw [only, if_pos rfl] at hheld
  unfold release
  split
  · next hlast =>
    rw [view_abort hlast]
    have hnone : captures s d = 0 := by
      rw [hheld.last_iff] at hlast
      omega
    apply h.closes PollMachine.nodup_places
    rintro ⟨e, i⟩ hk
    obtain rfl : e = d := PollMachine.mem_places.mp hk
    exact ⟨hheld.notDeleted (Nat.succ_pos _), quiet_of_captures hnone i⟩
  · next hmore =>
    have hsame : view ((s.access d).setDesc d
        { s.descs d with cell := (s.descs d).cell.release }) = view s :=
      view_update rfl rfl (by rw [Cell.release, if_neg hmore]) rfl rfl rfl
    rw [hsame]
    exact h.matched

/-! ## Steps -/

theorem matched_opens {fd : Int} {connect : Option OperationId} (ho : Owned s fun _ => 0)
    (h : Represents (view s) q) :
    Matched q (outside s (.opens fd connect)) (view (next setSize s (.opens fd connect))) := by
  have hunmade := ho.unmade s.made (Nat.le_refl _)
  have hself : (next setSize s (.opens fd connect)).descs s.made =
      ⟨fd, fun i => if i = .write then connect.toList else [], .new⟩ := Function.update_self ..
  have hother (e : DescriptorId) (he : e ≠ s.made) :
      (next setSize s (.opens fd connect)).descs e = s.descs e := Function.update_of_ne he ..
  have hwork : (view (next setSize s (.opens fd connect))).work = (view s).work := by
    have hmore : work (next setSize s (.opens fd connect)) = work s ++ [.bind s.made] :=
      (List.append_assoc ..).symm
    rw [view, hmore, List.filterMap_append]
    exact List.append_nil _
  have hclosed : (view (next setSize s (.opens fd connect))).closed = (view s).closed := by
    ext1 ⟨e, i⟩
    show ((next setSize s (.opens fd connect)).descs e).cell.deleted = (s.descs e).cell.deleted
    by_cases he : e = s.made
    · rw [he, hself, hunmade.deleted]
      rfl
    · rw [hother e he]
  cases connect with
  | none =>
    apply matched_same h
    refine View.ext rfl hwork ?_ hclosed rfl
    ext1 ⟨e, i⟩
    show ((next setSize s (.opens fd none)).descs e).opQueue i = (s.descs e).opQueue i
    by_cases he : e = s.made
    · rw [he, hself, hunmade.opQueue]
      simp
    · rw [hother e he]
  | some o =>
    have hview : view (next setSize s (.opens fd (some o))) = (view s).seed (s.made, .write) o := by
      refine View.ext rfl hwork ?_ hclosed rfl
      ext1 ⟨e, i⟩
      show ((next setSize s (.opens fd (some o))).descs e).opQueue i = _
      by_cases he : e = s.made
      · rw [he, hself]
        cases i <;> simp [View.seed, view, hunmade.opQueue]
      · rw [hother e he]
        simp [View.seed, view, he]
    rw [hview]
    exact h.seed hunmade.deleted (congrFun hunmade.opQueue _)
      (quiet_of_captures hunmade.captures _)

theorem view_popped {a : Task} {ts : List Task} {run : Int}
    (hframe : s.frame = .drain (a :: ts) run) (hentry : a.entry = none) (run' : Int) :
    view (popped s ts run') = view s := by
  refine view_same rfl rfl ?_ rfl
  rw [work_popped hframe run', List.filterMap_cons_none hentry]

theorem matched_closure {a : Task} {ts : List Task} {run : Int} (ho : Owned s fun _ => 0)
    (hframe : s.frame = .drain (a :: ts) run) (h : Represents (view s) q) :
    Matched q [] (view (opRun (popped s ts (run + 1)) done a)) := by
  have hwork := work_popped hframe (run + 1)
  cases a with
  | op o =>
    have hentries : (view s).work = .ready none o :: (view (popped s ts (run + 1))).work := by
      rw [view, hwork]
      rfl
    exact h.run hentries
  | bind d => exact matched_same h (view_popped hframe rfl (run + 1))
  | dispatch i d o =>
    obtain ⟨hd, hdispatch⟩ : d < s.made ∧ Owned (complete (enqueue (popped s ts (run + 1)) i d o) d
        (fun j => decide (j = i)) done) (only d) := owned_dispatch ho hframe
    have hentries : (view s).work =
        .arriving (d, i) o :: (view (popped s ts (run + 1))).work := by
      rw [view, hwork]
      rfl
    have hview : view (enqueue (popped s ts (run + 1)) i d o) =
        (view s).enqueue (d, i) o (view (popped s ts (run + 1))).work := by
      have hself : (enqueue (popped s ts (run + 1)) i d o).descs d = { s.descs d with
          opQueue := Function.update (s.descs d).opQueue i ((s.descs d).opQueue i ++ [o]) } :=
        setDesc_self ..
      have hother (e : DescriptorId) (he : e ≠ d) :
          (enqueue (popped s ts (run + 1)) i d o).descs e = s.descs e := setDesc_ne he
      apply View.ext
      · rfl
      · rfl
      · ext1 ⟨e, j⟩
        show ((enqueue (popped s ts (run + 1)) i d o).descs e).opQueue j = _
        by_cases he : e = d
        · subst he
          rw [hself]
          by_cases hj : j = i <;> simp [View.enqueue, view, hj]
        · simp [hother e he, View.enqueue, view, he]
      · ext1 ⟨e, j⟩
        show ((enqueue (popped s ts (run + 1)) i d o).descs e).cell.deleted =
          (s.descs e).cell.deleted
        by_cases he : e = d
        · rw [he, hself]
        · rw [hother e he]
      · rfl
    have henqueue := h.enqueue hentries
    rw [← hview] at henqueue
    have hcomplete : Matched q [] (view (complete (enqueue (popped s ts (run + 1)) i d o) d
        (fun j => decide (j = i)) done)) := henqueue.trans fun r hr => matched_complete hr
    exact hcomplete.trans fun r hr => matched_release hdispatch hd hr
  | unbind d =>
    obtain ⟨hd, hmem, hclosed⟩ : d < s.made ∧ d ∈ s.desc ∧
        Owned (close (unregister (popped s ts (run + 1)) d) d) (only d) := owned_close ho hframe
    have hun : Unregistered (popped s ts (run + 1)) (unregister (popped s ts (run + 1)) d) d :=
      unregistered hmem
    have hunregister :
        view (unregister (popped s ts (run + 1)) d) = view (popped s ts (run + 1)) := by
      obtain ⟨-, -, hpostings, -, hinvoked⟩ := hun.rest
      exact view_same hun.descs hpostings (congrArg _ hun.work) hinvoked
    have hclose : view (close (unregister (popped s ts (run + 1)) d) d) =
        view (unregister (popped s ts (run + 1)) d) := view_update rfl rfl rfl rfl rfl rfl
    rw [← view_popped hframe rfl (run + 1), ← hunregister, ← hclose] at h
    exact matched_release hclosed (hun.rest.1.symm ▸ hd) h

theorem matched_next {ev : Event} (ho : Owned s fun _ => 0) (hev : Enabled s ev)
    (h : Represents (view s) q) : Matched q (outside s ev) (view (next setSize s ev)) := by
  cases ev with
  | opens fd connect => exact matched_opens ho h
  | take i d o =>
    have hopen : (view s).closed (d, i) = false :=
      ho.notDeleted_of_base (ho.base_of_held hev.1).1
    have hacquired : view (addRef s d) = view s := view_update rfl rfl rfl rfl rfl rfl
    have hview : view (next setSize s (.take i d o)) = (view s).submit (d, i) o := by
      rw [← hacquired]
      exact View.ext List.filterMap_append rfl rfl rfl rfl
    rw [hview]
    exact h.submit hopen
  | post a =>
    obtain ⟨i, d, o, rfl⟩ := ho.postings a hev
    have hperm : (view s).arrivals.Perm
        (((d, i), o) :: (s.postings.erase (.dispatch i d o)).filterMap PollMachine.Task.arrival) :=
      (List.perm_cons_erase hev).filterMap PollMachine.Task.arrival
    have hwork : work (next setSize s (.post (.dispatch i d o))) = work s ++ [.dispatch i d o] :=
      (List.append_assoc ..).symm
    have hview : view (next setSize s (.post (.dispatch i d o))) = (view s).post (d, i) o
        ((s.postings.erase (.dispatch i d o)).filterMap PollMachine.Task.arrival) := by
      refine View.ext rfl ?_ rfl rfl rfl
      rw [view, hwork]
      exact List.filterMap_append
    rw [hview]
    exact h.post hperm
  | execute o =>
    have hwork : work (next setSize s (.execute o)) = work s ++ [.op o] :=
      (List.append_assoc ..).symm
    have hview : view (next setSize s (.execute o)) = (view s).execute o := by
      refine View.ext rfl ?_ rfl rfl rfl
      rw [view, hwork]
      exact List.filterMap_append
    rw [hview]
    exact h.execute
  | unbind d =>
    have hwork : work (next setSize s (.unbind d)) = work s ++ [.unbind d] :=
      (List.append_assoc ..).symm
    refine matched_same h (view_same rfl rfl ?_ rfl)
    rw [hwork, List.filterMap_append]
    exact List.append_nil _
  | prepare returned =>
    have hwork : work s = s.opQueue := work_idle (by rw [show s.frame = _ from hev]; rfl)
    show Matched q [] (view (prepare setSize s))
    unfold prepare
    split
    · exact matched_same h (view_same rfl rfl (congrArg _ hwork.symm) rfl)
    · exact matched_same h (view_same rfl rfl (congrArg _ hwork.symm) rfl)
  | select copies ret executeOp =>
    have hwork : work s = s.opQueue := work_idle (by rw [show s.frame = _ from hev]; rfl)
    show Matched q [] (view (if ret ≤ 0 then _ else _))
    split
    · exact matched_same h (view_same rfl rfl (congrArg _ hwork.symm) rfl)
    · exact matched_same h (view_same rfl rfl (congrArg _ hwork.symm) rfl)
  | event it d copies executeOp run done =>
    have hwork : work s = s.opQueue := work_idle (by rw [hev.1]; rfl)
    have hrest : view { s with
        frame := .events (it + 1) copies executeOp
          (run + (SelectRun.ready copies (s.descs d).interest).length) } = view s :=
      view_same rfl rfl (congrArg _ hwork.symm) rfl
    rw [← hrest] at h
    exact matched_complete h
  | endEvents it copies executeOp run =>
    have hwork : work s = s.opQueue := work_idle (by rw [hev.1]; rfl)
    cases executeOp with
    | true =>
      have htaken : work (next setSize s (.endEvents it copies true run)) = s.opQueue :=
        List.append_nil _
      exact matched_same h (view_same rfl rfl (congrArg _ (htaken.trans hwork.symm)) rfl)
    | false => exact matched_same h (view_same rfl rfl (congrArg _ hwork.symm) rfl)
  | closure a ts run done => exact matched_closure ho hev h
  | endRun run =>
    have hwork : work s = s.opQueue := work_idle (by rw [show s.frame = _ from hev]; rfl)
    exact matched_same h (view_same rfl rfl (congrArg _ hwork.symm) rfl)

/-! ## Runs -/

/-- The multiplexer is simulated by the queues that it stands for. -/
theorem simulates (setSize : Nat) (wakeUp : Int) :
    Simulates (machine setSize) (fun _ _ => True) outside
      (SupportCompletionQueue.machine (DescriptorId × Direction) OperationId) (fun _ _ => True)
      label
      fun s q => (machine setSize).Reachable (initial wakeUp) s ∧ Represents (view s) q := by
  rintro s q ev ⟨hreachable, h⟩ hev -
  obtain ⟨r, hr, hview⟩ := matched_next (owned_run hreachable) hev h
  exact ⟨r, hr, hreachable.tail hev, hview⟩

/-- A socket connects and is to be written to; the connect is done when the socket is writable,
the write is not when it is unbound. -/
def connected : List Event :=
  [.opens 4 (some 6), .prepare 0, .select ⟨[], []⟩ 1 true, .endEvents 0 ⟨[], []⟩ true 0,
    .closure (.bind 0) [] 0 fun _ => false, .endRun 1, .take .write 0 7,
    .post (.dispatch .write 0 7), .unbind 0, .prepare 1, .select ⟨[], [4]⟩ 2 true,
    .event 0 0 ⟨[], [4]⟩ true 0 (fun _ => true), .endEvents 1 ⟨[], [4]⟩ true 1,
    .closure (.dispatch .write 0 7) [.unbind 0] 1 fun _ => false,
    .closure (.unbind 0) [] 2 fun _ => false, .endRun 3, .prepare 3, .select ⟨[], []⟩ 1 true,
    .endEvents 0 ⟨[], []⟩ true 0, .closure (.op 7) [] 0 fun _ => false, .endRun 1]

end SelectMachine
