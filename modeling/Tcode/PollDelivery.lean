import Tcode.PollCompletion
import Tcode.SupportCompletionQueue

/-! # Delivery by the poll multiplexer

Every operation that is handed to the multiplexer is invoked once: when it is done, or when the
last reference to its descriptor goes. Those of one direction of a descriptor are invoked in the
order in which their closures are posted.
-/
namespace PollMachine

open EpollMachine (Direction DescriptorId OperationId)
open SupportCompletionQueue SupportReferenceCount SupportSimulation SupportTransitionSystem

variable {s t : State} {d : DescriptorId} {m : Mask} {done : OperationId → Bool}
  {q : Store (DescriptorId × Direction) OperationId} {live : List DescriptorId}

/-! ## The queues that the state stands for -/

def Task.entry : Task → Option (Entry (DescriptorId × Direction) OperationId)
  | .op o => some (.ready none o)
  | .dispatch i d o => some (.arriving (d, i) o)
  | .bind _ => none
  | .unbind _ => none

def Task.arrival : Task → Option ((DescriptorId × Direction) × OperationId)
  | .dispatch i d o => some ((d, i), o)
  | _ => none

def view (s : State) : View (DescriptorId × Direction) OperationId where
  arrivals := s.postings.filterMap Task.arrival
  work := (work s).filterMap Task.entry
  queue k := (s.descs k.1).opQueue k.2
  closed k := (s.descs k.1).cell.deleted
  completed := s.invoked

/-- What a step does with operations, seen from outside. A socket that connects has its operation
in the queue from the beginning. -/
def outside (s : State) : Event → List (Label (DescriptorId × Direction) OperationId)
  | .opens _ (some o) => [.seed (s.made, .write) o]
  | .take i d o => [.submit (d, i) o]
  | .post (.dispatch i d o) => [.post (d, i) o]
  | .execute o => [.execute o]
  | _ => []

def places (d : DescriptorId) : List (DescriptorId × Direction) :=
  [(d, .read), (d, .write), (d, .pri)]

theorem nodup_places : (places d).Nodup := by
  simp [places]

theorem mem_places {k : DescriptorId × Direction} : k ∈ places d ↔ k.1 = d := by
  obtain ⟨e, i⟩ := k
  cases i <;> simp [places]

/-! ## Functions -/

theorem view_complete :
    view (complete s d m done) = (view s).workOff (places d) (fun k => m.has k.2) done := by
  have hdescs : (complete s d m done).descs = _ := descs_complete
  have hinvoked : (complete s d m done).invoked = (attempt s d m done).invoked := by
    unfold complete writeInterest
    split
    · rfl
    · rfl
  apply View.ext
  · exact congrArg (List.filterMap Task.arrival) posted_complete.postings
  · exact congrArg (List.filterMap Task.entry) (posted_complete.work.trans (List.append_nil _))
  · ext1 ⟨e, i⟩
    show ((complete s d m done).descs e).opQueue i = _
    by_cases he : e = d
    · subst he
      simp [hdescs, View.workOff, mem_places, Descriptor.attempt, view]
    · simp [hdescs, View.workOff, mem_places, he, view]
  · ext1 ⟨e, i⟩
    exact congrArg Cell.deleted (cell_update hdescs rfl e)
  · rw [view, hinvoked]
    rfl

theorem matched_complete (h : Represents (view s) q) :
    Matched q [] (view (complete s d m done)) := by
  rw [view_complete]
  exact h.workOff nodup_places _ done

/-- A descriptor to which no closure refers gets no more operations. -/
theorem quiet_of_captures (h : captures s d = 0) (i : Direction) : (view s).Quiet (d, i) := by
  rw [captures, List.countP_eq_zero] at h
  constructor
  · intro o ho
    obtain ⟨a, ha, heq⟩ := List.mem_filterMap.mp ho
    cases a with
    | dispatch j e o' =>
      obtain rfl : e = d := congrArg (fun x => x.1.1) (Option.some.inj heq)
      exact h _ (List.mem_append_left _ ha) (decide_eq_true rfl)
    | op o' => cases heq
    | bind e => cases heq
    | unbind e => cases heq
  · intro o ho
    obtain ⟨a, ha, heq⟩ := List.mem_filterMap.mp ho
    cases a with
    | dispatch j e o' =>
      obtain rfl : e = d := congrArg Prod.fst (Entry.arriving.inj (Option.some.inj heq)).1
      exact h _ (List.mem_append_right _ ha) (decide_eq_true rfl)
    | op o' => cases heq
    | bind e => cases heq
    | unbind e => cases heq

/-- The queues do not depend on the rest of a descriptor. -/
theorem view_update {v : Descriptor} (hdescs : t.descs = Function.update s.descs d v)
    (hqueue : v.opQueue = (s.descs d).opQueue)
    (hdeleted : v.cell.deleted = (s.descs d).cell.deleted) (hpostings : t.postings = s.postings)
    (hwork : work t = work s) (hinvoked : t.invoked = s.invoked) : view t = view s := by
  have hsame (e : DescriptorId) : (t.descs e).opQueue = (s.descs e).opQueue ∧
      (t.descs e).cell.deleted = (s.descs e).cell.deleted := by
    rw [hdescs]
    by_cases he : e = d
    · subst he
      rw [Function.update_self]
      exact ⟨hqueue, hdeleted⟩
    · rw [Function.update_of_ne he]
      exact ⟨rfl, rfl⟩
  apply View.ext
  · exact congrArg (List.filterMap Task.arrival) hpostings
  · exact congrArg (List.filterMap Task.entry) hwork
  · funext k
    exact congrFun (hsame k.1).1 k.2
  · funext k
    exact (hsame k.1).2
  · exact hinvoked

theorem view_abort (hlast : (s.descs d).cell.refcount = 1) :
    view (abort s d) = (view s).closes (places d) := by
  have hself : (abort s d).descs d =
      { s.descs d with cell := (s.descs d).cell.release, opQueue := fun _ => [] } :=
    setDesc_self ..
  have hdeleted : (s.descs d).cell.release.deleted = true := by rw [Cell.release, if_pos hlast]
  have hentries (os : List OperationId) :
      (os.map Task.op).filterMap Task.entry = os.map (Entry.ready none) := by
    rw [List.filterMap_map]
    exact congrFun (List.filterMap_eq_map (f := Entry.ready none)) os
  apply View.ext
  · rfl
  · show (s.frame.tasks ++ (s.opQueue ++ (s.descs d).ops.map Task.op)).filterMap Task.entry = _
    rw [← List.append_assoc, List.filterMap_append, hentries]
    simp [View.closes, places, view, work, Descriptor.ops]
  · ext1 ⟨e, i⟩
    show ((abort s d).descs e).opQueue i = _
    by_cases he : e = d
    · subst he
      simp [hself, View.closes, mem_places]
    · have hother : (abort s d).descs e = s.descs e := setDesc_ne he
      simp [hother, he, View.closes, mem_places, view]
  · ext1 ⟨e, i⟩
    show ((abort s d).descs e).cell.deleted = _
    by_cases he : e = d
    · subst he
      simp [hself, hdeleted, View.closes, mem_places]
    · have hother : (abort s d).descs e = s.descs e := setDesc_ne he
      simp [hother, he, View.closes, mem_places, view]
  · rfl

theorem matched_release (hc : Counted s (only d)) (hd : d < s.made)
    (h : Represents (view s) q) : Matched q [] (view (release s d)) := by
  have hheld := hc d hd
  rw [only, if_pos rfl] at hheld
  unfold release
  split
  · next hlast =>
    rw [view_abort hlast]
    have hnone : captures s d = 0 := by
      rw [hheld.last_iff] at hlast
      omega
    apply h.closes nodup_places
    rintro ⟨e, i⟩ hk
    obtain rfl : e = d := mem_places.mp hk
    exact ⟨hheld.notDeleted (Nat.succ_pos _), quiet_of_captures hnone i⟩
  · next hmore =>
    have hsame : view ((s.access d).setDesc d
        { s.descs d with cell := (s.descs d).cell.release }) = view s :=
      view_update rfl rfl (by rw [Cell.release, if_neg hmore]) rfl rfl rfl
    rw [hsame]
    exact h.matched

/-! ## What is not opened yet -/

/-- A descriptor that is not made has no operations, and only closures are posted. -/
structure Fresh (s : State) : Prop where
  unmade : ∀ d, s.made ≤ d → (s.descs d).opQueue = (fun _ => []) ∧ (s.descs d).cell.deleted = false
  postings : ∀ a ∈ s.postings, ∃ i d o, a = .dispatch i d o

/-- A step that makes no descriptor and changes the queues of one that is made. -/
theorem Fresh.update {v : Descriptor} (h : Fresh s) (hd : d < s.made)
    (hdescs : t.descs = Function.update s.descs d v) (hmade : t.made = s.made)
    (hpostings : t.postings = s.postings) : Fresh t := by
  constructor
  · intro x hx
    rw [hmade] at hx
    have hne : x ≠ d := (Nat.lt_of_lt_of_le hd hx).ne'
    rw [hdescs, Function.update_of_ne hne]
    exact h.unmade x hx
  · rw [hpostings]
    exact h.postings

theorem fresh_release (h : Fresh s) (hd : d < s.made) : Fresh (release s d) := by
  unfold release
  split
  · exact h.update hd rfl rfl rfl
  · exact h.update hd rfl rfl rfl

theorem fresh_complete (h : Fresh s) (hd : d < s.made) : Fresh (complete s d m done) :=
  h.update hd descs_complete posted_complete.made posted_complete.postings

theorem opQueue_unregister (x : DescriptorId) :
    ((unregister s d).descs x).opQueue = (s.descs x).opQueue := by
  rcases unregister_descs s d x with heq | ⟨-, i, heq⟩
  · rw [heq]
  · rw [heq]

theorem fresh_unregister (h : Fresh s) : Fresh (unregister s d) where
  unmade x hx := by
    rw [opQueue_unregister, cell_unregister]
    exact h.unmade x (posted_unregister.made ▸ hx)
  postings := by
    rw [posted_unregister.postings]
    exact h.postings

theorem view_unregister : view (unregister s d) = view s := by
  apply View.ext
  · exact congrArg (List.filterMap Task.arrival) posted_unregister.postings
  · exact congrArg (List.filterMap Task.entry) (posted_unregister.work.trans (List.append_nil _))
  · funext k
    exact congrFun (opQueue_unregister k.1) k.2
  · funext k
    exact congrArg Cell.deleted (cell_unregister k.1)
  · unfold unregister remove moved
    split
    · split
      · split
        · rfl
        · rfl
      · rfl
    · rfl

theorem fresh_next {ev : Event} (h : Fresh s) (hs : Invariant s live) (hev : Enabled s ev) :
    Fresh (next s ev) := by
  cases ev with
  | opens fd connect =>
    refine ⟨fun x hx => ?_, h.postings⟩
    have hx' : s.made + 1 ≤ x := hx
    have hne : x ≠ s.made := by omega
    have hother : (next s (.opens fd connect)).descs x = s.descs x := Function.update_of_ne hne ..
    rw [hother]
    exact h.unmade x (by omega)
  | take i d o =>
    have hd := (hs.held d hev.1).1
    have hacquired : Fresh (addRef s d) := h.update hd rfl rfl rfl
    refine ⟨hacquired.unmade, fun a ha => ?_⟩
    rcases List.mem_append.mp ha with ha | ha
    · exact h.postings a ha
    · exact ⟨i, d, o, List.mem_singleton.mp ha⟩
  | post a => exact ⟨h.unmade, fun b hb => h.postings b (List.mem_of_mem_erase hb)⟩
  | execute o => exact ⟨h.unmade, h.postings⟩
  | unbind d => exact ⟨h.unmade, h.postings⟩
  | poll returned nofd revents =>
    show Fresh (beginRun s nofd revents)
    unfold beginRun
    split
    · exact ⟨h.unmade, h.postings⟩
    · exact ⟨h.unmade, h.postings⟩
  | event i executeOp run done =>
    show Fresh (onEvent s i executeOp run done)
    unfold onEvent
    split
    · exact ⟨h.unmade, h.postings⟩
    · exact ⟨h.unmade, h.postings⟩
    · next revents d hready =>
      have hframe : Fresh { s with frame := .events (i + 1) executeOp run } :=
        ⟨h.unmade, h.postings⟩
      exact fresh_complete hframe (hs.entries d (hs.ready hready))
  | endEvents i executeOp run =>
    cases executeOp with
    | false => exact ⟨h.unmade, h.postings⟩
    | true => exact ⟨h.unmade, h.postings⟩
  | closure a ts run done =>
    have hmade := hs.made a (work_popped hev run ▸ List.mem_cons_self)
    have hpopped : Fresh (popped s ts (run + 1)) := ⟨h.unmade, h.postings⟩
    cases a with
    | op o => exact ⟨h.unmade, h.postings⟩
    | bind d => exact hpopped.update (hmade d rfl) rfl rfl rfl
    | dispatch i d o =>
      have hd := hmade d rfl
      have henqueue : Fresh (enqueue (popped s ts (run + 1)) i d o) :=
        hpopped.update hd rfl rfl rfl
      exact fresh_release (fresh_complete henqueue hd) (posted_complete.made.symm ▸ hd)
    | unbind d =>
      have hd : d < (unregister (popped s ts (run + 1)) d).made :=
        posted_unregister.made.symm ▸ hmade d rfl
      have hclose : Fresh (close (unregister (popped s ts (run + 1)) d) d) :=
        (fresh_unregister hpopped).update hd rfl rfl rfl
      exact fresh_release hclose hd
  | endRun run => exact ⟨h.unmade, h.postings⟩

/-! ## Steps -/

theorem Invariant.captures_made (h : Invariant s live) : captures s s.made = 0 := by
  rw [captures, List.countP_eq_zero]
  intro a ha hcaptures
  have hdesc : a.desc = some s.made := by
    cases a with
    | dispatch i e o => exact congrArg some (of_decide_eq_true hcaptures)
    | op o => cases hcaptures
    | bind e => cases hcaptures
    | unbind e => cases hcaptures
  rcases List.mem_append.mp ha with ha | ha
  · exact Nat.lt_irrefl _ ((h.postings a ha).desc hdesc)
  · exact Nat.lt_irrefl _ (h.made a ha _ hdesc)

/-- What leaves alone the operations that wait. -/
theorem view_same (hdescs : t.descs = s.descs) (hpostings : t.postings = s.postings)
    (hwork : (work t).filterMap Task.entry = (work s).filterMap Task.entry)
    (hinvoked : t.invoked = s.invoked) : view t = view s := by
  rw [view, view, hdescs, hpostings, hwork, hinvoked]

theorem view_popped {a : Task} {ts : List Task} {run run' : Int}
    (hframe : s.frame = .drain (a :: ts) run) (hentry : a.entry = none) :
    view (popped s ts run') = view s := by
  refine view_same rfl rfl ?_ rfl
  rw [work_popped hframe run', List.filterMap_cons_none hentry]

theorem matched_same (h : Represents (view s) q) (hview : view t = view s) :
    Matched q [] (view t) := by
  rw [hview]
  exact h.matched

theorem matched_opens {fd : Int} {connect : Option OperationId} (hf : Fresh s)
    (hs : Invariant s live) (h : Represents (view s) q) :
    Matched q (outside s (.opens fd connect)) (view (next s (.opens fd connect))) := by
  obtain ⟨hqueue, hdeleted⟩ := hf.unmade s.made (Nat.le_refl _)
  have hself : (next s (.opens fd connect)).descs s.made =
      ⟨fd, fun i => if i = .write then connect.toList else [], .new, none⟩ :=
    Function.update_self ..
  have hother (e : DescriptorId) (he : e ≠ s.made) :
      (next s (.opens fd connect)).descs e = s.descs e := Function.update_of_ne he ..
  have hwork : (view (next s (.opens fd connect))).work = (view s).work := by
    have hmore : work (next s (.opens fd connect)) = work s ++ [.bind s.made] :=
      (List.append_assoc ..).symm
    rw [view, hmore, List.filterMap_append]
    exact List.append_nil _
  have hclosed : (view (next s (.opens fd connect))).closed = (view s).closed := by
    ext1 ⟨e, i⟩
    show ((next s (.opens fd connect)).descs e).cell.deleted = (s.descs e).cell.deleted
    by_cases he : e = s.made
    · rw [he, hself, hdeleted]
      rfl
    · rw [hother e he]
  cases connect with
  | none =>
    apply matched_same h
    apply View.ext
    · rfl
    · exact hwork
    · ext1 ⟨e, i⟩
      show ((next s (.opens fd none)).descs e).opQueue i = (s.descs e).opQueue i
      by_cases he : e = s.made
      · rw [he, hself, hqueue]
        simp
      · rw [hother e he]
    · exact hclosed
    · rfl
  | some o =>
    have hview : view (next s (.opens fd (some o))) = (view s).seed (s.made, .write) o := by
      apply View.ext
      · rfl
      · exact hwork
      · ext1 ⟨e, i⟩
        show ((next s (.opens fd (some o))).descs e).opQueue i = _
        by_cases he : e = s.made
        · rw [he, hself]
          cases i <;> simp [View.seed, view, hqueue]
        · rw [hother e he]
          simp [View.seed, view, he]
      · exact hclosed
      · rfl
    rw [hview]
    exact h.seed hdeleted (congrFun hqueue _) (quiet_of_captures hs.captures_made _)

theorem matched_closure {a : Task} {ts : List Task} {run : Int} (hs : Invariant s live)
    (hc : Counted s fun _ => 0) (hframe : s.frame = .drain (a :: ts) run)
    (h : Represents (view s) q) :
    Matched q [] (view (opRun (popped s ts (run + 1)) done a)) := by
  have hwork := work_popped hframe (run + 1)
  have hin : a ∈ work s := hwork ▸ List.mem_cons_self
  cases a with
  | op o =>
    have hentries : (view s).work = .ready none o :: (view (popped s ts (run + 1))).work := by
      rw [view, hwork]
      rfl
    exact h.run hentries
  | bind d =>
    have hbound : view (bindClosure (popped s ts (run + 1)) d) = view (popped s ts (run + 1)) :=
      view_update rfl rfl rfl rfl rfl rfl
    exact matched_same h (hbound.trans (view_popped hframe rfl))
  | dispatch i d o =>
    have hd := hs.made _ hin d rfl
    have hentries : (view s).work =
        .arriving (d, i) o :: (view (popped s ts (run + 1))).work := by
      rw [view, hwork]
      rfl
    have hview : view (enqueue (popped s ts (run + 1)) i d o) =
        (view s).enqueue (d, i) o (view (popped s ts (run + 1))).work := by
      apply View.ext
      · rfl
      · rfl
      · ext1 ⟨e, j⟩
        show ((enqueue (popped s ts (run + 1)) i d o).descs e).opQueue j = _
        by_cases he : e = d
        · subst he
          rw [enqueue_descs]
          by_cases hj : j = i <;> simp [View.enqueue, view, hj, popped]
        · have hother : (enqueue (popped s ts (run + 1)) i d o).descs e = s.descs e :=
            setDesc_ne he
          simp [hother, View.enqueue, view, he]
      · ext1 ⟨e, j⟩
        exact congrArg Cell.deleted
          (cell_update (t := enqueue (popped s ts (run + 1)) i d o) rfl rfl e)
      · rfl
    have henqueue := h.enqueue hentries
    rw [← hview] at henqueue
    have hcomplete :
        Matched q [] (view (complete (enqueue (popped s ts (run + 1)) i d o) d (.of i) done)) :=
      henqueue.trans fun r hr => matched_complete hr
    have hmade : d < (complete (enqueue (popped s ts (run + 1)) i d o) d (.of i) done).made :=
      posted_complete.made.symm ▸ hd
    exact hcomplete.trans fun r hr => matched_release (counted_dispatch hc hs hframe) hmade hr
  | unbind d =>
    have hopen := hs.open_of_unbind hin
    have hd : d < (close (unregister (popped s ts (run + 1)) d) d).made :=
      posted_unregister.made.symm ▸ hs.made _ hin d rfl
    have hclose : view (close (unregister (popped s ts (run + 1)) d) d) =
        view (unregister (popped s ts (run + 1)) d) := view_update rfl rfl rfl rfl rfl rfl
    rw [← view_popped hframe rfl, ← view_unregister, ← hclose] at h
    exact matched_release (counted_unbind hc hs hopen hframe) hd h

theorem matched_next {ev : Event} (hf : Fresh s) (hs : Invariant s live)
    (hc : Counted s fun _ => 0) (hev : Enabled s ev) (h : Represents (view s) q) :
    Matched q (outside s ev) (view (next s ev)) := by
  cases ev with
  | opens fd connect => exact matched_opens hf hs h
  | take i d o =>
    have hopen := hs.open_of_held hev.1
    have hdeleted : (view s).closed (d, i) = false :=
      hc.notDeleted_of_open (hs.held d hev.1).1 hopen
    have hacquired : view (addRef s d) = view s := view_update rfl rfl rfl rfl rfl rfl
    have hview : view (next s (.take i d o)) = (view s).submit (d, i) o := by
      rw [← hacquired]
      apply View.ext
      · exact List.filterMap_append
      · rfl
      · rfl
      · rfl
      · rfl
    rw [hview]
    exact h.submit hdeleted
  | post a =>
    obtain ⟨i, d, o, rfl⟩ := hf.postings a hev
    have hperm : (view s).arrivals.Perm
        (((d, i), o) :: (s.postings.erase (.dispatch i d o)).filterMap Task.arrival) :=
      (List.perm_cons_erase hev).filterMap Task.arrival
    have hwork : work (next s (.post (.dispatch i d o))) = work s ++ [.dispatch i d o] :=
      (List.append_assoc ..).symm
    have hview : view (next s (.post (.dispatch i d o))) = (view s).post (d, i) o
        ((s.postings.erase (.dispatch i d o)).filterMap Task.arrival) := by
      apply View.ext
      · rfl
      · rw [view, hwork]
        exact List.filterMap_append
      · rfl
      · rfl
      · rfl
    rw [hview]
    exact h.post hperm
  | execute o =>
    have hwork : work (next s (.execute o)) = work s ++ [.op o] := (List.append_assoc ..).symm
    have hview : view (next s (.execute o)) = (view s).execute o := by
      apply View.ext
      · rfl
      · rw [view, hwork]
        exact List.filterMap_append
      · rfl
      · rfl
      · rfl
    rw [hview]
    exact h.execute
  | unbind d =>
    have hwork : work (next s (.unbind d)) = work s ++ [.unbind d] := (List.append_assoc ..).symm
    refine matched_same h (view_same rfl rfl ?_ rfl)
    rw [hwork, List.filterMap_append]
    exact List.append_nil _
  | poll returned nofd revents =>
    have hwork : work s = s.opQueue := work_of_noTasks (by rw [hev.1]; rfl)
    have hview : view (beginRun s nofd revents) = view s := by
      unfold beginRun
      split
      · exact view_same rfl rfl (congrArg _ hwork.symm) rfl
      · exact view_same rfl rfl (congrArg _ hwork.symm) rfl
    exact matched_same h hview
  | event i executeOp run done =>
    have hwork : work s = s.opQueue := work_of_noTasks (by rw [hev.1]; rfl)
    show Matched q [] (view (onEvent s i executeOp run done))
    unfold onEvent
    split
    · exact matched_same h (view_same rfl rfl (congrArg _ hwork.symm) rfl)
    · exact matched_same h (view_same rfl rfl (congrArg _ hwork.symm) rfl)
    · next revents d _ =>
      have hframe : view { s with frame := .events (i + 1) executeOp run } = view s :=
        view_same rfl rfl (congrArg _ hwork.symm) rfl
      rw [← hframe] at h
      exact matched_complete h
  | endEvents i executeOp run =>
    have hwork : work s = s.opQueue := work_of_noTasks (by rw [hev.1]; rfl)
    cases executeOp with
    | false => exact matched_same h (view_same rfl rfl (congrArg _ hwork.symm) rfl)
    | true =>
      have htaken : work (next s (.endEvents i true run)) = s.opQueue := List.append_nil _
      exact matched_same h (view_same rfl rfl (congrArg _ (htaken.trans hwork.symm)) rfl)
  | closure a ts run done => exact matched_closure hs hc hev h
  | endRun run =>
    have hwork : work s = s.opQueue := work_of_noTasks (by rw [hev]; rfl)
    exact matched_same h (view_same rfl rfl (congrArg _ hwork.symm) rfl)

/-! ## Runs -/

theorem fresh_run {wakeUp : Int} (h : machine.Reachable (initial wakeUp) s) : Fresh s := by
  apply System.Execution.invariant h
  · exact ⟨fun d _ => ⟨rfl, rfl⟩, nofun⟩
  · intro u ev hu hfresh hev _
    obtain ⟨live, hinvariant⟩ := invariant_run hu
    exact fresh_next hfresh hinvariant hev

/-- The multiplexer is simulated by the queues that it stands for. -/
theorem simulates (wakeUp : Int) :
    Simulates machine (fun _ _ => True) outside
      (SupportCompletionQueue.machine (DescriptorId × Direction) OperationId) (fun _ _ => True)
      label
      fun s q => machine.Reachable (initial wakeUp) s ∧ Represents (view s) q := by
  rintro s q ev ⟨hreachable, h⟩ hev -
  obtain ⟨live, hinvariant⟩ := invariant_run hreachable
  obtain ⟨r, hr, hview⟩ :=
    matched_next (fresh_run hreachable) hinvariant (counted_run hreachable) hev h
  exact ⟨r, hr, hreachable.tail hev, hview⟩

/-- A socket connects and is to be written to; neither is done when it is unbound. -/
def aborted : List Event :=
  [.opens 4 (some 6), .take .write 0 7, .post (.dispatch .write 0 7), .unbind 0,
    .poll 0 1 [.of .read], .event 0 false 1 (fun _ => false), .endEvents 1 true 0,
    .closure (.bind 0) [.dispatch .write 0 7, .unbind 0] 0 fun _ => false,
    .closure (.dispatch .write 0 7) [.unbind 0] 1 fun _ => false,
    .closure (.unbind 0) [] 2 fun _ => false, .endRun 3, .poll 3 1 [.of .read],
    .event 0 false 1 (fun _ => false), .endEvents 1 true 0,
    .closure (.op 6) [.op 7] 0 fun _ => false, .closure (.op 7) [] 1 fun _ => false, .endRun 2]

end PollMachine
