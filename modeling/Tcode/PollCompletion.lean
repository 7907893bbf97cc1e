import Tcode.PollIndices

/-! # Completion by the poll multiplexer

A descriptor that a closure refers to is not deleted. If its unbind closure has not run, then it
has an entry, and its completion changes no other one.
-/
namespace PollMachine

open EpollMachine (Direction DescriptorId OperationId)
open SupportReferenceCount SupportSwapRemove SupportTransitionSystem

variable {s t u : State} {d e x : DescriptorId} {i : Nat} {live : List DescriptorId}
  {done : OperationId → Bool} {m : Mask} {a : Task} {ts more : List Task} {run run' : Int}
  {extra : DescriptorId → Nat}

/-! ## References -/

/-- The closure has taken a reference of its own. -/
def Task.captures (d : DescriptorId) : Task → Bool
  | .dispatch _ e _ => decide (e = d)
  | _ => false

def captures (s : State) (d : DescriptorId) : Nat :=
  (s.postings ++ work s).countP (Task.captures d)

/-- The reference that the unbind closure gives back. -/
def base (s : State) (d : DescriptorId) : Nat := if (s.descs d).fd = -1 then 0 else 1

/-- The count is right, if `extra` is added to what is seen. -/
def Counted (s : State) (extra : DescriptorId → Nat) : Prop :=
  ∀ d, d < s.made → Held (s.descs d).cell (base s d + captures s d + extra d)

def only (d : DescriptorId) : DescriptorId → Nat := fun e => if e = d then 1 else 0

theorem Counted.of_same (h : Counted s extra) (hmade : t.made = s.made)
    (hfd : ∀ d, (t.descs d).fd = (s.descs d).fd) (hcell : ∀ d, (t.descs d).cell = (s.descs d).cell)
    (hcaptures : ∀ d, captures t d = captures s d) : Counted t extra := by
  intro d hd
  rw [hcell, base, hfd, hcaptures]
  exact h d (hmade ▸ hd)

theorem Counted.notDeleted (h : Counted s extra) (hd : d < s.made)
    (hpos : 0 < base s d + captures s d + extra d) : (s.descs d).cell.deleted = false :=
  (h d hd).notDeleted hpos

theorem base_of_open (h : (s.descs d).fd ≠ -1) : base s d = 1 := if_neg h

theorem Posted.captures (h : Posted s t more) (d : DescriptorId) :
    captures t d = captures s d := by
  have hmore : more.countP (Task.captures d) = 0 := by
    rw [List.countP_eq_zero]
    intro a ha
    obtain ⟨o, rfl⟩ := h.ops a ha
    exact nofun
  rw [PollMachine.captures, PollMachine.captures, h.postings, h.work, ← List.append_assoc,
    List.countP_append, hmore]
  rfl

theorem captures_popped (hframe : s.frame = .drain (a :: ts) run) (run' : Int) (d : DescriptorId) :
    captures s d = captures (popped s ts run') d + if a.captures d then 1 else 0 := by
  rw [captures, captures, work_popped hframe run', List.countP_append, List.countP_cons,
    List.countP_append, Nat.add_assoc]
  rfl

theorem cell_release (x : DescriptorId) : ((release s d).descs x).cell =
    if x = d then (s.descs d).cell.release else (s.descs x).cell := by
  by_cases hx : x = d
  · subst hx
    rw [if_pos rfl]
    unfold release
    split
    · exact congrArg Descriptor.cell (setDesc_self ..)
    · exact congrArg Descriptor.cell (setDesc_self ..)
  · rw [if_neg hx]
    unfold release
    split
    · exact congrArg Descriptor.cell (setDesc_ne hx)
    · exact congrArg Descriptor.cell (setDesc_ne hx)

/-- One that is too many is given back. -/
theorem Counted.release (h : Counted s (only d)) : Counted (release s d) fun _ => 0 := by
  obtain ⟨more, hposted⟩ := posted_release (s := s) (d := d)
  intro x hx
  rw [hposted.made] at hx
  have hheld := h x hx
  rw [cell_release, base, (kept_release.descs x).1, hposted.captures]
  by_cases heq : x = d
  · subst heq
    rw [if_pos rfl]
    rw [only, if_pos rfl] at hheld
    exact hheld.release (Nat.succ_pos _)
  · rw [if_neg heq]
    rw [only, if_neg heq] at hheld
    exact hheld

theorem Counted.complete (h : Counted s extra) (hpositive : (s.descs d).pollidx ≠ some 0) :
    Counted (complete s d m done) extra :=
  h.of_same posted_complete.made (fun x => ((kept_complete hpositive).descs x).1)
    (cell_update descs_complete rfl) posted_complete.captures

theorem cell_unregister (x : DescriptorId) :
    ((unregister s d).descs x).cell = (s.descs x).cell := by
  rcases unregister_descs s d x with heq | ⟨-, i, heq⟩
  · rw [heq]
  · rw [heq]

theorem counted_opens {fd : Int} {connect : Option OperationId} (h : Counted s fun _ => 0)
    (hs : Invariant s live) (hfd : 0 ≤ fd) :
    Counted (next s (.opens fd connect)) fun _ => 0 := by
  have hself : (next s (.opens fd connect)).descs s.made =
      ⟨fd, fun i => if i = .write then connect.toList else [], .new, none⟩ :=
    Function.update_self ..
  have hcaptures (x : DescriptorId) :
      captures (next s (.opens fd connect)) x = captures s x := by
    have hwork : work (next s (.opens fd connect)) = work s ++ [.bind s.made] :=
      (List.append_assoc ..).symm
    rw [captures, captures, hwork, ← List.append_assoc, List.countP_append]
    rfl
  intro x hx
  by_cases hnew : x = s.made
  · subst hnew
    have hnone : captures s s.made = 0 := by
      rw [captures, List.countP_eq_zero]
      intro a ha hcaptures
      have hdesc : a.desc = some s.made := by
        cases a with
        | dispatch i e o => exact congrArg some (of_decide_eq_true hcaptures)
        | op o => cases hcaptures
        | bind e => cases hcaptures
        | unbind e => cases hcaptures
      rcases List.mem_append.mp ha with ha | ha
      · exact Nat.lt_irrefl _ ((hs.postings a ha).desc hdesc)
      · exact Nat.lt_irrefl _ (hs.made a ha _ hdesc)
    have hopen : ((next s (.opens fd connect)).descs s.made).fd ≠ -1 := by
      rw [hself]
      show fd ≠ -1
      omega
    rw [base_of_open hopen, hcaptures, hnone, hself]
    exact held_new
  · have hother : (next s (.opens fd connect)).descs x = s.descs x :=
      Function.update_of_ne hnew ..
    rw [base, hother, hcaptures]
    exact h x (Nat.lt_of_le_of_ne (Nat.le_of_lt_succ hx) hnew)

theorem Invariant.open_of_held (h : Invariant s live) (hd : s.held d = true) :
    (s.descs d).fd ≠ -1 := by
  cases h.stage d (h.held d hd).1 with
  | waiting bind isOpen => exact isOpen
  | registered bound isOpen => exact isOpen
  | closed bound closed entry unheld =>
    rw [hd] at unheld
    cases unheld

theorem counted_take {k : Direction} {o : OperationId} (h : Counted s fun _ => 0)
    (hopen : (s.descs d).fd ≠ -1) : Counted (next s (.take k d o)) fun _ => 0 := by
  have hcaptures (x : DescriptorId) :
      captures (next s (.take k d o)) x = captures s x + if d = x then 1 else 0 := by
    show (s.postings ++ [Task.dispatch k d o] ++ work s).countP _ = _
    rw [captures, List.countP_append, List.countP_append, List.countP_append, List.countP_singleton]
    simp only [Task.captures, decide_eq_true_eq]
    omega
  have hself : (next s (.take k d o)).descs d =
      { s.descs d with cell := (s.descs d).cell.acquire } := Function.update_self ..
  intro x hx
  by_cases heq : x = d
  · subst heq
    have hheld := h x hx
    rw [base_of_open hopen] at hheld
    have hopen' : ((next s (.take k x o)).descs x).fd ≠ -1 := by
      rw [hself]
      exact hopen
    rw [base_of_open hopen', hcaptures, hself, if_pos rfl, ← Nat.add_assoc]
    exact hheld.acquire (by omega)
  · have hother : (next s (.take k d o)).descs x = s.descs x := Function.update_of_ne heq ..
    rw [base, hother, hcaptures, if_neg (Ne.symm heq)]
    exact h x hx

theorem counted_dispatch {k : Direction} {o : OperationId} (h : Counted s fun _ => 0)
    (hs : Invariant s live) (hframe : s.frame = .drain (.dispatch k d o :: ts) run) :
    Counted (complete (enqueue (popped s ts run') k d o) d (.of k) done) (only d) := by
  have hpopped : Counted (popped s ts run') (only d) := by
    intro x hx
    have hheld := h x hx
    rw [captures_popped hframe run'] at hheld
    have hone : (if (Task.dispatch k d o).captures x then 1 else 0) = only d x := by
      simp [only, Task.captures, eq_comm]
    rw [hone, Nat.add_zero, ← Nat.add_assoc] at hheld
    exact hheld
  have hkept : Kept (popped s ts run') (enqueue (popped s ts run') k d o) :=
    kept_update rfl rfl rfl rfl rfl rfl
  have henqueue : Counted (enqueue (popped s ts run') k d o) (only d) :=
    hpopped.of_same rfl (fun x => (hkept.descs x).1) (cell_update rfl rfl) (fun _ => rfl)
  exact henqueue.complete ((hkept.descs d).2 ▸ hs.indexed.positive d)

theorem counted_unbind (h : Counted s fun _ => 0) (hs : Invariant s live)
    (hopen : (s.descs d).fd ≠ -1) (hframe : s.frame = .drain (.unbind d :: ts) run) :
    Counted (close (unregister (popped s ts run') d) d) (only d) := by
  have hunregister := posted_unregister (s := popped s ts run') (d := d)
  have hindexed : Indexed (popped s ts run') live :=
    hs.indexed.of_kept ⟨rfl, rfl, rfl, rfl, fun _ => ⟨rfl, rfl⟩⟩
  have hcaptures (x : DescriptorId) :
      captures (close (unregister (popped s ts run') d) d) x = captures s x := by
    refine (hunregister.captures x).trans ?_
    exact (captures_popped hframe run' x).symm
  intro x hx
  have hheld := h x (hunregister.made ▸ hx)
  rw [hcaptures]
  by_cases hxd : x = d
  · subst hxd
    have hself : (close (unregister (popped s ts run') x) x).descs x =
        { (unregister (popped s ts run') x).descs x with fd := -1 } := setDesc_self ..
    have hcell : ((unregister (popped s ts run') x).descs x).cell = (s.descs x).cell :=
      cell_unregister x
    rw [base_of_open hopen, Nat.add_zero, Nat.add_comm] at hheld
    rw [base, hself, if_pos rfl, Nat.zero_add, only, if_pos rfl]
    exact hcell.symm ▸ hheld
  · have hother : (close (unregister (popped s ts run') d) d).descs x =
        (unregister (popped s ts run') d).descs x := setDesc_ne hxd
    have hfd : ((unregister (popped s ts run') d).descs x).fd = (s.descs x).fd := by
      rcases unregister_descs (popped s ts run') d x with heq | ⟨-, i, heq⟩
      · rw [heq]
        rfl
      · rw [heq]
        rfl
    have hcell : ((unregister (popped s ts run') d).descs x).cell = (s.descs x).cell :=
      cell_unregister x
    rw [base, hother, hfd, hcell, only, if_neg hxd]
    exact hheld

theorem Counted.quiet {ev : Event} (h : Counted s extra) (hs : Invariant s live)
    (hev : Enabled s ev) (hquiet : ev.Quiet) : Counted (next s ev) extra := by
  obtain ⟨hkept, hcell, more, hposted⟩ := quiet_next hs.indexed.positive hev hquiet
  exact h.of_same hposted.made (fun x => (hkept.descs x).1) hcell hposted.captures

theorem counted_next {ev : Event} (h : Counted s fun _ => 0) (hs : Invariant s live)
    (hev : Enabled s ev) : Counted (next s ev) fun _ => 0 := by
  cases ev with
  | opens fd connect => exact counted_opens h hs hev
  | take i d o => exact counted_take h (hs.open_of_held hev.1)
  | post a =>
    refine h.of_same rfl (fun _ => rfl) (fun _ => rfl) fun d => List.Perm.countP_eq _ ?_
    show (s.postings.erase a ++ (s.frame.tasks ++ (s.opQueue ++ [a]))).Perm (s.postings ++ work s)
    rw [← List.append_assoc s.frame.tasks, ← List.append_assoc]
    refine (List.perm_append_singleton a _).trans ?_
    exact (List.perm_cons_erase hev).symm.append_right (work s)
  | execute o => exact h.quiet hs hev trivial
  | unbind d =>
    refine h.of_same rfl (fun _ => rfl) (fun _ => rfl) fun x => ?_
    have hwork : work (next s (.unbind d)) = work s ++ [.unbind d] := (List.append_assoc ..).symm
    rw [captures, captures, hwork, ← List.append_assoc, List.countP_append]
    rfl
  | poll returned nofd revents => exact h.quiet hs hev trivial
  | event i executeOp run done => exact h.quiet hs hev trivial
  | endEvents i executeOp run => exact h.quiet hs hev trivial
  | closure a ts run done =>
    cases a with
    | op o =>
      refine h.of_same rfl (fun _ => rfl) (fun _ => rfl) fun d => ?_
      exact (captures_popped hev (run + 1) d).symm
    | bind d =>
      have hkept (x : DescriptorId) : ((bindClosure (popped s ts (run + 1)) d).descs x).fd =
          (s.descs x).fd ∧ ((bindClosure (popped s ts (run + 1)) d).descs x).cell =
            (s.descs x).cell := by
        by_cases hx : x = d
        · subst hx
          have hself : (bindClosure (popped s ts (run + 1)) x).descs x =
            { s.descs x with pollidx := some s.events.length } := setDesc_self ..
          rw [hself]
          exact ⟨rfl, rfl⟩
        · have hother : (bindClosure (popped s ts (run + 1)) d).descs x = s.descs x :=
            setDesc_ne hx
          rw [hother]
          exact ⟨rfl, rfl⟩
      refine h.of_same rfl (fun x => (hkept x).1) (fun x => (hkept x).2) fun x => ?_
      exact (captures_popped hev (run + 1) x).symm
    | dispatch i d o => exact (counted_dispatch h hs hev).release
    | unbind d =>
      have hin : .unbind d ∈ work s := work_popped hev run ▸ List.mem_cons_self
      exact (counted_unbind h hs (hs.open_of_unbind hin) hev).release
  | endRun run => exact h.quiet hs hev trivial

/-! ## Completion -/

theorem complete_eq (hidx : (s.descs d).pollidx = some i) :
    complete s d m done =
      { attempt s d m done with
        events := setInterest s.events i ((s.descs d).attempt m done).interest }.undefinedIf
          (decide (s.events.length ≤ i)) := by
  have hself : (attempt s d m done).descs d = (s.descs d).attempt m done := setDesc_self ..
  have hidx' : ((s.descs d).attempt m done).pollidx = some i := hidx
  unfold complete writeInterest
  rw [hself]
  simp only [hidx']
  rfl

theorem fault_complete (hf : s.fault = false) (hcell : (s.descs d).cell.deleted = false)
    (hidx : (s.descs d).pollidx = some i) (hi : i < s.events.length) :
    (complete s d m done).fault = false := by
  rw [complete_eq hidx]
  show ((s.fault || (s.descs d).cell.deleted) || decide (s.events.length ≤ i)) = false
  simp [hf, hcell, Nat.not_le.mpr hi]

theorem fault_release (hf : s.fault = false) (hcell : (s.descs d).cell.deleted = false) :
    (release s d).fault = false := by
  have haccess : (s.fault || (s.descs d).cell.deleted) = false := by rw [hf, hcell]; rfl
  unfold release
  split
  · exact haccess
  · exact haccess

theorem Indexed.ownEntry (h : Indexed s live) (hd : d ∈ live) (v : Descriptor)
    (hevents : ∀ i, (s.descs d).pollidx = some i → t.events = setInterest s.events i v.interest)
    (hqueue : (t.descs d).opQueue = v.opQueue) : ∃ i, OwnEntry s t d i := by
  obtain ⟨i, -, hidx, hdesc, hfd⟩ := h.at_pollidx hd
  obtain ⟨e, he, -⟩ := Option.map_eq_some_iff.mp hfd
  refine ⟨i + 1, hidx, hdesc, fun j hj => ?_, e, v.interest, he, ?_, ?_, ?_⟩
  · rw [hevents _ hidx, getElem?_setInterest, if_neg hj]
  · rw [hevents _ hidx, getElem?_setInterest, if_pos rfl, he]
    rfl
  · simp [hqueue, Descriptor.interest]
  · simp [hqueue, Descriptor.interest]

theorem readyAt_some {desc : Option DescriptorId} (h : readyAt s i = some (m, desc)) :
    s.desc[i]? = some desc := by
  unfold readyAt at h
  split at h
  · next e desc' _ hdesc =>
    split at h
    · obtain ⟨-, rfl⟩ := Prod.mk.inj (Option.some.inj h)
      exact hdesc
    · cases h
  · cases h

/-- An entry with an event belongs to the descriptor that is completed. -/
theorem Invariant.ready (h : Invariant s live) (hready : readyAt s i = some (m, some d)) :
    d ∈ live := h.indexed.mem_desc.mp (List.mem_of_getElem? (readyAt_some hready))

theorem Invariant.open_of_live (h : Invariant s live) (hd : d ∈ live) : (s.descs d).fd ≠ -1 := by
  cases h.stage d (h.entries d hd) with
  | waiting bind isOpen => exact isOpen
  | registered bound isOpen => exact isOpen
  | closed bound closed entry => exact absurd hd entry

/-- What is open is not deleted. -/
theorem Counted.notDeleted_of_open (h : Counted s fun _ => 0) (hd : d < s.made)
    (hopen : (s.descs d).fd ≠ -1) : (s.descs d).cell.deleted = false := by
  apply h.notDeleted hd
  rw [base_of_open hopen]
  omega

section Dispatch

variable {k : Direction} {o : OperationId}

theorem enqueue_descs : (enqueue s k d o).descs d =
    { s.descs d with
      opQueue := Function.update (s.descs d).opQueue k ((s.descs d).opQueue k ++ [o]) } :=
  setDesc_self ..

/-- As long as a descriptor is open, the closure's reference is not the last one. -/
theorem notLast_of_open (h : Counted s fun _ => 0) (hs : Invariant s live)
    (hframe : s.frame = .drain (.dispatch k d o :: ts) run) (hopen : (s.descs d).fd ≠ -1) :
    ((complete (enqueue (popped s ts run') k d o) d (.of k) done).descs d).cell.refcount ≠ 1 := by
  have hcounted :
      Counted (complete (enqueue (popped s ts run') k d o) d (.of k) done) (only d) :=
    counted_dispatch h hs hframe
  have hkept : Kept s (enqueue (popped s ts run') k d o) := kept_update rfl rfl rfl rfl rfl rfl
  have hcomplete : Kept s (complete (enqueue (popped s ts run') k d o) d (.of k) done) :=
    hkept.trans (kept_complete ((hkept.descs d).2 ▸ hs.indexed.positive d))
  have hin : .dispatch k d o ∈ work s := work_popped hframe run' ▸ List.mem_cons_self
  have hmade : d < s.made := hs.made _ hin d rfl
  have hheld := hcounted d (posted_complete.made.symm ▸ hmade)
  rw [base_of_open ((hcomplete.descs d).1 ▸ hopen), only, if_pos rfl] at hheld
  rw [Ne, hheld.last_iff]
  omega

theorem ownEntry_dispatch (h : Counted s fun _ => 0) (hs : Invariant s live)
    (hframe : s.frame = .drain (.dispatch k d o :: ts) run) (hopen : (s.descs d).fd ≠ -1) :
    ∃ i, OwnEntry s (dispatchClosure (popped s ts run') k d o done) d i := by
  have hlive : d ∈ live :=
    hs.registered_of_closure (work_popped hframe run') rfl nofun hopen
  have hkept : Kept s (enqueue (popped s ts run') k d o) := kept_update rfl rfl rfl rfl rfl rfl
  rw [dispatchClosure, release, if_neg (notLast_of_open h hs hframe hopen)]
  apply hs.indexed.ownEntry hlive
    (((enqueue (popped s ts run') k d o).descs d).attempt (.of k) done)
  · intro i hi
    rw [complete_eq (((hkept.descs d).2).trans hi)]
    rfl
  · rw [setDesc_self, descs_complete, Function.update_self]

end Dispatch

/-! ## Nothing undefined happens -/

theorem fault_access (hf : s.fault = false) (hcell : (s.descs d).cell.deleted = false) :
    (s.access d).fault = false := by
  show (s.fault || (s.descs d).cell.deleted) = false
  rw [hf, hcell]
  rfl

theorem fault_unregister (h : Invariant s live) (hc : Counted s fun _ => 0) (hd : d ∈ live)
    (hf : s.fault = false) : (unregister (popped s ts run') d).fault = false := by
  have hindexed : Indexed (popped s ts run') live :=
    h.indexed.of_kept ⟨rfl, rfl, rfl, rfl, fun _ => ⟨rfl, rfl⟩⟩
  obtain ⟨i, hi, -⟩ := hindexed.at_pollidx hd
  rw [hindexed.unregister hi, remove]
  split
  · have hne : live ≠ [] := List.ne_nil_of_mem hd
    have hlast : (popped s ts run').desc.getLast? = some (some (live.getLast hne)) := by
      rw [hindexed.desc, List.getLast?_cons, List.getLast?_map,
      List.getLast?_eq_getLast_of_ne_nil hne]
      rfl
    have hmem := List.getLast_mem hne
    rw [hlast]
    exact fault_access (s := shrink (popped s ts run') (i + 1)) hf
      (hc.notDeleted_of_open (h.entries _ hmem) (h.open_of_live hmem))
  · exact hf

theorem fault_closure (h : Invariant s live) (hc : Counted s fun _ => 0)
    (hframe : s.frame = .drain (a :: ts) run)
    (hclean : Clean s (.closure a ts run done)) (hf : s.fault = false) :
    (opRun (popped s ts run') done a).fault = false := by
  have hwork := work_popped hframe run'
  have hin : a ∈ work s := hwork ▸ List.mem_cons_self
  cases a with
  | op o => exact hf
  | bind d =>
    have hd := h.made _ hin d rfl
    refine fault_access (s := popped s ts run') hf (hc.notDeleted_of_open hd ?_)
    cases h.stage d hd with
    | waiting bind isOpen => exact isOpen
    | registered bound => exact absurd hin bound
    | closed bound => exact absurd hin bound
  | dispatch k d o =>
    have hlive : d ∈ live := h.registered_of_closure hwork rfl nofun hclean
    have hcell := hc.notDeleted_of_open (h.entries d hlive) hclean
    obtain ⟨i, -, hidx, hdesc, -⟩ := h.indexed.at_pollidx hlive
    have hqueued : ((enqueue (popped s ts run') k d o).descs d).cell.deleted = false := by
      rw [enqueue_descs]
      exact hcell
    have hindex : ((enqueue (popped s ts run') k d o).descs d).pollidx = some (i + 1) := by
      rw [enqueue_descs]
      exact hidx
    have hlt : i + 1 < s.events.length := by
      rw [h.indexed.consistent.lengths]
      exact (List.getElem?_eq_some_iff.mp hdesc).1
    apply fault_release
    · exact fault_complete (fault_access (s := popped s ts run') hf hcell) hqueued hindex hlt
    · rw [cell_update descs_complete rfl]
      exact hqueued
  | unbind d =>
    have hopen := h.open_of_unbind hin
    have hlive : d ∈ live := h.registered_of_closure hwork rfl nofun hopen
    have hcell := hc.notDeleted_of_open (h.entries d hlive) hopen
    have hunregister : ((unregister (popped s ts run') d).descs d).cell.deleted = false := by
      rw [cell_unregister]
      exact hcell
    apply fault_release
    · exact fault_access (fault_unregister h hc hlive hf) hunregister
    · rw [show (close _ d).descs d = _ from setDesc_self ..]
      exact hunregister

theorem fault_next {ev : Event} (h : Invariant s live) (hc : Counted s fun _ => 0)
    (hev : Enabled s ev) (hclean : Clean s ev) (hf : s.fault = false) :
    (next s ev).fault = false := by
  cases ev with
  | opens fd connect => exact hf
  | take i d o =>
    have hopen := h.open_of_held hev.1
    exact fault_access hf (hc.notDeleted_of_open (h.held d hev.1).1 hopen)
  | post a => exact hf
  | execute o => exact hf
  | unbind d => exact hf
  | poll returned nofd revents =>
    show (beginRun s nofd revents).fault = false
    unfold beginRun
    split
    · exact hf
    · exact hf
  | event i executeOp run done =>
    show (onEvent s i executeOp run done).fault = false
    unfold onEvent
    split
    · exact hf
    · exact hf
    · next revents d hready =>
      have hlive := h.ready hready
      obtain ⟨j, -, hidx, hdesc, -⟩ := h.indexed.at_pollidx hlive
      have hcell := hc.notDeleted_of_open (h.entries d hlive) (h.open_of_live hlive)
      refine fault_complete hf hcell hidx ?_
      rw [h.indexed.consistent.lengths]
      exact (List.getElem?_eq_some_iff.mp hdesc).1
  | endEvents i executeOp run =>
    cases executeOp with
    | false => exact hf
    | true => exact hf
  | closure a ts run done => exact fault_closure h hc hev hclean hf
  | endRun run => exact hf

/-! ## Runs -/

theorem ownEntry_next {ev : Event} (h : Invariant s live) (hc : Counted s fun _ => 0)
    (hev : Enabled s ev) (hclean : Clean s ev) (hcompletes : completes s ev = some d) :
    ∃ i, OwnEntry s (next s ev) d i := by
  cases ev with
  | event i executeOp run done =>
    obtain ⟨⟨revents, desc⟩, hready, rfl⟩ := Option.bind_eq_some_iff.mp hcompletes
    have hlive := h.ready hready
    have hnext : next s (.event i executeOp run done) =
        complete { s with frame := .events (i + 1) executeOp run } d revents done := by
      simp only [next, onEvent, hready]
    rw [hnext]
    apply h.indexed.ownEntry hlive ((s.descs d).attempt revents done)
    · intro j hj
      let u : State := { s with frame := .events (i + 1) executeOp run }
      have hcomplete : complete u d revents done = _ := complete_eq hj
      exact congrArg State.events hcomplete
    · rw [descs_complete, Function.update_self]
  | closure a ts run done =>
    cases a with
    | dispatch k e o =>
      obtain rfl := Option.some.inj hcompletes
      exact ownEntry_dispatch hc h hev hclean
    | op o => cases hcompletes
    | bind e => cases hcompletes
    | unbind e => cases hcompletes
  | opens fd connect => cases hcompletes
  | take i d o => cases hcompletes
  | post a => cases hcompletes
  | execute o => cases hcompletes
  | unbind d => cases hcompletes
  | poll returned nofd revents => cases hcompletes
  | endEvents i executeOp run => cases hcompletes
  | endRun run => cases hcompletes

/-- A closure that runs after the unbind closure has no entry of its own. -/
theorem not_ownEntry_of_unclean {ev : Event} (h : Invariant s live) (hclean : ¬ Clean s ev) :
    ∃ d, completes s ev = some d ∧ ¬ ∃ i, OwnEntry s (next s ev) d i := by
  cases ev with
  | closure a ts run done =>
    cases a with
    | dispatch k d o =>
      refine ⟨d, rfl, ?_⟩
      rintro ⟨i, hown⟩
      have hlive := h.indexed.mem_desc.mp (List.mem_of_getElem? hown.live)
      exact hclean (h.open_of_live hlive)
    | op o => exact absurd trivial hclean
    | bind e => exact absurd trivial hclean
    | unbind e => exact absurd trivial hclean
  | event i executeOp run done => exact absurd trivial hclean
  | opens fd connect => exact absurd trivial hclean
  | take i d o => exact absurd trivial hclean
  | post a => exact absurd trivial hclean
  | execute o => exact absurd trivial hclean
  | unbind d => exact absurd trivial hclean
  | poll returned nofd revents => exact absurd trivial hclean
  | endEvents i executeOp run => exact absurd trivial hclean
  | endRun run => exact absurd trivial hclean

theorem counted_run {wakeUp : Int} (h : machine.Reachable (initial wakeUp) s) :
    Counted s fun _ => 0 := by
  apply System.Execution.invariant h
  · exact fun d hd => absurd hd (Nat.not_lt_zero d)
  · intro u ev hu hcounted hev _
    obtain ⟨live, hinvariant⟩ := invariant_run hu
    exact counted_next hcounted hinvariant hev

/-- Whatever runs, the vectors and the indices agree. -/
theorem consistent_run {wakeUp : Int} (h : machine.Reachable (initial wakeUp) s) :
    Consistent s := by
  obtain ⟨live, hinvariant⟩ := invariant_run h
  exact hinvariant.indexed.consistent

/-- As long as no closure runs after the unbind closure of its descriptor, nothing undefined
happens, and a completion changes the live entry of its descriptor only. -/
theorem completes_own_entry {wakeUp : Int} (h : machine.Execution Clean (initial wakeUp) s) :
    Consistent s ∧ s.fault = false ∧ ∀ ev d, machine.Enabled s ev → Clean s ev →
      completes s ev = some d → ∃ i, OwnEntry s (machine.next s ev) d i := by
  obtain ⟨live, hinvariant⟩ := invariant_run h.reachable
  refine ⟨consistent_run h.reachable, ?_, fun ev d hev hclean hcompletes =>
    ownEntry_next hinvariant (counted_run h.reachable) hev hclean hcompletes⟩
  apply System.Execution.invariant h
  · rfl
  · intro u ev hu hf hev hclean
    obtain ⟨live, hu'⟩ := invariant_run hu.reachable
    exact fault_next hu' (counted_run hu.reachable) hev hclean hf

/-- A read waits until its unbind closure has run. -/
def staleRead : List Event :=
  [.opens 4 none, .opens 5 none, .take .read 0 7, .unbind 0,
    .poll 0 1 [.of .read], .event 0 false 1 (fun _ => true), .endEvents 1 true 0,
    .closure (.bind 0) [.bind 1, .unbind 0] 0 fun _ => true,
    .closure (.bind 1) [.unbind 0] 1 fun _ => true,
    .closure (.unbind 0) [] 2 fun _ => true, .endRun 3, .post (.dispatch .read 0 7),
    .poll 3 1 [.of .read, ⟨false, false, false⟩], .event 0 false 1 (fun _ => true),
    .event 1 true 0 (fun _ => true), .endEvents 2 true 0]

theorem completes_own_entry_write :
    let s := machine.runTrace (initial 3)
      [.opens 4 none, .take .write 0 7, .post (.dispatch .write 0 7), .poll 0 1 [.of .read],
        .event 0 false 1 (fun _ => false), .endEvents 1 true 0,
        .closure (.bind 0) [.dispatch .write 0 7] 0 fun _ => false]
    ∃ i, OwnEntry s (machine.next s (.closure (.dispatch .write 0 7) [] 1 fun _ => false)) 0 i := by
  intro s
  have hrun : machine.Execution Clean (initial 3) s :=
    System.ValidTrace.execution (by decide)
  exact (completes_own_entry hrun).2.2 _ 0 (by decide) (by decide) rfl

/-- The entry that it writes to has become that of another connection. -/
theorem staleRead_not_own_entry :
    ¬ ∀ wakeUp s, machine.Reachable (initial wakeUp) s → ∀ ev d, machine.Enabled s ev →
      completes s ev = some d → ∃ i, OwnEntry s (machine.next s ev) d i := by
  intro h
  have hrun : machine.Reachable (initial 3) (machine.runTrace (initial 3) staleRead) :=
    System.ValidTrace.reachable (by decide)
  obtain ⟨i, hown⟩ := h 3 _ hrun (.closure (.dispatch .read 0 7) [] 0 fun _ => true) 0
    (by decide) rfl
  have hidx : some 1 = some i := hown.pollidx
  obtain rfl := Option.some.inj hidx
  exact absurd hown.live (by decide)

end PollMachine
