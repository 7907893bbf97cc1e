import Tcode.PollMachine

/-! # The indices of the poll multiplexer
-/
namespace PollMachine

open EpollMachine (Direction DescriptorId OperationId)
open SupportReferenceCount SupportSwapRemove SupportTransitionSystem

variable {s t u : State} {d e : DescriptorId} {i : Nat} {live : List DescriptorId}
  {done : OperationId → Bool} {m : Mask}

/-! ## What is to be kept -/

/-- The two vectors belong together, and every descriptor knows its entry. -/
structure Consistent (s : State) : Prop where
  lengths : s.events.length = s.desc.length
  pipe : s.desc[0]? = some none ∧ ∃ r, s.events[0]? = some ⟨s.wakeUp, .of .read, r⟩
  own : ∀ d, some d ∈ s.desc → ∃ i, (s.descs d).pollidx = some i ∧ s.desc[i]? = some (some d) ∧
    (s.events[i]?).map PollFd.fd = some (s.descs d).fd

/-- Between `s` and `t` the interest of the live entry `i` of `d` has become what the queues of
`d` stand for, and no other entry has changed. -/
structure OwnEntry (s t : State) (d : DescriptorId) (i : Nat) : Prop where
  pollidx : (s.descs d).pollidx = some i
  live : s.desc[i]? = some (some d)
  others : ∀ j, j ≠ i → t.events[j]? = s.events[j]?
  own : ∃ e m, s.events[i]? = some e ∧ t.events[i]? = some { e with events := m } ∧
    (m.pollin = true ↔ (t.descs d).opQueue .read ≠ []) ∧
    (m.pollout = true ↔ (t.descs d).opQueue .write ≠ [])

/-- A closure of `read`, `write` or `accept` does not run after the unbind closure. -/
def Clean (s : State) : Event → Prop
  | .closure (.dispatch _ d _) _ _ _ => (s.descs d).fd ≠ -1
  | _ => True

instance (s : State) (e : Event) : Decidable (Clean s e) := by
  unfold Clean
  split <;> infer_instance

/-! ## The entries that are in use -/

/-- The registered descriptors, in the order of their entries. -/
structure Indexed (s : State) (live : List DescriptorId) : Prop where
  desc : s.desc = none :: live.map some
  fds : s.events.map PollFd.fd = s.wakeUp :: live.map fun d => (s.descs d).fd
  pipe : (s.events[0]?).map PollFd.events = some (.of .read)
  pollidx : ∀ i d, live[i]? = some d → (s.descs d).pollidx = some (i + 1)
  positive : ∀ d, (s.descs d).pollidx ≠ some 0

/-- Only interests may have changed, and not the pipe's. -/
structure Kept (s t : State) : Prop where
  wakeUp : t.wakeUp = s.wakeUp
  desc : t.desc = s.desc
  fds : t.events.map PollFd.fd = s.events.map PollFd.fd
  pipe : (t.events[0]?).map PollFd.events = (s.events[0]?).map PollFd.events
  descs : ∀ d, (t.descs d).fd = (s.descs d).fd ∧ (t.descs d).pollidx = (s.descs d).pollidx

theorem Kept.refl : Kept s s := ⟨rfl, rfl, rfl, rfl, fun _ => ⟨rfl, rfl⟩⟩

theorem Kept.trans (h : Kept s t) (k : Kept t u) : Kept s u where
  wakeUp := k.wakeUp.trans h.wakeUp
  desc := k.desc.trans h.desc
  fds := k.fds.trans h.fds
  pipe := k.pipe.trans h.pipe
  descs d := ⟨(k.descs d).1.trans (h.descs d).1, (k.descs d).2.trans (h.descs d).2⟩

theorem Indexed.of_kept (h : Indexed s live) (hk : Kept s t) : Indexed t live := by
  constructor
  · rw [hk.desc, h.desc]
  · rw [hk.fds, hk.wakeUp, h.fds]
    simp only [(hk.descs _).1]
  · rw [hk.pipe, h.pipe]
  · intro i d hi
    rw [(hk.descs d).2]
    exact h.pollidx i d hi
  · intro d
    rw [(hk.descs d).2]
    exact h.positive d

theorem Indexed.lengths (h : Indexed s live) :
    s.desc.length = live.length + 1 ∧ s.events.length = live.length + 1 := by
  constructor
  · rw [h.desc, List.length_cons, List.length_map]
  · rw [← List.length_map (f := PollFd.fd), h.fds, List.length_cons, List.length_map]

theorem Indexed.mem_desc (h : Indexed s live) : some d ∈ s.desc ↔ d ∈ live := by
  simp [h.desc]

/-- Where a registered descriptor is. -/
theorem Indexed.at_pollidx (h : Indexed s live) (hd : d ∈ live) :
    ∃ i, live[i]? = some d ∧ (s.descs d).pollidx = some (i + 1) ∧
      s.desc[i + 1]? = some (some d) ∧ (s.events[i + 1]?).map PollFd.fd = some (s.descs d).fd := by
  obtain ⟨i, hi⟩ := List.mem_iff_getElem?.mp hd
  refine ⟨i, hi, h.pollidx i d hi, ?_, ?_⟩
  · simp [h.desc, hi]
  · rw [← List.getElem?_map, h.fds, List.getElem?_cons_succ, List.getElem?_map, hi]
    rfl

theorem Indexed.consistent (h : Indexed s live) : Consistent s := by
  refine ⟨h.lengths.2.trans h.lengths.1.symm, ⟨by simp [h.desc], ?_⟩, fun d hd => ?_⟩
  · have hfd : (s.events[0]?).map PollFd.fd = some s.wakeUp := by
      rw [← List.getElem?_map, h.fds]
      rfl
    obtain ⟨e, he, hwakeUp⟩ := Option.map_eq_some_iff.mp hfd
    have hpipe := h.pipe
    rw [he] at hpipe
    refine ⟨e.revents, ?_⟩
    rw [he, ← hwakeUp, ← Option.some.inj hpipe]
  · obtain ⟨i, -, hidx, hdesc, hfd⟩ := h.at_pollidx (h.mem_desc.mp hd)
    exact ⟨i + 1, hidx, hdesc, hfd⟩

/-- A descriptor is registered once. -/
theorem Indexed.nodup (h : Indexed s live) : live.Nodup := by
  rw [List.nodup_iff_getElem?_ne_getElem?]
  intro i j hij hj heq
  have hi := List.getElem?_eq_getElem (Nat.lt_trans hij hj)
  have hidx := h.pollidx i _ hi
  rw [h.pollidx j _ (heq ▸ hi)] at hidx
  have := Option.some.inj hidx
  omega

/-! ## Functions that keep the entries -/

theorem kept_update {v : Descriptor} (hdescs : t.descs = Function.update s.descs d v)
    (hfd : v.fd = (s.descs d).fd) (hidx : v.pollidx = (s.descs d).pollidx)
    (hwakeUp : t.wakeUp = s.wakeUp) (hdesc : t.desc = s.desc) (hevents : t.events = s.events) :
    Kept s t := by
  refine ⟨hwakeUp, hdesc, congrArg _ hevents, by rw [hevents], fun e => ?_⟩
  rw [hdescs]
  by_cases he : e = d
  · subst he
    rw [Function.update_self]
    exact ⟨hfd, hidx⟩
  · rw [Function.update_of_ne he]
    exact ⟨rfl, rfl⟩

theorem kept_release : Kept s (release s d) := by
  unfold release
  split
  · exact kept_update rfl rfl rfl rfl rfl rfl
  · exact kept_update rfl rfl rfl rfl rfl rfl

theorem getElem?_setInterest (entries : List PollFd) (j : Nat) :
    (setInterest entries i m)[j]? =
      if j = i then (entries[i]?).map fun e => { e with events := m } else entries[j]? := by
  rw [setInterest, List.getElem?_modify]
  by_cases hij : j = i
  · simp [hij]
  · simp [hij, Ne.symm hij]

theorem map_fd_setInterest (entries : List PollFd) :
    (setInterest entries i m).map PollFd.fd = entries.map PollFd.fd := by
  apply List.ext_getElem?
  intro j
  rw [List.getElem?_map, getElem?_setInterest, List.getElem?_map]
  by_cases hj : j = i
  · rw [if_pos hj, hj, Option.map_map]
    rfl
  · rw [if_neg hj]

theorem kept_attempt : Kept s (attempt s d m done) := kept_update rfl rfl rfl rfl rfl rfl

theorem kept_writeInterest (hpositive : (s.descs d).pollidx ≠ some 0) :
    Kept s (writeInterest s d) := by
  unfold writeInterest
  split
  · next i hidx =>
    have hi : (0 : Nat) ≠ i := by
      intro heq
      exact hpositive (heq ▸ hidx)
    refine ⟨rfl, rfl, map_fd_setInterest _, ?_, fun _ => ⟨rfl, rfl⟩⟩
    show ((setInterest s.events i _)[0]?).map _ = _
    rw [getElem?_setInterest, if_neg hi]
  · exact ⟨rfl, rfl, rfl, rfl, fun _ => ⟨rfl, rfl⟩⟩

theorem kept_complete (hpositive : (s.descs d).pollidx ≠ some 0) :
    Kept s (complete s d m done) := by
  have hattempt : Kept s (attempt s d m done) := kept_attempt
  exact hattempt.trans (kept_writeInterest ((hattempt.descs d).2 ▸ hpositive))

theorem cell_update {v : Descriptor} (hdescs : t.descs = Function.update s.descs d v)
    (hcell : v.cell = (s.descs d).cell) (x : DescriptorId) :
    (t.descs x).cell = (s.descs x).cell := by
  rw [hdescs]
  by_cases hx : x = d
  · subst hx
    rw [Function.update_self, hcell]
  · rw [Function.update_of_ne hx]

theorem descs_complete :
    (complete s d m done).descs = Function.update s.descs d ((s.descs d).attempt m done) := by
  unfold complete writeInterest
  split
  · rfl
  · rfl

theorem kept_dispatchClosure {k : Direction} {o : OperationId}
    (hpositive : (s.descs d).pollidx ≠ some 0) : Kept s (dispatchClosure s k d o done) := by
  have henqueue : Kept s (enqueue s k d o) := kept_update rfl rfl rfl rfl rfl rfl
  exact (henqueue.trans (kept_complete ((henqueue.descs d).2 ▸ hpositive))).trans kept_release

/-! ## Entries are added and removed -/

theorem Indexed.bindClosure (h : Indexed s live) (hd : (s.descs d).pollidx = none) :
    Indexed (bindClosure s d) (live ++ [d]) := by
  have hself : (PollMachine.bindClosure s d).descs d =
      { s.descs d with pollidx := some s.events.length } := setDesc_self ..
  have hother (e : DescriptorId) (he : e ≠ d) :
      (PollMachine.bindClosure s d).descs e = s.descs e := setDesc_ne he
  have hfresh : d ∉ live := by
    intro hmem
    obtain ⟨i, -, hidx, -⟩ := h.at_pollidx hmem
    rw [hd] at hidx
    cases hidx
  have hfd (e : DescriptorId) : ((PollMachine.bindClosure s d).descs e).fd = (s.descs e).fd := by
    by_cases he : e = d
    · rw [he, hself]
    · rw [hother e he]
  have hlength := h.lengths.2
  constructor
  · show s.desc ++ [some d] = _
    rw [h.desc, List.map_append]
    rfl
  · show (s.events ++ [_]).map PollFd.fd = _
    rw [List.map_append, h.fds, List.map_append]
    simp only [hfd]
    rfl
  · show ((s.events ++ [_])[0]?).map PollFd.events = _
    rw [List.getElem?_append_left (by omega), h.pipe]
  · intro i e hi
    by_cases hlast : i < live.length
    · rw [List.getElem?_append_left hlast] at hi
      have hne : e ≠ d := fun heq => hfresh (heq ▸ List.mem_of_getElem? hi)
      rw [hother e hne]
      exact h.pollidx i e hi
    · rw [List.getElem?_append_right (Nat.le_of_not_lt hlast)] at hi
      obtain ⟨hzero, rfl⟩ : i - live.length = 0 ∧ e = d := by
        simpa [List.getElem?_singleton, eq_comm] using hi
      rw [hself]
      show some s.events.length = some (i + 1)
      rw [hlength]
      congr 2
      omega
  · intro e
    by_cases he : e = d
    · rw [he, hself]
      intro hzero
      have := Option.some.inj hzero
      omega
    · rw [hother e he]
      exact h.positive e

theorem Indexed.remove (h : Indexed s live) (hi : i < live.length) :
    Indexed (remove s (i + 1)) (swapRemove live i) := by
  have hne : live ≠ [] := List.ne_nil_of_length_pos (Nat.zero_lt_of_lt hi)
  have hdesc : swapRemove s.desc (i + 1) = none :: (swapRemove live i).map some := by
    rw [h.desc, swapRemove_cons (by simpa using hne), map_swapRemove]
  have hfds : (swapRemove s.events (i + 1)).map PollFd.fd =
      s.wakeUp :: (swapRemove live i).map fun d => (s.descs d).fd := by
    rw [map_swapRemove, h.fds, swapRemove_cons (by simpa using hne), map_swapRemove]
  have hpipe : ((swapRemove s.events (i + 1))[0]?).map PollFd.events = some (.of .read) := by
    have hpipe := h.pipe
    have hlength := h.lengths.2
    cases hevents : s.events with
    | nil => simp [hevents] at hlength
    | cons e es =>
      have hes : es ≠ [] := by
        rintro rfl
        simp [hevents] at hlength
        exact hne hlength
      rw [swapRemove_cons hes]
      rw [hevents] at hpipe
      exact hpipe
  have hlast (j : Nat) (e : DescriptorId) (hj : (swapRemove live i)[j]? = some e) :
      j = i ∧ i + 1 < live.length ∧ live.getLast? = some e ∨ j ≠ i ∧ live[j]? = some e :=
    getElem?_swapRemove hj hi
  have hlengths := h.lengths.1
  unfold PollMachine.remove
  by_cases hswap : i + 1 < s.desc.length - 1
  · obtain ⟨e, he⟩ : ∃ e, live.getLast? = some e := by
      cases hget : live.getLast? with
      | none => exact absurd (List.getLast?_eq_none_iff.mp hget) hne
      | some e => exact ⟨e, rfl⟩
    have hget : s.desc.getLast? = some (some e) := by
      rw [h.desc, List.getLast?_cons, List.getLast?_map, he]
      rfl
    have hend : live[live.length - 1]? = some e := by rw [← List.getLast?_eq_getElem?, he]
    rw [if_pos hswap, hget]
    have hdescs (x : DescriptorId) :
        (moved (shrink s (i + 1)) (i + 1) (some (some e))).descs x =
          if x = e then { s.descs e with pollidx := some (i + 1) } else s.descs x :=
      Function.update_apply ..
    refine ⟨hdesc, hfds.trans ?_, hpipe, fun j x hj => ?_, fun x => ?_⟩
    · refine congrArg _ (List.map_congr_left fun x _ => ?_)
      rw [hdescs]
      split
      · next hx => rw [hx]
      · rfl
    · rw [hdescs]
      have hshort := (List.getElem?_eq_some_iff.mp hj).1
      rw [length_swapRemove] at hshort
      rcases hlast j x hj with ⟨rfl, -, hx⟩ | ⟨hne, hold⟩
      · rw [if_pos (Option.some.inj (hx.symm.trans he))]
      · have hx : x ≠ e := by
          rintro rfl
          have hidx := h.pollidx j x hold
          rw [h.pollidx _ x hend] at hidx
          have := Option.some.inj hidx
          omega
        rw [if_neg hx]
        exact h.pollidx j x hold
    · rw [hdescs]
      split
      · simp
      · exact h.positive x
  · rw [if_neg hswap]
    refine ⟨hdesc, hfds, hpipe, fun j e hj => ?_, h.positive⟩
    rcases hlast j e hj with ⟨-, hlt, -⟩ | ⟨-, hj⟩
    · omega
    · exact h.pollidx j e hj

theorem Indexed.unregister (h : Indexed s live) (hi : live[i]? = some d) :
    unregister s d = PollMachine.remove s (i + 1) := by
  have hnodup : s.desc.Nodup := by
    rw [h.desc, List.nodup_cons]
    exact ⟨by simp, h.nodup.map (Option.some_injective _)⟩
  have hdesc : s.desc[i + 1]? = some (some d) := by
    rw [h.desc, List.getElem?_cons_succ, List.getElem?_map, hi]
    rfl
  obtain ⟨hlt, hget⟩ := List.getElem?_eq_some_iff.mp hdesc
  have hidx := hnodup.idxOf_getElem (i + 1) hlt
  rw [hget] at hidx
  rw [PollMachine.unregister, hidx, if_pos hlt]

/-- What is closed has no entry. -/
theorem Indexed.close (h : Indexed s live) (hd : d ∉ live) : Indexed (close s d) live := by
  have hself : (PollMachine.close s d).descs d = { s.descs d with fd := -1 } := setDesc_self ..
  have hother (e : DescriptorId) (he : e ≠ d) : (PollMachine.close s d).descs e = s.descs e :=
    setDesc_ne he
  refine ⟨h.desc, h.fds.trans ?_, h.pipe, fun i e hi => ?_, fun e => ?_⟩
  · refine congrArg _ (List.map_congr_left fun e he => ?_)
    rw [hother e fun heq => hd (heq ▸ he)]
  · rw [hother e fun heq => hd (heq ▸ List.mem_of_getElem? hi)]
    exact h.pollidx i e hi
  · by_cases he : e = d
    · rw [he, hself]
      exact h.positive d
    · rw [hother e he]
      exact h.positive e

/-- The unbind closure takes the entry of its descriptor out. -/
theorem Indexed.unbindClosure (h : Indexed s live) (hi : live[i]? = some d) :
    Indexed (unbindClosure s d) (swapRemove live i) := by
  have hlt := (List.getElem?_eq_some_iff.mp hi).1
  have hnodup := (perm_swapRemove hi).nodup_iff.mp h.nodup
  have hgone := h.remove hlt
  rw [← h.unregister hi] at hgone
  exact (hgone.close (List.nodup_cons.mp hnodup).1).of_kept kept_release

/-- Removal changes no more of a descriptor than its index. -/
theorem remove_descs (s : State) (i : Nat) (x : DescriptorId) :
    (remove s i).descs x = s.descs x ∨
      some x ∈ s.desc ∧ (remove s i).descs x = { s.descs x with pollidx := some i } := by
  unfold remove
  split
  · cases hlast : s.desc.getLast? with
    | none => exact Or.inl rfl
    | some last =>
      cases last with
      | none => exact Or.inl rfl
      | some e =>
        by_cases hx : x = e
        · subst hx
          exact Or.inr ⟨List.mem_of_getLast? hlast, setDesc_self ..⟩
        · exact Or.inl (setDesc_ne hx)
  · exact Or.inl rfl

theorem unregister_descs (s : State) (d x : DescriptorId) :
    (unregister s d).descs x = s.descs x ∨
      some x ∈ s.desc ∧ ∃ i, (unregister s d).descs x = { s.descs x with pollidx := some i } := by
  unfold unregister
  split
  · rcases remove_descs s (s.desc.idxOf (some d)) x with heq | ⟨hin, heq⟩
    · exact Or.inl heq
    · exact Or.inr ⟨hin, _, heq⟩
  · exact Or.inl rfl

/-! ## Closures that wait -/

def Frame.tasks : Frame → List Task
  | .drain ops _ => ops
  | _ => []

/-- What the loop thread is going to run, in this order. -/
def work (s : State) : List Task := s.frame.tasks ++ s.opQueue

def Task.desc : Task → Option DescriptorId
  | .op _ => none
  | .bind d => some d
  | .dispatch _ d _ => some d
  | .unbind d => some d

/-- Neither the first nor the last closure of a descriptor. -/
def Task.Inner (made : Nat) : Task → Prop
  | .op _ => True
  | .dispatch _ d _ => d < made
  | _ => False

/-- The bind closure of a descriptor is the first of its closures, and there is one unbind
closure at most. -/
def Before (a b : Task) : Prop :=
  (∀ d, b = .bind d → a.desc ≠ some d) ∧ ∀ d, a = .unbind d → b ≠ .unbind d

/-- Where a descriptor is in its life. -/
inductive Stage (s : State) (live : List DescriptorId) (d : DescriptorId) : Prop where
  | waiting (bind : .bind d ∈ work s) (isOpen : (s.descs d).fd ≠ -1)
      (pollidx : (s.descs d).pollidx = none)
  | registered (bound : .bind d ∉ work s) (isOpen : (s.descs d).fd ≠ -1) (entry : d ∈ live)
  | closed (bound : .bind d ∉ work s) (closed : (s.descs d).fd = -1) (entry : d ∉ live)
      (unheld : s.held d = false) (unbound : .unbind d ∉ work s)

structure Invariant (s : State) (live : List DescriptorId) : Prop where
  indexed : Indexed s live
  order : (work s).Pairwise Before
  made : ∀ a ∈ work s, ∀ d, a.desc = some d → d < s.made
  entries : ∀ d ∈ live, d < s.made
  postings : ∀ a ∈ s.postings, a.Inner s.made
  held : ∀ d, s.held d = true → d < s.made ∧ .unbind d ∉ work s
  stage : ∀ d, d < s.made → Stage s live d

theorem Before.of_inner {a b : Task} {n : Nat} (hb : b.Inner n) : Before a b := by
  constructor
  · rintro d rfl
    exact absurd hb id
  · rintro d - rfl
    exact absurd hb id

/-- Inner closures may come behind any others. -/
theorem ordered_append {as bs : List Task} {n : Nat} (h : as.Pairwise Before)
    (hbs : ∀ b ∈ bs, b.Inner n) : (as ++ bs).Pairwise Before := by
  rw [List.pairwise_append]
  refine ⟨h, ?_, fun a _ b hb => .of_inner (hbs b hb)⟩
  exact List.Pairwise.imp_mem.mpr (List.pairwise_of_forall fun a b _ hb => .of_inner (hbs b hb))

theorem Task.Inner.desc {a : Task} {n : Nat} (h : a.Inner n) (hd : a.desc = some d) : d < n := by
  cases a with
  | op o => cases hd
  | bind e => exact absurd h id
  | dispatch i e o => exact (Option.some.inj hd) ▸ h
  | unbind e => exact absurd h id

theorem Task.Inner.mono {a : Task} {n k : Nat} (h : a.Inner n) (hk : n ≤ k) : a.Inner k := by
  cases a with
  | op o => trivial
  | bind e => exact absurd h id
  | dispatch i e o => exact Nat.lt_of_lt_of_le h hk
  | unbind e => exact absurd h id

theorem Stage.of_kept (h : Stage s live d) (hfd : (t.descs d).fd = (s.descs d).fd)
    (hidx : (t.descs d).pollidx = (s.descs d).pollidx)
    (hbind : .bind d ∈ work t ↔ .bind d ∈ work s)
    (hunbind : .unbind d ∈ work t → .unbind d ∈ work s)
    (hheld : t.held d = true → s.held d = true) : Stage t live d := by
  cases h with
  | waiting bind isOpen pollidx =>
    exact .waiting (hbind.mpr bind) (hfd ▸ isOpen) (hidx ▸ pollidx)
  | registered bound isOpen entry => exact .registered (mt hbind.mp bound) (hfd ▸ isOpen) entry
  | closed bound closed entry unheld unbound =>
    refine .closed (mt hbind.mp bound) (hfd ▸ closed) entry ?_ (mt hunbind unbound)
    rw [← Bool.not_eq_true] at unheld ⊢
    exact mt hheld unheld

/-- What does not register or close a descriptor: only inner closures come and go. -/
theorem Invariant.keep (h : Invariant s live) (hk : Kept s t) (hmade : t.made = s.made)
    (hheld : t.held = s.held) (hpost : ∀ a ∈ t.postings, a.Inner s.made)
    (before rest more : List Task) (hs : work s = before ++ rest) (ht : work t = rest ++ more)
    (hbefore : ∀ a ∈ before, a.Inner s.made) (hmore : ∀ a ∈ more, a.Inner s.made) :
    Invariant t live := by
  have hmem (b : Task) (hb : ¬ b.Inner s.made) : b ∈ work t ↔ b ∈ work s := by
    have hbefore' : b ∉ before := fun hin => hb (hbefore b hin)
    have hmore' : b ∉ more := fun hin => hb (hmore b hin)
    simp [hs, ht, hbefore', hmore']
  have hinto (a : Task) (ha : a ∈ work t) : a ∈ work s ∨ a.Inner s.made := by
    rw [ht, List.mem_append] at ha
    rcases ha with ha | ha
    · exact Or.inl (hs ▸ List.mem_append_right _ ha)
    · exact Or.inr (hmore a ha)
  constructor
  · exact h.indexed.of_kept hk
  · have horder := h.order
    rw [hs, List.pairwise_append] at horder
    rw [ht]
    exact ordered_append horder.2.1 hmore
  · intro a ha d hd
    rw [hmade]
    rcases hinto a ha with ha | ha
    · exact h.made a ha d hd
    · exact ha.desc hd
  · rw [hmade]
    exact h.entries
  · rw [hmade]
    exact hpost
  · intro d hd
    rw [hheld] at hd
    rw [hmade, hmem _ id]
    exact h.held d hd
  · intro d hd
    refine (h.stage d (hmade ▸ hd)).of_kept (hk.descs d).1 (hk.descs d).2 (hmem _ id)
      (hmem _ id).mp ?_
    rw [hheld]
    exact id

/-! ## What is left alone -/

/-- The loop thread has the same to run, and the operations `more` in addition. -/
structure Posted (s t : State) (more : List Task) : Prop where
  work : work t = work s ++ more
  made : t.made = s.made
  held : t.held = s.held
  postings : t.postings = s.postings
  ops : ∀ a ∈ more, ∃ o, a = .op o

theorem Posted.trans {more more' : List Task} (h : Posted s t more) (k : Posted t u more') :
    Posted s u (more ++ more') where
  work := by rw [k.work, h.work, List.append_assoc]
  made := k.made.trans h.made
  held := k.held.trans h.held
  postings := k.postings.trans h.postings
  ops a ha := (List.mem_append.mp ha).elim (h.ops a) (k.ops a)

theorem posted_nil (hwork : work t = work s) (hmade : t.made = s.made) (hheld : t.held = s.held)
    (hpostings : t.postings = s.postings) : Posted s t [] where
  work := by rw [hwork, List.append_nil]
  made := hmade
  held := hheld
  postings := hpostings
  ops := nofun

theorem posted_release : ∃ more, Posted s (release s d) more := by
  unfold release
  split
  · refine ⟨(s.descs d).ops.map .op, (List.append_assoc ..).symm, rfl, rfl, rfl, fun a ha => ?_⟩
    obtain ⟨o, -, rfl⟩ := List.mem_map.mp ha
    exact ⟨o, rfl⟩
  · exact ⟨[], posted_nil rfl rfl rfl rfl⟩

theorem posted_complete : Posted s (complete s d m done) [] := by
  unfold complete writeInterest
  split
  · exact posted_nil rfl rfl rfl rfl
  · exact posted_nil rfl rfl rfl rfl

theorem posted_dispatchClosure {k : Direction} {o : OperationId} :
    ∃ more, Posted s (dispatchClosure s k d o done) more := by
  obtain ⟨more, hmore⟩ := posted_release (s := complete (enqueue s k d o) d (.of k) done) (d := d)
  have henqueue : Posted s (enqueue s k d o) [] := posted_nil rfl rfl rfl rfl
  exact ⟨_, (henqueue.trans posted_complete).trans hmore⟩

theorem posted_unregister : Posted s (unregister s d) [] := by
  unfold unregister remove
  split
  · split
    · unfold moved
      split
      · exact posted_nil rfl rfl rfl rfl
      · exact posted_nil rfl rfl rfl rfl
    · exact posted_nil rfl rfl rfl rfl
  · exact posted_nil rfl rfl rfl rfl

theorem posted_unbindClosure : ∃ more, Posted s (unbindClosure s d) more := by
  have hclose : Posted (unregister s d) (close (unregister s d) d) [] :=
    posted_nil rfl rfl rfl rfl
  obtain ⟨more, hmore⟩ := posted_release (s := close (unregister s d) d) (d := d)
  exact ⟨_, (posted_unregister.trans hclose).trans hmore⟩

theorem Posted.inner {more : List Task} (h : Posted s t more) :
    ∀ a ∈ more, a.Inner s.made := by
  intro a ha
  obtain ⟨o, rfl⟩ := h.ops a ha
  trivial

theorem Invariant.posted {more : List Task} (h : Invariant s live) (hk : Kept s t)
    (hposted : Posted s t more) : Invariant t live :=
  h.keep hk hposted.made hposted.held (hposted.postings ▸ h.postings) [] _ more rfl hposted.work
    nofun hposted.inner

/-! ## Steps -/

theorem invariant_initial (wakeUp : Int) : Invariant (initial wakeUp) [] where
  indexed := ⟨rfl, rfl, rfl, nofun, fun _ => nofun⟩
  order := List.Pairwise.nil
  made := nofun
  entries := nofun
  postings := nofun
  held := nofun
  stage := nofun

theorem invariant_opens {fd : Int} {connect : Option OperationId} (h : Invariant s live)
    (hfd : 0 ≤ fd) : Invariant (next s (.opens fd connect)) live := by
  have hwork : work (next s (.opens fd connect)) = work s ++ [.bind s.made] :=
    (List.append_assoc ..).symm
  have hself : (next s (.opens fd connect)).descs s.made =
      ⟨fd, fun i => if i = .write then connect.toList else [], .new, none⟩ :=
    Function.update_self ..
  have hother (e : DescriptorId) (he : e < s.made) :
      (next s (.opens fd connect)).descs e = s.descs e :=
    Function.update_of_ne (Nat.ne_of_lt he) ..
  have hmem (b : Task) (e : DescriptorId) (hb : b.desc = some e) (he : e < s.made) :
      b ∈ work (next s (.opens fd connect)) ↔ b ∈ work s := by
    rw [hwork, List.mem_append, List.mem_singleton]
    refine or_iff_left ?_
    rintro rfl
    exact Nat.ne_of_lt he (Option.some.inj hb).symm
  have hold (e : DescriptorId) (hheld : s.held e = true) : e < s.made := (h.held e hheld).1
  constructor
  · refine ⟨h.indexed.desc, h.indexed.fds.trans ?_, h.indexed.pipe, fun i e hi => ?_, fun e => ?_⟩
    · refine congrArg _ (List.map_congr_left fun e he => ?_)
      rw [hother e (h.entries e he)]
    · rw [hother e (h.entries e (List.mem_of_getElem? hi))]
      exact h.indexed.pollidx i e hi
    · by_cases he : e = s.made
      · rw [he, hself]
        exact nofun
      · show (Function.update s.descs s.made _ e).pollidx ≠ _
        rw [Function.update_of_ne he]
        exact h.indexed.positive e
  · rw [hwork, List.pairwise_append]
    refine ⟨h.order, List.pairwise_singleton .., fun a ha b hb => ?_⟩
    obtain rfl := List.mem_singleton.mp hb
    constructor
    · rintro e heq hdesc
      obtain rfl := Task.bind.inj heq
      exact Nat.lt_irrefl _ (h.made a ha _ hdesc)
    · exact fun _ _ => nofun
  · intro a ha e hdesc
    rw [hwork, List.mem_append, List.mem_singleton] at ha
    rcases ha with ha | rfl
    · exact Nat.lt_succ_of_lt (h.made a ha e hdesc)
    · exact Option.some.inj hdesc ▸ Nat.lt_succ_self _
  · exact fun e he => Nat.lt_succ_of_lt (h.entries e he)
  · exact fun a ha => (h.postings a ha).mono (Nat.le_succ _)
  · intro e hheld
    by_cases he : e = s.made
    · subst he
      refine ⟨Nat.lt_succ_self _, ?_⟩
      rw [hwork, List.mem_append, List.mem_singleton]
      rintro (hin | hin)
      · exact Nat.lt_irrefl _ (h.made _ hin _ rfl)
      · cases hin
    · have hsame : (next s (.opens fd connect)).held e = s.held e := Function.update_of_ne he ..
      rw [hsame] at hheld
      rw [hmem _ e rfl (hold e hheld)]
      exact ⟨Nat.lt_succ_of_lt (hold e hheld), (h.held e hheld).2⟩
  · intro e he
    by_cases hnew : e = s.made
    · subst hnew
      refine .waiting ?_ ?_ ?_
      · rw [hwork]
        exact List.mem_append_right _ (List.mem_singleton_self _)
      · rw [hself]
        show fd ≠ -1
        omega
      · rw [hself]
    · have hlt : e < s.made := Nat.lt_of_le_of_ne (Nat.le_of_lt_succ he) hnew
      refine (h.stage e hlt).of_kept ?_ ?_ (hmem _ e rfl hlt) (hmem _ e rfl hlt).mp ?_
      · rw [hother e hlt]
      · rw [hother e hlt]
      · intro hheld
        have hsame : (next s (.opens fd connect)).held e = s.held e :=
          Function.update_of_ne hnew ..
        exact hsame ▸ hheld

theorem invariant_unbind (h : Invariant s live) (hd : s.held d = true) :
    Invariant (next s (.unbind d)) live := by
  have hwork : work (next s (.unbind d)) = work s ++ [.unbind d] := (List.append_assoc ..).symm
  have hself : (next s (.unbind d)).held d = false := Function.update_self ..
  have hother (e : DescriptorId) (hheld : (next s (.unbind d)).held e = true) :
      e ≠ d ∧ s.held e = true := by
    have hne : e ≠ d := by
      rintro rfl
      rw [hself] at hheld
      cases hheld
    have hsame : (next s (.unbind d)).held e = s.held e := Function.update_of_ne hne ..
    exact ⟨hne, hsame ▸ hheld⟩
  have hbind (e : DescriptorId) : .bind e ∈ work (next s (.unbind d)) ↔ .bind e ∈ work s := by
    simp [hwork]
  constructor
  · exact h.indexed.of_kept ⟨rfl, rfl, rfl, rfl, fun _ => ⟨rfl, rfl⟩⟩
  · rw [hwork, List.pairwise_append]
    refine ⟨h.order, List.pairwise_singleton .., fun a ha b hb => ?_⟩
    obtain rfl := List.mem_singleton.mp hb
    constructor
    · exact fun _ => nofun
    · rintro e rfl heq
      obtain rfl := Task.unbind.inj heq
      exact (h.held _ hd).2 ha
  · intro a ha e hdesc
    rw [hwork, List.mem_append, List.mem_singleton] at ha
    rcases ha with ha | rfl
    · exact h.made a ha e hdesc
    · exact Option.some.inj hdesc ▸ (h.held d hd).1
  · exact h.entries
  · exact h.postings
  · intro e hheld
    obtain ⟨hne, hheld⟩ := hother e hheld
    obtain ⟨hlt, hnot⟩ := h.held e hheld
    refine ⟨hlt, ?_⟩
    rw [hwork, List.mem_append, List.mem_singleton]
    rintro (hin | hin)
    · exact hnot hin
    · exact hne (Task.unbind.inj hin)
  · intro e he
    cases h.stage e he with
    | waiting bind isOpen pollidx => exact .waiting ((hbind e).mpr bind) isOpen pollidx
    | registered bound isOpen entry => exact .registered (mt (hbind e).mp bound) isOpen entry
    | closed bound closed entry unheld unbound =>
      have hne : e ≠ d := by
        rintro rfl
        rw [unheld] at hd
        cases hd
      refine .closed (mt (hbind e).mp bound) closed entry ?_ ?_
      · exact (Function.update_of_ne hne ..).trans unheld
      · rw [hwork, List.mem_append, List.mem_singleton]
        rintro (hin | hin)
        · exact unbound hin
        · exact hne (Task.unbind.inj hin)

/-- The loop thread has taken the first of what it has to run. -/
def popped (s : State) (ts : List Task) (run : Int) : State := { s with frame := .drain ts run }

theorem work_popped {a : Task} {ts : List Task} {run : Int}
    (hframe : s.frame = .drain (a :: ts) run) (run' : Int) :
    work s = a :: work (popped s ts run') := by
  rw [work, hframe]
  rfl

section Closures

variable {a : Task} {ts : List Task} {run run' : Int}

/-- What runs first has its bind closure behind it. -/
theorem Invariant.bound (h : Invariant s live) (hwork : work s = a :: ts)
    (hdesc : a.desc = some d) : .bind d ∉ ts := by
  have horder := h.order
  rw [hwork, List.pairwise_cons] at horder
  exact fun hin => (horder.1 _ hin).1 d rfl hdesc

theorem Invariant.popped_inner (h : Invariant s live) (hframe : s.frame = .drain (a :: ts) run)
    (run' : Int) (ha : a.Inner s.made) : Invariant (popped s ts run') live := by
  have hwork := work_popped hframe run'
  refine h.keep ⟨rfl, rfl, rfl, rfl, fun _ => ⟨rfl, rfl⟩⟩ rfl rfl h.postings [a]
    (work (popped s ts run')) [] hwork (List.append_nil _).symm ?_ nofun
  intro b hb
  exact List.mem_singleton.mp hb ▸ ha

theorem invariant_dispatch {k : Direction} {o : OperationId} (h : Invariant s live)
    (hframe : s.frame = .drain (.dispatch k d o :: ts) run) :
    Invariant (dispatchClosure (popped s ts run') k d o done) live := by
  have hin : .dispatch k d o ∈ work s := work_popped hframe run' ▸ List.mem_cons_self
  have hmade : d < s.made := h.made _ hin d rfl
  have hpopped := h.popped_inner hframe run' hmade
  obtain ⟨more, hmore⟩ :
      ∃ more, Posted (popped s ts run') (dispatchClosure (popped s ts run') k d o done) more :=
    posted_dispatchClosure
  exact hpopped.posted (kept_dispatchClosure (h.indexed.positive d)) hmore

theorem invariant_bind (h : Invariant s live) (hframe : s.frame = .drain (.bind d :: ts) run) :
    Invariant (bindClosure (popped s ts run') d) (live ++ [d]) := by
  have hwork := work_popped hframe run'
  have hrest : work (bindClosure (popped s ts run') d) = work (popped s ts run') := rfl
  have hd : d < s.made := h.made _ (hwork ▸ List.mem_cons_self) d rfl
  have hbound := h.bound hwork rfl
  have hother (e : DescriptorId) (he : e ≠ d) :
      (bindClosure (popped s ts run') d).descs e = s.descs e := setDesc_ne he
  have hself : (bindClosure (popped s ts run') d).descs d =
      { s.descs d with pollidx := some s.events.length } := setDesc_self ..
  have hmem (b : Task) (hb : b ≠ .bind d) :
      b ∈ work (bindClosure (popped s ts run') d) ↔ b ∈ work s := by
    rw [hrest, hwork, List.mem_cons, or_iff_right hb]
  have hwaiting : (s.descs d).fd ≠ -1 ∧ (s.descs d).pollidx = none := by
    have hin : .bind d ∈ work s := hwork ▸ List.mem_cons_self
    cases h.stage d hd with
    | waiting bind isOpen pollidx => exact ⟨isOpen, pollidx⟩
    | registered bound => exact absurd hin bound
    | closed bound => exact absurd hin bound
  constructor
  · have hindexed : Indexed (popped s ts run') live :=
      h.indexed.of_kept ⟨rfl, rfl, rfl, rfl, fun _ => ⟨rfl, rfl⟩⟩
    exact hindexed.bindClosure hwaiting.2
  · rw [hrest]
    exact (List.pairwise_cons.mp (hwork ▸ h.order)).2
  · intro b hb e hdesc
    exact h.made b (hwork ▸ List.mem_cons_of_mem _ hb) e hdesc
  · intro e he
    rcases List.mem_append.mp he with he | he
    · exact h.entries e he
    · exact List.mem_singleton.mp he ▸ hd
  · exact h.postings
  · intro e hheld
    rw [hmem (.unbind e) nofun]
    exact h.held e hheld
  · intro e he
    by_cases hne : e = d
    · subst hne
      refine .registered (hrest ▸ hbound) ?_ (List.mem_append_right _ (List.mem_singleton_self _))
      rw [hself]
      exact hwaiting.1
    · have hbind := hmem (.bind e) fun heq => hne (Task.bind.inj heq)
      cases h.stage e he with
      | waiting bind isOpen pollidx =>
        refine .waiting (hbind.mpr bind) ?_ ?_
        · rw [hother e hne]
          exact isOpen
        · rw [hother e hne]
          exact pollidx
      | registered bound isOpen entry =>
        refine .registered (mt hbind.mp bound) ?_ (List.mem_append_left _ entry)
        rw [hother e hne]
        exact isOpen
      | closed bound closed entry unheld unbound =>
        refine .closed (mt hbind.mp bound) ?_ ?_ unheld (mt (hmem (.unbind e) nofun).mp unbound)
        · rw [hother e hne]
          exact closed
        · rw [List.mem_append, List.mem_singleton]
          rintro (hin | hin)
          · exact entry hin
          · exact hne hin

theorem unbindClosure_self : ((unbindClosure s d).descs d).fd = -1 := by
  rw [unbindClosure, (kept_release.descs d).1]
  exact congrArg Descriptor.fd (setDesc_self ..)

theorem unbindClosure_other (h : Indexed s live) (he : e ≠ d) :
    ((unbindClosure s d).descs e).fd = (s.descs e).fd ∧
      (e ∉ live → ((unbindClosure s d).descs e).pollidx = (s.descs e).pollidx) := by
  have hclose : (close (unregister s d) d).descs e = (unregister s d).descs e := setDesc_ne he
  rw [unbindClosure, (kept_release.descs e).1, (kept_release.descs e).2, hclose]
  rcases unregister_descs s d e with heq | ⟨hin, i, heq⟩
  · rw [heq]
    exact ⟨rfl, fun _ => rfl⟩
  · rw [heq]
    exact ⟨rfl, fun hnot => absurd (h.mem_desc.mp hin) hnot⟩

theorem Invariant.registered_of_closure (h : Invariant s live) (hwork : work s = a :: ts)
    (hdesc : a.desc = some d) (hbind : a ≠ .bind d) (hopen : (s.descs d).fd ≠ -1) : d ∈ live := by
  have hbound := h.bound hwork hdesc
  cases h.stage d (h.made a (hwork ▸ List.mem_cons_self) d hdesc) with
  | waiting bind =>
    rw [hwork] at bind
    rcases List.mem_cons.mp bind with heq | hin
    · exact absurd heq.symm hbind
    · exact absurd hin hbound
  | registered bound isOpen entry => exact entry
  | closed bound closed => exact absurd closed hopen

theorem Invariant.open_of_unbind (h : Invariant s live) (hin : .unbind d ∈ work s) :
    (s.descs d).fd ≠ -1 := by
  cases h.stage d (h.made _ hin d rfl) with
  | waiting bind isOpen => exact isOpen
  | registered bound isOpen => exact isOpen
  | closed bound closed entry unheld unbound => exact absurd hin unbound

theorem invariant_unbindClosure (h : Invariant s live)
    (hframe : s.frame = .drain (.unbind d :: ts) run) :
    ∃ live', Invariant (unbindClosure (popped s ts run') d) live' := by
  have hwork := work_popped hframe run'
  have hin : .unbind d ∈ work s := hwork ▸ List.mem_cons_self
  have hd : d < s.made := h.made _ hin d rfl
  have hlive : d ∈ live := h.registered_of_closure hwork rfl nofun (h.open_of_unbind hin)
  obtain ⟨i, hi⟩ := List.mem_iff_getElem?.mp hlive
  have hperm := perm_swapRemove hi
  have hgone : d ∉ swapRemove live i := (List.nodup_cons.mp (hperm.nodup_iff.mp h.indexed.nodup)).1
  have hmem {x : DescriptorId} (hx : x ≠ d) : x ∈ swapRemove live i ↔ x ∈ live := by
    rw [hperm.mem_iff, List.mem_cons, or_iff_right hx]
  have hindexed : Indexed (popped s ts run') live :=
    h.indexed.of_kept ⟨rfl, rfl, rfl, rfl, fun _ => ⟨rfl, rfl⟩⟩
  obtain ⟨more, hposted⟩ := posted_unbindClosure (s := popped s ts run') (d := d)
  have hother (b : Task) (hb : ¬ b.Inner s.made) (hne : b ≠ .unbind d) :
      b ∈ work (unbindClosure (popped s ts run') d) ↔ b ∈ work s := by
    have hmore : b ∉ more := fun hin => hb (hposted.inner b hin)
    rw [hposted.work, hwork, List.mem_append, List.mem_cons, or_iff_left hmore, or_iff_right hne]
  have horder := List.pairwise_cons.mp (hwork ▸ h.order)
  have hlast : Task.unbind d ∉ work (unbindClosure (popped s ts run') d) := by
    rw [hposted.work, List.mem_append]
    rintro (hin | hin)
    · exact (horder.1 _ hin).2 d rfl rfl
    · exact hposted.inner _ hin
  have hunheld : s.held d = false := by
    rw [← Bool.not_eq_true]
    exact fun hheld => (h.held d hheld).2 hin
  refine ⟨swapRemove live i, hindexed.unbindClosure hi, ?_, ?_, ?_, ?_, ?_, ?_⟩
  · rw [hposted.work]
    exact ordered_append horder.2 hposted.inner
  · intro b hb e hdesc
    rw [hposted.made]
    rw [hposted.work, List.mem_append] at hb
    rcases hb with hb | hb
    · exact h.made b (hwork ▸ List.mem_cons_of_mem _ hb) e hdesc
    · exact (hposted.inner b hb).desc hdesc
  · intro e he
    rw [hposted.made]
    exact h.entries e (hperm.mem_iff.mpr (List.mem_cons_of_mem _ he))
  · rw [hposted.postings, hposted.made]
    exact h.postings
  · intro e hheld
    rw [hposted.held] at hheld
    have hne : e ≠ d := by
      rintro rfl
      rw [show (popped s ts run').held e = s.held e from rfl, hunheld] at hheld
      cases hheld
    rw [hposted.made, hother (.unbind e) id fun heq => hne (Task.unbind.inj heq)]
    exact h.held e hheld
  · intro e he
    rw [hposted.made] at he
    by_cases hne : e = d
    · subst hne
      refine .closed ?_ unbindClosure_self hgone (hposted.held ▸ hunheld) hlast
      rw [hother (.bind e) id nofun, hwork, List.mem_cons]
      rintro (heq | hin)
      · cases heq
      · exact h.bound hwork rfl hin
    · obtain ⟨hfd, hidx⟩ := unbindClosure_other (d := d) hindexed hne
      have hbind := hother (.bind e) id nofun
      have hunbind := hother (.unbind e) id fun heq => hne (Task.unbind.inj heq)
      cases h.stage e he with
      | waiting bind isOpen pollidx =>
        refine .waiting (hbind.mpr bind) (hfd ▸ isOpen) ?_
        refine (hidx fun hmem => ?_).trans pollidx
        obtain ⟨j, -, hj, -⟩ := h.indexed.at_pollidx hmem
        rw [pollidx] at hj
        cases hj
      | registered bound isOpen entry =>
        exact .registered (mt hbind.mp bound) (hfd ▸ isOpen) ((hmem hne).mpr entry)
      | closed bound closed entry unheld unbound =>
        exact .closed (mt hbind.mp bound) (hfd ▸ closed) (mt (hmem hne).mp entry)
          (hposted.held ▸ unheld) (mt hunbind.mp unbound)

end Closures

theorem work_of_noTasks (h : s.frame.tasks = []) : work s = s.opQueue := by
  rw [work, h, List.nil_append]

theorem kept_beginRun {nofd : Int} {revents : List Mask}
    (hlength : revents.length = s.events.length) : Kept s (beginRun s nofd revents) := by
  unfold beginRun
  split
  · exact ⟨rfl, rfl, rfl, rfl, fun _ => ⟨rfl, rfl⟩⟩
  · have hrevents (j : Nat) (hj : s.events[j]? = none) : revents[j]? = none := by
      rw [List.getElem?_eq_none_iff] at hj ⊢
      omega
    have hone {β : Type} (f : PollFd → β) (hf : ∀ e m, f { e with revents := m } = f e) (j : Nat) :
        ((s.events.zipWith (fun e m => { e with revents := m }) revents)[j]?).map f =
          (s.events[j]?).map f := by
      rw [List.getElem?_zipWith]
      cases he : s.events[j]? with
      | none => rfl
      | some e =>
        have hj := (List.getElem?_eq_some_iff.mp he).1
        rw [List.getElem?_eq_getElem (hlength ▸ hj)]
        exact congrArg some (hf e _)
    refine ⟨rfl, rfl, ?_, hone _ (fun _ _ => rfl) 0, fun _ => ⟨rfl, rfl⟩⟩
    apply List.ext_getElem?
    intro j
    rw [List.getElem?_map, List.getElem?_map]
    exact hone _ (fun _ _ => rfl) j

/-- Steps that neither take a reference nor run a closure. -/
def Event.Quiet : Event → Prop
  | .execute _ => True
  | .poll _ _ _ => True
  | .event _ _ _ _ => True
  | .endEvents _ _ _ => True
  | .endRun _ => True
  | _ => False

/-- A quiet step keeps entries and references. -/
theorem quiet_next {ev : Event} (h : ∀ d, (s.descs d).pollidx ≠ some 0) (hev : Enabled s ev)
    (hquiet : ev.Quiet) :
    Kept s (next s ev) ∧ (∀ x, ((next s ev).descs x).cell = (s.descs x).cell) ∧
      ∃ more, Posted s (next s ev) more := by
  have hsame : Kept s s := .refl
  cases ev with
  | opens fd connect => exact absurd hquiet id
  | take i d o => exact absurd hquiet id
  | post a => exact absurd hquiet id
  | unbind d => exact absurd hquiet id
  | closure a ts run done => exact absurd hquiet id
  | execute o =>
    refine ⟨⟨rfl, rfl, rfl, rfl, hsame.descs⟩, fun _ => rfl, [.op o], (List.append_assoc ..).symm,
      rfl, rfl, rfl, fun a ha => ⟨o, List.mem_singleton.mp ha⟩⟩
  | poll returned nofd revents =>
    have hwork : work s = s.opQueue := work_of_noTasks (by rw [hev.1]; rfl)
    refine ⟨kept_beginRun hev.2, ?_⟩
    show (∀ x, ((beginRun s nofd revents).descs x).cell = _) ∧
      ∃ more, Posted s (beginRun s nofd revents) more
    unfold beginRun
    split
    · exact ⟨fun _ => rfl, [], posted_nil hwork.symm rfl rfl rfl⟩
    · exact ⟨fun _ => rfl, [], posted_nil hwork.symm rfl rfl rfl⟩
  | event i executeOp run done =>
    have hwork : work s = s.opQueue := work_of_noTasks (by rw [hev.1]; rfl)
    show Kept s (onEvent s i executeOp run done) ∧ _
    rw [next, onEvent]
    split
    · exact ⟨⟨rfl, rfl, rfl, rfl, hsame.descs⟩, fun _ => rfl, [], posted_nil hwork.symm rfl rfl rfl⟩
    · exact ⟨⟨rfl, rfl, rfl, rfl, hsame.descs⟩, fun _ => rfl, [], posted_nil hwork.symm rfl rfl rfl⟩
    · next revents d _ =>
      have hnext : Posted s { s with frame := .events (i + 1) executeOp run } [] :=
        posted_nil hwork.symm rfl rfl rfl
      have hkept : Kept s { s with frame := .events (i + 1) executeOp run } :=
        ⟨rfl, rfl, rfl, rfl, hsame.descs⟩
      exact ⟨hkept.trans (kept_complete (h d)), cell_update descs_complete rfl, _,
        hnext.trans posted_complete⟩
  | endEvents i executeOp run =>
    have hwork : work s = s.opQueue := work_of_noTasks (by rw [hev.1]; rfl)
    cases executeOp with
    | false =>
      exact ⟨⟨rfl, rfl, rfl, rfl, hsame.descs⟩, fun _ => rfl, [], posted_nil hwork.symm rfl rfl rfl⟩
    | true =>
      refine ⟨⟨rfl, rfl, rfl, rfl, hsame.descs⟩, fun _ => rfl, [], posted_nil ?_ rfl rfl rfl⟩
      rw [hwork]
      exact List.append_nil _
  | endRun run =>
    have hwork : work s = s.opQueue := work_of_noTasks (by rw [hev]; rfl)
    exact ⟨⟨rfl, rfl, rfl, rfl, hsame.descs⟩, fun _ => rfl, [], posted_nil hwork.symm rfl rfl rfl⟩

theorem Invariant.quiet {ev : Event} (h : Invariant s live) (hev : Enabled s ev)
    (hquiet : ev.Quiet) : Invariant (next s ev) live := by
  obtain ⟨hkept, -, more, hposted⟩ := quiet_next h.indexed.positive hev hquiet
  exact h.posted hkept hposted

theorem invariant_next {ev : Event} (h : Invariant s live) (hev : Enabled s ev) :
    ∃ live', Invariant (next s ev) live' := by
  cases ev with
  | opens fd connect => exact ⟨live, invariant_opens h hev⟩
  | take i d o =>
    have hd := (h.held d hev.1).1
    refine ⟨live, h.keep (kept_update rfl rfl rfl rfl rfl rfl) rfl rfl ?_ [] (work s) [] rfl
      (List.append_nil _).symm nofun nofun⟩
    intro a ha
    rcases List.mem_append.mp ha with ha | ha
    · exact h.postings a ha
    · exact List.mem_singleton.mp ha ▸ hd
  | post a =>
    refine ⟨live, h.keep ⟨rfl, rfl, rfl, rfl, fun _ => ⟨rfl, rfl⟩⟩ rfl rfl
      (fun b hb => h.postings b (List.mem_of_mem_erase hb)) [] (work s) [a] rfl
      (List.append_assoc ..).symm nofun ?_⟩
    intro b hb
    exact List.mem_singleton.mp hb ▸ h.postings a hev
  | execute o => exact ⟨live, h.quiet hev trivial⟩
  | unbind d => exact ⟨live, invariant_unbind h hev⟩
  | poll returned nofd revents => exact ⟨live, h.quiet hev trivial⟩
  | event i executeOp run done => exact ⟨live, h.quiet hev trivial⟩
  | endEvents i executeOp run => exact ⟨live, h.quiet hev trivial⟩
  | closure a ts run done =>
    cases a with
    | op o =>
      have hpopped := h.popped_inner hev (run + 1) trivial
      exact ⟨live, hpopped.posted ⟨rfl, rfl, rfl, rfl, fun _ => ⟨rfl, rfl⟩⟩
        (posted_nil rfl rfl rfl rfl)⟩
    | bind d => exact ⟨_, invariant_bind h hev⟩
    | dispatch i d o => exact ⟨live, invariant_dispatch h hev⟩
    | unbind d => exact invariant_unbindClosure h hev
  | endRun run => exact ⟨live, h.quiet hev trivial⟩

theorem invariant_run {wakeUp : Int} (h : machine.Reachable (initial wakeUp) s) :
    ∃ live, Invariant s live := by
  apply System.Execution.invariant h
  · exact ⟨[], invariant_initial wakeUp⟩
  · rintro u ev - ⟨live, hu⟩ hev -
    exact invariant_next hu hev

end PollMachine
