import Tcode.PollCompletion
import Tcode.SelectMachine

/-! # The descriptors of the select multiplexer

`_desc` holds each open descriptor once, from the bind closure to the unbind closure. The
references of a descriptor are that of its socket, which the unbind closure gives back, and those
of the closures that dispatch to it.
-/
namespace SelectMachine

open EpollMachine (Direction DescriptorId OperationId)
open PollMachine (Task)
open SelectRun (Sets)
open SupportReferenceCount SupportSwapRemove SupportTransitionSystem

variable {s t : State} {d e : DescriptorId} {i : Direction} {done : OperationId → Bool}
  {extra extra' : DescriptorId → Nat} {setSize : Nat}

/-! ## What is to be kept -/

def Frame.tasks : Frame → List Task
  | .drain ops _ => ops
  | _ => []

/-- What the loop thread is going to run, in this order. -/
def work (s : State) : List Task := s.frame.tasks ++ s.opQueue

def captures (s : State) (d : DescriptorId) : Nat :=
  (s.postings ++ work s).countP (PollMachine.Task.captures d)

/-- The reference that the unbind closure gives back. -/
def base (s : State) (d : DescriptorId) : Nat := if (s.descs d).fd = -1 then 0 else 1

def owner (s : State) (d : DescriptorId) : Nat := if s.held d = true then 1 else 0

structure Unmade (s : State) (d : DescriptorId) : Prop where
  fd : (s.descs d).fd = -1
  opQueue : (s.descs d).opQueue = fun _ => []
  deleted : (s.descs d).cell.deleted = false
  captures : captures s d = 0

/-- No bind closure comes behind the unbind closure of its descriptor. -/
def Ahead (a b : Task) : Prop := ∀ d, a = .unbind d → b ≠ .bind d

/-- An open descriptor is to be bound or in `_desc`, and it is to be unbound or has a socket. -/
structure Owned (s : State) (extra : DescriptorId → Nat) : Prop where
  unmade : ∀ d, s.made ≤ d → Unmade s d
  postings : ∀ a ∈ s.postings, ∃ i d o, a = .dispatch i d o
  held : ∀ d, s.held d = true → d < s.made
  stake : ∀ d, owner s d + (work s).count (.unbind d) = base s d
  place : ∀ d, (work s).count (.bind d) + s.desc.count d = base s d
  order : (work s).Pairwise Ahead
  counted : ∀ d, d < s.made → Held (s.descs d).cell (base s d + captures s d + extra d)

/-! ## Consequences -/

theorem base_le_one : base s d ≤ 1 := by
  unfold base
  split
  · exact Nat.zero_le 1
  · exact Nat.le_refl 1

theorem open_of_base (h : 0 < base s d) : (s.descs d).fd ≠ -1 := by
  intro hfd
  rw [base, if_pos hfd] at h
  exact Nat.lt_irrefl 0 h

theorem base_of_open (h : (s.descs d).fd ≠ -1) : base s d = 1 := if_neg h

theorem Owned.made_of_base (h : Owned s extra) (hd : 0 < base s d) : d < s.made := by
  by_contra hge
  exact open_of_base hd (h.unmade d (Nat.le_of_not_lt hge)).fd

theorem Owned.made_of_captures (h : Owned s extra) (hd : 0 < captures s d) : d < s.made := by
  by_contra hge
  have hnone := (h.unmade d (Nat.le_of_not_lt hge)).captures
  omega

theorem Owned.base_of_held (h : Owned s extra) (hd : s.held d = true) :
    base s d = 1 ∧ (work s).count (.unbind d) = 0 := by
  have hstake := h.stake d
  have hle : base s d ≤ 1 := base_le_one
  rw [owner, if_pos hd] at hstake
  omega

theorem Owned.base_of_unbind (h : Owned s extra) (hin : .unbind d ∈ work s) :
    base s d = 1 ∧ owner s d = 0 ∧ (work s).count (.unbind d) = 1 := by
  have hstake := h.stake d
  have hpos := List.count_pos_iff.mpr hin
  have hle : base s d ≤ 1 := base_le_one
  omega

theorem Owned.base_of_mem (h : Owned s extra) (hd : d ∈ s.desc) : base s d = 1 := by
  have hplace := h.place d
  have hpos := List.count_pos_iff.mpr hd
  have hle : base s d ≤ 1 := base_le_one
  omega

/-- A descriptor is in `_desc` once. -/
theorem Owned.nodup (h : Owned s extra) : s.desc.Nodup := by
  rw [List.nodup_iff_count_le_one]
  intro d
  have hplace := h.place d
  have hle : base s d ≤ 1 := base_le_one
  omega

theorem Owned.notDeleted (h : Owned s extra) (hd : d < s.made)
    (hpos : 0 < base s d + captures s d + extra d) : (s.descs d).cell.deleted = false :=
  (h.counted d hd).notDeleted hpos

/-- What is open is not deleted. -/
theorem Owned.notDeleted_of_base (h : Owned s extra) (hd : base s d = 1) :
    (s.descs d).cell.deleted = false := by
  apply h.notDeleted (h.made_of_base (by omega))
  omega

/-! ## What stays -/

theorem ahead_append {as bs : List Task} (h : as.Pairwise Ahead)
    (hbs : ∀ b ∈ bs, ∀ d, b ≠ .bind d) : (as ++ bs).Pairwise Ahead := by
  rw [List.pairwise_append]
  refine ⟨h, ?_, fun a _ b hb d _ => hbs b hb d⟩
  exact List.Pairwise.imp_mem.mpr (List.pairwise_of_forall fun a b _ hb d _ => hbs b hb d)

theorem count_append_other {as bs : List Task} {a : Task} (h : ∀ b ∈ bs, b ≠ a) :
    (as ++ bs).count a = as.count a := by
  have hnone : bs.count a = 0 := List.count_eq_zero.mpr fun hin => h a hin rfl
  rw [List.count_append, hnone, Nat.add_zero]

/-- Neither the first nor the last closure of a descriptor. -/
def Inner (a : Task) : Prop := (∀ d, a ≠ .bind d) ∧ ∀ d, a ≠ .unbind d

/-- Every descriptor keeps its place and its references, and inner closures are posted. -/
theorem Owned.keep {more : List Task} (h : Owned s extra) (hmade : t.made = s.made)
    (hheld : t.held = s.held) (hdesc : t.desc = s.desc)
    (hdescs : ∀ d, (t.descs d).fd = (s.descs d).fd ∧ (t.descs d).cell = (s.descs d).cell)
    (hqueue : ∀ d, s.made ≤ d → (t.descs d).opQueue = fun _ => [])
    (hpostings : ∀ a ∈ t.postings, ∃ i d o, a = .dispatch i d o)
    (hcaptures : ∀ d, captures t d = captures s d) (hwork : work t = work s ++ more)
    (hmore : ∀ a ∈ more, Inner a) : Owned t extra where
  unmade d hd := by
    rw [hmade] at hd
    have hunmade := h.unmade d hd
    constructor
    · rw [(hdescs d).1, hunmade.fd]
    · exact hqueue d hd
    · rw [(hdescs d).2, hunmade.deleted]
    · rw [hcaptures, hunmade.captures]
  postings := hpostings
  held d hd := by
    rw [hheld] at hd
    rw [hmade]
    exact h.held d hd
  stake d := by
    rw [owner, base, hheld, (hdescs d).1, hwork, count_append_other fun b hb => (hmore b hb).2 d]
    exact h.stake d
  place d := by
    rw [base, (hdescs d).1, hdesc, hwork, count_append_other fun b hb => (hmore b hb).1 d]
    exact h.place d
  order := by
    rw [hwork]
    exact ahead_append h.order fun b hb => (hmore b hb).1
  counted d hd := by
    rw [base, (hdescs d).1, (hdescs d).2, hcaptures]
    exact h.counted d (hmade ▸ hd)

theorem inner_op (o : OperationId) : Inner (.op o) := by
  constructor
  · intro d h
    cases h
  · intro d h
    cases h

theorem inner_dispatch (i : Direction) (d : DescriptorId) (o : OperationId) :
    Inner (.dispatch i d o) := by
  constructor
  · intro e h
    cases h
  · intro e h
    cases h

theorem inner_ops (os : List OperationId) : ∀ a ∈ os.map Task.op, Inner a := by
  intro a ha
  obtain ⟨o, -, rfl⟩ := List.mem_map.mp ha
  exact inner_op o

theorem captures_of_work {os : List OperationId} (hpostings : t.postings = s.postings)
    (hwork : work t = work s ++ os.map .op) (d : DescriptorId) : captures t d = captures s d := by
  have hops : (os.map Task.op).countP (PollMachine.Task.captures d) = 0 := by
    rw [List.countP_eq_zero]
    intro a ha
    obtain ⟨o, -, rfl⟩ := List.mem_map.mp ha
    exact Bool.false_ne_true
  rw [captures, captures, hpostings, hwork, ← List.append_assoc, List.countP_append, hops,
    Nat.add_zero]

/-- The loop thread goes on, and operations are added. -/
theorem Owned.goes (h : Owned s extra) (os : List OperationId) (hmade : t.made = s.made)
    (hheld : t.held = s.held) (hdesc : t.desc = s.desc) (hdescs : t.descs = s.descs)
    (hpostings : t.postings = s.postings) (hwork : work t = work s ++ os.map .op) :
    Owned t extra := by
  refine h.keep hmade hheld hdesc ?_ ?_ ?_ (captures_of_work hpostings hwork) hwork (inner_ops os)
  · intro d
    rw [hdescs]
    exact ⟨rfl, rfl⟩
  · intro d hd
    rw [hdescs]
    exact (h.unmade d hd).opQueue
  · rw [hpostings]
    exact h.postings

theorem Owned.moves (h : Owned s extra) (hmade : t.made = s.made) (hheld : t.held = s.held)
    (hdesc : t.desc = s.desc) (hdescs : t.descs = s.descs) (hpostings : t.postings = s.postings)
    (hwork : work t = work s) : Owned t extra := by
  refine h.goes [] hmade hheld hdesc hdescs hpostings ?_
  rw [hwork, List.map_nil, List.append_nil]

/-- The references of one descriptor, and what is counted of them, change. -/
theorem Owned.update {v : Descriptor} (h : Owned s extra) (os : List OperationId) (hd : d < s.made)
    (hdescs : t.descs = Function.update s.descs d v) (hfd : v.fd = (s.descs d).fd)
    (hmade : t.made = s.made) (hheld : t.held = s.held) (hdesc : t.desc = s.desc)
    (hpostings : ∀ a ∈ t.postings, ∃ i d o, a = .dispatch i d o)
    (hwork : work t = work s ++ os.map .op) (hothers : ∀ e, e ≠ d → captures t e = captures s e)
    (hextra : ∀ e, e ≠ d → extra' e = extra e)
    (hcell : Held v.cell (base s d + captures t d + extra' d)) : Owned t extra' := by
  have hself : t.descs d = v := by rw [hdescs, Function.update_self]
  have hother (e : DescriptorId) (he : e ≠ d) : t.descs e = s.descs e := by
    rw [hdescs, Function.update_of_ne he]
  have hnames (e : DescriptorId) : (t.descs e).fd = (s.descs e).fd := by
    by_cases he : e = d
    · rw [he, hself, hfd]
    · rw [hother e he]
  constructor
  · intro e he
    rw [hmade] at he
    have hne : e ≠ d := (Nat.lt_of_lt_of_le hd he).ne'
    have hunmade := h.unmade e he
    constructor
    · rw [hother e hne, hunmade.fd]
    · rw [hother e hne, hunmade.opQueue]
    · rw [hother e hne, hunmade.deleted]
    · rw [hothers e hne, hunmade.captures]
  · exact hpostings
  · intro e he
    rw [hheld] at he
    rw [hmade]
    exact h.held e he
  · intro e
    rw [owner, base, hheld, hnames, hwork,
      count_append_other fun b hb => (inner_ops os b hb).2 e]
    exact h.stake e
  · intro e
    rw [base, hnames, hdesc, hwork, count_append_other fun b hb => (inner_ops os b hb).1 e]
    exact h.place e
  · rw [hwork]
    exact ahead_append h.order fun b hb => (inner_ops os b hb).1
  · intro e he
    rw [base, hnames]
    by_cases hed : e = d
    · subst hed
      rw [hself]
      exact hcell
    · rw [hother e hed, hothers e hed, hextra e hed]
      exact h.counted e (hmade ▸ he)

/-! ## Functions -/

def only (d : DescriptorId) : DescriptorId → Nat := fun e => if e = d then 1 else 0

/-- What a release does besides the references. -/
structure Released (s t : State) (d : DescriptorId) (v : Descriptor) (os : List OperationId) :
    Prop where
  descs : t.descs = Function.update s.descs d v
  fd : v.fd = (s.descs d).fd
  cell : v.cell = (s.descs d).cell.release
  work : work t = work s ++ os.map .op
  rest : t.made = s.made ∧ t.held = s.held ∧ t.desc = s.desc ∧ t.postings = s.postings
  fault : t.fault = (s.fault || (s.descs d).cell.deleted)

theorem released (s : State) (d : DescriptorId) : ∃ v os, Released s (release s d) d v os := by
  unfold release
  split
  · exact ⟨_, _, rfl, rfl, rfl, (List.append_assoc ..).symm, ⟨rfl, rfl, rfl, rfl⟩, rfl⟩
  · exact ⟨_, [], rfl, rfl, rfl, (List.append_nil _).symm, ⟨rfl, rfl, rfl, rfl⟩, rfl⟩

/-- One reference that is too many is given back. -/
theorem Owned.release (h : Owned s (only d)) (hd : d < s.made) :
    Owned (release s d) fun _ => 0 := by
  obtain ⟨v, os, hrel⟩ := released s d
  obtain ⟨hmade, hheld, hdesc, hpostings⟩ := hrel.rest
  have hcaptures (e : DescriptorId) : captures (SelectMachine.release s d) e = captures s e :=
    captures_of_work hpostings hrel.work e
  have hcell := h.counted d hd
  rw [only, if_pos rfl] at hcell
  refine h.update os hd hrel.descs hrel.fd hmade hheld hdesc (hpostings ▸ h.postings) hrel.work
    (fun e _ => hcaptures e) (fun e he => (if_neg he).symm) ?_
  rw [hcaptures, hrel.cell]
  exact hcell.release (Nat.succ_pos _)

/-- The loop thread has taken the first of what it has to run. -/
def popped (s : State) (ts : List Task) (run : Int) : State := { s with frame := .drain ts run }

section Closures

variable {a : Task} {ts : List Task} {run run' : Int}

theorem work_popped (hframe : s.frame = .drain (a :: ts) run) (run' : Int) :
    work s = a :: work (popped s ts run') := by
  rw [work, hframe]
  rfl

theorem captures_popped (hframe : s.frame = .drain (a :: ts) run) (run' : Int)
    (d : DescriptorId) : captures s d =
      captures (popped s ts run') d + (PollMachine.Task.captures d a).toNat := by
  rw [captures, captures, work_popped hframe run', List.countP_append, List.countP_cons,
    List.countP_append]
  cases PollMachine.Task.captures d a with
  | true => rfl
  | false => rfl

/-- An operation is taken, or the closure that is to dispatch one, whose reference is then too
many. -/
theorem Owned.popped (h : Owned s fun _ => 0) (hframe : s.frame = .drain (a :: ts) run)
    (ha : Inner a) :
    Owned (popped s ts run') fun d => (PollMachine.Task.captures d a).toNat := by
  have hwork := work_popped hframe run'
  have hcount (b : Task) (hb : a ≠ b) :
      (work (SelectMachine.popped s ts run')).count b = (work s).count b := by
    rw [hwork, List.count_cons_of_ne hb]
  constructor
  · intro d hd
    have hunmade := h.unmade d hd
    have hnone := hunmade.captures
    rw [captures_popped hframe run'] at hnone
    exact ⟨hunmade.fd, hunmade.opQueue, hunmade.deleted, Nat.eq_zero_of_add_eq_zero_right hnone⟩
  · exact h.postings
  · exact h.held
  · intro d
    rw [hcount _ (ha.2 d)]
    exact h.stake d
  · intro d
    rw [hcount _ (ha.1 d)]
    exact h.place d
  · have horder := h.order
    rw [hwork] at horder
    exact (List.pairwise_cons.mp horder).2
  · intro d hd
    have hcell := h.counted d hd
    rw [captures_popped hframe run', ← Nat.add_assoc] at hcell
    exact hcell

theorem owned_op {o : OperationId} (h : Owned s fun _ => 0)
    (hframe : s.frame = .drain (.op o :: ts) run) :
    Owned (opRun (popped s ts run') done (.op o)) fun _ => 0 :=
  (h.popped hframe (inner_op o)).moves rfl rfl rfl rfl rfl rfl

theorem owned_bind (h : Owned s fun _ => 0) (hframe : s.frame = .drain (.bind d :: ts) run) :
    Owned (bindClosure (popped s ts run') d) fun _ => 0 := by
  have hwork := work_popped hframe run'
  have hrest : work (bindClosure (popped s ts run') d) = work (popped s ts run') := rfl
  have hcaptures (e : DescriptorId) :
      captures (bindClosure (popped s ts run') d) e = captures s e :=
    (captures_popped hframe run' e).symm
  constructor
  · intro e he
    have hunmade := h.unmade e he
    exact ⟨hunmade.fd, hunmade.opQueue, hunmade.deleted, (hcaptures e).trans hunmade.captures⟩
  · exact h.postings
  · exact h.held
  · intro e
    have hstake := h.stake e
    have hne : PollMachine.Task.bind d ≠ .unbind e := nofun
    rw [hwork, List.count_cons_of_ne hne] at hstake
    exact hstake
  · intro e
    have hplace := h.place e
    show (work (popped s ts run')).count (.bind e) + (s.desc ++ [d]).count e = base s e
    rw [hwork] at hplace
    rw [List.count_append, ← hplace]
    by_cases he : e = d
    · subst he
      have hone : [e].count e = 1 := List.count_singleton_self
      rw [hone, List.count_cons_self]
      omega
    · have hne : PollMachine.Task.bind d ≠ .bind e :=
        fun heq => he (PollMachine.Task.bind.inj heq).symm
      have hnone : [d].count e = 0 :=
        List.count_eq_zero.mpr fun hin => he (List.mem_singleton.mp hin)
      rw [List.count_cons_of_ne hne, hnone]
      rfl
  · have horder := h.order
    rw [hwork] at horder
    exact (List.pairwise_cons.mp horder).2
  · intro e he
    rw [hcaptures]
    exact h.counted e he

/-- A completion changes nothing but queues. -/
theorem complete_descs (s : State) (events : Direction → Bool) (x : DescriptorId) :
    ∃ queue, (complete s d events done).descs x = { s.descs x with opQueue := queue } ∧
      (x ≠ d → queue = (s.descs x).opQueue) := by
  by_cases hx : x = d
  · subst hx
    exact ⟨_, setDesc_self .., fun hne => absurd rfl hne⟩
  · exact ⟨(s.descs x).opQueue, setDesc_ne hx, fun _ => rfl⟩

theorem Owned.complete {events : Direction → Bool} (h : Owned s extra) (hd : d < s.made) :
    Owned (complete s d events done) extra :=
  h.update [] hd rfl rfl rfl rfl rfl h.postings (List.append_nil _).symm (fun _ _ => rfl)
    (fun _ _ => rfl) (h.counted d hd)

theorem Owned.enqueue {o : OperationId} (h : Owned s extra) (hd : d < s.made) :
    Owned (enqueue s i d o) extra :=
  h.update [] hd rfl rfl rfl rfl rfl h.postings (List.append_nil _).symm (fun _ _ => rfl)
    (fun _ _ => rfl) (h.counted d hd)

/-- When the operation is queued and attempted, the reference of its closure is too many. -/
theorem owned_dispatch {o : OperationId} (h : Owned s fun _ => 0)
    (hframe : s.frame = .drain (.dispatch i d o :: ts) run) :
    d < s.made ∧ Owned (complete (enqueue (popped s ts run') i d o) d
      (fun j => decide (j = i)) done) (only d) := by
  have hd : d < s.made := by
    apply h.made_of_captures
    rw [captures_popped hframe run', PollMachine.Task.captures, decide_eq_true rfl]
    exact Nat.succ_pos _
  have hextra : (fun e => (PollMachine.Task.captures e (.dispatch i d o)).toNat) = only d := by
    funext e
    by_cases he : d = e <;> simp [PollMachine.Task.captures, only, he, eq_comm]
  have hpopped : Owned (popped s ts run') (only d) :=
    hextra ▸ h.popped hframe (inner_dispatch i d o)
  have henqueue : Owned (enqueue (popped s ts run') i d o) (only d) := hpopped.enqueue hd
  exact ⟨hd, henqueue.complete hd⟩

structure Unregistered (s t : State) (d : DescriptorId) : Prop where
  desc : t.desc.Perm (s.desc.erase d)
  descs : t.descs = s.descs
  work : work t = work s
  rest : t.made = s.made ∧ t.held = s.held ∧ t.postings = s.postings ∧ t.fault = s.fault ∧
    t.invoked = s.invoked

theorem unregistered (hd : d ∈ s.desc) : Unregistered s (unregister s d) d := by
  have hidx := List.idxOf_lt_length_iff.mpr hd
  rw [unregister, if_pos hidx]
  refine ⟨?_, rfl, rfl, rfl, rfl, rfl, rfl, rfl⟩
  have hperm := perm_swapRemove (List.getElem?_eq_getElem hidx)
  rw [List.getElem_idxOf] at hperm
  have herase := hperm.erase d
  rw [List.erase_cons_head] at herase
  exact herase.symm

/-- When the unbind closure has closed the file, its reference is too many. -/
theorem owned_close (h : Owned s fun _ => 0) (hframe : s.frame = .drain (.unbind d :: ts) run) :
    d < s.made ∧ d ∈ s.desc ∧ Owned (close (unregister (popped s ts run') d) d) (only d) := by
  have hwork := work_popped hframe run'
  have hin : .unbind d ∈ work s := hwork ▸ List.mem_cons_self
  obtain ⟨hbase, howner, hcount⟩ := h.base_of_unbind hin
  have hd := h.made_of_base (d := d) (by omega)
  have horder := h.order
  rw [hwork] at horder
  obtain ⟨hahead, hrest⟩ := List.pairwise_cons.mp horder
  -- its bind closure has run
  have hbound : (work s).count (.bind d) = 0 := by
    rw [List.count_eq_zero, hwork]
    intro hbind
    rcases List.mem_cons.mp hbind with heq | hbind
    · cases heq
    · exact hahead _ hbind d rfl rfl
  have hplace := h.place d
  have hmem : d ∈ s.desc := List.count_pos_iff.mp (by omega)
  refine ⟨hd, hmem, ?_⟩
  have hun : Unregistered (popped s ts run') (unregister (popped s ts run') d) d :=
    unregistered hmem
  obtain ⟨hmade, hheld, hpostings, -, -⟩ := hun.rest
  have hself :
      (close (unregister (popped s ts run') d) d).descs d = { s.descs d with fd := -1 } := by
    rw [close, setDesc_self, hun.descs]
    rfl
  have hother (e : DescriptorId) (he : e ≠ d) :
      (close (unregister (popped s ts run') d) d).descs e = s.descs e := by
    rw [close, setDesc_ne he]
    exact congrFun hun.descs e
  have hworks : work (close (unregister (popped s ts run') d) d) = work (popped s ts run') :=
    hun.work
  have hcaptures (e : DescriptorId) :
      captures (close (unregister (popped s ts run') d) d) e = captures s e := by
    have hsame :
        (close (unregister (popped s ts run') d) d).postings = (popped s ts run').postings :=
      hpostings
    rw [captures_popped hframe run', captures, hworks, hsame]
    rfl
  constructor
  · intro e he
    have hunmade := h.unmade e (hmade ▸ he)
    have hne : e ≠ d := by
      rintro rfl
      exact Nat.lt_irrefl _ (Nat.lt_of_lt_of_le hd (hmade ▸ he))
    constructor
    · rw [hother e hne, hunmade.fd]
    · rw [hother e hne, hunmade.opQueue]
    · rw [hother e hne, hunmade.deleted]
    · rw [hcaptures, hunmade.captures]
  · exact fun a ha => h.postings a (hpostings ▸ ha)
  · intro e he
    exact hmade ▸ h.held e (hheld ▸ he)
  · intro e
    have hstake := h.stake e
    have howner' : owner (close (unregister (popped s ts run') d) d) e = owner s e :=
      congrArg (fun held : DescriptorId → Bool => if held e = true then 1 else 0) hheld
    rw [hwork] at hstake hcount
    rw [howner', hworks]
    by_cases hed : e = d
    · subst hed
      rw [List.count_cons_self] at hcount
      rw [base, hself, if_pos rfl]
      omega
    · have hne : PollMachine.Task.unbind d ≠ .unbind e :=
        fun heq => hed (PollMachine.Task.unbind.inj heq).symm
      rw [List.count_cons_of_ne hne] at hstake
      rw [base, hother e hed]
      exact hstake
  · intro e
    have hplace := h.place e
    have hcountd : (close (unregister (popped s ts run') d) d).desc.count e =
        (s.desc.erase d).count e := hun.desc.count_eq e
    have hne : PollMachine.Task.unbind d ≠ .bind e := nofun
    rw [hwork, List.count_cons_of_ne hne] at hplace
    rw [hworks, hcountd]
    by_cases hed : e = d
    · subst hed
      rw [hwork, List.count_cons_of_ne hne] at hbound
      rw [base, hself, if_pos rfl, List.count_erase_self]
      omega
    · rw [base, hother e hed, List.count_erase_of_ne hed]
      exact hplace
  · rw [hworks]
    exact hrest
  · intro e he
    have hcell := h.counted e (hmade ▸ he)
    rw [hcaptures]
    by_cases hed : e = d
    · subst hed
      rw [base, hself, if_pos rfl, only, if_pos rfl]
      rw [hbase, Nat.add_zero, Nat.add_comm] at hcell
      rw [Nat.zero_add]
      exact hcell
    · rw [base, hother e hed, only, if_neg hed]
      exact hcell

end Closures

/-! ## Steps -/

theorem owned_initial (wakeUp : Int) : Owned (initial wakeUp) fun _ => 0 where
  unmade _ _ := ⟨rfl, rfl, rfl, rfl⟩
  postings := nofun
  held := nofun
  stake _ := rfl
  place _ := rfl
  order := List.Pairwise.nil
  counted d hd := absurd hd (Nat.not_lt_zero d)

theorem owned_opens {fd : Int} {connect : Option OperationId} (h : Owned s fun _ => 0)
    (hfd : 0 ≤ fd) : Owned (next setSize s (.opens fd connect)) fun _ => 0 := by
  have hself : (next setSize s (.opens fd connect)).descs s.made =
      ⟨fd, fun i => if i = .write then connect.toList else [], .new⟩ := Function.update_self ..
  have hother (e : DescriptorId) (he : e ≠ s.made) :
      (next setSize s (.opens fd connect)).descs e = s.descs e := Function.update_of_ne he ..
  have hheld (e : DescriptorId) (he : e ≠ s.made) :
      (next setSize s (.opens fd connect)).held e = s.held e := Function.update_of_ne he ..
  have hnew : (next setSize s (.opens fd connect)).held s.made = true := Function.update_self ..
  have hwork : work (next setSize s (.opens fd connect)) = work s ++ [.bind s.made] :=
    (List.append_assoc ..).symm
  have hcaptures (e : DescriptorId) :
      captures (next setSize s (.opens fd connect)) e = captures s e := by
    rw [captures, captures, hwork, ← List.append_assoc, List.countP_append]
    rfl
  have hbase : base (next setSize s (.opens fd connect)) s.made = 1 := by
    rw [base, hself]
    exact if_neg (show fd ≠ -1 by omega)
  have hunmade := h.unmade s.made (Nat.le_refl _)
  have hzero : base s s.made = 0 := if_pos hunmade.fd
  constructor
  · intro e he
    have hlt : s.made < e := he
    have hold := h.unmade e hlt.le
    constructor
    · rw [hother e hlt.ne', hold.fd]
    · rw [hother e hlt.ne', hold.opQueue]
    · rw [hother e hlt.ne', hold.deleted]
    · rw [hcaptures, hold.captures]
  · exact h.postings
  · intro e he
    by_cases hed : e = s.made
    · exact hed ▸ Nat.lt_succ_self _
    · exact Nat.lt_succ_of_lt (h.held e (hheld e hed ▸ he))
  · intro e
    have hstake := h.stake e
    rw [hwork, count_append_other (fun b hb => List.mem_singleton.mp hb ▸ nofun)]
    by_cases hed : e = s.made
    · subst hed
      rw [owner, if_pos hnew, hbase]
      omega
    · rw [owner, base, hheld e hed, hother e hed]
      exact hstake
  · intro e
    have hplace := h.place e
    show (work (next setSize s (.opens fd connect))).count (.bind e) + s.desc.count e = _
    rw [hwork, List.count_append]
    by_cases hed : e = s.made
    · subst hed
      have hone : [PollMachine.Task.bind s.made].count (.bind s.made) = 1 :=
        List.count_singleton_self
      rw [hbase, hone]
      omega
    · have hnone : [PollMachine.Task.bind s.made].count (.bind e) = 0 :=
        List.count_eq_zero.mpr fun hin =>
          hed (PollMachine.Task.bind.inj (List.mem_singleton.mp hin))
      rw [base, hother e hed, hnone]
      exact hplace
  · rw [hwork, List.pairwise_append]
    refine ⟨h.order, List.pairwise_singleton .., fun a ha b hb d hunbind hbind => ?_⟩
    rw [List.mem_singleton.mp hb] at hbind
    obtain rfl := PollMachine.Task.bind.inj hbind
    obtain ⟨hone, -, -⟩ := h.base_of_unbind (hunbind ▸ ha)
    omega
  · intro e he
    by_cases hed : e = s.made
    · subst hed
      rw [hbase, hself, hcaptures, hunmade.captures]
      exact held_new
    · rw [base, hother e hed, hcaptures]
      exact h.counted e (Nat.lt_of_le_of_ne (Nat.le_of_lt_succ he) hed)

theorem owned_take {o : OperationId} (h : Owned s fun _ => 0) (hd : s.held d = true) :
    Owned (next setSize s (.take i d o)) fun _ => 0 := by
  have hmade := h.held d hd
  have hcaptures (e : DescriptorId) :
      captures (next setSize s (.take i d o)) e = captures s e + if d = e then 1 else 0 := by
    show (s.postings ++ [PollMachine.Task.dispatch i d o] ++ work s).countP _ = _
    rw [captures, List.countP_append, List.countP_append, List.countP_append, List.countP_singleton]
    simp only [PollMachine.Task.captures, decide_eq_true_eq]
    omega
  refine h.update [] hmade rfl rfl rfl rfl rfl ?_ (List.append_nil _).symm
    (fun e he => ?_) (fun _ _ => rfl) ?_
  · intro a ha
    rcases List.mem_append.mp ha with ha | ha
    · exact h.postings a ha
    · exact ⟨i, d, o, List.mem_singleton.mp ha⟩
  · rw [hcaptures, if_neg (Ne.symm he)]
    rfl
  · have hcell := h.counted d hmade
    obtain ⟨hone, -⟩ := h.base_of_held hd
    rw [hcaptures, if_pos rfl, ← Nat.add_assoc]
    exact hcell.acquire (by omega)

theorem owned_unbind (h : Owned s fun _ => 0) (hd : s.held d = true) :
    Owned (next setSize s (.unbind d)) fun _ => 0 := by
  have hheld (e : DescriptorId) (he : e ≠ d) : (next setSize s (.unbind d)).held e = s.held e :=
    Function.update_of_ne he ..
  have hself : (next setSize s (.unbind d)).held d = false := Function.update_self ..
  have hwork : work (next setSize s (.unbind d)) = work s ++ [.unbind d] :=
    (List.append_assoc ..).symm
  have hcaptures (e : DescriptorId) : captures (next setSize s (.unbind d)) e = captures s e := by
    rw [captures, captures, hwork, ← List.append_assoc, List.countP_append]
    rfl
  constructor
  · intro e he
    have hunmade := h.unmade e he
    exact ⟨hunmade.fd, hunmade.opQueue, hunmade.deleted, (hcaptures e).trans hunmade.captures⟩
  · exact h.postings
  · intro e he
    by_cases hed : e = d
    · rw [hed, hself] at he
      cases he
    · exact h.held e (hheld e hed ▸ he)
  · intro e
    have hstake := h.stake e
    show owner _ e + _ = base s e
    rw [hwork, List.count_append]
    by_cases hed : e = d
    · subst hed
      obtain ⟨hone, hnone⟩ := h.base_of_held hd
      have hcount : [PollMachine.Task.unbind e].count (.unbind e) = 1 := List.count_singleton_self
      rw [owner, if_neg (by rw [hself]; exact Bool.false_ne_true), hcount]
      omega
    · have hnone : [PollMachine.Task.unbind d].count (.unbind e) = 0 :=
        List.count_eq_zero.mpr fun hin =>
          hed (PollMachine.Task.unbind.inj (List.mem_singleton.mp hin))
      rw [owner, hheld e hed, hnone]
      exact hstake
  · intro e
    rw [hwork, count_append_other (fun b hb => List.mem_singleton.mp hb ▸ nofun)]
    exact h.place e
  · rw [hwork]
    exact ahead_append h.order fun b hb => List.mem_singleton.mp hb ▸ nofun
  · intro e he
    rw [hcaptures]
    exact h.counted e he

theorem work_idle (h : s.frame.tasks = []) : work s = s.opQueue := by
  rw [work, h, List.nil_append]

theorem owned_next {ev : Event} (h : Owned s fun _ => 0) (hev : Enabled s ev) :
    Owned (next setSize s ev) fun _ => 0 := by
  cases ev with
  | opens fd connect => exact owned_opens h hev
  | take i d o => exact owned_take h hev.1
  | post a =>
    have hperm : (s.postings.erase a ++ (s.frame.tasks ++ (s.opQueue ++ [a]))).Perm
        (s.postings ++ work s) := by
      rw [← List.append_assoc s.frame.tasks, ← List.append_assoc]
      refine (List.perm_append_singleton a _).trans ?_
      exact (List.perm_cons_erase hev).symm.append_right (work s)
    obtain ⟨i, d, o, rfl⟩ := h.postings a hev
    refine h.keep rfl rfl rfl (fun _ => ⟨rfl, rfl⟩) (fun x hx => (h.unmade x hx).opQueue)
      (fun b hb => h.postings b (List.mem_of_mem_erase hb)) (fun x => hperm.countP_eq _)
      (List.append_assoc ..).symm ?_
    intro b hb
    rw [List.mem_singleton.mp hb]
    exact inner_dispatch i d o
  | execute o => exact h.goes [o] rfl rfl rfl rfl rfl (List.append_assoc ..).symm
  | unbind d => exact owned_unbind h hev
  | prepare returned =>
    have hwork : work s = s.opQueue := work_idle (by rw [show s.frame = _ from hev]; rfl)
    show Owned (prepare setSize s) _
    unfold prepare
    split
    · exact h.moves rfl rfl rfl rfl rfl hwork.symm
    · exact h.moves rfl rfl rfl rfl rfl hwork.symm
  | select copies ret executeOp =>
    have hwork : work s = s.opQueue := work_idle (by rw [show s.frame = _ from hev]; rfl)
    unfold next
    dsimp only
    split
    · exact h.moves rfl rfl rfl rfl rfl hwork.symm
    · exact h.moves rfl rfl rfl rfl rfl hwork.symm
  | event it d copies executeOp run done =>
    have hwork : work s = s.opQueue := work_idle (by rw [hev.1]; rfl)
    have hmem : d ∈ s.desc := List.mem_of_getElem? hev.2
    have hd : d < s.made := h.made_of_base (by rw [h.base_of_mem hmem]; exact Nat.one_pos)
    have hmoved : Owned
        { s with
          frame := .events (it + 1) copies executeOp
            (run + (SelectRun.ready copies (s.descs d).interest).length) } fun _ => 0 :=
      h.moves rfl rfl rfl rfl rfl hwork.symm
    exact hmoved.complete hd
  | endEvents it copies executeOp run =>
    have hwork : work s = s.opQueue := work_idle (by rw [hev.1]; rfl)
    cases executeOp with
    | true =>
      refine h.moves rfl rfl rfl rfl rfl ?_
      rw [hwork]
      exact List.append_nil _
    | false => exact h.moves rfl rfl rfl rfl rfl hwork.symm
  | closure a ts run done =>
    cases a with
    | op o =>
      have howned : Owned (opRun (popped s ts (run + 1)) done (.op o)) fun _ => 0 := owned_op h hev
      exact howned
    | bind d => exact owned_bind h hev
    | dispatch i d o =>
      obtain ⟨hd, howned⟩ : d < s.made ∧ Owned (complete (enqueue (popped s ts (run + 1)) i d o) d
          (fun j => decide (j = i)) done) (only d) := owned_dispatch h hev
      exact howned.release hd
    | unbind d =>
      obtain ⟨hd, hmem, howned⟩ : d < s.made ∧ d ∈ s.desc ∧
          Owned (close (unregister (popped s ts (run + 1)) d) d) (only d) := owned_close h hev
      have hun : Unregistered (popped s ts (run + 1)) (unregister (popped s ts (run + 1)) d) d :=
        unregistered hmem
      have hd' : d < (close (unregister (popped s ts (run + 1)) d) d).made := by
        rw [close, State.setDesc, State.access, State.undefinedIf, hun.rest.1]
        exact hd
      exact howned.release hd'
  | endRun run =>
    have hwork : work s = s.opQueue := work_idle (by rw [show s.frame = _ from hev]; rfl)
    exact h.moves rfl rfl rfl rfl rfl hwork.symm

theorem owned_run {wakeUp : Int} (h : (machine setSize).Reachable (initial wakeUp) s) :
    Owned s fun _ => 0 := by
  apply System.Execution.invariant h
  · exact owned_initial wakeUp
  · exact fun u ev _ hu hev _ => owned_next hu hev

/-! ## Nothing undefined happens -/

/-- Every number that is in use fits into the sets. -/
structure InRange (setSize : Nat) (s : State) : Prop where
  wakeUp : 0 ≤ s.wakeUp ∧ s.wakeUp < setSize
  fds : ∀ d, (s.descs d).fd ≠ -1 → 0 ≤ (s.descs d).fd ∧ (s.descs d).fd < setSize

theorem interests_isSome {v : SelectRun.Descriptor} (acc : Sets × Int)
    (hv : 0 ≤ v.fd ∧ v.fd < setSize) : ∃ acc', SelectRun.interests setSize acc v = some acc' := by
  have hone (acc : Sets × Int) (ev : SelectRun.Ev) :
      ∃ acc', SelectRun.interest setSize v acc ev = some acc' := by
    unfold SelectRun.interest SelectRun.fdSet
    rw [if_pos hv]
    split
    · exact ⟨_, rfl⟩
    · exact ⟨_, rfl⟩
  obtain ⟨mid, hmid⟩ := hone acc .evRead
  obtain ⟨last, hlast⟩ := hone mid .evWrite
  refine ⟨last, ?_⟩
  rw [SelectRun.interests, List.foldlM_cons, hmid, Option.bind_eq_bind, Option.bind_some,
    List.foldlM_cons, hlast]
  rfl

theorem foldlM_isSome {vs : List SelectRun.Descriptor} (acc : Sets × Int)
    (hvs : ∀ v ∈ vs, 0 ≤ v.fd ∧ v.fd < setSize) :
    ∃ acc', vs.foldlM (SelectRun.interests setSize) acc = some acc' := by
  induction vs generalizing acc with
  | nil => exact ⟨acc, rfl⟩
  | cons v vs ih =>
    obtain ⟨hv, hvs⟩ := List.forall_mem_cons.mp hvs
    obtain ⟨mid, hmid⟩ := interests_isSome acc hv
    obtain ⟨last, hlast⟩ := ih mid hvs
    exact ⟨last, by rw [List.foldlM_cons, hmid, Option.bind_eq_bind, Option.bind_some, hlast]⟩

/-- All descriptors in `_desc` are open, so the sets can hold them. -/
theorem copies_isSome (h : Owned s extra) (hr : InRange setSize s) :
    ∃ sets, copies setSize s = some sets := by
  have hfits : ∀ v ∈ s.desc.map fun d => (s.descs d).interest, 0 ≤ v.fd ∧ v.fd < setSize := by
    intro v hv
    obtain ⟨d, hd, rfl⟩ := List.mem_map.mp hv
    exact hr.fds d (open_of_base (by rw [h.base_of_mem hd]; exact Nat.one_pos))
  obtain ⟨acc, hacc⟩ := foldlM_isSome (⟨[], []⟩, s.wakeUp) hfits
  refine ⟨acc.1, ?_⟩
  unfold copies SelectRun.fdSet
  rw [if_pos hr.wakeUp, hacc]
  rfl

/-- No file gets another number. -/
theorem InRange.keep (h : InRange setSize s) (hwakeUp : t.wakeUp = s.wakeUp)
    (hfds : ∀ x, (t.descs x).fd = (s.descs x).fd ∨ (t.descs x).fd = -1) : InRange setSize t where
  wakeUp := hwakeUp ▸ h.wakeUp
  fds d hd := by
    have hsame := (hfds d).resolve_right hd
    rw [hsame] at hd ⊢
    exact h.fds d hd

theorem InRange.setDesc {v : Descriptor} (h : InRange setSize s) (hwakeUp : t.wakeUp = s.wakeUp)
    (hdescs : t.descs = Function.update s.descs d v) (hfd : v.fd = (s.descs d).fd ∨ v.fd = -1) :
    InRange setSize t := by
  refine h.keep hwakeUp fun x => ?_
  rw [hdescs]
  by_cases hx : x = d
  · rw [hx, Function.update_self]
    exact hfd
  · rw [Function.update_of_ne hx]
    exact .inl rfl

theorem InRange.release (h : InRange setSize s) : InRange setSize (release s d) := by
  unfold SelectMachine.release
  split
  · exact h.setDesc rfl rfl (.inl rfl)
  · exact h.setDesc rfl rfl (.inl rfl)

theorem InRange.unregister (h : InRange setSize s) : InRange setSize (unregister s d) := by
  unfold SelectMachine.unregister
  split
  · exact h.keep rfl fun _ => .inl rfl
  · exact h

theorem inRange_next {ev : Event} (h : InRange setSize s) (hev : Enabled s ev)
    (hfits : Fits setSize s ev) : InRange setSize (next setSize s ev) := by
  have hframe (fr : Frame) : InRange setSize { s with frame := fr } := h.keep rfl fun _ => .inl rfl
  cases ev with
  | opens fd connect =>
    refine ⟨h.wakeUp, fun x hx => ?_⟩
    by_cases hnew : x = s.made
    · have hself : (next setSize s (.opens fd connect)).descs x =
          ⟨fd, fun i => if i = .write then connect.toList else [], .new⟩ := by
        rw [hnew]
        exact Function.update_self ..
      rw [hself]
      exact ⟨hev, hfits⟩
    · have hother : (next setSize s (.opens fd connect)).descs x = s.descs x :=
        Function.update_of_ne hnew ..
      rw [hother] at hx ⊢
      exact h.fds x hx
  | take i d o => exact h.setDesc (d := d) rfl rfl (.inl rfl)
  | post a => exact h.keep rfl fun _ => .inl rfl
  | execute o => exact h.keep rfl fun _ => .inl rfl
  | unbind d => exact h.keep rfl fun _ => .inl rfl
  | prepare returned =>
    show InRange setSize (prepare setSize s)
    unfold prepare
    split
    · exact h.keep rfl fun _ => .inl rfl
    · exact h.keep rfl fun _ => .inl rfl
  | select copies ret executeOp =>
    unfold next
    dsimp only
    split
    · exact hframe _
    · exact hframe _
  | event it d copies executeOp run done => exact (hframe _).setDesc (d := d) rfl rfl (.inl rfl)
  | endEvents it copies executeOp run =>
    cases executeOp with
    | true => exact h.keep rfl fun _ => .inl rfl
    | false => exact hframe _
  | closure a ts run done =>
    cases a with
    | op o => exact h.keep rfl fun _ => .inl rfl
    | bind d => exact h.keep rfl fun _ => .inl rfl
    | dispatch i d o =>
      have henqueue : InRange setSize (enqueue (popped s ts (run + 1)) i d o) :=
        (hframe _).setDesc (d := d) rfl rfl (.inl rfl)
      have hcomplete : InRange setSize (complete (enqueue (popped s ts (run + 1)) i d o) d
          (fun j => decide (j = i)) done) := henqueue.setDesc (d := d) rfl rfl (.inl rfl)
      exact hcomplete.release
    | unbind d =>
      have hun : InRange setSize (unregister (popped s ts (run + 1)) d) := (hframe _).unregister
      have hclose : InRange setSize (close (unregister (popped s ts (run + 1)) d) d) :=
        hun.setDesc (d := d) rfl rfl (.inr rfl)
      exact hclose.release
  | endRun run => exact hframe _

theorem fault_access (hf : s.fault = false) (hcell : (s.descs d).cell.deleted = false) :
    (s.access d).fault = false := by
  show (s.fault || (s.descs d).cell.deleted) = false
  rw [hf, hcell]
  rfl

theorem fault_release (hf : s.fault = false) (hcell : (s.descs d).cell.deleted = false) :
    (release s d).fault = false := by
  obtain ⟨v, os, hrel⟩ := released s d
  rw [hrel.fault, hf, hcell]
  rfl

theorem fault_next {ev : Event} (h : Owned s fun _ => 0) (hr : InRange setSize s)
    (hev : Enabled s ev) (hf : s.fault = false) : (next setSize s ev).fault = false := by
  cases ev with
  | opens fd connect => exact hf
  | take i d o => exact fault_access hf (h.notDeleted_of_base (h.base_of_held hev.1).1)
  | post a => exact hf
  | execute o => exact hf
  | unbind d => exact hf
  | prepare returned =>
    obtain ⟨sets, hsets⟩ := copies_isSome h hr
    have hlive : (s.desc.any fun d => (s.descs d).cell.deleted) = false := by
      rw [List.any_eq_false]
      intro d hd
      rw [h.notDeleted_of_base (h.base_of_mem hd)]
      exact Bool.false_ne_true
    show (prepare setSize s).fault = false
    unfold prepare
    rw [hsets]
    show (s.fault || _) = false
    rw [hf, hlive]
    rfl
  | select copies ret executeOp =>
    unfold next
    dsimp only
    split
    · exact hf
    · exact hf
  | event it d copies executeOp run done =>
    have hmem : d ∈ s.desc := List.mem_of_getElem? hev.2
    exact fault_access hf (h.notDeleted_of_base (h.base_of_mem hmem))
  | endEvents it copies executeOp run =>
    cases executeOp with
    | true => exact hf
    | false => exact hf
  | closure a ts run done =>
    cases a with
    | op o => exact hf
    | bind d => exact hf
    | dispatch i d o =>
      have hpos : 0 < captures s d := by
        rw [captures_popped hev run, PollMachine.Task.captures, decide_eq_true rfl]
        exact Nat.succ_pos _
      have hcell : (s.descs d).cell.deleted = false := by
        apply h.notDeleted (h.made_of_captures hpos)
        omega
      have hqueued : ((enqueue (popped s ts (run + 1)) i d o).descs d).cell.deleted = false := by
        rw [enqueue, setDesc_self]
        exact hcell
      have hdone : ((complete (enqueue (popped s ts (run + 1)) i d o) d
          (fun j => decide (j = i)) done).descs d).cell.deleted = false := by
        obtain ⟨queue, hx, -⟩ := complete_descs (d := d) (enqueue (popped s ts (run + 1)) i d o)
          (fun j => decide (j = i)) d
        rw [hx]
        exact hqueued
      exact fault_release (fault_access (fault_access hf hcell) hqueued) hdone
    | unbind d =>
      obtain ⟨hd, hmem, -⟩ : d < s.made ∧ d ∈ s.desc ∧
          Owned (close (unregister (popped s ts (run + 1)) d) d) (only d) := owned_close h hev
      have hcell := h.notDeleted_of_base (h.base_of_mem hmem)
      have hun : Unregistered (popped s ts (run + 1)) (unregister (popped s ts (run + 1)) d) d :=
        unregistered hmem
      have hunregister : ((unregister (popped s ts (run + 1)) d).descs d).cell.deleted = false := by
        rw [hun.descs]
        exact hcell
      have hclose : ((close (unregister (popped s ts (run + 1)) d) d).descs d).cell.deleted =
          false := by
        rw [close, setDesc_self]
        exact hunregister
      exact fault_release (fault_access (hun.rest.2.2.2.1.trans hf) hunregister) hclose
  | endRun run => exact hf

/-! ## Runs -/

end SelectMachine
