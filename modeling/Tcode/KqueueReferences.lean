import Tcode.KqueueChanges

/-! # References to kqueue descriptors

The references of a descriptor are that of its socket, which the unbind closure gives back, and
those of the closures that dispatch to it.
-/
namespace KqueueMachine

open EpollMachine (DescriptorId OperationId)
open SupportReferenceCount SupportTransitionSystem

variable {s t : State} {d e : DescriptorId} {f : Filter} {p : Position}
  {done : OperationId → Bool}

/-! ## References -/

/-- What the loop thread is going to run, in this order. -/
def work (s : State) : List Task := s.frame.tasks ++ s.opQueue

def Task.captures (d : DescriptorId) : Task → Bool
  | .dispatch _ e _ => decide (e = d)
  | _ => false

/-- The closure that has queued an operation releases its descriptor when the changes are queued. -/
def Frame.releases (d : DescriptorId) : Frame → Bool
  | .changing e _ (.drain _ _) => decide (e = d)
  | _ => false

def captures (s : State) (d : DescriptorId) : Nat :=
  (s.postings ++ work s).countP (Task.captures d) + (s.frame.releases d).toNat

/-- The reference that the unbind closure gives back. -/
def base (s : State) (d : DescriptorId) : Nat := if (s.descs d).fd = -1 then 0 else 1

/-- A socket has the descriptor, or is about to. -/
def owner (s : State) (d : DescriptorId) : Nat :=
  if s.held d = true ∨ (s.descs d).binding ≠ [] then 1 else 0

structure Unmade (s : State) (d : DescriptorId) : Prop where
  fd : (s.descs d).fd = -1
  opQueue : (s.descs d).opQueue = fun _ => []
  deleted : (s.descs d).cell.deleted = false
  captures : captures s d = 0

/-- A descriptor is unbound by its socket once, which gives back the first reference. -/
structure Owned (s : State) (extra : DescriptorId → Nat) : Prop where
  unmade : ∀ d, s.made ≤ d → Unmade s d
  postings : ∀ a ∈ s.postings, ∃ f d o, a = .dispatch f d o
  held : ∀ d, s.held d = true → d < s.made ∧ (s.descs d).binding = []
  stake : ∀ d, owner s d + (work s).count (.unbind d) = base s d
  counted : ∀ d, d < s.made → Held (s.descs d).cell (base s d + captures s d + extra d)

variable {extra : DescriptorId → Nat}

/-- Every descriptor keeps its owner, its references and what names it. -/
theorem Owned.keep (h : Owned s extra) (hmade : t.made = s.made) (hheld : t.held = s.held)
    (hdescs : ∀ d, (t.descs d).fd = (s.descs d).fd ∧ (t.descs d).binding = (s.descs d).binding ∧
      (t.descs d).cell = (s.descs d).cell)
    (hqueue : ∀ d, s.made ≤ d → (t.descs d).opQueue = fun _ => [])
    (hpostings : ∀ a ∈ t.postings, ∃ f d o, a = .dispatch f d o)
    (hcaptures : ∀ d, captures t d = captures s d)
    (hunbinds : ∀ d, (work t).count (.unbind d) = (work s).count (.unbind d)) : Owned t extra where
  unmade d hd := by
    rw [hmade] at hd
    have hunmade := h.unmade d hd
    constructor
    · rw [(hdescs d).1, hunmade.fd]
    · exact hqueue d hd
    · rw [(hdescs d).2.2, hunmade.deleted]
    · rw [hcaptures, hunmade.captures]
  postings := hpostings
  held d hd := by
    rw [hheld] at hd
    rw [hmade, (hdescs d).2.1]
    exact h.held d hd
  stake d := by
    rw [owner, base, hheld, (hdescs d).1, (hdescs d).2.1, hunbinds]
    exact h.stake d
  counted d hd := by
    rw [base, (hdescs d).1, (hdescs d).2.2, hcaptures]
    exact h.counted d (hmade ▸ hd)

theorem captures_of_work {os : List OperationId} (hpostings : t.postings = s.postings)
    (hwork : work t = work s ++ os.map .op)
    (hreleases : t.frame.releases e = s.frame.releases e) : captures t e = captures s e := by
  have hops : (os.map Task.op).countP (Task.captures e) = 0 := by
    rw [List.countP_eq_zero]
    intro a ha
    obtain ⟨o, -, rfl⟩ := List.mem_map.mp ha
    exact Bool.false_ne_true
  rw [captures, captures, hpostings, hwork, hreleases, ← List.append_assoc, List.countP_append,
    hops, Nat.add_zero]

/-- The loop thread goes on, and operations are added. -/
theorem Owned.goes (h : Owned s extra) (os : List OperationId) (hmade : t.made = s.made)
    (hheld : t.held = s.held) (hdescs : t.descs = s.descs) (hpostings : t.postings = s.postings)
    (hwork : work t = work s ++ os.map .op)
    (hreleases : ∀ d, t.frame.releases d = s.frame.releases d) : Owned t extra := by
  apply h.keep hmade hheld
  · intro d
    rw [hdescs]
    exact ⟨rfl, rfl, rfl⟩
  · intro d hd
    rw [hdescs]
    exact (h.unmade d hd).opQueue
  · rw [hpostings]
    exact h.postings
  · exact fun d => captures_of_work hpostings hwork (hreleases d)
  · intro d
    have hops : (os.map Task.op).count (.unbind d) = 0 := by
      rw [List.count_eq_zero]
      intro ha
      obtain ⟨o, -, heq⟩ := List.mem_map.mp ha
      cases heq
    rw [hwork, List.count_append, hops, Nat.add_zero]

theorem Owned.moves (h : Owned s extra) (hmade : t.made = s.made) (hheld : t.held = s.held)
    (hdescs : t.descs = s.descs) (hpostings : t.postings = s.postings) (hwork : work t = work s)
    (hreleases : ∀ d, t.frame.releases d = s.frame.releases d) : Owned t extra := by
  refine h.goes [] hmade hheld hdescs hpostings ?_ hreleases
  rw [hwork, List.map_nil, List.append_nil]

theorem base_le_one : base s d ≤ 1 := by
  unfold base
  split
  · exact Nat.zero_le 1
  · exact Nat.le_refl 1

theorem Owned.base_of_held (h : Owned s extra) (hd : s.held d = true) : base s d = 1 := by
  have hone := h.stake d
  have hle : base s d ≤ 1 := base_le_one
  rw [owner, if_pos (.inl hd)] at hone
  omega

theorem Owned.base_of_unbind (h : Owned s extra) (hin : .unbind d ∈ work s) :
    base s d = 1 ∧ owner s d = 0 ∧ (work s).count (.unbind d) = 1 := by
  have hone := h.stake d
  have hpos := List.count_pos_iff.mpr hin
  have hle : base s d ≤ 1 := base_le_one
  omega

/-- What is open is not deleted. -/
theorem Owned.notDeleted (h : Owned s extra) (hd : d < s.made)
    (hpos : 0 < base s d + captures s d + extra d) : (s.descs d).cell.deleted = false :=
  (h.counted d hd).notDeleted hpos

def only (d : DescriptorId) : DescriptorId → Nat := fun e => if e = d then 1 else 0

/-- The references of one descriptor, and what is counted of them, change. -/
theorem Owned.update {extra' : DescriptorId → Nat} {v : Descriptor}
    (h : Owned s extra) (os : List OperationId) (hd : d < s.made)
    (hdescs : t.descs = Function.update s.descs d v)
    (hfd : v.fd = (s.descs d).fd) (hbinding : v.binding = (s.descs d).binding)
    (hmade : t.made = s.made) (hheld : t.held = s.held)
    (hpostings : ∀ a ∈ t.postings, ∃ f d o, a = .dispatch f d o)
    (hwork : work t = work s ++ os.map .op) (hothers : ∀ e, e ≠ d → captures t e = captures s e)
    (hextra : ∀ e, e ≠ d → extra' e = extra e)
    (hcell : Held v.cell (base s d + captures t d + extra' d)) : Owned t extra' := by
  have hself : t.descs d = v := by rw [hdescs, Function.update_self]
  have hother (e : DescriptorId) (he : e ≠ d) : t.descs e = s.descs e := by
    rw [hdescs, Function.update_of_ne he]
  have hnames (e : DescriptorId) :
      (t.descs e).fd = (s.descs e).fd ∧ (t.descs e).binding = (s.descs e).binding := by
    by_cases he : e = d
    · rw [he, hself]
      exact ⟨hfd, hbinding⟩
    · rw [hother e he]
      exact ⟨rfl, rfl⟩
  constructor
  · intro e he
    rw [hmade] at he
    have hne : e ≠ d := (Nat.lt_of_lt_of_le hd he).ne'
    have hunmade := h.unmade e he
    constructor
    · rw [hother e hne, hunmade.fd]
    · rw [hother e hne, hunmade.opQueue]
    · rw [hother e hne, hunmade.deleted]
    · rw [hothers e hne, hunmade.captures]
  · exact hpostings
  · intro e he
    rw [hheld] at he
    rw [hmade, (hnames e).2]
    exact h.held e he
  · intro e
    have hops : (os.map Task.op).count (.unbind e) = 0 := by
      rw [List.count_eq_zero]
      intro ha
      obtain ⟨o, -, heq⟩ := List.mem_map.mp ha
      cases heq
    rw [owner, base, hheld, (hnames e).1, (hnames e).2, hwork, List.count_append, hops]
    exact h.stake e
  · intro e he
    rw [base, (hnames e).1]
    by_cases hed : e = d
    · subst hed
      rw [hself]
      exact hcell
    · rw [hother e hed, hothers e hed, hextra e hed]
      exact h.counted e (hmade ▸ he)

/-- What a release does besides the references. -/
structure Released (s t : State) (d : DescriptorId) (v : Descriptor) (os : List OperationId) :
    Prop where
  descs : t.descs = Function.update s.descs d v
  names : v.fd = (s.descs d).fd ∧ v.binding = (s.descs d).binding
  cell : v.cell = (s.descs d).cell.release
  work : work t = work s ++ os.map .op
  rest : t.made = s.made ∧ t.held = s.held ∧ t.postings = s.postings ∧ t.frame = s.frame

theorem released (s : State) (d : DescriptorId) :
    ∃ v os, Released s (descriptorRelease s d) d v os := by
  unfold descriptorRelease
  split
  · exact ⟨_, _, rfl, ⟨rfl, rfl⟩, rfl, (List.append_assoc ..).symm, rfl, rfl, rfl, rfl⟩
  · exact ⟨_, [], rfl, ⟨rfl, rfl⟩, rfl, (List.append_nil _).symm, rfl, rfl, rfl, rfl⟩

/-- One reference that is too many is given back. -/
theorem Owned.release (h : Owned s (only d)) (hd : d < s.made) :
    Owned (descriptorRelease s d) fun _ => 0 := by
  obtain ⟨v, os, hrel⟩ := released s d
  obtain ⟨hmade, hheld, hpostings, hframe⟩ := hrel.rest
  have hcaptures (e : DescriptorId) : captures (descriptorRelease s d) e = captures s e :=
    captures_of_work hpostings hrel.work (by rw [hframe])
  have hcell := h.counted d hd
  rw [only, if_pos rfl] at hcell
  refine h.update os hd hrel.descs hrel.names.1 hrel.names.2 hmade hheld (hpostings ▸ h.postings)
    hrel.work (fun e _ => hcaptures e) (fun e he => (if_neg he).symm) ?_
  rw [hcaptures, hrel.cell]
  exact hcell.release (Nat.succ_pos _)

/-! ## Steps -/

theorem owned_initial (wakeUp : Int) : Owned (initial wakeUp) fun _ => 0 where
  unmade _ _ := ⟨rfl, rfl, rfl, rfl⟩
  postings := nofun
  held := nofun
  stake _ := rfl
  counted d hd := absurd hd (Nat.not_lt_zero d)

theorem owned_opens {fd : Int} {connect : Option OperationId} (h : Owned s fun _ => 0)
    (hfd : 0 ≤ fd) : Owned (next s (.opens fd connect)) fun _ => 0 := by
  have hself : (next s (.opens fd connect)).descs s.made =
      ⟨fd, fun f => if f = .write then connect.toList else [], .new, [.read, .write]⟩ :=
    Function.update_self ..
  have hother (e : DescriptorId) (he : e ≠ s.made) :
      (next s (.opens fd connect)).descs e = s.descs e := Function.update_of_ne he ..
  have hbase : base (next s (.opens fd connect)) s.made = 1 := by
    rw [base, hself]
    exact if_neg (show fd ≠ -1 by omega)
  have hunmade := h.unmade s.made (Nat.le_refl _)
  constructor
  · intro e he
    have hlt : s.made < e := he
    have hold := h.unmade e hlt.le
    constructor
    · rw [hother e hlt.ne', hold.fd]
    · rw [hother e hlt.ne', hold.opQueue]
    · rw [hother e hlt.ne', hold.deleted]
    · exact hold.captures
  · exact h.postings
  · intro e he
    have he' := h.held e he
    rw [hother e he'.1.ne]
    exact ⟨Nat.lt_succ_of_lt he'.1, he'.2⟩
  · intro e
    by_cases hnew : e = s.made
    · subst hnew
      have howner : owner (next s (.opens fd connect)) s.made = 1 := by
        rw [owner, hself]
        exact if_pos (.inr (List.cons_ne_nil _ _))
      have hzero : base s s.made = 0 := if_pos hunmade.fd
      have hcount := h.stake s.made
      have hwork : work (next s (.opens fd connect)) = work s := rfl
      rw [howner, hbase, hwork]
      omega
    · rw [owner, base, hother e hnew]
      exact h.stake e
  · intro e he
    by_cases hnew : e = s.made
    · subst hnew
      rw [hbase, hself, show captures (next s (.opens fd connect)) s.made = 0 from hunmade.captures]
      exact held_new
    · rw [base, hother e hnew]
      exact h.counted e (Nat.lt_of_le_of_ne (Nat.le_of_lt_succ he) hnew)

theorem owned_bind {fs : List Filter} (h : Owned s fun _ => 0) (hd : d < s.made)
    (hbinding : (s.descs d).binding = f :: fs) : Owned (bindChange s d f fs) fun _ => 0 := by
  have hself : (bindChange s d f fs).descs d = { s.descs d with binding := fs } := setDesc_self ..
  have hother (e : DescriptorId) (he : e ≠ d) : (bindChange s d f fs).descs e = s.descs e :=
    setDesc_ne he
  have hheld (e : DescriptorId) (he : e ≠ d) : (bindChange s d f fs).held e = s.held e := by
    show (if fs = [] then Function.update s.held d true else s.held) e = s.held e
    split
    · exact Function.update_of_ne he ..
    · rfl
  have hnames (e : DescriptorId) : ((bindChange s d f fs).descs e).fd = (s.descs e).fd ∧
      ((bindChange s d f fs).descs e).cell = (s.descs e).cell ∧
        ((bindChange s d f fs).descs e).opQueue = (s.descs e).opQueue := by
    by_cases he : e = d
    · rw [he, hself]
      exact ⟨rfl, rfl, rfl⟩
    · rw [hother e he]
      exact ⟨rfl, rfl, rfl⟩
  constructor
  · intro e he
    have hunmade := h.unmade e he
    constructor
    · rw [(hnames e).1, hunmade.fd]
    · rw [(hnames e).2.2, hunmade.opQueue]
    · rw [(hnames e).2.1, hunmade.deleted]
    · exact hunmade.captures
  · exact h.postings
  · intro e he
    by_cases hed : e = d
    · subst hed
      refine ⟨hd, ?_⟩
      rw [hself]
      by_cases hfs : fs = []
      · exact hfs
      · have hold : s.held e = true := by
          rw [← he]
          exact (congrFun (if_neg hfs) e).symm
        have hnil := (h.held e hold).2
        rw [hbinding] at hnil
        cases hnil
    · rw [hheld e hed] at he
      rw [hother e hed]
      exact h.held e he
  · intro e
    have hstake := h.stake e
    by_cases hed : e = d
    · subst hed
      have howner : owner s e = 1 := by
        rw [owner, hbinding]
        exact if_pos (.inr (List.cons_ne_nil _ _))
      have howner' : owner (bindChange s e f fs) e = 1 := by
        rw [owner, hself]
        by_cases hfs : fs = []
        · refine if_pos (.inl ?_)
          show (if fs = [] then Function.update s.held e true else s.held) e = true
          rw [if_pos hfs, Function.update_self]
        · exact if_pos (.inr hfs)
      have hbase : base (bindChange s e f fs) e = base s e := by
        rw [base, (hnames e).1]
        rfl
      rw [howner', hbase, ← hstake, howner]
      rfl
    · rw [owner, base, hheld e hed, hother e hed]
      exact hstake
  · intro e he
    rw [base, (hnames e).1, (hnames e).2.1]
    exact h.counted e he

theorem owned_take {o : OperationId} (h : Owned s fun _ => 0) (hd : s.held d = true) :
    Owned (next s (.take f d o)) fun _ => 0 := by
  have hmade := (h.held d hd).1
  have hcaptures (e : DescriptorId) :
      captures (next s (.take f d o)) e = captures s e + if d = e then 1 else 0 := by
    show (s.postings ++ [Task.dispatch f d o] ++ work s).countP _ + _ = _
    rw [captures, List.countP_append, List.countP_append, List.countP_append, List.countP_singleton]
    simp only [Task.captures, decide_eq_true_eq]
    have hframe : (next s (.take f d o)).frame = s.frame := rfl
    rw [hframe]
    omega
  refine h.update [] hmade rfl rfl rfl rfl rfl ?_ (List.append_nil _).symm
    (fun e he => ?_) (fun _ _ => rfl) ?_
  · intro a ha
    rcases List.mem_append.mp ha with ha | ha
    · exact h.postings a ha
    · exact ⟨f, d, o, List.mem_singleton.mp ha⟩
  · rw [hcaptures, if_neg (Ne.symm he)]
    rfl
  · have hcell := h.counted d hmade
    have hbase := h.base_of_held hd
    rw [hcaptures, if_pos rfl, ← Nat.add_assoc]
    exact hcell.acquire (by omega)

theorem owned_unbind (h : Owned s fun _ => 0) (hd : s.held d = true) :
    Owned (next s (.unbind d)) fun _ => 0 := by
  have hheld (e : DescriptorId) (he : e ≠ d) : (next s (.unbind d)).held e = s.held e :=
    Function.update_of_ne he ..
  have hself : (next s (.unbind d)).held d = false := Function.update_self ..
  have hwork : work (next s (.unbind d)) = work s ++ [.unbind d] := (List.append_assoc ..).symm
  have hcaptures (e : DescriptorId) : captures (next s (.unbind d)) e = captures s e := by
    rw [captures, captures, hwork, ← List.append_assoc, List.countP_append]
    rfl
  constructor
  · intro e he
    have hunmade := h.unmade e he
    exact ⟨hunmade.fd, hunmade.opQueue, hunmade.deleted, (hcaptures e).trans hunmade.captures⟩
  · exact h.postings
  · intro e he
    by_cases hed : e = d
    · rw [hed, hself] at he
      cases he
    · rw [hheld e hed] at he
      exact h.held e he
  · intro e
    have hstake := h.stake e
    rw [hwork, List.count_append]
    by_cases hed : e = d
    · subst hed
      have howner : owner s e = 1 := if_pos (.inl hd)
      have howner' : owner (next s (.unbind e)) e = 0 := by
        rw [owner, hself]
        exact if_neg (by simp [show (next s (.unbind e)).descs e = s.descs e from rfl,
          (h.held e hd).2])
      have hbase : base (next s (.unbind e)) e = base s e := rfl
      rw [howner', hbase, List.count_singleton_self]
      omega
    · have hnone : [Task.unbind d].count (.unbind e) = 0 := by
        rw [List.count_eq_zero, List.mem_singleton]
        exact fun heq => hed (Task.unbind.inj heq)
      rw [owner, hheld e hed, hnone]
      exact hstake
  · intro e he
    rw [hcaptures]
    exact h.counted e he

theorem work_idle (h : s.frame.tasks = []) : work s = s.opQueue := by
  rw [work, h, List.nil_append]

/-- The loop thread is somewhere else. -/
def State.goTo (s : State) (fr : Frame) : State := { s with frame := fr }

theorem release_goTo (fr : Frame) :
    (descriptorRelease s d).goTo fr = descriptorRelease (s.goTo fr) d := by
  unfold descriptorRelease State.goTo
  dsimp only
  split
  · rfl
  · rfl

/-- The file of the descriptor is closed. -/
def closed (s : State) (d : DescriptorId) : State :=
  (closeFile s (s.descs d).fd).setDesc d { s.descs d with fd := -1 }

theorem closed_descs (x : DescriptorId) : (closed s d).descs x =
    if x = d then { s.descs d with fd := -1 } else s.descs x := by
  by_cases hx : x = d
  · rw [if_pos hx, hx]
    exact setDesc_self ..
  · rw [if_neg hx]
    exact setDesc_ne hx

theorem unbindClosure_goTo (hopen : (s.descs d).fd ≠ -1) (fr : Frame) :
    (unbindClosure s d).goTo fr = descriptorRelease (closed (s.goTo fr) d) d := by
  rw [unbindClosure, if_pos hopen, release_goTo]
  rfl

theorem work_popped {a : Task} {ts : List Task} {run : Int}
    (hframe : s.frame = .within (.drain (a :: ts) run)) : work s = a :: (ts ++ s.opQueue) := by
  rw [work, hframe]
  rfl

/-- What the loop thread runs first, wherever it goes on. -/
theorem captures_popped {a : Task} {ts : List Task} {run : Int}
    (hframe : s.frame = .within (.drain (a :: ts) run)) (d : DescriptorId) :
    captures s d = (s.postings ++ (ts ++ s.opQueue)).countP (Task.captures d) +
      (a.captures d).toNat := by
  have hreleases : s.frame.releases d = false := by rw [hframe]; rfl
  rw [captures, hreleases, work_popped hframe, List.countP_append, List.countP_cons,
    List.countP_append]
  cases a.captures d with
  | true => simp [Nat.add_assoc]
  | false => simp

theorem Owned.open_of_unbind (h : Owned s extra) (hin : .unbind d ∈ work s) : IsOpen s d := by
  obtain ⟨hbase, -, -⟩ := h.base_of_unbind hin
  have hopen : (s.descs d).fd ≠ -1 := by
    intro hfd
    rw [base, if_pos hfd] at hbase
    cases hbase
  refine ⟨?_, hopen⟩
  by_contra hge
  exact hopen (h.unmade d (Nat.le_of_not_lt hge)).fd

/-- When the unbind closure has closed the file, its reference is too many. -/
theorem owned_closed {ts : List Task} {run run' : Int} (h : Owned s fun _ => 0)
    (hframe : s.frame = .within (.drain (.unbind d :: ts) run)) :
    Owned (closed (s.goTo (.within (.drain ts run'))) d) (only d) := by
  have hwork := work_popped hframe
  have hin : .unbind d ∈ work s := hwork ▸ List.mem_cons_self
  obtain ⟨hbase, howner, hcount⟩ := h.base_of_unbind hin
  have hd := (h.open_of_unbind hin).1
  have hcaptures (e : DescriptorId) :
      captures (closed (s.goTo (.within (.drain ts run'))) d) e = captures s e :=
    (captures_popped hframe e).symm
  constructor
  · intro e he
    have hunmade := h.unmade e he
    have hne : e ≠ d := (Nat.lt_of_lt_of_le hd he).ne'
    have hsame : (closed (s.goTo (.within (.drain ts run'))) d).descs e = s.descs e := by
      rw [closed_descs, if_neg hne]
      rfl
    constructor
    · rw [hsame, hunmade.fd]
    · rw [hsame, hunmade.opQueue]
    · rw [hsame, hunmade.deleted]
    · rw [hcaptures, hunmade.captures]
  · exact h.postings
  · intro e he
    have hold := h.held e he
    have hne : e ≠ d := by
      rintro rfl
      rw [owner, if_pos (.inl he)] at howner
      cases howner
    rw [closed_descs, if_neg hne]
    exact hold
  · intro e
    have hstake := h.stake e
    have hrest : work (closed (s.goTo (.within (.drain ts run'))) d) = ts ++ s.opQueue := rfl
    rw [hwork, List.count_cons] at hstake hcount
    by_cases hed : e = d
    · subst hed
      rw [owner, base, closed_descs, if_pos rfl, hrest]
      rw [owner] at howner
      simp only [beq_self_eq_true, if_true] at hcount
      have hnone : (ts ++ s.opQueue).count (.unbind e) = 0 := by omega
      rw [hnone]
      exact howner
    · have hne : (Task.unbind d == Task.unbind e) = false := by
        simpa using Ne.symm hed
      rw [hne] at hstake
      rw [owner, base, closed_descs, if_neg hed, hrest]
      exact hstake
  · intro e he
    have hcell := h.counted e he
    rw [hcaptures]
    by_cases hed : e = d
    · subst hed
      rw [base, closed_descs, if_pos rfl, only, if_pos rfl]
      rw [hbase, Nat.add_zero, Nat.add_comm] at hcell
      rw [if_pos rfl, Nat.zero_add]
      exact hcell
    · rw [base, closed_descs, if_neg hed, only, if_neg hed]
      exact hcell

theorem owned_unbindClosure {ts : List Task} {run run' : Int} (h : Owned s fun _ => 0)
    (hframe : s.frame = .within (.drain (.unbind d :: ts) run)) :
    Owned ((unbindClosure s d).goTo (.within (.drain ts run'))) fun _ => 0 := by
  have hin : .unbind d ∈ work s := work_popped hframe ▸ List.mem_cons_self
  obtain ⟨hd, hopen⟩ := h.open_of_unbind hin
  rw [unbindClosure_goTo hopen]
  exact (owned_closed h hframe).release hd

theorem Owned.made_of_captures (h : Owned s extra) (hd : 0 < captures s d) : d < s.made := by
  by_contra hge
  have hnone := (h.unmade d (Nat.le_of_not_lt hge)).captures
  omega

/-- A dispatch changes nothing but a queue. -/
theorem dispatched_descs (s : State) (d : DescriptorId) (f : Filter) (done : OperationId → Bool)
    (x : DescriptorId) :
    ∃ queue, (descriptorDispatch s d f done).descs x =
      { s.descs x with opQueue := queue } ∧ (x ≠ d → queue = (s.descs x).opQueue) := by
  by_cases hx : x = d
  · subst hx
    exact ⟨_, setDesc_self .., fun hne => absurd rfl hne⟩
  · exact ⟨(s.descs x).opQueue, setDesc_ne hx, fun _ => rfl⟩

theorem dispatched_empty {x : DescriptorId} (hempty : (s.descs x).opQueue = fun _ => []) :
    ((descriptorDispatch s d f done).descs x).opQueue = fun _ => [] := by
  obtain ⟨queue, hx, hqueue⟩ := dispatched_descs s d f done x
  by_cases hxd : x = d
  · subst hxd
    have hself : (descriptorDispatch s x f done).descs x = { s.descs x with
        opQueue :=
          Function.update (s.descs x).opQueue f (((s.descs x).opQueue f).dropWhile done) } :=
      setDesc_self ..
    rw [hself]
    funext g
    by_cases hg : g = f <;> simp [hg, hempty]
  · rw [hx, hqueue hxd]
    exact hempty

theorem enqueued_descs (o : OperationId) (x : DescriptorId) :
    ∃ queue, (enqueue s f d o).descs x =
      { s.descs x with opQueue := queue } ∧ (x ≠ d → queue = (s.descs x).opQueue) := by
  by_cases hx : x = d
  · subst hx
    exact ⟨_, setDesc_self .., fun hne => absurd rfl hne⟩
  · exact ⟨(s.descs x).opQueue, setDesc_ne hx, fun _ => rfl⟩

theorem owned_dispatchClosure {o : OperationId} {ts : List Task} {run run' : Int}
    (h : Owned s fun _ => 0)
    (hframe : s.frame = .within (.drain (.dispatch f d o :: ts) run)) :
    Owned ((descriptorDispatch (enqueue s f d o) d f done).goTo
      (.changing d [.read, .write] (.drain ts run'))) fun _ => 0 := by
  have hd : d < s.made := by
    apply h.made_of_captures
    rw [captures_popped hframe, Task.captures, decide_eq_true rfl]
    exact Nat.succ_pos _
  have hdescs (x : DescriptorId) : ∃ queue,
      ((descriptorDispatch (enqueue s f d o) d f done).goTo
        (.changing d [.read, .write] (.drain ts run'))).descs x =
          { s.descs x with opQueue := queue } ∧ (x ≠ d → queue = (s.descs x).opQueue) := by
    obtain ⟨queue, hx, hqueue⟩ := dispatched_descs (enqueue s f d o) d f done x
    obtain ⟨queue', hx', hqueue'⟩ := enqueued_descs (s := s) (f := f) (d := d) o x
    refine ⟨queue, ?_, fun hne => ?_⟩
    · rw [State.goTo, hx, hx']
    · rw [hqueue hne, hx']
      exact hqueue' hne
  refine h.keep rfl rfl ?_ ?_ ?_ ?_ ?_
  · intro x
    obtain ⟨queue, hx, -⟩ := hdescs x
    rw [hx]
    exact ⟨rfl, rfl, rfl⟩
  · intro x hx
    obtain ⟨queue, hx', hqueue⟩ := hdescs x
    rw [hx', hqueue (Nat.lt_of_lt_of_le hd hx).ne']
    exact (h.unmade x hx).opQueue
  · exact h.postings
  · exact fun x => (captures_popped hframe x).symm
  · intro x
    rw [work_popped hframe, List.count_cons]
    rfl

theorem made_of_dispatched {ts : List Task} {run : Int} (h : Owned s extra)
    (hframe : s.frame = .changing d [] (.drain ts run)) : d < s.made := by
  apply h.made_of_captures
  rw [captures, hframe, Frame.releases, decide_eq_true rfl]
  exact Nat.succ_pos _

/-- When the changes are queued, the reference of the closure is too many. -/
theorem owned_changed {ts : List Task} {run : Int} (h : Owned s fun _ => 0)
    (hframe : s.frame = .changing d [] (.drain ts run)) :
    Owned (s.goTo (.within (.drain ts run))) (only d) := by
  have hwork : work s = ts ++ s.opQueue := by rw [work, hframe]; rfl
  have hcaptures (x : DescriptorId) : captures s x =
      captures (s.goTo (.within (.drain ts run))) x + only d x := by
    rw [captures, hwork, hframe, only]
    by_cases hx : x = d
    · subst hx
      simp [captures, State.goTo, work, Frame.releases, Frame.tasks, Position.tasks]
    · simp [captures, State.goTo, work, Frame.releases, Frame.tasks, Position.tasks, hx, Ne.symm hx]
  have hsame (x : DescriptorId) : (work (s.goTo (.within (.drain ts run)))).count (.unbind x) =
      (work s).count (.unbind x) := by rw [hwork]; rfl
  constructor
  · intro x hx
    have hunmade := h.unmade x hx
    have hnone := hunmade.captures
    rw [hcaptures] at hnone
    exact ⟨hunmade.fd, hunmade.opQueue, hunmade.deleted, by omega⟩
  · exact h.postings
  · exact h.held
  · intro x
    rw [hsame]
    exact h.stake x
  · intro x hx
    have hcell := h.counted x hx
    rw [hcaptures, ← Nat.add_assoc] at hcell
    exact hcell

theorem owned_dispatched {ts : List Task} {run : Int} (h : Owned s fun _ => 0)
    (hframe : s.frame = .changing d [] (.drain ts run)) :
    Owned ((descriptorRelease s d).goTo (.within (.drain ts run))) fun _ => 0 := by
  have hd : d < s.made := made_of_dispatched h hframe
  rw [release_goTo]
  exact (owned_changed h hframe).release hd

theorem owned_next {ev : Event} (h : Owned s fun _ => 0) (hev : Enabled s ev) :
    Owned (next s ev) fun _ => 0 := by
  cases ev with
  | opens fd connect => exact owned_opens h hev.1
  | bind d f fs => exact owned_bind h hev.1 hev.2
  | file fd isOpen =>
    cases isOpen with
    | true => exact h.moves rfl rfl rfl rfl rfl fun _ => rfl
    | false => exact h.moves rfl rfl rfl rfl rfl fun _ => rfl
  | take f d o => exact owned_take h hev
  | post a =>
    have hperm : (s.postings.erase a ++ (s.frame.tasks ++ (s.opQueue ++ [a]))).Perm
        (s.postings ++ work s) := by
      rw [← List.append_assoc s.frame.tasks, ← List.append_assoc]
      refine (List.perm_append_singleton a _).trans ?_
      exact (List.perm_cons_erase hev).symm.append_right (work s)
    obtain ⟨f, d, o, rfl⟩ := h.postings a hev
    refine h.keep rfl rfl ?_ ?_ ?_ ?_ ?_
    · exact fun _ => ⟨rfl, rfl, rfl⟩
    · exact fun x hx => (h.unmade x hx).opQueue
    · exact fun b hb => h.postings b (List.mem_of_mem_erase hb)
    · exact fun x => congrArg (· + _) (hperm.countP_eq _)
    · intro x
      have hwork : work (next s (.post (.dispatch f d o))) = work s ++ [.dispatch f d o] :=
        (List.append_assoc ..).symm
      rw [hwork, List.count_append]
      rfl
  | execute o =>
    exact h.goes [o] rfl rfl rfl rfl (List.append_assoc ..).symm fun _ => rfl
  | unbind d => exact owned_unbind h hev
  | apply returned =>
    have hframe : s.frame = .idle returned := hev
    have hwork : work s = s.opQueue := work_idle (by rw [hframe]; rfl)
    exact h.moves rfl rfl rfl rfl hwork.symm fun d => by rw [hframe]; rfl
  | kevent evs =>
    have hwork : work s = s.opQueue := work_idle (by rw [hev.1]; rfl)
    show Owned (if evs.isEmpty then _ else _) _
    split
    · exact h.moves rfl rfl rfl rfl hwork.symm fun d => by rw [hev.1]; rfl
    · exact h.moves rfl rfl rfl rfl hwork.symm fun d => by rw [hev.1]; rfl
  | event ev evs executeOp run done =>
    have hframe : s.frame = .within (.events (ev :: evs) executeOp run) := hev
    have hwork : work s = s.opQueue := work_idle (by rw [hframe]; rfl)
    show Owned (onEvent s ev evs executeOp run done) _
    unfold onEvent
    split
    · next d _ =>
      have hdescs := dispatched_descs s d ev.filter done
      refine h.keep rfl rfl ?_ ?_ h.postings ?_ ?_
      · intro x
        obtain ⟨queue, hx, -⟩ := hdescs x
        rw [show State.descs _ x = _ from hx]
        exact ⟨rfl, rfl, rfl⟩
      · intro x hx
        exact dispatched_empty (h.unmade x hx).opQueue
      · intro x
        have hreleases : s.frame.releases x = false := by rw [hframe]; rfl
        rw [captures, captures, hreleases, hwork]
        rfl
      · intro x
        rw [hwork]
        rfl
    · exact h.moves rfl rfl rfl rfl hwork.symm fun d => by rw [hframe]; rfl
  | change d f fs p =>
    have hframe : s.frame = .changing d (f :: fs) p := hev
    refine h.moves rfl rfl rfl rfl ?_ fun x => ?_
    · rw [work, work, hframe]
      rfl
    · rw [hframe]
      cases p with
      | events evs executeOp run => rfl
      | drain ops run => rfl
  | dispatched d p =>
    have hframe : s.frame = .changing d [] p := hev
    cases p with
    | events evs executeOp run =>
      have hwork : work s = s.opQueue := work_idle (by rw [hframe]; rfl)
      exact h.moves rfl rfl rfl rfl hwork.symm fun x => by rw [hframe]; rfl
    | drain ops run => exact owned_dispatched h hframe
  | endEvents executeOp run =>
    have hframe : s.frame = .within (.events [] executeOp run) := hev
    have hwork : work s = s.opQueue := work_idle (by rw [hframe]; rfl)
    cases executeOp with
    | true =>
      refine h.moves rfl rfl rfl rfl ?_ fun x => by rw [hframe]; rfl
      rw [hwork]
      exact List.append_nil _
    | false => exact h.moves rfl rfl rfl rfl hwork.symm fun x => by rw [hframe]; rfl
  | closure a ts run done =>
    cases a with
    | op o =>
      have hframe : s.frame = .within (.drain (.op o :: ts) run) := hev
      refine h.keep rfl rfl (fun _ => ⟨rfl, rfl, rfl⟩) (fun x hx => (h.unmade x hx).opQueue)
        h.postings (fun x => (captures_popped hframe x).symm) fun x => ?_
      rw [work_popped hframe, List.count_cons]
      rfl
    | dispatch f d o => exact owned_dispatchClosure h hev
    | unbind d => exact owned_unbindClosure h hev
  | endRun run =>
    have hframe : s.frame = .within (.drain [] run) := hev
    have hwork : work s = s.opQueue := work_idle (by rw [hframe]; rfl)
    exact h.moves rfl rfl rfl rfl hwork.symm fun x => by rw [hframe]; rfl

theorem owned_run {wakeUp : Int} (h : machine.Reachable (initial wakeUp) s) :
    Owned s fun _ => 0 := by
  apply System.Execution.invariant h
  · exact owned_initial wakeUp
  · exact fun u ev _ hu hev _ => owned_next hu hev

/-! ## Descriptors in use -/

/-- Events are handled for open descriptors. -/
def Current (s : State) : Event → Prop
  | .event ev _ _ _ _ => ∀ d ∈ ev.udata, IsOpen s d
  | _ => True

instance (s : State) : (ev : Event) → Decidable (Current s ev)
  | .event ev _ _ _ _ => inferInstanceAs (Decidable (∀ d ∈ ev.udata, IsOpen s d))
  | .opens .. | .bind .. | .file .. | .take .. | .post _ | .execute _ | .unbind _ | .apply _
  | .kevent _ | .change .. | .dispatched .. | .endEvents .. | .closure .. | .endRun _ =>
    isTrue trivial

/-- The descriptor that a step reads or writes. -/
def touches : Event → Option DescriptorId
  | .bind d _ _ => some d
  | .take _ d _ => some d
  | .event ev _ _ _ _ => ev.udata
  | .change d _ _ _ => some d
  | .dispatched d (.drain _ _) => some d
  | .closure (.dispatch _ d _) _ _ _ => some d
  | .closure (.unbind d) _ _ _ => some d
  | _ => none

/-- While the changes of an event are queued, its descriptor is open. -/
def Handling (s : State) : Prop :=
  ∀ d fs evs executeOp run, s.frame = .changing d fs (.events evs executeOp run) → IsOpen s d

theorem Handling.keep (h : Handling s) (hframe : t.frame = s.frame) (hmade : s.made ≤ t.made)
    (hfd : ∀ x < s.made, (t.descs x).fd = (s.descs x).fd) : Handling t := by
  intro d fs evs executeOp run heq
  obtain ⟨hd, hopen⟩ := h d fs evs executeOp run (hframe ▸ heq)
  exact ⟨Nat.lt_of_lt_of_le hd hmade, hfd d hd ▸ hopen⟩

theorem handling_of_frame
    (h : ∀ d fs evs executeOp run, t.frame ≠ .changing d fs (.events evs executeOp run)) :
    Handling t := fun d fs evs executeOp run heq => absurd heq (h d fs evs executeOp run)

theorem fd_setDesc {v : Descriptor} (hdescs : t.descs = Function.update s.descs d v)
    (hfd : v.fd = (s.descs d).fd) (x : DescriptorId) : (t.descs x).fd = (s.descs x).fd := by
  rw [hdescs]
  by_cases hx : x = d
  · rw [hx, Function.update_self, hfd]
  · rw [Function.update_of_ne hx]

theorem handling_next {ev : Event} (h : Handling s) (hev : Enabled s ev) (hcurrent : Current s ev) :
    Handling (next s ev) := by
  cases ev with
  | opens fd connect =>
    refine h.keep rfl (Nat.le_succ _) fun x hx => ?_
    rw [show (next s (.opens fd connect)).descs x = s.descs x from Function.update_of_ne hx.ne ..]
  | bind d f fs =>
    exact h.keep rfl (Nat.le_refl _) fun x _ =>
      fd_setDesc (d := d) (v := { s.descs d with binding := fs }) rfl rfl x
  | file fd isOpen =>
    cases isOpen with
    | true => exact h.keep rfl (Nat.le_refl _) fun _ _ => rfl
    | false => exact h.keep rfl (Nat.le_refl _) fun _ _ => rfl
  | take f d o =>
    exact h.keep rfl (Nat.le_refl _) fun x _ =>
      fd_setDesc (d := d) (v := { s.descs d with cell := (s.descs d).cell.acquire }) rfl rfl x
  | post a => exact h.keep rfl (Nat.le_refl _) fun _ _ => rfl
  | execute o => exact h.keep rfl (Nat.le_refl _) fun _ _ => rfl
  | unbind d => exact h.keep rfl (Nat.le_refl _) fun _ _ => rfl
  | apply returned => exact handling_of_frame fun _ _ _ _ _ => nofun
  | kevent evs =>
    show Handling (if evs.isEmpty then _ else _)
    split
    · exact handling_of_frame fun _ _ _ _ _ => nofun
    · exact handling_of_frame fun _ _ _ _ _ => nofun
  | event ev evs executeOp run done =>
    show Handling (onEvent s ev evs executeOp run done)
    unfold onEvent
    split
    · next d hudata =>
      intro e fs evs' executeOp' run' heq
      obtain ⟨rfl, -⟩ := Frame.changing.inj heq
      obtain ⟨hd, hopen⟩ := hcurrent d hudata
      obtain ⟨queue, hsame, -⟩ := dispatched_descs s d ev.filter done d
      refine ⟨hd, ?_⟩
      rw [show State.descs _ d = _ from hsame]
      exact hopen
    · exact handling_of_frame fun _ _ _ _ _ => nofun
  | change d f fs p =>
    intro e gs evs executeOp run heq
    obtain ⟨rfl, rfl, rfl⟩ := Frame.changing.inj heq
    exact h d (f :: fs) evs executeOp run hev
  | dispatched d p =>
    cases p with
    | events evs executeOp run => exact handling_of_frame fun _ _ _ _ _ => nofun
    | drain ops run => exact handling_of_frame fun _ _ _ _ _ => nofun
  | endEvents executeOp run =>
    cases executeOp with
    | true => exact handling_of_frame fun _ _ _ _ _ => nofun
    | false => exact handling_of_frame fun _ _ _ _ _ => nofun
  | closure a ts run done =>
    cases a with
    | op o => exact handling_of_frame fun _ _ _ _ _ => nofun
    | dispatch f d o => exact handling_of_frame fun _ _ _ _ _ => nofun
    | unbind d => exact handling_of_frame fun _ _ _ _ _ => nofun
  | endRun run => exact handling_of_frame fun _ _ _ _ _ => nofun

/-- A descriptor that a step reads or writes is held by somebody. -/
theorem touches_live {ev : Event} (h : Owned s fun _ => 0) (hh : Handling s) (hev : Enabled s ev)
    (hcurrent : Current s ev) (hd : touches ev = some d) : (s.descs d).cell.deleted = false := by
  have hbase (hopen : IsOpen s d) : (s.descs d).cell.deleted = false := by
    apply h.notDeleted hopen.1
    rw [base, if_neg hopen.2]
    omega
  have hcaptures (hpos : 0 < captures s d) : (s.descs d).cell.deleted = false := by
    apply h.notDeleted (h.made_of_captures hpos)
    omega
  cases ev with
  | bind e f fs =>
    obtain rfl := Option.some.inj hd
    have howner : owner s e = 1 := by
      rw [owner, hev.2]
      exact if_pos (.inr (List.cons_ne_nil _ _))
    have hstake := h.stake e
    apply h.notDeleted hev.1
    omega
  | take f e o =>
    obtain rfl := Option.some.inj hd
    have hone := h.base_of_held hev
    apply h.notDeleted (h.held e hev).1
    omega
  | event ev evs executeOp run done => exact hbase (hcurrent d hd)
  | change e f fs p =>
    obtain rfl := Option.some.inj hd
    cases p with
    | events evs executeOp run => exact hbase (hh e (f :: fs) evs executeOp run hev)
    | drain ops run =>
      apply hcaptures
      rw [captures, show s.frame = _ from hev, Frame.releases, decide_eq_true rfl]
      exact Nat.succ_pos _
  | dispatched e p =>
    cases p with
    | events evs executeOp run => cases hd
    | drain ops run =>
      obtain rfl := Option.some.inj hd
      apply hcaptures
      rw [captures, show s.frame = _ from hev, Frame.releases, decide_eq_true rfl]
      exact Nat.succ_pos _
  | closure a ts run done =>
    cases a with
    | op o => cases hd
    | dispatch f e o =>
      obtain rfl := Option.some.inj hd
      apply hcaptures
      rw [captures_popped hev, Task.captures, decide_eq_true rfl]
      exact Nat.succ_pos _
    | unbind e =>
      obtain rfl := Option.some.inj hd
      have hin : .unbind e ∈ work s := work_popped hev ▸ List.mem_cons_self
      exact hbase (h.open_of_unbind hin)
  | opens fd connect => cases hd
  | file fd isOpen => cases hd
  | post a => cases hd
  | execute o => cases hd
  | unbind e => cases hd
  | apply returned => cases hd
  | kevent evs => cases hd
  | endEvents executeOp run => cases hd
  | endRun run => cases hd

end KqueueMachine
