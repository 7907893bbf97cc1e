import Mathlib.Data.List.Nodup

/-! # One turn of the select multiplexer

The sets that descriptors are put into are copies, made before, of the ones that are given to
`::select`. `setSize` is `FD_SETSIZE`; a number that does not fit is undefined behaviour. What
`::select` answers and which operations are done when they are attempted is arbitrary.
-/
namespace SelectRun

/-- The entries of `ops`. -/
inductive Ev where
  | evRead
  | evWrite
  deriving DecidableEq, Repr

abbrev Operation := Nat

structure Descriptor where
  fd : Int
  opQueue : Ev → List Operation

/-- Open files have different numbers. -/
structure Select where
  /-- `_wake_up.rd_pipe()`. -/
  wakeUp : Int
  desc : List Descriptor
  opQueue : List Operation
  distinct : (wakeUp :: desc.map Descriptor.fd).Nodup

abbrev FdSet := List Int

structure Sets where
  rdfds : FdSet
  wrfds : FdSet
  deriving DecidableEq, Repr

namespace Sets

def get (s : Sets) : Ev → FdSet
  | .evRead => s.rdfds
  | .evWrite => s.wrfds

def put (s : Sets) (ev : Ev) (set : FdSet) : Sets :=
  match ev with
  | .evRead => { s with rdfds := set }
  | .evWrite => { s with wrfds := set }

theorem get_put (s : Sets) (ev ev' : Ev) (set : FdSet) :
    (s.put ev set).get ev' = if ev' = ev then set else s.get ev' := by
  cases ev <;> cases ev' <;> rfl

end Sets

/-- What `::select` returns, and the sets that it leaves. -/
structure Answer where
  ret : Int
  sets : Sets
  deriving DecidableEq, Repr

/-- What is given to `::select`, and the copies. -/
structure Prepared where
  nfds : Int
  passed : Sets
  copies : Sets
  deriving DecidableEq, Repr

/-- Only what was asked for is reported. -/
def Answer.Valid (a : Answer) (p : Prepared) : Prop :=
  0 < a.ret → ∀ ev, a.sets.get ev ⊆ p.passed.get ev

structure Outcome where
  /-- The calls of `complete`. -/
  completed : List (Int × Ev)
  attempted : List (Int × Ev × Operation)
  desc : List Descriptor
  drained : Bool
  executed : List Operation
  /-- The bytes that were read from the wake-up pipe. -/
  consumed : Nat
  run : Nat

section Run

variable (setSize : Nat)

/-- `FD_SET`. -/
def fdSet (fd : Int) (set : FdSet) : Option FdSet :=
  if 0 ≤ fd ∧ fd < setSize then some (fd :: set) else none

/-- The body of the first inner loop. -/
def interest (d : Descriptor) (acc : Sets × Int) (ev : Ev) : Option (Sets × Int) :=
  if (d.opQueue ev).isEmpty then some acc
  else (fdSet setSize d.fd (acc.1.get ev)).map fun set => (acc.1.put ev set, max acc.2 d.fd)

def interests (acc : Sets × Int) (d : Descriptor) : Option (Sets × Int) :=
  [Ev.evRead, .evWrite].foldlM (interest setSize d) acc

/-- `select::run` up to the call of `::select`. -/
def prepare (s : Select) : Option Prepared := do
  let rdfds ← fdSet setSize s.wakeUp []
  let (copies, maxfd) ← s.desc.foldlM (interests setSize) (⟨[], []⟩, s.wakeUp)
  return ⟨maxfd + 1, ⟨rdfds, []⟩, copies⟩

/-- `_descriptor::complete`: the operations that are attempted, and those that are left. -/
def complete (done : Operation → Bool) : List Operation → List Operation × List Operation
  | [] => ([], [])
  | op :: ops =>
    if done op then (op :: (complete done ops).1, (complete done ops).2) else ([op], op :: ops)

/-- The events of a descriptor that the second loop completes. -/
def ready (copies : Sets) (d : Descriptor) : List Ev :=
  [Ev.evRead, .evWrite].filter fun ev => !(d.opQueue ev).isEmpty && decide (d.fd ∈ copies.get ev)

def Descriptor.after (done : Operation → Bool) (copies : Sets) (d : Descriptor) : Descriptor :=
  { d with
    opQueue := fun ev =>
      if ev ∈ ready copies d then (complete done (d.opQueue ev)).2 else d.opQueue ev }

/-- `select::run`; `posted` is posted before the queue is drained. -/
def run (s : Select) (done : Operation → Bool) (posted : List Operation) (a : Answer) :
    Option Outcome := do
  let p ← prepare setSize s
  if a.ret ≤ 0 then return ⟨[], [], s.desc, false, [], 0, 0⟩
  let executeOp := decide (s.wakeUp ∈ a.sets.rdfds)
  let completed := s.desc.flatMap fun d => (ready p.copies d).map fun ev => (d.fd, ev)
  let attempted := s.desc.flatMap fun d => (ready p.copies d).flatMap fun ev =>
    (complete done (d.opQueue ev)).1.map fun op => (d.fd, ev, op)
  let executed := if executeOp then s.opQueue ++ posted else []
  return ⟨completed, attempted, s.desc.map (Descriptor.after done p.copies), executeOp, executed, 0,
    completed.length + executed.length⟩

end Run

/-- `::select` reports the descriptor and nothing else. -/
def OnlyReady (a : Answer) (d : Descriptor) : Prop :=
  0 < a.ret ∧ (∀ ev, ∀ fd ∈ a.sets.get ev, fd = d.fd) ∧ ∃ ev, d.fd ∈ a.sets.get ev

structure Waits (s : Select) (a : Answer) (p : Prepared) (o : Outcome) : Prop where
  sets : ∀ ev fd, fd ∈ p.passed.get ev ↔
    ev = .evRead ∧ fd = s.wakeUp ∨ ∃ d ∈ s.desc, d.fd = fd ∧ d.opQueue ev ≠ []
  reported : ∀ fd ev, (fd, ev) ∈ o.completed → 0 < a.ret ∧ fd ∈ a.sets.get ev
  served : ∀ d ∈ s.desc, OnlyReady a d →
    ∃ ev op, d.fd ∈ a.sets.get ev ∧ (d.fd, ev, op) ∈ o.attempted
  consumed : o.drained = true → 0 < o.consumed

/-- The call is defined, and waits for what its descriptors wait for. -/
def WaitsRight (setSize : Nat) (s : Select) (done : Operation → Bool) (posted : List Operation)
    (a : Answer) : Prop :=
  ∃ p o, prepare setSize s = some p ∧ run setSize s done posted a = some o ∧ Waits s a p o

variable {setSize : Nat} {s : Select} {done : Operation → Bool} {posted : List Operation}
  {a : Answer} {p : Prepared} {o : Outcome} {d : Descriptor}

/-! ## The sets -/

theorem interest_spec {acc acc' : Sets × Int} {ev ev' : Ev} {fd : Int}
    (h : interest setSize d acc ev = some acc') :
    fd ∈ acc'.1.get ev' ↔ fd ∈ acc.1.get ev' ∨ ev' = ev ∧ d.fd = fd ∧ d.opQueue ev ≠ [] := by
  unfold interest at h
  split at h
  · next hempty =>
    obtain rfl := Option.some.inj h
    have hnil : d.opQueue ev = [] := List.isEmpty_iff.mp hempty
    simp [hnil]
  · next hempty =>
    have hne : d.opQueue ev ≠ [] := fun hnil => hempty (List.isEmpty_iff.mpr hnil)
    unfold fdSet at h
    split at h
    · obtain rfl := Option.some.inj h
      rw [Sets.get_put]
      by_cases hev : ev' = ev
      · subst hev
        simp [hne, or_comm, eq_comm]
      · simp [hev]
    · simp at h

theorem interests_spec {acc acc' : Sets × Int} {ev : Ev} {fd : Int}
    (h : interests setSize acc d = some acc') :
    fd ∈ acc'.1.get ev ↔ fd ∈ acc.1.get ev ∨ d.fd = fd ∧ d.opQueue ev ≠ [] := by
  simp only [interests, List.foldlM_cons, List.foldlM_nil, Option.bind_eq_bind] at h
  obtain ⟨mid, hmid, h⟩ := Option.bind_eq_some_iff.mp h
  obtain ⟨last, hlast, h⟩ := Option.bind_eq_some_iff.mp h
  obtain rfl := Option.some.inj h
  rw [interest_spec hlast, interest_spec hmid]
  cases ev <;> simp

/-- The copies hold the descriptors that have something to do. -/
theorem copies_spec {ds : List Descriptor} {acc acc' : Sets × Int} {ev : Ev} {fd : Int}
    (h : ds.foldlM (interests setSize) acc = some acc') :
    fd ∈ acc'.1.get ev ↔
      fd ∈ acc.1.get ev ∨ ∃ d ∈ ds, d.fd = fd ∧ d.opQueue ev ≠ [] := by
  induction ds generalizing acc with
  | nil =>
    obtain rfl := Option.some.inj h
    simp
  | cons d ds ih =>
    rw [List.foldlM_cons, Option.bind_eq_bind] at h
    obtain ⟨mid, hmid, h⟩ := Option.bind_eq_some_iff.mp h
    rw [ih h, interests_spec hmid]
    simp only [List.mem_cons, exists_eq_or_imp, or_assoc]

theorem prepare_spec (h : prepare setSize s = some p) :
    (0 ≤ s.wakeUp ∧ s.wakeUp < setSize) ∧ p.passed = ⟨[s.wakeUp], []⟩ ∧
      ∀ ev fd, fd ∈ p.copies.get ev ↔ ∃ d ∈ s.desc, d.fd = fd ∧ d.opQueue ev ≠ [] := by
  unfold prepare at h
  obtain ⟨rdfds, hrd, h⟩ := Option.bind_eq_some_iff.mp h
  obtain ⟨acc, hacc, h⟩ := Option.bind_eq_some_iff.mp h
  obtain rfl := Option.some.inj h
  unfold fdSet at hrd
  split at hrd
  · next hrange =>
    obtain rfl := Option.some.inj hrd
    refine ⟨hrange, rfl, fun ev fd => ?_⟩
    rw [copies_spec hacc]
    cases ev <;> simp [Sets.get]
  · simp at hrd

/-- `::select` has only the wake-up pipe to wait for. -/
theorem mem_passed (h : prepare setSize s = some p) {ev : Ev} {fd : Int} :
    fd ∈ p.passed.get ev ↔ ev = .evRead ∧ fd = s.wakeUp := by
  rw [(prepare_spec h).2.1]
  cases ev <;> simp [Sets.get]

theorem fd_ne_wakeUp (hd : d ∈ s.desc) : d.fd ≠ s.wakeUp := by
  intro heq
  have hnot := (List.nodup_cons.mp s.distinct).1
  exact hnot (heq ▸ List.mem_map_of_mem hd)

theorem mem_ready {copies : Sets} {ev : Ev} :
    ev ∈ ready copies d ↔ d.opQueue ev ≠ [] ∧ d.fd ∈ copies.get ev := by
  simp only [ready, List.mem_filter, Bool.and_eq_true, Bool.not_eq_true', decide_eq_true_eq]
  cases ev <;> simp

/-! ## The call -/

/-- Whatever is reported, every descriptor that has something to do is completed. -/
theorem completed_iff (hrun : run setSize s done posted a = some o) (hret : 0 < a.ret) {fd : Int}
    {ev : Ev} : (fd, ev) ∈ o.completed ↔ ∃ d ∈ s.desc, d.fd = fd ∧ d.opQueue ev ≠ [] := by
  unfold run at hrun
  obtain ⟨p, hp, hrun⟩ := Option.bind_eq_some_iff.mp hrun
  rw [if_neg (Int.not_le.mpr hret)] at hrun
  obtain rfl := Option.some.inj hrun
  simp only [List.mem_flatMap, List.mem_map, Prod.mk.injEq, mem_ready, (prepare_spec hp).2.2]
  constructor
  · rintro ⟨d, hd, ev', ⟨hne, -⟩, rfl, rfl⟩
    exact ⟨d, hd, rfl, hne⟩
  · rintro ⟨d, hd, rfl, hne⟩
    exact ⟨d, hd, ev, ⟨hne, d, hd, rfl, hne⟩, rfl, rfl⟩

theorem drained_iff (hrun : run setSize s done posted a = some o) :
    o.consumed = 0 ∧ (o.drained = true ↔ 0 < a.ret ∧ s.wakeUp ∈ a.sets.rdfds) := by
  unfold run at hrun
  obtain ⟨p, hp, hrun⟩ := Option.bind_eq_some_iff.mp hrun
  by_cases hret : a.ret ≤ 0
  · rw [if_pos hret] at hrun
    obtain rfl := Option.some.inj hrun
    simp [Int.not_lt.mpr hret]
  · rw [if_neg hret] at hrun
    obtain rfl := Option.some.inj hrun
    simp [Int.not_le.mp hret]

theorem interests_idle {acc : Sets × Int} {ds : List Descriptor}
    (h : ∀ d ∈ ds, ∀ ev, d.opQueue ev = []) : ds.foldlM (interests setSize) acc = some acc := by
  induction ds with
  | nil => rfl
  | cons d ds ih =>
    obtain ⟨hd, hds⟩ := List.forall_mem_cons.mp h
    have hone : interests setSize acc d = some acc := by
      simp [interests, interest, hd]
    rw [List.foldlM_cons, hone]
    exact ih hds

/-- One call waits for the right things exactly when there are none, and nobody wakes it up. -/
theorem waits_right_iff (ha : ∀ p, prepare setSize s = some p → a.Valid p) :
    WaitsRight setSize s done posted a ↔
      (0 ≤ s.wakeUp ∧ s.wakeUp < setSize) ∧ (∀ d ∈ s.desc, ∀ ev, d.opQueue ev = []) ∧
        ¬ (0 < a.ret ∧ s.wakeUp ∈ a.sets.rdfds) := by
  constructor
  · rintro ⟨p, o, hp, ho, hwaits⟩
    obtain ⟨hconsumed, hdrained⟩ := drained_iff ho
    refine ⟨(prepare_spec hp).1, fun d hd ev => ?_, fun hwoken => ?_⟩
    · by_contra hne
      have hpassed := (hwaits.sets ev d.fd).mpr (Or.inr ⟨d, hd, rfl, hne⟩)
      exact fd_ne_wakeUp hd ((mem_passed hp).mp hpassed).2
    · have hread := hwaits.consumed (hdrained.mpr hwoken)
      rw [hconsumed] at hread
      exact Nat.lt_irrefl 0 hread
  · rintro ⟨hrange, hidle, hquiet⟩
    have hp : prepare setSize s = some ⟨s.wakeUp + 1, ⟨[s.wakeUp], []⟩, ⟨[], []⟩⟩ := by
      simp [prepare, fdSet, hrange, interests_idle hidle]
    obtain ⟨o, ho⟩ : ∃ o, run setSize s done posted a = some o := by
      unfold run
      rw [hp]
      by_cases hret : a.ret ≤ 0
      · simp [hret]
      · simp [hret]
    have hnone (ev : Ev) (fd : Int) : ¬ ∃ d ∈ s.desc, d.fd = fd ∧ d.opQueue ev ≠ [] := by
      rintro ⟨d, hd, -, hne⟩
      exact hne (hidle d hd ev)
    refine ⟨_, o, hp, ho, ⟨fun ev fd => ?_, fun fd ev hmem => ?_, fun d hd honly => ?_,
      fun hdrained => absurd ((drained_iff ho).2.mp hdrained) hquiet⟩⟩
    · rw [mem_passed hp, or_iff_left (hnone ev fd)]
    · by_cases hret : 0 < a.ret
      · exact absurd ((completed_iff ho hret).mp hmem) (hnone ev fd)
      · have hempty : o.completed = [] := by
          simp only [run, hp, Option.bind_eq_bind, Option.bind_some,
            if_pos (Int.not_lt.mp hret)] at ho
          obtain rfl := Option.some.inj ho
          rfl
        rw [hempty] at hmem
        exact absurd hmem List.not_mem_nil
    · obtain ⟨hret, -, ev, hmem⟩ := honly
      have hpassed := ha _ hp hret ev hmem
      exact absurd ((mem_passed hp).mp hpassed).2 (fd_ne_wakeUp hd)

/-- A descriptor without operations, in a call that times out. -/
theorem waits_right_iff_idle :
    let s : Select := ⟨3, [⟨4, fun _ => []⟩], [], by decide⟩
    WaitsRight 1024 s (fun _ => true) [] ⟨0, ⟨[], []⟩⟩ := by
  intro s
  have hvalid : ∀ p, prepare 1024 s = some p → Answer.Valid ⟨0, ⟨[], []⟩⟩ p :=
    fun p _ hret => absurd hret (by decide)
  refine (waits_right_iff hvalid).mpr ⟨by decide, fun d hd ev => ?_, by decide⟩
  obtain rfl := List.mem_singleton.mp hd
  rfl

/-- A read is waiting, and `::select` is not told. -/
theorem waitingRead_not_right :
    ¬ ∀ (setSize : Nat) (s : Select) (done : Operation → Bool) (posted : List Operation)
      (a : Answer),
      (∀ fd ∈ s.wakeUp :: s.desc.map Descriptor.fd, 0 ≤ fd ∧ fd < setSize) →
      (∀ p, prepare setSize s = some p → a.Valid p) → WaitsRight setSize s done posted a := by
  intro h
  let s : Select := ⟨3, [⟨4, fun ev => if ev = .evRead then [0] else []⟩], [], by decide⟩
  obtain ⟨p, o, hp, -, hwaits⟩ := h 1024 s (fun _ => true) [] ⟨0, ⟨[], []⟩⟩ (by decide)
    fun p _ hret => absurd hret (by decide)
  have hpassed := (hwaits.sets .evRead 4).mpr (Or.inr ⟨_, List.mem_cons_self, rfl, by decide⟩)
  exact absurd ((mem_passed hp).mp hpassed).2 (by decide)

end SelectRun
