import Mathlib.Logic.Function.Basic
import Mathlib.Tactic.Abel
import Tcode.SupportSimulation

/-! # Operations that wait in queues

An operation is submitted for a place, and posted to a list of work. The work is done in order:
an operation that arrives at its place joins the queue of the place, and one that is ready is
completed. A queue is worked off from its front, and once nothing can arrive any more its place
may be closed, which makes the operations that are left ready. Operations may also be executed:
these are ready at once, and belong to no place.
-/
namespace SupportCompletionQueue

open SupportSimulation SupportTransitionSystem

variable {κ α : Type*}

inductive Entry (κ α : Type*) where
  | arriving (k : κ) (a : α)
  | ready (p : Option κ) (a : α)

/-- The operation of an entry, with its place. -/
def Entry.tagged : Entry κ α → Option κ × α
  | arriving k a => (some k, a)
  | ready p a => (p, a)

/-- `arrivals` are submitted but not posted. -/
structure Store (κ α : Type*) where
  arrivals : List (κ × α)
  work : List (Entry κ α)
  queue : κ → List α
  closed : κ → Bool
  completed : List (Option κ × α)

def Store.empty : Store κ α := ⟨[], [], fun _ => [], fun _ => false, []⟩

/-- What is done from outside. A seed is an operation that is in the queue of its place from the
beginning. -/
inductive Label (κ α : Type*) where
  | submit (k : κ) (a : α)
  | post (k : κ) (a : α)
  | seed (k : κ) (a : α)
  | execute (a : α)

inductive Step (κ α : Type*) where
  | outside (l : Label κ α)
  | enqueue (k : κ) (a : α) (rest : List (Entry κ α))
  | run (p : Option κ) (a : α) (rest : List (Entry κ α))
  | attempt (k : κ) (n : Nat)
  | close (k : κ)

/-- Nothing is going to join the queue of `k`. -/
structure Store.Quiet (q : Store κ α) (k : κ) : Prop where
  arrivals : ∀ a, (k, a) ∉ q.arrivals
  work : ∀ a, .arriving k a ∉ q.work

def Enabled (q : Store κ α) : Step κ α → Prop
  | .outside (.submit k _) => q.closed k = false
  | .outside (.post k a) => (k, a) ∈ q.arrivals
  | .outside (.seed k _) => q.closed k = false ∧ q.queue k = [] ∧ q.Quiet k
  | .outside (.execute _) => True
  | .enqueue k a rest => q.work = .arriving k a :: rest
  | .run p a rest => q.work = .ready p a :: rest
  | .attempt _ _ => True
  | .close k => q.closed k = false ∧ q.Quiet k

/-- Only what is done from outside is visible. -/
def label (_ : Store κ α) : Step κ α → List (Label κ α)
  | .outside l => [l]
  | _ => []

/-! ## Order -/

/-- A closed place is empty and stays so, and only an operation of such a place is ready. -/
structure Orderly (q : Store κ α) : Prop where
  closed : ∀ k, q.closed k = true → q.queue k = [] ∧ q.Quiet k
  ready : ∀ k a, .ready (some k) a ∈ q.work → q.closed k = true

variable {q r : Store κ α}

theorem orderly_empty : Orderly (.empty : Store κ α) where
  closed _ hk := absurd hk Bool.false_ne_true
  ready _ _ ha := absurd ha List.not_mem_nil

theorem Orderly.open_of_arrival {k : κ} {a : α} (h : Orderly q) (ha : (k, a) ∈ q.arrivals) :
    q.closed k = false :=
  Bool.eq_false_iff.mpr fun hk => (h.closed k hk).2.arrivals a ha

theorem Orderly.open_of_arriving {k : κ} {a : α} (h : Orderly q) (ha : .arriving k a ∈ q.work) :
    q.closed k = false :=
  Bool.eq_false_iff.mpr fun hk => (h.closed k hk).2.work a ha

/-- What closes no place leaves order, if all that it adds belongs to places that are open. -/
theorem Orderly.keep (h : Orderly q) (hclosed : r.closed = q.closed)
    (hqueue : ∀ j, q.closed j = true → r.queue j = [])
    (harrivals : ∀ j a, (j, a) ∈ r.arrivals → q.closed j = false)
    (hwork : ∀ e ∈ r.work, e ∈ q.work ∨ (∃ j a, e = .arriving j a ∧ q.closed j = false) ∨
      ∃ a, e = .ready none a) : Orderly r := by
  constructor
  · intro j hj
    rw [hclosed] at hj
    refine ⟨hqueue j hj, fun a ha => ?_, fun a ha => ?_⟩
    · have hopen := harrivals j a ha
      rw [hj] at hopen
      cases hopen
    · rcases hwork _ ha with ha | ⟨k, b, heq, hk⟩ | ⟨b, heq⟩
      · exact (h.closed j hj).2.work a ha
      · obtain ⟨rfl, -⟩ := Entry.arriving.inj heq
        rw [hj] at hk
        cases hk
      · cases heq
  · intro k a ha
    rw [hclosed]
    rcases hwork _ ha with ha | ⟨j, b, heq, -⟩ | ⟨b, heq⟩
    · exact h.ready k a ha
    · cases heq
    · cases heq

/-! ## The operations of a place -/

section Places

variable [DecidableEq κ] {p p' : Option κ} {a : α} {l m : List (Option κ × α)} {as : List α}

/-- Of tagged operations, those that belong to `p`. -/
def ofPlace (p : Option κ) (l : List (Option κ × α)) : List α :=
  l.filterMap fun e => if e.1 = p then some e.2 else none

@[simp] theorem ofPlace_nil : ofPlace p ([] : List (Option κ × α)) = [] := rfl

@[simp] theorem ofPlace_append : ofPlace p (l ++ m) = ofPlace p l ++ ofPlace p m :=
  List.filterMap_append

@[simp] theorem ofPlace_cons : ofPlace p ((p', a) :: l) =
    (if p' = p then some a else none).toList ++ ofPlace p l := by
  by_cases h : p' = p
  · simp [ofPlace, h]
  · simp [ofPlace, h]

theorem ofPlace_map : ofPlace p (as.map fun a => (p', a)) = if p' = p then as else [] := by
  induction as with
  | nil => simp
  | cons a as ih =>
    rw [List.map_cons, ofPlace_cons, ih]
    by_cases h : p' = p
    · simp [h]
    · simp [h]

theorem ofPlace_eq_nil (h : ∀ e ∈ l, e.1 ≠ p) : ofPlace p l = [] := by
  rw [ofPlace, List.filterMap_eq_nil_iff]
  exact fun e he => if_neg (h e he)

theorem ofPlace_perm (h : l.Perm m) : (ofPlace p l).Perm (ofPlace p m) := h.filterMap _

/-- What waits in the queue of `p`. -/
def queueAt (queue : κ → List α) : Option κ → List α
  | none => []
  | some k => queue k

omit [DecidableEq κ] in
@[simp] theorem queueAt_some (queue : κ → List α) (k : κ) : queueAt queue (some k) = queue k := rfl

@[simp] theorem queueAt_update (queue : κ → List α) (k : κ) (as : List α) :
    queueAt (Function.update queue k as) p = if some k = p then as else queueAt queue p := by
  cases p with
  | none => rfl
  | some j =>
    by_cases hj : j = k
    · simp [hj]
    · simp [hj, Ne.symm hj]

/-- All operations of `p` that have been posted, from the first one completed to the last one
posted. -/
def Store.line (q : Store κ α) (p : Option κ) : List α :=
  ofPlace p q.completed ++ queueAt q.queue p ++ ofPlace p (q.work.map Entry.tagged)

/-- Those that have been submitted only. -/
def Store.arriving (q : Store κ α) (p : Option κ) : List α :=
  ofPlace p (q.arrivals.map fun e => (some e.1, e.2))

/-- How a label shows that an operation of `p` is posted. -/
def Label.posted (p : Option κ) : Label κ α → Option α
  | .submit _ _ => none
  | .post k a => if some k = p then some a else none
  | .seed k a => if some k = p then some a else none
  | .execute a => if none = p then some a else none

/-- How it shows that one is submitted. -/
def Label.submitted (p : Option κ) : Label κ α → Option α
  | .submit k a => if some k = p then some a else none
  | .post _ _ => none
  | .seed k a => if some k = p then some a else none
  | .execute a => if none = p then some a else none

/-- What a label shows to be submitted. -/
def Label.submission : Label κ α → Option (Option κ × α)
  | .submit k a => some (some k, a)
  | .post _ _ => none
  | .seed k a => some (some k, a)
  | .execute a => some (none, a)

theorem ofPlace_submission (ls : List (Label κ α)) :
    ofPlace p (ls.filterMap Label.submission) = ls.filterMap (·.submitted p) := by
  rw [ofPlace, List.filterMap_filterMap]
  congr
  funext x
  cases x with
  | submit k a => rfl
  | post k a => rfl
  | seed k a => rfl
  | execute a => rfl

theorem count_ofPlace [DecidableEq α] (p : Option κ) (a : α) (l : List (Option κ × α)) :
    (ofPlace p l).count a = l.count (p, a) := by
  induction l with
  | nil => rfl
  | cons e l ih =>
    obtain ⟨p', b⟩ := e
    rw [ofPlace_cons, List.count_append, ih, List.count_cons]
    by_cases hp : p' = p
    · simp [hp, Nat.add_comm, List.count_singleton]
    · simp [hp]

end Places

/-! ## Steps -/

variable [DecidableEq κ] [DecidableEq α]

def next (q : Store κ α) : Step κ α → Store κ α
  | .outside (.submit k a) => { q with arrivals := q.arrivals ++ [(k, a)] }
  | .outside (.post k a) =>
    { q with arrivals := q.arrivals.erase (k, a), work := q.work ++ [.arriving k a] }
  | .outside (.seed k a) => { q with queue := Function.update q.queue k [a] }
  | .outside (.execute a) => { q with work := q.work ++ [.ready none a] }
  | .enqueue k a rest =>
    { q with work := rest, queue := Function.update q.queue k (q.queue k ++ [a]) }
  | .run p a rest => { q with work := rest, completed := q.completed ++ [(p, a)] }
  | .attempt k n =>
    { q with
      queue := Function.update q.queue k ((q.queue k).drop n)
      completed := q.completed ++ ((q.queue k).take n).map fun a => (some k, a) }
  | .close k =>
    { q with
      work := q.work ++ (q.queue k).map (.ready (some k))
      queue := Function.update q.queue k []
      closed := Function.update q.closed k true }

def machine (κ α : Type*) [DecidableEq κ] [DecidableEq α] : System (Store κ α) (Step κ α) :=
  ⟨Enabled, next⟩

variable {st : Step κ α}

theorem Store.Quiet.close {j : κ} (h : q.Quiet j) (k : κ) : (next q (.close k)).Quiet j := by
  refine ⟨h.arrivals, fun b hb => ?_⟩
  rcases List.mem_append.mp hb with hb | hb
  · exact h.work b hb
  · obtain ⟨c, -, hc⟩ := List.mem_map.mp hb
    cases hc

theorem orderly_next (h : Orderly q) (hst : Enabled q st) : Orderly (next q st) := by
  have hempty (k : κ) (as : List α) (hk : q.closed k = false) (j : κ) (hj : q.closed j = true) :
      Function.update q.queue k as j = [] := by
    have hne : j ≠ k := by
      rintro rfl
      rw [hj] at hk
      cases hk
    rw [Function.update_of_ne hne]
    exact (h.closed j hj).1
  have harrivals (j : κ) (a : α) : (j, a) ∈ q.arrivals → q.closed j = false := h.open_of_arrival
  have hqueue (j : κ) (hj : q.closed j = true) : q.queue j = [] := (h.closed j hj).1
  cases st with
  | outside l =>
    cases l with
    | submit k a =>
      refine h.keep rfl hqueue (fun j b hb => ?_) fun e he => .inl he
      rcases List.mem_append.mp hb with hb | hb
      · exact harrivals j b hb
      · obtain ⟨rfl, -⟩ := Prod.mk.inj (List.mem_singleton.mp hb)
        exact hst
    | post k a =>
      refine h.keep rfl hqueue (fun j b hb => harrivals j b (List.mem_of_mem_erase hb))
        fun e he => ?_
      rcases List.mem_append.mp he with he | he
      · exact .inl he
      · exact .inr (.inl ⟨k, a, List.mem_singleton.mp he, harrivals k a hst⟩)
    | seed k a => exact h.keep rfl (hempty k [a] hst.1) harrivals fun e he => .inl he
    | execute a =>
      refine h.keep rfl hqueue harrivals fun e he => ?_
      rcases List.mem_append.mp he with he | he
      · exact .inl he
      · exact .inr (.inr ⟨a, List.mem_singleton.mp he⟩)
  | enqueue k a rest =>
    have hwork : q.work = .arriving k a :: rest := hst
    have hopen := h.open_of_arriving (hwork ▸ List.mem_cons_self)
    exact h.keep rfl (hempty k _ hopen) harrivals
      fun e he => .inl (hwork ▸ List.mem_cons_of_mem _ he)
  | run p a rest =>
    have hwork : q.work = .ready p a :: rest := hst
    exact h.keep rfl hqueue harrivals fun e he => .inl (hwork ▸ List.mem_cons_of_mem _ he)
  | attempt k n =>
    refine h.keep rfl (fun j hj => ?_) harrivals fun e he => .inl he
    by_cases hk : q.closed k = true
    · have hnil : (q.queue k).drop n = q.queue k := by rw [hqueue k hk, List.drop_nil]
      rw [next, hnil, Function.update_eq_self]
      exact hqueue j hj
    · exact hempty k _ (Bool.eq_false_iff.mpr hk) j hj
  | close k =>
    constructor
    · intro j hj
      by_cases hjk : j = k
      · subst hjk
        exact ⟨Function.update_self .., hst.2.close j⟩
      · have hclosed : q.closed j = true := (Function.update_of_ne hjk ..).symm.trans hj
        exact ⟨(Function.update_of_ne hjk ..).trans (hqueue j hclosed),
          (h.closed j hclosed).2.close k⟩
    · intro j b hb
      by_cases hjk : j = k
      · subst hjk
        exact Function.update_self ..
      · refine (Function.update_of_ne hjk ..).trans ?_
        rcases List.mem_append.mp hb with hb | hb
        · exact h.ready j b hb
        · obtain ⟨c, -, hc⟩ := List.mem_map.mp hb
          exact absurd (Option.some.inj (Entry.ready.inj hc).1).symm hjk

/-! ## Lines -/

omit [DecidableEq α] in
/-- At an open place to which nothing comes there is nothing but the queue. -/
theorem Orderly.work_nil {k : κ} (h : Orderly q) (hopen : q.closed k = false) (hk : q.Quiet k) :
    ofPlace (some k) (q.work.map Entry.tagged) = [] := by
  apply ofPlace_eq_nil
  intro e he heq
  obtain ⟨entry, hentry, rfl⟩ := List.mem_map.mp he
  cases entry with
  | arriving j a =>
    obtain rfl : j = k := Option.some.inj heq
    exact hk.work a hentry
  | ready p a =>
    obtain rfl : p = some k := heq
    rw [h.ready k a hentry] at hopen
    cases hopen

/-- A step makes the line of `p` longer by what it posts there. -/
theorem line_next (h : Orderly q) (hst : Enabled q st) (p : Option κ) :
    (next q st).line p = (label q st).foldl (fun l x => l ++ (x.posted p).toList) (q.line p) := by
  cases st with
  | outside l =>
    cases l with
    | submit k a => simp [next, label, Store.line, Label.posted]
    | post k a => simp [next, label, Store.line, Label.posted, Entry.tagged]
    | seed k a =>
      by_cases hp : some k = p
      · subst hp
        simp [next, label, Store.line, Label.posted, hst.2.1, h.work_nil hst.1 hst.2.2]
      · simp [next, label, Store.line, Label.posted, hp]
    | execute a => simp [next, label, Store.line, Label.posted, Entry.tagged]
  | enqueue k a rest =>
    have hwork : q.work = .arriving k a :: rest := hst
    by_cases hp : some k = p
    · subst hp
      simp [next, label, Store.line, Entry.tagged, hwork]
    · simp [next, label, Store.line, Entry.tagged, hwork, hp]
  | run p' a rest =>
    have hwork : q.work = .ready p' a :: rest := hst
    have hqueue : p' = p → queueAt q.queue p = [] := by
      rintro rfl
      cases p' with
      | none => rfl
      | some k => exact (h.closed k (h.ready k a (hwork ▸ List.mem_cons_self))).1
    by_cases hp : p' = p
    · simp [next, label, Store.line, Entry.tagged, hwork, hqueue hp]
    · simp [next, label, Store.line, Entry.tagged, hwork, hp]
  | attempt k n =>
    by_cases hp : some k = p
    · subst hp
      simp only [next, label, Store.line, ofPlace_append, ofPlace_map, if_true, List.foldl_nil,
        queueAt_some, List.append_assoc]
      rw [Function.update_self, ← List.append_assoc (List.take _ _), List.take_append_drop]
    · simp [next, label, Store.line, ofPlace_map, hp, -List.map_take]
  | close k =>
    have hready : (q.queue k).map (Entry.tagged ∘ Entry.ready (some k)) =
        (q.queue k).map fun a => (some k, a) := rfl
    by_cases hp : some k = p
    · subst hp
      simp [next, label, Store.line, hready, ofPlace_map, h.work_nil hst.1 hst.2]
    · simp [next, label, Store.line, hready, ofPlace_map, hp]

/-- What a step submits at `p` joins what is posted there or is still to be posted. -/
theorem submitted_next (h : Orderly q) (hst : Enabled q st) (p : Option κ) :
    (((next q st).arriving p ++ (next q st).line p : List α) : Multiset α) =
      (label q st).foldl (fun m x => m + ((x.submitted p).toList : Multiset α))
        ((q.arriving p ++ q.line p : List α) : Multiset α) := by
  rw [← Multiset.coe_add, line_next h hst p, ← Multiset.coe_add]
  cases st with
  | outside l =>
    cases l with
    | submit k a =>
      simp only [next, label, Store.arriving, Label.posted, Label.submitted, List.foldl_cons,
        List.foldl_nil, List.map_append, List.map_singleton, ofPlace_append, ofPlace_cons,
        ofPlace_nil, Option.toList_none, List.append_nil, ← Multiset.coe_add]
      exact add_right_comm _ _ _
    | post k a =>
      have hperm := ofPlace_perm (p := p)
        ((List.perm_cons_erase hst).map fun e : κ × α => ((some e.1 : Option κ), e.2))
      rw [List.map_cons, ofPlace_cons] at hperm
      have hcoe := Multiset.coe_eq_coe.mpr hperm
      simp only [next, label, Store.arriving, Label.posted, Label.submitted, List.foldl_cons,
        List.foldl_nil, Option.toList_none, hcoe, ← Multiset.coe_add]
      rw [Multiset.coe_nil, add_zero]
      abel
    | seed k a =>
      simp only [next, label, Label.posted, Label.submitted, List.foldl_cons, List.foldl_nil,
        ← Multiset.coe_add]
      exact (add_assoc _ _ _).symm
    | execute a =>
      simp only [next, label, Label.posted, Label.submitted, List.foldl_cons, List.foldl_nil,
        ← Multiset.coe_add]
      exact (add_assoc _ _ _).symm
  | enqueue k a rest => rfl
  | run p' a rest => rfl
  | attempt k n => rfl
  | close k => rfl

/-! ## Paths -/

variable {ls : List (Label κ α)}

/-- From `q` the store `r` is reached by what the labels say. -/
def Leads (q : Store κ α) (ls : List (Label κ α)) (r : Store κ α) : Prop :=
  Path (machine κ α) (fun _ _ => True) label q ls r

theorem leads_step (hst : Enabled q st) : Leads q (label q st) (next q st) :=
  Path.step (A := machine κ α) hst trivial

theorem leads_outside {l : Label κ α} (hst : Enabled q (.outside l)) :
    Leads q [l] (next q (.outside l)) := leads_step hst

def Reached (ls : List (Label κ α)) (q : Store κ α) : Prop := Leads .empty ls q

theorem Reached.orderly (h : Reached ls q) : Orderly q :=
  Path.invariant h orderly_empty fun _ _ hc hd _ => orderly_next hc hd

omit [DecidableEq α] in
theorem line_empty (p : Option κ) : (Store.empty : Store κ α).line p = [] := by
  cases p with
  | none => rfl
  | some k => rfl

/-- What has been posted for a place is completed, in its queue or in the work, in this order. -/
theorem Reached.line (h : Reached ls q) (p : Option κ) : q.line p = ls.filterMap (·.posted p) := by
  have hfold := Path.fold (f := fun q => q.line p) h orderly_empty
    (fun _ _ hc hd _ => orderly_next hc hd) fun c d hc hd _ => line_next hc hd p
  rw [foldl_log, line_empty] at hfold
  exact hfold

/-- What has been submitted for a place is posted there or is still to be posted. -/
theorem Reached.submitted (h : Reached ls q) (p : Option κ) :
    (q.arriving p ++ q.line p).Perm (ls.filterMap (·.submitted p)) := by
  have hfold := Path.fold (f := fun q => ((q.arriving p ++ q.line p : List α) : Multiset α)) h
    orderly_empty (fun _ _ hc hd _ => orderly_next hc hd) fun c d hc hd _ => submitted_next hc hd p
  rw [foldl_bag, line_empty] at hfold
  rw [← Multiset.coe_eq_coe, hfold]
  exact zero_add _

/-- What has been submitted is completed, in a queue, in the work or still to be posted. -/
theorem Reached.count (h : Reached ls q) (p : Option κ) (a : α) :
    (ls.filterMap Label.submission).count (p, a) =
      q.completed.count (p, a) + (queueAt q.queue p).count a +
        (ofPlace p (q.work.map Entry.tagged)).count a + (q.arriving p).count a := by
  have hperm := (h.submitted p).count_eq a
  rw [← ofPlace_submission, count_ofPlace, Store.line, List.count_append, List.count_append,
    List.count_append, count_ofPlace] at hperm
  omega

/-- Nothing is completed that has not been submitted, nor more than once. -/
theorem Reached.subperm (h : Reached ls q) :
    q.completed.Subperm (ls.filterMap Label.submission) := by
  rw [List.subperm_ext_iff]
  rintro ⟨p, a⟩ -
  have hcount := h.count p a
  omega

/-- If nothing waits, then all that has been submitted is completed. -/
theorem Reached.perm (h : Reached ls q) (harrivals : q.arrivals = []) (hwork : q.work = [])
    (hqueue : ∀ k, q.queue k = []) : q.completed.Perm (ls.filterMap Label.submission) := by
  rw [List.perm_iff_count]
  rintro ⟨p, a⟩
  have hempty : queueAt q.queue p = [] := by
    cases p with
    | none => rfl
    | some k => exact hqueue k
  have hcount := h.count p a
  rw [hempty, hwork, Store.arriving, harrivals] at hcount
  exact hcount.symm

/-- The operations of a place are completed in the order in which they are posted. -/
theorem Reached.inOrder (h : Reached ls q) (p : Option κ) :
    ofPlace p q.completed <+: ls.filterMap (·.posted p) := by
  rw [← h.line p, Store.line, List.append_assoc]
  exact List.prefix_append ..

/-! ## Several places -/

/-- Of every place `k` of the list, the first `n k` operations are completed. -/
def Store.attempts (q : Store κ α) (ks : List κ) (n : κ → Nat) : Store κ α :=
  { q with
    queue := fun k => if k ∈ ks then (q.queue k).drop (n k) else q.queue k
    completed := q.completed ++ ks.flatMap fun k => ((q.queue k).take (n k)).map ((some k, ·)) }

theorem attempts_cons {k : κ} {ks : List κ} (hk : k ∉ ks) (q : Store κ α) (n : κ → Nat) :
    (next q (.attempt k (n k))).attempts ks n = q.attempts (k :: ks) n := by
  have hother (j : κ) (hj : j ∈ ks) : (next q (.attempt k (n k))).queue j = q.queue j :=
    Function.update_of_ne (ne_of_mem_of_not_mem hj hk) ..
  have hcompleted : (ks.flatMap fun j =>
      (((next q (.attempt k (n k))).queue j).take (n j)).map ((some j, ·))) =
        ks.flatMap fun j => ((q.queue j).take (n j)).map ((some j, ·)) :=
    List.flatMap_congr fun j hj => by rw [hother j hj]
  have hqueue (j : κ) : ((next q (.attempt k (n k))).attempts ks n).queue j =
      (q.attempts (k :: ks) n).queue j := by
    by_cases hj : j ∈ ks
    · simp only [Store.attempts, hj, if_true, hother j hj, List.mem_cons, or_true]
    · by_cases hjk : j = k
      · subst hjk
        simp [Store.attempts, hj, next]
      · simp [Store.attempts, hj, next, hjk]
  have heq := funext hqueue
  simp only [Store.attempts] at heq ⊢
  rw [heq, hcompleted]
  simp [next]

/-- The list names a place once, so it does not matter that its queues are worked off one after
the other. -/
theorem leads_attempts {ks : List κ} (hks : ks.Nodup) (q : Store κ α) (n : κ → Nat) :
    Leads q [] (q.attempts ks n) := by
  induction ks generalizing q with
  | nil =>
    have hq : q.attempts [] n = q := by simp [Store.attempts]
    rw [hq]
    exact .refl
  | cons k ks ih =>
    obtain ⟨hk, hks⟩ := List.nodup_cons.mp hks
    have hst : Enabled q (.attempt k (n k)) := trivial
    have hfirst : Leads q [] (next q (.attempt k (n k))) := leads_step hst
    rw [← attempts_cons hk]
    exact hfirst.trans (ih hks _)

/-- The places of the list are closed. -/
def Store.closes (q : Store κ α) (ks : List κ) : Store κ α :=
  { q with
    work := q.work ++ ks.flatMap fun k => (q.queue k).map (.ready (some k))
    queue := fun k => if k ∈ ks then [] else q.queue k
    closed := fun k => if k ∈ ks then true else q.closed k }

theorem closes_cons {k : κ} {ks : List κ} (hk : k ∉ ks) (q : Store κ α) :
    (next q (.close k)).closes ks = q.closes (k :: ks) := by
  have hother (j : κ) (hj : j ∈ ks) : (next q (.close k)).queue j = q.queue j :=
    Function.update_of_ne (ne_of_mem_of_not_mem hj hk) ..
  have hwork : (ks.flatMap fun j =>
      ((next q (.close k)).queue j).map (Entry.ready (some j))) =
        ks.flatMap fun j => (q.queue j).map (.ready (some j)) :=
    List.flatMap_congr fun j hj => by rw [hother j hj]
  have hqueue (j : κ) : ((next q (.close k)).closes ks).queue j =
      (q.closes (k :: ks)).queue j := by
    by_cases hj : j = k
    · simp [Store.closes, next, hj]
    · simp [Store.closes, next, hj]
  have hclosed (j : κ) : ((next q (.close k)).closes ks).closed j =
      (q.closes (k :: ks)).closed j := by
    by_cases hj : j = k
    · simp [Store.closes, next, hj]
    · simp [Store.closes, next, hj]
  have heq := funext hqueue
  have heq' := funext hclosed
  simp only [Store.closes] at heq heq' ⊢
  rw [heq, heq', hwork]
  simp [next]

theorem leads_closes {ks : List κ} (hks : ks.Nodup) (q : Store κ α)
    (hopen : ∀ k ∈ ks, q.closed k = false ∧ q.Quiet k) :
    Leads q [] (q.closes ks) := by
  induction ks generalizing q with
  | nil =>
    have hq : q.closes [] = q := by simp [Store.closes]
    rw [hq]
    exact .refl
  | cons k ks ih =>
    obtain ⟨hk, hks⟩ := List.nodup_cons.mp hks
    have hst : Enabled q (.close k) := hopen k List.mem_cons_self
    have hfirst : Leads q [] (next q (.close k)) := leads_step hst
    rw [← closes_cons hk]
    refine hfirst.trans (ih hks _ fun j hj => ?_)
    obtain ⟨hclosed, hquiet⟩ := hopen j (List.mem_cons_of_mem _ hj)
    exact ⟨(Function.update_of_ne (ne_of_mem_of_not_mem hj hk) ..).trans hclosed, hquiet.close k⟩

/-! ## Views

A program does not keep track of the places of operations that are ready or completed.
-/

def Entry.bare : Entry κ α → Entry κ α
  | .arriving k a => .arriving k a
  | .ready _ a => .ready none a

@[ext] structure View (κ α : Type*) where
  arrivals : List (κ × α)
  work : List (Entry κ α)
  queue : κ → List α
  closed : κ → Bool
  completed : List α

variable {v w : View κ α} {k : κ} {a : α}

structure Represents (v : View κ α) (q : Store κ α) : Prop where
  arrivals : q.arrivals.Perm v.arrivals
  work : q.work.map Entry.bare = v.work
  queue : q.queue = v.queue
  closed : q.closed = v.closed
  completed : q.completed.map Prod.snd = v.completed

/-- From the store `q` a store of the view `v` is reached by what the labels say. -/
def Matched (q : Store κ α) (ls : List (Label κ α)) (v : View κ α) : Prop :=
  ∃ r, Leads q ls r ∧ Represents v r

theorem Represents.matched (h : Represents v q) : Matched q [] v := ⟨q, .refl, h⟩

theorem Matched.trans {ls' : List (Label κ α)} (h : Matched q ls v)
    (k : ∀ r, Represents v r → Matched r ls' w) : Matched q (ls ++ ls') w := by
  obtain ⟨r, hr, hv⟩ := h
  obtain ⟨r', hr', hw⟩ := k r hv
  exact ⟨r', hr.trans hr', hw⟩

def View.submit (v : View κ α) (k : κ) (a : α) : View κ α :=
  { v with arrivals := v.arrivals ++ [(k, a)] }

theorem Represents.submit (h : Represents v q) (hk : v.closed k = false) :
    Matched q [.submit k a] (v.submit k a) := by
  have hclosed : q.closed k = false := by rw [h.closed, hk]
  exact ⟨_, leads_outside hclosed, h.arrivals.append_right _, h.work, h.queue, h.closed,
    h.completed⟩

/-- `arrivals` are left. -/
def View.post (v : View κ α) (k : κ) (a : α) (arrivals : List (κ × α)) : View κ α :=
  { v with arrivals := arrivals, work := v.work ++ [.arriving k a] }

theorem Represents.post {arrivals : List (κ × α)} (h : Represents v q)
    (hperm : v.arrivals.Perm ((k, a) :: arrivals)) :
    Matched q [.post k a] (v.post k a arrivals) := by
  have hq : q.arrivals.Perm ((k, a) :: arrivals) := h.arrivals.trans hperm
  have hin : (k, a) ∈ q.arrivals := hq.symm.subset List.mem_cons_self
  refine ⟨_, leads_outside hin, ?_, ?_, h.queue, h.closed, h.completed⟩
  · have herase := hq.erase (k, a)
    rw [List.erase_cons_head] at herase
    exact herase
  · simp [next, View.post, h.work, Entry.bare]

omit [DecidableEq κ] [DecidableEq α] in
theorem Represents.mem_work (h : Represents v q) :
    .arriving k a ∈ q.work ↔ .arriving k a ∈ v.work := by
  rw [← h.work, List.mem_map]
  constructor
  · exact fun hin => ⟨_, hin, rfl⟩
  · rintro ⟨e, he, heq⟩
    cases e with
    | arriving j b => exact heq ▸ he
    | ready p b => cases heq

/-- Nothing is going to join the queue of `k`. -/
structure View.Quiet (v : View κ α) (k : κ) : Prop where
  arrivals : ∀ a, (k, a) ∉ v.arrivals
  work : ∀ a, .arriving k a ∉ v.work

omit [DecidableEq κ] [DecidableEq α] in
theorem Represents.quiet (h : Represents v q) (hk : v.Quiet k) : q.Quiet k where
  arrivals a ha := hk.arrivals a (h.arrivals.subset ha)
  work a ha := hk.work a (h.mem_work.mp ha)

def View.seed (v : View κ α) (k : κ) (a : α) : View κ α :=
  { v with queue := Function.update v.queue k [a] }

theorem Represents.seed (h : Represents v q) (hclosed : v.closed k = false)
    (hqueue : v.queue k = []) (hk : v.Quiet k) :
    Matched q [.seed k a] (v.seed k a) := by
  rw [← h.closed] at hclosed
  rw [← h.queue] at hqueue
  refine ⟨_, leads_outside ⟨hclosed, hqueue, h.quiet hk⟩, h.arrivals, h.work, ?_, h.closed,
    h.completed⟩
  rw [View.seed, ← h.queue]
  rfl

def View.execute (v : View κ α) (a : α) : View κ α :=
  { v with work := v.work ++ [.ready none a] }

theorem Represents.execute (h : Represents v q) : Matched q [.execute a] (v.execute a) := by
  refine ⟨_, leads_outside trivial, h.arrivals, ?_, h.queue, h.closed, h.completed⟩
  simp [next, View.execute, h.work, Entry.bare]

def View.enqueue (v : View κ α) (k : κ) (a : α) (rest : List (Entry κ α)) : View κ α :=
  { v with work := rest, queue := Function.update v.queue k (v.queue k ++ [a]) }

theorem Represents.enqueue {rest : List (Entry κ α)} (h : Represents v q)
    (hwork : v.work = .arriving k a :: rest) :
    Matched q [] (v.enqueue k a rest) := by
  obtain ⟨e, es, hq, he, hes⟩ := List.map_eq_cons_iff.mp (h.work.trans hwork)
  have hhead : e = .arriving k a := by
    cases e with
    | arriving j b => exact he
    | ready p b => cases he
  have hst : Enabled q (.enqueue k a es) := by rw [Enabled, hq, hhead]
  refine ⟨_, leads_step hst, h.arrivals, hes, ?_, h.closed, h.completed⟩
  rw [View.enqueue, ← h.queue]
  rfl

def View.run (v : View κ α) (a : α) (rest : List (Entry κ α)) : View κ α :=
  { v with work := rest, completed := v.completed ++ [a] }

theorem Represents.run {rest : List (Entry κ α)} (h : Represents v q)
    (hwork : v.work = .ready none a :: rest) :
    Matched q [] (v.run a rest) := by
  obtain ⟨e, es, hq, he, hes⟩ := List.map_eq_cons_iff.mp (h.work.trans hwork)
  obtain ⟨p, rfl⟩ : ∃ p, e = .ready p a := by
    cases e with
    | arriving j b => cases he
    | ready p b => exact ⟨p, by rw [(Entry.ready.inj he).2]⟩
  have hst : Enabled q (.run p a es) := hq
  refine ⟨_, leads_step hst, h.arrivals, hes, h.queue, h.closed, ?_⟩
  simp [next, View.run, h.completed]

theorem Represents.attempts {ks : List κ} (h : Represents v q) (hks : ks.Nodup) (n : κ → Nat) :
    Matched q []
      { v with
        queue := fun k => if k ∈ ks then (v.queue k).drop (n k) else v.queue k
        completed := v.completed ++ ks.flatMap fun k => (v.queue k).take (n k) } := by
  refine ⟨_, leads_attempts hks q n, h.arrivals, h.work, ?_, h.closed, ?_⟩
  · simp only [Store.attempts, h.queue]
  · simp [Store.attempts, h.queue, h.completed, List.map_flatMap, Function.comp_def]

/-- The queues of those places of the list that are `ready` are worked off until an operation is
not done. -/
def View.workOff (v : View κ α) (ks : List κ) (ready : κ → Bool) (done : α → Bool) : View κ α :=
  { v with
    queue := fun k => if k ∈ ks ∧ ready k = true then (v.queue k).dropWhile done else v.queue k
    completed := v.completed ++ ks.flatMap fun k =>
      if ready k then (v.queue k).takeWhile done else [] }

theorem Represents.workOff {ks : List κ} (h : Represents v q) (hks : ks.Nodup)
    (ready : κ → Bool) (done : α → Bool) : Matched q [] (v.workOff ks ready done) := by
  have hattempts := h.attempts hks fun k =>
    if ready k then (v.queue k).findIdx fun a => !done a else 0
  have htake (k : κ) :
      (v.queue k).take (if ready k then (v.queue k).findIdx fun a => !done a else 0) =
        if ready k then (v.queue k).takeWhile done else [] := by
    cases ready k with
    | true => exact List.takeWhile_eq_take_findIdx_not.symm
    | false => rfl
  have hdrop (k : κ) :
      (v.queue k).drop (if ready k then (v.queue k).findIdx fun a => !done a else 0) =
        if ready k then (v.queue k).dropWhile done else v.queue k := by
    cases ready k with
    | true => exact List.dropWhile_eq_drop_findIdx_not.symm
    | false => rfl
  simp only [htake, hdrop, ← ite_and] at hattempts
  exact hattempts

/-- The operations at the places of the list become ready. -/
def View.closes (v : View κ α) (ks : List κ) : View κ α :=
  { v with
    work := v.work ++ ks.flatMap fun k => (v.queue k).map (.ready none)
    queue := fun k => if k ∈ ks then [] else v.queue k
    closed := fun k => if k ∈ ks then true else v.closed k }

theorem Represents.closes {ks : List κ} (h : Represents v q) (hks : ks.Nodup)
    (hopen : ∀ k ∈ ks, v.closed k = false ∧ v.Quiet k) :
    Matched q [] (v.closes ks) := by
  have hq (k : κ) (hk : k ∈ ks) : q.closed k = false ∧ q.Quiet k := by
    rw [h.closed]
    exact ⟨(hopen k hk).1, h.quiet (hopen k hk).2⟩
  refine ⟨_, leads_closes hks q hq, h.arrivals, ?_, ?_, ?_, h.completed⟩
  · simp [Store.closes, View.closes, h.work, h.queue, List.map_flatMap, Function.comp_def,
      Entry.bare]
  · simp only [Store.closes, View.closes, h.queue]
  · simp only [Store.closes, View.closes, h.closed]

/-- The operations that are completed, each with its place, are among those submitted, and are
all of them if nothing waits; for a place they are completed in the order in which they are
posted. -/
structure Delivers (ls : List (Label κ α)) (v : View κ α) (completed : List (Option κ × α)) :
    Prop where
  operations : completed.map Prod.snd = v.completed
  once : completed.Subperm (ls.filterMap Label.submission)
  inOrder : ∀ p, ofPlace p completed <+: ls.filterMap (·.posted p)
  all : v.arrivals = [] → v.work = [] → (∀ k, v.queue k = []) →
    completed.Perm (ls.filterMap Label.submission)

theorem Reached.delivers (h : Reached ls q) (hv : Represents v q) :
    Delivers ls v q.completed where
  operations := hv.completed
  once := h.subperm
  inOrder := h.inOrder
  all harrivals hwork hqueue := by
    apply h.perm
    · exact (harrivals ▸ hv.arrivals).eq_nil
    · exact List.map_eq_nil_iff.mp (hv.work.trans hwork)
    · rw [hv.queue]
      exact hqueue

end SupportCompletionQueue
