import Tcode.SupportMachineInt
import Tcode.SupportSinglyLinked
import Tcode.SupportTransitionSystem

/-! # Intrusive queues

The queues of `slist` share the `next` pointers of all nodes. A flag notes an access through null.
What they are for is a list of nodes for each queue.
-/
namespace SlistQueue

open SupportMachineInt SupportSinglyLinked SupportTransitionSystem

abbrev NodeId := Nat

abbrev QueueId := Nat

structure Queue where
  head : Option NodeId
  tail : Option NodeId
  deriving DecidableEq, Repr

def Queue.null : Queue := ⟨none, none⟩

structure Memory where
  next : NodeId → Option NodeId
  queues : QueueId → Queue
  /-- The queues below have been constructed. -/
  made : Nat
  nullAccess : Bool

namespace Memory

def setNext (m : Memory) (n : NodeId) (p : Option NodeId) : Memory :=
  { m with next := Function.update m.next n p }

def setQueue (m : Memory) (i : QueueId) (q : Queue) : Memory :=
  { m with queues := Function.update m.queues i q }

/-- `_tail->next() = p`. -/
def setTailNext (m : Memory) (i : QueueId) (p : Option NodeId) : Memory :=
  match (m.queues i).tail with
  | none => { m with nullAccess := true }
  | some t => m.setNext t p

def pushBack (m : Memory) (i : QueueId) (n : NodeId) : Memory :=
  match (m.queues i).head with
  | none => (m.setQueue i ⟨some n, some n⟩).setNext n none
  | some h => ((m.setTailNext i (some n)).setQueue i ⟨some h, some n⟩).setNext n none

def pushFront (m : Memory) (i : QueueId) (n : NodeId) : Memory :=
  match (m.queues i).head with
  | none => m.setQueue i ⟨some n, some n⟩
  | some h => (m.setNext n (some h)).setQueue i ⟨some n, (m.queues i).tail⟩

def front (m : Memory) (i : QueueId) : Option NodeId := (m.queues i).head

def popFront (m : Memory) (i : QueueId) : Memory :=
  match (m.queues i).head with
  | none => m
  | some h =>
    if (m.queues i).tail = some h then m.setQueue i .null
    else (m.setQueue i ⟨m.next h, (m.queues i).tail⟩).setNext h none

def empty (m : Memory) (i : QueueId) : Bool := (m.queues i).head.isNone

/-- The loop of `size`, as long as it takes no more than the given number of turns. -/
def sizeFrom (next : NodeId → Option NodeId) : Nat → Int → Option NodeId → Option Int
  | _, sz, none => some sz
  | 0, _, some _ => none
  | turns + 1, sz, some n => sizeFrom next turns (toInt (sz + 1)) (next n)

def size (m : Memory) (i : QueueId) (turns : Nat) : Option Int :=
  sizeFrom m.next turns 0 (m.queues i).head

/-- `splice( q )`, where `q` is queue `j`. -/
def splice (m : Memory) (i j : QueueId) : Memory :=
  if m.empty j then m
  else
    let m :=
      if m.empty i then m.setQueue i (m.queues j)
      else
        (m.setTailNext i (m.queues j).head).setQueue i ⟨(m.queues i).head, (m.queues j).tail⟩
    m.setQueue j .null

/-- `queue( queue&& q )`. -/
def moveConstruct (m : Memory) (j : QueueId) : Memory :=
  { (m.setQueue m.made (m.queues j)).setQueue j .null with made := m.made + 1 }

/-- `operator=( queue&& q )`. -/
def moveAssign (m : Memory) (i j : QueueId) : Memory :=
  (m.setQueue i (m.queues j)).setQueue j .null

/-- No queue leads to the node. -/
def Free (m : Memory) (n : NodeId) : Prop := ∀ i < m.made, ¬ Follows m.next (m.queues i).head n

end Memory

inductive Op where
  | construct
  | pushBack (i : QueueId) (n : NodeId)
  | pushFront (i : QueueId) (n : NodeId)
  | popFront (i : QueueId)
  | splice (i j : QueueId)
  | moveConstruct (j : QueueId)
  | moveAssign (i j : QueueId)
  deriving DecidableEq, Repr

def exec (m : Memory) : Op → Memory
  | .construct => { m.setQueue m.made .null with made := m.made + 1 }
  | .pushBack i n => m.pushBack i n
  | .pushFront i n => m.pushFront i n
  | .popFront i => m.popFront i
  | .splice i j => m.splice i j
  | .moveConstruct j => m.moveConstruct j
  | .moveAssign i j => m.moveAssign i j

/-- A node that is pushed is in no queue, a queue is spliced into another one, and only an empty
one is assigned to. -/
def Enabled (m : Memory) : Op → Prop
  | .construct => True
  | .pushBack i n | .pushFront i n => i < m.made ∧ m.Free n
  | .popFront i | .moveConstruct i => i < m.made
  | .splice i j => i < m.made ∧ j < m.made ∧ i ≠ j
  | .moveAssign i j => i < m.made ∧ j < m.made ∧ m.empty i

def machine : System Memory Op := ⟨Enabled, exec⟩

def initial : Memory := ⟨fun _ => none, fun _ => .null, 0, false⟩

/-! ## Lists of nodes -/

structure Lists where
  list : QueueId → List NodeId
  made : Nat

namespace Lists

def set (l : Lists) (i : QueueId) (xs : List NodeId) : Lists :=
  { l with list := Function.update l.list i xs }

def exec (l : Lists) : Op → Lists
  | .construct => { l.set l.made [] with made := l.made + 1 }
  | .pushBack i n => l.set i (l.list i ++ [n])
  | .pushFront i n => l.set i (n :: l.list i)
  | .popFront i => l.set i (l.list i).tail
  | .splice i j => (l.set i (l.list i ++ l.list j)).set j []
  | .moveConstruct j => { (l.set l.made (l.list j)).set j [] with made := l.made + 1 }
  | .moveAssign i j => (l.set i (l.list j)).set j []

def Enabled (l : Lists) : Op → Prop
  | .construct => True
  | .pushBack i n | .pushFront i n => i < l.made ∧ ∀ j, n ∉ l.list j
  | .popFront i | .moveConstruct i => i < l.made
  | .splice i j => i < l.made ∧ j < l.made ∧ i ≠ j
  | .moveAssign i j => i < l.made ∧ j < l.made ∧ l.list i = []

def fifo : System Lists Op := ⟨Enabled, exec⟩

def initial : Lists := ⟨fun _ => [], 0⟩

end Lists

variable {m m' : Memory} {l : Lists} {next next' : NodeId → Option NodeId} {q : Queue}
  {xs aside aside' : List NodeId} {i j : QueueId} {n t : NodeId} {ops : List Op}

@[simp] theorem list_set_self (l : Lists) (i : QueueId) (xs : List NodeId) :
    (l.set i xs).list i = xs := Function.update_self ..

theorem list_set_ne (hj : j ≠ i) (xs : List NodeId) : (l.set i xs).list j = l.list j :=
  Function.update_of_ne hj ..

/-! ## Queues and their lists -/

/-- Following the links from `_head` visits the list, whose last node is `_tail`. -/
structure Holds (next : NodeId → Option NodeId) (q : Queue) (xs : List NodeId) : Prop where
  head : q.head = xs.head?
  tail : q.tail = xs.getLast?
  segment : Segment next xs none
  nodup : xs.Nodup

/-- Each queue has its list, no node is in two of them, and those in none lead nowhere, but for
nodes `aside` that have been taken out of a queue and come into another one. -/
structure Represents (m : Memory) (l : Lists) (aside : List NodeId) : Prop where
  made : m.made = l.made
  holds : ∀ i, Holds m.next (m.queues i) (l.list i)
  apart : ∀ i j n, n ∈ l.list i → n ∈ l.list j → i = j
  free : ∀ n, n ∉ aside → (∀ i, n ∉ l.list i) → m.next n = none
  unmade : ∀ i, l.made ≤ i → l.list i = []
  noNullAccess : m.nullAccess = false

theorem holds_null (next : NodeId → Option NodeId) : Holds next .null [] :=
  ⟨rfl, rfl, trivial, List.nodup_nil⟩

theorem Holds.eq_null (h : Holds next q []) : q = .null := by
  obtain ⟨head, tail⟩ := q
  rw [Queue.null, Queue.mk.injEq]
  exact ⟨h.head, h.tail⟩

theorem Holds.congr (h : Holds next q xs) (hlinks : ∀ x ∈ xs, next' x = next x) :
    Holds next' q xs := ⟨h.head, h.tail, h.segment.congr hlinks, h.nodup⟩

theorem Holds.head_eq_none_iff (h : Holds next q xs) : q.head = none ↔ xs = [] := by
  rw [h.head, List.head?_eq_none_iff]

/-- The list of a queue whose `_tail` is known. -/
theorem Holds.split_last (h : Holds next q xs) (ht : q.tail = some t) :
    ∃ init, xs = init ++ [t] ∧ t ∉ init := by
  rw [h.tail] at ht
  obtain ⟨init, rfl⟩ := List.getLast?_eq_some_iff.mp ht
  refine ⟨init, rfl, fun hmem => ?_⟩
  exact (List.nodup_append.mp h.nodup).2.2 t hmem t (List.mem_singleton_self t) rfl

theorem Holds.exists_tail (h : Holds next q xs) (hne : xs ≠ []) : ∃ t, q.tail = some t := by
  rw [h.tail]
  exact ⟨_, List.getLast?_eq_some_getLast hne⟩

theorem Holds.ne_nil (h : Holds next q xs) (hn : q.head = some n) : xs ≠ [] := by
  rw [Ne, ← h.head_eq_none_iff, hn]
  exact Option.some_ne_none n

theorem Holds.tail_mem (h : Holds next q xs) (ht : q.tail = some t) : t ∈ xs :=
  List.mem_of_getLast? (h.tail.symm.trans ht)

/-- The last node of a queue is made to lead to another list. -/
theorem Holds.join {ys : List NodeId} (h : Holds next q xs) (ht : q.tail = some t)
    (hys : Segment next ys none) (hnodup : ys.Nodup) (hne : ys ≠ []) (hapart : xs.Disjoint ys) :
    Holds (Function.update next t ys.head?) ⟨q.head, ys.getLast?⟩ (xs ++ ys) := by
  have hmem := h.tail_mem ht
  obtain ⟨init, rfl, htinit⟩ := h.split_last ht
  refine ⟨?_, ?_, ?_, h.nodup.append hnodup hapart⟩
  · rw [List.head?_append_of_ne_nil _ (List.ne_nil_of_mem hmem)]
    exact h.head
  · rw [List.getLast?_append_of_ne_nil _ hne]
  · exact h.segment.join hys htinit (hapart hmem)

/-- One queue gets another list, and no link of the others is changed. -/
theorem Represents.change (h : Represents m l aside) (hi : i < l.made)
    (hqueues : m'.queues = Function.update m.queues i q) (hmade : m'.made = m.made)
    (hnull : m'.nullAccess = false) (hnew : Holds m'.next q xs)
    (hothers : ∀ j ≠ i, ∀ x ∈ l.list j, m'.next x = m.next x)
    (hapart : ∀ j ≠ i, ∀ x ∈ l.list j, x ∉ xs)
    (hfree : ∀ n, n ∉ aside' → n ∉ xs → (∀ j ≠ i, n ∉ l.list j) → m'.next n = none) :
    Represents m' (l.set i xs) aside' := by
  refine ⟨hmade.trans h.made, fun j => ?_, fun j k n hj hk => ?_, fun n haside hn => ?_,
    fun j hj => ?_, hnull⟩
  · rw [hqueues]
    by_cases hji : j = i
    · rw [hji, Function.update_self, list_set_self]
      exact hnew
    · rw [Function.update_of_ne hji, list_set_ne hji]
      exact (h.holds j).congr (hothers j hji)
  · by_cases hji : j = i <;> by_cases hki : k = i
    · rw [hji, hki]
    · rw [hji, list_set_self] at hj
      rw [list_set_ne hki] at hk
      exact absurd hj (hapart k hki n hk)
    · rw [hki, list_set_self] at hk
      rw [list_set_ne hji] at hj
      exact absurd hk (hapart j hji n hj)
    · rw [list_set_ne hji] at hj
      rw [list_set_ne hki] at hk
      exact h.apart j k n hj hk
  · have hself := hn i
    rw [list_set_self] at hself
    refine hfree n haside hself fun j hj => ?_
    rw [← list_set_ne hj xs]
    exact hn j
  · rw [list_set_ne (Nat.ne_of_gt (Nat.lt_of_lt_of_le hi hj))]
    exact h.unmade j hj

/-- A node that no queue leads to is in no list. -/
theorem Represents.free_iff (h : Represents m l []) : m.Free n ↔ ∀ i, n ∉ l.list i := by
  have hfollows (i : QueueId) : Follows m.next (m.queues i).head n ↔ n ∈ l.list i := by
    rw [(h.holds i).head]
    exact (h.holds i).segment.follows_iff
  constructor
  · intro hfree i hmem
    rcases Nat.lt_or_ge i m.made with hi | hi
    · exact hfree i hi ((hfollows i).mpr hmem)
    · rw [h.unmade i (h.made ▸ hi)] at hmem
      cases hmem
  · exact fun hnone i _ hf => hnone i ((hfollows i).mp hf)

/-! ## Each operation -/

theorem setTailNext_eq (ht : (m.queues i).tail = some t) (p : Option NodeId) :
    m.setTailNext i p = m.setNext t p := by
  rw [Memory.setTailNext, ht]

/-- A node that leads nowhere is not changed when its link is cleared. -/
theorem update_none (hn : next n = none) : Function.update next n none = next :=
  Function.update_eq_self_iff.mpr hn.symm

/-- A queue gets nodes that were in no queue, or loses some, which then lead nowhere. -/
theorem Represents.change_list (h : Represents m l []) (hi : i < l.made)
    (hqueues : m'.queues = Function.update m.queues i q) (hmade : m'.made = m.made)
    (hnull : m'.nullAccess = false) (hnew : Holds m'.next q xs)
    (hxs : ∀ x ∈ xs, x ∈ l.list i ∨ ∀ j, x ∉ l.list j)
    (hlinks : ∀ x, x ∉ l.list i → x ∉ xs → m'.next x = m.next x)
    (hout : ∀ x ∈ l.list i, x ∉ xs → m'.next x = none) : Represents m' (l.set i xs) [] := by
  have hapart : ∀ j ≠ i, ∀ x ∈ l.list j, x ∉ l.list i ∧ x ∉ xs := by
    intro j hj x hx
    have hnot : x ∉ l.list i := fun hmem => hj (h.apart j i x hx hmem)
    exact ⟨hnot, fun hmem => (hxs x hmem).elim hnot fun hnone => hnone j hx⟩
  refine h.change hi hqueues hmade hnull hnew (fun j hj x hx => ?_)
    (fun j hj x hx => (hapart j hj x hx).2) fun x _ hx hothers => ?_
  · exact hlinks x (hapart j hj x hx).1 (hapart j hj x hx).2
  · by_cases hold : x ∈ l.list i
    · exact hout x hold hx
    · rw [hlinks x hold hx]
      refine h.free x List.not_mem_nil fun j hj => ?_
      by_cases hji : j = i
      · exact hold (hji ▸ hj)
      · exact hothers j hji hj

/-- An empty queue gets its first node. -/
theorem Represents.first (h : Represents m l []) (hi : i < l.made) (hnil : l.list i = [])
    (hn : ∀ j, n ∉ l.list j) : Represents (m.setQueue i ⟨some n, some n⟩) (l.set i [n]) [] := by
  have hnull := h.free n List.not_mem_nil hn
  refine h.change_list hi rfl rfl h.noNullAccess
    ⟨rfl, rfl, ⟨hnull, trivial⟩, List.nodup_singleton n⟩ (fun x hx => ?_) (fun _ _ _ => rfl)
    fun x hx => ?_
  · rw [List.mem_singleton.mp hx]
    exact Or.inr hn
  · rw [hnil] at hx
    cases hx

theorem Represents.pushBack (h : Represents m l []) (hi : i < l.made) (hn : ∀ j, n ∉ l.list j) :
    Represents (m.pushBack i n) (l.set i (l.list i ++ [n])) [] := by
  have hq := h.holds i
  have hnull := h.free n List.not_mem_nil hn
  cases hhead : (m.queues i).head with
  | none =>
    have hnil := hq.head_eq_none_iff.mp hhead
    have hpush : m.pushBack i n = m.setQueue i ⟨some n, some n⟩ := by
      simp only [Memory.pushBack, hhead, Memory.setNext, Memory.setQueue, update_none hnull]
    rw [hpush, hnil]
    exact h.first hi hnil hn
  | some first =>
    obtain ⟨t, ht⟩ := hq.exists_tail (hq.ne_nil hhead)
    have hmem := hq.tail_mem ht
    have htn : t ≠ n := fun heq => hn i (heq ▸ hmem)
    have hnext : Function.update m.next t (some n) n = none := by
      rw [Function.update_of_ne htn.symm, hnull]
    have hpush : m.pushBack i n = (m.setNext t (some n)).setQueue i ⟨some first, some n⟩ := by
      simp only [Memory.pushBack, hhead, setTailNext_eq ht, Memory.setNext, Memory.setQueue,
        update_none hnext]
    have hone : Segment m.next [n] none := ⟨hnull, trivial⟩
    have hjoin := hq.join ht hone (List.nodup_singleton n) (List.cons_ne_nil n [])
      (List.disjoint_singleton.mpr (hn i))
    rw [hhead] at hjoin
    rw [hpush]
    refine h.change_list hi rfl rfl h.noNullAccess hjoin (fun x hx => ?_) (fun x hx _ => ?_)
      fun x hx hout => absurd (List.mem_append_left [n] hx) hout
    · rcases List.mem_append.mp hx with hx | hx
      · exact Or.inl hx
      · rw [List.mem_singleton.mp hx]
        exact Or.inr hn
    · exact Function.update_of_ne (fun heq : x = t => hx (heq ▸ hmem)) ..

theorem Represents.pushFront (h : Represents m l []) (hi : i < l.made)
    (hn : ∀ j, n ∉ l.list j) : Represents (m.pushFront i n) (l.set i (n :: l.list i)) [] := by
  have hq := h.holds i
  cases hhead : (m.queues i).head with
  | none =>
    have hnil := hq.head_eq_none_iff.mp hhead
    simp only [Memory.pushFront, hhead]
    rw [hnil]
    exact h.first hi hnil hn
  | some first =>
    have hnew : Holds (Function.update m.next n (some first)) ⟨some n, (m.queues i).tail⟩
        (n :: l.list i) := by
      refine ⟨rfl, ?_, ⟨?_, hq.segment.update_of_notMem (hn i) _⟩, ?_⟩
      · rw [hq.tail, List.getLast?_cons_of_ne_nil (hq.ne_nil hhead)]
      · rw [Option.or_none, ← hq.head, hhead]
        exact Function.update_self ..
      · exact List.nodup_cons.mpr ⟨hn i, hq.nodup⟩
    simp only [Memory.pushFront, hhead]
    refine h.change_list hi rfl rfl h.noNullAccess hnew (fun x hx => ?_) (fun x _ hx => ?_)
      fun x hx hout => absurd (List.mem_cons_of_mem n hx) hout
    · rcases List.mem_cons.mp hx with rfl | hx
      · exact Or.inr hn
      · exact Or.inl hx
    · exact Function.update_of_ne (fun heq : x = n => hx (heq ▸ List.mem_cons_self)) ..

theorem set_eq_self (hxs : l.list i = xs) : l.set i xs = l := by
  rw [Lists.set, ← hxs, Function.update_eq_self]

/-- The node that is taken out leads nowhere. -/
theorem Represents.popFront (h : Represents m l []) (hi : i < l.made) :
    Represents (m.popFront i) (l.set i (l.list i).tail) [] := by
  have hq := h.holds i
  cases hlist : l.list i with
  | nil =>
    have hhead := hq.head_eq_none_iff.mpr hlist
    simp only [Memory.popFront, hhead]
    rwa [List.tail_nil, set_eq_self hlist]
  | cons first rest =>
    have hhead := hq.head
    have htail := hq.tail
    have hnodup := hq.nodup
    obtain ⟨hnext, hsegment⟩ : m.next first = rest.head?.or none ∧ Segment m.next rest none := by
      have hseg := hq.segment
      rwa [hlist] at hseg
    rw [hlist] at hhead htail hnodup
    rw [List.head?_cons] at hhead
    rw [Option.or_none] at hnext
    obtain ⟨hfirst, hrest⟩ := List.nodup_cons.mp hnodup
    have hxs : ∀ x ∈ rest, x ∈ l.list i ∨ ∀ j, x ∉ l.list j := fun x hx =>
      Or.inl (hlist ▸ List.mem_cons_of_mem first hx)
    have hout {x : NodeId} (hx : x ∈ l.list i) (hnot : x ∉ rest) : x = first := by
      rw [hlist] at hx
      exact (List.mem_cons.mp hx).resolve_right hnot
    rw [List.tail_cons]
    simp only [Memory.popFront, hhead]
    cases hr : rest with
    | nil =>
      rw [if_pos (by rw [htail, hr]; rfl)]
      rw [hr] at hxs hout hnext
      refine h.change_list hi rfl rfl h.noNullAccess (holds_null m.next) hxs (fun _ _ _ => rfl)
        fun x hx hnot => ?_
      rw [hout hx hnot]
      exact hnext
    | cons second more =>
      have hne : (m.queues i).tail ≠ some first := by
        rw [htail, hr, List.getLast?_cons_cons]
        intro heq
        exact hfirst (hr ▸ List.mem_of_getLast? heq)
      have hnew : Holds (Function.update m.next first none) ⟨m.next first, (m.queues i).tail⟩
          rest := by
        refine ⟨hnext, ?_, hsegment.update_of_notMem hfirst none, hrest⟩
        rw [htail, hr, List.getLast?_cons_cons]
      rw [if_neg hne, ← hr]
      refine h.change_list hi rfl rfl h.noNullAccess hnew hxs (fun x hx _ => ?_)
        fun x hx hnot => ?_
      · refine Function.update_of_ne (fun heq : x = first => hx ?_) ..
        rw [heq, hlist]
        exact List.mem_cons_self
      · rw [hout hx hnot]
        exact Function.update_self ..

/-! ## A list that goes to another queue -/

/-- The nodes of a queue are taken out of it all at once. -/
theorem Represents.take (h : Represents m l []) (hj : j < l.made) :
    Represents (m.setQueue j .null) (l.set j []) (l.list j) := by
  refine h.change hj rfl rfl h.noNullAccess (holds_null m.next) (fun _ _ _ _ => rfl)
    (fun _ _ _ _ => List.not_mem_nil) fun x haside _ hothers => ?_
  refine h.free x List.not_mem_nil fun k hk => ?_
  by_cases hkj : k = j
  · exact haside (hkj ▸ hk)
  · exact hothers k hkj hk

/-- They go behind the list of another queue. -/
theorem Represents.put (h : Represents m l []) (hi : i < l.made) (hj : j < l.made) (hij : i ≠ j)
    (hqueues : m'.queues = Function.update (Function.update m.queues i q) j .null)
    (hmade : m'.made = m.made) (hnull : m'.nullAccess = false)
    (hnew : Holds m'.next q (l.list i ++ l.list j))
    (hlinks : ∀ x, x ∉ l.list i → m'.next x = m.next x) :
    Represents m' ((l.set i (l.list i ++ l.list j)).set j []) [] := by
  have hcomm : (l.set i (l.list i ++ l.list j)).set j [] =
      (l.set j []).set i (l.list i ++ l.list j) := by
    rw [Lists.set, Lists.set, Lists.set, Lists.set, Function.update_comm hij]
  rw [Function.update_comm hij] at hqueues
  have hapart : ∀ k ≠ i, ∀ x ∈ (l.set j []).list k, x ∉ l.list i ∧ x ∉ l.list j := by
    intro k hki x hx
    by_cases hkj : k = j
    · rw [hkj, list_set_self] at hx
      cases hx
    · rw [list_set_ne hkj] at hx
      exact ⟨fun hmem => hki (h.apart k i x hx hmem), fun hmem => hkj (h.apart k j x hx hmem)⟩
  rw [hcomm]
  refine (h.take hj).change hi hqueues hmade hnull hnew (fun k hk x hx => ?_)
    (fun k hk x hx hmem => ?_) fun x _ hx hothers => ?_
  · exact hlinks x (hapart k hk x hx).1
  · exact (List.mem_append.mp hmem).elim (hapart k hk x hx).1 (hapart k hk x hx).2
  · have hxi : x ∉ l.list i := fun hmem => hx (List.mem_append_left _ hmem)
    have hxj : x ∉ l.list j := fun hmem => hx (List.mem_append_right _ hmem)
    rw [hlinks x hxi]
    refine h.free x List.not_mem_nil fun k hk => ?_
    by_cases hki : k = i
    · exact hxi (hki ▸ hk)
    · by_cases hkj : k = j
      · exact hxj (hkj ▸ hk)
      · exact hothers k hki (by rwa [list_set_ne hkj])

theorem Represents.moveAssign (h : Represents m l []) (hi : i < l.made) (hj : j < l.made)
    (hempty : l.list i = []) :
    Represents (m.moveAssign i j) ((l.set i (l.list j)).set j []) [] := by
  by_cases hij : i = j
  · subst hij
    have hself : (m.setQueue i (m.queues i)).setQueue i .null = m.setQueue i .null := by
      simp only [Memory.setQueue, Function.update_eq_self]
    have htake := h.take hi
    rw [hempty] at htake
    rw [Memory.moveAssign, hself, set_eq_self rfl]
    exact htake
  · have hnew : Holds (m.moveAssign i j).next (m.queues j) (l.list i ++ l.list j) := by
      rw [hempty]
      exact h.holds j
    have hput : Represents (m.moveAssign i j) ((l.set i (l.list i ++ l.list j)).set j []) [] :=
      h.put hi hj hij rfl rfl h.noNullAccess hnew fun _ _ => rfl
    rwa [hempty] at hput

/-- A new queue holds the empty list that no queue held before. -/
theorem Represents.construct (h : Represents m l []) :
    Represents (exec m .construct) (l.exec .construct) [] := by
  have hunmade := h.unmade l.made (Nat.le_refl l.made)
  have hnew := h.holds l.made
  rw [hunmade] at hnew
  have hqueue : m.queues m.made = .null := by
    rw [h.made]
    exact hnew.eq_null
  have hmemory : exec m .construct = { m with made := m.made + 1 } := by
    rw [exec, Memory.setQueue, ← hqueue, Function.update_eq_self]
  have hlists : l.exec .construct = { l with made := l.made + 1 } := by
    rw [Lists.exec, set_eq_self hunmade]
  rw [hmemory, hlists]
  exact ⟨congrArg Nat.succ h.made, h.holds, h.apart, h.free,
    fun i hi => h.unmade i (Nat.le_of_succ_le hi), h.noNullAccess⟩

/-- As if a new queue were assigned to. -/
theorem Represents.moveConstruct (h : Represents m l []) (hj : j < l.made) :
    Represents (m.moveConstruct j) (l.exec (.moveConstruct j)) [] := by
  have hunmade := h.unmade l.made (Nat.le_refl l.made)
  have hnew := h.construct
  have hne : j ≠ m.made := Nat.ne_of_lt (h.made ▸ hj)
  have hne' : j ≠ l.made := Nat.ne_of_lt hj
  have hmemory : m.moveConstruct j = (exec m .construct).moveAssign m.made j := by
    simp only [Memory.moveConstruct, Memory.moveAssign, exec, Memory.setQueue,
      Function.update_idem, Function.update_of_ne hne]
  have hlists : l.exec (.moveConstruct j) =
      ((l.exec .construct).set l.made ((l.exec .construct).list j)).set j [] := by
    simp only [Lists.exec, Lists.set, Function.update_idem, Function.update_of_ne hne']
  rw [hmemory, hlists, h.made]
  refine hnew.moveAssign (Nat.lt_succ_self l.made) (Nat.lt_succ_of_lt hj) ?_
  rw [Lists.exec]
  exact Function.update_self ..

theorem Represents.splice (h : Represents m l []) (hi : i < l.made) (hj : j < l.made)
    (hij : i ≠ j) :
    Represents (m.splice i j) ((l.set i (l.list i ++ l.list j)).set j []) [] := by
  have hqi := h.holds i
  have hqj := h.holds j
  by_cases hj0 : l.list j = []
  · have hsplice : m.splice i j = m := by
      rw [Memory.splice, Memory.empty, hqj.head_eq_none_iff.mpr hj0]
      rfl
    have hsame : (l.set i (l.list i ++ l.list j)).set j [] = l := by
      rw [hj0, List.append_nil, set_eq_self rfl, set_eq_self hj0]
    rwa [hsplice, hsame]
  · have hjne : m.empty j = false := by
      rw [Memory.empty, Option.isNone_eq_false_iff, Option.isSome_iff_ne_none]
      exact mt hqj.head_eq_none_iff.mp hj0
    by_cases hi0 : l.list i = []
    · have hsplice : m.splice i j = m.moveAssign i j := by
        have hempty : m.empty i = true := by
          rw [Memory.empty, hqi.head_eq_none_iff.mpr hi0]
          rfl
        rw [Memory.splice, hjne, hempty]
        rfl
      rw [hsplice, hi0, List.nil_append]
      exact h.moveAssign hi hj hi0
    · have hine : m.empty i = false := by
        rw [Memory.empty, Option.isNone_eq_false_iff, Option.isSome_iff_ne_none]
        exact mt hqi.head_eq_none_iff.mp hi0
      obtain ⟨t, ht⟩ := hqi.exists_tail hi0
      have hmem := hqi.tail_mem ht
      have hsplice : m.splice i j =
          ((m.setNext t (m.queues j).head).setQueue i
            ⟨(m.queues i).head, (m.queues j).tail⟩).setQueue j .null := by
        simp only [Memory.splice, hjne, hine, setTailNext_eq ht, Bool.false_eq_true, if_false]
      rw [hsplice]
      refine h.put hi hj hij rfl rfl h.noNullAccess ?_ fun x hx => ?_
      · have hapart : (l.list i).Disjoint (l.list j) := fun x hx hx' => hij (h.apart i j x hx hx')
        have hjoin := hqi.join ht hqj.segment hqj.nodup hj0 hapart
        rwa [← hqj.head, ← hqj.tail] at hjoin
      · exact Function.update_of_ne (fun heq : x = t => hx (heq ▸ hmem)) ..

/-! ## Every run -/

theorem represents_initial : Represents initial .initial [] :=
  ⟨rfl, fun _ => holds_null _, nofun, fun _ _ _ => rfl, fun _ _ => rfl, rfl⟩

theorem Represents.enabled_iff (h : Represents m l []) (op : Op) : Enabled m op ↔ l.Enabled op := by
  have hfree (n : NodeId) : m.Free n ↔ ∀ j, n ∉ l.list j := h.free_iff
  have hempty (i : QueueId) : m.empty i = true ↔ l.list i = [] :=
    Option.isNone_iff_eq_none.trans (h.holds i).head_eq_none_iff
  cases op with
  | construct => rfl
  | pushBack i n | pushFront i n => rw [Enabled, Lists.Enabled, h.made, hfree]
  | popFront i | moveConstruct i => rw [Enabled, Lists.Enabled, h.made]
  | splice i j => rw [Enabled, Lists.Enabled, h.made]
  | moveAssign i j => rw [Enabled, Lists.Enabled, h.made, hempty]

theorem Represents.exec (h : Represents m l []) {op : Op} (hen : l.Enabled op) :
    Represents (exec m op) (l.exec op) [] := by
  cases op with
  | construct => exact h.construct
  | pushBack i n => exact h.pushBack hen.1 hen.2
  | pushFront i n => exact h.pushFront hen.1 hen.2
  | popFront i => exact h.popFront hen
  | splice i j => exact h.splice hen.1 hen.2.1 hen.2.2
  | moveConstruct j => exact h.moveConstruct hen
  | moveAssign i j => exact h.moveAssign hen.1 hen.2.1 hen.2.2

/-- A run of the queues is a run of their lists. -/
theorem Represents.run (h : Represents m l [])
    (hrun : machine.ValidTrace (fun _ _ => True) m ops) :
    Lists.fifo.ValidTrace (fun _ _ => True) l ops ∧
      Represents (machine.runTrace m ops) (Lists.fifo.runTrace l ops) [] := by
  induction ops generalizing m l with
  | nil => exact ⟨trivial, h⟩
  | cons op ops ih =>
    obtain ⟨hop, -, hrest⟩ := hrun
    have hen : l.Enabled op := (h.enabled_iff op).mp hop
    obtain ⟨hvalid, hlast⟩ := ih (h.exec hen) hrest
    exact ⟨⟨hen, trivial, hvalid⟩, hlast⟩

/-- And each run of the lists is one of the queues. -/
theorem Represents.run_of_lists (h : Represents m l [])
    (hrun : Lists.fifo.ValidTrace (fun _ _ => True) l ops) :
    machine.ValidTrace (fun _ _ => True) m ops := by
  induction ops generalizing m l with
  | nil => trivial
  | cons op ops ih =>
    obtain ⟨hop, -, hrest⟩ := hrun
    exact ⟨(h.enabled_iff op).mpr hop, trivial, ih (h.exec hop) hrest⟩

/-! ## What the queues show -/

/-- `size` counts the nodes in an `int`. -/
theorem sizeFrom_eq (h : Segment next xs none) (turns : Nat) {sz : Int} (hsz : toInt sz = sz) :
    Memory.sizeFrom next turns sz xs.head? =
      if xs.length ≤ turns then some (toInt (sz + xs.length)) else none := by
  induction xs generalizing turns sz with
  | nil => simp [Memory.sizeFrom, hsz]
  | cons x xs ih =>
    obtain ⟨hnext, htail⟩ := h
    rw [Option.or_none] at hnext
    cases turns with
    | zero => simp [Memory.sizeFrom]
    | succ turns =>
      have hagain : toInt (toInt (sz + 1)) = toInt (sz + 1) := by
        unfold toInt
        omega
      have hcount : sz + 1 + (xs.length : Int) = sz + (x :: xs).length := by
        rw [List.length_cons]
        push_cast
        omega
      rw [List.head?_cons, Memory.sizeFrom, hnext, ih htail turns hagain, toInt_toInt_add, hcount]
      simp only [List.length_cons, Nat.succ_le_succ_iff]

theorem Represents.size_eq (h : Represents m l []) (i : QueueId) (turns : Nat) :
    m.size i turns =
      if (l.list i).length ≤ turns then some (toInt (l.list i).length) else none := by
  rw [Memory.size, (h.holds i).head, sizeFrom_eq (h.holds i).segment turns rfl, Int.zero_add]

/-- What the functions of a queue return is what the list says, as far as an `int` counts it, and
a node that is popped leads nowhere. -/
structure Agrees (m : Memory) (l : Lists) : Prop where
  represents : Represents m l []
  visits : ∀ i n, Follows m.next (m.queues i).head n ↔ n ∈ l.list i
  front : ∀ i, m.front i = (l.list i).head?
  empty : ∀ i, m.empty i = true ↔ l.list i = []
  size : ∀ i turns, (l.list i).length < 2147483648 → (l.list i).length ≤ turns →
    m.size i turns = some ((l.list i).length : Int)
  popped : ∀ i < m.made, ∀ n ∈ m.front i, (m.popFront i).next n = none

theorem Represents.agrees (h : Represents m l []) : Agrees m l := by
  refine ⟨h, fun i n => ?_, fun i => (h.holds i).head, fun i => ?_, fun i turns hlt hle => ?_,
    fun i hi n hn => ?_⟩
  · rw [(h.holds i).head]
    exact (h.holds i).segment.follows_iff
  · exact Option.isNone_iff_eq_none.trans (h.holds i).head_eq_none_iff
  · rw [h.size_eq, if_pos hle, toInt_of_range (by omega) (by omega)]
  · have hpop := h.popFront (h.made ▸ hi)
    refine hpop.free n List.not_mem_nil fun j hj => ?_
    have hfront : (l.list i).head? = some n := (h.holds i).head.symm.trans hn
    obtain ⟨rest, hrest⟩ := List.head?_eq_some_iff.mp hfront
    have hnodup := (h.holds i).nodup
    rw [hrest] at hnodup hj
    by_cases hji : j = i
    · rw [hji, list_set_self] at hj
      exact (List.nodup_cons.mp hnodup).1 hj
    · rw [list_set_ne hji] at hj
      exact hji (h.apart j i n hj (hrest ▸ List.mem_cons_self))

/-- The queues refine lists: every run does with the lists what it says, and shows it. -/
theorem queues_refine (hrun : machine.ValidTrace (fun _ _ => True) initial ops) :
    Lists.fifo.ValidTrace (fun _ _ => True) .initial ops ∧
      Agrees (machine.runTrace initial ops) (Lists.fifo.runTrace .initial ops) := by
  obtain ⟨hvalid, hlast⟩ := represents_initial.run hrun
  exact ⟨hvalid, hlast.agrees⟩

/-- Nodes that go from one queue to the other and back. -/
def passing : List Op :=
  [.construct, .construct, .pushBack 0 1, .pushFront 0 2, .splice 1 0, .popFront 1, .pushBack 1 2,
    .moveConstruct 1, .moveAssign 0 2]

theorem passing_valid : Lists.fifo.ValidTrace (fun _ _ => True) .initial passing := by
  simp only [System.ValidTrace, passing, Lists.fifo, Lists.Enabled, Lists.exec, Lists.set,
    Lists.initial, Function.update_apply]
  grind

theorem queues_refine_passing :
    Agrees (machine.runTrace initial passing) (Lists.fifo.runTrace .initial passing) :=
  (queues_refine (represents_initial.run_of_lists passing_valid)).2

/-! ## Queues that an int does not count -/

/-- A queue that has got the nodes below `k`. -/
structure Filled (l : Lists) (k : Nat) : Prop where
  made : 0 < l.made
  length : (l.list 0).length = k
  first : ∀ n ∈ l.list 0, n < k
  others : ∀ i ≠ 0, l.list i = []

theorem Filled.push {k : Nat} (h : Filled l k) :
    l.Enabled (.pushBack 0 k) ∧ Filled (l.exec (.pushBack 0 k)) (k + 1) := by
  have hother (i : QueueId) (hi : i ≠ 0) : (l.exec (.pushBack 0 k)).list i = [] :=
    (list_set_ne hi _).trans (h.others i hi)
  have hself : (l.exec (.pushBack 0 k)).list 0 = l.list 0 ++ [k] := list_set_self l 0 _
  refine ⟨⟨h.made, fun j hj => ?_⟩, h.made, ?_, fun n hn => ?_, hother⟩
  · by_cases hj0 : j = 0
    · exact Nat.lt_irrefl k (h.first k (hj0 ▸ hj))
    · rw [h.others j hj0] at hj
      cases hj
  · rw [hself, List.length_append, h.length, List.length_singleton]
  · rw [hself] at hn
    rcases List.mem_append.mp hn with hn | hn
    · exact Nat.lt_succ_of_lt (h.first n hn)
    · rw [List.mem_singleton.mp hn]
      exact Nat.lt_succ_self k

/-- Pushes of `n` nodes from `k` on. -/
def pushes (k n : Nat) : List Op := (List.range' k n).map (.pushBack 0)

theorem Filled.pushes {k : Nat} (h : Filled l k) (n : Nat) :
    Lists.fifo.ValidTrace (fun _ _ => True) l (pushes k n) ∧
      Filled (Lists.fifo.runTrace l (SlistQueue.pushes k n)) (k + n) := by
  induction n generalizing l k with
  | zero => exact ⟨trivial, h⟩
  | succ n ih =>
    obtain ⟨hen, hnext⟩ := h.push
    obtain ⟨hvalid, hlast⟩ := ih hnext
    rw [SlistQueue.pushes, List.range'_succ, List.map_cons]
    rw [Nat.add_right_comm] at hlast
    exact ⟨⟨hen, trivial, hvalid⟩, hlast⟩

theorem filled_run (n : Nat) :
    Lists.fifo.ValidTrace (fun _ _ => True) .initial (.construct :: pushes 0 n) ∧
      Filled (Lists.fifo.runTrace .initial (.construct :: pushes 0 n)) n := by
  have hfirst : Filled (Lists.initial.exec .construct) 0 :=
    ⟨Nat.one_pos, rfl, nofun, fun i hi => Function.update_of_ne hi ..⟩
  obtain ⟨hvalid, hlast⟩ := hfirst.pushes n
  rw [Nat.zero_add] at hlast
  exact ⟨⟨trivial, trivial, hvalid⟩, hlast⟩

/-- With 2^31 nodes the size is negative. -/
theorem size_wraps :
    ¬ ∀ ops, machine.ValidTrace (fun _ _ => True) initial ops → ∀ i, ∃ turns,
      (machine.runTrace initial ops).size i turns =
        some (((Lists.fifo.runTrace .initial ops).list i).length : Int) := by
  intro hall
  obtain ⟨hvalid, hfilled⟩ := filled_run 2147483648
  have hrun := represents_initial.run_of_lists hvalid
  have hrepresents := (represents_initial.run hrun).2
  obtain ⟨turns, hsize⟩ := hall _ hrun 0
  have hlength := hfilled.length
  rw [hrepresents.size_eq, hlength] at hsize
  generalize hlarge : (2147483648 : Nat) = large at hsize
  split_ifs at hsize with hturns
  have hcount := Option.some.inj hsize
  have hrange := toInt_range large
  omega

end SlistQueue
