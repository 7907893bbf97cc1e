import Tcode.SupportListSums
import Tcode.SupportMachineInt
import Tcode.TimerOrder
import Mathlib.Tactic.Linarith
import Mathlib.Tactic.Ring
import Mathlib.Algebra.BigOperators.Group.List.Basic

/-! # A drain of the timer list

`engine::timer_drain` with callbacks that leave all timers alone. Times are 64-bit numbers of
microseconds.
-/
namespace TimerDrain

open SupportListSums SupportMachineInt SupportUpperBound TimerMachine TimerReferences TimerOrder

/-- The timers, and as bookkeeping the callbacks with the due times at which they were made. -/
structure Drain where
  dueTime : TimerId → Int
  repeatSpan : TimerId → Int
  timers : List TimerId
  fired : List (TimerId × Int)

/-- `repeat.total_milliseconds() != 0` -/
def Drain.repeating (c : Drain) (id : TimerId) : Prop := (c.repeatSpan id).tdiv 1000 ≠ 0

instance (c : Drain) (id : TimerId) : Decidable (c.repeating id) :=
  inferInstanceAs (Decidable (_ ≠ _))

def Drain.setDueTime (c : Drain) (id : TimerId) (ts : Int) : Drain :=
  { c with dueTime := Function.update c.dueTime id ts }

def Drain.schedule (c : Drain) (id : TimerId) : Drain :=
  { c with timers := insertByKey c.dueTime id c.timers }

/-- The body of the loop for a timer that is due and has been taken off the list. -/
def Drain.fire (c : Drain) (id : TimerId) : Drain :=
  let c := { c with fired := c.fired ++ [(id, c.dueTime id)] }
  if c.repeating id then
    (c.setDueTime id (toLong (c.dueTime id + c.repeatSpan id))).schedule id
  else c

/-- `timer_drain` when the clock reads `ts`, in at most `fuel` turns of its loop. -/
def timerDrain (ts : Int) : Nat → Drain → Option Drain
  | 0, _ => none
  | fuel + 1, c =>
    match c.timers with
    | [] => some c
    | id :: rest =>
      if c.dueTime id ≤ ts then timerDrain ts fuel ({ c with timers := rest }.fire id)
      else some c

/-! ## Counts -/

/-- How often a timer is going to be fired. -/
def Drain.catchUp (c : Drain) (ts : Int) (id : TimerId) : Nat :=
  if ts < c.dueTime id then 0
  else if c.repeatSpan id < 1000 then 1
  else ((ts - c.dueTime id) / c.repeatSpan id).toNat + 1

/-- Timers that are due have representable times until they are not due any more. -/
structure Representable (ts : Int) (c : Drain) : Prop where
  nonneg : ∀ id ∈ c.timers, 0 ≤ c.repeatSpan id
  low : ∀ id ∈ c.timers, -9223372036854775808 ≤ c.dueTime id
  high : ∀ id ∈ c.timers, c.dueTime id ≤ ts → 1000 ≤ c.repeatSpan id →
    c.dueTime id + c.catchUp ts id * c.repeatSpan id < 9223372036854775808

/-- What the claim of a drain is about: lists in order and without repetition. -/
structure Ready (ts : Int) (c : Drain) : Prop where
  sorted : SortedBy c.dueTime c.timers
  nodup : c.timers.Nodup
  representable : Representable ts c

variable {c t : Drain} {ts : Int} {id j : TimerId} {rest : List TimerId}

theorem repeating_iff (h : 0 ≤ c.repeatSpan id) : c.repeating id ↔ 1000 ≤ c.repeatSpan id := by
  rw [Drain.repeating, Int.tdiv_eq_ediv_of_nonneg h]
  omega

theorem catchUp_later (h : ts < c.dueTime id) : c.catchUp ts id = 0 := if_pos h

theorem catchUp_once (h : c.dueTime id ≤ ts) (hr : c.repeatSpan id < 1000) :
    c.catchUp ts id = 1 := by
  rw [Drain.catchUp, if_neg (Int.not_lt.mpr h), if_pos hr]

theorem catchUp_repeats (h : c.dueTime id ≤ ts) (hr : 1000 ≤ c.repeatSpan id) :
    c.catchUp ts id = ((ts - c.dueTime id) / c.repeatSpan id).toNat + 1 := by
  rw [Drain.catchUp, if_neg (Int.not_lt.mpr h), if_neg (Int.not_lt.mpr hr)]

theorem catchUp_congr (hdue : t.dueTime id = c.dueTime id)
    (hrepeat : t.repeatSpan id = c.repeatSpan id) : t.catchUp ts id = c.catchUp ts id := by
  rw [Drain.catchUp, Drain.catchUp, hdue, hrepeat]

/-- One turn takes one of the callbacks of a repeating timer. -/
theorem catchUp_next (h : c.dueTime id ≤ ts) (hr : 1000 ≤ c.repeatSpan id)
    (hdue : t.dueTime id = c.dueTime id + c.repeatSpan id)
    (hrepeat : t.repeatSpan id = c.repeatSpan id) : c.catchUp ts id = t.catchUp ts id + 1 := by
  have hpos : 0 < c.repeatSpan id := by omega
  rw [catchUp_repeats h hr]
  by_cases hagain : c.dueTime id + c.repeatSpan id ≤ ts
  · rw [catchUp_repeats (hdue ▸ hagain) (hrepeat ▸ hr), hdue, hrepeat]
    have hsplit : ts - c.dueTime id =
        ts - (c.dueTime id + c.repeatSpan id) + 1 * c.repeatSpan id := by
      omega
    have hquotient : 0 ≤ (ts - (c.dueTime id + c.repeatSpan id)) / c.repeatSpan id :=
      Int.ediv_nonneg (by omega) (by omega)
    rw [hsplit, Int.add_mul_ediv_right _ _ (by omega)]
    omega
  · rw [catchUp_later (by omega), Int.ediv_eq_zero_of_lt (by omega) (by omega)]
    rfl

/-! ## One turn of the loop -/

/-- The timer is fired for the last time. -/
theorem fire_once (hn : 0 ≤ c.repeatSpan id) (hr : c.repeatSpan id < 1000) :
    c.fire id = { c with fired := c.fired ++ [(id, c.dueTime id)] } := by
  have hnot : ¬ c.repeating id := by
    rw [repeating_iff hn]
    omega
  exact if_neg hnot

/-- The timer is fired and scheduled again. -/
theorem fire_repeats (hr : 1000 ≤ c.repeatSpan id)
    (hexact : toLong (c.dueTime id + c.repeatSpan id) = c.dueTime id + c.repeatSpan id) :
    c.fire id = ({ c with fired := c.fired ++ [(id, c.dueTime id)] }.setDueTime id
      (c.dueTime id + c.repeatSpan id)).schedule id := by
  have hrepeats : c.repeating id := (repeating_iff (by omega)).mpr hr
  rw [← hexact]
  exact if_pos hrepeats

theorem Representable.exact (h : Representable ts c) (hid : id ∈ c.timers)
    (hdue : c.dueTime id ≤ ts) (hr : 1000 ≤ c.repeatSpan id) :
    toLong (c.dueTime id + c.repeatSpan id) = c.dueTime id + c.repeatSpan id := by
  have hlow := h.low id hid
  have hhigh := h.high id hid hdue hr
  have hone : (1 : Int) ≤ c.catchUp ts id := by
    rw [catchUp_repeats hdue hr]
    omega
  have hmul := le_mul_of_one_le_left (by omega : 0 ≤ c.repeatSpan id) hone
  exact toLong_of_range (by omega) (by omega)

/-- What one turn does to the timer at the front and to the others. -/
structure Turn (ts : Int) (c : Drain) (id : TimerId) (rest : List TimerId) (t : Drain) : Prop where
  ready : Ready ts t
  fired : t.fired = c.fired ++ [(id, c.dueTime id)]
  repeatSpan : t.repeatSpan = c.repeatSpan
  others : ∀ j, j ≠ id → t.dueTime j = c.dueTime j ∧ (j ∈ t.timers ↔ j ∈ rest)
  again : 1000 ≤ c.repeatSpan id →
    id ∈ t.timers ∧ t.dueTime id = c.dueTime id + c.repeatSpan id
  last : c.repeatSpan id < 1000 → id ∉ t.timers ∧ t.dueTime id = c.dueTime id
  fewer : total (t.catchUp ts) t.timers + 1 = total (c.catchUp ts) c.timers

theorem total_others (hrepeat : t.repeatSpan = c.repeatSpan) (hid : id ∉ rest)
    (hothers : ∀ j, j ≠ id → t.dueTime j = c.dueTime j) :
    total (t.catchUp ts) rest = total (c.catchUp ts) rest := by
  have hsame (j : TimerId) (hj : j ∈ rest) : t.catchUp ts j = c.catchUp ts j := by
    apply catchUp_congr (hothers j _) (congrFun hrepeat j)
    rintro rfl
    exact hid hj
  exact congrArg List.sum (List.map_congr_left hsame)

theorem Representable.tail (h : Representable ts c) (htimers : c.timers = id :: rest)
    (fired : List (TimerId × Int)) :
    Representable ts { c with timers := rest, fired := fired } := by
  have hmem (j : TimerId) (hj : j ∈ rest) : j ∈ c.timers := htimers ▸ List.mem_cons_of_mem id hj
  constructor
  · exact fun j hj => h.nonneg j (hmem j hj)
  · exact fun j hj => h.low j (hmem j hj)
  · exact fun j hj => h.high j (hmem j hj)

/-- A timer that is scheduled again has one catch-up less before it. -/
theorem Representable.again (h : Representable ts c) (hid : id ∈ c.timers)
    (hdue : c.dueTime id ≤ ts) (hr : 1000 ≤ c.repeatSpan id)
    (hrepeat : t.repeatSpan = c.repeatSpan) (hself : t.dueTime id = c.dueTime id + c.repeatSpan id)
    (hother : ∀ j, j ≠ id → t.dueTime j = c.dueTime j) (hmem : ∀ j ∈ t.timers, j ∈ c.timers) :
    Representable ts t := by
  constructor
  · intro j hj
    rw [hrepeat]
    exact h.nonneg j (hmem j hj)
  · intro j hj
    have hlow := h.low j (hmem j hj)
    by_cases hji : j = id
    · subst hji
      omega
    · rw [hother j hji]
      exact hlow
  · intro j hj hdue' hr'
    by_cases hji : j = id
    · subst hji
      have hhigh := h.high j hid hdue hr
      rw [catchUp_next hdue hr hself (congrFun hrepeat j)] at hhigh
      rw [hself, hrepeat]
      push_cast at hhigh
      linarith
    · rw [hrepeat] at hr' ⊢
      rw [hother j hji] at hdue' ⊢
      rw [catchUp_congr (hother j hji) (congrFun hrepeat j)]
      exact h.high j (hmem j hj) hdue' hr'

theorem turn_once (h : Ready ts c) (htimers : c.timers = id :: rest) (hdue : c.dueTime id ≤ ts)
    (hr : c.repeatSpan id < 1000) : Turn ts c id rest ({ c with timers := rest }.fire id) := by
  have hmem : id ∈ c.timers := htimers ▸ List.mem_cons_self
  have hnodup : (id :: rest).Nodup := htimers ▸ h.nodup
  have hsorted : SortedBy c.dueTime (id :: rest) := htimers ▸ h.sorted
  obtain ⟨hid, hrest⟩ := List.nodup_cons.mp hnodup
  rw [fire_once (c := { c with timers := rest }) (h.representable.nonneg id hmem) hr]
  constructor
  · exact ⟨(List.pairwise_cons.mp hsorted).2, hrest,
      h.representable.tail htimers _⟩
  · rfl
  · rfl
  · exact fun j _ => ⟨rfl, Iff.rfl⟩
  · intro hagain
    omega
  · exact fun _ => ⟨hid, rfl⟩
  · have hsame : total (c.catchUp ts) rest + 1 = total (c.catchUp ts) (id :: rest) := by
      rw [total_cons, catchUp_once hdue hr, Nat.add_comm]
    rw [htimers]
    exact hsame

theorem turn_repeats (h : Ready ts c) (htimers : c.timers = id :: rest) (hdue : c.dueTime id ≤ ts)
    (hr : 1000 ≤ c.repeatSpan id) : Turn ts c id rest ({ c with timers := rest }.fire id) := by
  have hmem : id ∈ c.timers := htimers ▸ List.mem_cons_self
  have hnodup : (id :: rest).Nodup := htimers ▸ h.nodup
  have hsorted : SortedBy c.dueTime (id :: rest) := htimers ▸ h.sorted
  obtain ⟨hid, hrest⟩ := List.nodup_cons.mp hnodup
  rw [fire_repeats (c := { c with timers := rest }) hr (h.representable.exact hmem hdue hr)]
  generalize ht : Drain.schedule _ id = t
  have hdueTime : t.dueTime = Function.update c.dueTime id (c.dueTime id + c.repeatSpan id) := by
    rw [← ht]
    rfl
  have hrepeat : t.repeatSpan = c.repeatSpan := by
    rw [← ht]
    rfl
  have htimers' : t.timers = insertByKey t.dueTime id rest := by
    rw [hdueTime, ← ht]
    rfl
  have hself : t.dueTime id = c.dueTime id + c.repeatSpan id := by
    rw [hdueTime, Function.update_self]
  have hother (j : TimerId) (hj : j ≠ id) : t.dueTime j = c.dueTime j := by
    rw [hdueTime, Function.update_of_ne hj]
  have hcount : c.catchUp ts id = t.catchUp ts id + 1 :=
    catchUp_next hdue hr hself (congrFun hrepeat id)
  have hperm : t.timers.Perm (id :: rest) := htimers' ▸ insertByKey_perm
  constructor
  · constructor
    · rw [htimers']
      apply SortedBy.insertByKey
      apply List.Pairwise.imp_of_mem _ (List.pairwise_cons.mp hsorted).2
      intro a b ha hb hle
      rw [hother a (by rintro rfl; exact hid ha), hother b (by rintro rfl; exact hid hb)]
      exact hle
    · exact hperm.nodup_iff.mpr hnodup
    · exact h.representable.again hmem hdue hr hrepeat hself hother fun j hj =>
        htimers ▸ hperm.mem_iff.mp hj
  · rw [← ht]
    rfl
  · exact hrepeat
  · intro j hj
    refine ⟨hother j hj, ?_⟩
    rw [hperm.mem_iff, List.mem_cons]
    exact ⟨fun hjr => hjr.resolve_left hj, Or.inr⟩
  · exact fun _ => ⟨hperm.mem_iff.mpr List.mem_cons_self, hself⟩
  · intro hlast
    omega
  · have hsum : total (t.catchUp ts) t.timers = total (t.catchUp ts) (id :: rest) :=
      (hperm.map (t.catchUp ts)).sum_eq
    rw [hsum, htimers, total_cons, total_cons, hcount, total_others hrepeat hid hother]
    omega

theorem turn (h : Ready ts c) (htimers : c.timers = id :: rest) (hdue : c.dueTime id ≤ ts) :
    Turn ts c id rest ({ c with timers := rest }.fire id) := by
  by_cases hr : c.repeatSpan id < 1000
  · exact turn_once h htimers hdue hr
  · exact turn_repeats h htimers hdue (Int.not_lt.mp hr)

/-! ## The loop -/

/-- What a drain that ends has done; `log` are its callbacks. -/
structure Drained (ts : Int) (c t : Drain) (log : List (TimerId × Int)) : Prop where
  fired : t.fired = c.fired ++ log
  counts : ∀ id ∈ c.timers, (log.map Prod.fst).count id = c.catchUp ts id
  strangers : ∀ id, id ∉ c.timers → id ∉ log.map Prod.fst ∧ id ∉ t.timers ∧
    t.dueTime id = c.dueTime id
  left : ∀ id ∈ c.timers, id ∈ t.timers ↔ ts < c.dueTime id ∨ 1000 ≤ c.repeatSpan id
  due : ∀ id ∈ t.timers, t.dueTime id = c.dueTime id + c.catchUp ts id * c.repeatSpan id
  bound : ∀ b, (∀ id ∈ c.timers, b ≤ c.dueTime id) → ∀ e ∈ log, b ≤ e.2
  inOrder : log.Pairwise fun a b => a.2 ≤ b.2
  sorted : SortedBy t.dueTime t.timers
  later : ∀ id ∈ t.timers, ts < t.dueTime id

/-- A list whose timers are all due later is left as it is. -/
theorem drained_refl (h : Ready ts c) (hlater : ∀ id ∈ c.timers, ts < c.dueTime id) :
    Drained ts c c [] := by
  constructor
  · rw [List.append_nil]
  · intro id hid
    rw [catchUp_later (hlater id hid)]
    rfl
  · exact fun id hid => ⟨List.not_mem_nil, hid, rfl⟩
  · exact fun id hid => ⟨fun _ => Or.inl (hlater id hid), fun _ => hid⟩
  · intro id hid
    rw [catchUp_later (hlater id hid)]
    omega
  · exact fun b _ e he => absurd he List.not_mem_nil
  · exact List.Pairwise.nil
  · exact h.sorted
  · exact hlater

theorem Turn.catchUp_other (h : Turn ts c id rest t) (hj : j ≠ id) :
    t.catchUp ts j = c.catchUp ts j :=
  catchUp_congr (h.others j hj).1 (congrFun h.repeatSpan j)

/-- Due times only grow. -/
theorem Turn.le_dueTime (h : Turn ts c id rest t) (hready : Ready ts c)
    (htimers : c.timers = id :: rest) {b : Int} (hb : ∀ j ∈ c.timers, b ≤ c.dueTime j) :
    ∀ j ∈ t.timers, b ≤ t.dueTime j := by
  intro j hj
  by_cases hji : j = id
  · subst hji
    have hmem : j ∈ c.timers := htimers ▸ List.mem_cons_self
    have hle := hb j hmem
    have hnonneg := hready.representable.nonneg j hmem
    by_cases hr : c.repeatSpan j < 1000
    · rw [(h.last hr).2]
      exact hle
    · rw [(h.again (Int.not_lt.mp hr)).2]
      omega
  · obtain ⟨hsame, hmem⟩ := h.others j hji
    rw [hsame]
    exact hb j (htimers ▸ List.mem_cons_of_mem id (hmem.mp hj))

/-- A turn in front of the turns that follow it. -/
theorem Drained.cons {u : Drain} {log : List (TimerId × Int)} (h : Drained ts t u log)
    (hturn : Turn ts c id rest t) (hready : Ready ts c) (htimers : c.timers = id :: rest)
    (hdue : c.dueTime id ≤ ts) : Drained ts c u ((id, c.dueTime id) :: log) := by
  have hmem : id ∈ c.timers := htimers ▸ List.mem_cons_self
  have hsorted : SortedBy c.dueTime (id :: rest) := htimers ▸ hready.sorted
  have hrest (j : TimerId) (hj : j ≠ id) : j ∈ t.timers ↔ j ∈ c.timers := by
    rw [(hturn.others j hj).2, htimers, List.mem_cons]
    exact ⟨Or.inr, fun h => h.resolve_left hj⟩
  have hlast (hr : c.repeatSpan id < 1000) : id ∉ log.map Prod.fst ∧ id ∉ u.timers := by
    obtain ⟨hlog, hgone, _⟩ := h.strangers id (hturn.last hr).1
    exact ⟨hlog, hgone⟩
  constructor
  · rw [h.fired, hturn.fired, List.append_assoc]
    rfl
  · intro j hj
    by_cases hji : j = id
    · subst hji
      rw [List.map_cons, List.count_cons_self]
      by_cases hr : c.repeatSpan j < 1000
      · rw [List.count_eq_zero_of_not_mem (hlast hr).1, catchUp_once hdue hr]
      · obtain ⟨hagain, hnext⟩ := hturn.again (Int.not_lt.mp hr)
        rw [h.counts j hagain,
          catchUp_next hdue (Int.not_lt.mp hr) hnext (congrFun hturn.repeatSpan j)]
    · rw [List.map_cons, List.count_cons_of_ne (Ne.symm hji), h.counts j ((hrest j hji).mpr hj),
        hturn.catchUp_other hji]
  · intro j hj
    have hji : j ≠ id := fun heq => hj (heq ▸ hmem)
    obtain ⟨hlog, hgone, hsame⟩ := h.strangers j fun hjt => hj ((hrest j hji).mp hjt)
    refine ⟨?_, hgone, hsame.trans (hturn.others j hji).1⟩
    rw [List.map_cons, List.mem_cons]
    exact fun hor => hor.elim hji hlog
  · intro j hj
    by_cases hji : j = id
    · subst hji
      by_cases hr : c.repeatSpan j < 1000
      · constructor
        · exact fun hju => absurd hju (hlast hr).2
        · rintro (hlater | hrepeats) <;> omega
      · obtain ⟨hagain, hnext⟩ := hturn.again (Int.not_lt.mp hr)
        rw [h.left j hagain, congrFun hturn.repeatSpan j]
        exact ⟨fun _ => Or.inr (Int.not_lt.mp hr), fun _ => Or.inr (Int.not_lt.mp hr)⟩
    · rw [h.left j ((hrest j hji).mpr hj), (hturn.others j hji).1, congrFun hturn.repeatSpan j]
  · intro j hj
    rw [h.due j hj, congrFun hturn.repeatSpan j]
    by_cases hji : j = id
    · subst hji
      by_cases hr : c.repeatSpan j < 1000
      · exact absurd hj (hlast hr).2
      · obtain ⟨hagain, hnext⟩ := hturn.again (Int.not_lt.mp hr)
        rw [catchUp_next hdue (Int.not_lt.mp hr) hnext (congrFun hturn.repeatSpan j), hnext]
        push_cast
        ring
    · rw [(hturn.others j hji).1, hturn.catchUp_other hji]
  · intro b hb e he
    rcases List.mem_cons.mp he with rfl | he
    · exact hb id hmem
    · exact h.bound b (hturn.le_dueTime hready htimers hb) e he
  · rw [List.pairwise_cons]
    refine ⟨?_, h.inOrder⟩
    apply h.bound
    apply hturn.le_dueTime hready htimers
    intro j hj
    rw [htimers] at hj
    rcases List.mem_cons.mp hj with rfl | hj
    · exact Int.le_refl _
    · exact (List.pairwise_cons.mp hsorted).1 j hj
  · exact h.sorted
  · exact h.later

theorem timerDrain_due (htimers : c.timers = id :: rest) (hdue : c.dueTime id ≤ ts)
    (fuel : Nat) :
    timerDrain ts (fuel + 1) c = timerDrain ts fuel ({ c with timers := rest }.fire id) := by
  rw [timerDrain]
  simp only [htimers, if_pos hdue]

theorem timerDrain_stops (hlater : ∀ id ∈ c.timers, ts < c.dueTime id) (fuel : Nat) :
    timerDrain ts (fuel + 1) c = some c := by
  rw [timerDrain]
  split
  · rfl
  · next id rest htimers =>
    rw [if_neg]
    exact Int.not_le.mpr (hlater id (htimers ▸ List.mem_cons_self))

/-- Where any timer is due the front is. -/
theorem due_of_some (h : SortedBy c.dueTime c.timers) (htimers : c.timers = id :: rest)
    (hsome : ¬ ∀ j ∈ c.timers, ts < c.dueTime j) : c.dueTime id ≤ ts := by
  apply Int.not_lt.mp
  intro hlater
  apply hsome
  intro j hj
  rw [htimers] at hj h
  rcases List.mem_cons.mp hj with rfl | hj
  · exact hlater
  · exact Int.lt_of_lt_of_le hlater ((List.pairwise_cons.mp h).1 j hj)

/-- As many turns as there are callbacks to make, and one more, are enough. -/
theorem drained_of_total (n : Nat) (h : Ready ts c) (hn : total (c.catchUp ts) c.timers = n) :
    ∃ t log, Drained ts c t log ∧ ∀ fuel, n < fuel → timerDrain ts fuel c = some t := by
  induction n generalizing c with
  | zero =>
    have hlater (id : TimerId) (hid : id ∈ c.timers) : ts < c.dueTime id := by
      have hzero := eq_zero_of_total hn hid
      by_cases hdue : c.dueTime id ≤ ts
      · rw [Drain.catchUp, if_neg (Int.not_lt.mpr hdue)] at hzero
        split at hzero <;> omega
      · exact Int.not_le.mp hdue
    refine ⟨c, [], drained_refl h hlater, ?_⟩
    intro fuel hfuel
    obtain ⟨fuel, rfl⟩ : ∃ k, fuel = k + 1 := ⟨fuel - 1, by omega⟩
    exact timerDrain_stops hlater fuel
  | succ n ih =>
    -- the timer at the front is due, since some timer is
    obtain ⟨id, rest, htimers⟩ : ∃ id rest, c.timers = id :: rest := by
      apply List.exists_cons_of_ne_nil
      rintro hnil
      rw [hnil] at hn
      cases hn
    have hdue : c.dueTime id ≤ ts := by
      apply due_of_some h.sorted htimers
      intro hlater
      have hzero := total_eq_zero (w := c.catchUp ts) fun j hj => catchUp_later (hlater j hj)
      omega
    have hturn := turn h htimers hdue
    have hfewer := hturn.fewer
    obtain ⟨t, log, hdrained, hruns⟩ := ih hturn.ready (by omega)
    refine ⟨t, (id, c.dueTime id) :: log, hdrained.cons hturn h htimers hdue, ?_⟩
    intro fuel hfuel
    obtain ⟨fuel, rfl⟩ : ∃ k, fuel = k + 1 := ⟨fuel - 1, by omega⟩
    rw [timerDrain_due htimers hdue]
    exact hruns fuel (by omega)

/-- What the callbacks of a drain and the list that it leaves have to be. -/
structure DrainsRight (ts : Int) (c t : Drain) : Prop where
  notDue : ∀ id ∈ c.timers, ts < c.dueTime id →
    (t.fired.map Prod.fst).count id = 0 ∧ id ∈ t.timers ∧ t.dueTime id = c.dueTime id
  once : ∀ id ∈ c.timers, c.dueTime id ≤ ts → c.repeatSpan id < 1000 →
    (t.fired.map Prod.fst).count id = 1 ∧ id ∉ t.timers
  repeats : ∀ id ∈ c.timers, c.dueTime id ≤ ts → 1000 ≤ c.repeatSpan id →
    ((t.fired.map Prod.fst).count id : Int) = (ts - c.dueTime id) / c.repeatSpan id + 1 ∧
      id ∈ t.timers ∧ t.dueTime id =
        c.dueTime id + ((ts - c.dueTime id) / c.repeatSpan id + 1) * c.repeatSpan id
  strangers : ∀ id, id ∉ c.timers → id ∉ t.fired.map Prod.fst ∧ id ∉ t.timers
  inOrder : t.fired.Pairwise fun a b => a.2 ≤ b.2
  sorted : t.timers.Pairwise fun a b => t.dueTime a ≤ t.dueTime b
  later : ∀ id ∈ t.timers, ts < t.dueTime id

theorem drainsRight {log : List (TimerId × Int)} (hfired : c.fired = [])
    (hdrained : Drained ts c t log) : DrainsRight ts c t := by
  have hlog : t.fired = log := by
    rw [hdrained.fired, hfired, List.nil_append]
  rw [← hlog] at hdrained
  constructor
  · intro id hid hlater
    have hleft := (hdrained.left id hid).mpr (Or.inl hlater)
    have hdue := hdrained.due id hleft
    rw [catchUp_later hlater] at hdue
    exact ⟨(hdrained.counts id hid).trans (catchUp_later hlater), hleft, by omega⟩
  · intro id hid hdue hr
    refine ⟨(hdrained.counts id hid).trans (catchUp_once hdue hr), ?_⟩
    rw [hdrained.left id hid]
    omega
  · intro id hid hdue hr
    have hleft := (hdrained.left id hid).mpr (Or.inr hr)
    have hquotient : 0 ≤ (ts - c.dueTime id) / c.repeatSpan id :=
      Int.ediv_nonneg (by omega) (by omega)
    have hcount : (c.catchUp ts id : Int) = (ts - c.dueTime id) / c.repeatSpan id + 1 := by
      rw [catchUp_repeats hdue hr]
      omega
    refine ⟨?_, hleft, ?_⟩
    · rw [hdrained.counts id hid, hcount]
    · rw [hdrained.due id hleft, hcount]
  · intro id hid
    obtain ⟨hnot, hgone, _⟩ := hdrained.strangers id hid
    exact ⟨hnot, hgone⟩
  · exact hdrained.inOrder
  · exact hdrained.sorted
  · exact hdrained.later

/-- A drain ends, and fires every timer as often as its time has come. -/
theorem drain_fires (h : Ready ts c) (hfired : c.fired = []) :
    ∃ t enough, (∀ fuel, enough ≤ fuel → timerDrain ts fuel c = some t) ∧ DrainsRight ts c t := by
  obtain ⟨t, log, hdrained, hruns⟩ := drained_of_total _ h rfl
  exact ⟨t, _, fun fuel hfuel => hruns fuel hfuel, drainsRight hfired hdrained⟩

/-- One timer with a single callback and one that has to catch up. -/
def twoTimers : Drain where
  dueTime id := if id = 0 then 1000 else 2500
  repeatSpan id := if id = 0 then 2000 else 0
  timers := [0, 1]
  fired := []

theorem drain_fires_twoTimers :
    (timerDrain 5000 5 twoTimers).map Drain.fired =
        some [(0, 1000), (1, 2500), (0, 3000), (0, 5000)] ∧
      ∃ t enough, (∀ fuel, enough ≤ fuel → timerDrain 5000 fuel twoTimers = some t) ∧
        DrainsRight 5000 twoTimers t :=
  ⟨by decide, drain_fires ⟨by decide, by decide, by decide, by decide, by decide⟩ rfl⟩

/-- A timer whose next time does not fit 64 bits. -/
def endless : Drain where
  dueTime _ := 1
  repeatSpan _ := 9223372036854775807
  timers := [0]
  fired := []

/-- It is fired three times, where once would be right, and the time that it would have to be
scheduled at does not exist. -/
theorem endless_not_right :
    SortedBy endless.dueTime endless.timers ∧ endless.timers.Nodup ∧
      (∀ id ∈ endless.timers, 0 ≤ endless.repeatSpan id) ∧
      (timerDrain 5 4 endless).map Drain.fired =
        some [(0, 1), (0, -9223372036854775808), (0, -1)] ∧
      ∀ t, timerDrain 5 4 endless = some t → ¬ DrainsRight 5 endless t := by
  refine ⟨by decide, by decide, by decide, by decide, ?_⟩
  intro t ht hright
  have hcount := (hright.repeats 0 (by decide) (by decide) (by decide)).1
  have hfired : (timerDrain 5 4 endless).map Drain.fired =
      some [(0, 1), (0, -9223372036854775808), (0, -1)] := by decide
  rw [ht] at hfired
  rw [Option.some.inj hfired] at hcount
  revert hcount
  decide

/-! ## The loop thread -/

/-- The timers of the engine, and the callbacks that the loop thread has made since `before`. -/
structure Matches (s : State) (c : Drain) (before : List (TimerId × ErrorCode)) : Prop where
  timers : s.timers = c.timers
  dueTime : s.dueTime = c.dueTime
  repeatSpan : ∀ id, (s.ids id).repeatSpan = c.repeatSpan id
  callbacks : s.callbacks = before ++ c.fired.map fun e => (e.1, .success)

section LoopThread

variable {s : State} {before : List (TimerId × ErrorCode)}

theorem Matches.access (h : Matches s c before) : Matches (s.access id) c before :=
  ⟨h.timers, h.dueTime, h.repeatSpan, h.callbacks⟩

theorem Matches.frame (h : Matches s c before) (f : Frame) :
    Matches { s with frame := f } c before := ⟨h.timers, h.dueTime, h.repeatSpan, h.callbacks⟩

/-- A reference that is taken or dropped changes no time. -/
theorem Matches.refs {u : State} (h : Matches s c before) (htimers : u.timers = s.timers)
    (hdue : u.dueTime = s.dueTime) (hrepeat : ∀ j, (u.ids j).repeatSpan = (s.ids j).repeatSpan)
    (hcallbacks : u.callbacks = s.callbacks) : Matches u c before :=
  ⟨htimers.trans h.timers, hdue.trans h.dueTime, fun j => (hrepeat j).trans (h.repeatSpan j),
    hcallbacks.trans h.callbacks⟩

theorem repeatSpan_set {v : Id} (hv : v.repeatSpan = (s.ids id).repeatSpan) (j : TimerId) :
    ((s.set id v).ids j).repeatSpan = (s.ids j).repeatSpan := by
  by_cases hj : j = id
  · subst hj
    show ((Function.update s.ids j v) j).repeatSpan = _
    rw [Function.update_self]
    exact hv
  · show ((Function.update s.ids id v) j).repeatSpan = _
    rw [Function.update_of_ne hj]

theorem Matches.addRef (h : Matches s c before) : Matches (s.addRef id) c before :=
  h.refs rfl dueTime_addRef (repeatSpan_set (s := s.access id) rfl) rfl

theorem Matches.release (h : Matches s c before) : Matches (s.release id) c before := by
  apply h.refs (release_timers s id) dueTime_release _ (release_callbacks s id)
  by_cases hone : (s.ids id).refcount = 1
  · rw [release_last hone]
    exact repeatSpan_set (s := s.access id) rfl
  · rw [release_more hone]
    exact repeatSpan_set (s := s.access id) rfl

/-- The repeat step of the loop thread. -/
theorem matches_repeats (h : Matches s c before) (hframe : s.frame = .repeats id ts)
    (hexact : c.repeating id →
      toLong (c.dueTime id + c.repeatSpan id) = c.dueTime id + c.repeatSpan id) :
    Matches (run s) (if c.repeating id then
      (c.setDueTime id (toLong (c.dueTime id + c.repeatSpan id))).schedule id else c) before ∧
      (run s).frame = .fired id ts := by
  have hsame : s.repeating id ↔ c.repeating id := by
    rw [State.repeating, h.repeatSpan]
    exact Iff.rfl
  by_cases hrepeats : c.repeating id
  · have hrun : run s = { timerSchedule true ((s.access id).set id { s.ids id with
        dueTime := (s.ids id).dueTime + (s.ids id).repeatSpan }) id with
          frame := .fired id ts } := by
      simp only [run, hframe]
      exact if_pos (hsame.mpr hrepeats)
    rw [if_pos hrepeats, hexact hrepeats, hrun]
    generalize hset : (s.access id).set id { s.ids id with
      dueTime := (s.ids id).dueTime + (s.ids id).repeatSpan } = u
    have hnew : (s.ids id).dueTime + (s.ids id).repeatSpan = c.dueTime id + c.repeatSpan id := by
      rw [h.repeatSpan, ← h.dueTime]
      rfl
    have hmatches : Matches u (c.setDueTime id (c.dueTime id + c.repeatSpan id)) before := by
      rw [← hset]
      refine ⟨h.timers, ?_, ?_, h.callbacks⟩
      · rw [dueTime_set]
        show Function.update s.dueTime id ((s.ids id).dueTime + (s.ids id).repeatSpan) = _
        rw [hnew, h.dueTime]
        rfl
      · intro j
        exact (repeatSpan_set (s := s.access id) (by rfl) j).trans (h.repeatSpan j)
    have hadded : Matches (u.addRef id) _ before := hmatches.addRef
    refine ⟨⟨?_, hadded.dueTime, hadded.repeatSpan, hadded.callbacks⟩, rfl⟩
    show insertByKey (u.addRef id).dueTime id (u.addRef id).timers = _
    rw [hadded.dueTime, hadded.timers]
    rfl
  · have hrun : run s = { s.access id with frame := .fired id ts } := by
      simp only [run, hframe]
      exact if_neg fun hs => hrepeats (hsame.mp hs)
    rw [if_neg hrepeats, hrun]
    exact ⟨h.access.frame _, rfl⟩

/-- Five accesses of the loop thread are one turn of the loop. -/
theorem matches_turn (h : Matches s c before) (hframe : s.frame = .drain ts)
    (htimers : c.timers = id :: rest) (hdue : c.dueTime id ≤ ts)
    (hexact : c.repeating id →
      toLong (c.dueTime id + c.repeatSpan id) = c.dueTime id + c.repeatSpan id) :
    Matches (run^[5] s) ({ c with timers := rest }.fire id) before ∧
      (run^[5] s).frame = .drain ts := by
  have hdue' : s.dueTime id ≤ ts := h.dueTime ▸ hdue
  have htaken : run s = { s.access id with timers := rest, frame := .firing id ts } := by
    simp only [run, hframe, h.timers.trans htimers, if_pos hdue']
  have hcalled : run^[3] s = { (s.access id).access id with
      timers := rest
      callbacks := s.callbacks ++ [(id, .success)]
      frame := .repeats id ts } := by
    show run (run (run s)) = _
    rw [htaken]
    rfl
  have hfired : Matches (run^[3] s) { c with
      timers := rest, fired := c.fired ++ [(id, c.dueTime id)] } before := by
    rw [hcalled]
    refine ⟨rfl, h.dueTime, h.repeatSpan, ?_⟩
    show s.callbacks ++ [(id, .success)] = _
    rw [h.callbacks, List.map_append, List.append_assoc]
    rfl
  have hframe' : (run^[3] s).frame = .repeats id ts := by rw [hcalled]
  obtain ⟨hrepeated, hfiredFrame⟩ := matches_repeats hfired hframe' hexact
  have hlast : run^[5] s = { (run (run^[3] s)).release id with frame := .drain ts } := by
    show run (run (run^[3] s)) = _
    generalize run (run^[3] s) = u at hfiredFrame ⊢
    rw [run, hfiredFrame]
  rw [hlast]
  exact ⟨hrepeated.release.frame _, rfl⟩

/-- The loop thread stops where no timer is due. -/
theorem matches_stop (h : Matches s c before) (hframe : s.frame = .drain ts)
    (hlater : ∀ id ∈ c.timers, ts < c.dueTime id) :
    Matches (run s) c before ∧ (run s).frame = .idle := by
  cases htimers : s.timers with
  | nil =>
    have hrun : run s = { s with frame := .idle } := by simp only [run, hframe, htimers]
    rw [hrun]
    exact ⟨h.frame _, rfl⟩
  | cons id rest =>
    have hnot : ¬ s.dueTime id ≤ ts := by
      rw [h.dueTime]
      apply Int.not_le.mpr
      apply hlater
      rw [← h.timers, htimers]
      exact List.mem_cons_self
    have hrun : run s = { s.access id with frame := .idle } := by
      simp only [run, hframe, htimers, if_neg hnot]
    rw [hrun]
    exact ⟨h.access.frame _, rfl⟩

/-- Left alone, the loop thread does what `timerDrain` does. -/
theorem loop_drains (fuel : Nat) (hready : Ready ts c) (h : Matches s c before)
    (hframe : s.frame = .drain ts) (hdrain : timerDrain ts fuel c = some t) :
    ∃ n, Matches (run^[n] s) t before ∧ (run^[n] s).frame = .idle := by
  induction fuel generalizing c s with
  | zero => cases hdrain
  | succ fuel ih =>
    by_cases hlater : ∀ id ∈ c.timers, ts < c.dueTime id
    · rw [timerDrain_stops hlater] at hdrain
      obtain rfl := Option.some.inj hdrain
      exact ⟨1, matches_stop h hframe hlater⟩
    · obtain ⟨id, rest, htimers⟩ : ∃ id rest, c.timers = id :: rest := by
        apply List.exists_cons_of_ne_nil
        intro hnil
        rw [hnil] at hlater
        exact hlater fun _ hid => absurd hid List.not_mem_nil
      have hdue : c.dueTime id ≤ ts := due_of_some hready.sorted htimers hlater
      rw [timerDrain_due htimers hdue] at hdrain
      have hmem : id ∈ c.timers := htimers ▸ List.mem_cons_self
      have hexact (hrepeats : c.repeating id) :=
        hready.representable.exact hmem hdue
          ((repeating_iff (hready.representable.nonneg id hmem)).mp hrepeats)
      obtain ⟨hmatches, hagain⟩ := matches_turn h hframe htimers hdue hexact
      obtain ⟨n, hend⟩ := ih (turn hready htimers hdue).ready hmatches hagain hdrain
      refine ⟨n + 5, ?_⟩
      rw [Function.iterate_add_apply]
      exact hend

end LoopThread

end TimerDrain
