import Tcode.FunctionObjects

/-! # Handlers of function objects

Between the steps of an operation a temporary may hold a reference as well. The four kinds of
objects decide what the control function and the call function do.
-/
namespace FunctionHandlers

open SupportMachineInt SupportHolders SupportTransitionSystem FunctionObjects

/-- The objects whose `_context` is the `handler_impl`. -/
def holding (h : Heap) (i : ImplId) : Nat := holders Object.impl h.objects i

/-- Default-constructed, moved-from, with a function pointer, or with a functor. -/
inductive Kind (type : ImplId → HandlerType) : Object → Prop where
  | empty : Kind type .empty
  | movedFrom : Kind type .null
  | raw (p : Nat) : Kind type (.ofRaw (some p))
  | impl (i : ImplId) : Kind type (.ofImpl (type i) i)

/-- A temporary holds `r` besides the objects. -/
structure Accounted (h : Heap) (r : Option ImplId) : Prop where
  kinds : ∀ x o, h.get x = some o → Kind h.type o
  counted : Counted h.impls (plus (holding h) r)
  few : ∀ i, plus (holding h) r i < 2147483648
  safe : h.nullCall = false ∧ h.misuse = false

/-- A copy can be made of an object that has a control function, as long as not too many objects
hold its functor. -/
def CanCopy (h : Heap) (o : Object) : Prop :=
  o.control ≠ none ∧ ∀ i ∈ o.impl, holding h i < 2147483647

def CopiesAreMade (h : Heap) : Op → Prop
  | .copyConstruct y => ∀ rhs ∈ h.get y, CanCopy h rhs
  | .copyAssign x y =>
    ∀ this ∈ h.get x, ∀ rhs ∈ h.get y, this.context = rhs.context ∨ CanCopy h rhs
  | _ => True

instance (h : Heap) (o : Object) : Decidable (CanCopy h o) :=
  inferInstanceAs (Decidable (_ ∧ _))

instance (h : Heap) : (op : Op) → Decidable (CopiesAreMade h op)
  | .copyConstruct y => inferInstanceAs (Decidable (∀ rhs ∈ h.get y, CanCopy h rhs))
  | .copyAssign x y =>
    inferInstanceAs (Decidable (∀ this ∈ h.get x, ∀ rhs ∈ h.get y,
      this.context = rhs.context ∨ CanCopy h rhs))
  | .construct | .ofRaw _ | .ofHandler _ | .moveConstruct _ | .assignRaw _ _
  | .assignHandler _ _ | .moveAssign _ _ | .swap _ _ | .call _ | .destroy _ =>
    inferInstanceAs (Decidable True)

variable {h h' : Heap} {x y : ObjectId} {o o' rhs this : Object} {r : Option ImplId} {i : ImplId}
  {t : HandlerType} {type type' : ImplId → HandlerType}

/-! ## Objects -/

theorem getElem_of_get (hget : h.get x = some o) : h.objects[x]? = some (some o) :=
  SupportHolders.getElem?_of_join hget

theorem get_setObject (hget : h.get x = some o) (o' : Option Object) :
    (h.setObject x o').get x = o' := SupportHolders.join_set hget o'

theorem get_setObject_ne (hne : y ≠ x) (o' : Option Object) :
    (h.setObject x o').get y = h.get y := SupportHolders.join_set_ne hne o'

theorem setObject_self (hget : h.get x = some o) : h.setObject x (some o) = h := by
  obtain ⟨hx, hold⟩ := List.getElem?_eq_some_iff.mp (getElem_of_get hget)
  rw [Heap.setObject, ← hold, List.set_getElem_self]

theorem setObject_twice (o o' : Option Object) :
    (h.setObject x o).setObject x o' = h.setObject x o' := by
  rw [Heap.setObject, Heap.setObject, List.set_set, Heap.setObject]

theorem setObject_comm (hne : x ≠ y) (o o' : Option Object) :
    (h.setObject x o).setObject y o' = (h.setObject y o').setObject x o := by
  simp only [Heap.setObject, List.set_comm _ _ hne]

theorem get_addObject (hget : h.get x = some o) (o' : Object) :
    (h.addObject o').get x = some o := SupportHolders.join_append hget [some o']

theorem get_addObject_self (h : Heap) (o : Object) :
    (h.addObject o).get h.objects.length = some o := by
  rw [Heap.get, Heap.addObject, List.getElem?_concat_length, Option.join_some]

theorem get_addObject_cases (hget : (h.addObject o').get x = some o) :
    h.get x = some o ∨ o = o' := by
  rcases Nat.lt_trichotomy x h.objects.length with hlt | rfl | hgt
  · rw [Heap.get, Heap.addObject, List.getElem?_append_left hlt] at hget
    exact Or.inl hget
  · rw [get_addObject_self] at hget
    exact Or.inr (Option.some.inj hget).symm
  · rw [Heap.get, Heap.addObject, List.getElem?_eq_none] at hget
    · cases hget
    · rw [List.length_append, List.length_singleton]
      omega

/-- What an object is depends on the type of the functor it holds. -/
theorem Kind.of_type (hk : Kind type o) (htype : ∀ i ∈ o.impl, type' i = type i) :
    Kind type' o := by
  cases hk with
  | empty => exact .empty
  | movedFrom => exact .movedFrom
  | raw p => exact .raw p
  | impl i =>
    rw [← htype i rfl]
    exact .impl i

theorem Kind.ofRaw (p : Option Nat) : Kind type (.ofRaw p) := by
  cases p with
  | none => exact .empty
  | some p => exact .raw p

@[simp] theorem impl_ofRaw (p : Option Nat) : (Object.ofRaw p).impl = none := by
  cases p <;> rfl

/-! ## The steps of an operation -/

theorem Accounted.live (ha : Accounted h none) (hget : h.get x = some o) (hi : i ∈ o.impl) :
    i < h.impls.made ∧ h.impls.released i = false := by
  have hcounted := ha.counted
  rw [plus_none] at hcounted
  exact hcounted.live (holders_pos (getElem_of_get hget) hi)

theorem Accounted.setObject (hget : h.get x = some o) (new : Option Object)
    (ha : Accounted h (new.bind Object.impl)) (hk : ∀ n ∈ new, Kind h.type n) :
    Accounted (h.setObject x new) o.impl := by
  have hheld : plus (holding (h.setObject x new)) o.impl =
      plus (holding h) (new.bind Object.impl) := holders_set (getElem_of_get hget) new
  refine ⟨fun z n hz => ?_, ?_, ?_, ha.safe⟩
  · by_cases hzx : z = x
    · rw [hzx, get_setObject hget] at hz
      exact hk n hz
    · rw [get_setObject_ne hzx] at hz
      exact ha.kinds z n hz
  · rw [hheld]
    exact ha.counted
  · rw [hheld]
    exact ha.few

theorem Accounted.addObject (ha : Accounted h o.impl) (hk : Kind h.type o) :
    Accounted (h.addObject o) none := by
  have hheld : holding (h.addObject o) = plus (holding h) o.impl := holders_append h.objects o
  refine ⟨fun x n hx => ?_, ?_, ?_, ha.safe⟩
  · rcases get_addObject_cases hx with hx | rfl
    · exact ha.kinds x n hx
    · exact hk
  · rw [plus_none, hheld]
    exact ha.counted
  · rw [plus_none, hheld]
    exact ha.few

/-- The new functor is held by the temporary that it is made for. -/
theorem Accounted.newImpl (ha : Accounted h none) (t : HandlerType) :
    Accounted (h.newImpl t) (some h.impls.made) ∧
      Kind (h.newImpl t).type (.ofImpl t h.impls.made) ∧
      ∀ x o, h.get x = some o → Kind (h.newImpl t).type o := by
  have hcounted := ha.counted
  have hfew := ha.few
  rw [plus_none] at hcounted hfew
  have hkeeps : ∀ x o, h.get x = some o → Kind (h.newImpl t).type o := fun x o hget =>
    (ha.kinds x o hget).of_type fun i hi =>
      Function.update_of_ne (Nat.ne_of_lt (ha.live hget hi).1) ..
  have htype : (h.newImpl t).type h.impls.made = t := Function.update_self ..
  have hkind : Kind (h.newImpl t).type (.ofImpl _ h.impls.made) := .impl h.impls.made
  rw [htype] at hkind
  refine ⟨⟨hkeeps, hcounted.create, fun i => ?_, ha.safe⟩, hkind, hkeeps⟩
  have hheld : holding (h.newImpl t) = holding h := rfl
  rw [hheld]
  by_cases hi : i = h.impls.made
  · rw [hi, plus_self, (hcounted.unborn _ (Nat.le_refl _)).2]
    decide
  · rw [plus_other hi]
    exact hfew i

theorem control_duplicate (h : Heap) (i : ImplId) :
    h.control (some (.handler (h.type i))) .duplicate (some (.impl i)) =
      (some (.impl i), { h with impls := h.impls.acquire i }) := by
  simp only [Heap.control, Heap.handlerControl, if_true]

theorem control_release (h : Heap) (i : ImplId) :
    h.control (some (.handler (h.type i))) .release (some (.impl i)) =
      (none, { h with impls := h.impls.release i }) := by
  simp only [Heap.control, Heap.handlerControl, if_true]

/-- A copy has the members of the original, and a reference of its own. -/
theorem Accounted.copyOf (ha : Accounted h none) (hget : h.get y = some rhs)
    (hcopy : CanCopy h rhs) :
    ∃ h', h.copyOf rhs = (rhs, h') ∧ Accounted h' rhs.impl ∧ h'.objects = h.objects ∧
      h'.type = h.type := by
  have hheld : ∀ i ∈ rhs.impl, 0 < holding h i := fun i hi =>
    holders_pos (getElem_of_get hget) hi
  have hcounted := ha.counted
  have hfew := ha.few
  rw [plus_none] at hcounted hfew
  cases ha.kinds y rhs hget with
  | empty => exact ⟨h, rfl, ha, rfl, rfl⟩
  | movedFrom => exact absurd rfl hcopy.1
  | raw p => exact ⟨h, rfl, ha, rfl, rfl⟩
  | impl i =>
    refine ⟨{ h with impls := h.impls.acquire i }, ?_, ?_, rfl, rfl⟩
    · simp only [Heap.copyOf, Object.ofImpl, control_duplicate]
    · refine ⟨ha.kinds, hcounted.acquire (hheld i rfl), fun j => ?_, ha.safe⟩
      have hroom := hcopy.2 i rfl
      have hothers := hfew j
      by_cases hj : j = i
      · subst hj
        exact Nat.lt_of_le_of_lt (plus_le (holding h) _ j) (Nat.succ_lt_succ hroom)
      · exact Nat.lt_of_le_of_lt (Nat.le_of_eq (plus_other hj)) hothers

/-- A temporary gives its reference back. -/
theorem Accounted.destruct (ha : Accounted h o.impl) (hk : Kind h.type o) :
    Accounted (h.destruct o) none := by
  cases hk with
  | empty => exact ha
  | movedFrom => exact ha
  | raw p => exact ha
  | impl i =>
    have hdestruct : h.destruct (.ofImpl (h.type i) i) =
        { h with impls := h.impls.release i } := by
      simp only [Heap.destruct, Object.ofImpl, control_release, Option.isSome_some, and_self,
        if_true]
    have hfew := ha.few
    have hcount : plus (holding h) (some i) i = holding h i + 1 := plus_self
    have hlast : toInt (holding h i + 1) = 1 → holding h i = 0 := by
      intro hone
      have hi : plus (holding h) (some i) i < 2147483648 := hfew i
      rw [toInt_of_range (by omega) (by omega)] at hone
      omega
    rw [hdestruct]
    refine ⟨ha.kinds, ?_, fun j => ?_, ha.safe⟩
    · rw [plus_none]
      exact ha.counted.release hlast
    · rw [plus_none]
      exact Nat.lt_of_le_of_lt (Nat.le_add_right _ _) (hfew j)

/-- An object whose context is not null has the call function that belongs to it. -/
def Target.ofContext : Option Context → Target
  | none => .default
  | some (.raw p) => .raw p
  | some (.impl i) => .handler i

theorem Accounted.target (ha : Accounted h none) (hget : h.get x = some o) :
    h.target o = Target.ofContext o.context := by
  cases hk : ha.kinds x o hget with
  | empty => rfl
  | movedFrom => rfl
  | raw p => rfl
  | impl i =>
    have hlive : h.impls.released i = false := (ha.live hget rfl).2
    simp only [Heap.target, Object.ofImpl, hlive, and_self, if_true, Target.ofContext]

theorem Accounted.callObject (ha : Accounted h none) (hget : h.get x = some o) :
    h.callObject o = h := by
  rw [Heap.callObject, ha.target hget]
  rcases o.context with - | (- | -)
  · rfl
  · rfl
  · rfl

/-! ## Each operation -/

theorem copyOf_setObject (h : Heap) (x : ObjectId) (o : Option Object) (rhs : Object) :
    (h.setObject x o).copyOf rhs = ((h.copyOf rhs).1, (h.copyOf rhs).2.setObject x o) := by
  obtain ⟨context, call, control⟩ := rhs
  rcases control with - | (- | t)
  · rfl
  · rfl
  · rcases context with - | (- | i)
    · rfl
    · rfl
    · by_cases htype : h.type i = t
      · simp only [Heap.copyOf, Heap.control, Heap.handlerControl, Heap.setObject, htype, if_true]
      · simp only [Heap.copyOf, Heap.control, Heap.handlerControl, Heap.setObject, htype, if_false]

/-- The copy takes the place of what the object held, which is let go of last. -/
theorem exec_copyAssign (hthis : h.get x = some this) (hrhs : h.get y = some rhs)
    (hne : this.context ≠ rhs.context) (hcopy : h.copyOf rhs = (o, h')) :
    exec h (.copyAssign x y) = (h'.setObject x (some o)).destruct this := by
  simp only [exec, withObject_eq hthis, withObject_eq hrhs, if_neg hne, copyOf_setObject, hcopy,
    setObject_twice]

theorem get_congr (hobjects : h'.objects = h.objects) : h'.get x = h.get x := by
  rw [Heap.get, hobjects, Heap.get]

theorem Accounted.copyAssign (ha : Accounted h none) (hthis : h.get x = some this)
    (hrhs : h.get y = some rhs) (hcopy : this.context = rhs.context ∨ CanCopy h rhs) :
    Accounted (exec h (.copyAssign x y)) none := by
  by_cases hctx : this.context = rhs.context
  · simpa only [exec, withObject_eq hthis, withObject_eq hrhs, if_pos hctx] using ha
  · obtain ⟨h', heq, hcopied, hobjects, htype⟩ := ha.copyOf hrhs (hcopy.resolve_left hctx)
    have hthis' : h'.get x = some this := (get_congr hobjects).trans hthis
    have hkind := ha.kinds y rhs hrhs
    rw [exec_copyAssign hthis hrhs hctx heq]
    refine (Accounted.setObject hthis' (some rhs) hcopied fun n hn => ?_).destruct ?_
    · rwa [← Option.some.inj hn, htype]
    · have hold := ha.kinds x this hthis
      rwa [← htype] at hold

theorem Accounted.copyConstruct (ha : Accounted h none) (hrhs : h.get y = some rhs)
    (hcopy : CanCopy h rhs) : Accounted (exec h (.copyConstruct y)) none := by
  obtain ⟨h', heq, hcopied, -, htype⟩ := ha.copyOf hrhs hcopy
  have hkind := ha.kinds y rhs hrhs
  rw [← htype] at hkind
  simp only [exec, withObject_eq hrhs, heq]
  exact hcopied.addObject hkind

/-- An object that is moved from keeps nothing. -/
theorem Accounted.moveFrom (ha : Accounted h none) (hrhs : h.get y = some rhs) :
    Accounted (h.setObject y (some .null)) rhs.impl :=
  Accounted.setObject hrhs (some .null) ha fun n hn => by
    rw [← Option.some.inj hn]
    exact .movedFrom

theorem Accounted.moveConstruct (ha : Accounted h none) (hrhs : h.get y = some rhs) :
    Accounted (exec h (.moveConstruct y)) none := by
  simp only [exec, withObject_eq hrhs]
  exact (ha.moveFrom hrhs).addObject (ha.kinds y rhs hrhs)

theorem Accounted.moveAssign (ha : Accounted h none) (hthis : h.get x = some this)
    (hrhs : h.get y = some rhs) : Accounted (exec h (.moveAssign x y)) none := by
  by_cases hctx : this.context = rhs.context
  · simpa only [exec, withObject_eq hthis, withObject_eq hrhs, if_pos hctx] using ha
  · have hne : x ≠ y := by
      rintro rfl
      rw [hthis] at hrhs
      exact hctx (congrArg Object.context (Option.some.inj hrhs))
    have hthis' : (h.setObject y (some .null)).get x = some this := by
      rw [get_setObject_ne hne, hthis]
    simp only [exec, withObject_eq hthis, withObject_eq hrhs, if_neg hctx, setObject_comm hne]
    refine (Accounted.setObject hthis' (some rhs) (ha.moveFrom hrhs) fun n hn => ?_).destruct
      (ha.kinds x this hthis)
    rw [← Option.some.inj hn]
    exact ha.kinds y rhs hrhs

theorem Accounted.swap (ha : Accounted h none) (hthis : h.get x = some this)
    (hrhs : h.get y = some rhs) : Accounted (exec h (.swap x y)) none := by
  simp only [exec, withObject_eq hthis, withObject_eq hrhs]
  by_cases hne : x = y
  · subst hne
    obtain rfl : this = rhs := Option.some.inj (hthis.symm.trans hrhs)
    rwa [setObject_self hthis, setObject_self hthis]
  · have hthis' : (h.setObject y (some .null)).get x = some this := by
      rw [get_setObject_ne hne, hthis]
    have hnull : ((h.setObject y (some .null)).setObject x (some rhs)).get y = some .null := by
      rw [get_setObject_ne (Ne.symm hne), get_setObject hrhs]
    -- As if the object were moved from in between.
    have hsteps : (h.setObject x (some rhs)).setObject y (some this) =
        ((h.setObject y (some .null)).setObject x (some rhs)).setObject y (some this) := by
      rw [← setObject_comm hne, setObject_twice]
    rw [hsteps]
    have hmoved := Accounted.setObject hthis' (some rhs) (ha.moveFrom hrhs) fun n hn => by
      rw [← Option.some.inj hn]
      exact ha.kinds y rhs hrhs
    refine Accounted.setObject hnull (some this) hmoved fun n hn => ?_
    rw [← Option.some.inj hn]
    exact ha.kinds x this hthis

theorem Accounted.exec (ha : Accounted h none) {op : Op} (hen : Enabled h op)
    (hcopies : CopiesAreMade h op) : Accounted (exec h op) none := by
  cases op with
  | construct => exact Accounted.addObject ha .empty
  | ofRaw p =>
    refine Accounted.addObject (o := .ofRaw p) ?_ (.ofRaw p)
    rwa [impl_ofRaw]
  | ofHandler t =>
    obtain ⟨hnew, hkind, -⟩ := ha.newImpl t
    exact Accounted.addObject (o := .ofImpl t h.impls.made) hnew hkind
  | copyConstruct y =>
    obtain ⟨rhs, hrhs⟩ := Option.isSome_iff_exists.mp hen
    exact ha.copyConstruct hrhs (hcopies rhs hrhs)
  | moveConstruct y =>
    obtain ⟨rhs, hrhs⟩ := Option.isSome_iff_exists.mp hen
    exact ha.moveConstruct hrhs
  | assignRaw x p =>
    obtain ⟨this, hthis⟩ := Option.isSome_iff_exists.mp hen
    simp only [FunctionObjects.exec, withObject_eq hthis]
    refine (Accounted.setObject hthis (some (.ofRaw p)) ?_ fun n hn => ?_).destruct
      (ha.kinds x this hthis)
    · rwa [Option.bind_some, impl_ofRaw]
    · rw [← Option.some.inj hn]
      exact .ofRaw p
  | assignHandler x t =>
    obtain ⟨this, hthis⟩ := Option.isSome_iff_exists.mp hen
    simp only [FunctionObjects.exec, withObject_eq hthis]
    obtain ⟨hnew, hkind, hkeeps⟩ := ha.newImpl t
    have hthis' : (h.newImpl t).get x = some this := hthis
    refine (Accounted.setObject hthis' (some (.ofImpl t h.impls.made)) hnew
      fun n hn => ?_).destruct ?_
    · rwa [← Option.some.inj hn]
    · exact hkeeps x this hthis
  | copyAssign x y =>
    obtain ⟨this, hthis⟩ := Option.isSome_iff_exists.mp hen.1
    obtain ⟨rhs, hrhs⟩ := Option.isSome_iff_exists.mp hen.2
    exact ha.copyAssign hthis hrhs (hcopies this hthis rhs hrhs)
  | moveAssign x y =>
    obtain ⟨this, hthis⟩ := Option.isSome_iff_exists.mp hen.1
    obtain ⟨rhs, hrhs⟩ := Option.isSome_iff_exists.mp hen.2
    exact ha.moveAssign hthis hrhs
  | swap x y =>
    obtain ⟨this, hthis⟩ := Option.isSome_iff_exists.mp hen.1
    obtain ⟨rhs, hrhs⟩ := Option.isSome_iff_exists.mp hen.2
    exact ha.swap hthis hrhs
  | call x =>
    obtain ⟨o, ho⟩ := Option.isSome_iff_exists.mp hen
    simp only [FunctionObjects.exec, withObject_eq ho]
    rwa [ha.callObject ho]
  | destroy x =>
    obtain ⟨this, hthis⟩ := Option.isSome_iff_exists.mp hen
    simp only [FunctionObjects.exec, withObject_eq hthis]
    exact (Accounted.setObject hthis none ha nofun).destruct (ha.kinds x this hthis)

/-! ## Every run -/

/-- No call through null and none of a deleted functor, counts that are those of the holders, and
calls that run what the context points to. -/
structure Sound (h : Heap) : Prop where
  noNullCall : h.nullCall = false
  noMisuse : h.misuse = false ∧ h.impls.stale = false
  count : ∀ i < h.impls.made, h.impls.released i = false → h.impls.count i = holding h i
  deleted : ∀ i < h.impls.made, h.impls.released i = true ↔ holding h i = 0
  held : ∀ x o, h.get x = some o → ∀ i ∈ o.impl, i < h.impls.made ∧ h.impls.released i = false
  calls : ∀ x o, h.get x = some o → h.target o = Target.ofContext o.context

/-- What a call of an object runs, if there is one. -/
def targetAt (h : Heap) (x : ObjectId) : Option Target := (h.get x).map h.target

/-- A copy runs what the original runs, which still runs what it did. -/
structure CopiesCall (h : Heap) : Prop where
  constructed : ∀ y, Enabled h (.copyConstruct y) → CopiesAreMade h (.copyConstruct y) →
    targetAt (exec h (.copyConstruct y)) h.objects.length = targetAt h y ∧
      targetAt (exec h (.copyConstruct y)) y = targetAt h y
  assigned : ∀ x y, Enabled h (.copyAssign x y) → CopiesAreMade h (.copyAssign x y) →
    targetAt (exec h (.copyAssign x y)) x = targetAt h y ∧
      targetAt (exec h (.copyAssign x y)) y = targetAt h y

theorem Accounted.sound (ha : Accounted h none) : Sound h := by
  have hcounted := ha.counted
  have hfew := ha.few
  rw [plus_none] at hcounted hfew
  refine ⟨ha.safe.1, ⟨ha.safe.2, hcounted.fresh⟩, fun i hmade _ => ?_, hcounted.released,
    fun x o hget i hi => ha.live hget hi, fun x o hget => ha.target hget⟩
  have hlt := hfew i
  rw [hcounted.count i hmade, toInt_of_range (by omega) (by omega)]

theorem Accounted.targetAt_eq (ha : Accounted h none) (hget : h.get x = some o) :
    targetAt h x = some (Target.ofContext o.context) := by
  rw [targetAt, hget, Option.map_some, ha.target hget]

theorem destruct_objects (h : Heap) (o : Object) : (h.destruct o).objects = h.objects := by
  obtain ⟨context, call, control⟩ := o
  unfold Heap.destruct
  split_ifs
  · rcases control with - | (- | t)
    · rfl
    · rfl
    · rcases context with - | (- | i)
      · rfl
      · rfl
      · simp only [Heap.control, Heap.handlerControl]
        split_ifs <;> rfl
  · rfl

theorem Accounted.copiesCall (ha : Accounted h none) : CopiesCall h := by
  constructor
  · intro y hen hcopies
    obtain ⟨rhs, hrhs⟩ := Option.isSome_iff_exists.mp hen
    obtain ⟨h', heq, -, hobjects, -⟩ := ha.copyOf hrhs (hcopies rhs hrhs)
    have hafter := ha.exec hen hcopies
    have hexec : FunctionObjects.exec h (.copyConstruct y) = h'.addObject rhs := by
      simp only [FunctionObjects.exec, withObject_eq hrhs, heq]
    have hcopy : (h'.addObject rhs).get h.objects.length = some rhs := by
      rw [← hobjects]
      exact get_addObject_self h' rhs
    have hsame : (h'.addObject rhs).get y = some rhs :=
      get_addObject ((get_congr hobjects).trans hrhs) rhs
    rw [hexec] at hafter ⊢
    rw [hafter.targetAt_eq hcopy, hafter.targetAt_eq hsame, ha.targetAt_eq hrhs]
    exact ⟨rfl, rfl⟩
  · intro x y hen hcopies
    obtain ⟨this, hthis⟩ := Option.isSome_iff_exists.mp hen.1
    obtain ⟨rhs, hrhs⟩ := Option.isSome_iff_exists.mp hen.2
    have hafter := ha.exec hen hcopies
    by_cases hctx : this.context = rhs.context
    · have hexec : FunctionObjects.exec h (.copyAssign x y) = h := by
        simp only [FunctionObjects.exec, withObject_eq hthis, withObject_eq hrhs, if_pos hctx]
      rw [hexec, ha.targetAt_eq hthis, ha.targetAt_eq hrhs, hctx]
      exact ⟨rfl, rfl⟩
    · obtain ⟨h', heq, -, hobjects, -⟩ :=
        ha.copyOf hrhs ((hcopies this hthis rhs hrhs).resolve_left hctx)
      have hne : y ≠ x := by
        rintro rfl
        rw [hthis] at hrhs
        exact hctx (congrArg Object.context (Option.some.inj hrhs))
      have hthis' : h'.get x = some this := (get_congr hobjects).trans hthis
      have hexec := exec_copyAssign hthis hrhs hctx heq
      have hget (z : ObjectId) : ((h'.setObject x (some rhs)).destruct this).get z =
          (h'.setObject x (some rhs)).get z := get_congr (destruct_objects _ this)
      have hcopy := (hget x).trans (get_setObject hthis' (some rhs))
      have hsame := (hget y).trans (get_setObject_ne hne (some rhs))
      rw [get_congr hobjects, hrhs] at hsame
      rw [hexec] at hafter ⊢
      rw [hafter.targetAt_eq hcopy, hafter.targetAt_eq hsame, ha.targetAt_eq hrhs]
      exact ⟨rfl, rfl⟩

theorem accounted_initial : Accounted initial none := by
  refine ⟨nofun, ?_, fun i => ?_, rfl, rfl⟩
  · rw [plus_none]
    exact Counted.initial
  · rw [plus_none]
    exact Nat.lt_of_le_of_lt (holders_le [] i) (by decide)

theorem accounted_execution (h : machine.Execution CopiesAreMade initial h') :
    Accounted h' none :=
  h.invariant (I := fun h => Accounted h none) accounted_initial
    fun _ _ _ ha hen hcopies => ha.exec hen hcopies

theorem handlers_sound (h : machine.Execution CopiesAreMade initial h') :
    Sound h' ∧ CopiesCall h' :=
  ⟨(accounted_execution h).sound, (accounted_execution h).copiesCall⟩

/-- Objects of all four kinds, assigned to each other and to themselves. -/
def mixed : List Op :=
  [.construct, .ofRaw (some 5), .ofHandler 1, .copyConstruct 2, .copyAssign 0 2, .moveAssign 2 2,
    .moveConstruct 3, .copyAssign 2 4, .copyAssign 3 0, .moveAssign 1 4, .assignHandler 4 2,
    .swap 4 0, .call 4, .assignRaw 0 none, .moveAssign 3 0, .call 3, .destroy 4, .destroy 2]

theorem handlers_sound_mixed :
    Sound (machine.runTrace initial mixed) ∧ CopiesCall (machine.runTrace initial mixed) := by
  have hvalid : machine.ValidTrace CopiesAreMade initial mixed := by decide +kernel
  exact handlers_sound hvalid.execution

/-! ## Copies of objects without a control function -/

theorem destruct_nullCall (h : Heap) (o : Object) : (h.destruct o).nullCall = h.nullCall := by
  obtain ⟨context, call, control⟩ := o
  rcases control with - | (- | t)
  · simp [Heap.destruct]
  · simp [Heap.destruct, Heap.control]
  · rcases context with - | (- | i)
    · rfl
    · rfl
    · simp only [Heap.destruct, Heap.control, Heap.handlerControl]
      split_ifs <;> rfl

theorem copyOf_null (h : Heap) (hnull : rhs.control = none) :
    h.copyOf rhs = (⟨none, rhs.call, none⟩, { h with nullCall := true }) := by
  rw [Heap.copyOf, hnull]
  rfl

theorem copyConstruct_nullCall (hrhs : h.get y = some rhs) (hnull : rhs.control = none) :
    (exec h (.copyConstruct y)).nullCall = true := by
  simp only [FunctionObjects.exec, withObject_eq hrhs, copyOf_null h hnull]
  rfl

theorem copyAssign_nullCall (hthis : h.get x = some this) (hrhs : h.get y = some rhs)
    (hctx : this.context ≠ rhs.context) (hnull : rhs.control = none) :
    (exec h (.copyAssign x y)).nullCall = true := by
  rw [exec_copyAssign hthis hrhs hctx (copyOf_null h hnull), destruct_nullCall]
  rfl

/-- A copy of an object that has been moved from. -/
theorem movedFrom_not_sound : ¬ ∀ h, machine.Reachable initial h → Sound h := by
  intro hall
  have hvalid : machine.ValidTrace (fun _ _ => True) initial
      [.construct, .moveConstruct 0, .copyConstruct 0] := by decide +kernel
  have hsound := (hall _ hvalid.reachable).noNullCall
  rw [System.runTrace, System.runTrace, System.runTrace, System.runTrace] at hsound
  cases hsound

end FunctionHandlers
