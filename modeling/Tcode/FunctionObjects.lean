import Tcode.SupportHolders
import Tcode.SupportTransitionSystem

/-! # Function objects and their handlers

A `tcode::function` is three pointers. Two flags note a call through a null pointer, and code of
a `handler_impl` that runs on anything but one of its type that is not deleted. What a functor
does when it is called, copied or destroyed is no part of the operation.
-/
namespace FunctionObjects

open SupportHolders SupportTransitionSystem

abbrev ObjectId := Nat

abbrev ImplId := Nat

/-- The `Handler` of a `handler_impl< Handler >`. -/
abbrev HandlerType := Nat

/-- What `_context` points to. -/
inductive Context where
  | raw (p : Nat)
  | impl (i : ImplId)
  deriving DecidableEq, Repr

/-- The functions that `_call` and `_control` point to: those of a function pointer, and those of
a `handler_impl`. -/
inductive Code where
  | functionPtr
  | handler (t : HandlerType)
  deriving DecidableEq, Repr

structure Object where
  context : Option Context
  call : Option Code
  control : Option Code
  deriving DecidableEq, Repr

namespace Object

/-- `function( raw_handler_type raw_handler )`, whose argument may be null. -/
def ofRaw (p : Option Nat) : Object := ⟨p.map .raw, some .functionPtr, some .functionPtr⟩

/-- `function( void )`. -/
def empty : Object := ⟨none, some .functionPtr, some .functionPtr⟩

def ofImpl (t : HandlerType) (i : ImplId) : Object :=
  ⟨some (.impl i), some (.handler t), some (.handler t)⟩

/-- What a moved-from object is. -/
def null : Object := ⟨none, none, none⟩

/-- The `handler_impl` that an object holds. -/
def impl (o : Object) : Option ImplId :=
  match o.context with
  | some (.impl i) => some i
  | _ => none

end Object

/-- Only the private `clone` asks for `CLONE`. -/
inductive HandlerOps where
  | duplicate
  | release
  deriving DecidableEq, Repr

structure Heap where
  impls : Counts
  type : ImplId → HandlerType
  /-- In the order of their construction; `none` has been destroyed. -/
  objects : List (Option Object)
  nullCall : Bool
  misuse : Bool

/-- What a call of an object runs. -/
inductive Target where
  | default
  | raw (p : Nat)
  | handler (i : ImplId)
  | nullCall
  | misuse
  deriving DecidableEq, Repr

namespace Heap

def get (h : Heap) (x : ObjectId) : Option Object := h.objects[x]?.join

def setObject (h : Heap) (x : ObjectId) (o : Option Object) : Heap :=
  { h with objects := h.objects.set x o }

def addObject (h : Heap) (o : Object) : Heap := { h with objects := h.objects ++ [some o] }

/-- `new handler_impl< Handler >( handler )`. -/
def newImpl (h : Heap) (t : HandlerType) : Heap :=
  { h with impls := h.impls.create, type := Function.update h.type h.impls.made t }

/-- `handler_impl::control`. -/
def handlerControl (h : Heap) (t : HandlerType) (op : HandlerOps) (ctx : Option Context) :
    Option Context × Heap :=
  match ctx with
  | some (.impl i) =>
    if h.type i = t then
      match op with
      | .duplicate => (some (.impl i), { h with impls := h.impls.acquire i })
      | .release => (none, { h with impls := h.impls.release i })
    else (none, { h with misuse := true })
  | _ => (none, { h with misuse := true })

/-- A call through `_control`. -/
def control (h : Heap) (code : Option Code) (op : HandlerOps) (ctx : Option Context) :
    Option Context × Heap :=
  match code with
  | none => (none, { h with nullCall := true })
  | some .functionPtr => (ctx, h)
  | some (.handler t) => h.handlerControl t op ctx

/-- The members that a copy gets. -/
def copyOf (h : Heap) (rhs : Object) : Object × Heap :=
  let (ctx, h) := h.control rhs.control .duplicate rhs.context
  (⟨ctx, rhs.call, rhs.control⟩, h)

/-- `~function()`. -/
def destruct (h : Heap) (o : Object) : Heap :=
  if o.context.isSome ∧ o.control.isSome then (h.control o.control .release o.context).2 else h

def target (h : Heap) (o : Object) : Target :=
  match o.context, o.call with
  | none, _ => .default
  | some _, none => .nullCall
  | some (.raw p), some .functionPtr => .raw p
  | some (.impl i), some (.handler t) =>
    if h.type i = t ∧ h.impls.released i = false then .handler i else .misuse
  | _, _ => .misuse

/-- `operator()`. -/
def callObject (h : Heap) (o : Object) : Heap :=
  match h.target o with
  | .nullCall => { h with nullCall := true }
  | .misuse => { h with misuse := true }
  | _ => h

/-- An operation on one object. -/
def withObject (h : Heap) (x : ObjectId) (f : Object → Heap) : Heap := (h.get x).elim h f

end Heap

inductive Op where
  | construct
  | ofRaw (p : Option Nat)
  | ofHandler (t : HandlerType)
  | copyConstruct (y : ObjectId)
  | moveConstruct (y : ObjectId)
  | assignRaw (x : ObjectId) (p : Option Nat)
  | assignHandler (x : ObjectId) (t : HandlerType)
  | copyAssign (x y : ObjectId)
  | moveAssign (x y : ObjectId)
  | swap (x y : ObjectId)
  | call (x : ObjectId)
  | destroy (x : ObjectId)
  deriving DecidableEq, Repr

def exec (h : Heap) : Op → Heap
  | .construct => h.addObject .empty
  | .ofRaw p => h.addObject (.ofRaw p)
  | .ofHandler t => (h.newImpl t).addObject (.ofImpl t h.impls.made)
  | .copyConstruct y =>
    h.withObject y fun rhs =>
      let (f, h) := h.copyOf rhs
      h.addObject f
  | .moveConstruct y => h.withObject y fun rhs => (h.setObject y (some .null)).addObject rhs
  | .assignRaw x p => h.withObject x fun this => (h.setObject x (some (.ofRaw p))).destruct this
  | .assignHandler x t =>
    h.withObject x fun this =>
      ((h.newImpl t).setObject x (some (.ofImpl t h.impls.made))).destruct this
  | .copyAssign x y =>
    h.withObject x fun this => h.withObject y fun rhs =>
      if this.context = rhs.context then h
      else
        -- The old members are in a temporary, which is destroyed at the end.
        let (f, h) := (h.setObject x (some .null)).copyOf rhs
        (h.setObject x (some f)).destruct this
  | .moveAssign x y =>
    h.withObject x fun this => h.withObject y fun rhs =>
      if this.context = rhs.context then h
      else ((h.setObject x (some rhs)).setObject y (some .null)).destruct this
  | .swap x y =>
    h.withObject x fun this => h.withObject y fun rhs =>
      (h.setObject x (some rhs)).setObject y (some this)
  | .call x => h.withObject x fun o => h.callObject o
  | .destroy x => h.withObject x fun this => (h.setObject x none).destruct this

def Enabled (h : Heap) : Op → Prop
  | .construct | .ofRaw _ | .ofHandler _ => True
  | .copyConstruct y | .moveConstruct y => (h.get y).isSome
  | .assignRaw x _ | .assignHandler x _ | .call x | .destroy x => (h.get x).isSome
  | .copyAssign x y | .moveAssign x y | .swap x y => (h.get x).isSome ∧ (h.get y).isSome

instance (h : Heap) : (op : Op) → Decidable (Enabled h op)
  | .construct | .ofRaw _ | .ofHandler _ => inferInstanceAs (Decidable True)
  | .copyConstruct _ | .moveConstruct _ | .assignRaw _ _ | .assignHandler _ _ | .call _
  | .destroy _ => inferInstanceAs (Decidable (_ = true))
  | .copyAssign _ _ | .moveAssign _ _ | .swap _ _ => inferInstanceAs (Decidable (_ ∧ _))

def machine : System Heap Op := ⟨Enabled, exec⟩

instance (h : Heap) (op : Op) : Decidable (machine.Enabled h op) :=
  inferInstanceAs (Decidable (Enabled h op))

def initial : Heap := ⟨.initial, fun _ => 0, [], false, false⟩

theorem withObject_eq {h : Heap} {x : ObjectId} {o : Object} (hget : h.get x = some o)
    (f : Object → Heap) : h.withObject x f = f o := by
  rw [Heap.withObject, hget, Option.elim_some]

end FunctionObjects
