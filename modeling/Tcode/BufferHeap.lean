import Mathlib.Logic.Function.Basic
import Tcode.BufferByteBuffer
import Tcode.SupportTransitionSystem

/-! # Several byte_buffers and their blocks

Objects refer to blocks, which several of them may share. An operation on one object is the one
of `BufferByteBuffer` on what the object sees of its block. Two flags note an access outside of a
block and one to a block that has been released, which here keeps its header and its memory.
-/
namespace BufferHeap

open SupportMachineInt SupportTransitionSystem BufferBlock BufferByteBuffer

abbrev ObjectId := Nat

abbrev BlockId := Nat

/-- A `byte_buffer`. -/
structure Object where
  block : Option BlockId
  pos : Position
  deriving DecidableEq, Repr

/-- What a default constructed and a moved-from `byte_buffer` are. -/
def Object.null : Object := ⟨none, ⟨0, 0⟩⟩

structure Heap where
  blocks : BlockId → Block
  released : BlockId → Bool
  made : Nat
  /-- In the order of their construction; `none` has been destroyed. -/
  objects : List (Option Object)
  outside : Bool
  stale : Bool

namespace Heap

def get (h : Heap) (x : ObjectId) : Option Object := h.objects[x]?.join

def setObject (h : Heap) (x : ObjectId) (o : Option Object) : Heap :=
  { h with objects := h.objects.set x o }

def addObject (h : Heap) (o : Object) : Heap := { h with objects := h.objects ++ [some o] }

def view (h : Heap) (o : Object) : ByteBuffer := ⟨o.block.map h.blocks, o.pos⟩

def touch (h : Heap) : Option BlockId → Heap
  | none => h
  | some b => { h with stale := h.stale || h.released b }

def setBlock (h : Heap) (b : BlockId) (k : Block) : Heap :=
  { h with blocks := Function.update h.blocks b k }

/-! ## block_manager -/

/-- A block that `alloc` returned, after what has been written to it. -/
def newBlock (h : Heap) (k : Block) : Heap := { h.setBlock h.made k with made := h.made + 1 }

def duplicate (h : Heap) : Option BlockId → Heap
  | none => h
  | some b =>
    let k := h.blocks b
    (h.touch (some b)).setBlock b { k with refcount := toInt (k.refcount + 1) }

def free (h : Heap) : Option BlockId → Heap
  | none => h
  | some b =>
    let k := h.blocks b
    { (h.touch (some b)).setBlock b { k with refcount := toInt (k.refcount - 1) } with
      released := if k.refcount = 1 then Function.update h.released b true else h.released }

section Fields

variable (h : Heap) (block : Option BlockId)

@[simp] theorem touch_blocks : (h.touch block).blocks = h.blocks := by cases block <;> rfl

@[simp] theorem touch_released : (h.touch block).released = h.released := by cases block <;> rfl

@[simp] theorem touch_made : (h.touch block).made = h.made := by cases block <;> rfl

@[simp] theorem touch_objects : (h.touch block).objects = h.objects := by cases block <;> rfl

@[simp] theorem touch_outside : (h.touch block).outside = h.outside := by cases block <;> rfl

@[simp] theorem duplicate_made : (h.duplicate block).made = h.made := by cases block <;> rfl

@[simp] theorem duplicate_objects : (h.duplicate block).objects = h.objects := by
  cases block <;> rfl

@[simp] theorem duplicate_outside : (h.duplicate block).outside = h.outside := by
  cases block <;> rfl

@[simp] theorem free_made : (h.free block).made = h.made := by cases block <;> rfl

@[simp] theorem free_objects : (h.free block).objects = h.objects := by cases block <;> rfl

@[simp] theorem free_outside : (h.free block).outside = h.outside := by cases block <;> rfl

variable (k : Block)

@[simp] theorem newBlock_self : (h.newBlock k).blocks h.made = k := Function.update_self ..

theorem newBlock_of_lt {b : BlockId} (hb : b < h.made) :
    (h.newBlock k).blocks b = h.blocks b := Function.update_of_ne (Nat.ne_of_lt hb) ..

/-- An access before leaves the blocks as they are. -/
theorem touch_newBlock_self : ((h.touch block).newBlock k).blocks h.made = k := by
  rw [← touch_made h block, newBlock_self]

theorem touch_newBlock_of_lt {b : BlockId} (hb : b < h.made) :
    ((h.touch block).newBlock k).blocks b = h.blocks b := by
  rw [newBlock_of_lt _ _ (by rwa [touch_made]), touch_blocks]

end Fields

/-! ## byte_buffer -/

/-- A buffer that begins with a block of its own. -/
def construct (h : Heap) : ByteBuffer → Heap
  | ⟨none, pos⟩ => h.addObject ⟨none, pos⟩
  | ⟨some k, pos⟩ => (h.newBlock k).addObject ⟨some h.made, pos⟩

/-- What is outside of a block is not known; the new buffer stays empty. -/
def constructFrom (h : Heap) (b : Option ByteBuffer) (sz : Nat) : Heap :=
  match b with
  | some b => h.construct b
  | none => { h.construct (.ofSize sz) with outside := true }

/-- An operation that keeps the block. -/
def update (h : Heap) (x : ObjectId) (o : Object) : Option ByteBuffer → Heap
  | none => { h.touch o.block with outside := true }
  | some b =>
    let h := (h.touch o.block).setObject x (some { o with pos := b.pos })
    match o.block, b.block with
    | some id, some k => h.setBlock id k
    | _, _ => h

/-- An operation that takes a new block, and frees the old one at its end. -/
def replace (h : Heap) (x : ObjectId) (o : Object) (b : Option ByteBuffer) (sz : Nat) : Heap :=
  match b with
  | some ⟨some k, pos⟩ =>
    (((h.touch o.block).newBlock k).free o.block).setObject x (some ⟨some h.made, pos⟩)
  | _ =>
    { (((h.touch o.block).newBlock (alloc sz)).free o.block).setObject x
        (some ⟨some h.made, ⟨0, 0⟩⟩) with outside := true }

def reserve (h : Heap) (x : ObjectId) (o : Object) (sz : Int) : Heap :=
  let b := h.view o
  if b.refcount = 1 ∧ sz < toInt b.capacity then h.touch o.block
  else h.replace x o (b.reserve sz) (toSize sz)

end Heap

inductive Op where
  | construct
  | ofSize (sz : Nat)
  | ofBytes (buf : List UInt8) (len : Nat)
  | copyConstruct (y : ObjectId)
  | moveConstruct (y : ObjectId)
  | copyAssign (x y : ObjectId)
  | moveAssign (x y : ObjectId)
  | swap (x y : ObjectId)
  | destroy (x : ObjectId)
  | wrPtr (x : ObjectId) (move : Int)
  | rdPtr (x : ObjectId) (move : Int)
  | read (x : ObjectId) (sz : Nat)
  | peak (x : ObjectId) (sz : Nat)
  | write (x : ObjectId) (src : List UInt8) (sz : Nat)
  | fit (x : ObjectId)
  | shrinkToFit (x : ObjectId)
  | clear (x : ObjectId)
  | reserve (x : ObjectId) (sz : Int)
  | subBuffer (y : ObjectId) (start len : Nat)
  | copy (y : ObjectId)
  deriving DecidableEq, Repr

/-- A new object from the result of `duplicate()`. -/
def Op.duplicate (y : ObjectId) : Op := .copyConstruct y

/-- `write_msg( msg )` of the bytes in front of the terminator. -/
def Op.writeMsg (x : ObjectId) (msg : List UInt8) : Op := .write x msg msg.length

namespace Heap

/-- An operation on one object. -/
def withObject (h : Heap) (x : ObjectId) (f : Object → Heap) : Heap := (h.get x).elim h f

end Heap

def exec (h : Heap) : Op → Heap
  | .construct => h.construct .empty
  | .ofSize sz => h.construct (.ofSize sz)
  | .ofBytes buf len => h.constructFrom (ByteBuffer.ofBytes buf len) len
  | .copyConstruct y => h.withObject y fun rhs => (h.duplicate rhs.block).addObject rhs
  | .moveConstruct y => h.withObject y fun rhs => (h.setObject y (some .null)).addObject rhs
  | .copyAssign x y =>
    h.withObject x fun this => h.withObject y fun rhs =>
      ((h.duplicate rhs.block).free this.block).setObject x (some rhs)
  | .moveAssign x y =>
    h.withObject x fun this => h.withObject y fun rhs =>
      let h := ((h.duplicate rhs.block).free this.block).setObject x (some rhs)
      -- Also when both are the same object, the block of `rhs` is still this one.
      (h.free rhs.block).setObject y (some .null)
  | .swap x y =>
    h.withObject x fun this => h.withObject y fun rhs =>
      (h.setObject x (some rhs)).setObject y (some this)
  | .destroy x => h.withObject x fun this => (h.free this.block).setObject x none
  | .wrPtr x move => h.withObject x fun o => h.update x o (some ((h.view o).wrPtr move).2)
  | .rdPtr x move => h.withObject x fun o => h.update x o (some ((h.view o).rdPtr move).2)
  | .read x sz => h.withObject x fun o => h.update x o (((h.view o).read sz).map Prod.snd)
  | .peak x sz =>
    h.withObject x fun o => h.update x o (((h.view o).peak sz).map fun _ => h.view o)
  | .write x src sz =>
    h.withObject x fun o => h.update x o (((h.view o).write src sz).map Prod.snd)
  | .fit x => h.withObject x fun o => h.update x o (h.view o).fit
  | .shrinkToFit x =>
    h.withObject x fun o => h.replace x o ((h.view o).shrinkToFit.map Prod.snd) (h.view o).length
  | .clear x => h.withObject x fun o => h.update x o (some (h.view o).clear)
  | .reserve x sz => h.withObject x fun o => h.reserve x o sz
  | .subBuffer y start len =>
    h.withObject y fun o => (h.touch o.block).constructFrom ((h.view o).subBuffer start len) len
  | .copy y =>
    h.withObject y fun o =>
      (h.touch o.block).constructFrom (h.view o).copy (h.view o).capacity

/-- An object that data can be accessed through. -/
def Heap.HasBlock (h : Heap) (x : ObjectId) : Prop := ∃ o ∈ h.get x, o.block.isSome

/-- The objects exist, those through which data are accessed have a block, and there is as much
to copy from as is said. -/
def Enabled (h : Heap) : Op → Prop
  | .construct | .ofSize _ => True
  | .ofBytes buf len => len ≤ buf.length
  | .copyConstruct y | .moveConstruct y | .copy y => (h.get y).isSome
  | .copyAssign x y | .moveAssign x y | .swap x y => (h.get x).isSome ∧ (h.get y).isSome
  | .destroy x | .wrPtr x _ | .rdPtr x _ | .clear x | .reserve x _ => (h.get x).isSome
  | .read x _ | .peak x _ | .fit x | .shrinkToFit x | .subBuffer x _ _ => h.HasBlock x
  | .write x src sz => h.HasBlock x ∧ sz ≤ src.length

instance (h : Heap) (x : ObjectId) : Decidable (h.HasBlock x) :=
  inferInstanceAs (Decidable (∃ o ∈ h.get x, o.block.isSome))

instance (h : Heap) : ∀ op : Op, Decidable (Enabled h op)
  | .construct | .ofSize _ => isTrue trivial
  | .ofBytes _ _ => inferInstanceAs (Decidable (_ ≤ _))
  | .copyConstruct _ | .moveConstruct _ | .copy _ | .destroy _ | .wrPtr _ _ | .rdPtr _ _
  | .clear _ | .reserve _ _ => inferInstanceAs (Decidable (_ = true))
  | .copyAssign _ _ | .moveAssign _ _ | .swap _ _ => inferInstanceAs (Decidable (_ ∧ _))
  | .read x _ | .peak x _ | .fit x | .shrinkToFit x | .subBuffer x _ _ =>
    inferInstanceAs (Decidable (h.HasBlock x))
  | .write x _ _ => inferInstanceAs (Decidable (h.HasBlock x ∧ _))

def machine : System Heap Op := ⟨Enabled, exec⟩

instance (h : Heap) (op : Op) : Decidable (machine.Enabled h op) :=
  inferInstanceAs (Decidable (Enabled h op))

def initial : Heap where
  blocks _ := ⟨0, 0, []⟩
  released _ := false
  made := 0
  objects := []
  outside := false
  stale := false

theorem withObject_eq {h : Heap} {x : ObjectId} {o : Object} (hget : h.get x = some o)
    (f : Object → Heap) : h.withObject x f = f o := by
  rw [Heap.withObject, hget, Option.elim_some]

end BufferHeap
