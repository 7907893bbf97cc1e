import Mathlib.Logic.Function.Basic
import Tcode.BufferBlock
import Tcode.SupportRegions
import Tcode.SupportTransitionSystem

/-! # block_manager

Blocks by their addresses. A header lies in front of each handle; what lies behind it is in
`BufferBlock`. What `malloc` answers is part of an operation. Of each block it is noted how many
references its users have, which sizes they asked for and which allocator it came from.
-/
namespace BufferBlockManager

open SupportMachineInt SupportRegions SupportTransitionSystem BufferBlock

/-- Null is zero. -/
abbrev Addr := Nat

abbrev Handle := Nat

/-- The regions of `malloc`, and whether something else was freed or used. -/
structure Memory where
  regions : List Region
  fault : Bool
  deriving DecidableEq, Repr

namespace Memory

def malloc (m : Memory) (answer : Addr) (size : Nat) : Memory :=
  { m with regions := ⟨answer, size⟩ :: m.regions }

def free (m : Memory) (ptr : Addr) : Memory :=
  if Begins m.regions ptr then { m with regions := release m.regions ptr }
  else { m with fault := true }

end Memory

/-! ## fixed_size_allocator -/

def freeThreshold : Nat := 4096

/-- `FREE_THRESHOLD * 0.8` without its fraction. -/
def freeRemains : Nat := freeThreshold * 8 / 10

/-- The last element of `_pool` comes first. -/
structure FixedSizeAllocator where
  allocSize : Nat
  pool : List Addr
  deriving DecidableEq, Repr

namespace FixedSizeAllocator

def init (size : Nat) : FixedSizeAllocator := ⟨if size < 8 then 8 else size, []⟩

def alloc (a : FixedSizeAllocator) (m : Memory) (answer : Addr) :
    Addr × FixedSizeAllocator × Memory :=
  match a.pool with
  | ptr :: pool => (ptr, { a with pool }, m)
  | [] => (answer, a, m.malloc answer a.allocSize)

/-- `while( _pool.size() < FREE_REMAINS )`; `back` of an empty pool is a fault. -/
def drain (m : Memory) : List Addr → List Addr × Memory
  | [] => ([], if 0 < freeRemains then { m with fault := true } else m)
  | ptr :: pool =>
    if (ptr :: pool).length < freeRemains then drain (m.free ptr) pool else (ptr :: pool, m)

def free (a : FixedSizeAllocator) (m : Memory) (ptr : Addr) : FixedSizeAllocator × Memory :=
  if ptr = 0 then (a, m)
  else if freeThreshold < a.pool.length then
    let (pool, m) := drain (m.free ptr) a.pool
    ({ a with pool }, m)
  else ({ a with pool := ptr :: a.pool }, m)

end FixedSizeAllocator

/-! ## block_manager -/

structure BlockHdr where
  refcount : Int
  capacity : Nat
  deriving DecidableEq, Repr

structure State where
  hdr : Addr → BlockHdr
  allocators : Nat → FixedSizeAllocator
  memory : Memory
  references : Addr → Nat
  requested : Addr → Nat
  /-- The index of the allocator; `none` is `malloc`. -/
  home : Addr → Option Nat

def block (ptr : Handle) : Addr := ptr - blockHdrSize

def handle (pb : Addr) : Handle := pb + blockHdrSize

/-- The first entry of the table that is large enough. -/
def entryFor (size : Nat) : Option Nat := allocSizeTable.findIdx? (fun n => decide (size ≤ n))

/-- The entry that a block goes back to. -/
def entryOf (capacity : Nat) : Option Nat :=
  allocSizeTable.findIdx? (fun n => decide (n = capacity))

namespace State

/-- The count of a block, and the number of references there are now. -/
def setCount (s : State) (pb : Addr) (refcount : Int) (references : Nat) : State :=
  { s with
    hdr := Function.update s.hdr pb ⟨refcount, (s.hdr pb).capacity⟩
    references := Function.update s.references pb references }

def setPool (s : State) (i : Nat) (a : FixedSizeAllocator) : State :=
  { s with allocators := Function.update s.allocators i a }

/-- An allocator and the memory after a call of it. -/
def setAllocator (s : State) (i : Nat) (a : FixedSizeAllocator × Memory) : State :=
  { s.setPool i a.1 with memory := a.2 }

/-- A block that is returned for `size` bytes. -/
def deliver (s : State) (pb : Addr) (capacity size : Nat) (home : Option Nat) : State :=
  { s with
    hdr := Function.update s.hdr pb ⟨1, capacity⟩
    references := Function.update s.references pb 1
    requested := Function.update s.requested pb size
    home := Function.update s.home pb home }

def alloc (s : State) (size : Nat) (answer : Addr) : Handle × State :=
  match entryFor size with
  | some i =>
    let (pb, a) := (s.allocators i).alloc s.memory answer
    (handle pb, (s.setAllocator i a).deliver pb (allocSizeTable.getD i 0) size (some i))
  | none =>
    let memory := s.memory.malloc answer (toSize (size + blockHdrSize))
    (handle answer, { s with memory }.deliver answer size size none)

/-- The bytes between two blocks. -/
def memcpy (s : State) (dst src : Handle) (n : Nat) : State :=
  if Room s.memory.regions (block dst) (n + blockHdrSize) ∧
      Room s.memory.regions (block src) (n + blockHdrSize) then s
  else { s with memory := { s.memory with fault := true } }

def giveBack (s : State) (pb : Addr) : Option Nat → State
  | some i => s.setAllocator i ((s.allocators i).free s.memory pb)
  | none => { s with memory := s.memory.free pb }

def unref (s : State) (pb : Addr) : State :=
  s.setCount pb (toInt ((s.hdr pb).refcount - 1)) (s.references pb - 1)

def free (s : State) (ptr : Handle) : State :=
  if ptr = 0 then s
  else
    let pb := block ptr
    if (s.hdr pb).refcount = 1 then (s.unref pb).giveBack pb (entryOf (s.hdr pb).capacity)
    else s.unref pb

def capacity (s : State) (ptr : Handle) : Nat := if ptr = 0 then 0 else (s.hdr (block ptr)).capacity

def realloc (s : State) (ptr : Handle) (size : Nat) (answer : Addr) : Handle × State :=
  if ptr = 0 then s.alloc size answer
  else
    let pb := block ptr
    if size ≤ (s.hdr pb).capacity then
      (ptr, { s with requested := Function.update s.requested pb (max (s.requested pb) size) })
    else
      let (nptr, s) := s.alloc size answer
      (nptr, (s.memcpy nptr ptr (s.hdr pb).capacity).free ptr)

def duplicate (s : State) (ptr : Handle) : Handle × State :=
  if ptr = 0 then (0, s)
  else
    let pb := block ptr
    (ptr, s.setCount pb (toInt ((s.hdr pb).refcount + 1)) (s.references pb + 1))

def copy (s : State) (ptr : Handle) (answer : Addr) : Handle × State :=
  if ptr = 0 then (0, s)
  else
    let sz := s.capacity ptr
    let (cpy, s) := s.alloc sz answer
    (cpy, s.memcpy cpy ptr sz)

end State

inductive Op where
  | alloc (size : Nat) (answer : Addr)
  | realloc (ptr : Handle) (size : Nat) (answer : Addr)
  | duplicate (ptr : Handle)
  | copy (ptr : Handle) (answer : Addr)
  | free (ptr : Handle)
  deriving DecidableEq, Repr

def exec (s : State) : Op → State
  | .alloc size answer => (s.alloc size answer).2
  | .realloc ptr size answer => (s.realloc ptr size answer).2
  | .duplicate ptr => (s.duplicate ptr).2
  | .copy ptr answer => (s.copy ptr answer).2
  | .free ptr => s.free ptr

/-- The size that `alloc` asks `malloc` for. -/
def State.mallocSize (s : State) (size : Nat) : Option Nat :=
  match entryFor size with
  | some i => if (s.allocators i).pool = [] then some (s.allocators i).allocSize else none
  | none => some (toSize (size + blockHdrSize))

/-- The memory that `malloc` answers with is not in use. -/
def Answers (s : State) (size : Nat) (answer : Addr) : Prop :=
  ∀ n ∈ s.mallocSize size, Fresh s.memory.regions answer n

/-- A handle that is null or that its user has a reference for. -/
def Owned (s : State) (ptr : Handle) : Prop :=
  ptr = 0 ∨ blockHdrSize ≤ ptr ∧ 0 < s.references (block ptr)

def Enabled (s : State) : Op → Prop
  | .alloc size answer => Answers s size answer
  | .realloc ptr size answer =>
    Owned s ptr ∧ (ptr ≠ 0 ∧ size ≤ s.capacity ptr ∨ Answers s size answer)
  | .duplicate ptr | .free ptr => Owned s ptr
  | .copy ptr answer => Owned s ptr ∧ (ptr = 0 ∨ Answers s (s.capacity ptr) answer)

instance (s : State) (size : Nat) (answer : Addr) : Decidable (Answers s size answer) :=
  inferInstanceAs (Decidable (∀ n ∈ s.mallocSize size, _))

instance (s : State) (ptr : Handle) : Decidable (Owned s ptr) :=
  inferInstanceAs (Decidable (_ ∨ _))

instance (s : State) : ∀ op : Op, Decidable (Enabled s op)
  | .alloc size answer => inferInstanceAs (Decidable (Answers s size answer))
  | .realloc _ _ _ => inferInstanceAs (Decidable (_ ∧ (_ ∧ _ ∨ _)))
  | .duplicate ptr | .free ptr => inferInstanceAs (Decidable (Owned s ptr))
  | .copy _ _ => inferInstanceAs (Decidable (_ ∧ (_ ∨ _)))

def machine : System State Op := ⟨Enabled, exec⟩

instance (s : State) (op : Op) : Decidable (machine.Enabled s op) :=
  inferInstanceAs (Decidable (Enabled s op))

def initial : State where
  hdr _ := ⟨0, 0⟩
  allocators i := .init (allocSizeTable.getD i 0 + blockHdrSize)
  memory := ⟨[], false⟩
  references _ := 0
  requested _ := 0
  home _ := none

section Fields

variable (s : State) (i : Nat) (a : FixedSizeAllocator)

@[simp] theorem setPool_self : (s.setPool i a).allocators i = a := Function.update_self ..

theorem setPool_ne {j : Nat} (hji : j ≠ i) : (s.setPool i a).allocators j = s.allocators j :=
  Function.update_of_ne hji ..

@[simp] theorem setPool_same : s.setPool i (s.allocators i) = s := by
  rw [State.setPool, Function.update_eq_self]

variable (pb : Addr) (refcount : Int) (references : Nat)

@[simp] theorem setCount_hdr : (s.setCount pb refcount references).hdr pb =
    ⟨refcount, (s.hdr pb).capacity⟩ := Function.update_self ..

@[simp] theorem setCount_references :
    (s.setCount pb refcount references).references pb = references := Function.update_self ..

end Fields

/-! ## The table -/

section Table

variable {size capacity i : Nat}

theorem entryOf_table : ∀ i < allocSizeTable.length,
    entryOf (allocSizeTable.getD i 0) = some i := by decide

theorem table_le : ∀ i < allocSizeTable.length, allocSizeTable.getD i 0 ≤ 16384 := by decide

theorem entryFor_some (h : entryFor size = some i) :
    i < allocSizeTable.length ∧ size ≤ allocSizeTable.getD i 0 := by
  obtain ⟨hi, hle, -⟩ := List.findIdx?_eq_some_iff_getElem.mp h
  rw [← List.getElem_eq_getD (h := hi) 0]
  exact ⟨hi, of_decide_eq_true hle⟩

theorem entryOf_some (h : entryOf capacity = some i) :
    i < allocSizeTable.length ∧ allocSizeTable.getD i 0 = capacity := by
  obtain ⟨hi, heq, -⟩ := List.findIdx?_eq_some_iff_getElem.mp h
  rw [← List.getElem_eq_getD (h := hi) 0]
  exact ⟨hi, of_decide_eq_true heq⟩

/-- What the table is too small for does not go back to it. -/
theorem entryOf_none (h : entryFor size = none) : entryOf size = none := by
  rw [entryFor, List.findIdx?_eq_none_iff] at h
  refine List.findIdx?_eq_none_iff.mpr fun n hn => decide_eq_false fun heq => ?_
  exact of_decide_eq_false (h n hn) (Nat.le_of_eq heq.symm)

end Table

end BufferBlockManager
