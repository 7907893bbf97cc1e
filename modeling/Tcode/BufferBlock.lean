import Tcode.SupportMachineInt

/-! # Memory blocks

The value of one block as its owner sees it: the header of `block_manager` and
the memory behind the handle. Blocks come from pools of fixed sizes or, above the
largest of them, from `malloc`, whose argument is computed modulo 2^64.
-/
namespace BufferBlock

open SupportMachineInt

def allocSizeTable : List Nat := [4, 8, 16, 32, 64, 256, 1024, 2048, 4096, 8192, 16384]

/-- `sizeof( block_hdr )`: an atomic int and a size_t. -/
def blockHdrSize : Nat := 16

structure Block where
  refcount : Int
  capacity : Nat
  bytes : List UInt8
  deriving DecidableEq, Repr

/-- `block_manager::alloc`. Fresh memory is indeterminate in the source and zero here;
`malloc` is taken to succeed. -/
def alloc (size : Nat) : Block :=
  match allocSizeTable.find? (fun n => decide (size ≤ n)) with
  | some n => ⟨1, n, List.replicate n 0⟩
  | none => ⟨1, size, List.replicate (toSize (size + blockHdrSize) - blockHdrSize) 0⟩

@[simp] theorem alloc_refcount (size : Nat) : (alloc size).refcount = 1 := by
  unfold alloc
  split <;> rfl

theorem alloc_capacity_ge (size : Nat) : size ≤ (alloc size).capacity := by
  unfold alloc
  split
  · next n h =>
    have := List.find?_some h
    exact of_decide_eq_true this
  · exact Nat.le_refl size

theorem allocSizeTable_le {n : Nat} (h : n ∈ allocSizeTable) : n ≤ 16384 := by
  revert n
  decide

theorem alloc_capacity_lt {size : Nat} (h : size < 2147483648) :
    (alloc size).capacity < 2147483648 := by
  unfold alloc
  split
  · next n hn =>
    have := allocSizeTable_le (List.mem_of_find?_eq_some hn)
    show n < _
    omega
  · exact h

/-- The memory behind a handle is exactly the capacity, unless the size wrapped. -/
theorem alloc_bytes_length {size : Nat} (h : size < 18446744073709551600) :
    (alloc size).bytes.length = (alloc size).capacity := by
  unfold alloc
  split
  · simp
  · have : toSize (size + blockHdrSize) = size + blockHdrSize := by
      have := toSize_natCast (n := size + blockHdrSize) (by unfold blockHdrSize; omega)
      simpa using this
    simp [this]

end BufferBlock
