import Tcode.BufferPools

/-! # How large a pool gets

A pool takes one element more than the threshold. From there on `free` gives to the system what
it is called with, and the loop behind it, which compares the wrong way round, ends at once.
-/
namespace BufferThreshold

open BufferBlockManager BufferPools

inductive Call where
  | alloc (answer : Addr)
  | free (ptr : Addr)
  deriving DecidableEq, Repr

/-- An allocator and the memory that it takes from the system. -/
structure State where
  allocator : FixedSizeAllocator
  memory : Memory
  deriving DecidableEq, Repr

def State.size (s : State) : Nat := s.allocator.pool.length

def exec (s : State) : Call → State
  | .alloc answer =>
    let (_, allocator, memory) := s.allocator.alloc s.memory answer
    ⟨allocator, memory⟩
  | .free ptr =>
    let (allocator, memory) := s.allocator.free s.memory ptr
    ⟨allocator, memory⟩

def run (s : State) (calls : List Call) : State := calls.foldl exec s

/-- Behind `init( size )`. -/
def start (size : Nat) (memory : Memory) : State := ⟨.init size, memory⟩

variable {s : State} {calls before : List Call} {size : Nat} {memory : Memory} {ptr : Addr}

theorem run_append (s : State) (before after : List Call) :
    run s (before ++ after) = run (run s before) after := List.foldl_append

/-- What a call does to the size of the pool. -/
theorem size_alloc (s : State) (answer : Addr) : (exec s (.alloc answer)).size = s.size - 1 := by
  cases hpool : s.allocator.pool with
  | nil => simp only [exec, State.size, FixedSizeAllocator.alloc, hpool, List.length_nil]
  | cons ptr pool =>
    simp only [exec, State.size, FixedSizeAllocator.alloc, hpool, List.length_cons,
      Nat.add_sub_cancel]

theorem free_null (s : State) : exec s (.free 0) = s := by
  simp only [exec, FixedSizeAllocator.free, if_true]

theorem free_kept (hptr : ptr ≠ 0) (h : s.size ≤ freeThreshold) : exec s (.free ptr) =
    ⟨{ s.allocator with pool := ptr :: s.allocator.pool }, s.memory⟩ := by
  have hroom : ¬ freeThreshold < s.allocator.pool.length := Nat.not_lt.mpr h
  simp only [exec, FixedSizeAllocator.free, if_neg hptr, if_neg hroom]

/-- Above the threshold nothing is taken out of the pool. -/
theorem free_full (hptr : ptr ≠ 0) (h : freeThreshold < s.size) :
    exec s (.free ptr) = ⟨s.allocator, s.memory.free ptr⟩ := by
  have hlong : freeRemains ≤ s.allocator.pool.length :=
    Nat.le_of_lt (Nat.lt_trans (by decide) h)
  have hfull : freeThreshold < s.allocator.pool.length := h
  simp only [exec, FixedSizeAllocator.free, if_neg hptr, if_pos hfull, drain_eq hlong]

theorem size_free_le (h : s.size ≤ freeThreshold + 1) :
    (exec s (.free ptr)).size ≤ freeThreshold + 1 := by
  by_cases hptr : ptr = 0
  · rw [hptr, free_null]
    exact h
  rcases Nat.lt_or_ge freeThreshold s.size with hfull | hroom
  · rw [free_full hptr hfull]
    exact h
  · rw [free_kept hptr hroom]
    exact Nat.succ_le_succ hroom

/-- No sequence of calls makes the pool larger. -/
theorem size_run_le (h : s.size ≤ freeThreshold + 1) (calls : List Call) :
    (run s calls).size ≤ freeThreshold + 1 := by
  induction calls generalizing s with
  | nil => exact h
  | cons c calls ih =>
    apply ih
    cases c with
    | alloc answer =>
      rw [size_alloc]
      exact Nat.le_trans (Nat.sub_le _ _) h
    | free ptr => exact size_free_le h

/-- What is promised for the calls from a state on. -/
structure Honours (s : State) (calls : List Call) : Prop where
  bounded : ∀ before, before <+: calls → (run s before).size ≤ freeThreshold + 1
  trimmed : ∀ before ptr, before ++ [.free ptr] <+: calls → ptr ≠ 0 →
    freeThreshold < (run s before).size → (run s (before ++ [.free ptr])).size = freeRemains
  neverEmpty : ∀ before ptr, before ++ [.free ptr] <+: calls → ptr ≠ 0 →
    freeThreshold < (run s before).size →
    (run s (before ++ [.free ptr])).memory.fault = ((run s before).memory.free ptr).fault

/-- No element is freed while the pool is above the threshold. -/
def Spared (s : State) (calls : List Call) : Prop :=
  ∀ before ptr, before ++ [.free ptr] <+: calls → ptr ≠ 0 → (run s before).size ≤ freeThreshold

theorem free_not_trimmed (hptr : ptr ≠ 0) (h : freeThreshold < s.size) :
    (exec s (.free ptr)).size ≠ freeRemains := by
  rw [free_full hptr h]
  have hless : freeRemains < freeThreshold := by decide
  exact Nat.ne_of_gt (Nat.lt_trans hless h)

/-- The bound holds always, and a pool above the threshold is never trimmed. -/
theorem honours_iff (size : Nat) (memory : Memory) (calls : List Call) :
    Honours (start size memory) calls ↔ Spared (start size memory) calls := by
  constructor
  · intro h before ptr hbefore hptr
    rcases Nat.lt_or_ge freeThreshold (run (start size memory) before).size with hfull | hroom
    · have htrimmed := h.trimmed before ptr hbefore hptr hfull
      rw [run_append] at htrimmed
      exact absurd htrimmed (free_not_trimmed hptr hfull)
    · exact hroom
  · intro h
    refine ⟨fun before _ => size_run_le (Nat.zero_le _) before, ?_, ?_⟩
    · intro before ptr hbefore hptr hfull
      exact absurd hfull (Nat.not_lt.mpr (h before ptr hbefore hptr))
    · intro before ptr hbefore hptr hfull
      rw [run_append]
      change (exec _ (.free ptr)).memory.fault = _
      rw [free_full hptr hfull]

/-! ## A burst -/

theorem run_allocs (answers : List Addr) (h : s.size = 0) :
    (run s (answers.map .alloc)).size = 0 := by
  induction answers generalizing s with
  | nil => exact h
  | cons answer answers ih =>
    apply ih
    rw [size_alloc, h]

theorem run_frees {ptrs : List Addr} (hptrs : 0 ∉ ptrs)
    (h : s.size + ptrs.length ≤ freeThreshold + 1) :
    (run s (ptrs.map .free)).size = s.size + ptrs.length := by
  induction ptrs generalizing s with
  | nil => rfl
  | cons ptr ptrs ih =>
    rw [List.length_cons] at h
    have hptr : ptr ≠ 0 := (List.ne_of_not_mem_cons hptrs).symm
    have hkept := free_kept hptr (s := s) (by omega)
    have hsize : (exec s (.free ptr)).size = s.size + 1 := by
      rw [hkept]
      rfl
    have hrest := ih (s := exec s (.free ptr)) (List.not_mem_of_not_mem_cons hptrs) (by omega)
    rw [List.map_cons, List.length_cons]
    refine hrest.trans ?_
    omega

/-- One more than `n` elements, which are all freed again. -/
def burst (n : Nat) : List Call :=
  (List.range' 1 (n + 1)).map .alloc ++ (List.range' 1 n).map .free ++ [.free (n + 1)]

theorem burst_fills (size : Nat) (memory : Memory) {n : Nat} (h : n ≤ freeThreshold + 1) :
    (run (start size memory)
      ((List.range' 1 (n + 1)).map .alloc ++ (List.range' 1 n).map .free)).size = n := by
  have hallocs := run_allocs (s := start size memory) (List.range' 1 (n + 1)) rfl
  have hzero : 0 ∉ List.range' 1 n := by simp [List.mem_range'_1]
  have hfrees := run_frees
    (s := run (start size memory) ((List.range' 1 (n + 1)).map .alloc)) hzero
    (by rwa [hallocs, List.length_range', Nat.zero_add])
  rw [run_append, hfrees, hallocs, List.length_range', Nat.zero_add]

theorem burst_kept (size : Nat) (memory : Memory) {n : Nat} (h : n = freeThreshold + 1) :
    (run (start size memory) (burst n)).size = n ∧ ¬ Honours (start size memory) (burst n) := by
  have hfills := burst_fills size memory (Nat.le_of_eq h)
  have hfull := Nat.lt_of_lt_of_eq (Nat.lt_of_lt_of_eq (Nat.lt_succ_self freeThreshold) h.symm)
    hfills.symm
  have hlast : (run (start size memory) (burst n)).size = n := by
    rw [burst, run_append, run, List.foldl_cons, free_full (Nat.succ_ne_zero n) hfull]
    exact hfills
  refine ⟨hlast, fun hhonours => ?_⟩
  have htrimmed := hhonours.trimmed _ (n + 1) (List.prefix_refl _) (Nat.succ_ne_zero n) hfull
  have hless : freeRemains < n := by
    rw [h]
    decide
  exact Nat.ne_of_gt hless (hlast.symm.trans htrimmed)

/-- After 4098 elements were freed the pool keeps 4097 of them. -/
theorem burst_not_honoured : (run (start 64 ⟨[], false⟩) (burst 4097)).size = 4097 ∧
    ¬ Honours (start 64 ⟨[], false⟩) (burst 4097) :=
  burst_kept 64 ⟨[], false⟩ rfl

end BufferThreshold
