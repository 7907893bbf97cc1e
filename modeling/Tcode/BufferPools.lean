import Tcode.BufferBlockManager

/-! # Blocks, pools and their memory

Each region of `malloc` is a block in use or lies in the pool of its size. A block finds its way
back by its capacity alone.
-/
namespace BufferPools

open SupportMachineInt SupportRegions SupportTransitionSystem BufferBlock BufferBlockManager

/-- A block that its users have references for. -/
structure LiveBlock (s : State) (p : Addr) : Prop where
  refcount : (s.hdr p).refcount = toInt (s.references p)
  few : s.references p ≤ 4294967296
  requested : s.requested p ≤ (s.hdr p).capacity
  capacity_lt : (s.hdr p).capacity < 9223372036854775808
  home : entryOf (s.hdr p).capacity = s.home p
  region : ⟨p, (s.hdr p).capacity + blockHdrSize⟩ ∈ s.memory.regions

/-- Memory for a block of this capacity, which nobody uses. -/
structure Spare (s : State) (p : Addr) (capacity : Nat) : Prop where
  unused : s.references p = 0
  region : ⟨p, capacity + blockHdrSize⟩ ∈ s.memory.regions

structure Invariant (s : State) : Prop where
  separate : Separate s.memory.regions
  live : ∀ p, 0 < s.references p → LiveBlock s p
  pooled : ∀ i, ∀ p ∈ (s.allocators i).pool,
    i < allocSizeTable.length ∧ Spare s p (allocSizeTable.getD i 0)
  nodup : ∀ i, (s.allocators i).pool.Nodup
  allocSize : ∀ i < allocSizeTable.length,
    (s.allocators i).allocSize = allocSizeTable.getD i 0 + blockHdrSize
  noFault : s.memory.fault = false

/-- Memory that no pool has either. -/
structure Taken (s : State) (p : Addr) (capacity : Nat) : Prop extends Spare s p capacity where
  unpooled : ∀ i, p ∉ (s.allocators i).pool

variable {s t : State} {p q : Addr} {i size capacity n : Nat} {answer : Addr}

theorem capacity_eq (h : Invariant s) (hp : ⟨p, n + blockHdrSize⟩ ∈ s.memory.regions)
    (hq : ⟨p, capacity + blockHdrSize⟩ ∈ s.memory.regions) : n = capacity := by
  have hsize := congrArg Region.size (h.separate.unique hp hq rfl)
  exact Nat.add_right_cancel hsize

/-- A pooled address is in the pool of its size only. -/
theorem pool_unique (h : Invariant s) {j : Nat} (hi : p ∈ (s.allocators i).pool)
    (hj : p ∈ (s.allocators j).pool) : i = j := by
  obtain ⟨hilt, hspare⟩ := h.pooled i p hi
  obtain ⟨hjlt, hspare'⟩ := h.pooled j p hj
  have hcap := capacity_eq h hspare.region hspare'.region
  have hentry := entryOf_table i hilt
  rw [hcap, entryOf_table j hjlt] at hentry
  exact (Option.some.inj hentry).symm

theorem room_pos (n : Nat) : 0 < n + blockHdrSize :=
  Nat.lt_of_lt_of_le (by decide) (Nat.le_add_left ..)

theorem LiveBlock.begins (h : LiveBlock s p) : Begins s.memory.regions p := ⟨_, h.region, rfl⟩

theorem Spare.begins (h : Spare s p capacity) : Begins s.memory.regions p := ⟨_, h.region, rfl⟩

/-! ## Memory and pools -/

theorem LiveBlock.setMemory (h : LiveBlock s p) {m : Memory}
    (hkeep : ∀ r ∈ s.memory.regions, r.start = p → r ∈ m.regions) :
    LiveBlock { s with memory := m } p :=
  ⟨h.refcount, h.few, h.requested, h.capacity_lt, h.home, hkeep _ h.region rfl⟩

theorem Invariant.setMemory (h : Invariant s) {m : Memory} (hseparate : Separate m.regions)
    (hfault : m.fault = false)
    (hkeep : ∀ p, 0 < s.references p ∨ (∃ i, p ∈ (s.allocators i).pool) →
      ∀ r ∈ s.memory.regions, r.start = p → r ∈ m.regions) :
    Invariant { s with memory := m } := by
  refine ⟨hseparate, fun p hp => (h.live p hp).setMemory (hkeep p (.inl hp)), fun i p hp => ?_,
    h.nodup, h.allocSize, hfault⟩
  obtain ⟨hi, hspare⟩ := h.pooled i p hp
  exact ⟨hi, hspare.unused, hkeep p (.inr ⟨i, hp⟩) _ hspare.region rfl⟩

theorem Invariant.malloc (h : Invariant s) (hfresh : Fresh s.memory.regions answer n)
    (hn : 0 < n) : Invariant { s with memory := s.memory.malloc answer n } :=
  h.setMemory (h.separate.add hfresh hn) h.noFault fun _ _ _ hr _ => List.mem_cons_of_mem _ hr

/-- What `malloc` answers with is not in use and in no pool. -/
theorem taken_malloc (h : Invariant s)
    (hfresh : Fresh s.memory.regions answer (capacity + blockHdrSize)) :
    Taken { s with memory := s.memory.malloc answer (capacity + blockHdrSize) } answer
      capacity := by
  have hnone := h.separate.not_begins hfresh (room_pos capacity)
  refine ⟨⟨?_, List.mem_cons_self ..⟩, fun i hp => hnone (h.pooled i _ hp).2.begins⟩
  refine Nat.eq_zero_of_not_pos fun hpos => hnone (h.live answer hpos).begins

/-- Memory that nobody uses is given back. -/
theorem Invariant.stdFree (h : Invariant s) (ht : Taken s p capacity) :
    Invariant { s with memory := s.memory.free p } := by
  rw [Memory.free, if_pos ht.begins]
  refine h.setMemory (h.separate.release p) h.noFault fun q hq r hr hstart => ?_
  refine mem_release.mpr ⟨hr, ?_⟩
  rintro rfl
  rcases hq with hq | ⟨i, hq⟩
  · rw [← hstart, ht.unused] at hq
    exact Nat.lt_irrefl 0 hq
  · exact ht.unpooled i (hstart ▸ hq)

theorem Invariant.setPool (h : Invariant s) {a : FixedSizeAllocator}
    (hsize : a.allocSize = (s.allocators i).allocSize)
    (hpool : ∀ p ∈ a.pool, i < allocSizeTable.length ∧ Spare s p (allocSizeTable.getD i 0))
    (hnodup : a.pool.Nodup) :
    Invariant (s.setPool i a) := by
  refine ⟨h.separate, fun p hp => ?_, fun j p hp => ?_, fun j => ?_, fun j hj => ?_, h.noFault⟩
  · obtain ⟨hrefcount, hfew, hrequested, hlt, hhome, hregion⟩ := h.live p hp
    exact ⟨hrefcount, hfew, hrequested, hlt, hhome, hregion⟩
  · by_cases hji : j = i
    · rw [hji, setPool_self] at hp
      obtain ⟨hlt, hunused, hregion⟩ := hpool p hp
      rw [hji]
      exact ⟨hlt, hunused, hregion⟩
    · rw [setPool_ne s i a hji] at hp
      obtain ⟨hlt, hunused, hregion⟩ := h.pooled j p hp
      exact ⟨hlt, hunused, hregion⟩
  · by_cases hji : j = i
    · rwa [hji, setPool_self]
    · rw [setPool_ne s i a hji]
      exact h.nodup j
  · by_cases hji : j = i
    · rw [hji, setPool_self, hsize, ← hji]
      exact h.allocSize j hj
    · rw [setPool_ne s i a hji]
      exact h.allocSize j hj

/-! ## fixed_size_allocator -/

/-- What an allocator gives, from its pool or new. -/
theorem Invariant.poolAlloc (h : Invariant s) (hi : i < allocSizeTable.length)
    (hfresh : (s.allocators i).pool = [] →
      Fresh s.memory.regions answer (s.allocators i).allocSize) :
    Invariant (s.setAllocator i ((s.allocators i).alloc s.memory answer).2) ∧
      Taken (s.setAllocator i ((s.allocators i).alloc s.memory answer).2)
        ((s.allocators i).alloc s.memory answer).1 (allocSizeTable.getD i 0) := by
  have hsize := h.allocSize i hi
  have hnodup := h.nodup i
  unfold FixedSizeAllocator.alloc
  cases hpool : (s.allocators i).pool with
  | nil =>
    have hfresh := hfresh hpool
    rw [hsize] at hfresh ⊢
    simp only [State.setAllocator, setPool_same]
    exact ⟨h.malloc hfresh (room_pos _), taken_malloc h hfresh⟩
  | cons ptr pool =>
    have hmem {q : Addr} (hq : q ∈ ptr :: pool) : q ∈ (s.allocators i).pool := hpool ▸ hq
    rw [hpool, List.nodup_cons] at hnodup
    refine ⟨h.setPool rfl (fun q hq => ?_) hnodup.2, ⟨?_, ?_⟩, fun j hj => ?_⟩
    · exact h.pooled i q (hmem (List.mem_cons_of_mem _ hq))
    · exact (h.pooled i ptr (hmem (List.mem_cons_self ..))).2.unused
    · exact (h.pooled i ptr (hmem (List.mem_cons_self ..))).2.region
    · have hj : ptr ∈ ((s.setPool i { s.allocators i with pool }).allocators j).pool := hj
      by_cases hji : j = i
      · rw [hji, setPool_self] at hj
        exact hnodup.1 hj
      · rw [setPool_ne s i _ hji] at hj
        exact hji (pool_unique h hj (hmem (List.mem_cons_self ..)))

/-- A pool that has grown past the threshold is not drained. -/
theorem drain_eq {pool : List Addr} (hlong : freeRemains ≤ pool.length) (m : Memory) :
    FixedSizeAllocator.drain m pool = (pool, m) := by
  cases pool with
  | nil => exact absurd hlong (by decide)
  | cons ptr pool => exact if_neg (Nat.not_lt_of_le hlong)

theorem Invariant.poolFree (h : Invariant s) (hi : i < allocSizeTable.length)
    (ht : Taken s p (allocSizeTable.getD i 0)) :
    Invariant (s.setAllocator i ((s.allocators i).free s.memory p)) := by
  have hne : p ≠ 0 := by
    intro hp
    exact (h.separate.pos _ ht.region).2 hp
  unfold FixedSizeAllocator.free
  rw [if_neg hne]
  split_ifs with hlong
  · have hdrain := drain_eq (m := s.memory.free p)
      (Nat.le_of_lt (Nat.lt_trans (by decide : freeRemains < freeThreshold) hlong))
    simp only [State.setAllocator, hdrain]
    show Invariant { s.setPool i (s.allocators i) with memory := s.memory.free p }
    rw [setPool_same]
    exact h.stdFree ht
  · refine h.setPool rfl (fun q hq => ?_) (List.nodup_cons.mpr ⟨ht.unpooled i, h.nodup i⟩)
    rcases List.mem_cons.mp hq with rfl | hq
    · exact ⟨hi, ht.toSpare⟩
    · exact h.pooled i q hq

/-! ## Headers -/

theorem unpooled_of_live (h : Invariant s) (hp : 0 < s.references p) (i : Nat) :
    p ∉ (s.allocators i).pool := by
  intro hmem
  rw [(h.pooled i p hmem).2.unused] at hp
  exact Nat.lt_irrefl 0 hp

/-- Something happens to one block that is in no pool. -/
theorem Invariant.change (h : Invariant s) (hmemory : t.memory = s.memory)
    (hallocators : t.allocators = s.allocators) (hunpooled : ∀ i, p ∉ (s.allocators i).pool)
    (hp : 0 < t.references p → LiveBlock t p)
    (hother : ∀ q ≠ p, t.hdr q = s.hdr q ∧ t.references q = s.references q ∧
      t.requested q = s.requested q ∧ t.home q = s.home q) : Invariant t := by
  refine ⟨hmemory ▸ h.separate, fun q hq => ?_, fun i q hq => ?_, hallocators ▸ h.nodup,
    hallocators ▸ h.allocSize, hmemory ▸ h.noFault⟩
  · by_cases hqp : q = p
    · rw [hqp] at hq ⊢
      exact hp hq
    · obtain ⟨hhdr, hrefs, hreq, hhome⟩ := hother q hqp
      rw [hrefs] at hq
      have hlive := h.live q hq
      constructor
      · rw [hhdr, hrefs, hlive.refcount]
      · rw [hrefs]
        exact hlive.few
      · rw [hhdr, hreq]
        exact hlive.requested
      · rw [hhdr]
        exact hlive.capacity_lt
      · rw [hhdr, hhome, hlive.home]
      · rw [hhdr, hmemory]
        exact hlive.region
  · rw [hallocators] at hq
    have hqp : q ≠ p := fun hqp => hunpooled i (hqp ▸ hq)
    obtain ⟨hi, hspare⟩ := h.pooled i q hq
    refine ⟨hi, ?_, hmemory ▸ hspare.region⟩
    rw [(hother q hqp).2.1, hspare.unused]

theorem Invariant.deliver (h : Invariant s) (ht : Taken s p capacity) (hsize : size ≤ capacity)
    (hlt : capacity < 9223372036854775808) {home : Option Nat} (hhome : entryOf capacity = home) :
    Invariant (s.deliver p capacity size home) := by
  have hhdr : (s.deliver p capacity size home).hdr p = ⟨1, capacity⟩ := Function.update_self ..
  have hrefs : (s.deliver p capacity size home).references p = 1 := Function.update_self ..
  have hreq : (s.deliver p capacity size home).requested p = size := Function.update_self ..
  have hhome' : (s.deliver p capacity size home).home p = home := Function.update_self ..
  refine h.change rfl rfl ht.unpooled (fun _ => ?_) fun q hqp => ?_
  · constructor
    · rw [hhdr, hrefs]
      rfl
    · rw [hrefs]
      decide
    · rwa [hhdr, hreq]
    · rwa [hhdr]
    · rw [hhdr, hhome', hhome]
    · rw [hhdr]
      exact ht.region
  · exact ⟨Function.update_of_ne hqp .., Function.update_of_ne hqp ..,
      Function.update_of_ne hqp .., Function.update_of_ne hqp ..⟩

/-- The count of a block and its references change together. -/
theorem Invariant.setCount (h : Invariant s) (hp : 0 < s.references p) {c : Int} {m : Nat}
    (hc : c = toInt m) (hm : m ≤ 4294967296) : Invariant (s.setCount p c m) := by
  have hlive := h.live p hp
  refine h.change rfl rfl (unpooled_of_live h hp) (fun _ => ?_) fun q hqp => ?_
  · constructor
    · rw [setCount_hdr, setCount_references, hc]
    · rwa [setCount_references]
    · rw [setCount_hdr]
      exact hlive.requested
    · rw [setCount_hdr]
      exact hlive.capacity_lt
    · rw [setCount_hdr]
      exact hlive.home
    · rw [setCount_hdr]
      exact hlive.region
  · exact ⟨Function.update_of_ne hqp .., Function.update_of_ne hqp .., rfl, rfl⟩

theorem Invariant.unref (h : Invariant s) (hp : 0 < s.references p) : Invariant (s.unref p) := by
  have hlive := h.live p hp
  have hfew := hlive.few
  refine h.setCount hp ?_ (by omega)
  rw [hlive.refcount, Int.sub_eq_add_neg, toInt_toInt_add]
  congr 1
  omega

theorem taken_unref (h : Invariant s) (hp : s.references p = 1) :
    Taken (s.unref p) p (s.hdr p).capacity := by
  have hpos : 0 < s.references p := by omega
  have hunpooled := unpooled_of_live h hpos
  refine ⟨⟨?_, (h.live p hpos).region⟩, hunpooled⟩
  rw [State.unref, setCount_references, hp]

/-- The count of a block says whether this was its last reference. -/
theorem last_iff (h : Invariant s) (hp : 0 < s.references p) :
    (s.hdr p).refcount = 1 ↔ s.references p = 1 := by
  have hlive := h.live p hp
  have hfew := hlive.few
  rw [hlive.refcount]
  unfold toInt
  omega

/-! ## block_manager -/

/-- A block goes back to the pool of its capacity, or to `std::free`. -/
theorem Invariant.giveBack (h : Invariant s) (ht : Taken s p capacity) :
    Invariant (s.giveBack p (entryOf capacity)) := by
  cases hentry : entryOf capacity with
  | none => exact h.stdFree ht
  | some i =>
    obtain ⟨hi, hcapacity⟩ := entryOf_some hentry
    exact h.poolFree hi (hcapacity ▸ ht)

theorem block_handle (p : Addr) : block (handle p) = p := Nat.add_sub_cancel ..

theorem owned_live {ptr : Handle} (hown : Owned s ptr) (hptr : ptr ≠ 0) :
    0 < s.references (block ptr) :=
  (hown.resolve_left hptr).2

theorem free_last {ptr : Handle} (hptr : ptr ≠ 0) (hlast : (s.hdr (block ptr)).refcount = 1) :
    s.free ptr =
      (s.unref (block ptr)).giveBack (block ptr) (entryOf (s.hdr (block ptr)).capacity) :=
  (if_neg hptr).trans (if_pos hlast)

theorem free_more {ptr : Handle} (hptr : ptr ≠ 0) (hmore : (s.hdr (block ptr)).refcount ≠ 1) :
    s.free ptr = s.unref (block ptr) :=
  (if_neg hptr).trans (if_neg hmore)

theorem Invariant.free (h : Invariant s) {ptr : Handle} (hown : Owned s ptr) :
    Invariant (s.free ptr) := by
  by_cases hptr : ptr = 0
  · rw [State.free, if_pos hptr]
    exact h
  · have hpos := owned_live hown hptr
    by_cases hlast : (s.hdr (block ptr)).refcount = 1
    · rw [free_last hptr hlast]
      exact (h.unref hpos).giveBack (taken_unref h ((last_iff h hpos).mp hlast))
    · rw [free_more hptr hlast]
      exact h.unref hpos

/-- A block that `alloc` has returned. -/
structure Delivered (s t : State) (p : Addr) (size : Nat) : Prop where
  invariant : Invariant t
  unused : s.references p = 0
  hdr : t.hdr p = ⟨1, (BufferBlock.alloc size).capacity⟩
  references : t.references = Function.update s.references p 1
  requested : t.requested p = size
  other : ∀ q ≠ p, t.hdr q = s.hdr q

theorem capacity_entry (hentry : entryFor size = some i) :
    (BufferBlock.alloc size).capacity = allocSizeTable.getD i 0 := by
  obtain ⟨hi, hle, hfirst⟩ := List.findIdx?_eq_some_iff_getElem.mp hentry
  have hfind : allocSizeTable.find? (fun n => decide (size ≤ n)) = some allocSizeTable[i] := by
    refine List.find?_eq_some_iff_getElem.mpr ⟨hle, i, hi, rfl, fun j hj => ?_⟩
    rw [Bool.not_eq_true']
    exact Bool.eq_false_iff.mpr (hfirst j hj)
  unfold BufferBlock.alloc
  rw [hfind, ← List.getElem_eq_getD (h := hi) 0]

theorem capacity_noEntry (hentry : entryFor size = none) :
    (BufferBlock.alloc size).capacity = size := by
  have hfind : allocSizeTable.find? (fun n => decide (size ≤ n)) = none := by
    rw [List.find?_eq_none]
    intro n hn
    exact Bool.eq_false_iff.mp (List.findIdx?_eq_none_iff.mp hentry n hn)
  unfold BufferBlock.alloc
  rw [hfind]

theorem Invariant.alloc (h : Invariant s) (hsize : size < 9223372036854775808)
    (hanswer : Answers s size answer) :
    ∃ p, (s.alloc size answer).1 = handle p ∧ Delivered s (s.alloc size answer).2 p size := by
  unfold Answers State.mallocSize at hanswer
  unfold State.alloc
  cases hentry : entryFor size with
  | some i =>
    obtain ⟨hi, hle⟩ := entryFor_some hentry
    rw [hentry] at hanswer
    have hfresh (hpool : (s.allocators i).pool = []) :
        Fresh s.memory.regions answer (s.allocators i).allocSize := by
      simp only [hpool, if_true] at hanswer
      exact hanswer _ rfl
    obtain ⟨hinv, htaken⟩ := h.poolAlloc hi hfresh
    have hlt := table_le i hi
    refine ⟨_, rfl, hinv.deliver htaken hle (by omega) (entryOf_table i hi), htaken.unused, ?_, rfl,
      Function.update_self .., fun q hq => Function.update_of_ne hq ..⟩
    rw [capacity_entry hentry]
    exact Function.update_self ..
  | none =>
    rw [hentry] at hanswer
    have hsum : toSize (size + blockHdrSize) = size + blockHdrSize := by
      have := toSize_natCast (n := size + blockHdrSize) (by unfold blockHdrSize; omega)
      exact_mod_cast this
    have hfresh := hanswer _ rfl
    rw [hsum] at hfresh
    have htaken := taken_malloc h hfresh
    simp only [hsum]
    refine ⟨_, rfl, (h.malloc hfresh (room_pos size)).deliver htaken (Nat.le_refl _) hsize
      (entryOf_none hentry), htaken.unused, ?_, rfl, Function.update_self ..,
      fun q hq => Function.update_of_ne hq ..⟩
    rw [capacity_noEntry hentry]
    exact Function.update_self ..

theorem LiveBlock.room (h : LiveBlock s p) (hn : n ≤ (s.hdr p).capacity) :
    Room s.memory.regions p (n + blockHdrSize) :=
  ⟨_, h.region, rfl, Nat.add_le_add_right hn blockHdrSize⟩

/-- The block that was delivered, and one that was there before. -/
theorem Delivered.rooms (hd : Delivered s t p size) {ptr : Handle} (hown : Owned s ptr)
    (hptr : ptr ≠ 0) (hn : (s.hdr (block ptr)).capacity ≤ size) :
    t.memcpy (handle p) ptr (s.hdr (block ptr)).capacity = t ∧ Owned t ptr ∧
      t.hdr (block ptr) = s.hdr (block ptr) := by
  have hpos := owned_live hown hptr
  have hne : block ptr ≠ p := by
    intro heq
    rw [heq, hd.unused] at hpos
    exact Nat.lt_irrefl 0 hpos
  have hself : t.references p = 1 := by rw [hd.references, Function.update_self]
  have hrefs : t.references (block ptr) = s.references (block ptr) := by
    rw [hd.references, Function.update_of_ne hne]
  have hhdr := hd.other (block ptr) hne
  have hnew := hd.invariant.live p (by omega)
  have hold := hd.invariant.live (block ptr) (by omega)
  have hfits := hnew.requested
  rw [hd.requested] at hfits
  refine ⟨if_pos ⟨?_, ?_⟩, .inr ⟨(hown.resolve_left hptr).1, by omega⟩, hhdr⟩
  · rw [block_handle]
    exact hnew.room (Nat.le_trans hn hfits)
  · exact hold.room (Nat.le_of_eq (congrArg BlockHdr.capacity hhdr).symm)

theorem Invariant.realloc (h : Invariant s) {ptr : Handle} (hown : Owned s ptr)
    (hsize : size < 9223372036854775808)
    (hanswer : ptr ≠ 0 ∧ size ≤ s.capacity ptr ∨ Answers s size answer) :
    Invariant (s.realloc ptr size answer).2 := by
  by_cases hptr : ptr = 0
  · rw [State.realloc, if_pos hptr]
    obtain ⟨p, -, hd⟩ := h.alloc hsize (hanswer.resolve_left fun hold => hold.1 hptr)
    exact hd.invariant
  · have hcap : s.capacity ptr = (s.hdr (block ptr)).capacity := if_neg hptr
    have hlive := h.live (block ptr) (owned_live hown hptr)
    by_cases hfits : size ≤ (s.hdr (block ptr)).capacity
    · simp only [State.realloc, if_neg hptr, if_pos hfits]
      refine h.change rfl rfl (unpooled_of_live h (owned_live hown hptr)) (fun _ => ?_)
        fun q hq => ⟨rfl, rfl, Function.update_of_ne hq .., rfl⟩
      refine ⟨hlive.refcount, hlive.few, ?_, hlive.capacity_lt, hlive.home, hlive.region⟩
      have hrequested := hlive.requested
      simp only [Function.update_self]
      omega
    · have hanswer := hanswer.resolve_left fun hold => hfits (hcap ▸ hold.2)
      obtain ⟨p, hp, hd⟩ := h.alloc hsize hanswer
      obtain ⟨hcopy, hown', hhdr⟩ := hd.rooms hown hptr (by omega)
      simp only [State.realloc, if_neg hptr, if_neg hfits, hp, hhdr, hcopy]
      exact hd.invariant.free hown'

theorem Invariant.duplicate (h : Invariant s) {ptr : Handle} (hown : Owned s ptr)
    (hfew : s.references (block ptr) < 4294967296) : Invariant (s.duplicate ptr).2 := by
  by_cases hptr : ptr = 0
  · rw [State.duplicate, if_pos hptr]
    exact h
  · have hpos := owned_live hown hptr
    rw [State.duplicate, if_neg hptr]
    refine h.setCount hpos ?_ hfew
    rw [(h.live _ hpos).refcount, toInt_toInt_add]
    rfl

theorem Invariant.copy (h : Invariant s) {ptr : Handle} (hown : Owned s ptr)
    (hanswer : ptr = 0 ∨ Answers s (s.capacity ptr) answer) :
    Invariant (s.copy ptr answer).2 := by
  by_cases hptr : ptr = 0
  · rw [State.copy, if_pos hptr]
    exact h
  · have hcap : s.capacity ptr = (s.hdr (block ptr)).capacity := if_neg hptr
    have hlive := h.live (block ptr) (owned_live hown hptr)
    have hanswer := hanswer.resolve_left hptr
    rw [hcap] at hanswer
    obtain ⟨p, hp, hd⟩ := h.alloc hlive.capacity_lt hanswer
    obtain ⟨hcopy, -, -⟩ := hd.rooms hown hptr (Nat.le_refl _)
    simp only [State.copy, if_neg hptr, hcap, hp, hcopy]
    exact hd.invariant

def Sized : Op → Prop
  | .alloc size _ | .realloc _ size _ => size < 9223372036854775808
  | _ => True

/-- There are never more than 2^32 references to a block. -/
def Few (s : State) : Op → Prop
  | .duplicate ptr => s.references (block ptr) < 4294967296
  | _ => True

def Bounded (s : State) (op : Op) : Prop := Sized op ∧ Few s op

instance : ∀ op : Op, Decidable (Sized op)
  | .alloc _ _ | .realloc _ _ _ => inferInstanceAs (Decidable (_ < _))
  | .duplicate _ | .copy _ _ | .free _ => isTrue trivial

instance (s : State) : ∀ op : Op, Decidable (Few s op)
  | .duplicate _ => inferInstanceAs (Decidable (_ < _))
  | .alloc _ _ | .realloc _ _ _ | .copy _ _ | .free _ => isTrue trivial

instance (s : State) (op : Op) : Decidable (Bounded s op) :=
  inferInstanceAs (Decidable (_ ∧ _))

theorem Invariant.exec (h : Invariant s) {op : Op} (hen : Enabled s op) (hop : Bounded s op) :
    Invariant (exec s op) := by
  cases op with
  | alloc size answer =>
    obtain ⟨p, -, hd⟩ := h.alloc hop.1 hen
    exact hd.invariant
  | realloc ptr size answer => exact h.realloc hen.1 hop.1 hen.2
  | duplicate ptr => exact h.duplicate hen hop.2
  | copy ptr answer => exact h.copy hen.1 hen.2
  | free ptr => exact h.free hen

/-! ## Every run -/

theorem invariant_initial : Invariant initial where
  separate := separate_nil
  live _ hp := absurd hp (Nat.lt_irrefl 0)
  pooled _ _ hp := absurd hp List.not_mem_nil
  nodup _ := List.nodup_nil
  allocSize := by decide
  noFault := rfl

/-- What users of blocks rely on. The last `free` of a block gives it back to where it came from. -/
structure AllocatorSound (s : State) : Prop where
  requested : ∀ p, 0 < s.references p → s.requested p ≤ (s.hdr p).capacity
  memory : ∀ p, 0 < s.references p →
    Room s.memory.regions p ((s.hdr p).capacity + blockHdrSize)
  apart : ∀ p q, p ≠ q → 0 < s.references p → 0 < s.references q →
    p + ((s.hdr p).capacity + blockHdrSize) ≤ q ∨ q + ((s.hdr q).capacity + blockHdrSize) ≤ p
  returned : ∀ p, s.references p = 1 →
    s.free (handle p) = (s.unref p).giveBack p (s.home p)
  kept : ∀ p, 1 < s.references p → s.free (handle p) = s.unref p
  pool_nodup : ∀ i, (s.allocators i).pool.Nodup
  pool_unused : ∀ i, ∀ p ∈ (s.allocators i).pool, s.references p = 0
  noFault : s.memory.fault = false

theorem handle_ne_zero (p : Addr) : handle p ≠ 0 := Nat.ne_of_gt (room_pos p)

theorem Invariant.sound (h : Invariant s) : AllocatorSound s := by
  have hroom {p : Addr} (hp : 0 < s.references p) := (h.live p hp).room (Nat.le_refl _)
  refine ⟨fun p hp => (h.live p hp).requested, fun p hp => hroom hp, fun p q hpq hp hq => ?_,
    fun p hp => ?_, fun p hp => ?_, h.nodup, fun i p hp => (h.pooled i p hp).2.unused, h.noFault⟩
  · exact h.separate.room_apart (hroom hp) (hroom hq) hpq
  · have hpos : 0 < s.references p := by omega
    have hlast := (last_iff h hpos).mpr hp
    rw [← block_handle p] at hlast
    rw [free_last (handle_ne_zero p) hlast, block_handle, (h.live p hpos).home]
  · have hmore : (s.hdr p).refcount ≠ 1 := fun hone => by
      have := (last_iff h (by omega)).mp hone
      omega
    rw [← block_handle p] at hmore
    rw [free_more (handle_ne_zero p) hmore, block_handle]

theorem invariant_execution (h : machine.Execution Bounded initial t) : Invariant t :=
  h.invariant invariant_initial fun _ _ _ hs hen hop => hs.exec hen hop

theorem allocator_sound (h : machine.Execution Bounded initial t) : AllocatorSound t :=
  (invariant_execution h).sound

/-- A pooled block that is shared, a large one that grows, and one from a pool. -/
def growing : List Op :=
  [.alloc 5 1000, .duplicate 1016, .alloc 20000 2000, .realloc 2016 30000 40000, .free 1016,
    .realloc 1016 7 0, .copy 1016 90000, .free 1016, .alloc 8 0, .realloc 40016 30000 0,
    .free 40016, .free 90016]

theorem allocator_sound_growing : AllocatorSound (machine.runTrace initial growing) := by
  have hvalid : machine.ValidTrace Bounded initial growing := by decide +kernel
  exact allocator_sound hvalid.execution

/-! ## A count that has gone all the way around -/

/-- A block with `n` references more, one of which is given up. -/
def wrapped (n : Nat) : List Op :=
  .alloc 1 1000 :: (List.replicate n (.duplicate 1016) ++ [.free 1016])

theorem block_wrapped : block 1016 = 1000 := rfl

structure Duplicated (n : Nat) (s : State) : Prop where
  hdr : s.hdr 1000 = ⟨toInt n, 4⟩
  references : s.references 1000 = n
  pool : (s.allocators 0).pool = []

theorem Duplicated.next (h : Duplicated n s) : Duplicated (n + 1) (exec s (.duplicate 1016)) := by
  have hexec : exec s (.duplicate 1016) =
      s.setCount 1000 (toInt ((s.hdr 1000).refcount + 1)) (s.references 1000 + 1) := rfl
  rw [hexec]
  refine ⟨?_, ?_, h.pool⟩
  · rw [setCount_hdr, h.hdr, toInt_toInt_add]
    rfl
  · rw [setCount_references, h.references]

theorem Duplicated.owned (h : Duplicated n s) (hn : 0 < n) : Owned s 1016 := by
  refine .inr ⟨by decide, ?_⟩
  rwa [block_wrapped, h.references]

/-- The count is one, and the block goes to its pool while it is in use. -/
theorem Duplicated.unsound (h : Duplicated n s) (hone : toInt n = 1) (hn : 1 < n) :
    ¬ AllocatorSound (exec s (.free 1016)) := by
  intro hsound
  have hlast : (s.hdr (block 1016)).refcount = 1 := by rw [block_wrapped, h.hdr, hone]
  have hentry : entryOf (s.hdr 1000).capacity = some 0 := by
    rw [h.hdr]
    exact entryOf_table 0 (by decide)
  have hexec : exec s (.free 1016) =
      (s.unref 1000).setAllocator 0 ((s.allocators 0).free s.memory 1000) := by
    rw [exec, free_last (by decide) hlast, block_wrapped, hentry]
    rfl
  have hpool : (s.allocators 0).free s.memory 1000 =
      ({ s.allocators 0 with pool := [1000] }, s.memory) := by
    simp [FixedSizeAllocator.free, h.pool, freeThreshold]
  rw [hexec, hpool] at hsound
  have hunused := hsound.pool_unused 0 1000 (by simp [State.setAllocator])
  have hrefs : (s.unref 1000).references 1000 = n - 1 := by
    rw [State.unref, setCount_references, h.references]
  have hzero : n - 1 = 0 := hrefs.symm.trans hunused
  omega

theorem Duplicated.run {m : Nat} (h : Duplicated n s) (hn : 0 < n)
    (hone : toInt (n + m : Nat) = 1) (hm : 1 < n + m) :
    machine.ValidTrace (fun _ op => Sized op) s
        (List.replicate m (.duplicate 1016) ++ [.free 1016]) ∧
      ¬ AllocatorSound
        (machine.runTrace s (List.replicate m (.duplicate 1016) ++ [.free 1016])) := by
  induction m generalizing n s with
  | zero => exact ⟨⟨h.owned hn, trivial, trivial⟩, h.unsound hone hm⟩
  | succ m ih =>
    rw [show n + (m + 1) = n + 1 + m by omega] at hone hm
    obtain ⟨hvalid, hunsound⟩ := ih h.next (Nat.succ_pos n) hone hm
    rw [List.replicate_succ, List.cons_append]
    exact ⟨⟨h.owned hn, trivial, hvalid⟩, hunsound⟩

theorem wrapped_unsound (n : Nat) (hone : toInt (1 + n : Nat) = 1) (hn : 0 < n) :
    machine.ValidTrace (fun _ op => Sized op) initial (wrapped n) ∧
      ¬ AllocatorSound (machine.runTrace initial (wrapped n)) := by
  have hfirst : Duplicated 1 (exec initial (.alloc 1 1000)) := ⟨by decide +kernel, rfl, rfl⟩
  obtain ⟨hvalid, hunsound⟩ := hfirst.run Nat.one_pos hone (by omega)
  have halloc : Enabled initial (.alloc 1 1000) := by decide +kernel
  exact ⟨⟨halloc, by decide, hvalid⟩, hunsound⟩

theorem allocator_wraps :
    machine.ValidTrace (fun _ op => Sized op) initial (wrapped 4294967296) ∧
      ¬ AllocatorSound (machine.runTrace initial (wrapped 4294967296)) :=
  wrapped_unsound 4294967296 (by decide) (by decide)

end BufferPools
