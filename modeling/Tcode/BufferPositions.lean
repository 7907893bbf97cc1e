import Tcode.BufferHeap

/-! # The positions of byte_buffers

Read and write position stay in order and inside of the block, whatever the buffers do with each
other; so does every access to memory.
-/
namespace BufferPositions

open SupportMachineInt SupportTransitionSystem BufferBlock BufferByteBuffer BufferHeap
open BufferByteBuffer.ByteBuffer

/-- Positions in order, in a block below `limit` bytes or without a block. -/
structure InOrder (limit : Nat) (b : ByteBuffer) : Prop where
  memory : ∀ k ∈ b.block, k.bytes.length = k.capacity
  read_le : b.pos.read ≤ b.pos.write
  write_le : b.pos.write ≤ b.capacity
  capacity_lt : b.capacity < limit

variable {b b' : ByteBuffer} {limit : Nat}

theorem inOrder_of_valid (h : b.Valid) : InOrder 2147483648 b :=
  ⟨h.memory, h.read_le, h.write_le, h.capacity_lt⟩

theorem InOrder.valid (h : InOrder 2147483648 b) (hblock : b.block.isSome) : b.Valid :=
  ⟨hblock, h.memory, h.read_le, h.write_le, h.capacity_lt⟩

theorem InOrder.length_eq (h : InOrder limit b) (hlimit : limit ≤ 18446744073709551616) :
    b.length = b.pos.write - b.pos.read := by
  have hread := h.read_le
  have hwrite := h.write_le
  have hlt := h.capacity_lt
  simp only [length, toSize]
  omega

theorem InOrder.contents_length (h : InOrder limit b) (hlimit : limit ≤ 18446744073709551616) :
    b.contents.length = b.length := by
  have hwrite := h.write_le
  rw [h.length_eq hlimit]
  cases hblock : b.block with
  | none =>
    rw [capacity, hblock, Option.elim_none] at hwrite
    rw [contents, hblock, List.length_nil]
    omega
  | some k =>
    rw [capacity, hblock, Option.elim_some, ← h.memory k hblock] at hwrite
    simp only [contents, hblock, List.length_take, List.length_drop]
    omega

theorem InOrder.space_eq (h : InOrder limit b) (hlimit : limit ≤ 18446744073709551616) :
    b.space = b.capacity - b.pos.write := by
  have hwrite := h.write_le
  have hlt := h.capacity_lt
  simp only [space, toSize]
  omega

/-- `wr_ptr( move )` goes as far as the read position and the end of the block allow. -/
theorem InOrder.wrPtr_spec (h : InOrder 2147483648 b) (move : Int) :
    (b.wrPtr move).1 = (b.wrPtr move).2.pos.write - b.pos.write ∧
      InOrder 2147483648 (b.wrPtr move).2 := by
  have hread := h.read_le
  have hwrite := h.write_le
  have hlt := h.capacity_lt
  have hlength := h.length_eq (by decide)
  have hspace := h.space_eq (by decide)
  have hintLength : toInt b.length = b.length := toInt_of_range (by omega) (by omega)
  have hintSpace : toInt b.space = b.space := toInt_of_range (by omega) (by omega)
  have hmove : -(b.length : Int) ≤ (b.wrPtr move).1 ∧ (b.wrPtr move).1 ≤ b.space := by
    simp only [wrPtr, hintLength, hintSpace]
    split_ifs <;> omega
  have hsize : (b.wrPtr move).2.pos.write = toSize (b.pos.write + (b.wrPtr move).1) := rfl
  have hpos := toSize_of_range (x := b.pos.write + (b.wrPtr move).1) (by omega) (by omega)
  rw [← hsize] at hpos
  refine ⟨by omega, h.memory, ?_, ?_, hlt⟩
  · show b.pos.read ≤ (b.wrPtr move).2.pos.write
    omega
  · show (b.wrPtr move).2.pos.write ≤ b.capacity
    omega

theorem InOrder.rdPtr_spec (h : InOrder 2147483648 b) (move : Int) :
    (b.rdPtr move).1 = (b.rdPtr move).2.pos.read - b.pos.read ∧
      InOrder 2147483648 (b.rdPtr move).2 := by
  have hread := h.read_le
  have hwrite := h.write_le
  have hlt := h.capacity_lt
  have hlength := h.length_eq (by decide)
  have hintLength : toInt b.length = b.length := toInt_of_range (by omega) (by omega)
  have hintRead : toInt b.pos.read = b.pos.read := toInt_of_range (by omega) (by omega)
  have hmove : -(b.pos.read : Int) ≤ (b.rdPtr move).1 ∧ (b.rdPtr move).1 ≤ b.length := by
    simp only [rdPtr, hintLength, hintRead]
    split_ifs <;> omega
  have hsize : (b.rdPtr move).2.pos.read = toSize (b.pos.read + (b.rdPtr move).1) := rfl
  have hpos := toSize_of_range (x := b.pos.read + (b.rdPtr move).1) (by omega) (by omega)
  rw [← hsize] at hpos
  refine ⟨by omega, h.memory, ?_, hwrite, hlt⟩
  show (b.rdPtr move).2.pos.read ≤ b.pos.write
  omega

/-- What `reserve` does where it does not leave the buffer as it is. -/
theorem InOrder.reserve_spec (h : InOrder limit b) (hlimit : limit ≤ 18446744073709551616)
    {sz : Int} (hsz : 0 ≤ sz) (hint : sz < 2147483648)
    (hmoves : ¬ (b.refcount = 1 ∧ sz < toInt b.capacity)) :
    ∃ b', b.reserve sz = some b' ∧ b'.Valid ∧ b'.refcount = 1 ∧ b'.pos.read = 0 ∧
      b'.capacity = (alloc sz.toNat).capacity ∧
      b'.contents = b.contents.take (alloc sz.toNat).capacity := by
  have hsize : toSize sz = sz.toNat := by
    unfold toSize
    omega
  obtain ⟨hnv, hnc, hnr, hcap, hspace⟩ := ofSize_valid (show sz.toNat < 2147483648 by omega)
  have hlength := h.length_eq hlimit
  have hread := h.read_le
  have hwrite := h.write_le
  cases hblock : b.block with
  | none =>
    refine ⟨ofSize sz.toNat, ?_, hnv, hnr, rfl, rfl, ?_⟩
    · simp only [reserve, if_neg hmoves, hblock, hsize]
    · rw [hnc, contents, hblock, List.take_nil]
  | some k =>
    have hmem := h.memory k hblock
    have hcapk : b.capacity = k.capacity := by rw [capacity, hblock, Option.elim_some]
    have hsrc : b.length ≤ (k.bytes.drop b.pos.read).length := by
      rw [List.length_drop]
      omega
    obtain ⟨b', hcopy, hvalid, hcontents, href, hfront, -⟩ := hnv.write_spec hsrc
    refine ⟨b', ?_, hvalid, href.trans hnr, hfront, ?_, ?_⟩
    · simp only [reserve, if_neg hmoves, hblock, hsize]
      simp [hcopy]
    · rw [(write_keeps hcopy).1]
      rfl
    · rw [hcontents, hnc, List.nil_append, hspace, Nat.min_comm, ← List.take_take]
      simp only [contents, hblock, hlength]
      rfl

theorem InOrder.copy_spec (h : InOrder 2147483648 b) :
    ∃ b', b.copy = some b' ∧ InOrder 2147483648 b' := by
  have hwrite := h.write_le
  have hlt := h.capacity_lt
  cases hblock : b.block with
  | none => exact ⟨b, by simp only [copy, hblock], h⟩
  | some k =>
    have hmem := h.memory k hblock
    have hcapk : b.capacity = k.capacity := by rw [capacity, hblock, Option.elim_some]
    have hnew := alloc_bytes_length (show k.capacity < 18446744073709551600 by omega)
    have hge := alloc_capacity_ge k.capacity
    have hsource : copyOut k.bytes 0 k.capacity = some k.bytes := by
      rw [copyOut, if_pos (by omega), List.drop_zero, ← hmem, List.take_length]
    obtain ⟨out, hout, houtlen, -⟩ := copyIn_spec (alloc k.capacity).bytes 0
      (show k.capacity ≤ k.bytes.length by omega) (by omega)
    refine ⟨⟨some { alloc k.capacity with bytes := out }, b.pos⟩, ?_, ?_, h.read_le, ?_, ?_⟩
    · simp [copy, hblock, hsource, hout]
    · simpa using houtlen.trans hnew
    · show b.pos.write ≤ (alloc k.capacity).capacity
      omega
    · exact alloc_capacity_lt (by omega)

/-! ## Objects and their blocks -/

/-- An object refers to a block that has been made, and its positions lie in it. -/
structure Placed (h : Heap) (o : Object) : Prop where
  made : ∀ b ∈ o.block, b < h.made
  read_le : o.pos.read ≤ o.pos.write
  write_le : o.pos.write ≤ (h.view o).capacity

structure Sound (limit : Nat) (h : Heap) : Prop where
  memory : ∀ b < h.made, (h.blocks b).bytes.length = (h.blocks b).capacity
  capacity_lt : ∀ b < h.made, (h.blocks b).capacity < limit
  placed : ∀ o, some o ∈ h.objects → Placed h o
  inside : h.outside = false

theorem Sound.mono {limit' : Nat} {h : Heap} (hs : Sound limit h) (hle : limit ≤ limit') :
    Sound limit' h :=
  ⟨hs.memory, fun b hb => Nat.lt_of_lt_of_le (hs.capacity_lt b hb) hle, hs.placed, hs.inside⟩

/-- The blocks keep their sizes. -/
structure Grows (h h' : Heap) : Prop where
  made : h.made ≤ h'.made
  capacity : ∀ b < h.made, (h'.blocks b).capacity = (h.blocks b).capacity
  memory : ∀ b < h.made, (h'.blocks b).bytes.length = (h.blocks b).bytes.length

variable {h h' : Heap} {o : Object} {x : ObjectId} {k : Block}

theorem Placed.grow (hp : Placed h o) (hg : Grows h h') : Placed h' o := by
  have hcap : (h'.view o).capacity = (h.view o).capacity := by
    cases hblock : o.block with
    | none => simp only [Heap.view, capacity, hblock, Option.map_none]
    | some b =>
      simpa only [Heap.view, capacity, hblock, Option.map_some, Option.elim_some] using
        hg.capacity b (hp.made b hblock)
  exact ⟨fun b hb => Nat.lt_of_lt_of_le (hp.made b hb) hg.made, hp.read_le, hcap ▸ hp.write_le⟩

theorem Placed.same (hp : Placed h o) (hmade : h'.made = h.made)
    (hblocks : h'.blocks = h.blocks) : Placed h' o :=
  hp.grow ⟨Nat.le_of_eq hmade.symm, fun _ _ => by rw [hblocks], fun _ _ => by rw [hblocks]⟩

/-- Only the bytes and counts of blocks have changed. -/
theorem Sound.grow (hs : Sound limit h) (hg : Grows h h') (hmade : h'.made = h.made)
    (hobjects : h'.objects = h.objects) (hinside : h'.outside = h.outside) :
    Sound limit h' := by
  refine ⟨fun b hb => ?_, fun b hb => ?_, fun o ho => ?_, hinside.trans hs.inside⟩
  · rw [hmade] at hb
    rw [hg.memory b hb, hg.capacity b hb, hs.memory b hb]
  · rw [hmade] at hb
    rw [hg.capacity b hb]
    exact hs.capacity_lt b hb
  · exact (hs.placed o (hobjects ▸ ho)).grow hg

theorem grows_setBlock {b : BlockId} (hcap : k.capacity = (h.blocks b).capacity)
    (hlen : k.bytes.length = (h.blocks b).bytes.length) : Grows h (h.setBlock b k) := by
  refine ⟨Nat.le_refl _, fun c _ => ?_, fun c _ => ?_⟩
  · by_cases hc : c = b
    · rw [hc]
      simpa [Heap.setBlock] using hcap
    · simp [Heap.setBlock, hc]
  · by_cases hc : c = b
    · rw [hc]
      simpa [Heap.setBlock] using hlen
    · simp [Heap.setBlock, hc]

theorem grows_touch (block : Option BlockId) : Grows h (h.touch block) :=
  ⟨by simp, by simp, by simp⟩

theorem grows_duplicate (block : Option BlockId) : Grows h (h.duplicate block) := by
  cases block with
  | none => exact grows_touch none
  | some b =>
    have hset := grows_setBlock (h := h) (b := b)
      (k := { h.blocks b with refcount := toInt ((h.blocks b).refcount + 1) }) rfl rfl
    exact ⟨hset.made, hset.capacity, hset.memory⟩

theorem grows_free (block : Option BlockId) : Grows h (h.free block) := by
  cases block with
  | none => exact grows_touch none
  | some b =>
    have hset := grows_setBlock (h := h) (b := b)
      (k := { h.blocks b with refcount := toInt ((h.blocks b).refcount - 1) }) rfl rfl
    exact ⟨hset.made, hset.capacity, hset.memory⟩

theorem Sound.touch (hs : Sound limit h) (block : Option BlockId) :
    Sound limit (h.touch block) := hs.grow (grows_touch block) (by simp) (by simp) (by simp)

theorem Sound.setBlock (hs : Sound limit h) {b : BlockId}
    (hcap : k.capacity = (h.blocks b).capacity)
    (hlen : k.bytes.length = (h.blocks b).bytes.length) : Sound limit (h.setBlock b k) :=
  hs.grow (grows_setBlock hcap hlen) rfl rfl rfl

theorem Sound.duplicate (hs : Sound limit h) (block : Option BlockId) :
    Sound limit (h.duplicate block) := hs.grow (grows_duplicate block) (by simp) (by simp) (by simp)

theorem Sound.free (hs : Sound limit h) (block : Option BlockId) :
    Sound limit (h.free block) := hs.grow (grows_free block) (by simp) (by simp) (by simp)

theorem Sound.newBlock (hs : Sound limit h) (hlen : k.bytes.length = k.capacity)
    (hcap : k.capacity < limit) : Sound limit (h.newBlock k) := by
  refine ⟨fun b hb => ?_, fun b hb => ?_, fun o ho => ?_, hs.inside⟩
  · rcases Nat.lt_or_eq_of_le (Nat.le_of_lt_succ hb) with hb | rfl
    · rw [Heap.newBlock_of_lt h k hb, hs.memory b hb]
    · rw [Heap.newBlock_self, hlen]
  · rcases Nat.lt_or_eq_of_le (Nat.le_of_lt_succ hb) with hb | rfl
    · rw [Heap.newBlock_of_lt h k hb]
      exact hs.capacity_lt b hb
    · rwa [Heap.newBlock_self]
  · exact (hs.placed o ho).grow ⟨Nat.le_succ _, fun b hb => by rw [Heap.newBlock_of_lt h k hb],
      fun b hb => by rw [Heap.newBlock_of_lt h k hb]⟩

theorem Sound.setObject (hs : Sound limit h) (ho : Placed h o) (x : ObjectId) :
    Sound limit (h.setObject x (some o)) := by
  refine ⟨hs.memory, hs.capacity_lt, fun o' ho' => ?_, hs.inside⟩
  rcases List.mem_or_eq_of_mem_set ho' with hmem | heq
  · exact (hs.placed o' hmem).same rfl rfl
  · obtain rfl := Option.some.inj heq
    exact ho.same rfl rfl

theorem Sound.setNone (hs : Sound limit h) (x : ObjectId) : Sound limit (h.setObject x none) := by
  refine ⟨hs.memory, hs.capacity_lt, fun o ho => ?_, hs.inside⟩
  rcases List.mem_or_eq_of_mem_set ho with hmem | heq
  · exact (hs.placed o hmem).same rfl rfl
  · exact absurd heq (Option.some_ne_none o)

theorem Sound.addObject (hs : Sound limit h) (ho : Placed h o) : Sound limit (h.addObject o) := by
  refine ⟨hs.memory, hs.capacity_lt, fun o' ho' => ?_, hs.inside⟩
  rcases List.mem_append.mp ho' with hmem | heq
  · exact (hs.placed o' hmem).same rfl rfl
  · obtain rfl := Option.some.inj (List.mem_singleton.mp heq)
    exact ho.same rfl rfl

theorem mem_of_get (hget : h.get x = some o) : some o ∈ h.objects := by
  rw [Heap.get, Option.join_eq_some_iff] at hget
  exact List.mem_of_getElem? hget

theorem Sound.inOrder (hs : Sound limit h) (ho : Placed h o) (hlimit : 0 < limit) :
    InOrder limit (h.view o) := by
  refine ⟨fun k hk => ?_, ho.read_le, ho.write_le, ?_⟩
  · obtain ⟨b, hb, rfl⟩ := Option.map_eq_some_iff.mp hk
    exact hs.memory b (ho.made b hb)
  · cases hblock : o.block with
    | none =>
      simpa only [Heap.view, capacity, hblock, Option.map_none, Option.elim_none] using hlimit
    | some b =>
      simpa only [Heap.view, capacity, hblock, Option.map_some, Option.elim_some] using
        hs.capacity_lt b (ho.made b hblock)

theorem Sound.construct (hs : Sound limit h) (hb : InOrder limit b) :
    Sound limit (h.construct b) := by
  obtain ⟨_ | k, pos⟩ := b
  · exact hs.addObject ⟨nofun, hb.read_le, hb.write_le⟩
  · refine (hs.newBlock (hb.memory k rfl) hb.capacity_lt).addObject
      ⟨fun b hb' => ?_, hb.read_le, ?_⟩
    · obtain rfl := Option.some.inj hb'
      exact Nat.lt_succ_self _
    · simpa only [Heap.view, Option.map_some, Heap.newBlock_self, capacity_mk] using hb.write_le

/-- An operation that keeps the block and its size. -/
theorem Sound.update (hs : Sound limit h) (ho : Placed h o) (hb : InOrder limit b)
    (hblock : b.block.isSome = o.block.isSome) (hcap : b.capacity = (h.view o).capacity)
    (x : ObjectId) : Sound limit (h.update x o (some b)) := by
  have hplaced : Placed (h.touch o.block) { o with pos := b.pos } := by
    have hp : Placed h { o with pos := b.pos } := ⟨ho.made, hb.read_le, hcap ▸ hb.write_le⟩
    exact hp.grow (grows_touch o.block)
  have hset := (hs.touch o.block).setObject hplaced x
  obtain ⟨id, pos⟩ := o
  obtain ⟨blk, bpos⟩ := b
  cases id with
  | none => exact hset
  | some id =>
    obtain ⟨k, rfl⟩ := Option.isSome_iff_exists.mp hblock
    have hcapk : k.capacity = (h.blocks id).capacity := hcap
    have hlen : k.bytes.length = (h.blocks id).bytes.length := by
      rw [hb.memory k rfl, hcapk, hs.memory id (ho.made id rfl)]
    exact hset.setBlock hcapk hlen

/-- An operation that takes a block of its own. -/
theorem Sound.replace (hs : Sound limit h) (hb : InOrder limit b) (hblock : b.block.isSome)
    (x : ObjectId) (o : Object) (sz : Nat) : Sound limit (h.replace x o (some b) sz) := by
  obtain ⟨_ | k, pos⟩ := b
  · exact absurd hblock Bool.false_ne_true
  · have hnew : Sound limit ((h.touch o.block).newBlock k) :=
      (hs.touch o.block).newBlock (hb.memory k rfl) hb.capacity_lt
    have hplaced : Placed ((h.touch o.block).newBlock k) ⟨some h.made, pos⟩ := by
      refine ⟨fun b hb' => ?_, hb.read_le, ?_⟩
      · obtain rfl := Option.some.inj hb'
        simp [Heap.newBlock]
      · have hself := Heap.touch_newBlock_self h o.block k
        simpa only [Heap.view, Option.map_some, hself, capacity_mk] using hb.write_le
    exact (hnew.free o.block).setObject (hplaced.grow (grows_free o.block)) x

/-! ## Each operation -/

/-- The operations whose sizes are below 2^31, without `sub_buffer`. -/
def Listed : Op → Prop
  | .ofSize sz => sz < 2147483648
  | .ofBytes _ len => len < 2147483648
  | .reserve _ sz => 0 ≤ sz ∧ sz < 2147483648
  | .subBuffer _ _ _ => False
  | _ => True

instance : ∀ op : Op, Decidable (Listed op)
  | .ofSize _ | .ofBytes _ _ => inferInstanceAs (Decidable (_ < _))
  | .reserve _ _ => inferInstanceAs (Decidable (_ ∧ _))
  | .subBuffer _ _ _ => isFalse id
  | .construct | .copyConstruct _ | .moveConstruct _ | .copyAssign _ _ | .moveAssign _ _
  | .swap _ _ | .destroy _ | .wrPtr _ _ | .rdPtr _ _ | .read _ _ | .peak _ _ | .write _ _ _
  | .fit _ | .shrinkToFit _ | .clear _ | .copy _ => isTrue trivial

theorem placed_null (h : Heap) : Placed h .null :=
  ⟨nofun, Nat.le_refl 0, Nat.zero_le _⟩

theorem Sound.placed_get (hs : Sound limit h) (hget : h.get x = some o) : Placed h o :=
  hs.placed o (mem_of_get hget)

theorem inOrder_empty : InOrder 2147483648 empty :=
  ⟨by simp [empty], by decide, by decide, by decide⟩

theorem view_isSome (h : Heap) (o : Object) : (h.view o).block.isSome = o.block.isSome :=
  Option.isSome_map ..

/-- An operation on the data of an object. -/
theorem Sound.access (hs : Sound 2147483648 h) (hget : h.get x = some o)
    (hblock : o.block.isSome) : (h.view o).Valid ∧ ∀ b : ByteBuffer, b.Valid →
      b.capacity = (h.view o).capacity → Sound 2147483648 (h.update x o (some b)) := by
  have hplaced := hs.placed_get hget
  refine ⟨(hs.inOrder hplaced (by decide)).valid (by rwa [view_isSome]), fun b hb hcap => ?_⟩
  exact hs.update hplaced (inOrder_of_valid hb) (hb.has_block.trans hblock.symm) hcap x

/-- The assignments of `operator=`. -/
theorem Sound.assign (hs : Sound limit h) {rhs : Object} (hrhs : Placed h rhs)
    (block : Option BlockId) (x : ObjectId) :
    Sound limit (((h.duplicate rhs.block).free block).setObject x (some rhs)) :=
  ((hs.duplicate rhs.block).free block).setObject
    ((hrhs.grow (grows_duplicate rhs.block)).grow (grows_free block)) x

theorem Sound.exec (hs : Sound 2147483648 h) {op : Op} (hen : Enabled h op) (hop : Listed op) :
    Sound 2147483648 (exec h op) := by
  cases op with
  | construct => exact hs.construct inOrder_empty
  | ofSize sz => exact hs.construct (inOrder_of_valid (ofSize_valid hop).1)
  | ofBytes buf len =>
    obtain ⟨b, hb, hvalid, -⟩ := ofBytes_spec hen hop
    simp only [BufferHeap.exec, hb]
    exact hs.construct (inOrder_of_valid hvalid)
  | copyConstruct y =>
    obtain ⟨rhs, hrhs⟩ := Option.isSome_iff_exists.mp hen
    simp only [BufferHeap.exec, withObject_eq hrhs]
    exact (hs.duplicate rhs.block).addObject ((hs.placed_get hrhs).grow (grows_duplicate _))
  | moveConstruct y =>
    obtain ⟨rhs, hrhs⟩ := Option.isSome_iff_exists.mp hen
    simp only [BufferHeap.exec, withObject_eq hrhs]
    exact (hs.setObject (placed_null h) y).addObject ((hs.placed_get hrhs).same rfl rfl)
  | copyAssign x y =>
    obtain ⟨this, hthis⟩ := Option.isSome_iff_exists.mp hen.1
    obtain ⟨rhs, hrhs⟩ := Option.isSome_iff_exists.mp hen.2
    simp only [BufferHeap.exec, withObject_eq hthis, withObject_eq hrhs]
    exact hs.assign (hs.placed_get hrhs) this.block x
  | moveAssign x y =>
    obtain ⟨this, hthis⟩ := Option.isSome_iff_exists.mp hen.1
    obtain ⟨rhs, hrhs⟩ := Option.isSome_iff_exists.mp hen.2
    simp only [BufferHeap.exec, withObject_eq hthis, withObject_eq hrhs]
    exact ((hs.assign (hs.placed_get hrhs) this.block x).free rhs.block).setObject (placed_null _) y
  | swap x y =>
    obtain ⟨this, hthis⟩ := Option.isSome_iff_exists.mp hen.1
    obtain ⟨rhs, hrhs⟩ := Option.isSome_iff_exists.mp hen.2
    simp only [BufferHeap.exec, withObject_eq hthis, withObject_eq hrhs]
    exact (hs.setObject (hs.placed_get hrhs) x).setObject ((hs.placed_get hthis).same rfl rfl) y
  | destroy x =>
    obtain ⟨this, hthis⟩ := Option.isSome_iff_exists.mp hen
    simp only [BufferHeap.exec, withObject_eq hthis]
    exact (hs.free this.block).setNone x
  | wrPtr x move =>
    obtain ⟨o, ho⟩ := Option.isSome_iff_exists.mp hen
    have horder := hs.inOrder (hs.placed_get ho) (by decide)
    simp only [BufferHeap.exec, withObject_eq ho]
    exact hs.update (hs.placed_get ho) (horder.wrPtr_spec move).2 (view_isSome h o) rfl x
  | rdPtr x move =>
    obtain ⟨o, ho⟩ := Option.isSome_iff_exists.mp hen
    have horder := hs.inOrder (hs.placed_get ho) (by decide)
    simp only [BufferHeap.exec, withObject_eq ho]
    exact hs.update (hs.placed_get ho) (horder.rdPtr_spec move).2 (view_isSome h o) rfl x
  | clear x =>
    obtain ⟨o, ho⟩ := Option.isSome_iff_exists.mp hen
    have horder := hs.inOrder (hs.placed_get ho) (by decide)
    have hclear : InOrder 2147483648 (h.view o).clear :=
      ⟨horder.memory, Nat.le_refl 0, Nat.zero_le _, horder.capacity_lt⟩
    simp only [BufferHeap.exec, withObject_eq ho]
    exact hs.update (hs.placed_get ho) hclear (view_isSome h o) rfl x
  | read x sz =>
    obtain ⟨o, ho, hblock⟩ := hen
    obtain ⟨hvalid, hupdate⟩ := hs.access ho hblock
    obtain ⟨b, hb, hvalid', -⟩ := hvalid.read_spec sz
    simp only [BufferHeap.exec, withObject_eq ho, hb, Option.map_some]
    exact hupdate b hvalid' (read_keeps hb).1
  | peak x sz =>
    obtain ⟨o, ho, hblock⟩ := hen
    obtain ⟨hvalid, hupdate⟩ := hs.access ho hblock
    simp only [BufferHeap.exec, withObject_eq ho, hvalid.peak_spec, Option.map_some]
    exact hupdate _ hvalid rfl
  | write x src sz =>
    obtain ⟨⟨o, ho, hblock⟩, hsrc⟩ := hen
    obtain ⟨hvalid, hupdate⟩ := hs.access ho hblock
    obtain ⟨b, hb, hvalid', -⟩ := hvalid.write_spec hsrc
    simp only [BufferHeap.exec, withObject_eq ho, hb, Option.map_some]
    exact hupdate b hvalid' (write_keeps hb).1
  | fit x =>
    obtain ⟨o, ho, hblock⟩ := hen
    obtain ⟨hvalid, hupdate⟩ := hs.access ho hblock
    obtain ⟨b, hb, hvalid', -⟩ := hvalid.fit_spec
    simp only [BufferHeap.exec, withObject_eq ho, hb]
    exact hupdate b hvalid' (fit_keeps hb).1
  | shrinkToFit x =>
    obtain ⟨o, ho, hblock⟩ := hen
    obtain ⟨hvalid, -⟩ := hs.access ho hblock
    obtain ⟨b, hb, hvalid', -⟩ := hvalid.shrinkToFit_spec
    simp only [BufferHeap.exec, withObject_eq ho, hb, Option.map_some]
    exact hs.replace (inOrder_of_valid hvalid') hvalid'.has_block x o _
  | reserve x sz =>
    obtain ⟨o, ho⟩ := Option.isSome_iff_exists.mp hen
    have horder := hs.inOrder (hs.placed_get ho) (by decide)
    simp only [BufferHeap.exec, withObject_eq ho, Heap.reserve]
    split_ifs with hkeeps
    · exact hs.touch o.block
    · obtain ⟨b, hb, hvalid, -⟩ := horder.reserve_spec (by decide) hop.1 hop.2 hkeeps
      rw [hb]
      exact hs.replace (inOrder_of_valid hvalid) hvalid.has_block x o _
  | subBuffer y start len => exact absurd hop id
  | copy y =>
    obtain ⟨o, ho⟩ := Option.isSome_iff_exists.mp hen
    obtain ⟨b, hb, horder⟩ := (hs.inOrder (hs.placed_get ho) (by decide)).copy_spec
    simp only [BufferHeap.exec, withObject_eq ho, hb]
    exact (hs.touch o.block).construct horder

/-! ## Every run -/

theorem sound_initial : Sound limit initial := ⟨nofun, nofun, nofun, rfl⟩

theorem sound_execution (h : machine.Execution (fun _ op => Listed op) initial h') :
    Sound 2147483648 h' :=
  h.invariant sound_initial fun _ _ _ hs hen hop => hs.exec hen hop

/-- No access was outside of a block, the positions are in order, and moving one returns by how
much. -/
structure PositionsValid (h : Heap) : Prop where
  inside : h.outside = false
  ordered : ∀ x o, h.get x = some o →
    o.pos.read ≤ o.pos.write ∧ o.pos.write ≤ (h.view o).capacity
  wrPtr : ∀ x o move, h.get x = some o →
    ((h.view o).wrPtr move).1 = ((h.view o).wrPtr move).2.pos.write - o.pos.write
  rdPtr : ∀ x o move, h.get x = some o →
    ((h.view o).rdPtr move).1 = ((h.view o).rdPtr move).2.pos.read - o.pos.read

theorem positions_valid (h : machine.Execution (fun _ op => Listed op) initial h') :
    PositionsValid h' := by
  have hs := sound_execution h
  refine ⟨hs.inside, fun x o ho => ?_, fun x o move ho => ?_, fun x o move ho => ?_⟩
  · exact ⟨(hs.placed_get ho).read_le, (hs.placed_get ho).write_le⟩
  · exact ((hs.inOrder (hs.placed_get ho) (by decide)).wrPtr_spec move).1
  · exact ((hs.inOrder (hs.placed_get ho) (by decide)).rdPtr_spec move).1

/-- Two buffers that share a block; one is read beyond its end and then given a block of its own. -/
def sharing : List Op :=
  [.ofBytes [1, 2, 3] 3, .duplicate 0, .read 0 2, .rdPtr 1 9, .writeMsg 1 [4, 5], .reserve 1 6,
    .moveAssign 0 1, .wrPtr 0 (-7), .destroy 1]

theorem positions_valid_sharing : PositionsValid (machine.runTrace initial sharing) := by
  have hvalid : machine.ValidTrace (fun _ op => Listed op) initial sharing := by decide +kernel
  exact positions_valid hvalid.execution

end BufferPositions
