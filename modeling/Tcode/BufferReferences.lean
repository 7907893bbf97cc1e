import Tcode.BufferHeap
import Tcode.SupportHolders

/-! # References to blocks

The count of a block is the number of objects that refer to it. In the middle of an operation a
handle that no object has yet, or no longer, is a reference as well.
-/
namespace BufferReferences

open SupportMachineInt SupportTransitionSystem BufferBlock BufferByteBuffer BufferHeap
open BufferByteBuffer.ByteBuffer

/-! ## The objects that refer to a block -/

def blockOf (o : Option Object) : Option BlockId := o.bind Object.block

/-- The objects whose `_block` is `b`. -/
def holders (h : Heap) (b : BlockId) : Nat := h.objects.countP (blockOf · = some b)

/-- One reference more, if there is a block. -/
def plus (n : BlockId → Nat) (block : Option BlockId) (b : BlockId) : Nat :=
  n b + if block = some b then 1 else 0

variable {h h' : Heap} {x y : ObjectId} {o rhs : Object} {b : BlockId} {block : Option BlockId}
  {k : Block} {n m : BlockId → Nat}

@[simp] theorem blockOf_some (o : Object) : blockOf (some o) = o.block := rfl

@[simp] theorem blockOf_none : blockOf none = none := rfl

@[simp] theorem blockOf_null : blockOf (some .null) = none := rfl

@[simp] theorem plus_none : plus n none = n := SupportHolders.plus_none

@[simp] theorem plus_self : plus n (some b) b = n b + 1 := SupportHolders.plus_self

theorem plus_other {c : BlockId} (hcb : c ≠ b) : plus n (some b) c = n c :=
  SupportHolders.plus_other hcb

theorem plus_le (n : BlockId → Nat) (block : Option BlockId) (b : BlockId) :
    plus n block b ≤ n b + 1 := SupportHolders.plus_le n block b

theorem plus_cancel (h : plus n block = plus m block) : n = m := SupportHolders.plus_cancel h

theorem getElem_of_get (hget : h.get x = some o) : h.objects[x]? = some (some o) :=
  SupportHolders.getElem?_of_join hget

theorem get_setObject (hget : h.get x = some o) (o' : Option Object) :
    (h.setObject x o').get x = o' := SupportHolders.join_set hget o'

theorem get_setObject_ne (hne : y ≠ x) (o' : Option Object) :
    (h.setObject x o').get y = h.get y := SupportHolders.join_set_ne hne o'

theorem holders_addObject : holders (h.addObject o) = plus (holders h) o.block :=
  SupportHolders.holders_append h.objects o

theorem holders_pos (hget : h.get x = some o) (hblock : o.block = some b) : 0 < holders h b :=
  SupportHolders.holders_pos (getElem_of_get hget) hblock

/-- An object lets go of its old block when it gets its new one. -/
theorem holders_setObject (hget : h.get x = some o) (o' : Option Object) :
    plus (holders (h.setObject x o')) o.block = plus (holders h) (blockOf o') :=
  SupportHolders.holders_set (getElem_of_get hget) o'

theorem holders_le (h : Heap) (b : BlockId) : holders h b ≤ h.objects.length :=
  SupportHolders.holders_le (f := Object.block) h.objects b

/-! ## Counts -/

/-- There are `n b` references to each block `b`. -/
structure Counted (h : Heap) (n : BlockId → Nat) : Prop where
  refcount : ∀ b < h.made, (h.blocks b).refcount = toInt (n b)
  released : ∀ b < h.made, h.released b = true ↔ n b = 0
  unborn : ∀ b, h.made ≤ b → h.released b = false ∧ n b = 0
  fresh : h.stale = false

/-- What a heap keeps of the references to its blocks. -/
def counts (h : Heap) : SupportHolders.Counts where
  count b := (h.blocks b).refcount
  released := h.released
  made := h.made
  stale := h.stale

theorem counted_iff : Counted h n ↔ SupportHolders.Counted (counts h) n where
  mp hc := ⟨hc.refcount, hc.released, hc.unborn, hc.fresh⟩
  mpr hc := ⟨hc.count, hc.released, hc.unborn, hc.fresh⟩

theorem refcount_update (h : Heap) (b : BlockId) (k : Block) :
    (fun c => (Function.update h.blocks b k c).refcount) =
      Function.update (fun c => (h.blocks c).refcount) b k.refcount :=
  Function.comp_update Block.refcount h.blocks b k

theorem counts_duplicate (h : Heap) (b : BlockId) :
    counts (h.duplicate (some b)) = (counts h).acquire b := by
  simp only [counts, Heap.duplicate, Heap.setBlock, refcount_update]
  rfl

theorem counts_free (h : Heap) (b : BlockId) :
    counts (h.free (some b)) = (counts h).release b := by
  simp only [counts, Heap.free, Heap.setBlock, refcount_update]
  rfl

theorem counts_newBlock (hk : k.refcount = 1) : counts (h.newBlock k) = (counts h).create := by
  simp only [counts, Heap.newBlock, Heap.setBlock, refcount_update, hk]
  rfl

/-- The bytes of a block change, and not its count. -/
theorem counts_setBlock (hk : k.refcount = (h.blocks b).refcount) :
    counts (h.setBlock b k) = counts h := by
  simp only [counts, Heap.setBlock, refcount_update, hk, Function.update_eq_self]

theorem Counted.live (hc : Counted h n) (hpos : 0 < n b) : b < h.made ∧ h.released b = false :=
  (counted_iff.mp hc).live hpos

theorem Counted.touch (hc : Counted h n) (hpos : ∀ b ∈ block, 0 < n b) :
    Counted (h.touch block) n := by
  cases block with
  | none => exact hc
  | some b => exact counted_iff.mpr ((counted_iff.mp hc).use (hpos b rfl))

theorem Counted.duplicate (hc : Counted h n) (hpos : ∀ b ∈ block, 0 < n b) :
    Counted (h.duplicate block) (plus n block) := by
  cases block with
  | none =>
    rw [plus_none]
    exact hc
  | some b =>
    rw [counted_iff, counts_duplicate]
    exact (counted_iff.mp hc).acquire (hpos b rfl)

/-- As long as counts have not gone all the way around. -/
theorem last_of_le {i : Nat} (hi : i ≤ 4294967296) (hone : toInt i = 1) : i = 1 := by
  unfold toInt at hone
  omega

theorem Counted.free (hc : Counted h m) (hm : plus n block = m)
    (hlast : ∀ b ∈ block, toInt (m b) = 1 → m b = 1) : Counted (h.free block) n := by
  subst hm
  cases block with
  | none =>
    rw [plus_none] at hc
    exact hc
  | some b =>
    have hlast := hlast b rfl
    rw [plus_self] at hlast
    rw [counted_iff, counts_free]
    exact (counted_iff.mp hc).release fun hone => Nat.succ.inj (hlast hone)

theorem Counted.setBlock (hc : Counted h n) (hk : k.refcount = (h.blocks b).refcount) :
    Counted (h.setBlock b k) n := by
  rw [counted_iff, counts_setBlock hk]
  exact counted_iff.mp hc

theorem Counted.newBlock (hc : Counted h n) (hk : k.refcount = 1) :
    Counted (h.newBlock k) (plus n (some h.made)) := by
  rw [counted_iff, counts_newBlock hk]
  exact (counted_iff.mp hc).create

theorem Counted.setObject (hc : Counted h n) (x : ObjectId) (o : Option Object) :
    Counted (h.setObject x o) n := ⟨hc.refcount, hc.released, hc.unborn, hc.fresh⟩

theorem Counted.addObject (hc : Counted h n) (o : Object) : Counted (h.addObject o) n :=
  ⟨hc.refcount, hc.released, hc.unborn, hc.fresh⟩

/-! ## Objects and the handles they hold -/

theorem holders_congr (hobjects : h'.objects = h.objects) : holders h' = holders h := by
  funext b
  rw [holders, hobjects, holders]

theorem get_congr (hobjects : h'.objects = h.objects) : h'.get x = h.get x := by
  rw [Heap.get, hobjects, Heap.get]

@[simp] theorem holders_touch : holders (h.touch block) = holders h := holders_congr (by simp)

@[simp] theorem get_touch : (h.touch block).get x = h.get x := get_congr (by simp)

theorem holds (hget : h.get x = some o) : ∀ b ∈ o.block, 0 < holders h b :=
  fun _ hb => holders_pos hget hb

/-- The counts of the blocks are those of the objects that hold them. -/
def Accounted (h : Heap) : Prop := Counted h (holders h)

/-- A new buffer is the only one with its block. -/
def Unshared (nb : ByteBuffer) : Prop := ∀ k ∈ nb.block, k.refcount = 1

variable {nb : ByteBuffer} {pos : Position}

theorem Accounted.construct (ha : Accounted h) (hnb : Unshared nb) :
    Accounted (h.construct nb) := by
  obtain ⟨_ | k, pos⟩ := nb
  · have hholders : holders (h.addObject ⟨none, pos⟩) = holders h := by
      rw [holders_addObject, plus_none]
    unfold Accounted
    simp only [Heap.construct, hholders]
    exact Counted.addObject ha _
  · have hholders : holders ((h.newBlock k).addObject ⟨some h.made, pos⟩) =
        plus (holders h) (some h.made) := holders_addObject
    unfold Accounted
    simp only [Heap.construct, hholders]
    exact (Counted.newBlock ha (hnb k rfl)).addObject _

theorem Accounted.constructFrom (ha : Accounted h) {b : Option ByteBuffer}
    (hnb : ∀ nb ∈ b, Unshared nb) (sz : Nat) : Accounted (h.constructFrom b sz) := by
  cases b with
  | some nb => exact ha.construct (hnb nb rfl)
  | none =>
    have hnew : Unshared (ofSize sz) := by simp [Unshared, ofSize]
    obtain ⟨hrefcount, hreleased, hunborn, hfresh⟩ := ha.construct hnew
    exact ⟨hrefcount, hreleased, hunborn, hfresh⟩

theorem Accounted.touch (ha : Accounted h) (hget : h.get x = some o) :
    Accounted (h.touch o.block) := by
  rw [Accounted, holders_touch]
  exact Counted.touch ha (holds hget)

theorem Accounted.update (ha : Accounted h) (hget : h.get x = some o) {b : Option ByteBuffer}
    (hnb : ∀ nb ∈ b, nb.refcount = (h.view o).refcount) : Accounted (h.update x o b) := by
  have htouch := ha.touch hget
  cases b with
  | none => exact ⟨htouch.refcount, htouch.released, htouch.unborn, htouch.fresh⟩
  | some nb =>
    have hget' : (h.touch o.block).get x = some o := get_touch.trans hget
    have hholders := holders_setObject hget' (some { o with pos := nb.pos })
    have hsame := (plus_cancel hholders).trans holders_touch
    have hset := Counted.setObject htouch x (some { o with pos := nb.pos })
    rw [holders_touch, ← hsame] at hset
    have hcount := hnb nb rfl
    obtain ⟨id, pos⟩ := o
    obtain ⟨blk, npos⟩ := nb
    cases id with
    | none => exact hset
    | some id =>
      cases blk with
      | none => exact hset
      | some k => exact Counted.setBlock hset hcount

/-! ## Objects that get a block of their own -/

/-- What `replace` makes of the heap. -/
def moved (h : Heap) (x : ObjectId) (o : Object) (k : Block) (pos : Position) : Heap :=
  (((h.touch o.block).newBlock k).free o.block).setObject x (some ⟨some h.made, pos⟩)

theorem moved_objects (h : Heap) (x : ObjectId) (o : Object) (k : Block) (pos : Position) :
    (moved h x o k pos).objects = (h.setObject x (some ⟨some h.made, pos⟩)).objects := by
  simp [moved, Heap.setObject, Heap.newBlock, Heap.setBlock]

theorem moved_get (hget : h.get x = some o) :
    (moved h x o k pos).get x = some ⟨some h.made, pos⟩ := by
  rw [get_congr (moved_objects h x o k pos), get_setObject hget]

theorem moved_get_ne (hne : y ≠ x) : (moved h x o k pos).get y = h.get y := by
  rw [get_congr (moved_objects h x o k pos), get_setObject_ne hne]

theorem moved_holders (hget : h.get x = some o) (k : Block) (pos : Position) :
    plus (holders (moved h x o k pos)) o.block = plus (holders h) (some h.made) := by
  rw [holders_congr (moved_objects h x o k pos)]
  exact holders_setObject hget (some ⟨some h.made, pos⟩)

/-- The old block is released where the object was the only one that held it. -/
theorem Accounted.moved (ha : Accounted h) (hget : h.get x = some o) (hk : k.refcount = 1)
    (pos : Position) (hlast : ∀ b ∈ o.block, toInt (holders h b) = 1 → holders h b = 1) :
    Accounted (moved h x o k pos) := by
  have hnew := Counted.newBlock (ha.touch hget) hk
  rw [holders_touch, Heap.touch_made] at hnew
  refine (hnew.free (moved_holders hget k pos) fun b hb => ?_).setObject x _
  rw [plus_other (Nat.ne_of_lt (ha.live (holds hget b hb)).1)]
  exact hlast b hb

theorem Accounted.replace (ha : Accounted h) (hget : h.get x = some o) {b : Option ByteBuffer}
    (hnb : ∀ nb ∈ b, Unshared nb)
    (hlast : ∀ b ∈ o.block, toInt (holders h b) = 1 → holders h b = 1) (sz : Nat) :
    Accounted (h.replace x o b sz) := by
  have hnew := alloc_refcount sz
  match b, hnb with
  | some ⟨some k, pos⟩, hnb => exact ha.moved hget (hnb _ rfl k rfl) pos hlast
  | some ⟨none, _⟩, _ | none, _ =>
    obtain ⟨hrefcount, hreleased, hunborn, hfresh⟩ := ha.moved hget hnew ⟨0, 0⟩ hlast
    exact ⟨hrefcount, hreleased, hunborn, hfresh⟩

/-! ## Buffers with a new block -/

section Unshared

variable {b : ByteBuffer}

theorem unshared_of_refcount (hone : nb.refcount = 1) : Unshared nb := by
  intro k hk
  rwa [refcount, Option.mem_def.mp hk, Option.elim_some] at hone

theorem unshared_empty : Unshared .empty := nofun

theorem unshared_ofSize (sz : Nat) : Unshared (ofSize sz) :=
  unshared_of_refcount (alloc_refcount sz)

theorem refcount_ofBytes {buf : List UInt8} {len : Nat} (h : ofBytes buf len = some nb) :
    nb.refcount = 1 := by
  simp only [ofBytes, Option.bind_eq_bind, Option.bind_eq_some_iff, Option.pure_def,
    Option.some.injEq, Prod.exists] at h
  obtain ⟨_, _, hwrite, rfl⟩ := h
  exact (write_keeps hwrite).2.trans (alloc_refcount len)

theorem refcount_subBuffer {start len : Nat} (h : b.subBuffer start len = some nb) :
    nb.refcount = 1 := by
  simp only [subBuffer, Option.bind_eq_bind, Option.bind_eq_some_iff] at h
  obtain ⟨_, -, hbytes⟩ := h
  exact refcount_ofBytes hbytes

theorem unshared_copy (h : b.copy = some nb) : Unshared nb := by
  obtain ⟨_ | k, pos⟩ := b
  · obtain rfl := Option.some.inj h
    exact nofun
  · simp only [copy, Option.bind_eq_bind, Option.bind_eq_some_iff, Option.pure_def,
      Option.some.injEq] at h
    obtain ⟨_, -, _, -, rfl⟩ := h
    exact unshared_of_refcount (alloc_refcount k.capacity)

theorem refcount_shrinkToFit {n : Int} (h : b.shrinkToFit = some (n, nb)) : nb.refcount = 1 := by
  simp only [shrinkToFit, Option.bind_eq_bind, Option.bind_eq_some_iff, Option.pure_def,
    Option.some.injEq, Prod.mk.injEq] at h
  obtain ⟨_, -, _, -, _, -, -, rfl⟩ := h
  exact alloc_refcount b.length

theorem refcount_reserve {sz : Int} (hmoves : ¬ (b.refcount = 1 ∧ sz < toInt b.capacity))
    (h : b.reserve sz = some nb) : nb.refcount = 1 := by
  obtain ⟨_ | k, pos⟩ := b
  · simp only [reserve, if_neg hmoves, Option.some.injEq] at h
    rw [← h]
    exact alloc_refcount (toSize sz)
  · simp only [reserve, if_neg hmoves, Option.bind_eq_bind, Option.bind_eq_some_iff,
      Option.pure_def, Option.some.injEq, Prod.exists] at h
    obtain ⟨_, _, hwrite, rfl⟩ := h
    exact (write_keeps hwrite).2.trans (alloc_refcount (toSize sz))

end Unshared

/-! ## Each operation -/

@[simp] theorem holders_duplicate : holders (h.duplicate block) = holders h :=
  holders_congr (by simp)

@[simp] theorem holders_free : holders (h.free block) = holders h := holders_congr (by simp)

@[simp] theorem get_duplicate : (h.duplicate block).get x = h.get x := get_congr (by simp)

@[simp] theorem get_free : (h.free block).get x = h.get x := get_congr (by simp)

/-- Once `x` is assigned, `y` has what it was assigned from, also when they are the same. -/
theorem get_assigned {this : Object} (hthis : h.get x = some this) (hrhs : h.get y = some rhs) :
    (h.setObject x (some rhs)).get y = some rhs := by
  by_cases hyx : y = x
  · rw [hyx]
    exact get_setObject hthis (some rhs)
  · rw [get_setObject_ne hyx, hrhs]

/-- Fewer than 2^31 objects share a block. -/
def Few (h : Heap) : Prop := ∀ b, holders h b < 2147483648

theorem Few.last (hfew : Few h) (hn : ∀ b, n b ≤ holders h b + 1) (b : BlockId)
    (hone : toInt (n b) = 1) : n b = 1 := by
  have := hfew b
  have := hn b
  exact last_of_le (by omega) hone

theorem objects_assign (h : Heap) (x : ObjectId) (rhs : Object) (block : Option BlockId) :
    (((h.duplicate rhs.block).free block).setObject x (some rhs)).objects =
      (h.setObject x (some rhs)).objects := by
  simp [Heap.setObject]

theorem Accounted.assign (ha : Accounted h) (hfew : Few h) {this : Object}
    (hthis : h.get x = some this) (hrhs : h.get y = some rhs) :
    Accounted (((h.duplicate rhs.block).free this.block).setObject x (some rhs)) := by
  have hdup := Counted.duplicate ha (holds hrhs)
  have hholders := holders_setObject hthis (some rhs)
  have hassigned := hdup.free hholders fun b _ => hfew.last (plus_le _ _) b
  rw [Accounted, holders_congr (objects_assign h x rhs this.block)]
  exact hassigned.setObject x (some rhs)

theorem Accounted.copyConstruct (ha : Accounted h) (hrhs : h.get y = some rhs) :
    Accounted ((h.duplicate rhs.block).addObject rhs) := by
  rw [Accounted, holders_addObject, holders_duplicate]
  exact (Counted.duplicate ha (holds hrhs)).addObject rhs

theorem Accounted.moveConstruct (ha : Accounted h) (hrhs : h.get y = some rhs) :
    Accounted ((h.setObject y (some .null)).addObject rhs) := by
  have hmoved := holders_setObject hrhs (some .null)
  rw [blockOf_null, plus_none] at hmoved
  rw [Accounted, holders_addObject, hmoved]
  exact (Counted.setObject ha y _).addObject rhs

theorem Accounted.moveAssign (ha : Accounted h) (hfew : Few h) {this : Object}
    (hthis : h.get x = some this) (hrhs : h.get y = some rhs) :
    Accounted (((((h.duplicate rhs.block).free this.block).setObject x (some rhs)).free
      rhs.block).setObject y (some .null)) := by
  have hassigned := ha.assign hfew hthis hrhs
  have hassign := objects_assign h x rhs this.block
  generalize ((h.duplicate rhs.block).free this.block).setObject x (some rhs) = h₁
    at hassigned hassign ⊢
  have hy : (h₁.free rhs.block).get y = some rhs := by
    rw [get_free, get_congr hassign, get_assigned hthis hrhs]
  have hnull := holders_setObject hy (some .null)
  rw [blockOf_null, plus_none, holders_free] at hnull
  refine (Counted.free hassigned hnull fun b _ => hfew.last (fun c => ?_) b).setObject y _
  -- While both objects have the block there is at most one more than before.
  have hmore := congrFun (holders_setObject hthis (some rhs)) c
  rw [holders_congr hassign]
  calc holders (h.setObject x (some rhs)) c
      ≤ plus (holders (h.setObject x (some rhs))) this.block c := Nat.le_add_right _ _
    _ = plus (holders h) rhs.block c := hmore
    _ ≤ holders h c + 1 := plus_le _ _ c

theorem Accounted.swap (ha : Accounted h) {this : Object} (hthis : h.get x = some this)
    (hrhs : h.get y = some rhs) :
    Accounted ((h.setObject x (some rhs)).setObject y (some this)) := by
  have hfirst : plus (holders (h.setObject x (some rhs))) this.block =
      plus (holders h) rhs.block := holders_setObject hthis (some rhs)
  have hsecond := holders_setObject (get_assigned hthis hrhs) (some this)
  rw [blockOf_some, hfirst] at hsecond
  rw [Accounted, plus_cancel hsecond]
  exact (Counted.setObject ha x _).setObject y _

theorem Accounted.destroy (ha : Accounted h) (hfew : Few h) {this : Object}
    (hthis : h.get x = some this) : Accounted ((h.free this.block).setObject x none) := by
  have hthis' : (h.free this.block).get x = some this := by rw [get_free, hthis]
  have hgone := holders_setObject hthis' none
  rw [blockOf_none, plus_none, holders_free] at hgone
  have hlast := hfew.last fun b => Nat.le_succ (holders h b)
  exact (Counted.free ha hgone fun b _ => hlast b).setObject x none

theorem Accounted.exec (ha : Accounted h) (hfew : Few h) {op : Op} (hen : Enabled h op) :
    Accounted (exec h op) := by
  have hlast := hfew.last fun b => Nat.le_succ (holders h b)
  cases op with
  | construct => exact ha.construct unshared_empty
  | ofSize sz => exact ha.construct (unshared_ofSize sz)
  | ofBytes buf len =>
    exact ha.constructFrom (fun nb hnb => unshared_of_refcount (refcount_ofBytes hnb)) len
  | copyConstruct y =>
    obtain ⟨rhs, hrhs⟩ := Option.isSome_iff_exists.mp hen
    simp only [BufferHeap.exec, withObject_eq hrhs]
    exact ha.copyConstruct hrhs
  | moveConstruct y =>
    obtain ⟨rhs, hrhs⟩ := Option.isSome_iff_exists.mp hen
    simp only [BufferHeap.exec, withObject_eq hrhs]
    exact ha.moveConstruct hrhs
  | copyAssign x y =>
    obtain ⟨this, hthis⟩ := Option.isSome_iff_exists.mp hen.1
    obtain ⟨rhs, hrhs⟩ := Option.isSome_iff_exists.mp hen.2
    simp only [BufferHeap.exec, withObject_eq hthis, withObject_eq hrhs]
    exact ha.assign hfew hthis hrhs
  | moveAssign x y =>
    obtain ⟨this, hthis⟩ := Option.isSome_iff_exists.mp hen.1
    obtain ⟨rhs, hrhs⟩ := Option.isSome_iff_exists.mp hen.2
    simp only [BufferHeap.exec, withObject_eq hthis, withObject_eq hrhs]
    exact ha.moveAssign hfew hthis hrhs
  | swap x y =>
    obtain ⟨this, hthis⟩ := Option.isSome_iff_exists.mp hen.1
    obtain ⟨rhs, hrhs⟩ := Option.isSome_iff_exists.mp hen.2
    simp only [BufferHeap.exec, withObject_eq hthis, withObject_eq hrhs]
    exact ha.swap hthis hrhs
  | destroy x =>
    obtain ⟨this, hthis⟩ := Option.isSome_iff_exists.mp hen
    simp only [BufferHeap.exec, withObject_eq hthis]
    exact ha.destroy hfew hthis
  | wrPtr x move | rdPtr x move | clear x =>
    obtain ⟨o, ho⟩ := Option.isSome_iff_exists.mp hen
    simp only [BufferHeap.exec, withObject_eq ho]
    exact ha.update ho fun nb hnb => by rw [← Option.some.inj hnb]; rfl
  | read x sz =>
    obtain ⟨o, ho, -⟩ := hen
    simp only [BufferHeap.exec, withObject_eq ho]
    refine ha.update ho fun nb hnb => ?_
    obtain ⟨⟨bs, b⟩, hread, rfl⟩ := Option.map_eq_some_iff.mp hnb
    exact (read_keeps hread).2.1
  | peak x sz =>
    obtain ⟨o, ho, -⟩ := hen
    simp only [BufferHeap.exec, withObject_eq ho]
    refine ha.update ho fun nb hnb => ?_
    obtain ⟨_, -, rfl⟩ := Option.map_eq_some_iff.mp hnb
    rfl
  | write x src sz =>
    obtain ⟨⟨o, ho, -⟩, -⟩ := hen
    simp only [BufferHeap.exec, withObject_eq ho]
    refine ha.update ho fun nb hnb => ?_
    obtain ⟨⟨n, b⟩, hwrite, rfl⟩ := Option.map_eq_some_iff.mp hnb
    exact (write_keeps hwrite).2
  | fit x =>
    obtain ⟨o, ho, -⟩ := hen
    simp only [BufferHeap.exec, withObject_eq ho]
    exact ha.update ho fun nb hnb => (fit_keeps hnb).2
  | shrinkToFit x =>
    obtain ⟨o, ho, -⟩ := hen
    simp only [BufferHeap.exec, withObject_eq ho]
    refine ha.replace ho (fun nb hnb => ?_) (fun b _ => hlast b) _
    obtain ⟨⟨n, b⟩, hshrink, rfl⟩ := Option.map_eq_some_iff.mp hnb
    exact unshared_of_refcount (refcount_shrinkToFit hshrink)
  | reserve x sz =>
    obtain ⟨o, ho⟩ := Option.isSome_iff_exists.mp hen
    simp only [BufferHeap.exec, withObject_eq ho, Heap.reserve]
    split_ifs with hkeeps
    · exact ha.touch ho
    · exact ha.replace ho (fun nb hnb => unshared_of_refcount (refcount_reserve hkeeps hnb))
        (fun b _ => hlast b) _
  | subBuffer y start len =>
    obtain ⟨o, ho, -⟩ := hen
    simp only [BufferHeap.exec, withObject_eq ho]
    exact (ha.touch ho).constructFrom
      (fun nb hnb => unshared_of_refcount (refcount_subBuffer hnb)) len
  | copy y =>
    obtain ⟨o, ho⟩ := Option.isSome_iff_exists.mp hen
    simp only [BufferHeap.exec, withObject_eq ho]
    exact (ha.touch ho).constructFrom (fun nb hnb => unshared_copy hnb) _

/-! ## Every run -/

theorem accounted_initial : Accounted initial :=
  ⟨nofun, nofun, fun _ _ => ⟨rfl, rfl⟩, rfl⟩

/-- The count of a block that is in use is the number of the objects that hold it, a block is
released when there are none, and nothing touches it afterwards. -/
structure CountsMatch (h : Heap) : Prop where
  refcount : ∀ b < h.made, h.released b = false → (h.blocks b).refcount = holders h b
  released : ∀ b < h.made, h.released b = true ↔ holders h b = 0
  held : ∀ x o, h.get x = some o → ∀ b ∈ o.block, b < h.made ∧ h.released b = false
  fresh : h.stale = false

theorem accounted_execution
    (h : machine.Execution (fun h op => Few (exec h op)) initial h') : Accounted h' ∧ Few h' := by
  have hstart : Few initial := fun b => by simp [holders, initial]
  refine h.invariant (I := fun h => Accounted h ∧ Few h) ⟨accounted_initial, hstart⟩
    fun u op _ ha hen hfew => ?_
  exact ⟨ha.1.exec ha.2 hen, hfew⟩

theorem counts_match (h : machine.Execution (fun h op => Few (exec h op)) initial h') :
    CountsMatch h' := by
  obtain ⟨ha, hfew⟩ := accounted_execution h
  refine ⟨fun b hmade _ => ?_, ha.released, fun x o ho b hb => ha.live (holds ho b hb), ha.fresh⟩
  have hlt := hfew b
  rw [ha.refcount b hmade, toInt_of_range (by omega) (by omega)]

/-- Assignments of a buffer to itself and of buffers that share a block. -/
def aliasing : List Op :=
  [.ofSize 8, .duplicate 0, .copyAssign 0 0, .moveAssign 1 0, .moveAssign 1 1, .copyConstruct 0,
    .ofBytes [1, 2, 3] 3, .copyAssign 0 3, .moveConstruct 3, .subBuffer 0 1 2, .swap 0 5,
    .reserve 4 2, .shrinkToFit 5, .copy 5, .destroy 0]

theorem counts_match_aliasing : CountsMatch (machine.runTrace initial aliasing) := by
  have hvalid : machine.ValidTrace (fun h op => (exec h op).objects.length < 2147483648) initial
      aliasing := by decide +kernel
  exact counts_match
    (hvalid.execution.mono fun h op hlt b => Nat.lt_of_le_of_lt (holders_le _ b) hlt)

/-- A buffer and `n` more that share its block. -/
def copies (n : Nat) : List Op := .ofSize 1 :: List.replicate n (.copyConstruct 0)

structure SharedBy (n : Nat) (h : Heap) : Prop where
  accounted : Accounted h
  made : h.made = 1
  first : h.get 0 = some ⟨some 0, ⟨0, 0⟩⟩
  holders : holders h 0 = n

theorem get_addObject (hget : h.get x = some o) (o' : Object) :
    (h.addObject o').get x = some o := SupportHolders.join_append hget [some o']

theorem SharedBy.copy {n : Nat} (hs : SharedBy n h) :
    SharedBy (n + 1) (BufferHeap.exec h (.copyConstruct 0)) := by
  have hexec : BufferHeap.exec h (.copyConstruct 0) =
      (h.duplicate (some 0)).addObject ⟨some 0, ⟨0, 0⟩⟩ := withObject_eq hs.first _
  rw [hexec]
  refine ⟨hs.accounted.copyConstruct hs.first, ?_, ?_, ?_⟩
  · exact (Heap.duplicate_made h (some 0)).trans hs.made
  · exact get_addObject (get_duplicate.trans hs.first) _
  · rw [holders_addObject, holders_duplicate, plus_self, hs.holders]

theorem SharedBy.copies {n : Nat} (m : Nat) (hs : SharedBy n h) :
    machine.ValidTrace (fun _ _ => True) h (List.replicate m (.copyConstruct 0)) ∧
      SharedBy (n + m) (machine.runTrace h (List.replicate m (.copyConstruct 0))) := by
  induction m generalizing n h with
  | zero => exact ⟨trivial, hs⟩
  | succ m ih =>
    obtain ⟨hvalid, hlast⟩ := ih hs.copy
    rw [List.replicate_succ, show n + (m + 1) = n + 1 + m by omega]
    refine ⟨⟨?_, trivial, hvalid⟩, hlast⟩
    show (h.get 0).isSome = true
    rw [hs.first, Option.isSome_some]

theorem copies_spec (n : Nat) :
    machine.ValidTrace (fun _ _ => True) initial (copies n) ∧
      SharedBy (1 + n) (machine.runTrace initial (copies n)) := by
  have hfirst : SharedBy 1 (exec initial (.ofSize 1)) :=
    ⟨accounted_initial.construct (unshared_ofSize 1), rfl, rfl, rfl⟩
  obtain ⟨hvalid, hlast⟩ := hfirst.copies n
  exact ⟨⟨trivial, trivial, hvalid⟩, hlast⟩

theorem SharedBy.not_countsMatch {n : Nat} (hs : SharedBy n h) (hn : 2147483648 ≤ n) :
    ¬ CountsMatch h := by
  intro hmatch
  have hpos : 0 < BufferReferences.holders h 0 := by
    rw [hs.holders]
    omega
  obtain ⟨hmade, hreleased⟩ := hs.accounted.live hpos
  have hcount := hmatch.refcount 0 hmade hreleased
  have hrange := toInt_range (BufferReferences.holders h 0)
  rw [hs.accounted.refcount 0 hmade, hs.holders] at hcount
  rw [hs.holders] at hrange
  omega

/-- With 2^31 objects the count is negative. -/
theorem counts_wrap :
    machine.ValidTrace (fun _ _ => True) initial (copies 2147483647) ∧
      ¬ CountsMatch (machine.runTrace initial (copies 2147483647)) := by
  obtain ⟨hvalid, hlast⟩ := copies_spec 2147483647
  exact ⟨hvalid, hlast.not_countsMatch (Nat.le_refl 2147483648)⟩

end BufferReferences
