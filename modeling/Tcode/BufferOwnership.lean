import Mathlib.Data.Set.Defs
import Tcode.BufferReserve

/-! # Blocks that one object has for itself

Whatever is done with the other objects, the blocks stay as they are, and nobody else comes to
refer to them.
-/
namespace BufferOwnership

open BufferBlock BufferByteBuffer BufferHeap BufferReferences BufferReserve
open BufferByteBuffer.ByteBuffer

variable {h h' h'' : Heap} {x y : ObjectId} {o p : Object} {b : BlockId} {B : Set BlockId}
  {k : Block} {block : Option BlockId}

/-- The operations on this object, and those that take its block. -/
def Mentions (x : ObjectId) : Op → Prop
  | .construct | .ofSize _ | .ofBytes _ _ => False
  | .copyConstruct y | .moveConstruct y | .destroy y | .wrPtr y _ | .rdPtr y _ | .read y _
  | .peak y _ | .write y _ _ | .fit y | .shrinkToFit y | .clear y | .reserve y _
  | .subBuffer y _ _ | .copy y => y = x
  | .copyAssign y z | .moveAssign y z | .swap y z => y = x ∨ z = x

instance (x : ObjectId) : ∀ op : Op, Decidable (Mentions x op)
  | .construct | .ofSize _ | .ofBytes _ _ => isFalse id
  | .copyConstruct _ | .moveConstruct _ | .destroy _ | .wrPtr _ _ | .rdPtr _ _ | .read _ _
  | .peak _ _ | .write _ _ _ | .fit _ | .shrinkToFit _ | .clear _ | .reserve _ _
  | .subBuffer _ _ _ | .copy _ => inferInstanceAs (Decidable (_ = _))
  | .copyAssign _ _ | .moveAssign _ _ | .swap _ _ => inferInstanceAs (Decidable (_ ∨ _))

/-- The block, if there is one, is none of these. -/
def Apart (block : Option BlockId) (B : Set BlockId) : Prop := ∀ b ∈ block, b ∉ B

/-- No object but `x`, which is `o`, refers to these blocks. -/
structure Sole (h : Heap) (x : ObjectId) (o : Object) (B : Set BlockId) : Prop where
  made : ∀ b ∈ B, b < h.made
  own : h.get x = some o
  others : ∀ y, y ≠ x → ∀ p, h.get y = some p → Apart p.block B

/-- The object and the blocks stay as they are. -/
structure Spares (h h' : Heap) (x : ObjectId) (o : Object) (B : Set BlockId) : Prop where
  sole : Sole h' x o B
  block : ∀ b ∈ B, h'.blocks b = h.blocks b
  released : ∀ b ∈ B, h'.released b = h.released b

theorem Sole.refl (hs : Sole h x o B) : Spares h h x o B := ⟨hs, fun _ _ => rfl, fun _ _ => rfl⟩

theorem Spares.trans (hs : Spares h h' x o B) (hs' : Spares h' h'' x o B) : Spares h h'' x o B :=
  ⟨hs'.sole, fun b hb => (hs'.block b hb).trans (hs.block b hb),
    fun b hb => (hs'.released b hb).trans (hs.released b hb)⟩

/-- Where one object holds a block, no other does. -/
theorem sole_of_holders (hmade : b < h.made) (hget : h.get x = some o) (hblock : o.block = some b)
    (hone : holders h b = 1) : Sole h x o {b} := by
  refine ⟨fun c hc => hc ▸ hmade, hget, fun y hy p hp c hpc hc => ?_⟩
  obtain rfl : c = b := hc
  have hgone := congrFun (holders_setObject hget none) c
  rw [hblock, plus_self, blockOf_none, plus_none, hone] at hgone
  have hp' : (h.setObject x none).get y = some p := (get_setObject_ne hy none).trans hp
  have hpos := holders_pos hp' hpc
  omega

/-- An object there is, of whose block nothing is said. -/
theorem sole_empty (hget : h.get x = some o) : Sole h x o ∅ :=
  ⟨fun _ hb => hb.elim, hget, fun _ _ _ _ _ _ hb => hb⟩

theorem Sole.ne_made (hs : Sole h x o B) : Apart (some h.made) B := by
  intro b hb hin
  have hlt := hs.made b hin
  rw [← Option.mem_some.mp hb] at hlt
  exact Nat.lt_irrefl _ hlt

theorem apart_none (B : Set BlockId) : Apart none B := by
  intro b hb
  cases hb

/-! ## The parts of an operation -/

theorem Sole.same (hs : Sole h x o B) (hmade : h.made ≤ h'.made)
    (hobjects : h'.objects = h.objects) : Sole h' x o B := by
  refine ⟨fun b hb => Nat.lt_of_lt_of_le (hs.made b hb) hmade, (get_congr hobjects).trans hs.own,
    fun y hy p hp => ?_⟩
  rw [get_congr hobjects] at hp
  exact hs.others y hy p hp

theorem Sole.touch (hs : Sole h x o B) (block : Option BlockId) :
    Spares h (h.touch block) x o B :=
  ⟨hs.same (Nat.le_of_eq (h.touch_made block).symm) (h.touch_objects block),
    fun b _ => congrFun (h.touch_blocks block) b, fun b _ => congrFun (h.touch_released block) b⟩

theorem Sole.newBlock (hs : Sole h x o B) (k : Block) : Spares h (h.newBlock k) x o B :=
  ⟨hs.same (Nat.le_succ _) rfl, fun b hb => h.newBlock_of_lt k (hs.made b hb), fun _ _ => rfl⟩

theorem Sole.setBlock (hs : Sole h x o B) (hb : b ∉ B) (k : Block) :
    Spares h (h.setBlock b k) x o B := by
  refine ⟨hs.same (Nat.le_refl _) rfl, fun c hc => ?_, fun _ _ => rfl⟩
  have hne : c ≠ b := fun heq => hb (heq ▸ hc)
  exact Function.update_of_ne hne ..

theorem Sole.duplicate (hs : Sole h x o B) (hblock : Apart block B) :
    Spares h (h.duplicate block) x o B := by
  cases block with
  | none => exact hs.refl
  | some c =>
    have htouch := hs.touch (some c)
    exact htouch.trans (htouch.sole.setBlock (hblock c rfl) _)

theorem Sole.free (hs : Sole h x o B) (hblock : Apart block B) :
    Spares h (h.free block) x o B := by
  refine ⟨hs.same (Nat.le_of_eq (h.free_made block).symm) (h.free_objects block),
    fun b hb => free_blocks_ne fun heq => hblock b heq hb, fun b hb => ?_⟩
  cases block with
  | none => rfl
  | some c =>
    have hc : b ≠ c := fun heq => hblock c rfl (heq ▸ hb)
    show (if (h.blocks c).refcount = 1 then Function.update h.released c true else h.released) b =
      h.released b
    split
    · exact Function.update_of_ne hc ..
    · rfl

theorem Sole.setObject (hs : Sole h x o B) (hy : y ≠ x) {p : Option Object}
    (hp : Apart (blockOf p) B) : Spares h (h.setObject y p) x o B := by
  refine ⟨⟨hs.made, (get_setObject_ne (Ne.symm hy) p).trans hs.own, fun z hz q hq => ?_⟩,
    fun _ _ => rfl, fun _ _ => rfl⟩
  by_cases hzy : z = y
  · subst hzy
    have hat : (h.objects.set z p)[z]?.join = some q := hq
    rw [List.getElem?_set, if_pos rfl] at hat
    split at hat
    · obtain rfl : p = some q := hat
      exact hp
    · cases hat
  · rw [get_setObject_ne hzy] at hq
    exact hs.others z hz q hq

theorem Sole.addObject (hs : Sole h x o B) (hp : Apart p.block B) :
    Spares h (h.addObject p) x o B := by
  refine ⟨⟨hs.made, get_addObject hs.own p, fun y hy q hq => ?_⟩, fun _ _ => rfl, fun _ _ => rfl⟩
  have hat : (h.objects ++ [some p])[y]?.join = some q := hq
  rcases Nat.lt_or_ge y h.objects.length with hlt | hge
  · rw [List.getElem?_append_left hlt] at hat
    exact hs.others y hy q hat
  · rw [List.getElem?_append_right hge, Option.join_eq_some_iff,
      List.getElem?_singleton] at hat
    split at hat
    · obtain rfl : p = q := Option.some.inj (Option.some.inj hat)
      exact hp
    · cases hat

/-! ## Operations -/

theorem Sole.construct (hs : Sole h x o B) (nb : ByteBuffer) :
    Spares h (h.construct nb) x o B := by
  obtain ⟨_ | k, pos⟩ := nb
  · exact hs.addObject (apart_none B)
  · have hnew := hs.newBlock k
    exact hnew.trans (hnew.sole.addObject hs.ne_made)

theorem Sole.constructFrom (hs : Sole h x o B) (nb : Option ByteBuffer) (sz : Nat) :
    Spares h (h.constructFrom nb sz) x o B := by
  cases nb with
  | some nb => exact hs.construct nb
  | none =>
    obtain ⟨⟨hmade, hown, hothers⟩, hblock, hreleased⟩ := hs.construct (ofSize sz)
    exact ⟨⟨hmade, hown, hothers⟩, hblock, hreleased⟩

theorem Sole.update (hs : Sole h x o B) (hy : y ≠ x) (hp : Apart p.block B)
    (nb : Option ByteBuffer) : Spares h (h.update y p nb) x o B := by
  have htouch := hs.touch p.block
  cases nb with
  | none =>
    obtain ⟨⟨hmade, hown, hothers⟩, hblock, hreleased⟩ := htouch
    exact ⟨⟨hmade, hown, hothers⟩, hblock, hreleased⟩
  | some nb =>
    have hset := htouch.trans (htouch.sole.setObject hy (p := some { p with pos := nb.pos }) hp)
    obtain ⟨id, pos⟩ := p
    obtain ⟨blk, npos⟩ := nb
    cases id with
    | none => exact hset
    | some id =>
      cases blk with
      | none => exact hset
      | some k => exact hset.trans (hset.sole.setBlock (hp id rfl) k)

theorem Sole.moved (hs : Sole h x o B) (hy : y ≠ x) (hp : Apart p.block B) (k : Block)
    (pos : Position) : Spares h (moved h y p k pos) x o B := by
  have htouch := hs.touch p.block
  have hnew := htouch.trans (htouch.sole.newBlock k)
  have hfree := hnew.trans (hnew.sole.free hp)
  exact hfree.trans (hfree.sole.setObject hy (p := some ⟨some h.made, pos⟩) hs.ne_made)

theorem Sole.replace (hs : Sole h x o B) (hy : y ≠ x) (hp : Apart p.block B)
    (nb : Option ByteBuffer) (sz : Nat) : Spares h (h.replace y p nb sz) x o B := by
  rcases nb with _ | ⟨_ | k, pos⟩
  · obtain ⟨⟨hmade, hown, hothers⟩, hblock, hreleased⟩ := hs.moved hy hp (alloc sz) ⟨0, 0⟩
    exact ⟨⟨hmade, hown, hothers⟩, hblock, hreleased⟩
  · obtain ⟨⟨hmade, hown, hothers⟩, hblock, hreleased⟩ := hs.moved hy hp (alloc sz) ⟨0, 0⟩
    exact ⟨⟨hmade, hown, hothers⟩, hblock, hreleased⟩
  · exact hs.moved hy hp k pos

/-- An operation on an object that there is. -/
theorem Sole.withObject (hs : Sole h x o B) {f : Object → Heap}
    (hf : ∀ p, h.get y = some p → Spares h (f p) x o B) : Spares h (h.withObject y f) x o B := by
  cases hget : h.get y with
  | none =>
    rw [Heap.withObject, hget]
    exact hs.refl
  | some p =>
    rw [withObject_eq hget]
    exact hf p hget

theorem Sole.exec (hs : Sole h x o B) {op : Op} (hop : ¬ Mentions x op) :
    Spares h (exec h op) x o B := by
  have hother {y : ObjectId} (hy : y ≠ x) (p : Object) (hp : h.get y = some p) :
      Apart p.block B := hs.others y hy p hp
  cases op with
  | construct => exact hs.construct .empty
  | ofSize sz => exact hs.construct (.ofSize sz)
  | ofBytes buf len => exact hs.constructFrom _ _
  | copyConstruct y =>
    refine hs.withObject fun p hp => ?_
    have hdup := hs.duplicate (hother hop p hp)
    exact hdup.trans (hdup.sole.addObject (hother hop p hp))
  | moveConstruct y =>
    refine hs.withObject fun p hp => ?_
    have hset := hs.setObject hop (p := some .null) (apart_none B)
    exact hset.trans (hset.sole.addObject (hother hop p hp))
  | copyAssign y z =>
    obtain ⟨hy, hz⟩ := not_or.mp hop
    refine hs.withObject fun this hthis => hs.withObject fun rhs hrhs => ?_
    have hdup := hs.duplicate (hother hz rhs hrhs)
    have hfree := hdup.trans (hdup.sole.free (hother hy this hthis))
    exact hfree.trans (hfree.sole.setObject hy (p := some rhs) (hother hz rhs hrhs))
  | moveAssign y z =>
    obtain ⟨hy, hz⟩ := not_or.mp hop
    refine hs.withObject fun this hthis => hs.withObject fun rhs hrhs => ?_
    have hdup := hs.duplicate (hother hz rhs hrhs)
    have hfree := hdup.trans (hdup.sole.free (hother hy this hthis))
    have hset := hfree.trans (hfree.sole.setObject hy (p := some rhs) (hother hz rhs hrhs))
    have hgone := hset.trans (hset.sole.free (hother hz rhs hrhs))
    exact hgone.trans (hgone.sole.setObject hz (p := some .null) (apart_none B))
  | swap y z =>
    obtain ⟨hy, hz⟩ := not_or.mp hop
    refine hs.withObject fun this hthis => hs.withObject fun rhs hrhs => ?_
    have hset := hs.setObject hy (p := some rhs) (hother hz rhs hrhs)
    exact hset.trans (hset.sole.setObject hz (p := some this) (hother hy this hthis))
  | destroy y =>
    refine hs.withObject fun p hp => ?_
    have hfree := hs.free (hother hop p hp)
    exact hfree.trans (hfree.sole.setObject hop (p := none) (apart_none B))
  | wrPtr y move => exact hs.withObject fun p hp => hs.update hop (hother hop p hp) _
  | rdPtr y move => exact hs.withObject fun p hp => hs.update hop (hother hop p hp) _
  | read y sz => exact hs.withObject fun p hp => hs.update hop (hother hop p hp) _
  | peak y sz => exact hs.withObject fun p hp => hs.update hop (hother hop p hp) _
  | write y src sz => exact hs.withObject fun p hp => hs.update hop (hother hop p hp) _
  | fit y => exact hs.withObject fun p hp => hs.update hop (hother hop p hp) _
  | shrinkToFit y => exact hs.withObject fun p hp => hs.replace hop (hother hop p hp) _ _
  | clear y => exact hs.withObject fun p hp => hs.update hop (hother hop p hp) _
  | reserve y sz =>
    refine hs.withObject fun p hp => ?_
    show Spares h (if _ then _ else _) x o B
    split
    · exact hs.touch _
    · exact hs.replace hop (hother hop p hp) _ _
  | subBuffer y start len =>
    refine hs.withObject fun p hp => ?_
    have htouch := hs.touch p.block
    exact htouch.trans (htouch.sole.constructFrom _ _)
  | copy y =>
    refine hs.withObject fun p hp => ?_
    have htouch := hs.touch p.block
    exact htouch.trans (htouch.sole.constructFrom _ _)

/-- What is stored in such a block is seen through `x` only. -/
theorem Sole.view_setBlock (hs : Sole h x o B) (hb : b ∈ B) (k : Block) (hy : y ≠ x)
    (hp : h.get y = some p) : (h.setBlock b k).view p = h.view p := by
  have hapart := hs.others y hy p hp
  obtain ⟨_ | c, pos⟩ := p
  · rfl
  · have hc : c ≠ b := fun heq => hapart c rfl (heq ▸ hb)
    show (⟨some (Function.update h.blocks b k c), pos⟩ : ByteBuffer) = ⟨some (h.blocks c), pos⟩
    rw [Function.update_of_ne hc]

end BufferOwnership
