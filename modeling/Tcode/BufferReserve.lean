import Tcode.BufferPositions
import Tcode.BufferReferences

/-! # reserve

`reserve` on a buffer that may share its block. It looks at the count and the capacity and not at
the amount of data, of which a smaller new block takes only the front.
-/
namespace BufferReserve

open SupportMachineInt SupportTransitionSystem BufferBlock BufferByteBuffer BufferHeap
open BufferByteBuffer.ByteBuffer BufferPositions BufferReferences

variable {h h' : Heap} {x y : ObjectId} {o p : Object} {b : BlockId} {k : Block} {pos : Position}
  {sz : Int}

/-! ## A heap in which an object got a block of its own -/

theorem free_bytes (h : Heap) (block : Option BlockId) (b : BlockId) :
    ((h.free block).blocks b).bytes = (h.blocks b).bytes := by
  cases block with
  | none => rfl
  | some c =>
    by_cases hb : b = c
    · rw [hb]
      show (Function.update h.blocks c _ c).bytes = _
      rw [Function.update_self]
    · exact congrArg Block.bytes (Function.update_of_ne hb ..)

theorem free_blocks_ne {block : Option BlockId} (hb : block ≠ some b) :
    (h.free block).blocks b = h.blocks b := by
  cases block with
  | none => rfl
  | some c => exact Function.update_of_ne (fun hbc => hb (by rw [hbc])) ..

theorem moved_block (ho : ∀ b ∈ o.block, b < h.made) : (moved h x o k pos).blocks h.made = k := by
  have hne : o.block ≠ some h.made := fun hb => Nat.lt_irrefl _ (ho _ hb)
  exact (free_blocks_ne hne).trans (Heap.touch_newBlock_self h o.block k)

theorem moved_bytes (hb : b < h.made) :
    ((moved h x o k pos).blocks b).bytes = (h.blocks b).bytes := by
  have hnew := Heap.touch_newBlock_of_lt h o.block k hb
  exact (free_bytes _ o.block b).trans (congrArg Block.bytes hnew)

theorem view_contents (hbytes : ∀ b ∈ p.block, (h'.blocks b).bytes = (h.blocks b).bytes) :
    (h'.view p).contents = (h.view p).contents := by
  obtain ⟨_ | b, pos⟩ := p
  · rfl
  · simp only [Heap.view, contents, Option.map_some, hbytes b rfl]

theorem moved_released (hb : o.block = some b) (hmade : b < h.made)
    (hone : (h.blocks b).refcount = 1) : (moved h x o k pos).released b = true := by
  have hnew := Heap.touch_newBlock_of_lt h o.block k hmade
  show (((h.touch o.block).newBlock k).free o.block).released b = true
  simp only [hb] at hnew ⊢
  simp [Heap.free, hnew, hone]

theorem exists_holder (hpos : 0 < holders h b) : ∃ y p, h.get y = some p ∧ p.block = some b := by
  obtain ⟨p, hmem, hp⟩ := List.countP_pos_iff.mp hpos
  obtain ⟨p, rfl, hblock⟩ := Option.bind_eq_some_iff.mp (of_decide_eq_true hp)
  obtain ⟨y, hy⟩ := List.mem_iff_getElem?.mp hmem
  exact ⟨y, p, Option.join_eq_some_iff.mpr hy, hblock⟩

/-! ## reserve -/

/-- The sole owner of a block with room, which `reserve` leaves as it is. -/
def Roomy (b : ByteBuffer) (sz : Int) : Prop := b.refcount = 1 ∧ sz < toInt b.capacity

/-- A count of one means that nobody else has the block. -/
def LastOwner (h : Heap) (o : Object) : Prop :=
  ∀ b ∈ o.block, (h.blocks b).refcount = 1 → holders h b = 1

theorem lastOwner_of_few (ha : Accounted h) (hfew : Few h) (hget : h.get x = some o) :
    LastOwner h o := fun b hb hone =>
  hfew.last (fun c => Nat.le_succ (holders h c)) b
    ((ha.refcount b (ha.live (holds hget b hb)).1).symm.trans hone)

/-- The reserved object has its data in a block of its own that is large enough, and all others
have theirs and a block that counts them. -/
structure Reserved (h h' : Heap) (x : ObjectId) (o : Object) (sz : Int) : Prop where
  own : ∃ o', h'.get x = some o' ∧ (h'.view o').contents = (h.view o).contents ∧
    sz ≤ (h'.view o').capacity ∧
    ∃ b ∈ o'.block, holders h' b = 1 ∧ (h'.blocks b).refcount = 1 ∧ h'.released b = false
  others : ∀ y ≠ x, ∀ p, h.get y = some p → h'.get y = some p ∧
    (h'.view p).contents = (h.view p).contents ∧
    ∀ b ∈ p.block, (h'.blocks b).refcount = toInt (holders h' b) ∧ h'.released b = false

theorem exec_roomy (hget : h.get x = some o) (hroom : Roomy (h.view o) sz) :
    exec h (.reserve x sz) = h.touch o.block :=
  (withObject_eq hget _).trans (if_pos hroom)

theorem exec_moved (hget : h.get x = some o) (hroom : ¬ Roomy (h.view o) sz)
    (hb : (h.view o).reserve sz = some ⟨some k, pos⟩) :
    exec h (.reserve x sz) = moved h x o k pos := by
  have hreplace : h.reserve x o sz = h.replace x o ((h.view o).reserve sz) (toSize sz) :=
    if_neg hroom
  have hexec : exec h (.reserve x sz) = h.reserve x o sz := withObject_eq hget _
  rw [hexec, hreplace, hb]
  rfl

/-- Nothing is done where there is room. -/
theorem reserved_roomy (ha : Accounted h) (hget : h.get x = some o) (hroom : Roomy (h.view o) sz) :
    Reserved h (h.touch o.block) x o sz ↔ LastOwner h o := by
  obtain ⟨b, hb⟩ : ∃ b, o.block = some b := by
    refine Option.ne_none_iff_exists'.mp fun hnone => ?_
    have hone := hroom.1
    rw [Heap.view, refcount, hnone, Option.map_none, Option.elim_none] at hone
    exact absurd hone (by decide)
  have hone : (h.blocks b).refcount = 1 := by
    simpa only [Heap.view, refcount, hb, Option.map_some, Option.elim_some] using hroom.1
  have hview (p : Object) : (h.touch o.block).view p = h.view p := by
    rw [Heap.view, Heap.touch_blocks, Heap.view]
  constructor
  · intro hr c hc _
    obtain ⟨o', hget', -, -, d, hd, hlast, -⟩ := hr.own
    obtain rfl := Option.some.inj ((get_touch.trans hget).symm.trans hget')
    rw [holders_touch] at hlast
    rwa [Option.some.inj (hc.symm.trans hd)]
  · intro hlast
    refine ⟨⟨o, get_touch.trans hget, ?_, ?_, b, hb, ?_, ?_, ?_⟩, fun y _ p hp => ?_⟩
    · rw [hview]
    · rw [hview]
      have := hroom.2
      unfold toInt at this
      omega
    · rw [holders_touch]
      exact hlast b hb hone
    · rwa [Heap.touch_blocks]
    · rw [Heap.touch_released]
      exact (ha.live (holds hget b hb)).2
    · refine ⟨get_touch.trans hp, congrArg contents (hview p), fun c hc => ?_⟩
      obtain ⟨hmade, hreleased⟩ := ha.live (holds hp c hc)
      rw [Heap.touch_blocks, Heap.touch_released, holders_touch]
      exact ⟨ha.refcount c hmade, hreleased⟩

theorem LastOwner.counted (hl : LastOwner h o) (ha : Accounted h) (hget : h.get x = some o) :
    ∀ b ∈ o.block, toInt (holders h b) = 1 → holders h b = 1 := by
  intro b hb hone
  exact hl b hb ((ha.refcount b (ha.live (holds hget b hb)).1).trans hone)

theorem moved_view (ha : Accounted h) (hget : h.get x = some o) :
    (moved h x o k pos).view ⟨some h.made, pos⟩ = ⟨some k, pos⟩ := by
  have hblock : (moved h x o k pos).blocks h.made = k :=
    moved_block fun b hb => (ha.live (holds hget b hb)).1
  rw [Heap.view, Option.map_some, hblock]

/-- Where the count of a shared block has wrapped to one, the block is released. -/
theorem lastOwner_of_others (ha : Accounted h) (hget : h.get x = some o) (k : Block)
    (pos : Position)
    (hlive : ∀ y ≠ x, ∀ p, h.get y = some p →
      ∀ b ∈ p.block, (moved h x o k pos).released b = false) : LastOwner h o := by
  intro b hb hone
  by_contra hmore
  obtain ⟨hmade, -⟩ := ha.live (holds hget b hb)
  have hpos := holds hget b hb
  have hholders := congrFun (moved_holders hget k pos) b
  rw [plus_other (Nat.ne_of_lt hmade), Option.mem_def.mp hb, plus_self] at hholders
  obtain ⟨y, p, hy, hp⟩ := exists_holder (h := moved h x o k pos) (b := b) (by omega)
  have hyx : y ≠ x := by
    rintro rfl
    obtain rfl := Option.some.inj ((moved_get hget).symm.trans hy)
    exact Nat.lt_irrefl _ (Option.some.inj hp ▸ hmade)
  rw [moved_get_ne hyx] at hy
  have hlive := hlive y hyx p hy b hp
  rw [moved_released hb hmade hone] at hlive
  exact absurd hlive (by decide)

theorem reserved_moved (ha : Accounted h) (hget : h.get x = some o) (hk : k.refcount = 1)
    (hcap : sz ≤ k.capacity) :
    Reserved h (moved h x o k pos) x o sz ↔
      LastOwner h o ∧ contents ⟨some k, pos⟩ = (h.view o).contents := by
  have hview : (moved h x o k pos).view ⟨some h.made, pos⟩ = ⟨some k, pos⟩ := moved_view ha hget
  have hown : (moved h x o k pos).get x = some ⟨some h.made, pos⟩ := moved_get hget
  constructor
  · intro hr
    refine ⟨lastOwner_of_others ha hget k pos fun y hyx p hp b hb => ?_, ?_⟩
    · exact ((hr.others y hyx p hp).2.2 b hb).2
    · obtain ⟨o', hget', hcontents, -⟩ := hr.own
      obtain rfl := Option.some.inj (hown.symm.trans hget')
      rw [← hview, hcontents]
  · rintro ⟨hlast, hcontents⟩
    have ha' : Accounted (moved h x o k pos) := ha.moved hget hk pos (hlast.counted ha hget)
    refine ⟨⟨_, hown, ?_, ?_, h.made, rfl, ?_, ?_, ?_⟩, fun y hyx p hp => ?_⟩
    · rw [hview, hcontents]
    · rwa [hview, capacity_mk]
    · have hholders := congrFun (moved_holders hget k pos) h.made
      have hnew := (ha.unborn h.made (Nat.le_refl _)).2
      rw [plus_self, hnew] at hholders
      have hne : o.block ≠ some h.made := fun hb =>
        Nat.lt_irrefl _ (ha.live (holds hget h.made hb)).1
      simpa [plus, hne] using hholders
    · rw [moved_block fun b hb => (ha.live (holds hget b hb)).1, hk]
    · exact (Counted.live ha' (holds hown h.made rfl)).2
    · have hp' : (moved h x o k pos).get y = some p := (moved_get_ne hyx).trans hp
      refine ⟨hp', view_contents fun b hb => moved_bytes (ha.live (holds hp b hb)).1,
        fun b hb => ?_⟩
      obtain ⟨hmade, hreleased⟩ := Counted.live ha' (holds hp' b hb)
      exact ⟨ha'.refcount b hmade, hreleased⟩

/-- Data are lost where a new block is too small for them. -/
theorem reserve_iff (hs : Sound 18446744073709551616 h) (ha : Accounted h)
    (hget : h.get x = some o) (hsz : 0 ≤ sz) (hint : sz < 2147483648) :
    Reserved h (exec h (.reserve x sz)) x o sz ↔ LastOwner h o ∧
      (Roomy (h.view o) sz ∨ (h.view o).length ≤ (alloc sz.toNat).capacity) := by
  by_cases hroom : Roomy (h.view o) sz
  · rw [exec_roomy hget hroom, reserved_roomy ha hget hroom]
    exact ⟨fun hl => ⟨hl, .inl hroom⟩, And.left⟩
  · have horder := hs.inOrder (hs.placed_get hget) (by decide)
    obtain ⟨⟨_ | k, pos⟩, hb, hvalid, hone, -, hcap, hcontents⟩ :=
      horder.reserve_spec (Nat.le_refl _) hsz hint hroom
    · exact absurd hvalid.has_block Bool.false_ne_true
    · have hge := alloc_capacity_ge sz.toNat
      have hkcap : k.capacity = (alloc sz.toNat).capacity := hcap
      have hfits : (h.view o).contents.take (alloc sz.toNat).capacity = (h.view o).contents ↔
          (h.view o).length ≤ (alloc sz.toNat).capacity := by
        rw [← horder.contents_length (Nat.le_refl _)]
        refine ⟨fun htake => ?_, List.take_of_length_le⟩
        rw [← htake, List.length_take]
        exact Nat.min_le_left ..
      rw [exec_moved hget hroom hb, reserved_moved ha hget hone (by omega), hcontents, hfits]
      simp only [hroom, false_or]

/-- A buffer of five bytes that shares its block, and what is left of them after `reserve`. -/
def sharedBytes : List Op := [.ofBytes [1, 2, 3, 4, 5] 5, .duplicate 0]

theorem sharedBytes_get :
    (machine.runTrace initial sharedBytes).get 1 = some ⟨some 0, ⟨0, 5⟩⟩ := by decide +kernel

theorem reserve_truncates :
    machine.ValidTrace (fun _ _ => True) initial (sharedBytes ++ [.reserve 1 2]) ∧
      (machine.runTrace initial sharedBytes).get 1 = some ⟨some 0, ⟨0, 5⟩⟩ ∧
      ¬ Reserved (machine.runTrace initial sharedBytes)
        (exec (machine.runTrace initial sharedBytes) (.reserve 1 2)) 1 ⟨some 0, ⟨0, 5⟩⟩ 2 := by
  refine ⟨by decide +kernel, sharedBytes_get, fun hr => ?_⟩
  have htaken : (exec (machine.runTrace initial sharedBytes) (.reserve 1 2)).get 1 =
      some ⟨some 1, ⟨0, 4⟩⟩ := by decide +kernel
  obtain ⟨o', hget, hcontents, -⟩ := hr.own
  obtain rfl := Option.some.inj (htaken.symm.trans hget)
  exact absurd hcontents (by decide +kernel)

theorem reserve_iff_shared :
    Reserved (machine.runTrace initial sharedBytes)
        (exec (machine.runTrace initial sharedBytes) (.reserve 1 6)) 1 ⟨some 0, ⟨0, 5⟩⟩ 6 := by
  have hlisted : machine.ValidTrace (fun _ op => Listed op) initial sharedBytes := by
    decide +kernel
  have hshort : machine.ValidTrace (fun h op => (exec h op).objects.length < 2147483648) initial
      sharedBytes := by decide +kernel
  have hs := sound_execution hlisted.execution
  have ha := accounted_execution
    (hshort.execution.mono fun h op hlt b => Nat.lt_of_le_of_lt (holders_le _ b) hlt)
  have hlast := lastOwner_of_few ha.1 ha.2 sharedBytes_get
  exact (reserve_iff (hs.mono (by decide)) ha.1 sharedBytes_get (by decide) (by decide)).mpr
    ⟨hlast, .inr (by decide +kernel)⟩

end BufferReserve
