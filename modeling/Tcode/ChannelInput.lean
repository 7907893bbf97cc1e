import Tcode.BufferOwnership

/-! # What a channel reads

A channel has at most one read on its way, into the space of `_buffer`. What has arrived is handed
to the pipeline, whose filters may keep copies of the buffer, and then the buffer is cleared and
read into again. Other threads, and the filters, may do with other buffers what they want.
`received`, `fired` and `fault` are bookkeeping.
-/
namespace ChannelInput

open SupportMachineInt SupportTransitionSystem BufferBlock BufferByteBuffer BufferHeap
open BufferPositions BufferReferences BufferReserve BufferOwnership
open BufferByteBuffer.ByteBuffer

/-- `_buffer`. -/
def buffer : ObjectId := 0

/-- A read that is on its way has a part of a block to fill. -/
inductive Phase where
  | unopened
  | reading (b : BlockId) (offset len : Nat)
  | firing
  | stopped
  | deleted
  deriving DecidableEq, Repr

/-- `fired` are the buffers that the pipeline got. -/
structure State where
  heap : Heap
  phase : Phase
  closeFlag : Bool
  received : List UInt8
  fired : List ByteBuffer
  fault : Bool

def initial : State where
  heap := BufferHeap.exec BufferHeap.initial .construct
  phase := .unopened
  closeFlag := true
  received := []
  fired := []
  fault := false

/-! ## The channel -/

/-- `read`; `wr_ptr()` needs a block. -/
def read (s : State) : State :=
  if s.closeFlag then
    let heap := BufferHeap.exec s.heap (.reserve buffer 4096)
    match heap.get buffer with
    | some ⟨some b, pos⟩ =>
      let len := toSize (toInt (heap.view ⟨some b, pos⟩).space)
      { s with heap, phase := .reading b pos.write len }
    | _ => { s with heap, phase := .stopped, fault := true }
  else { s with phase := .stopped }

/-- `::readv` stores what it has received. -/
def store (h : Heap) (b : BlockId) (offset : Nat) (bs : List UInt8) : Heap :=
  match copyIn (h.blocks b).bytes offset bs bs.length with
  | some bytes => (h.touch (some b)).setBlock b { h.blocks b with bytes }
  | none => { h.touch (some b) with outside := true }

/-- `handle_read` up to the call of the pipeline. -/
def handleRead (s : State) (nbyte : Int) : State :=
  if s.closeFlag then
    let heap := BufferHeap.exec s.heap (.wrPtr buffer nbyte)
    { s with
      heap
      phase := .firing
      fired := s.fired ++ ((heap.get buffer).map heap.view).toList }
  else { s with phase := .stopped }

/-- `handle_read` from there on. -/
def afterRead (s : State) : State :=
  read { s with heap := BufferHeap.exec s.heap (.clear buffer) }

/-! ## Steps -/

/-- A step names the read that ends in it. -/
inductive Event where
  | opens
  | receive (b : BlockId) (offset len : Nat) (bs : List UInt8)
  | fail (b : BlockId) (offset len : Nat)
  | afterRead
  | close
  | delete
  | op (op : Op)
  deriving DecidableEq, Repr

def Enabled (s : State) : Event → Prop
  | .opens => s.phase = .unopened
  | .receive b offset len bs =>
    s.phase = .reading b offset len ∧ 0 < bs.length ∧ bs.length ≤ len
  | .fail b offset len => s.phase = .reading b offset len
  | .afterRead => s.phase = .firing
  | .close => True
  | .delete => s.phase = .stopped
  -- The pipeline gets copies of `_buffer`, and nobody else gets at it.
  | .op op => BufferHeap.Enabled s.heap op ∧
      (¬ Mentions buffer op ∨ s.phase = .firing ∧ op = .copyConstruct buffer)

instance (s : State) : ∀ e : Event, Decidable (Enabled s e)
  | .opens => inferInstanceAs (Decidable (s.phase = .unopened))
  | .receive b offset len bs => inferInstanceAs
      (Decidable (s.phase = .reading b offset len ∧ 0 < bs.length ∧ bs.length ≤ len))
  | .fail b offset len => inferInstanceAs (Decidable (s.phase = .reading b offset len))
  | .afterRead => inferInstanceAs (Decidable (s.phase = .firing))
  | .close => isTrue trivial
  | .delete => inferInstanceAs (Decidable (s.phase = .stopped))
  | .op op => inferInstanceAs (Decidable (BufferHeap.Enabled s.heap op ∧
      (¬ Mentions buffer op ∨ s.phase = .firing ∧ op = .copyConstruct buffer)))

def next (s : State) : Event → State
  | .opens => read s
  | .receive b offset _ bs =>
    handleRead
      { s with heap := store s.heap b offset bs, received := s.received ++ bs } (toInt bs.length)
  -- An error closes the channel, which nobody reads any more.
  | .fail _ _ _ => { s with closeFlag := false, phase := .stopped }
  | .afterRead => afterRead s
  | .close => { s with closeFlag := false }
  | .delete => { s with heap := BufferHeap.exec s.heap (.destroy buffer), phase := .deleted }
  | .op op => { s with heap := BufferHeap.exec s.heap op }

def machine : System State Event := ⟨Enabled, next⟩

instance (s : State) (e : Event) : Decidable (machine.Enabled s e) :=
  inferInstanceAs (Decidable (Enabled s e))

/-- Sizes are below 2^31, and `sub_buffer` takes what is there. -/
def Inside (h : Heap) : Op → Prop
  | .subBuffer y start len => ∃ o ∈ h.get y, start + len ≤ (h.view o).length
  | op => Listed op

/-- No block gets 2^31 owners. -/
def CarefulUse (s : State) : Event → Prop
  | .op op => Inside s.heap op ∧ Few (BufferHeap.exec s.heap op)
  | _ => True

/-! ## Heaps in which nothing has gone wrong -/

structure Kept (h : Heap) : Prop where
  sound : Sound 2147483648 h
  accounted : Accounted h
  few : Few h

variable {h h' h'' : Heap} {x y : ObjectId} {o p : Object} {b : BlockId} {op : Op}

theorem Kept.few_of_holders (hk : Kept h) (hholders : holders h' = holders h) : Few h' := by
  intro b
  rw [hholders]
  exact hk.few b

theorem sound_subBuffer (hs : Sound 2147483648 h) {start len : Nat} (hget : h.get y = some o)
    (hblock : o.block.isSome) (hlen : start + len ≤ (h.view o).length) :
    Sound 2147483648 (BufferHeap.exec h (.subBuffer y start len)) := by
  obtain ⟨hvalid, -⟩ := hs.access hget hblock
  have hlt := hvalid.length_lt
  have hlength := hvalid.length_eq
  obtain ⟨k, hview, hmemory, -, hwrite, -⟩ := hvalid.block
  have hk : (h.view o).block = some k := by rw [hview]
  have hsrc : len ≤ ((k.bytes.drop (h.view o).pos.read).drop start).length := by
    rw [List.length_drop, List.length_drop]
    omega
  obtain ⟨nb, hnb, hnew, -⟩ := ofBytes_spec hsrc (by omega)
  have hsub : (h.view o).subBuffer start len = some nb := by
    rw [List.drop_drop] at hnb
    simp [subBuffer, fromReadPosition, hk, hnb]
  simp only [BufferHeap.exec, withObject_eq hget, hsub]
  exact (hs.touch o.block).construct (inOrder_of_valid hnew)

theorem Kept.exec (hk : Kept h) (hen : BufferHeap.Enabled h op) (hin : Inside h op)
    (hfew : Few (BufferHeap.exec h op)) : Kept (BufferHeap.exec h op) := by
  refine ⟨?_, hk.accounted.exec hk.few hen, hfew⟩
  cases op with
  | subBuffer y start len =>
    obtain ⟨o, hget, hblock⟩ := hen
    obtain ⟨o', hget', hlen⟩ := hin
    obtain rfl : o = o' := Option.some.inj ((Option.mem_def.mp hget).symm.trans hget')
    exact sound_subBuffer hk.sound hget hblock hlen
  | _ => exact hk.sound.exec hen hin

/-! ## What others see -/

/-- All objects but `_buffer`, and what they hold. -/
def Unseen (h h' : Heap) : Prop :=
  ∀ y, y ≠ buffer → ∀ p, h.get y = some p →
    h'.get y = some p ∧ (h'.view p).contents = (h.view p).contents

theorem Unseen.refl (h : Heap) : Unseen h h := fun _ _ _ hp => ⟨hp, rfl⟩

theorem Unseen.trans (hu : Unseen h h') (hu' : Unseen h' h'') : Unseen h h'' := by
  intro y hy p hp
  obtain ⟨hget, hcontents⟩ := hu y hy p hp
  obtain ⟨hget', hcontents'⟩ := hu' y hy p hget
  exact ⟨hget', hcontents'.trans hcontents⟩

/-! ## Positions of `_buffer` -/

/-- An operation that only moves a position. -/
structure Moved (h h' : Heap) (x : ObjectId) (o : Object) : Prop where
  own : h'.get x = some o
  others : ∀ y, y ≠ x → h'.get y = h.get y
  blocks : h'.blocks = h.blocks
  made : h'.made = h.made
  released : h'.released = h.released
  holders : holders h' = holders h

theorem moved_update (hget : h.get x = some o) {nb : ByteBuffer}
    (hblock : nb.block = o.block.map h.blocks) :
    Moved h (h.update x o (some nb)) x { o with pos := nb.pos } := by
  have hget' : (h.touch o.block).get x = some o := get_touch.trans hget
  have hset : Moved h ((h.touch o.block).setObject x (some { o with pos := nb.pos })) x
      { o with pos := nb.pos } := by
    constructor
    · exact get_setObject hget' _
    · exact fun y hy => (get_setObject_ne hy _).trans get_touch
    · exact h.touch_blocks o.block
    · exact h.touch_made o.block
    · exact h.touch_released o.block
    · exact (plus_cancel (holders_setObject hget' (some { o with pos := nb.pos }))).trans
        holders_touch
  obtain ⟨id, pos⟩ := o
  obtain ⟨blk, npos⟩ := nb
  cases id with
  | none => exact hset
  | some id =>
    obtain rfl : blk = some (h.blocks id) := hblock
    obtain ⟨hown, hothers, hblocks, hmade, hreleased, hholders⟩ := hset
    refine ⟨hown, hothers, ?_, hmade, hreleased, hholders⟩
    show Function.update ((h.touch (some id)).setObject x _).blocks id (h.blocks id) = h.blocks
    rw [hblocks]
    exact Function.update_eq_self id h.blocks

theorem Moved.view (hm : Moved h h' x o) (p : Object) : h'.view p = h.view p := by
  rw [Heap.view, hm.blocks, Heap.view]

theorem Moved.unseen (hm : Moved h h' buffer o) : Unseen h h' := by
  intro y hy p hp
  exact ⟨(hm.others y hy).trans hp, by rw [hm.view]⟩

theorem moved_clear (hget : h.get x = some o) :
    Moved h (BufferHeap.exec h (.clear x)) x { o with pos := ⟨0, 0⟩ } := by
  simp only [BufferHeap.exec, withObject_eq hget]
  exact moved_update hget rfl

theorem moved_wrPtr (hget : h.get x = some o) (move : Int) :
    Moved h (BufferHeap.exec h (.wrPtr x move)) x
      { o with pos := ((h.view o).wrPtr move).2.pos } := by
  simp only [BufferHeap.exec, withObject_eq hget]
  exact moved_update hget rfl

theorem isSome_of_get (hget : h.get x = some o) : (h.get x).isSome := by rw [hget]; rfl

theorem Kept.clear (hk : Kept h) (hget : h.get x = some o) :
    Kept (BufferHeap.exec h (.clear x)) :=
  hk.exec (isSome_of_get hget) trivial (hk.few_of_holders (moved_clear hget).holders)

theorem Kept.wrPtr (hk : Kept h) (hget : h.get x = some o) (move : Int) :
    Kept (BufferHeap.exec h (.wrPtr x move)) :=
  hk.exec (isSome_of_get hget) trivial (hk.few_of_holders (moved_wrPtr hget move).holders)

/-! ## A read -/

/-- The buffer is empty, in a block of at least 4096 bytes which nobody else has. -/
structure Fresh (h : Heap) (b : BlockId) : Prop where
  sole : Sole h buffer ⟨some b, ⟨0, 0⟩⟩ {b}
  live : h.released b = false
  room : 4096 ≤ (h.blocks b).capacity

theorem few_moved (hk : Kept h) (hget : h.get x = some o) (k : Block) (pos : Position) :
    Few (moved h x o k pos) := by
  intro c
  have hmoved := congrFun (moved_holders hget k pos) c
  have hnone := (hk.accounted.unborn h.made (Nat.le_refl _)).2
  have hfew := hk.few c
  by_cases hc : c = h.made
  · rw [hc, plus_self, hnone] at hmoved
    unfold plus at hmoved
    rw [hc]
    omega
  · rw [plus_other hc] at hmoved
    unfold plus at hmoved
    omega

theorem position_zero {nb : ByteBuffer} (hv : nb.Valid) (hread : nb.pos.read = 0)
    (hempty : nb.contents = []) : nb.pos = ⟨0, 0⟩ := by
  have hlength := hv.contents_length
  have heq := hv.length_eq
  rw [hempty, List.length_nil] at hlength
  obtain ⟨blk, read, write⟩ := nb
  obtain rfl : read = 0 := hread
  obtain rfl : write = 0 := by
    change length _ = write - 0 at heq
    omega
  rfl

/-- `reserve` on a buffer that has been cleared. -/
theorem reserve_cleared (hk : Kept h) (hget : h.get buffer = some o) (hpos : o.pos = ⟨0, 0⟩) :
    ∃ b, Fresh (BufferHeap.exec h (.reserve buffer 4096)) b ∧
      Kept (BufferHeap.exec h (.reserve buffer 4096)) ∧
      Unseen h (BufferHeap.exec h (.reserve buffer 4096)) := by
  have horder := hk.sound.inOrder (hk.sound.placed_get hget) (by decide)
  have hempty : (h.view o).contents = [] := by
    apply List.eq_nil_of_length_eq_zero
    rw [horder.contents_length (by decide), horder.length_eq (by decide)]
    show o.pos.write - o.pos.read = 0
    rw [hpos, Nat.sub_self]
  have hlength : (h.view o).length = 0 := by
    rw [← horder.contents_length (by decide), hempty]
    rfl
  have hlast := lastOwner_of_few hk.accounted hk.few hget
  have hreserved : Reserved h (BufferHeap.exec h (.reserve buffer 4096)) buffer o 4096 := by
    apply (reserve_iff (hk.sound.mono (by decide)) hk.accounted hget (by decide) (by decide)).mpr
    exact ⟨hlast, .inr (hlength ▸ Nat.zero_le _)⟩
  have hunseen : Unseen h (BufferHeap.exec h (.reserve buffer 4096)) := by
    intro y hy p hp
    obtain ⟨hp', hcontents, -⟩ := hreserved.others y hy p hp
    exact ⟨hp', hcontents⟩
  -- where there is room the buffer stays, else it begins a new block
  have hplace : Few (BufferHeap.exec h (.reserve buffer 4096)) ∧
      ∀ o', (BufferHeap.exec h (.reserve buffer 4096)).get buffer = some o' → o'.pos = ⟨0, 0⟩ := by
    by_cases hroom : Roomy (h.view o) 4096
    · rw [exec_roomy hget hroom]
      refine ⟨hk.few_of_holders holders_touch, fun o' ho' => ?_⟩
      obtain rfl : o = o' := Option.some.inj ((get_touch.trans hget).symm.trans ho')
      exact hpos
    · obtain ⟨⟨_ | k, pos⟩, hb, hvalid, -, hread, -, hcontents⟩ :=
        horder.reserve_spec (by decide) (by decide) (by decide) hroom
      · exact absurd hvalid.has_block Bool.false_ne_true
      · rw [exec_moved hget hroom hb]
        refine ⟨few_moved hk hget k pos, fun o' ho' => ?_⟩
        obtain rfl := Option.some.inj ((moved_get hget).symm.trans ho')
        exact position_zero hvalid hread (by rw [hcontents, hempty, List.take_nil])
  have hkept : Kept (BufferHeap.exec h (.reserve buffer 4096)) :=
    hk.exec (isSome_of_get hget) ⟨by decide, by decide⟩ hplace.1
  obtain ⟨⟨block, pos⟩, hget', -, hcap, b, hb, hone, -, hlive⟩ := hreserved.own
  obtain rfl : block = some b := hb
  obtain rfl : pos = ⟨0, 0⟩ := hplace.2 _ hget'
  have hmade := (hkept.sound.placed_get hget').made b rfl
  have hroom : (4096 : Int) ≤ ((BufferHeap.exec h (.reserve buffer 4096)).blocks b).capacity := hcap
  exact ⟨b, ⟨sole_of_holders hmade hget' rfl hone, hlive, by omega⟩, hkept, hunseen⟩

theorem Fresh.space (hf : Fresh h b) (hk : Kept h) :
    toSize (toInt (h.view ⟨some b, ⟨0, 0⟩⟩).space) = (h.blocks b).capacity ∧
      (h.blocks b).bytes.length = (h.blocks b).capacity ∧
      (h.blocks b).capacity < 2147483648 := by
  have hmade := hf.sole.made b rfl
  have hlt := hk.sound.capacity_lt b hmade
  have hspace : (h.view ⟨some b, ⟨0, 0⟩⟩).space = (h.blocks b).capacity := by
    rw [Heap.view, Option.map_some, space_mk (Nat.zero_le _) hlt]
    rfl
  refine ⟨?_, hk.sound.memory b hmade, hlt⟩
  rw [hspace, toInt_of_range (by omega) (by omega), toSize_natCast (by omega)]

/-- Where other operations leave the buffer alone. -/
theorem Fresh.exec (hf : Fresh h b) (hop : ¬ Mentions buffer op) :
    Fresh (BufferHeap.exec h op) b := by
  obtain ⟨hsole, hblock, hreleased⟩ := hf.sole.exec hop
  refine ⟨hsole, (hreleased b rfl).trans hf.live, ?_⟩
  rw [hblock b rfl]
  exact hf.room

/-! ## What arrives -/

/-- The bytes that have arrived, in the memory that was given to the kernel. -/
structure Stored (h h' : Heap) (b : BlockId) (bs : List UInt8) : Prop where
  kept : Kept h'
  own : h'.get buffer = some ⟨some b, ⟨0, 0⟩⟩
  bytes : (h'.blocks b).bytes.take bs.length = bs
  capacity : (h'.blocks b).capacity = (h.blocks b).capacity
  unseen : Unseen h h'

theorem store_spec {bs : List UInt8} (hf : Fresh h b) (hk : Kept h)
    (hlen : bs.length ≤ (h.blocks b).capacity) : Stored h (store h b 0 bs) b bs := by
  obtain ⟨-, hmemory, -⟩ := hf.space hk
  have hcopy : copyIn (h.blocks b).bytes 0 bs bs.length =
      some (bs ++ (h.blocks b).bytes.drop bs.length) := by
    rw [copyIn, if_pos (by omega)]
    simp
  have hstore : store h b 0 bs = (h.touch (some b)).setBlock b
      { h.blocks b with bytes := bs ++ (h.blocks b).bytes.drop bs.length } := by
    rw [store, hcopy]
  have htouch := hf.sole.touch (some b)
  rw [hstore]
  refine ⟨⟨?_, ?_, ?_⟩, ?_, ?_, ?_, fun y hy p hp => ?_⟩
  · apply (hk.sound.touch (some b)).setBlock
    · rw [Heap.touch_blocks]
    · rw [Heap.touch_blocks, List.length_append, List.length_drop]
      omega
  · have hcounted : Accounted (h.touch (some b)) := hk.accounted.touch hf.sole.own
    apply Counted.setBlock hcounted
    rw [Heap.touch_blocks]
  · exact hk.few_of_holders holders_touch
  · exact htouch.sole.own
  · simp [Heap.setBlock]
  · simp [Heap.setBlock]
  · have hp' : (h.touch (some b)).get y = some p := get_touch.trans hp
    refine ⟨hp', congrArg contents ?_⟩
    rw [htouch.sole.view_setBlock rfl _ hy hp', Heap.view, Heap.touch_blocks, Heap.view]

theorem Stored.fired {bs : List UInt8} (hs : Stored h h' b bs)
    (hlen : bs.length ≤ (h.blocks b).capacity) :
    (((BufferHeap.exec h' (.wrPtr buffer (toInt bs.length))).get buffer).map
      (BufferHeap.exec h' (.wrPtr buffer (toInt bs.length))).view).toList.flatMap contents = bs := by
  have hlt := hs.kept.sound.capacity_lt b ((hs.kept.sound.placed_get hs.own).made b rfl)
  have hcapacity := hs.capacity
  have hspace : (h'.view ⟨some b, ⟨0, 0⟩⟩).space = (h'.blocks b).capacity := by
    rw [Heap.view, Option.map_some, space_mk (Nat.zero_le _) hlt]
    rfl
  have hto : toInt bs.length = (bs.length : Nat) := toInt_of_range (by omega) (by omega)
  have hmove := wrPtr_natCast (h'.view ⟨some b, ⟨0, 0⟩⟩) (n := bs.length) (by omega)
    (by rw [hspace]; show 0 + _ < _; omega)
  have hmoved := moved_wrPtr hs.own (toInt bs.length)
  have hpos : ((h'.view ⟨some b, ⟨0, 0⟩⟩).wrPtr (toInt bs.length)).2.pos = ⟨0, bs.length⟩ := by
    rw [hto, hmove]
    show (⟨0, 0 + bs.length⟩ : Position) = _
    rw [Nat.zero_add]
  rw [hmoved.own, Option.map_some, hmoved.view, hpos]
  simp [Heap.view, hs.bytes]

/-! ## Every run -/

/-- The bytes that the pipeline got. -/
def firedBytes (s : State) : List UInt8 := s.fired.flatMap contents

def At (h : Heap) : Phase → Prop
  | .unopened => ∃ o, h.get buffer = some o ∧ o.pos = ⟨0, 0⟩
  | .reading b offset len => Fresh h b ∧ offset = 0 ∧ len = (h.blocks b).capacity
  | .firing | .stopped => ∃ o, h.get buffer = some o
  | .deleted => True

structure Invariant (s : State) : Prop where
  kept : Kept s.heap
  place : At s.heap s.phase
  defined : s.fault = false
  bytes : ∃ lost, s.received = firedBytes s ++ lost ∧ (s.closeFlag = true → lost = [])

variable {s : State}

theorem invariant_initial : Invariant initial := by
  have hempty : Few BufferHeap.initial := fun b => by simp [holders, BufferHeap.initial]
  have hstart : Kept BufferHeap.initial := ⟨sound_initial, accounted_initial, hempty⟩
  have hfew : Few (BufferHeap.exec BufferHeap.initial .construct) := fun b =>
    Nat.lt_of_le_of_lt (holders_le _ b) (by decide)
  have hkept : Kept (BufferHeap.exec BufferHeap.initial .construct) :=
    Kept.exec hstart trivial trivial hfew
  exact ⟨hkept, ⟨.null, rfl, rfl⟩, rfl, [], rfl, fun _ => rfl⟩

/-- `read` with an empty buffer. -/
theorem invariant_read (hk : Kept s.heap) (hget : s.heap.get buffer = some o)
    (hpos : o.pos = ⟨0, 0⟩) (hdefined : s.fault = false)
    (hbytes : ∃ lost, s.received = firedBytes s ++ lost ∧ (s.closeFlag = true → lost = [])) :
    Invariant (read s) ∧ Unseen s.heap (read s).heap := by
  unfold read
  split
  · obtain ⟨b, hfresh, hkept, hunseen⟩ := reserve_cleared hk hget hpos
    obtain ⟨hspace, -, -⟩ := hfresh.space hkept
    simp only [hfresh.sole.own, hspace]
    exact ⟨⟨hkept, ⟨hfresh, rfl, rfl⟩, hdefined, hbytes⟩, hunseen⟩
  · exact ⟨⟨hk, ⟨o, hget⟩, hdefined, hbytes⟩, Unseen.refl _⟩

theorem invariant_receive {offset len : Nat} {bs : List UInt8} (h : Invariant s)
    (hen : Enabled s (.receive b offset len bs)) :
    Invariant (next s (.receive b offset len bs)) ∧
      Unseen s.heap (next s (.receive b offset len bs)).heap := by
  obtain ⟨hphase, -, hlen⟩ := hen
  have hplace := h.place
  rw [hphase] at hplace
  obtain ⟨hfresh, rfl, rfl⟩ := hplace
  obtain ⟨lost, hbytes, hlost⟩ := h.bytes
  have hstored := store_spec hfresh h.kept hlen
  unfold next handleRead
  dsimp only
  split
  · next hopen =>
    have hmoved := moved_wrPtr hstored.own (toInt bs.length)
    refine ⟨⟨hstored.kept.wrPtr hstored.own _, ⟨_, hmoved.own⟩, h.defined, [], ?_, fun _ => rfl⟩,
      hstored.unseen.trans hmoved.unseen⟩
    rw [firedBytes, List.flatMap_append, hstored.fired hlen, List.append_nil, hbytes, hlost hopen,
      List.append_nil]
    rfl
  · next hclosed =>
    refine ⟨⟨hstored.kept, ⟨_, hstored.own⟩, h.defined, lost ++ bs, ?_, fun hopen => ?_⟩,
      hstored.unseen⟩
    · rw [← List.append_assoc]
      exact congrArg (· ++ bs) hbytes
    · exact absurd hopen hclosed

theorem at_op (hplace : At s.heap s.phase)
    (hop : ¬ Mentions buffer op ∨ s.phase = .firing ∧ op = .copyConstruct buffer) :
    At (BufferHeap.exec s.heap op) s.phase := by
  rcases hop with hop | ⟨hphase, rfl⟩
  · cases hphase : s.phase with
    | unopened =>
      rw [hphase] at hplace
      obtain ⟨o, hget, hpos⟩ := hplace
      exact ⟨o, ((sole_empty hget).exec hop).sole.own, hpos⟩
    | reading b offset len =>
      rw [hphase] at hplace
      obtain ⟨hfresh, hoffset, hlen⟩ := hplace
      refine ⟨hfresh.exec hop, hoffset, ?_⟩
      rw [(hfresh.sole.exec hop).block b rfl]
      exact hlen
    | firing =>
      rw [hphase] at hplace
      obtain ⟨o, hget⟩ := hplace
      exact ⟨o, ((sole_empty hget).exec hop).sole.own⟩
    | stopped =>
      rw [hphase] at hplace
      obtain ⟨o, hget⟩ := hplace
      exact ⟨o, ((sole_empty hget).exec hop).sole.own⟩
    | deleted => trivial
  · rw [hphase] at hplace ⊢
    obtain ⟨o, hget⟩ := hplace
    refine ⟨o, ?_⟩
    simp only [BufferHeap.exec, withObject_eq hget]
    exact get_addObject (get_duplicate.trans hget) o

theorem invariant_delete (h : Invariant s) (hphase : s.phase = .stopped) :
    Invariant (next s .delete) ∧ Unseen s.heap (next s .delete).heap := by
  have hplace := h.place
  rw [hphase] at hplace
  obtain ⟨o, hget⟩ := hplace
  have hexec : BufferHeap.exec s.heap (.destroy buffer) =
      (s.heap.free o.block).setObject buffer none := withObject_eq hget _
  have hget' : (s.heap.free o.block).get buffer = some o := get_free.trans hget
  have hfew : Few (BufferHeap.exec s.heap (.destroy buffer)) := by
    intro c
    have hgone := congrFun (holders_setObject hget' none) c
    have hlt := h.kept.few c
    rw [blockOf_none, plus_none, holders_free] at hgone
    unfold plus at hgone
    rw [hexec]
    omega
  have hkept : Kept (BufferHeap.exec s.heap (.destroy buffer)) :=
    h.kept.exec (isSome_of_get hget) trivial hfew
  refine ⟨⟨hkept, trivial, h.defined, h.bytes⟩, fun y hy p hp => ?_⟩
  have hheap : (next s .delete).heap = (s.heap.free o.block).setObject buffer none := hexec
  rw [hheap]
  exact ⟨(get_setObject_ne hy none).trans (get_free.trans hp),
    view_contents fun c _ => free_bytes s.heap o.block c⟩

theorem invariant_next {e : Event} (h : Invariant s) (hen : Enabled s e) (hc : CarefulUse s e) :
    Invariant (next s e) ∧ ((∀ op, e ≠ .op op) → Unseen s.heap (next s e).heap) := by
  cases e with
  | opens =>
    have hplace := h.place
    rw [show s.phase = .unopened from hen] at hplace
    obtain ⟨o, hget, hpos⟩ := hplace
    obtain ⟨hinvariant, hunseen⟩ := invariant_read h.kept hget hpos h.defined h.bytes
    exact ⟨hinvariant, fun _ => hunseen⟩
  | receive b offset len bs =>
    obtain ⟨hinvariant, hunseen⟩ := invariant_receive h hen
    exact ⟨hinvariant, fun _ => hunseen⟩
  | fail b offset len =>
    have hplace := h.place
    rw [show s.phase = .reading b offset len from hen] at hplace
    obtain ⟨hfresh, -, -⟩ := hplace
    obtain ⟨lost, hbytes, -⟩ := h.bytes
    refine ⟨⟨h.kept, ⟨_, hfresh.sole.own⟩, h.defined, lost, hbytes, fun hopen => ?_⟩,
      fun _ => Unseen.refl _⟩
    exact absurd hopen Bool.false_ne_true
  | afterRead =>
    have hplace := h.place
    rw [show s.phase = .firing from hen] at hplace
    obtain ⟨o, hget⟩ := hplace
    have hmoved := moved_clear hget
    obtain ⟨hinvariant, hunseen⟩ := invariant_read
      (s := { s with heap := BufferHeap.exec s.heap (.clear buffer) }) (h.kept.clear hget)
      hmoved.own rfl h.defined h.bytes
    exact ⟨hinvariant, fun _ => hmoved.unseen.trans hunseen⟩
  | close =>
    obtain ⟨lost, hbytes, -⟩ := h.bytes
    refine ⟨⟨h.kept, h.place, h.defined, lost, hbytes, fun hopen => ?_⟩, fun _ => Unseen.refl _⟩
    exact absurd hopen Bool.false_ne_true
  | delete =>
    obtain ⟨hinvariant, hunseen⟩ := invariant_delete h hen
    exact ⟨hinvariant, fun _ => hunseen⟩
  | op op =>
    refine ⟨⟨h.kept.exec hen.1 hc.1 hc.2, at_op h.place hen.2, h.defined, h.bytes⟩, fun hop => ?_⟩
    exact absurd rfl (hop op)

theorem invariant_run (h : machine.Execution CarefulUse initial s) : Invariant s :=
  System.Execution.invariant h invariant_initial fun _ _ _ hu hen hc => (invariant_next hu hen hc).1

/-- What has arrived is what the pipeline got, up to what arrives when the channel is closed. The
kernel fills a whole live block of at least 4096 bytes that no other buffer has, and nothing that
the channel does changes what another buffer holds. -/
structure FaithfulInput (s : State) : Prop where
  fired : firedBytes s <+: s.received
  whole : s.closeFlag = true → firedBytes s = s.received
  destination : ∀ b offset len, s.phase = .reading b offset len →
    s.heap.released b = false ∧ offset = 0 ∧ len = (s.heap.blocks b).bytes.length ∧ 4096 ≤ len ∧
      ∀ y, y ≠ buffer → ∀ p, s.heap.get y = some p → p.block ≠ some b
  kept : ∀ e, Enabled s e → (∀ op, e ≠ .op op) → Unseen s.heap (next s e).heap
  inside : s.heap.outside = false
  live : s.heap.stale = false
  defined : s.fault = false

theorem input_faithful (h : machine.Execution CarefulUse initial s) : FaithfulInput s := by
  have hs := invariant_run h
  obtain ⟨lost, hbytes, hlost⟩ := hs.bytes
  constructor
  · exact hbytes ▸ List.prefix_append _ _
  · intro hopen
    rw [hbytes, hlost hopen, List.append_nil]
  · intro b offset len hphase
    have hplace := hs.place
    rw [hphase] at hplace
    obtain ⟨hfresh, hoffset, rfl⟩ := hplace
    obtain ⟨-, hmemory, -⟩ := hfresh.space hs.kept
    exact ⟨hfresh.live, hoffset, hmemory.symm, hfresh.room,
      fun y hy p hp heq => hfresh.sole.others y hy p hp b heq rfl⟩
  · intro e hen hop
    cases e with
    | op op => exact absurd rfl (hop op)
    | _ => exact (invariant_next hs hen trivial).2 hop
  · exact hs.kept.sound.inside
  · exact hs.kept.accounted.fresh
  · exact hs.defined

/-- Uses of few buffers, without `sub_buffer`. -/
def SmallUse (s : State) : Event → Prop
  | .op op => Listed op ∧ (BufferHeap.exec s.heap op).objects.length < 2147483648
  | _ => True

instance (s : State) : ∀ e : Event, Decidable (SmallUse s e)
  | .op _ => inferInstanceAs (Decidable (_ ∧ _))
  | .opens | .receive _ _ _ _ | .fail _ _ _ | .afterRead | .close | .delete => isTrue trivial

theorem SmallUse.careful {e : Event} (h : SmallUse s e) : CarefulUse s e := by
  cases e with
  | op op =>
    refine ⟨?_, fun b => Nat.lt_of_le_of_lt (holders_le _ b) h.2⟩
    cases op with
    | subBuffer y start len => exact absurd h.1 id
    | _ => exact h.1
  | _ => trivial

/-- A filter keeps the first bytes; the next ones do not take their place. -/
def keeping : List Event :=
  [.opens, .receive 0 0 4096 [1, 2], .op (.copyConstruct 0), .afterRead, .op (.rdPtr 1 1),
    .receive 1 0 4096 [3, 4, 5], .close]

theorem input_faithful_keeping :
    firedBytes (machine.runTrace initial keeping) = [1, 2, 3, 4, 5] ∧
      FaithfulInput (machine.runTrace initial keeping) := by
  have hvalid : machine.ValidTrace SmallUse initial keeping := by decide +kernel
  exact ⟨by decide +kernel, input_faithful (hvalid.execution.mono fun _ _ h => h.careful)⟩

end ChannelInput
