import Tcode.ChannelStream
import Tcode.FilterFraming
import Mathlib.Data.List.Nodup

/-! # Frames on the stream of a channel

`size_filter::filter_do_write` on the run-loop thread and on others, with `outbounds`
filters between the filter and the channel that pass writes on. A frame that goes to the
channel directly takes two calls of `channel::do_write`; other threads post and close
between them.

`calls` and `whole` are bookkeeping.
-/
namespace FilterFrames

open SupportMachineInt SupportTransitionSystem BufferBlock BufferByteBuffer
open FilterSizeFilter FilterFraming ChannelStream
open BufferByteBuffer.ByteBuffer

inductive Thread where
  | loop
  | other (k : Nat)
  deriving DecidableEq, Repr

/-- A call of `size_filter::filter_do_write` and what `in_pipeline()` answers in it. -/
structure Call where
  number : Nat
  thread : Thread
  inPipeline : Bool
  buf : ByteBuffer
  deriving DecidableEq, Repr

def frameOf (buf : ByteBuffer) : List UInt8 := leBytes buf.contents.length ++ buf.contents

namespace Call

def frame (c : Call) : List UInt8 := frameOf c.buf

def source (c : Call) : Thread × Bool := (c.thread, c.inPipeline)

end Call

/-- A closure of `fire_filter_do_write`, with the number of filters that its buffer still has
to pass. -/
structure Closure where
  filters : Nat
  buf : ByteBuffer
  call : Call
  deriving DecidableEq, Repr

structure State where
  /-- `FLAG_IN_PIPELINE` in the pipeline's `_flag`. -/
  flag : Bool
  inEvent : Bool
  /-- What the run-loop thread still has to give to `channel::do_write`. -/
  writing : Option (Call × List ByteBuffer)
  posted : List Closure
  isOpen : Bool
  stream : List UInt8
  undefined : Bool
  calls : List Call
  whole : List Call
  deriving DecidableEq, Repr

def initial : State := ⟨false, false, none, [], true, [], false, [], []⟩

def State.inPipeline (s : State) (t : Thread) : Bool := decide (t = .loop) && s.flag

def State.newCall (s : State) (t : Thread) (buf : ByteBuffer) : Call :=
  ⟨s.calls.length, t, s.inPipeline t, buf⟩

def State.enrol (s : State) (t : Thread) (buf : ByteBuffer) : State :=
  { s with calls := s.calls ++ [s.newCall t buf] }

/-- `channel::do_write` on the run-loop thread; `ends` is the call whose frame ends here. -/
def channelDoWrite (buf : ByteBuffer) (ends : Option Call) (s : State) : State :=
  if s.isOpen then
    { s with stream := s.stream ++ buf.contents, whole := s.whole ++ ends.toList }
  else s

/-- `fire_filter_do_write`. A filter that is called passes the buffer on to the next one. -/
def fireFilterDoWrite (t : Thread) (c : Call) : Nat → ByteBuffer → State → State
  | 0, buf, s =>
    if s.inPipeline t then channelDoWrite buf (some c) s
    else { s with posted := s.posted ++ [⟨0, buf, c⟩] }
  | filters + 1, buf, s =>
    if s.inPipeline t then fireFilterDoWrite t c filters buf s
    else { s with posted := s.posted ++ [⟨filters + 1, buf, c⟩] }

/-- `size_filter::filter_do_write`. -/
def sizeFilterDoWrite (outbounds : Nat) (t : Thread) (buf : ByteBuffer) (s : State) : State :=
  let c := s.newCall t buf
  let s' := s.enrol t buf
  match filterDoWrite (decide (0 < outbounds)) c.inPipeline buf with
  | none => { s' with undefined := true }
  | some bufs =>
    if !decide (0 < outbounds) && c.inPipeline then { s' with writing := some (c, bufs) }
    else bufs.foldl (fun s buff => fireFilterDoWrite t c outbounds buff s) s'

/-- The next of the calls of `channel::do_write` that are left to the run-loop thread. -/
def writeNext (s : State) : State :=
  match s.writing with
  | some (c, buf :: bufs) =>
    let s' := channelDoWrite buf (if bufs.isEmpty then some c else none) s
    { s' with writing := if bufs.isEmpty then none else some (c, bufs) }
  | _ => s

def runClosure (s : State) : State :=
  match s.posted with
  | [] => s
  | cl :: rest =>
    let s' :=
      fireFilterDoWrite .loop cl.call cl.filters cl.buf { s with flag := true, posted := rest }
    { s' with flag := !s'.flag }

inductive Step where
  | call (t : Thread) (buf : ByteBuffer)
  | write
  | enter
  | leave
  | closure
  | close
  deriving DecidableEq, Repr

/-- The run-loop thread is not inside a call of `filter_do_write`. -/
def Idle (s : State) : Prop := s.writing = none

def Enabled (s : State) : Step → Prop
  | .call .loop _ => Idle s
  | .call (.other _) _ => True
  | .write => s.writing.isSome
  | .enter => Idle s ∧ s.inEvent = false
  | .leave => Idle s ∧ s.inEvent = true
  | .closure => Idle s ∧ s.inEvent = false ∧ s.posted ≠ []
  | .close => True

def next (outbounds : Nat) (s : State) : Step → State
  | .call t buf => sizeFilterDoWrite outbounds t buf s
  | .write => writeNext s
  | .enter => { s with flag := true, inEvent := true }
  | .leave => { s with flag := !s.flag, inEvent := false }
  | .closure => runClosure s
  | .close => { s with isOpen := false }

instance (s : State) : Decidable (Idle s) := inferInstanceAs (Decidable (_ = _))

instance (s : State) : ∀ e : Step, Decidable (Enabled s e)
  | .call .loop _ => inferInstanceAs (Decidable (Idle s))
  | .call (.other _) _ => isTrue trivial
  | .write => inferInstanceAs (Decidable (s.writing.isSome = true))
  | .enter | .leave => inferInstanceAs (Decidable (_ ∧ _))
  | .closure => inferInstanceAs (Decidable (_ ∧ _ ∧ _))
  | .close => isTrue trivial

def machine (outbounds : Nat) : System State Step := ⟨Enabled, next outbounds⟩

/-- A payload whose frame is below 2^31 bytes. -/
structure Framable (buf : ByteBuffer) : Prop where
  sendable : Sendable buf
  fits : buf.length + 4 < 2147483648

def FramableCalls : Step → Prop
  | .call _ buf => Framable buf
  | _ => True

instance (outbounds : Nat) (s : State) (e : Step) : Decidable ((machine outbounds).Enabled s e) :=
  inferInstanceAs (Decidable (Enabled s e))

variable {outbounds : Nat} {s t : State} {th : Thread} {c : Call} {buf : ByteBuffer}

/-! ## The bytes of one call -/

theorem Framable.block (h : Framable buf) :
    ∃ k, buf.block = some k ∧ buf.length ≤ (k.bytes.drop buf.pos.read).length ∧
      leBytes (toInt buf.length) ++ (k.bytes.drop buf.pos.read).take buf.length = frameOf buf := by
  obtain ⟨k, hk⟩ := Option.isSome_iff_exists.mp h.sendable.has_block
  have hinside := h.sendable.inside k hk
  have horder := h.sendable.order
  have hlen := h.sendable.length_eq
  have hcl := h.sendable.contents_length
  have hfits := h.fits
  refine ⟨k, hk, ?_, ?_⟩
  · rw [List.length_drop]
    omega
  · rw [frameOf, hcl, toInt_of_range (x := (buf.length : Int)) (by omega) (by omega), hlen]
    simp only [contents, hk]

theorem Framable.frame_eq (h : Framable buf) :
    leBytes (toInt buf.length) ++ buf.contents = frameOf buf := by
  have hfits := h.fits
  rw [frameOf, h.sendable.contents_length,
    toInt_of_range (x := (buf.length : Int)) (by omega) (by omega)]

/-- The buffers that are handed on are, together, the frame. -/
theorem Framable.filterDoWrite_frame (h : Framable buf) (outbound inPipeline : Bool) :
    ∃ bufs, filterDoWrite outbound inPipeline buf = some bufs ∧
      bufs.flatMap contents = frameOf buf ∧
      ((!outbound && inPipeline) = false → ∃ buff, bufs = [buff]) := by
  obtain ⟨k, hk, hread, hframe⟩ := h.block
  by_cases hpipe : (!outbound && inPipeline) = true
  · obtain ⟨size, hbufs, hsize⟩ := filterDoWrite_direct hk hpipe
    refine ⟨_, hbufs, ?_, fun hnot => absurd hpipe (by simp [hnot])⟩
    rw [← h.frame_eq, ← hsize]
    simp
  · rw [Bool.not_eq_true] at hpipe
    obtain ⟨buff, hbufs, hbuff⟩ := filterDoWrite_combined hk hpipe hread h.fits
    refine ⟨_, hbufs, ?_, fun _ => ⟨buff, rfl⟩⟩
    rw [List.flatMap_singleton, hbuff, hframe]

theorem fireFilterDoWrite_inside (filters : Nat) (h : s.inPipeline th = true) :
    fireFilterDoWrite th c filters buf s = channelDoWrite buf (some c) s := by
  induction filters with
  | zero => simp [fireFilterDoWrite, h]
  | succ filters ih => simp [fireFilterDoWrite, h, ih]

theorem fireFilterDoWrite_outside (filters : Nat) (h : s.inPipeline th = false) :
    fireFilterDoWrite th c filters buf s =
      { s with posted := s.posted ++ [⟨filters, buf, c⟩] } := by
  cases filters <;> simp [fireFilterDoWrite, h]

/-- What a call does with its frame: the run-loop thread writes it in parts, or in one piece,
or it is posted. -/
theorem sizeFilterDoWrite_spec (s : State) (th : Thread) (outbounds : Nat) (h : Framable buf) :
    (∃ bufs, s.inPipeline th = true ∧ bufs.flatMap contents = frameOf buf ∧
      sizeFilterDoWrite outbounds th buf s =
        { s.enrol th buf with writing := some (s.newCall th buf, bufs) }) ∨
    (∃ buff, s.inPipeline th = true ∧ buff.contents = frameOf buf ∧
      sizeFilterDoWrite outbounds th buf s =
        channelDoWrite buff (some (s.newCall th buf)) (s.enrol th buf)) ∨
    (∃ buff, s.inPipeline th = false ∧ buff.contents = frameOf buf ∧
      sizeFilterDoWrite outbounds th buf s =
        { s.enrol th buf with
          posted := s.posted ++ [⟨outbounds, buff, s.newCall th buf⟩] }) := by
  obtain ⟨bufs, hbufs, hframe, hone⟩ :=
    h.filterDoWrite_frame (decide (0 < outbounds)) (s.inPipeline th)
  have hcall : (s.newCall th buf).inPipeline = s.inPipeline th := rfl
  by_cases hdirect : (!decide (0 < outbounds) && s.inPipeline th) = true
  · refine Or.inl ⟨bufs, (Bool.and_eq_true_iff.mp hdirect).2, hframe, ?_⟩
    simp only [sizeFilterDoWrite, hcall, hbufs, if_pos hdirect]
  rw [Bool.not_eq_true] at hdirect
  obtain ⟨buff, rfl⟩ := hone hdirect
  rw [List.flatMap_singleton] at hframe
  refine Or.inr ?_
  by_cases hpipe : s.inPipeline th = true
  · refine Or.inl ⟨buff, hpipe, hframe, ?_⟩
    simp only [sizeFilterDoWrite, hcall, hbufs, hdirect, Bool.false_eq_true, if_false,
      List.foldl_cons, List.foldl_nil]
    exact fireFilterDoWrite_inside (s := s.enrol th buf) outbounds hpipe
  · rw [Bool.not_eq_true] at hpipe
    refine Or.inr ⟨buff, hpipe, hframe, ?_⟩
    simp only [sizeFilterDoWrite, hcall, hbufs, hdirect, Bool.false_eq_true, if_false,
      List.foldl_cons, List.foldl_nil]
    exact fireFilterDoWrite_outside (s := s.enrol th buf) outbounds hpipe

/-! ## Runs -/

def State.current (s : State) : List Call := (s.writing.map Prod.fst).toList

/-- The bytes of the current call that are not yet given to the channel. -/
def State.remaining (s : State) : List UInt8 :=
  s.writing.elim [] fun w => w.2.flatMap contents

def bySource (σ : Thread × Bool) (calls : List Call) : List Call :=
  calls.filter fun c => c.source = σ

theorem bySource_append (σ : Thread × Bool) (cs ds : List Call) :
    bySource σ (cs ++ ds) = bySource σ cs ++ bySource σ ds := List.filter_append cs ds

theorem bySource_eq_nil {σ : Thread × Bool} {cs : List Call} (h : ∀ c ∈ cs, c.source ≠ σ) :
    bySource σ cs = [] := by
  apply List.filter_eq_nil_iff.mpr
  intro c hc
  simpa using h c hc

structure Opened (s : State) : Prop where
  stream : ∃ part, s.stream = s.whole.flatMap Call.frame ++ part ∧
    part ++ s.remaining = s.current.flatMap Call.frame
  complete : ∀ σ, bySource σ (s.whole ++ s.current ++ s.posted.map Closure.call) =
    bySource σ s.calls

structure Closed (s : State) : Prop where
  stream : ∃ cut, s.stream = s.whole.flatMap Call.frame ++ cut ∧
    (cut = [] ∨ ∃ c ∈ s.calls, c ∉ s.whole ∧ cut <+: c.frame)
  ordered : ∀ σ, bySource σ s.whole <+: bySource σ s.calls

structure Invariant (s : State) : Prop where
  defined : s.undefined = false
  flag : s.flag = s.inEvent
  numbers : s.calls.map Call.number = List.range s.calls.length
  outside : ∀ cl ∈ s.posted, cl.call.inPipeline = false ∧ cl.buf.contents = cl.call.frame
  opened : s.isOpen = true → Opened s
  closed : s.isOpen = false → Closed s

theorem Invariant.nodup (h : Invariant s) : s.calls.Nodup := by
  apply List.Nodup.of_map Call.number
  rw [h.numbers]
  exact List.nodup_range

/-- What is whole, being written and posted is, while the channel is open, what was called. -/
theorem Opened.perm (h : Opened s) :
    (s.whole ++ s.current ++ s.posted.map Closure.call).Perm s.calls := by
  apply List.perm_iff_count.mpr
  intro c
  have hcount (cs : List Call) : (bySource c.source cs).count c = cs.count c :=
    List.count_filter (by simp)
  rw [← hcount, h.complete, hcount]

theorem Opened.ordered (h : Opened s) (σ : Thread × Bool) :
    bySource σ s.whole <+: bySource σ s.calls := by
  rw [← h.complete σ, bySource_append, bySource_append, List.append_assoc]
  exact List.prefix_append _ _

/-- Behind the whole frames is at most a part of the one that is being written. -/
theorem Opened.cut (h : Opened s) (hnodup : s.calls.Nodup) :
    ∃ cut, s.stream = s.whole.flatMap Call.frame ++ cut ∧
      (cut = [] ∨ ∃ c ∈ s.calls, c ∉ s.whole ∧ cut <+: c.frame ∧ c ∈ s.current) := by
  obtain ⟨part, hstream, hpart⟩ := h.stream
  refine ⟨part, hstream, ?_⟩
  cases hw : s.writing with
  | none =>
    simp only [State.remaining, State.current, hw, Option.elim_none, Option.map_none,
      Option.toList_none, List.flatMap_nil, List.append_nil] at hpart
    exact Or.inl hpart
  | some w =>
    have hcurrent : s.current = [w.1] := by simp [State.current, hw]
    have hperm := h.perm
    rw [hcurrent] at hperm
    have hmem : w.1 ∈ s.calls := hperm.subset (by simp)
    have hdistinct := hperm.nodup_iff.mpr hnodup
    rw [List.append_assoc] at hdistinct
    refine Or.inr ⟨w.1, hmem, fun hin => ?_, ?_, by simp [hcurrent]⟩
    · exact List.disjoint_of_nodup_append hdistinct hin (by simp)
    · rw [hcurrent, List.flatMap_singleton] at hpart
      exact ⟨_, hpart⟩

theorem Opened.toClosed (h : Opened s) (hnodup : s.calls.Nodup) : Closed s := by
  obtain ⟨cut, hstream, hpart⟩ := h.cut hnodup
  refine ⟨⟨cut, hstream, ?_⟩, h.ordered⟩
  rcases hpart with hnil | ⟨c, hc, hnot, hprefix, -⟩
  · exact Or.inl hnil
  · exact Or.inr ⟨c, hc, hnot, hprefix⟩

/-- A closed channel takes nothing more, whatever is still called. -/
theorem Closed.grow (h : Closed s) (hstream : t.stream = s.stream) (hwhole : t.whole = s.whole)
    (hcalls : s.calls <+: t.calls) : Closed t := by
  obtain ⟨cut, hcut, hpart⟩ := h.stream
  refine ⟨⟨cut, by rw [hstream, hwhole, hcut], ?_⟩, fun σ => ?_⟩
  · rcases hpart with hnil | ⟨c, hc, hnot, hprefix⟩
    · exact Or.inl hnil
    · exact Or.inr ⟨c, hcalls.subset hc, hwhole ▸ hnot, hprefix⟩
  · rw [hwhole]
    exact (h.ordered σ).trans (hcalls.filter _)

theorem inPipeline_loop (h : s.inPipeline th = true) : th = .loop ∧ s.flag = true := by
  simpa [State.inPipeline] using h

theorem channelDoWrite_of_open {ends : Option Call} (h : s.isOpen = true) :
    channelDoWrite buf ends s =
      { s with stream := s.stream ++ buf.contents, whole := s.whole ++ ends.toList } := if_pos h

theorem channelDoWrite_of_closed {ends : Option Call} (h : s.isOpen = false) :
    channelDoWrite buf ends s = s := if_neg (by simp [h])

/-- The channel accepts the same bytes as the one that has `_flag` and a queue of buffers. -/
theorem channelDoWrite_exec {F : Type} (W : ChannelFlagWord.FlagWord F)
    (ch : ChannelMachine.State F) (ends : Option Call) (hstream : ch.accepted = s.stream)
    (hopen : W.contains .close ch.flag = s.isOpen) :
    let ch' := (ChannelMachine.exec W true ch (.doWrite buf)).1
    ch'.accepted = (channelDoWrite buf ends s).stream ∧
      W.contains .close ch'.flag = (channelDoWrite buf ends s).isOpen := by
  cases hs : s.isOpen with
  | false =>
    rw [hs] at hopen
    simp [ChannelMachine.exec, hopen, channelDoWrite_of_closed hs, hstream, hs]
  | true =>
    rw [hs] at hopen
    simp [ChannelMachine.exec, hopen, channelDoWrite_of_open hs, hstream, hs]

theorem enrol_numbers (h : s.calls.map Call.number = List.range s.calls.length) :
    (s.enrol th buf).calls.map Call.number = List.range (s.enrol th buf).calls.length := by
  simp [State.enrol, State.newCall, h, List.range_succ]

/-- A call from inside the pipeline overtakes the posted ones, which are from other sources. -/
theorem bySource_overtakes (σ : Thread × Bool) {ds : List Call} (hc : c.inPipeline = true)
    (hds : ∀ d ∈ ds, d.inPipeline = false) :
    bySource σ (c :: ds) = bySource σ (ds ++ [c]) := by
  rw [← List.singleton_append, bySource_append, bySource_append]
  by_cases hσ : c.source = σ
  · have hnil : bySource σ ds = [] := by
      apply bySource_eq_nil
      intro d hd heq
      have hsame : d.inPipeline = c.inPipeline := congrArg Prod.snd (heq.trans hσ.symm)
      rw [hds d hd, hc] at hsame
      exact absurd hsame Bool.false_ne_true
    rw [hnil, List.append_nil, List.nil_append]
  · have hnil : bySource σ [c] = [] := bySource_eq_nil (by simpa using hσ)
    rw [hnil, List.append_nil, List.nil_append]

theorem Idle.current (h : Idle s) : s.current = [] := by
  rw [Idle] at h
  simp [State.current, h]

theorem Idle.remaining (h : Idle s) : s.remaining = [] := by
  rw [Idle] at h
  simp [State.remaining, h]

theorem Opened.idle_stream (h : Opened s) (hidle : Idle s) :
    s.stream = s.whole.flatMap Call.frame := by
  obtain ⟨part, hstream, hpart⟩ := h.stream
  rw [hidle.current, hidle.remaining, List.flatMap_nil, List.append_nil] at hpart
  rw [hstream, hpart, List.append_nil]

theorem Invariant.posted_outside (h : Invariant s) :
    ∀ d ∈ s.posted.map Closure.call, d.inPipeline = false := by
  intro d hd
  obtain ⟨cl, hcl, rfl⟩ := List.mem_map.mp hd
  exact (h.outside cl hcl).1

theorem Invariant.insert_inside (h : Invariant s) (hs : Opened s) (hidle : Idle s)
    (hpipe : s.inPipeline th = true) (σ : Thread × Bool) :
    bySource σ (s.whole ++ [s.newCall th buf] ++ s.posted.map Closure.call) =
      bySource σ (s.calls ++ [s.newCall th buf]) := by
  have hall := hs.complete σ
  rw [hidle.current, List.append_nil] at hall
  rw [List.append_assoc, bySource_append, List.singleton_append,
    bySource_overtakes σ hpipe h.posted_outside, ← bySource_append, ← List.append_assoc,
    bySource_append, hall, ← bySource_append]

theorem calls_prefix_enrol (s : State) (th : Thread) (buf : ByteBuffer) :
    s.calls <+: (s.enrol th buf).calls := List.prefix_append _ _

@[simp] theorem newCall_frame (s : State) (th : Thread) (buf : ByteBuffer) :
    (s.newCall th buf).frame = frameOf buf := rfl

/-- The run-loop thread has all parts of a frame in front of it. -/
theorem Invariant.startWriting (h : Invariant s) (hidle : Idle s)
    (hpipe : s.inPipeline th = true) {bufs : List ByteBuffer}
    (hframe : bufs.flatMap contents = frameOf buf) :
    Invariant { s.enrol th buf with writing := some (s.newCall th buf, bufs) } := by
  refine ⟨h.defined, h.flag, enrol_numbers h.numbers, h.outside, fun hopen => ?_,
    fun hclosed => (h.closed hclosed).grow rfl rfl (calls_prefix_enrol s th buf)⟩
  have hs := h.opened hopen
  refine ⟨⟨[], ?_, ?_⟩, h.insert_inside hs hidle hpipe⟩
  · rw [List.append_nil]
    exact hs.idle_stream hidle
  · simpa [State.remaining, State.current] using hframe

/-- A frame goes to the channel in one piece. -/
theorem Invariant.writeInside (h : Invariant s) (hidle : Idle s)
    (hpipe : s.inPipeline th = true) {buff : ByteBuffer} (hframe : buff.contents = frameOf buf) :
    Invariant (channelDoWrite buff (some (s.newCall th buf)) (s.enrol th buf)) := by
  have hnumbers : (s.enrol th buf).calls.map Call.number = _ := enrol_numbers h.numbers
  by_cases hopen : s.isOpen = true
  · have hs := h.opened hopen
    rw [channelDoWrite_of_open (s := s.enrol th buf) hopen]
    refine ⟨h.defined, h.flag, hnumbers, h.outside, fun _ => ⟨⟨[], ?_, ?_⟩, fun σ => ?_⟩,
      fun hclosed => absurd (hopen.symm.trans hclosed) (by simp)⟩
    · have hstream : (s.enrol th buf).stream = s.whole.flatMap Call.frame :=
        hs.idle_stream hidle
      have hwhole : (s.enrol th buf).whole = s.whole := rfl
      simp only [hstream, hwhole, hframe, Option.toList_some, List.flatMap_append,
        List.flatMap_singleton, newCall_frame, List.append_nil]
    · have hwriting : (s.enrol th buf).writing = none := hidle
      simp [State.remaining, State.current, hwriting]
    · have hwriting : (s.enrol th buf).writing = none := hidle
      simp only [State.current, hwriting, Option.map_none, Option.toList_none, List.append_nil,
        Option.toList_some]
      exact h.insert_inside hs hidle hpipe σ
  · rw [Bool.not_eq_true] at hopen
    rw [channelDoWrite_of_closed (s := s.enrol th buf) hopen]
    exact ⟨h.defined, h.flag, hnumbers, h.outside,
      fun hop => absurd (hop.symm.trans hopen) (by simp),
      fun _ => (h.closed hopen).grow rfl rfl (calls_prefix_enrol s th buf)⟩

/-- A frame waits in the engine. -/
theorem Invariant.post (h : Invariant s) (hpipe : s.inPipeline th = false) {buff : ByteBuffer}
    (hframe : buff.contents = frameOf buf) (filters : Nat) :
    Invariant { s.enrol th buf with
      posted := s.posted ++ [⟨filters, buff, s.newCall th buf⟩] } := by
  refine ⟨h.defined, h.flag, enrol_numbers h.numbers, fun cl hcl => ?_, fun hopen => ?_,
    fun hclosed => (h.closed hclosed).grow rfl rfl (calls_prefix_enrol s th buf)⟩
  · rcases List.mem_append.mp hcl with hcl | hcl
    · exact h.outside cl hcl
    · obtain rfl := List.mem_singleton.mp hcl
      exact ⟨hpipe, hframe⟩
  · have hs := h.opened hopen
    refine ⟨hs.stream, fun σ => ?_⟩
    have hall := hs.complete σ
    simp only [List.map_append, List.map_cons, List.map_nil, ← List.append_assoc]
    rw [bySource_append]
    exact (congrArg (· ++ _) hall).trans (bySource_append σ _ _).symm

theorem call_step (h : Invariant s) (he : Enabled s (.call th buf)) (hbuf : Framable buf) :
    Invariant (sizeFilterDoWrite outbounds th buf s) := by
  have hidle (hpipe : s.inPipeline th = true) : Idle s := by
    obtain ⟨rfl, -⟩ := inPipeline_loop hpipe
    exact he
  rcases sizeFilterDoWrite_spec s th outbounds hbuf with
    ⟨bufs, hpipe, hframe, heq⟩ | ⟨buff, hpipe, hframe, heq⟩ | ⟨buff, hpipe, hframe, heq⟩
  · rw [heq]
    exact h.startWriting (hidle hpipe) hpipe hframe
  · rw [heq]
    exact h.writeInside (hidle hpipe) hpipe hframe
  · rw [heq]
    exact h.post hpipe hframe outbounds

/-- One call of `channel::do_write` takes the next part of the frame that is being written. -/
theorem write_step (h : Invariant s) : Invariant (writeNext s) := by
  match hw : s.writing with
  | none => simpa only [writeNext, hw] using h
  | some (c, []) => simpa only [writeNext, hw] using h
  | some (c, buf :: bufs) =>
    have hcurrent : s.current = [c] := by simp [State.current, hw]
    have hremaining : s.remaining = buf.contents ++ bufs.flatMap contents := by
      simp [State.remaining, hw]
    simp only [writeNext, hw]
    by_cases hopen : s.isOpen = true
    · have hs := h.opened hopen
      obtain ⟨part, hstream, hpart⟩ := hs.stream
      rw [hcurrent, hremaining, List.flatMap_singleton] at hpart
      rw [channelDoWrite_of_open hopen]
      refine ⟨h.defined, h.flag, h.numbers, h.outside, fun _ => ?_,
        fun hclosed => absurd (hopen.symm.trans hclosed) (by simp)⟩
      cases bufs with
      | nil =>
        -- The frame is whole.
        refine ⟨⟨[], ?_, rfl⟩, fun σ => ?_⟩
        · rw [List.flatMap_nil, List.append_nil] at hpart
          simp [hstream, hpart]
        · have hall := hs.complete σ
          rw [hcurrent] at hall
          simpa [State.current] using hall
      | cons buf' bufs =>
        refine ⟨⟨part ++ buf.contents, ?_, ?_⟩, fun σ => ?_⟩
        · simp [hstream]
        · simpa [State.remaining, State.current] using hpart
        · have hall := hs.complete σ
          rw [hcurrent] at hall
          simpa [State.current] using hall
    · rw [Bool.not_eq_true] at hopen
      rw [channelDoWrite_of_closed hopen]
      exact ⟨h.defined, h.flag, h.numbers, h.outside,
        fun hop => absurd (hop.symm.trans hopen) (by simp),
        fun _ => (h.closed hopen).grow rfl rfl List.prefix_rfl⟩

/-- A posted frame goes to the channel in one piece. -/
theorem closure_step (h : Invariant s) (hidle : Idle s) (hevent : s.inEvent = false) :
    Invariant (runClosure s) := by
  match hp : s.posted with
  | [] => simpa only [runClosure, hp] using h
  | cl :: rest =>
    obtain ⟨-, hframe⟩ := h.outside cl (by rw [hp]; exact List.mem_cons_self)
    have hrest : ∀ d ∈ rest, d.call.inPipeline = false ∧ d.buf.contents = d.call.frame :=
      fun d hd => h.outside d (by rw [hp]; exact List.mem_cons_of_mem _ hd)
    simp only [runClosure, hp]
    rw [fireFilterDoWrite_inside cl.filters (by simp [State.inPipeline])]
    by_cases hopen : s.isOpen = true
    · have hs := h.opened hopen
      rw [channelDoWrite_of_open (by simpa using hopen)]
      refine ⟨h.defined, hevent.symm, h.numbers, hrest,
        fun _ => ⟨⟨[], ?_, ?_⟩, fun σ => ?_⟩,
        fun hclosed => absurd (hopen.symm.trans hclosed) (by simp)⟩
      · simp [hs.idle_stream hidle, hframe]
      · rw [Idle] at hidle
        simp [State.remaining, State.current, hidle]
      · have hall := hs.complete σ
        rw [hidle.current, hp] at hall
        rw [Idle] at hidle
        simpa [State.current, hidle] using hall
    · rw [Bool.not_eq_true] at hopen
      rw [channelDoWrite_of_closed (by simpa using hopen)]
      exact ⟨h.defined, hevent.symm, h.numbers, hrest,
        fun hop => absurd (hop.symm.trans hopen) (by simp),
        fun _ => (h.closed hopen).grow rfl rfl List.prefix_rfl⟩

theorem invariant_initial : Invariant initial := by
  exact ⟨rfl, rfl, rfl, by simp [initial], fun _ => ⟨⟨[], rfl, rfl⟩, fun _ => rfl⟩, nofun⟩

theorem invariant_step {e : Step} (h : Invariant s) (he : Enabled s e) (hc : FramableCalls e) :
    Invariant (next outbounds s e) := by
  cases e with
  | call th buf => exact call_step h he hc
  | write => exact write_step h
  | enter =>
    exact ⟨h.defined, rfl, h.numbers, h.outside,
      fun ho => ⟨(h.opened ho).stream, (h.opened ho).complete⟩,
      fun hn => (h.closed hn).grow rfl rfl List.prefix_rfl⟩
  | leave =>
    have hflag : s.flag = true := h.flag.trans he.2
    exact ⟨h.defined, by simp [next, hflag], h.numbers, h.outside,
      fun ho => ⟨(h.opened ho).stream, (h.opened ho).complete⟩,
      fun hn => (h.closed hn).grow rfl rfl List.prefix_rfl⟩
  | closure => exact closure_step h he.1 he.2.1
  | close =>
    refine ⟨h.defined, h.flag, h.numbers, h.outside, nofun, fun _ => ?_⟩
    by_cases hopen : s.isOpen = true
    · exact ((h.opened hopen).toClosed h.nodup).grow rfl rfl List.prefix_rfl
    · exact (h.closed (by simpa using hopen)).grow rfl rfl List.prefix_rfl

theorem invariant_reachable
    (h : (machine outbounds).Execution (fun _ e => FramableCalls e) initial s) : Invariant s :=
  h.invariant invariant_initial fun _ _ _ hi he hc => invariant_step hi he hc

/-! ## The stream -/

/-- The stream is the frames of `whole`, with at most a part of one more behind them: of the
frame that is being written, while the channel is open. Of what one thread calls in the
pipeline, and of what it calls outside, the first frames are whole, in order. While the channel
is open every call is whole, being written or posted. -/
structure FramesWhole (s : State) : Prop where
  defined : s.undefined = false
  stream : ∃ cut, s.stream = s.whole.flatMap Call.frame ++ cut ∧
    (cut = [] ∨ ∃ c ∈ s.calls, c ∉ s.whole ∧ cut <+: c.frame ∧
      (s.isOpen = true → c ∈ s.current))
  once : s.whole.Nodup
  ordered : ∀ σ, bySource σ s.whole <+: bySource σ s.calls
  complete : s.isOpen = true →
    (s.whole ++ s.current ++ s.posted.map Closure.call).Perm s.calls

theorem Invariant.ordered (h : Invariant s) (σ : Thread × Bool) :
    bySource σ s.whole <+: bySource σ s.calls := by
  by_cases hopen : s.isOpen = true
  · exact (h.opened hopen).ordered σ
  · exact (h.closed (by simpa using hopen)).ordered σ

theorem Invariant.once (h : Invariant s) : s.whole.Nodup := by
  apply List.nodup_iff_count_le_one.mpr
  intro c
  have hcount (cs : List Call) : (bySource c.source cs).count c = cs.count c :=
    List.count_filter (by simp)
  calc s.whole.count c = (bySource c.source s.whole).count c := (hcount _).symm
    _ ≤ (bySource c.source s.calls).count c := (h.ordered c.source).sublist.count_le c
    _ = s.calls.count c := hcount _
    _ ≤ 1 := List.nodup_iff_count_le_one.mp h.nodup c

theorem Invariant.framesWhole (h : Invariant s) : FramesWhole s := by
  refine ⟨h.defined, ?_, h.once, h.ordered, fun hopen => (h.opened hopen).perm⟩
  by_cases hopen : s.isOpen = true
  · obtain ⟨cut, hstream, hpart⟩ := (h.opened hopen).cut h.nodup
    refine ⟨cut, hstream, hpart.imp_right ?_⟩
    rintro ⟨c, hc, hnot, hprefix, hcurrent⟩
    exact ⟨c, hc, hnot, hprefix, fun _ => hcurrent⟩
  · obtain ⟨cut, hstream, hpart⟩ := (h.closed (by simpa using hopen)).stream
    refine ⟨cut, hstream, hpart.imp_right ?_⟩
    rintro ⟨c, hc, hnot, hprefix⟩
    exact ⟨c, hc, hnot, hprefix, fun hop => absurd hop hopen⟩

/-- In every run the frames are whole, and what a filter makes of a payload is the same bytes
wherever it stands. -/
theorem frames_whole
    (h : (machine outbounds).Execution (fun _ e => FramableCalls e) initial s) :
    FramesWhole s ∧ ∀ buf, Framable buf → ∀ outbound inPipeline,
      ∃ bufs, filterDoWrite outbound inPipeline buf = some bufs ∧
        bufs.flatMap contents = frameOf buf := by
  refine ⟨(invariant_reachable h).framesWhole, fun buf hbuf outbound inPipeline => ?_⟩
  obtain ⟨bufs, hbufs, hframe, -⟩ := hbuf.filterDoWrite_frame outbound inPipeline
  exact ⟨bufs, hbufs, hframe⟩

theorem framable_threeBytes : Framable threeBytes :=
  ⟨⟨rfl, by decide, by decide, by decide, by decide⟩, by decide⟩

/-- Another thread posts a frame between the two parts of one. -/
def postedBetween : List Step :=
  [.enter, .call .loop threeBytes, .write, .call (.other 0) threeBytes, .write, .leave, .closure]

theorem frames_whole_postedBetween :
    (machine 0).Execution (fun _ e => FramableCalls e) initial
        ((machine 0).runTrace initial postedBetween) ∧
      FramesWhole ((machine 0).runTrace initial postedBetween) := by
  have hvalid : (machine 0).ValidTrace (fun _ e => e ∈ postedBetween) initial postedBetween := by
    decide +kernel
  have hcalls : ∀ e ∈ postedBetween, FramableCalls e := by
    simp [postedBetween, FramableCalls, framable_threeBytes]
  have hrun := hvalid.execution.mono fun _ e he => hcalls e he
  exact ⟨hrun, (frames_whole hrun).1⟩

/-! ## Out of order, and too long -/

/-- The write position of a buffer of 2^31 bytes moves backwards and wraps. -/
theorem write_tooLong {n : Nat} (hlow : 2147483648 ≤ n) (hhigh : n < 2147483652)
    (src : List UInt8) (hsrc : 4 ≤ src.length) :
    ∃ moved bytes, bytes.length = n ∧ (ofSize n).write src 4 =
      some (moved, ⟨some ⟨1, n, bytes⟩, ⟨0, 18446744069414584320 + n⟩⟩) := by
  have hbytes : (alloc n).bytes.length = (alloc n).capacity := alloc_bytes_length (by omega)
  have hcap : (alloc n).capacity = n := by
    have hfind : allocSizeTable.find? (fun m => decide (n ≤ m)) = none := by
      simp only [List.find?_eq_none, decide_eq_true_eq]
      intro m hm
      have := allocSizeTable_le hm
      omega
    simp [alloc, hfind]
  have hspace : (ofSize n).space = n := by
    simp only [space, ofSize, capacity_mk, hcap, toSize]
    omega
  have hmove : toSize (((0 : Nat) : Int) + min (toInt ((4 : Nat) : Int)) (toInt n)) =
      18446744069414584320 + n := by
    simp only [toInt, toSize]
    omega
  have hpos : 0 ≤ toInt ((4 : Nat) : Int) := by decide
  have hcopy : copyIn (alloc n).bytes 0 src 4 = some (src.take 4 ++ (alloc n).bytes.drop 4) := by
    rw [copyIn, if_pos ⟨hsrc, by omega⟩, List.take_zero, List.nil_append, Nat.zero_add]
  refine ⟨toSize (min (toInt ((4 : Nat) : Int)) (toInt n)), src.take 4 ++ (alloc n).bytes.drop 4,
    ?_, ?_⟩
  · rw [List.length_append, List.length_take, List.length_drop]
    omega
  · have hafter : space ⟨some ⟨1, n, src.take 4 ++ (alloc n).bytes.drop 4⟩, ⟨0, 0⟩⟩ = n := by
      simp only [space, capacity_mk, toSize]
      omega
    simp only [write, hspace, Nat.min_eq_left (show 4 ≤ n by omega), Option.pure_def,
      Option.bind_eq_bind]
    simp only [ofSize, Option.bind_some, hcopy, wrPtr, if_pos hpos, alloc_refcount, hcap, hafter,
      hmove]

theorem filterDoWrite_tooLong {buf : ByteBuffer} {outbound inPipeline : Bool}
    (hpipe : (!outbound && inPipeline) = false) (hlow : 2147483644 ≤ buf.length)
    (hhigh : buf.length < 2147483648) : filterDoWrite outbound inPipeline buf = none := by
  cases hblock : buf.block with
  | none => simp [filterDoWrite, fromReadPosition, hblock]
  | some k =>
    have hsize : toSize ((buf.length : Int) + (sizeOfSizeType : Nat)) = buf.length + 4 := by
      unfold toSize sizeOfSizeType
      omega
    obtain ⟨moved, bytes, hbytes, hwrite⟩ := write_tooLong (n := buf.length + 4) (by omega)
      (by omega) (leBytes (toInt buf.length)) (Nat.le_refl 4)
    have hheader : (ofSize (buf.length + 4)).write (leBytes (toInt buf.length)) sizeOfSizeType =
        some (moved, ⟨some ⟨1, buf.length + 4, bytes⟩,
          ⟨0, 18446744069414584320 + (buf.length + 4)⟩⟩) := hwrite
    have hcopy (off m : Nat) (src : List UInt8) (h : bytes.length < off + m) :
        copyIn bytes off src m = none := if_neg fun hc => by omega
    have hpayload (src : List UInt8) : write
        ⟨some ⟨1, buf.length + 4, bytes⟩, ⟨0, 18446744069414584320 + (buf.length + 4)⟩⟩ src
        buf.length = none := by
      simp only [write, Option.bind_eq_bind, Option.bind_some]
      rw [hcopy _ _ _ (by omega)]
      rfl
    simp [filterDoWrite, fromReadPosition, hblock, hpipe, hsize, hheader, hpayload]

/-- A payload of 2^31 - 4 zeros. -/
def longPayload : ByteBuffer :=
  ⟨some ⟨1, 2147483644, List.replicate 2147483644 0⟩, ⟨0, 2147483644⟩⟩

theorem sendable_longPayload : Sendable longPayload := by
  refine ⟨rfl, fun k hk => ?_, by decide, by decide, by decide⟩
  obtain rfl := Option.some.inj hk
  exact Nat.le_of_eq List.length_replicate.symm

/-- The run-loop thread calls outside of the pipeline, which posts the frame, and then inside,
which writes it. And of a payload of 2^31 - 4 bytes no combined frame can be made. -/
theorem loopCalls_not_in_order :
    (∃ s, (machine 0).Execution (fun _ e => FramableCalls e) initial s ∧
      ¬ s.whole.Pairwise fun c d => c.thread = d.thread → c.number < d.number) ∧
    ¬ ∀ buf, Sendable buf → ∀ outbound inPipeline,
      ∃ bufs, filterDoWrite outbound inPipeline buf = some bufs ∧
        bufs.flatMap contents = frameOf buf := by
  let trace : List Step := [.call .loop threeBytes, .enter, .call .loop threeBytes, .write,
    .write, .leave, .closure]
  refine ⟨⟨(machine 0).runTrace initial trace, ?_, by decide +kernel⟩, fun hall => ?_⟩
  · have hvalid : (machine 0).ValidTrace (fun _ e => e ∈ trace) initial trace := by
      decide +kernel
    have hcalls : ∀ e ∈ trace, FramableCalls e := by
      simp [trace, FramableCalls, framable_threeBytes]
    exact hvalid.execution.mono fun _ e he => hcalls e he
  · obtain ⟨bufs, hbufs, -⟩ := hall longPayload sendable_longPayload true false
    rw [filterDoWrite_tooLong rfl (by decide) (by decide)] at hbufs
    exact absurd hbufs (by simp)

end FilterFrames
