import Tcode.PipelineRemoval

/-! # Life-cycle events in the chain

An event goes from filter to filter because each override passes it on, by a direct call
on the run-loop thread and by a closure elsewhere. `timeout_filter` does not pass on the
open event.
-/
namespace PipelineEvents

open SupportLinkedList PipelineChain PipelineInsertion PipelineRemoval

variable {ι : Type*}

/-- The filters of the library that change no data, and `size_filter`. -/
inductive Kind where
  | filter
  | sizeFilter
  | timeoutFilter
  deriving DecidableEq, Repr

inductive Event where
  | onOpen
  | onError
  | onClose
  deriving DecidableEq, Repr

structure World (ι : Type*) where
  pipeline : Pipeline ι
  kind : ι → Kind
  /-- Whether `_timer` is set. -/
  timer : ι → Bool
  /-- `FLAG_IN_PIPELINE`. -/
  flag : Bool
  /-- The references that are taken on the channel. -/
  references : Nat
  fired : List ι
  cancelled : List ι
  delivered : List (ι × Event)
  posted : List (ι × Event)

def World.inPipeline (onLoop : Bool) (s : World ι) : Bool := onLoop && s.flag

def World.deliver (s : World ι) (f : ι) (e : Event) : World ι :=
  { s with delivered := s.delivered ++ [(f, e)] }

/-- `filter::fire_filter_on_open`, `_error` and `_close`, with the overloads of the pipeline. -/
def fireInbound (onLoop : Bool) (filterOn : World ι → ι → Option (World ι)) (s : World ι)
    (e : Event) (f : ι) : Option (World ι) :=
  match (s.pipeline.filters f).inbound with
  | none => some s
  | some g =>
    if s.inPipeline onLoop then filterOn s g
    else some { s with references := s.references + 1, posted := s.posted ++ [(g, e)] }

variable {s t : World ι} {kind : ι → Kind} {pipeline : Pipeline ι} {e : Event} {f x : ι}
  {chain xs : List ι} {n : Nat}

/-- Only deliveries of the one event are added. -/
def Appends (e : Event) (s t : World ι) : Prop :=
  ∃ seen : List ι, t.delivered = s.delivered ++ seen.map (·, e)

theorem fireInbound_appends {next : World ι → ι → Option (World ι)}
    (hnext : ∀ s f t, next s f = some t → Appends e s t)
    (h : fireInbound true next s e f = some t) : Appends e s t := by
  unfold fireInbound at h
  split at h
  · cases h
    exact ⟨[], by simp⟩
  · split at h
    · exact hnext _ _ _ h
    · cases h
      exact ⟨[], by simp⟩

def Kind.forwards (e : Event) (k : Kind) : Bool := !(k = .timeoutFilter ∧ e = .onOpen)

theorem reached_onError : reached (fun f => (kind f).forwards .onError) chain = chain := by
  rw [reached_eq_iff]
  simp [Kind.forwards]

theorem reached_onClose : reached (fun f => (kind f).forwards .onClose) chain = chain := by
  rw [reached_eq_iff]
  simp [Kind.forwards]

theorem reached_onOpen_iff : reached (fun f => (kind f).forwards .onOpen) chain = chain ↔
    ∀ f ∈ chain.dropLast, kind f ≠ .timeoutFilter := by
  rw [reached_eq_iff]
  simp [Kind.forwards]

theorem close_behind_open {before after : List (ι × Event)}
    (h : chain.map (·, Event.onOpen) ++ chain.map (·, .onError) ++ chain.map (·, .onClose) =
      before ++ (f, .onClose) :: after) : (f, .onOpen) ∈ before := by
  have hmem : (f, Event.onClose) ∈ chain.map (·, Event.onOpen) ++ chain.map (·, .onError) ++
      chain.map (·, .onClose) := h ▸ by simp
  have hf : f ∈ chain := by simpa using hmem
  rw [List.append_assoc] at h
  rcases List.append_eq_append_iff.mp h with ⟨rest, hbefore, -⟩ | ⟨rest, hopen, hrest⟩
  · rw [hbefore]
    exact List.mem_append_left _ (List.mem_map_of_mem hf)
  · cases rest with
    | nil =>
      rw [List.append_nil] at hopen
      rw [← hopen]
      exact List.mem_map_of_mem hf
    | cons d rest =>
      have hd : d ∈ chain.map (·, Event.onOpen) := hopen ▸ by simp
      obtain ⟨g, -, rfl⟩ := List.mem_map.mp hd
      simp at hrest

variable [DecidableEq ι]

/-- `timeout_filter::filter_on_open`: the timer is fired, the event goes no further. -/
def timeoutFilterOnOpen (s : World ι) (f : ι) : World ι :=
  { s with
    timer := Function.update s.timer f true
    fired := s.fired ++ [f]
    references := s.references + 1 }

/-- `_timer->cancel()` in `timeout_filter::filter_on_close`. -/
def timeoutFilterOnClose (s : World ι) (f : ι) : Option (World ι) :=
  if s.timer f then some { s with cancelled := s.cancelled ++ [f] } else none

/-- `filter_on_open`, `_error` and `_close` of a filter; nothing if a null timer is used
or the rounds do not suffice. -/
def filterOn (onLoop : Bool) (e : Event) : Nat → World ι → ι → Option (World ι)
  | 0, _, _ => none
  | n + 1, s, f =>
    match e, s.kind f with
    | .onOpen, .timeoutFilter => some (timeoutFilterOnOpen (s.deliver f e) f)
    | .onClose, .timeoutFilter => do
      let s ← timeoutFilterOnClose (s.deliver f e) f
      fireInbound onLoop (filterOn onLoop e n) s e f
    | _, _ => fireInbound onLoop (filterOn onLoop e n) (s.deliver f e) e f

/-- `if ( _inbound ) _inbound->filter_on_...`. -/
def callFirst (onLoop : Bool) (n : Nat) (s : World ι) (e : Event) : Option (World ι) :=
  match s.pipeline.inbound with
  | none => some s
  | some f => filterOn onLoop e n s f

/-- What the channel calls; the holder sets the flag first and flips it last. -/
def fireFilterOn (onLoop : Bool) (n : Nat) (s : World ι) (e : Event) : Option (World ι) := do
  let s ← callFirst onLoop n { s with flag := true } e
  return { s with flag := !s.flag }

/-- Open, error and close, as a channel fires them on its run-loop thread. -/
def lifeCycle (n : Nat) (s : World ι) : Option (World ι) := do
  let s ← fireFilterOn true n s .onOpen
  let s ← fireFilterOn true n s .onError
  fireFilterOn true n s .onClose

def start (pipeline : Pipeline ι) (kind : ι → Kind) : World ι where
  pipeline := pipeline
  kind := kind
  timer _ := false
  flag := false
  references := 0
  fired := []
  cancelled := []
  delivered := []
  posted := []

/-- Every event comes to every filter once, in the order of the chain. -/
structure Delivers (n : Nat) (s : World ι) (chain : List ι) : Prop where
  ends : (lifeCycle n s).isSome
  delivered : ∀ t ∈ lifeCycle n s, t.delivered =
    chain.map (·, .onOpen) ++ chain.map (·, .onError) ++ chain.map (·, .onClose)
  openFirst : ∀ t ∈ lifeCycle n s, ∀ before f after,
    t.delivered = before ++ (f, .onClose) :: after → (f, .onOpen) ∈ before

/-! ## One event -/

/-- What one event leaves behind when it has come to the filters `seen`. -/
structure Passed (e : Event) (s t : World ι) (seen : List ι) : Prop where
  pipeline : t.pipeline = s.pipeline
  kind : t.kind = s.kind
  flag : t.flag = s.flag
  delivered : t.delivered = s.delivered ++ seen.map (·, e)
  timer : ∀ f, t.timer f = true ↔
    s.timer f = true ∨ e = .onOpen ∧ f ∈ seen ∧ s.kind f = .timeoutFilter

theorem Passed.cons {u : World ι} (h : Passed e s t [x]) (k : Passed e t u xs) :
    Passed e s u (x :: xs) := by
  constructor
  · rw [k.pipeline, h.pipeline]
  · rw [k.kind, h.kind]
  · rw [k.flag, h.flag]
  · rw [k.delivered, h.delivered]
    simp
  · intro f
    rw [k.timer, h.timer, h.kind, List.mem_singleton, List.mem_cons, or_assoc]
    tauto

/-- The call of one filter, apart from passing the event on. -/
theorem filterOn_step (htimer : e = .onClose → s.kind x = .timeoutFilter → s.timer x = true) :
    ∃ t, Passed e s t [x] ∧ filterOn true e (n + 1) s x =
      if (s.kind x).forwards e then fireInbound true (filterOn true e n) t e x else some t := by
  have hplain (hkeep : ¬ (e = .onOpen ∧ s.kind x = .timeoutFilter)) :
      Passed e s (s.deliver x e) [x] := by
    refine ⟨rfl, rfl, rfl, rfl, fun f => ?_⟩
    rw [List.mem_singleton]
    refine ⟨Or.inl, fun h => h.resolve_right ?_⟩
    rintro ⟨he, rfl, hk⟩
    exact hkeep ⟨he, hk⟩
  cases e with
  | onError => exact ⟨_, hplain (by simp), by simp [filterOn, Kind.forwards]⟩
  | onOpen =>
    cases hkind : s.kind x with
    | filter => exact ⟨_, hplain (by simp [hkind]), by simp [filterOn, hkind, Kind.forwards]⟩
    | sizeFilter => exact ⟨_, hplain (by simp [hkind]), by simp [filterOn, hkind, Kind.forwards]⟩
    | timeoutFilter =>
      refine ⟨timeoutFilterOnOpen (s.deliver x .onOpen) x, ⟨rfl, rfl, rfl, rfl, fun f => ?_⟩, ?_⟩
      · by_cases hf : f = x
        · simp [timeoutFilterOnOpen, hf, hkind]
        · simp [timeoutFilterOnOpen, World.deliver, hf]
      · simp [filterOn, hkind, Kind.forwards]
  | onClose =>
    cases hkind : s.kind x with
    | filter => exact ⟨_, hplain (by simp), by simp [filterOn, hkind, Kind.forwards]⟩
    | sizeFilter => exact ⟨_, hplain (by simp), by simp [filterOn, hkind, Kind.forwards]⟩
    | timeoutFilter =>
      have htimer' : (s.deliver x .onClose).timer x = true := htimer rfl hkind
      have hdelivered := hplain (by simp)
      refine ⟨{ s.deliver x .onClose with cancelled := s.cancelled ++ [x] },
        ⟨rfl, rfl, rfl, rfl, hdelivered.timer⟩, ?_⟩
      simp [filterOn, hkind, Kind.forwards, timeoutFilterOnClose, htimer']
      rfl

/-- An event on the run-loop thread comes to all filters up to the first that keeps it. -/
theorem filterOn_spec {p : Option ι} (h : Segment s.pipeline.links p (x :: xs) none)
    (hflag : s.flag = true) (hn : xs.length < n)
    (htimer : e = .onClose → ∀ f ∈ x :: xs, s.kind f = .timeoutFilter → s.timer f = true) :
    ∃ t, filterOn true e n s x = some t ∧
      Passed e s t (reached (fun f => (s.kind f).forwards e) (x :: xs)) := by
  induction xs generalizing n s p x with
  | nil =>
    cases n with
    | zero => exact absurd hn (Nat.not_lt_zero _)
    | succ n =>
      obtain ⟨t, hpassed, hstep⟩ :=
        filterOn_step (n := n) (htimer · x List.mem_cons_self)
      have hnext : (t.pipeline.filters x).inbound = none := by
        rw [hpassed.pipeline]
        exact h.2.1
      refine ⟨t, ?_, ?_⟩
      · rw [hstep]
        by_cases hf : (s.kind x).forwards e
        · simp [hf, fireInbound, hnext]
        · simp [hf]
      · simpa [reached] using hpassed
  | cons y xs ih =>
    cases n with
    | zero => exact absurd hn (Nat.not_lt_zero _)
    | succ n =>
      obtain ⟨t, hpassed, hstep⟩ :=
        filterOn_step (n := n) (htimer · x List.mem_cons_self)
      have hnext : (t.pipeline.filters x).inbound = some y := by
        rw [hpassed.pipeline]
        exact h.2.1
      have hlength : xs.length < n := by simpa using hn
      by_cases hf : (s.kind x).forwards e
      · have htimer' : e = .onClose → ∀ f ∈ y :: xs,
            t.kind f = .timeoutFilter → t.timer f = true := by
          intro he f hmem hkind
          rw [hpassed.kind] at hkind
          exact (hpassed.timer f).mpr (Or.inl (htimer he f (List.mem_cons_of_mem _ hmem) hkind))
        obtain ⟨u, hrest, hpassed'⟩ :=
          ih (hpassed.pipeline ▸ h.2.2) (hpassed.flag.trans hflag) hlength htimer'
        refine ⟨u, ?_, ?_⟩
        · have hin : t.inPipeline true = true := by
            simp [World.inPipeline, hpassed.flag, hflag]
          rw [hstep, if_pos hf]
          simpa [fireInbound, hnext, hin] using hrest
        · rw [reached, if_pos hf]
          rw [hpassed.kind] at hpassed'
          exact hpassed.cons hpassed'
      · refine ⟨t, by rw [hstep, if_neg hf], ?_⟩
        rw [reached, if_neg hf]
        exact hpassed

/-- The life cycle is begun by a channel whose pipeline is laid out. -/
theorem fireFilterOn_spec (h : Linked s.pipeline.links chain)
    (hin : s.pipeline.inbound = chain.head?) (hflag : s.flag = false) (hn : chain.length ≤ n)
    (htimer : e = .onClose → ∀ f ∈ chain, s.kind f = .timeoutFilter → s.timer f = true) :
    ∃ t, fireFilterOn true n s e = some t ∧
      Passed e s t (reached (fun f => (s.kind f).forwards e) chain) := by
  cases chain with
  | nil =>
    have hnone : s.pipeline.inbound = none := hin
    refine ⟨s, ?_, rfl, rfl, rfl, by simp [reached], by simp [reached]⟩
    simp [fireFilterOn, callFirst, hnone, ← hflag]
  | cons x xs =>
    have hsome : s.pipeline.inbound = some x := hin
    obtain ⟨t, hfire, hpassed⟩ := filterOn_spec (s := { s with flag := true }) h.segment rfl
      (Nat.lt_of_succ_le hn) htimer
    refine ⟨{ t with flag := !t.flag }, ?_, hpassed.pipeline, hpassed.kind, ?_,
      hpassed.delivered, hpassed.timer⟩
    · simp [fireFilterOn, callFirst, hsome, hfire]
    · rw [hpassed.flag, hflag]
      rfl

theorem filterOn_appends (h : filterOn true e n s x = some t) : Appends e s t := by
  induction n generalizing s t x with
  | zero => simp [filterOn] at h
  | succ n ih =>
    have hmore {u : World ι} (hu : u.delivered = s.delivered ++ [(x, e)])
        (hfire : fireInbound true (filterOn true e n) u e x = some t) : Appends e s t := by
      obtain ⟨seen, hseen⟩ := fireInbound_appends (fun _ _ _ => ih) hfire
      exact ⟨x :: seen, by simp [hseen, hu]⟩
    unfold filterOn at h
    split at h
    · cases h
      exact ⟨[x], rfl⟩
    · obtain ⟨u, hcancel, hfire⟩ := Option.bind_eq_some_iff.mp h
      rw [timeoutFilterOnClose] at hcancel
      split at hcancel
      · cases hcancel
        exact hmore rfl hfire
      · cases hcancel
    · exact hmore rfl h

theorem fireFilterOn_appends (h : fireFilterOn true n s e = some t) : Appends e s t := by
  unfold fireFilterOn at h
  obtain ⟨u, hcall, hu⟩ := Option.bind_eq_some_iff.mp h
  cases hu
  unfold callFirst at hcall
  split at hcall
  · cases hcall
    exact ⟨[], by simp⟩
  · have hu : Appends e { s with flag := true } u := filterOn_appends hcall
    exact hu

/-! ## The three events -/

theorem lifeCycle_iff (h : Linked pipeline.links chain) (hin : pipeline.inbound = chain.head?)
    (hn : chain.length ≤ n) :
    Delivers n (start pipeline kind) chain ↔ ∀ f ∈ chain.dropLast, kind f ≠ .timeoutFilter := by
  obtain ⟨s, hopen, hs⟩ := fireFilterOn_spec (s := start pipeline kind) (e := .onOpen) h hin rfl
    hn nofun
  have hlinked : Linked s.pipeline.links chain := hs.pipeline ▸ h
  obtain ⟨t, herror, ht⟩ := fireFilterOn_spec (e := .onError) hlinked (hs.pipeline ▸ hin) hs.flag
    hn nofun
  have hlife : lifeCycle n (start pipeline kind) = fireFilterOn true n t .onClose := by
    simp [lifeCycle, hopen, herror]
  have hkind : t.kind = kind := ht.kind.trans hs.kind
  have hsame : t.pipeline = pipeline := ht.pipeline.trans hs.pipeline
  have hdelivered : t.delivered = (reached (fun f => (kind f).forwards .onOpen) chain).map
      (·, .onOpen) ++ chain.map (·, .onError) := by
    rw [ht.delivered, hs.delivered, reached_onError]
    rfl
  rw [← reached_onOpen_iff]
  constructor
  · intro hall
    obtain ⟨u, hclose⟩ := Option.isSome_iff_exists.mp hall.ends
    obtain ⟨seen, hseen⟩ := fireFilterOn_appends (hlife ▸ hclose)
    have hall' := hall.delivered u hclose
    rw [hseen, hdelivered] at hall'
    have hcount := congrArg (List.countP (fun d => d.2 = .onOpen)) hall'
    simp [List.countP_map, Function.comp_def] at hcount
    exact (reached_sublist _).eq_of_length hcount
  · intro hreached
    have htimer : Event.onClose = .onClose → ∀ f ∈ chain, t.kind f = .timeoutFilter →
        t.timer f = true := by
      intro _ f hf hk
      rw [hkind] at hk
      rw [ht.timer, hs.timer]
      have hf' : f ∈ reached (fun f => (kind f).forwards .onOpen) chain := hreached.symm ▸ hf
      exact Or.inl (Or.inr ⟨rfl, hf', hk⟩)
    have hlinked' : Linked t.pipeline.links chain := hsame ▸ h
    obtain ⟨u, hclose, hu⟩ := fireFilterOn_spec (e := .onClose) hlinked' (hsame ▸ hin)
      (ht.flag.trans hs.flag) hn htimer
    have hlast : u.delivered = chain.map (·, .onOpen) ++ chain.map (·, .onError) ++
        chain.map (·, .onClose) := by
      rw [hu.delivered, hdelivered, hreached, reached_onClose]
    rw [← hlife] at hclose
    refine ⟨hclose ▸ rfl, ?_, ?_⟩
    · intro v hv
      obtain rfl : u = v := Option.some.inj (hclose.symm.trans hv)
      exact hlast
    · intro v hv before f after hsplit
      obtain rfl : u = v := Option.some.inj (hclose.symm.trans hv)
      exact close_behind_open (hlast ▸ hsplit)

theorem valid_add (chain fs : List ι) (hnd : (chain ++ fs).Nodup) : Valid chain (fs.map .add) ∧
    order chain (fs.map .add) = chain ++ fs ∧ NeverAtFront chain (fs.map Insertion.add) := by
  induction fs generalizing chain with
  | nil => exact ⟨trivial, by simp [order], trivial⟩
  | cons f fs ih =>
    have hsplit : chain ++ f :: fs = (chain ++ [f]) ++ fs := by simp
    have hf : f ∉ chain := fun hmem =>
      (List.nodup_append.mp hnd).2.2 f hmem f List.mem_cons_self rfl
    obtain ⟨hvalid, horder, hfront⟩ := ih (chain ++ [f]) (hsplit ▸ hnd)
    exact ⟨⟨⟨hf, by rintro base ⟨⟩⟩, hvalid⟩, by rw [hsplit, ← horder]; rfl, ⟨id, hfront⟩⟩

/-- In a pipeline built by `add`, the three events come to all filters exactly when every
filter in front of another one passes the open event on. -/
theorem delivers_iff {fs : List ι} (hnd : fs.Nodup) (hn : fs.length ≤ n) :
    ∃ pipeline, build n .new (fs.map .add) = some pipeline ∧
      (Delivers n (start pipeline kind) fs ↔ ∀ f ∈ fs.dropLast, kind f ≠ .timeoutFilter) := by
  obtain ⟨hvalid, horder, hfront⟩ := valid_add [] fs hnd
  obtain ⟨s, hbuild, hlaid, hhead⟩ := laid_build laid_new hvalid (n := n) (by simpa using hn)
  rw [List.nil_append] at horder
  rw [horder] at hlaid hhead
  exact ⟨s, hbuild, lifeCycle_iff hlaid.linked (hhead.mpr ⟨rfl, hfront⟩) hn⟩

theorem delivers_iff_behind_size_filter :
    let kind (f : Nat) : Kind := if f = 0 then .sizeFilter else .timeoutFilter
    ∃ pipeline, build 2 .new [.add 0, .add 1] = some pipeline ∧
      Delivers 2 (start pipeline kind) [0, 1] := by
  intro kind
  obtain ⟨pipeline, hbuild, hiff⟩ :=
    delivers_iff (n := 2) (show [0, 1].Nodup by decide) (Nat.le_refl _)
  exact ⟨pipeline, hbuild, hiff.mpr (by decide)⟩

/-- With a `timeout_filter` in front of another filter. -/
theorem timeout_filter_first_not_delivers :
    ¬ ∀ (kind : Nat → Kind) (fs : List Nat) (n : Nat) (pipeline : Pipeline Nat), fs.Nodup →
      fs.length ≤ n → build n .new (fs.map .add) = some pipeline →
      Delivers n (start pipeline kind) fs := by
  intro h
  obtain ⟨hvalid, horder, hfront⟩ := valid_add [] [0, 1] (by decide)
  obtain ⟨s, hbuild, hlaid, hhead⟩ := laid_build laid_new hvalid (n := 2) (Nat.le_refl _)
  have hdelivers := h (fun _ => .timeoutFilter) [0, 1] 2 s (by decide) (Nat.le_refl _) hbuild
  rw [horder] at hlaid hhead
  have hcond := (lifeCycle_iff hlaid.linked (hhead.mpr ⟨rfl, hfront⟩) (Nat.le_refl _)).mp hdelivers
  exact hcond 0 (by decide) rfl

end PipelineEvents
