import Tcode.SupportLinkedList

/-! # The filter chain of a pipeline

The functions follow `pipeline.cpp` assignment by assignment; a loop along the chain has
a bound on its rounds and gives nothing if they do not suffice.
-/
namespace PipelineChain

open SupportLinkedList

variable {ι : Type*}

structure Filter (ι : Type*) where
  /-- Whether `_pipeline` is set. -/
  pipeline : Bool
  inbound : Option ι
  outbound : Option ι

/-- `filter::filter`. -/
def Filter.new : Filter ι := ⟨false, none, none⟩

/-- A pipeline with the filters in memory. -/
structure Pipeline (ι : Type*) where
  filters : ι → Filter ι
  /-- `_inbound`, the first filter. -/
  inbound : Option ι

namespace Pipeline

/-- `pipeline::pipeline`, and filters that were never in one. -/
def new : Pipeline ι := ⟨fun _ => .new, none⟩

def links (s : Pipeline ι) : Links ι :=
  ⟨fun f => (s.filters f).inbound, fun f => (s.filters f).outbound⟩

/-- The loop of `add` from a filter to the last one. -/
def last (s : Pipeline ι) : Nat → ι → Option ι
  | 0, _ => none
  | n + 1, f =>
    match (s.filters f).inbound with
    | none => some f
    | some g => s.last n g

/-- The filters an event comes to, where each decides whether it forwards the event. -/
def visit (s : Pipeline ι) (forwards : ι → Bool) : Nat → Option ι → Option (List ι)
  | _, none => some []
  | 0, some _ => none
  | n + 1, some f =>
    if forwards f then (s.visit forwards n (s.filters f).inbound).map (f :: ·) else some [f]

/-- `fire_filter_on_open`, `_read`, `_write`, `_error` and `_close`. -/
def fireFilterOn (s : Pipeline ι) (forwards : ι → Bool) (n : Nat) : Option (List ι) :=
  s.visit forwards n s.inbound

/-- The loop takes the next filter itself, before it calls the one at hand. -/
def fireFilterOnEndReference (s : Pipeline ι) (n : Nat) : Option (List ι) :=
  s.visit (fun _ => true) n s.inbound

theorem filters_inbound (s : Pipeline ι) (f : ι) : (s.filters f).inbound = s.links.next f := rfl

theorem filters_outbound (s : Pipeline ι) (f : ι) : (s.filters f).outbound = s.links.prev f := rfl

@[simp] theorem links_withInbound (s : Pipeline ι) (o : Option ι) :
    ({ s with inbound := o } : Pipeline ι).links = s.links := rfl

theorem last_congr {s t : Pipeline ι} (hlinks : t.links = s.links) (n : Nat) (f : ι) :
    t.last n f = s.last n f := by
  induction n generalizing f with
  | zero => rfl
  | succ n ih => simp only [last, filters_inbound, hlinks, ih]

section Update

variable [DecidableEq ι]

def setPipeline (s : Pipeline ι) (f : ι) : Pipeline ι :=
  { s with filters := Function.update s.filters f { s.filters f with pipeline := true } }

def setInbound (s : Pipeline ι) (f : ι) (g : Option ι) : Pipeline ι :=
  { s with filters := Function.update s.filters f { s.filters f with inbound := g } }

def setOutbound (s : Pipeline ι) (f : ι) (g : Option ι) : Pipeline ι :=
  { s with filters := Function.update s.filters f { s.filters f with outbound := g } }

/-- `if ( f ) f->inbound( g );`. -/
def setInboundOpt (s : Pipeline ι) : Option ι → Option ι → Pipeline ι
  | some f, g => s.setInbound f g
  | none, _ => s

/-- `if ( f ) f->outbound( g );`. -/
def setOutboundOpt (s : Pipeline ι) : Option ι → Option ι → Pipeline ι
  | some f, g => s.setOutbound f g
  | none, _ => s

def add (s : Pipeline ι) (n : Nat) (pfilter : ι) : Option (Pipeline ι) := do
  let s := s.setPipeline pfilter
  match s.inbound with
  | none => return { s with inbound := some pfilter }
  | some first =>
    let last ← s.last n first
    let s := s.setInbound last (some pfilter)
    let s := s.setInbound pfilter none
    return s.setOutbound pfilter (some last)

def addInbound (s : Pipeline ι) : Option ι → Option ι → Pipeline ι
  | some base, some pfilter =>
    let s := s.setPipeline pfilter
    let s := s.setInbound pfilter (s.filters base).inbound
    let s := s.setOutbound pfilter (some base)
    let s := s.setInbound base (some pfilter)
    s.setOutboundOpt (s.filters pfilter).inbound (some pfilter)
  | _, _ => s

def addOutbound (s : Pipeline ι) : Option ι → Option ι → Pipeline ι
  | some base, some pfilter =>
    let s := s.setPipeline pfilter
    let s := s.setInbound pfilter (some base)
    let s := s.setOutbound pfilter (s.filters base).outbound
    let s := s.setOutbound base (some pfilter)
    s.setInboundOpt (s.filters pfilter).outbound (some pfilter)
  | _, _ => s

def remove (s : Pipeline ι) : Option ι → Pipeline ι
  | none => s
  | some pfilter =>
    let inside := (s.filters pfilter).inbound
    let outside := (s.filters pfilter).outbound
    let s := s.setOutboundOpt inside outside
    let s := s.setInboundOpt outside inside
    if some pfilter = s.inbound then { s with inbound := outside } else s

/-! ## What the assignments do to the links -/

variable {s : Pipeline ι} {f g base : ι} {xs ys chain : List ι} {n : Nat}

@[simp] theorem links_setPipeline (s : Pipeline ι) (f : ι) :
    (s.setPipeline f).links = s.links := by
  have heq (x : ι) : ((s.setPipeline f).filters x).inbound = (s.filters x).inbound ∧
      ((s.setPipeline f).filters x).outbound = (s.filters x).outbound := by
    by_cases hx : x = f
    · subst hx
      simp [setPipeline]
    · simp [setPipeline, hx]
  simp only [links, (heq _).1, (heq _).2]

@[simp] theorem links_setInbound (y : Option ι) :
    (s.setInbound f y).links = s.links.setNext f y := by
  simp only [links, Links.setNext, setInbound, Links.mk.injEq]
  constructor
  · funext x
    by_cases hx : x = f
    · subst hx
      simp
    · simp [hx]
  · funext x
    by_cases hx : x = f
    · subst hx
      simp
    · simp [hx]

@[simp] theorem links_setOutbound (y : Option ι) :
    (s.setOutbound f y).links = s.links.setPrev f y := by
  simp only [links, Links.setPrev, setOutbound, Links.mk.injEq]
  constructor
  · funext x
    by_cases hx : x = f
    · subst hx
      simp
    · simp [hx]
  · funext x
    by_cases hx : x = f
    · subst hx
      simp
    · simp [hx]

@[simp] theorem setPipeline_inbound : (s.setPipeline f).inbound = s.inbound := rfl

@[simp] theorem setInbound_inbound (y : Option ι) : (s.setInbound f y).inbound = s.inbound := rfl

@[simp] theorem setOutbound_inbound (y : Option ι) :
    (s.setOutbound f y).inbound = s.inbound := rfl

@[simp] theorem setInboundOpt_inbound (o y : Option ι) :
    (s.setInboundOpt o y).inbound = s.inbound := by
  cases o <;> rfl

@[simp] theorem setOutboundOpt_inbound (o y : Option ι) :
    (s.setOutboundOpt o y).inbound = s.inbound := by
  cases o <;> rfl

@[simp] theorem links_setInboundOpt (o y : Option ι) :
    (s.setInboundOpt o y).links = tellPrev s.links o y := by
  cases o with
  | none => rfl
  | some g => exact links_setInbound y

@[simp] theorem links_setOutboundOpt (o y : Option ι) :
    (s.setOutboundOpt o y).links = tellNext s.links o y := by
  cases o with
  | none => rfl
  | some g => exact links_setOutbound y

theorem add_spec {first last : ι} (hin : s.inbound = some first)
    (hlast : s.last n first = some last) (hne : last ≠ f) :
    ∃ t, s.add n f = some t ∧ t.inbound = s.inbound ∧
      t.links = insertBetween s.links (some last) none f := by
  have hlast' : (s.setPipeline f).last n first = some last := by
    rw [last_congr (links_setPipeline s f), hlast]
  refine ⟨(((s.setPipeline f).setInbound last (some f)).setInbound f none).setOutbound f
    (some last), ?_, rfl, ?_⟩
  · simp [add, hin, hlast']
  · simp [insertBetween, tellPrev, tellNext, Links.setNext, Links.setPrev,
      Function.update_comm hne]

theorem addInbound_spec (hne : f ≠ base) :
    (s.addInbound (some base) (some f)).inbound = s.inbound ∧
      (s.addInbound (some base) (some f)).links =
        insertBetween s.links (some base) (s.links.next base) f := by
  constructor
  · simp [addInbound]
  · simp [addInbound, filters_inbound, insertBetween, tellPrev, hne]

theorem addOutbound_spec (hne : f ≠ base) :
    (s.addOutbound (some base) (some f)).inbound = s.inbound ∧
      (s.addOutbound (some base) (some f)).links =
        insertBetween s.links (s.links.prev base) (some base) f := by
  constructor
  · simp [addOutbound]
  · rw [insertBetween, ← tellPrev_tellNext]
    simp [addOutbound, filters_outbound, tellNext, hne]

theorem remove_spec :
    (s.remove (some f)).inbound = (if some f = s.inbound then s.links.prev f else s.inbound) ∧
      (s.remove (some f)).links = unlink s.links f := by
  by_cases hhead : some f = s.inbound
  · constructor
    · simp [remove, hhead, filters_outbound]
    · simp [remove, hhead, unlink, filters_inbound, filters_outbound]
  · constructor
    · simp [remove, hhead]
    · simp [remove, hhead, unlink, filters_inbound, filters_outbound]

end Update

end Pipeline

end PipelineChain
