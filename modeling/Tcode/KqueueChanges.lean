import Tcode.KqueueMachine

/-! # The registration changes of the kqueue multiplexer
-/
namespace KqueueMachine

open EpollMachine (DescriptorId OperationId)
open SupportChangeBatch SupportHistory SupportReferenceCount SupportTransitionSystem

variable {s t : State} {d e : DescriptorId} {f g : Filter} {c : Change} {fs : List Filter}
  {p : Position} {done : OperationId → Bool}

/-! ## What is to be kept -/

def IsOpen (s : State) (d : DescriptorId) : Prop := d < s.made ∧ (s.descs d).fd ≠ -1

instance (s : State) (d : DescriptorId) : Decidable (IsOpen s d) :=
  inferInstanceAs (Decidable (_ ∧ _))

/-- The change belongs to an open descriptor. -/
def Live (s : State) (c : Change) : Prop := ∃ d, c.udata = some d ∧ IsOpen s d

/-- From `s` to `t` the changes are applied: none of an open descriptor is left out, and its
filters are enabled for the queues that are not empty. A descriptor has the filters that its
`bind` has queued a change for. -/
structure Keeps (s t : State) : Prop where
  applied : (format s.files).AllApplied (Live s) s.knotes s.changes
  enabled : ∀ d f, IsOpen t d → f ∉ (t.descs d).binding → (t.descs d).opQueue f ≠ [] →
    t.knotes ((t.descs d).fd, f) = some ⟨true, some d⟩

/-- In front of the changes of open descriptors, those of closed ones can be applied; and events
are handled for open descriptors whose `bind` has returned. -/
def Clean (s : State) : Event → Prop
  | .apply _ => ∀ pre c post, s.changes = pre ++ c :: post →
    (∃ d, c.udata = some d ∧ ¬ IsOpen s d) → (∃ x ∈ post, Live s x) →
      (format s.files).Accepted s.knotes pre c
  | .event ev _ _ _ _ => ∀ d, ev.udata = some d → IsOpen s d ∧ (s.descs d).binding = []
  | _ => True

/-! ## The invariant -/

def Task.desc : Task → Option DescriptorId
  | .op _ => none
  | .dispatch _ d _ => some d
  | .unbind d => some d

def Position.tasks : Position → List Task
  | .events _ _ _ => []
  | .drain ops _ => ops

def Frame.tasks : Frame → List Task
  | .within p => p.tasks
  | .changing _ _ p => p.tasks
  | _ => []

/-- The closures that wait, wherever they are. -/
def pending (s : State) : List Task := s.postings ++ (s.frame.tasks ++ s.opQueue)

/-- The loop thread is about to queue a change of the filter. -/
def Frame.Changes (d : DescriptorId) (f : Filter) : Frame → Prop
  | .changing e fs _ => e = d ∧ f ∈ fs
  | _ => False

/-- The filter has to be enabled. -/
def Wanted (s : State) (d : DescriptorId) (f : Filter) : Prop :=
  (s.descs d).opQueue f ≠ [] ∧ ¬ s.frame.Changes d f

/-- What decides over the filter of an open descriptor: the last of its changes in the batch, or
its knote if there is none. -/
inductive Settled (s : State) (d : DescriptorId) (f : Filter) : Prop where
  | queued (pre : List Change) (c : Change) (post : List Change)
      (changes : s.changes = pre ++ c :: post) (udata : c.udata = some d) (filter : c.filter = f)
      (last : ∀ x ∈ post, ¬ (x.udata = some d ∧ x.filter = f))
      (enables : Wanted s d f → c.flags ≠ .disable)
  | registered (b : Bool) (knote : s.knotes ((s.descs d).fd, f) = some ⟨b, some d⟩)
      (unchanged : ∀ c ∈ s.changes, ¬ (c.ident = (s.descs d).fd ∧ c.filter = f))
      (enables : Wanted s d f → b = true)

/-- The change can be applied when its descriptor is open. -/
def Prepared (s : State) (pre : List Change) (c : Change) : Prop :=
  ∀ d, c.udata = some d → IsOpen s d → c.flags = .add ∨
    (∃ a ∈ pre, a.ident = c.ident ∧ a.filter = c.filter) ∨
    (s.knotes ((s.descs d).fd, c.filter)).isSome = true

/-- Once an open descriptor has queued a change, only its own have its number. -/
def After (s : State) (a b : Change) : Prop :=
  ∀ d, a.udata = some d → IsOpen s d → b.ident = (s.descs d).fd → b.udata = some d

/-- The descriptor's `bind` has returned. -/
def Bound (s : State) (d : DescriptorId) : Prop := d < s.made ∧ (s.descs d).binding = []

structure Invariant (s : State) : Prop where
  files : ∀ d, IsOpen s d → s.files (s.descs d).fd = true ∧ (s.descs d).fd ≠ s.wakeUp
  pipe : s.files s.wakeUp = true
  distinct : ∀ d e, IsOpen s d → IsOpen s e → (s.descs d).fd = (s.descs e).fd → d = e
  ident : ∀ c ∈ s.changes, ∀ d, c.udata = some d →
    d < s.made ∧ (IsOpen s d → c.ident = (s.descs d).fd)
  pipeChange : ∀ c ∈ s.changes, c.udata = none → c.ident = s.wakeUp ∧ c.flags = .add
  order : s.changes.Pairwise (After s)
  prepared : Justified (Prepared s) s.changes
  settled : ∀ d f, IsOpen s d → f ∉ (s.descs d).binding → Settled s d f
  held : ∀ d, s.held d = true → Bound s d
  closures : ∀ a ∈ pending s, ∀ d, a.desc = some d → Bound s d
  changing : ∀ d fs p, s.frame = .changing d fs p → Bound s d

theorem invariant_initial (wakeUp : Int) : Invariant (initial wakeUp) where
  files d hd := absurd hd.1 (Nat.not_lt_zero d)
  pipe := decide_eq_true rfl
  distinct d _ hd := absurd hd.1 (Nat.not_lt_zero d)
  ident c hc d hd := by
    obtain rfl := List.mem_singleton.mp hc
    cases hd
  pipeChange c hc _ := by
    obtain rfl := List.mem_singleton.mp hc
    exact ⟨rfl, rfl⟩
  order := List.pairwise_singleton ..
  prepared := by
    intro pre c post heq d hd
    have hin : c ∈ (initial wakeUp).changes := by
      rw [heq]
      exact List.mem_append_right _ List.mem_cons_self
    obtain rfl := List.mem_singleton.mp hin
    cases hd
  settled d _ hd := absurd hd.1 (Nat.not_lt_zero d)
  held := nofun
  closures := nofun
  changing := nofun

/-! ## Steps that change nothing of this -/

/-- Files, knotes, changes and what a descriptor is known by are the same. -/
structure Same (s t : State) : Prop where
  wakeUp : t.wakeUp = s.wakeUp
  files : t.files = s.files
  knotes : t.knotes = s.knotes
  changes : t.changes = s.changes
  made : t.made = s.made
  descs : ∀ d, (t.descs d).fd = (s.descs d).fd ∧ (t.descs d).binding = (s.descs d).binding

theorem Same.refl : Same s s := ⟨rfl, rfl, rfl, rfl, rfl, fun _ => ⟨rfl, rfl⟩⟩

theorem Same.trans {u : State} (h : Same s t) (k : Same t u) : Same s u where
  wakeUp := k.wakeUp.trans h.wakeUp
  files := k.files.trans h.files
  knotes := k.knotes.trans h.knotes
  changes := k.changes.trans h.changes
  made := k.made.trans h.made
  descs d := ⟨(k.descs d).1.trans (h.descs d).1, (k.descs d).2.trans (h.descs d).2⟩

theorem Same.isOpen_iff (h : Same s t) : IsOpen t d ↔ IsOpen s d := by
  rw [IsOpen, IsOpen, h.made, (h.descs d).1]

theorem Same.bound_iff (h : Same s t) : Bound t d ↔ Bound s d := by
  rw [Bound, Bound, h.made, (h.descs d).2]

theorem Settled.of_same (h : Settled s d f) (hsame : Same s t)
    (hwanted : Wanted t d f → Wanted s d f) : Settled t d f := by
  cases h with
  | queued pre c post changes udata filter last enables =>
    exact .queued pre c post (hsame.changes.trans changes) udata filter last
      fun hw => enables (hwanted hw)
  | registered b knote unchanged enables =>
    refine .registered b ?_ ?_ fun hw => enables (hwanted hw)
    · rw [hsame.knotes, (hsame.descs d).1]
      exact knote
    · rw [hsame.changes, (hsame.descs d).1]
      exact unchanged

theorem Invariant.of_same (h : Invariant s) (hsame : Same s t)
    (hwanted : ∀ d f, Wanted t d f → Wanted s d f)
    (hheld : ∀ d, t.held d = true → Bound s d)
    (hclosures : ∀ a ∈ pending t, ∀ d, a.desc = some d → Bound s d)
    (hchanging : ∀ d fs p, t.frame = .changing d fs p → Bound s d) : Invariant t := by
  have hfd (d : DescriptorId) : (t.descs d).fd = (s.descs d).fd := (hsame.descs d).1
  constructor
  · intro d hd
    rw [hsame.files, hsame.wakeUp, hfd]
    exact h.files d (hsame.isOpen_iff.mp hd)
  · rw [hsame.files, hsame.wakeUp]
    exact h.pipe
  · intro d e hd he
    rw [hfd, hfd]
    exact h.distinct d e (hsame.isOpen_iff.mp hd) (hsame.isOpen_iff.mp he)
  · intro c hc d hd
    rw [hsame.made, hfd, hsame.isOpen_iff]
    exact h.ident c (hsame.changes ▸ hc) d hd
  · intro c hc
    rw [hsame.wakeUp]
    exact h.pipeChange c (hsame.changes ▸ hc)
  · rw [hsame.changes]
    refine h.order.imp fun hab d ha hd hb => ?_
    rw [hfd] at hb
    exact hab d ha (hsame.isOpen_iff.mp hd) hb
  · rw [hsame.changes]
    refine h.prepared.mono fun pre c hc d hudata hd => ?_
    rw [hsame.knotes, hfd]
    exact hc d hudata (hsame.isOpen_iff.mp hd)
  · intro d f hd hf
    rw [(hsame.descs d).2] at hf
    exact (h.settled d f (hsame.isOpen_iff.mp hd) hf).of_same hsame (hwanted d f)
  · exact fun d hd => hsame.bound_iff.mpr (hheld d hd)
  · exact fun a ha d hd => hsame.bound_iff.mpr (hclosures a ha d hd)
  · exact fun d fs p hp => hsame.bound_iff.mpr (hchanging d fs p hp)

/-! ## A change is queued -/

/-- `t` has one more change, of the filter `f` of `d`. -/
structure Queues (s t : State) (d : DescriptorId) (f : Filter) (flags : Flags) : Prop where
  wakeUp : t.wakeUp = s.wakeUp
  files : t.files = s.files
  knotes : t.knotes = s.knotes
  changes : t.changes = s.changes ++ [⟨(s.descs d).fd, f, flags, some d⟩]
  made : t.made = s.made
  fds : ∀ e, (t.descs e).fd = (s.descs e).fd
  binding : ∀ e g, g ∈ (s.descs e).binding → g ∈ (t.descs e).binding ∨ e = d ∧ g = f

/-- Only an open descriptor itself has its number. -/
theorem Invariant.own (h : Invariant s) (hd : d < s.made) (he : IsOpen s e)
    (hfd : (s.descs d).fd = (s.descs e).fd) : d = e :=
  h.distinct d e ⟨hd, fun hclosed => he.2 (hfd ▸ hclosed)⟩ he hfd

section Queues

variable {flags : Flags} (hq : Queues s t d f flags)
include hq

theorem Queues.isOpen_iff : IsOpen t e ↔ IsOpen s e := by
  rw [IsOpen, IsOpen, hq.made, hq.fds]

theorem Queues.bound (h : Bound s e) (hbinding : (t.descs e).binding = []) : Bound t e :=
  ⟨hq.made ▸ h.1, hbinding⟩

theorem Queues.settled (h : Invariant s) (hd : d < s.made)
    (henables : Wanted t d f → flags ≠ .disable)
    (hwanted : ∀ e g, ¬ (e = d ∧ g = f) → Wanted t e g → Wanted s e g)
    (he : IsOpen s e) (hg : g ∉ (t.descs e).binding) : Settled t e g := by
  by_cases heq : e = d ∧ g = f
  · obtain ⟨rfl, rfl⟩ := heq
    exact .queued s.changes ⟨(s.descs e).fd, g, flags, some e⟩ [] hq.changes rfl rfl nofun henables
  · have hbinding : g ∉ (s.descs e).binding := fun hin => (hq.binding e g hin).elim hg heq
    cases h.settled e g he hbinding with
    | queued pre c post changes udata filter last enables =>
      refine .queued pre c (post ++ [⟨(s.descs d).fd, f, flags, some d⟩]) ?_ udata filter ?_
        fun hw => enables (hwanted e g heq hw)
      · rw [hq.changes, changes, List.append_assoc, List.cons_append]
      · intro x hx
        rcases List.mem_append.mp hx with hx | hx
        · exact last x hx
        · obtain rfl := List.mem_singleton.mp hx
          rintro ⟨hudata, hfilter⟩
          exact heq ⟨(Option.some.inj hudata).symm, hfilter.symm⟩
    | registered b knote unchanged enables =>
      refine .registered b ?_ ?_ fun hw => enables (hwanted e g heq hw)
      · rw [hq.knotes, hq.fds]
        exact knote
      · intro x hx
        rw [hq.fds]
        rw [hq.changes] at hx
        rcases List.mem_append.mp hx with hx | hx
        · exact unchanged x hx
        · obtain rfl := List.mem_singleton.mp hx
          rintro ⟨hident, hfilter⟩
          exact heq ⟨(h.own hd he hident).symm, hfilter.symm⟩

theorem Queues.invariant (h : Invariant s) (hd : d < s.made)
    (hprepared : flags = .add ∨ f ∉ (s.descs d).binding)
    (henables : Wanted t d f → flags ≠ .disable)
    (hwanted : ∀ e g, ¬ (e = d ∧ g = f) → Wanted t e g → Wanted s e g)
    (hheld : ∀ d, t.held d = true → Bound t d)
    (hclosures : ∀ a ∈ pending t, ∀ d, a.desc = some d → Bound t d)
    (hchanging : ∀ d fs p, t.frame = .changing d fs p → Bound t d) : Invariant t := by
  constructor
  · intro e he
    rw [hq.files, hq.wakeUp, hq.fds]
    exact h.files e (hq.isOpen_iff.mp he)
  · rw [hq.files, hq.wakeUp]
    exact h.pipe
  · intro x y hx hy
    rw [hq.fds, hq.fds]
    exact h.distinct x y (hq.isOpen_iff.mp hx) (hq.isOpen_iff.mp hy)
  · intro x hx e he
    rw [hq.changes] at hx
    rw [hq.made, hq.fds, hq.isOpen_iff]
    rcases List.mem_append.mp hx with hx | hx
    · exact h.ident x hx e he
    · obtain rfl := List.mem_singleton.mp hx
      obtain rfl := Option.some.inj he
      exact ⟨hd, fun _ => rfl⟩
  · intro x hx hnone
    rw [hq.changes] at hx
    rw [hq.wakeUp]
    rcases List.mem_append.mp hx with hx | hx
    · exact h.pipeChange x hx hnone
    · obtain rfl := List.mem_singleton.mp hx
      cases hnone
  · rw [hq.changes, List.pairwise_append]
    refine ⟨h.order.imp ?_, List.pairwise_singleton .., ?_⟩
    · intro a b hab e ha he hb
      rw [hq.fds] at hb
      exact hab e ha (hq.isOpen_iff.mp he) hb
    · intro a _ b hb e _ he hident
      obtain rfl := List.mem_singleton.mp hb
      rw [hq.fds] at hident
      rw [h.own hd (hq.isOpen_iff.mp he) hident]
  · rw [hq.changes, justified_snoc]
    constructor
    · refine h.prepared.mono fun pre c hc e hudata he => ?_
      rw [hq.knotes, hq.fds]
      exact hc e hudata (hq.isOpen_iff.mp he)
    · intro e hudata he
      obtain rfl := Option.some.inj hudata
      rcases hprepared with hadd | hbound
      · exact Or.inl hadd
      · refine Or.inr ?_
        have hopen := hq.isOpen_iff.mp he
        cases h.settled d f hopen hbound with
        | queued pre c post changes udata filter last enables =>
          have hin : c ∈ s.changes := by
            rw [changes]
            exact List.mem_append_right _ List.mem_cons_self
          exact Or.inl ⟨c, hin, (h.ident c hin d udata).2 hopen, filter⟩
        | registered b knote unchanged enables =>
          refine Or.inr ?_
          rw [hq.knotes, hq.fds, knote]
          rfl
  · exact fun e g he hg => hq.settled h hd henables hwanted (hq.isOpen_iff.mp he) hg
  · exact hheld
  · exact hclosures
  · exact hchanging

end Queues

theorem invariant_bind (h : Invariant s) (hd : d < s.made)
    (hbinding : (s.descs d).binding = f :: fs) : Invariant (bindChange s d f fs) := by
  have hself : (bindChange s d f fs).descs d = { s.descs d with binding := fs } := setDesc_self ..
  have hother (e : DescriptorId) (he : e ≠ d) : (bindChange s d f fs).descs e = s.descs e :=
    setDesc_ne he
  have hq : Queues s (bindChange s d f fs) d f .add := by
    refine ⟨rfl, rfl, rfl, rfl, rfl, fun e => ?_, fun e g hg => ?_⟩
    · by_cases he : e = d
      · rw [he, hself]
      · rw [hother e he]
    · by_cases he : e = d
      · subst he
        rw [hbinding] at hg
        rw [hself]
        exact (List.mem_cons.mp hg).elim (fun heq => Or.inr ⟨rfl, heq⟩) Or.inl
      · rw [hother e he]
        exact Or.inl hg
  have hqueue (e : DescriptorId) :
      ((bindChange s d f fs).descs e).opQueue = (s.descs e).opQueue := by
    by_cases he : e = d
    · rw [he, hself]
    · rw [hother e he]
  have hbound (e : DescriptorId) (he : Bound s e) : Bound (bindChange s d f fs) e := by
    refine hq.bound he ?_
    by_cases hed : e = d
    · have hnone := he.2
      rw [hed, hbinding] at hnone
      cases hnone
    · rw [hother e hed]
      exact he.2
  apply hq.invariant h hd (Or.inl rfl) (fun _ => nofun)
  · rintro e g - ⟨hne, hcalm⟩
    exact ⟨hqueue e ▸ hne, hcalm⟩
  · intro e he
    by_cases hfs : fs = []
    · have heq : (bindChange s d f fs).held = Function.update s.held d true := if_pos hfs
      rw [heq] at he
      by_cases hed : e = d
      · subst hed
        refine ⟨hd, ?_⟩
        rw [hself, hfs]
      · rw [Function.update_of_ne hed] at he
        exact hbound e (h.held e he)
    · have heq : (bindChange s d f fs).held = s.held := if_neg hfs
      rw [heq] at he
      exact hbound e (h.held e he)
  · exact fun a ha e he => hbound e (h.closures a ha e he)
  · exact fun e fs p hp => hbound e (h.changing e fs p hp)

theorem invariant_change (h : Invariant s) (hframe : s.frame = .changing d (f :: fs) p) :
    Invariant (next s (.change d f fs p)) := by
  have hbound := h.changing d _ p hframe
  have hq : Queues s (next s (.change d f fs p)) d f
      (if ((s.descs d).opQueue f).isEmpty then .disable else .enable) :=
    ⟨rfl, rfl, rfl, rfl, rfl, fun _ => rfl, fun _ _ hg => Or.inl hg⟩
  apply hq.invariant h hbound.1 (Or.inr (by simp [hbound.2]))
  · rintro ⟨hne, -⟩
    have hempty : ((s.descs d).opQueue f).isEmpty = false := by
      rw [← Bool.not_eq_true, List.isEmpty_iff]
      exact hne
    simp [hempty]
  · rintro e g hother ⟨hne, hcalm⟩
    refine ⟨hne, ?_⟩
    rw [hframe]
    rintro ⟨rfl, hin⟩
    rcases List.mem_cons.mp hin with rfl | hin
    · exact hother ⟨rfl, rfl⟩
    · exact hcalm ⟨rfl, hin⟩
  · exact h.held
  · intro a ha
    apply h.closures a
    have hpending : pending (next s (.change d f fs p)) = pending s := by
      rw [pending, pending, hframe]
      rfl
    exact hpending ▸ ha
  · intro e fs' p' hp
    obtain ⟨rfl, -, -⟩ := Frame.changing.inj hp
    exact hbound

/-! ## The changes are applied -/

/-- Nothing of an open descriptor is left out, exactly if what stands in front of it can be
applied. -/
theorem Invariant.allApplied_iff_clean (h : Invariant s) (returned : Int) :
    (format s.files).AllApplied (Live s) s.knotes s.changes ↔ Clean s (.apply returned) := by
  rw [allApplied_iff]
  constructor
  · rintro hall pre c post hsplit - ⟨x, hx, hlive⟩
    exact hall pre c post hsplit ⟨x, List.mem_cons_of_mem _ hx, hlive⟩
  · rintro hclean pre c post hsplit ⟨x, hx, hlive⟩
    have hin : c ∈ s.changes := by
      rw [hsplit]
      exact List.mem_append_right _ List.mem_cons_self
    cases hudata : c.udata with
    | none =>
      obtain ⟨hident, hadd⟩ := h.pipeChange c hin hudata
      refine ⟨?_, Or.inl (decide_eq_true hadd)⟩
      show s.files c.ident = true
      rw [hident]
      exact h.pipe
    | some d =>
      by_cases hopen : IsOpen s d
      · have hident := (h.ident c hin d hudata).2 hopen
        refine ⟨?_, ?_⟩
        · show s.files c.ident = true
          rw [hident]
          exact (h.files d hopen).1
        · rcases h.prepared pre c post hsplit d hudata hopen with
            hadd | ⟨a, ha, hident', hfilter⟩ | hsome
          · exact Or.inl (decide_eq_true hadd)
          · exact Or.inr (Or.inr ⟨a, ha, Prod.ext hident' hfilter⟩)
          · refine Or.inr (Or.inl ?_)
            show (s.knotes (c.ident, c.filter)).isSome = true
            rw [hident]
            exact hsome
      · apply hclean pre c post hsplit ⟨d, hudata, hopen⟩
        rcases List.mem_cons.mp hx with rfl | hx
        · obtain ⟨e, he, hlive⟩ := hlive
          obtain rfl := Option.some.inj (hudata.symm.trans he)
          exact absurd hlive hopen
        · exact ⟨x, hx, hlive⟩

/-- The knote of an open descriptor, once the changes are applied. -/
theorem Invariant.knote (h : Invariant s)
    (hall : (format s.files).AllApplied (Live s) s.knotes s.changes) (hd : IsOpen s d)
    (hf : f ∉ (s.descs d).binding) :
    ∃ b, (applyChanges s).knotes ((s.descs d).fd, f) = some ⟨b, some d⟩ ∧
      (Wanted s d f → b = true) := by
  cases h.settled d f hd hf with
  | queued pre c post changes udata filter last enables =>
    have hin : c ∈ s.changes := by
      rw [changes]
      exact List.mem_append_right _ List.mem_cons_self
    have hident := (h.ident c hin d udata).2 hd
    have horder := h.order
    rw [changes, List.pairwise_append] at horder
    rw [changes] at hall
    have hresult := result_last hall ⟨d, udata, hd⟩ fun x hx hkey => by
      have hafter := (List.pairwise_cons.mp horder.2.1).1 x hx
      have hkeys := Prod.mk.inj hkey
      exact last x hx ⟨hafter d udata hd (hkeys.1.trans hident), hkeys.2.trans filter⟩
    rw [← changes] at hresult
    refine ⟨decide (c.flags ≠ .disable), ?_, fun hw => decide_eq_true (enables hw)⟩
    rw [← hident, ← filter, ← udata]
    exact hresult
  | registered b knote unchanged enables =>
    refine ⟨b, ?_, enables⟩
    refine (result_of_forall_ne fun c hc hkey => ?_).trans knote
    exact unchanged c hc (Prod.mk.inj hkey)

theorem Invariant.keeps (h : Invariant s) {returned : Int} (hframe : s.frame = .idle returned)
    (hclean : Clean s (.apply returned)) : Keeps s (applyChanges s) := by
  have hall := (h.allApplied_iff_clean returned).mpr hclean
  refine ⟨hall, fun d f hd hf hne => ?_⟩
  obtain ⟨b, hknote, hb⟩ := h.knote hall hd hf
  have hwanted : Wanted s d f := by
    refine ⟨hne, ?_⟩
    rw [hframe]
    exact id
  rw [hb hwanted] at hknote
  exact hknote

theorem invariant_apply (h : Invariant s) {returned : Int} (hframe : s.frame = .idle returned)
    (hclean : Clean s (.apply returned)) : Invariant (applyChanges s) := by
  have hall := (h.allApplied_iff_clean returned).mpr hclean
  refine ⟨h.files, h.pipe, h.distinct, nofun, nofun, List.Pairwise.nil, justified_nil, ?_, h.held,
    ?_, nofun⟩
  · intro d f hd hf
    obtain ⟨b, hknote, hb⟩ := h.knote hall hd hf
    refine .registered b hknote nofun fun hw => hb ⟨hw.1, ?_⟩
    rw [hframe]
    exact id
  · intro a ha
    apply h.closures a
    rw [pending, hframe]
    exact ha

/-! ## Files are opened and closed -/

section Create

variable {fd : Int} {connect : Option OperationId}

theorem created_self : (descriptorCreate s fd connect).descs s.made =
    ⟨fd, fun f => if f = .write then connect.toList else [], .new, [.read, .write]⟩ :=
  setDesc_self ..

theorem created_other (he : e ≠ s.made) : (descriptorCreate s fd connect).descs e = s.descs e :=
  setDesc_ne he

theorem isOpen_of_created (he : e ≠ s.made) (h : IsOpen (descriptorCreate s fd connect) e) :
    IsOpen s e := by
  obtain ⟨hlt, hopen⟩ := h
  rw [created_other he] at hopen
  exact ⟨Nat.lt_of_le_of_ne (Nat.le_of_lt_succ hlt) he, hopen⟩

theorem bound_created (h : Bound s e) : Bound (descriptorCreate s fd connect) e := by
  refine ⟨Nat.lt_succ_of_lt h.1, ?_⟩
  rw [created_other (Nat.ne_of_lt h.1)]
  exact h.2

theorem settled_created (he : e ≠ s.made) (h : Settled s e f) :
    Settled (descriptorCreate s fd connect) e f := by
  have hwanted (hw : Wanted (descriptorCreate s fd connect) e f) : Wanted s e f := by
    rw [Wanted, created_other he] at hw
    exact hw
  cases h with
  | queued pre c post changes udata filter last enables =>
    exact .queued pre c post changes udata filter last fun hw => enables (hwanted hw)
  | registered b knote unchanged enables =>
    refine .registered b ?_ ?_ fun hw => enables (hwanted hw)
    · rw [created_other he]
      exact knote
    · rw [created_other he]
      exact unchanged

variable (h : Invariant s) (hfree : s.files fd = false)
include h hfree

theorem fd_ne_of_free (he : IsOpen s e) : (s.descs e).fd ≠ fd := by
  rintro rfl
  rw [(h.files e he).1] at hfree
  cases hfree

theorem distinct_created {x y : DescriptorId} (hx : IsOpen (descriptorCreate s fd connect) x)
    (hy : IsOpen (descriptorCreate s fd connect) y)
    (hxy : ((descriptorCreate s fd connect).descs x).fd =
      ((descriptorCreate s fd connect).descs y).fd) : x = y := by
  by_cases hxm : x = s.made
  · by_cases hym : y = s.made
    · rw [hxm, hym]
    · rw [hxm, created_self, created_other hym] at hxy
      exact absurd hxy.symm (fd_ne_of_free h hfree (isOpen_of_created hym hy))
  · by_cases hym : y = s.made
    · rw [hym, created_self, created_other hxm] at hxy
      exact absurd hxy (fd_ne_of_free h hfree (isOpen_of_created hxm hx))
    · rw [created_other hxm, created_other hym] at hxy
      exact h.distinct x y (isOpen_of_created hxm hx) (isOpen_of_created hym hy) hxy

theorem invariant_create : Invariant (descriptorCreate s fd connect) := by
  have hwakeUp : fd ≠ s.wakeUp := by
    rintro rfl
    rw [h.pipe] at hfree
    cases hfree
  have hfiles : (descriptorCreate s fd connect).files = Function.update s.files fd true := rfl
  constructor
  · intro e he
    by_cases hed : e = s.made
    · rw [hed, created_self, hfiles]
      exact ⟨Function.update_self .., hwakeUp⟩
    · have hopen := isOpen_of_created hed he
      rw [created_other hed, hfiles, Function.update_of_ne (fd_ne_of_free h hfree hopen)]
      exact h.files e hopen
  · exact (Function.update_of_ne (Ne.symm hwakeUp) ..).trans h.pipe
  · exact fun x y hx hy hxy => distinct_created h hfree hx hy hxy
  · intro c hc e he
    obtain ⟨hlt, hident⟩ := h.ident c hc e he
    refine ⟨Nat.lt_succ_of_lt hlt, fun hopen => ?_⟩
    rw [created_other (Nat.ne_of_lt hlt)]
    exact hident (isOpen_of_created (Nat.ne_of_lt hlt) hopen)
  · exact h.pipeChange
  · refine h.order.imp_of_mem fun {a b} ha _ hab e he hopen hident => ?_
    have hne := Nat.ne_of_lt (h.ident a ha e he).1
    rw [created_other hne] at hident
    exact hab e he (isOpen_of_created hne hopen) hident
  · intro pre c post hsplit e he hopen
    have hin : c ∈ s.changes := by
      rw [show s.changes = _ from hsplit]
      exact List.mem_append_right _ List.mem_cons_self
    have hne := Nat.ne_of_lt (h.ident c hin e he).1
    rw [created_other hne]
    exact h.prepared pre c post hsplit e he (isOpen_of_created hne hopen)
  · intro e g he hg
    have hed : e ≠ s.made := by
      rintro rfl
      rw [created_self] at hg
      cases g <;> simp at hg
    rw [created_other hed] at hg
    exact settled_created hed (h.settled e g (isOpen_of_created hed he) hg)
  · exact fun e he => bound_created (h.held e he)
  · exact fun a ha e he => bound_created (h.closures a ha e he)
  · exact fun e fs p hp => bound_created (h.changing e fs p hp)

end Create

/-- Only the file `fd` is opened or closed. No descriptor that is still open has it. -/
structure Touches (s t : State) (fd : Int) : Prop where
  wakeUp : t.wakeUp = s.wakeUp
  notPipe : fd ≠ s.wakeUp
  files : ∀ n, n ≠ fd → t.files n = s.files n
  knotes : ∀ n f, n ≠ fd → t.knotes (n, f) = s.knotes (n, f)
  changes : t.changes = s.changes
  made : t.made = s.made
  binding : ∀ d, (t.descs d).binding = (s.descs d).binding
  opens : ∀ d, IsOpen t d →
    IsOpen s d ∧ (s.descs d).fd ≠ fd ∧ (t.descs d).fd = (s.descs d).fd

theorem Touches.bound_iff {fd : Int} (ht : Touches s t fd) : Bound t d ↔ Bound s d := by
  rw [Bound, Bound, ht.made, ht.binding]

theorem Touches.invariant {fd : Int} (ht : Touches s t fd) (h : Invariant s)
    (hwanted : ∀ d f, Wanted t d f → Wanted s d f)
    (hheld : ∀ d, t.held d = true → Bound s d)
    (hclosures : ∀ a ∈ pending t, ∀ d, a.desc = some d → Bound s d)
    (hchanging : ∀ d fs p, t.frame = .changing d fs p → Bound s d) : Invariant t := by
  constructor
  · intro d hd
    obtain ⟨hopen, hne, hfd⟩ := ht.opens d hd
    rw [hfd, ht.files _ hne, ht.wakeUp]
    exact h.files d hopen
  · rw [ht.wakeUp, ht.files _ (Ne.symm ht.notPipe)]
    exact h.pipe
  · intro x y hx hy hxy
    obtain ⟨hx, -, hxfd⟩ := ht.opens x hx
    obtain ⟨hy, -, hyfd⟩ := ht.opens y hy
    rw [hxfd, hyfd] at hxy
    exact h.distinct x y hx hy hxy
  · intro c hc d hd
    obtain ⟨hlt, hident⟩ := h.ident c (ht.changes ▸ hc) d hd
    refine ⟨ht.made ▸ hlt, fun hopen => ?_⟩
    obtain ⟨hopen, -, hfd⟩ := ht.opens d hopen
    rw [hfd]
    exact hident hopen
  · intro c hc
    rw [ht.wakeUp]
    exact h.pipeChange c (ht.changes ▸ hc)
  · rw [ht.changes]
    refine h.order.imp fun hab d hd hopen hident => ?_
    obtain ⟨hopen, -, hfd⟩ := ht.opens d hopen
    exact hab d hd hopen (hident.trans hfd)
  · rw [ht.changes]
    refine h.prepared.mono fun pre c hc d hudata hopen => ?_
    obtain ⟨hopen, hne, hfd⟩ := ht.opens d hopen
    rw [hfd, ht.knotes _ _ hne]
    exact hc d hudata hopen
  · intro d f hopen hf
    obtain ⟨hopen, hne, hfd⟩ := ht.opens d hopen
    rw [ht.binding] at hf
    cases h.settled d f hopen hf with
    | queued pre c post changes udata filter last enables =>
      exact .queued pre c post (ht.changes.trans changes) udata filter last
        fun hw => enables (hwanted d f hw)
    | registered b knote unchanged enables =>
      refine .registered b ?_ ?_ fun hw => enables (hwanted d f hw)
      · rw [hfd, ht.knotes _ _ hne]
        exact knote
      · rw [ht.changes, hfd]
        exact unchanged
  · exact fun d hd => ht.bound_iff.mpr (hheld d hd)
  · exact fun a ha d hd => ht.bound_iff.mpr (hclosures a ha d hd)
  · exact fun d fs p hp => ht.bound_iff.mpr (hchanging d fs p hp)

theorem touches_file {fd : Int} {isOpen : Bool} (hev : Enabled s (.file fd isOpen)) :
    Touches s (next s (.file fd isOpen)) fd := by
  obtain ⟨-, hpipe, hother⟩ := hev
  cases isOpen with
  | true =>
    exact ⟨rfl, hpipe, fun n hn => Function.update_of_ne hn .., fun _ _ _ => rfl, rfl, rfl,
      fun _ => rfl, fun d hd => ⟨hd, hother d hd.1, rfl⟩⟩
  | false =>
    exact ⟨rfl, hpipe, fun n hn => Function.update_of_ne hn .., fun n _ hn => if_neg hn, rfl, rfl,
      fun _ => rfl, fun d hd => ⟨hd, hother d hd.1, rfl⟩⟩

theorem invariant_file {fd : Int} {isOpen : Bool} (h : Invariant s)
    (hev : Enabled s (.file fd isOpen)) : Invariant (next s (.file fd isOpen)) := by
  have hpending : pending (next s (.file fd isOpen)) = pending s := by
    cases isOpen <;> rfl
  have hrest : (next s (.file fd isOpen)).held = s.held ∧
      (next s (.file fd isOpen)).frame = s.frame ∧
      (next s (.file fd isOpen)).descs = s.descs := by
    cases isOpen <;> exact ⟨rfl, rfl, rfl⟩
  apply (touches_file hev).invariant h
  · intro d f hw
    rw [Wanted, hrest.2.1, hrest.2.2] at hw
    exact hw
  · rw [hrest.1]
    exact h.held
  · rw [hpending]
    exact h.closures
  · rw [hrest.2.1]
    exact h.changing

/-! ## Descriptors are released and dispatched -/

theorem same_setDesc {v : Descriptor} (hdescs : t.descs = Function.update s.descs d v)
    (hfd : v.fd = (s.descs d).fd) (hbinding : v.binding = (s.descs d).binding)
    (hrest : t.wakeUp = s.wakeUp ∧ t.files = s.files ∧ t.knotes = s.knotes ∧
      t.changes = s.changes ∧ t.made = s.made) : Same s t := by
  refine ⟨hrest.1, hrest.2.1, hrest.2.2.1, hrest.2.2.2.1, hrest.2.2.2.2, fun e => ?_⟩
  rw [hdescs]
  by_cases he : e = d
  · rw [he, Function.update_self]
    exact ⟨hfd, hbinding⟩
  · rw [Function.update_of_ne he]
    exact ⟨rfl, rfl⟩

theorem same_release : Same s (descriptorRelease s d) := by
  unfold descriptorRelease
  split
  · exact same_setDesc rfl rfl rfl ⟨rfl, rfl, rfl, rfl, rfl⟩
  · exact same_setDesc rfl rfl rfl ⟨rfl, rfl, rfl, rfl, rfl⟩

/-- A release posts operations at most, and empties queues at most. -/
theorem mem_pending_append {posted ops queue more : List Task} {a : Task}
    (ha : a ∈ posted ++ (ops ++ (queue ++ more))) : a ∈ posted ++ (ops ++ queue) ∨ a ∈ more := by
  rw [← List.append_assoc, ← List.append_assoc, List.append_assoc posted] at ha
  exact List.mem_append.mp ha

/-- A closure that the loop thread has taken was pending, as are those behind it. -/
theorem mem_pending_popped {a b : Task} {ts : List Task} {run : Int}
    (hframe : s.frame = .within (.drain (b :: ts) run))
    (ha : a ∈ s.postings ++ (b :: ts ++ s.opQueue)) : a ∈ pending s := by
  rw [pending, hframe]
  exact ha

theorem mem_pending_rest {a b : Task} {ts : List Task} {run : Int}
    (hframe : s.frame = .within (.drain (b :: ts) run))
    (ha : a ∈ s.postings ++ (ts ++ s.opQueue)) : a ∈ pending s := by
  apply mem_pending_popped hframe
  rcases List.mem_append.mp ha with ha | ha
  · exact List.mem_append_left _ ha
  · exact List.mem_append_right _ (List.mem_cons_of_mem b ha)

theorem Invariant.bound_of_popped {b : Task} {ts : List Task} {run : Int} (h : Invariant s)
    (hframe : s.frame = .within (.drain (b :: ts) run)) (hb : b.desc = some d) : Bound s d := by
  refine h.closures b (mem_pending_popped hframe ?_) d hb
  exact List.mem_append_right _ List.mem_cons_self

theorem release_rest (s : State) (d : DescriptorId) :
    (descriptorRelease s d).held = s.held ∧ (descriptorRelease s d).postings = s.postings ∧
      (descriptorRelease s d).frame = s.frame ∧
      (∃ ops, (descriptorRelease s d).opQueue = s.opQueue ++ List.map Task.op ops) ∧
      ∀ e f, ((descriptorRelease s d).descs e).opQueue f ≠ [] → (s.descs e).opQueue f ≠ [] := by
  unfold descriptorRelease
  split
  · refine ⟨rfl, rfl, rfl, ⟨_, rfl⟩, fun e f hne => ?_⟩
    by_cases he : e = d
    · subst he
      exact absurd (congrArg (Descriptor.opQueue · f) (setDesc_self ..)) hne
    · rw [show State.descs _ e = s.descs e from setDesc_ne he] at hne
      exact hne
  · refine ⟨rfl, rfl, rfl, ⟨[], (List.append_nil _).symm⟩, fun e f hne => ?_⟩
    by_cases he : e = d
    · subst he
      rw [setDesc_self] at hne
      exact hne
    · rw [setDesc_ne he] at hne
      exact hne

/-- What a release adds to the queue captures nothing. -/
theorem mem_pending_release {ops : List Task} {run : Int} {a : Task}
    (ha : a ∈ pending { descriptorRelease s d with frame := .within (.drain ops run) })
    (he : a.desc = some e) : a ∈ s.postings ++ (ops ++ s.opQueue) := by
  obtain ⟨-, hpost, -, ⟨aborted, hqueue⟩, -⟩ := release_rest s d
  have ha : a ∈ (descriptorRelease s d).postings ++
      (ops ++ (descriptorRelease s d).opQueue) := ha
  rw [hpost, hqueue] at ha
  rcases mem_pending_append ha with ha | ha
  · exact ha
  · obtain ⟨o, -, rfl⟩ := List.mem_map.mp ha
    cases he

theorem wanted_iff_of_tasks (hframe : s.frame = .within p) :
    Wanted s d f ↔ (s.descs d).opQueue f ≠ [] := by
  rw [Wanted, hframe]
  exact and_iff_left id

/-- While a descriptor is dispatched nothing is wanted of it, and for the others nothing changes. -/
theorem Invariant.dispatch (h : Invariant s) (hframe : s.frame = .within p) (hbound : Bound s d)
    (hsame : Same s t) (hheld : t.held = s.held) {q : Position}
    (ht : t.frame = .changing d [.read, .write] q)
    (hqueue : ∀ e, e ≠ d → (t.descs e).opQueue = (s.descs e).opQueue)
    (hpending : ∀ a ∈ pending t, a ∈ pending s) : Invariant t := by
  apply h.of_same hsame
  · rintro e g ⟨hne, hcalm⟩
    have hed : e ≠ d := by
      rintro rfl
      apply hcalm
      rw [ht]
      cases g <;> exact ⟨rfl, by decide⟩
    rw [wanted_iff_of_tasks hframe, ← hqueue e hed]
    exact hne
  · rw [hheld]
    exact h.held
  · exact fun a ha => h.closures a (hpending a ha)
  · intro e fs q' heq
    rw [ht] at heq
    exact (Frame.changing.inj heq).1 ▸ hbound

theorem invariant_unbindClosure {ts : List Task} {run run' : Int} (h : Invariant s)
    (hframe : s.frame = .within (.drain (.unbind d :: ts) run)) :
    Invariant { unbindClosure s d with frame := .within (.drain ts run') } := by
  have hbound : Bound s d := h.bound_of_popped hframe rfl
  have hpending {u : State} (hpostings : u.postings = s.postings) (hqueue : u.opQueue = s.opQueue) :
      ∀ a ∈ pending { descriptorRelease u d with frame := .within (.drain ts run') },
        ∀ e, a.desc = some e → Bound s e := by
    intro a ha e he
    have ha := mem_pending_release ha he
    rw [hpostings, hqueue] at ha
    exact h.closures a (mem_pending_rest hframe ha) e he
  unfold unbindClosure
  split
  · next hopen =>
    let u : State := (closeFile s (s.descs d).fd).setDesc d { s.descs d with fd := -1 }
    have hself : u.descs d = { s.descs d with fd := -1 } := setDesc_self ..
    have hother {e : DescriptorId} (he : e ≠ d) : u.descs e = s.descs e := setDesc_ne he
    obtain ⟨hheld, -, -, -, hqueue⟩ := release_rest u d
    have hsame : Same u { descriptorRelease u d with frame := .within (.drain ts run') } :=
      same_release.trans ⟨rfl, rfl, rfl, rfl, rfl, fun _ => ⟨rfl, rfl⟩⟩
    have htouch : Touches s { descriptorRelease u d with frame := .within (.drain ts run') }
        (s.descs d).fd := by
      refine ⟨hsame.wakeUp, (h.files d ⟨hbound.1, hopen⟩).2, fun n hn => ?_, fun n g hn => ?_,
        hsame.changes, hsame.made, fun e => ?_, fun e he => ?_⟩
      · rw [hsame.files]
        exact Function.update_of_ne hn ..
      · rw [hsame.knotes]
        exact if_neg hn
      · rw [(hsame.descs e).2]
        by_cases hed : e = d
        · rw [hed, hself]
        · rw [hother hed]
      · have hed : e ≠ d := by
          rintro rfl
          apply he.2
          rw [(hsame.descs e).1, hself]
        have hopen' : IsOpen s e := by
          refine ⟨hsame.made ▸ he.1, ?_⟩
          rw [← hother hed, ← (hsame.descs e).1]
          exact he.2
        refine ⟨hopen', fun heq => ?_, ?_⟩
        · exact hed (h.distinct e d hopen' ⟨hbound.1, hopen⟩ heq)
        · rw [(hsame.descs e).1, hother hed]
    apply htouch.invariant h
    · rintro e g ⟨hne, -⟩
      rw [wanted_iff_of_tasks hframe]
      have hne := hqueue e g hne
      by_cases hed : e = d
      · rw [hed] at hne ⊢
        rw [hself] at hne
        exact hne
      · rw [hother hed] at hne
        exact hne
    · intro e he
      exact h.held e (hheld ▸ he)
    · exact hpending rfl rfl
    · exact nofun
  · obtain ⟨hheld, -, -, -, hqueue⟩ := release_rest s d
    have hsame : Same s { descriptorRelease s d with frame := .within (.drain ts run') } :=
      same_release.trans ⟨rfl, rfl, rfl, rfl, rfl, fun _ => ⟨rfl, rfl⟩⟩
    apply h.of_same hsame
    · rintro e g ⟨hne, -⟩
      rw [wanted_iff_of_tasks hframe]
      exact hqueue e g hne
    · intro e he
      exact h.held e (hheld ▸ he)
    · exact hpending rfl rfl
    · exact nofun

/-- The loop thread goes from one frame to another that dispatches nothing. -/
theorem Invariant.goes (h : Invariant s) {fr : Frame} {q : List Task} {inv : List OperationId}
    (hwanted : ∀ d f, ¬ s.frame.Changes d f) (hframe : ∀ d fs p, fr ≠ .changing d fs p)
    (hpending : ∀ a ∈ fr.tasks ++ q, a ∈ s.frame.tasks ++ s.opQueue) :
    Invariant { s with frame := fr, opQueue := q, invoked := inv } := by
  have hsame : Same s { s with frame := fr, opQueue := q, invoked := inv } :=
    ⟨rfl, rfl, rfl, rfl, rfl, fun _ => ⟨rfl, rfl⟩⟩
  apply h.of_same hsame
  · exact fun d f hw => ⟨hw.1, hwanted d f⟩
  · exact h.held
  · intro a ha
    refine h.closures a ?_
    rcases List.mem_append.mp ha with ha | ha
    · exact List.mem_append_left _ ha
    · exact List.mem_append_right _ (hpending a ha)
  · exact fun d fs p hp => absurd hp (hframe d fs p)

theorem invariant_dispatchClosure {o : OperationId} {ts : List Task} {run run' : Int}
    (h : Invariant s) (hframe : s.frame = .within (.drain (.dispatch f d o :: ts) run)) :
    Invariant (opRun s done (.drain ts run') (.dispatch f d o)) := by
  have hbound : Bound s d := h.bound_of_popped hframe rfl
  have hsame : Same s (opRun s done (.drain ts run') (.dispatch f d o)) := by
    have henqueue : Same s (enqueue s f d o) := same_setDesc rfl rfl rfl ⟨rfl, rfl, rfl, rfl, rfl⟩
    exact henqueue.trans (same_setDesc rfl rfl rfl ⟨rfl, rfl, rfl, rfl, rfl⟩)
  apply h.dispatch hframe hbound hsame rfl rfl
  · intro e he
    have hdispatch : (opRun s done (.drain ts run') (.dispatch f d o)).descs e =
        (enqueue s f d o).descs e := setDesc_ne he
    rw [hdispatch, enqueue, setDesc_ne he]
  · exact fun a ha => mem_pending_rest hframe ha

theorem invariant_event {ev : Kevent} {evs : List Kevent} {executeOp : Bool} {run : Int}
    (h : Invariant s) (hframe : s.frame = .within (.events (ev :: evs) executeOp run))
    (hclean : Clean s (.event ev evs executeOp run done)) :
    Invariant (onEvent s ev evs executeOp run done) := by
  unfold onEvent
  split
  · next d hudata =>
    obtain ⟨hopen, hbinding⟩ := hclean d hudata
    have hsame : Same s { descriptorDispatch s d ev.filter done with
        frame := .changing d [.read, .write] (.events evs executeOp run) } :=
      same_setDesc rfl rfl rfl ⟨rfl, rfl, rfl, rfl, rfl⟩
    apply h.dispatch hframe ⟨hopen.1, hbinding⟩ hsame rfl rfl
    · intro e he
      exact congrArg Descriptor.opQueue (setDesc_ne he)
    · intro a ha
      rw [pending, hframe]
      exact ha
  · apply h.goes
    · rw [hframe]
      exact fun _ _ => id
    · exact fun _ _ _ => nofun
    · rw [hframe]
      exact fun _ => id

theorem invariant_dispatched (h : Invariant s) (hframe : s.frame = .changing d [] p) :
    Invariant (next s (.dispatched d p)) := by
  have hcalm (e : DescriptorId) (g : Filter) : ¬ s.frame.Changes e g := by
    rw [hframe]
    rintro ⟨-, hin⟩
    cases hin
  cases p with
  | events evs executeOp run =>
    apply h.goes hcalm
    · exact fun _ _ _ => nofun
    · rw [hframe]
      exact fun _ => id
  | drain ops run =>
    obtain ⟨hheld, -, -, -, hqueue⟩ := release_rest s d
    have hsame : Same s (next s (.dispatched d (.drain ops run))) :=
      same_release.trans ⟨rfl, rfl, rfl, rfl, rfl, fun _ => ⟨rfl, rfl⟩⟩
    apply h.of_same hsame
    · exact fun e g hw => ⟨hqueue e g hw.1, hcalm e g⟩
    · exact fun e he => h.held e (hheld ▸ he)
    · intro a ha e he
      refine h.closures a ?_ e he
      rw [pending, hframe]
      exact mem_pending_release ha he
    · exact nofun

/-- A closure is queued that captures a bound descriptor, if any. -/
theorem Invariant.adds {a : Task} (h : Invariant s) (held : DescriptorId → Bool)
    (posted : List Task) (ha : ∀ d, a.desc = some d → Bound s d)
    (hheld : ∀ d, held d = true → Bound s d) (hposted : ∀ b ∈ posted, b ∈ s.postings) :
    Invariant { s with held := held, postings := posted, opQueue := s.opQueue ++ [a] } := by
  have hsame : Same s { s with held := held, postings := posted, opQueue := s.opQueue ++ [a] } :=
    ⟨rfl, rfl, rfl, rfl, rfl, fun _ => ⟨rfl, rfl⟩⟩
  apply h.of_same hsame
  · exact fun _ _ => id
  · exact hheld
  · intro b hb e he
    have hb : b ∈ posted ++ (s.frame.tasks ++ (s.opQueue ++ [a])) := hb
    rcases mem_pending_append hb with hb | hb
    · refine h.closures b ?_ e he
      rcases List.mem_append.mp hb with hb | hb
      · exact List.mem_append_left _ (hposted b hb)
      · exact List.mem_append_right _ hb
    · obtain rfl := List.mem_singleton.mp hb
      exact ha e he
  · exact h.changing

theorem invariant_take {o : OperationId} (h : Invariant s) (hd : s.held d = true) :
    Invariant (next s (.take f d o)) := by
  have hbound := h.held d hd
  have hsame : Same s (next s (.take f d o)) :=
    same_setDesc rfl rfl rfl ⟨rfl, rfl, rfl, rfl, rfl⟩
  apply h.of_same hsame
  · rintro e g ⟨hne, hcalm⟩
    refine ⟨?_, hcalm⟩
    by_cases hed : e = d
    · subst hed
      rw [show (next s (.take f e o)).descs e = _ from setDesc_self ..] at hne
      exact hne
    · rw [show (next s (.take f d o)).descs e = _ from setDesc_ne hed] at hne
      exact hne
  · exact h.held
  · intro a ha e he
    have ha : a ∈ s.postings ++ [.dispatch f d o] ++ (s.frame.tasks ++ s.opQueue) := ha
    rw [List.append_assoc] at ha
    rcases List.mem_append.mp ha with hin | hin
    · exact h.closures a (List.mem_append_left _ hin) e he
    · rcases List.mem_cons.mp hin with rfl | hin
      · exact Option.some.inj he ▸ hbound
      · exact h.closures a (List.mem_append_right _ hin) e he
  · exact h.changing

theorem invariant_next {ev : Event} (h : Invariant s) (hev : Enabled s ev) (hclean : Clean s ev) :
    Invariant (next s ev) := by
  cases ev with
  | opens fd connect => exact invariant_create h hev.2
  | bind d f fs => exact invariant_bind h hev.1 hev.2
  | file fd isOpen => exact invariant_file h hev
  | take f d o => exact invariant_take h hev
  | post a =>
    apply h.adds s.held (s.postings.erase a)
    · exact fun d ha => h.closures a (List.mem_append_left _ hev) d ha
    · exact h.held
    · exact fun b hb => List.mem_of_mem_erase hb
  | execute o =>
    apply h.adds s.held s.postings
    · exact nofun
    · exact h.held
    · exact fun _ => id
  | unbind d =>
    apply h.adds (Function.update s.held d false) s.postings
    · exact fun e he => Option.some.inj he ▸ h.held d hev
    · intro e he
      by_cases hed : e = d
      · rw [hed]
        exact h.held d hev
      · rw [Function.update_of_ne hed] at he
        exact h.held e he
    · exact fun _ => id
  | apply returned => exact invariant_apply h hev hclean
  | kevent evs =>
    have hcalm (d : DescriptorId) (f : Filter) : ¬ s.frame.Changes d f := by
      rw [hev.1]
      exact id
    show Invariant (if evs.isEmpty then _ else _)
    split
    · apply h.goes hcalm
      · exact fun _ _ _ => nofun
      · rw [hev.1]
        exact fun _ => id
    · apply h.goes hcalm
      · exact fun _ _ _ => nofun
      · rw [hev.1]
        exact fun _ => id
  | event ev evs executeOp run done => exact invariant_event h hev hclean
  | change d f fs p => exact invariant_change h hev
  | dispatched d p => exact invariant_dispatched h hev
  | endEvents executeOp run =>
    have hcalm (d : DescriptorId) (f : Filter) : ¬ s.frame.Changes d f := by
      rw [hev]
      exact id
    cases executeOp with
    | true =>
      apply h.goes hcalm
      · exact fun _ _ _ => nofun
      · rw [hev]
        intro a ha
        rw [List.append_nil] at ha
        exact ha
    | false =>
      apply h.goes hcalm
      · exact fun _ _ _ => nofun
      · rw [hev]
        exact fun _ => id
  | closure a ts run done =>
    have hcalm (d : DescriptorId) (f : Filter) : ¬ s.frame.Changes d f := by
      rw [show s.frame = _ from hev]
      exact id
    cases a with
    | op o =>
      apply h.goes hcalm
      · exact fun _ _ _ => nofun
      · rw [show s.frame = _ from hev]
        exact fun b hb => List.mem_cons_of_mem _ hb
    | dispatch f d o => exact invariant_dispatchClosure h hev
    | unbind d => exact invariant_unbindClosure h hev
  | endRun run =>
    apply h.goes
    · rw [show s.frame = _ from hev]
      exact fun _ _ => id
    · exact fun _ _ _ => nofun
    · rw [show s.frame = _ from hev]
      exact fun _ => id

theorem invariant_run {wakeUp : Int} (h : machine.Execution Clean (initial wakeUp) s) :
    Invariant s := by
  apply System.Execution.invariant h
  · exact invariant_initial wakeUp
  · exact fun u ev _ hu hev hclean => invariant_next hu hev hclean

/-- Whenever changes are applied in a clean run, those of open descriptors are kept exactly if what
stands in front of them can be applied. -/
theorem changes_kept_iff {wakeUp returned : Int}
    (h : machine.Execution Clean (initial wakeUp) s)
    (hev : machine.Enabled s (.apply returned)) :
    Keeps s (machine.next s (.apply returned)) ↔ Clean s (.apply returned) := by
  have hinvariant := invariant_run h
  constructor
  · exact fun hkeeps => (hinvariant.allApplied_iff_clean returned).mp hkeeps.applied
  · exact fun hclean => hinvariant.keeps hev hclean

/-- No closed descriptor has changes in a batch that is applied. -/
def Undisturbed (s : State) : Event → Prop
  | .apply _ => ∀ c ∈ s.changes, ∀ d ∈ c.udata, IsOpen s d
  | .event ev _ _ _ _ => ∀ d ∈ ev.udata, IsOpen s d ∧ (s.descs d).binding = []
  | _ => True

instance (s : State) : (ev : Event) → Decidable (Undisturbed s ev)
  | .apply _ => inferInstanceAs (Decidable (∀ c ∈ s.changes, ∀ d ∈ c.udata, IsOpen s d))
  | .event ev _ _ _ _ =>
    inferInstanceAs (Decidable (∀ d ∈ ev.udata, IsOpen s d ∧ (s.descs d).binding = []))
  | .opens .. | .bind .. | .file .. | .take .. | .post _ | .execute _ | .unbind _ | .kevent _
  | .change .. | .dispatched .. | .endEvents .. | .closure .. | .endRun _ => isTrue trivial

theorem Undisturbed.clean {ev : Event} (h : Undisturbed s ev) : Clean s ev := by
  cases ev with
  | apply returned =>
    rintro pre c post hsplit ⟨d, hudata, hclosed⟩ -
    have hin : c ∈ s.changes := by
      rw [hsplit]
      exact List.mem_append_right _ List.mem_cons_self
    exact absurd (h c hin d hudata) hclosed
  | event ev evs executeOp run done => exact h
  | opens fd connect => trivial
  | bind d f fs => trivial
  | file fd isOpen => trivial
  | take f d o => trivial
  | post a => trivial
  | execute o => trivial
  | unbind d => trivial
  | kevent evs => trivial
  | change d f fs p => trivial
  | dispatched d p => trivial
  | endEvents executeOp run => trivial
  | closure a ts run done => trivial
  | endRun run => trivial

/-- A write that is not done at once. -/
theorem changes_kept_iff_write :
    let s := machine.runTrace (initial 3)
      [.opens 4 none, .bind 0 .read [.write], .bind 0 .write [], .take .write 0 7,
        .post (.dispatch .write 0 7), .apply 0, .kevent [⟨3, .read, none⟩],
        .event ⟨3, .read, none⟩ [] false 1 (fun _ => false), .endEvents true 0,
        .closure (.dispatch .write 0 7) [] 0 (fun _ => false),
        .change 0 .read [.write] (.drain [] 1), .change 0 .write [] (.drain [] 1),
        .dispatched 0 (.drain [] 1), .endRun 1]
    Keeps s (machine.next s (.apply 1)) := by
  intro s
  have hrun : machine.Execution Undisturbed (initial 3) s :=
    System.ValidTrace.execution (by decide)
  have hclean : Undisturbed s (.apply 1) := by decide
  exact (changes_kept_iff (hrun.mono fun _ _ => Undisturbed.clean) (by decide)).mpr hclean.clean

/-- A read whose closure runs after the unbind closure, and then a connect. -/
def lostRegistration : List Event :=
  [.opens 4 none, .bind 0 .read [.write], .bind 0 .write [], .take .read 0 7, .unbind 0,
    .apply 0, .kevent [⟨3, .read, none⟩],
    .event ⟨3, .read, none⟩ [] false 1 (fun _ => true), .endEvents true 0,
    .closure (.unbind 0) [] 0 (fun _ => true), .endRun 1, .post (.dispatch .read 0 7),
    .apply 1, .kevent [⟨3, .read, none⟩],
    .event ⟨3, .read, none⟩ [] false 1 (fun _ => true), .endEvents true 0,
    .closure (.dispatch .read 0 7) [] 0 (fun _ => true), .change 0 .read [.write] (.drain [] 1),
    .change 0 .write [] (.drain [] 1), .dispatched 0 (.drain [] 1), .endRun 1,
    .opens 5 (some 9), .bind 1 .read [.write], .bind 1 .write []]

/-- The changes of the connection are lost behind those of the closed descriptor. -/
theorem lostRegistration_not_kept :
    ¬ ∀ wakeUp s returned, machine.Reachable (initial wakeUp) s →
      machine.Enabled s (.apply returned) → Keeps s (machine.next s (.apply returned)) := by
  intro h
  have hrun : machine.Reachable (initial 3) (machine.runTrace (initial 3) lostRegistration) :=
    System.ValidTrace.reachable (by decide)
  have hknote := (h 3 _ 1 hrun (by decide)).enabled 1 .write (by decide) (by decide) (by decide)
  exact absurd hknote (by decide)

end KqueueMachine
