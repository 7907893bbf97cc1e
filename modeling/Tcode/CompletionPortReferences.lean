import Mathlib.Data.List.Perm.Basic
import Tcode.CompletionPortMachine

/-! # References to descriptors of the completion port

Every operation that was started holds one reference until `run` has worked off its
completion. `ConnectEx` is started without taking one.
-/
namespace CompletionPortReferences

open SupportReferenceCount SupportTransitionSystem CompletionPortMachine

/-- The step hands a connect operation to the system. -/
def StartsConnect : Step → Prop
  | .call _ (.connect _ _ .started) => True
  | _ => False

def Frame.holds (d : DescriptorId) : Frame → Nat
  | .idle => 0
  | .completing o => if o.desc = d then 1 else 0
  | .releasing e => if e = d then 1 else 0

section Places

variable (s : State) (d : DescriptorId)

/-- The operations of the descriptor from the attempt to start them until `run` has worked
off their completion. -/
def outstanding : Nat :=
  s.attempts.countP (·.overlapped.desc = d) + s.inFlight.countP (·.desc = d) +
    Frame.holds d s.frame

def base : Nat := if (s.descs d).unbound then 0 else 1

/-- A socket or an unbind closure refers to the descriptor. -/
def Referred : Prop := (∃ k, s.sockets k = some d) ∨ .unbind d ∈ s.posted

/-- The descriptor holds its reference of the engine. -/
def owns : Bool := (s.descs d).failed || !(s.descs d).cell.deleted

inductive Account : Prop where
  | unborn (made : s.made ≤ d) (none : outstanding s d = 0) (free : ¬ Referred s d)
  | failed (made : d < s.made) (failed : (s.descs d).failed = true)
      (none : outstanding s d = 0) (free : ¬ Referred s d)
  | born (made : d < s.made) (failed : (s.descs d).failed = false)
      (held : Held (s.descs d).cell (base s d + outstanding s d))
      (free : (s.descs d).unbound = true → ¬ Referred s d)

end Places

/-- A descriptor has one owner. -/
structure Owned (s : State) : Prop where
  sockets : ∀ j k d, s.sockets j = some d → s.sockets k = some d → j = k
  closed : ∀ k d, s.sockets k = some d → .unbind d ∉ s.posted
  once : ∀ d, s.posted.count (.unbind d) ≤ 1

structure Invariant (s : State) : Prop where
  accounts : ∀ d, Account s d
  owned : Owned s
  engine : s.engine = s.posted.length + Nat.count (owns s · = true) s.made
  noFault : s.fault = false

variable {s t : State} {d e : DescriptorId} {k : SocketId}

/-! ## What an account says -/

/-- A descriptor that is in use. -/
structure Live (s : State) (d : DescriptorId) : Prop where
  made : d < s.made
  failed : (s.descs d).failed = false
  held : Held (s.descs d).cell (base s d + outstanding s d)
  total : 0 < base s d + outstanding s d
  free : (s.descs d).unbound = true → ¬ Referred s d

theorem Live.notDeleted (h : Live s d) : (s.descs d).cell.deleted = false :=
  h.held.notDeleted h.total

theorem Account.live (h : Account s d) (hpos : 0 < outstanding s d ∨ Referred s d) : Live s d := by
  cases h with
  | unborn made none free =>
    rcases hpos with hpos | href
    · omega
    · exact absurd href free
  | failed made failed none free =>
    rcases hpos with hpos | href
    · omega
    · exact absurd href free
  | born made failed held free =>
    refine ⟨made, failed, held, ?_, free⟩
    rcases hpos with hpos | href
    · omega
    · have hunbound : (s.descs d).unbound = false := by
        refine Bool.eq_false_iff.mpr fun hunbound => ?_
        exact free hunbound href
      have hbase : base s d = 1 := by
        rw [base, hunbound]
        rfl
      omega

theorem Account.moved (h : Account s d) (hmade : t.made = s.made) (hdesc : t.descs d = s.descs d)
    (hout : outstanding t d = outstanding s d) (href : Referred t d → Referred s d) :
    Account t d := by
  have hbase : base t d = base s d := by rw [base, hdesc, base]
  cases h with
  | unborn made none free => exact .unborn (hmade ▸ made) (hout.trans none) (mt href free)
  | failed made failed none free =>
    exact .failed (hmade ▸ made) (hdesc ▸ failed) (hout.trans none) (mt href free)
  | born made failed held free =>
    refine .born (hmade ▸ made) (hdesc ▸ failed) ?_ fun hunbound =>
      mt href (free (hdesc ▸ hunbound))
    rw [hbase, hout, hdesc]
    exact held

theorem owns_congr (hdesc : t.descs d = s.descs d) : owns t d = owns s d := by
  rw [owns, hdesc, owns]

/-- Nothing happens to descriptors. -/
theorem invariant_moved (h : Invariant s) (hmade : t.made = s.made) (hdescs : t.descs = s.descs)
    (hout : ∀ d, outstanding t d = outstanding s d) (href : ∀ d, Referred t d → Referred s d)
    (howned : Owned t) (hengine : t.engine + s.posted.length = s.engine + t.posted.length)
    (hfault : t.fault = false) : Invariant t := by
  have hdesc (d : DescriptorId) : t.descs d = s.descs d := by rw [hdescs]
  constructor
  · intro d
    exact (h.accounts d).moved hmade (hdesc d) (hout d) (href d)
  · exact howned
  · have hcount : Nat.count (owns t · = true) s.made = Nat.count (owns s · = true) s.made :=
      count_congr fun d _ => owns_congr (hdesc d)
    have hs := h.engine
    rw [hmade, hcount]
    omega
  · exact hfault

/-- One descriptor in use is counted anew. -/
theorem invariant_counted (h : Invariant s) (hlive : Live s d) (hmade : t.made = s.made)
    (hfailed : (t.descs d).failed = false)
    (hheld : Held (t.descs d).cell (base t d + outstanding t d))
    (hfree : (t.descs d).unbound = true → ¬ Referred t d)
    (hothers : ∀ e, e ≠ d → t.descs e = s.descs e ∧ outstanding t e = outstanding s e ∧
      (Referred t e → Referred s e))
    (howned : Owned t)
    (hengine : t.engine + s.posted.length + (t.descs d).cell.deleted.toNat =
      s.engine + t.posted.length)
    (hfault : t.fault = false) : Invariant t := by
  constructor
  · intro e
    by_cases he : e = d
    · subst he
      exact .born (hmade ▸ hlive.made) hfailed hheld hfree
    · obtain ⟨hdesc, hout, href⟩ := hothers e he
      exact (h.accounts e).moved hmade hdesc hout href
  · exact howned
  · have hs := h.engine
    have howns : owns s d = true := by
      rw [owns, hlive.notDeleted]
      simp
    rw [hmade]
    cases hdeleted : (t.descs d).cell.deleted with
    | false =>
      have hcount : Nat.count (owns t · = true) s.made = Nat.count (owns s · = true) s.made := by
        refine count_congr fun e _ => ?_
        by_cases he : e = d
        · subst he
          rw [howns, owns, hdeleted]
          simp
        · exact owns_congr (hothers e he).1
      rw [hdeleted, Bool.toNat_false] at hengine
      rw [hcount]
      omega
    | true =>
      have hless : owns t d = false := by
        rw [owns, hfailed, hdeleted]
        rfl
      have hcount := count_clear (m := s.made) hlive.made howns hless
        fun e _ he => owns_congr (hothers e he).1
      rw [hdeleted, Bool.toNat_true] at hengine
      omega
  · exact hfault

theorem owned_post_op (h : Owned s) (op : OperationId) : Owned (s.post (.op op)) := by
  constructor
  · exact h.sockets
  · intro k d hk hmem
    rcases List.mem_append.mp hmem with hmem | hmem
    · exact h.closed k d hk hmem
    · simp at hmem
  · intro d
    show (s.posted ++ [Posted.op op]).count (Posted.unbind d) ≤ 1
    rw [List.count_append]
    have honce := h.once d
    simpa using honce

theorem invariant_post_op (h : Invariant s) (op : OperationId) : Invariant (s.post (.op op)) := by
  refine invariant_moved h rfl rfl (fun _ => rfl) (fun d href => ?_) (owned_post_op h.owned op) ?_
    h.noFault
  · rcases href with hk | hmem
    · exact Or.inl hk
    · rcases List.mem_append.mp hmem with hmem | hmem
      · exact Or.inr hmem
      · simp at hmem
  · show s.engine + 1 + s.posted.length = s.engine + (s.posted ++ [Posted.op op]).length
    rw [List.length_append, List.length_singleton]
    omega

theorem Invariant.access_noFault (h : Invariant s) (hlive : Live s d) :
    (s.fault || (s.descs d).cell.deleted) = false := by
  rw [h.noFault, hlive.notDeleted]
  rfl

theorem invariant_access (h : Invariant s) (hlive : Live s d) : Invariant (s.access d) :=
  invariant_moved h rfl rfl (fun _ => rfl) (fun _ href => href)
    ⟨h.owned.sockets, h.owned.closed, h.owned.once⟩ rfl (h.access_noFault hlive)

/-! ## Taking and giving back a reference -/

theorem addRef_self : (descriptorAddRef s d).descs d =
    { s.descs d with cell := (s.descs d).cell.acquire } := Function.update_self ..

theorem addRef_other (h : e ≠ d) : (descriptorAddRef s d).descs e = s.descs e :=
  Function.update_of_ne h ..

theorem release_self : (descriptorRelease s d).descs d =
    { s.descs d with cell := (s.descs d).cell.release } := Function.update_self ..

theorem release_other (h : e ≠ d) : (descriptorRelease s d).descs e = s.descs e :=
  Function.update_of_ne h ..

/-- One operation more is outstanding. -/
theorem invariant_take (h : Invariant s) (hlive : Live s d) {attempts : List Attempt}
    (hout : ∀ e, outstanding { descriptorAddRef s d with attempts := attempts } e =
      outstanding s e + if e = d then 1 else 0) :
    Invariant { descriptorAddRef s d with attempts := attempts } := by
  have hself : ({ descriptorAddRef s d with attempts := attempts } : State).descs d =
      { s.descs d with cell := (s.descs d).cell.acquire } := addRef_self
  have hheld := hlive.held.acquire hlive.total
  have hone := hout d
  rw [if_pos rfl] at hone
  refine invariant_counted h hlive rfl ?_ ?_ ?_ ?_ ?_ ?_ ?_
  · rw [hself]
    exact hlive.failed
  · rw [base, hself, hone, ← Nat.add_assoc]
    exact hheld
  · rw [hself]
    exact hlive.free
  · intro e he
    have hsame := hout e
    rw [if_neg he] at hsame
    exact ⟨addRef_other he, hsame, fun href => href⟩
  · exact ⟨h.owned.sockets, h.owned.closed, h.owned.once⟩
  · rw [hself, hheld.notDeleted (Nat.succ_pos _), Bool.toNat_false]
    show s.engine + s.posted.length + ((0 : Nat) : Int) = s.engine + s.posted.length
    omega
  · exact h.access_noFault hlive

/-- The engine is released with the last reference. -/
theorem release_engine {n : Nat} (hheld : Held (s.descs d).cell n) (hn : 0 < n) :
    (descriptorRelease s d).engine + (s.descs d).cell.release.deleted.toNat = s.engine := by
  show (if (s.descs d).cell.refcount = 1 then s.engine - 1 else s.engine) + _ = _
  have hrelease := hheld.release hn
  by_cases hlast : n = 1
  · rw [if_pos (hheld.last_iff.mpr hlast), (hrelease.deleted_iff).mpr (by omega), Bool.toNat_true]
    omega
  · rw [if_neg (mt hheld.last_iff.mp hlast), hrelease.notDeleted (by omega), Bool.toNat_false]
    omega

/-- One operation less is outstanding. -/
theorem invariant_give (h : Invariant s) (hlive : Live s d) (hpos : 0 < outstanding s d)
    (attempts : List Attempt) (frame : Frame)
    (hout : ∀ e, outstanding { descriptorRelease s d with attempts := attempts, frame := frame } e =
      outstanding s e - if e = d then 1 else 0) :
    Invariant { descriptorRelease s d with attempts := attempts, frame := frame } := by
  have hself :
      ({ descriptorRelease s d with attempts := attempts, frame := frame } : State).descs d =
        { s.descs d with cell := (s.descs d).cell.release } := release_self
  have hheld := hlive.held.release hlive.total
  have hone := hout d
  rw [if_pos rfl] at hone
  refine invariant_counted h hlive rfl ?_ ?_ ?_ ?_ ?_ ?_ ?_
  · rw [hself]
    exact hlive.failed
  · rw [base, hself, hone, ← Nat.add_sub_assoc hpos]
    exact hheld
  · rw [hself]
    exact hlive.free
  · intro e he
    have hsame := hout e
    rw [if_neg he] at hsame
    exact ⟨release_other he, hsame, fun href => href⟩
  · exact ⟨h.owned.sockets, h.owned.closed, h.owned.once⟩
  · have hengine := release_engine hlive.held hlive.total
    rw [hself]
    show (descriptorRelease s d).engine + s.posted.length +
      ((s.descs d).cell.release.deleted.toNat : Int) = s.engine + s.posted.length
    omega
  · exact h.access_noFault hlive

/-! ## Creation -/

theorem Account.fresh (h : Account s s.made) :
    outstanding s s.made = 0 ∧ ¬ Referred s s.made := by
  cases h with
  | unborn made none free => exact ⟨none, free⟩
  | failed made => exact absurd made (Nat.lt_irrefl _)
  | born made => exact absurd made (Nat.lt_irrefl _)

theorem create_self (bound : Bool) :
    (s.create k bound).descs s.made = ⟨⟨1, !bound⟩, bound, !bound, false⟩ :=
  Function.update_self ..

theorem create_other (bound : Bool) (h : d ≠ s.made) : (s.create k bound).descs d = s.descs d :=
  Function.update_of_ne h ..

/-- A socket refers to the new descriptor or to one that it referred to before. -/
theorem create_sockets {bound : Bool} {j : SocketId} (h : (s.create k bound).sockets j = some d) :
    j = k ∧ bound = true ∧ d = s.made ∨ j ≠ k ∧ s.sockets j = some d := by
  have hupdate : Function.update s.sockets k (if bound then some s.made else none) j = some d := h
  by_cases hj : j = k
  · rw [hj, Function.update_self] at hupdate
    cases bound with
    | false => cases hupdate
    | true => exact Or.inl ⟨hj, rfl, (Option.some.inj hupdate).symm⟩
  · rw [Function.update_of_ne hj] at hupdate
    exact Or.inr ⟨hj, hupdate⟩

theorem referred_create {bound : Bool} (h : Referred (s.create k bound) d) :
    bound = true ∧ d = s.made ∨ Referred s d := by
  rcases h with ⟨j, hj⟩ | hmem
  · rcases create_sockets hj with ⟨-, hb, hd⟩ | ⟨-, hj⟩
    · exact Or.inl ⟨hb, hd⟩
    · exact Or.inr (Or.inl ⟨j, hj⟩)
  · exact Or.inr (Or.inr hmem)

theorem owned_create (h : Owned s) (hfresh : ¬ Referred s s.made) (bound : Bool) :
    Owned (s.create k bound) := by
  constructor
  · intro i j d hi hj
    rcases create_sockets hi with ⟨hik, -, hd⟩ | ⟨-, hi'⟩
    · rcases create_sockets hj with ⟨hjk, -, -⟩ | ⟨-, hj'⟩
      · exact hik.trans hjk.symm
      · exact absurd (Or.inl ⟨j, hd ▸ hj'⟩) hfresh
    · rcases create_sockets hj with ⟨-, -, hd⟩ | ⟨-, hj'⟩
      · exact absurd (Or.inl ⟨i, hd ▸ hi'⟩) hfresh
      · exact h.sockets i j d hi' hj'
  · intro j d hj hmem
    rcases create_sockets hj with ⟨-, -, hd⟩ | ⟨-, hj⟩
    · exact hfresh (Or.inr (hd ▸ hmem))
    · exact h.closed j d hj hmem
  · exact h.once

theorem invariant_create (h : Invariant s) (k : SocketId) (bound : Bool) :
    Invariant (s.create k bound) := by
  obtain ⟨hnone, hfresh⟩ := (h.accounts s.made).fresh
  have hout (d : DescriptorId) : outstanding (s.create k bound) d = outstanding s d := rfl
  constructor
  · intro d
    by_cases hd : d = s.made
    · subst hd
      have hself := create_self (s := s) (k := k) bound
      cases bound with
      | false =>
        refine .failed (Nat.lt_succ_self _) (by rw [hself]; rfl) hnone fun href => ?_
        rcases referred_create href with ⟨hb, -⟩ | href
        · cases hb
        · exact hfresh href
      | true =>
        refine .born (Nat.lt_succ_self _) (by rw [hself]; rfl) ?_ fun hunbound => ?_
        · rw [hout, hnone, base, hself]
          exact held_new
        · rw [hself] at hunbound
          cases hunbound
    · have hdesc := create_other (s := s) (k := k) bound hd
      have href (href : Referred (s.create k bound) d) : Referred s d := by
        rcases referred_create href with ⟨-, hmade⟩ | href
        · exact absurd hmade hd
        · exact href
      have hacc := h.accounts d
      cases hacc with
      | unborn made none free =>
        exact .unborn (Nat.lt_of_le_of_ne made (Ne.symm hd)) none (mt href free)
      | failed made failed none free =>
        exact .failed (Nat.lt_succ_of_lt made) (hdesc ▸ failed) none (mt href free)
      | born made failed held free =>
        refine .born (Nat.lt_succ_of_lt made) (hdesc ▸ failed) ?_ fun hunbound =>
          mt href (free (hdesc ▸ hunbound))
        rw [base, hdesc, hout]
        exact held
  · exact owned_create h.owned hfresh bound
  · have hcount : Nat.count (owns (s.create k bound) · = true) s.made =
        Nat.count (owns s · = true) s.made :=
      count_congr fun d hd => owns_congr (create_other bound (Nat.ne_of_lt hd))
    have hown : owns (s.create k bound) s.made = true := by
      rw [owns, create_self]
      cases bound <;> rfl
    show s.engine + 1 = s.posted.length + Nat.count (owns (s.create k bound) · = true) (s.made + 1)
    rw [Nat.count_succ, hcount, if_pos hown]
    have hengine := h.engine
    omega
  · exact h.noFault

theorem live_create (h : Invariant s) (k : SocketId) : Live (s.create k true) s.made :=
  ((invariant_create h k true).accounts s.made).live
    (Or.inr (Or.inl ⟨k, Function.update_self ..⟩))

/-! ## Calls -/

theorem countP_attempt (a : Attempt) (attempts : List Attempt) (e : DescriptorId) :
    (attempts ++ [a]).countP (·.overlapped.desc = e) =
      attempts.countP (·.overlapped.desc = e) + if e = a.overlapped.desc then 1 else 0 := by
  rw [List.countP_append, List.countP_singleton]
  simp [eq_comm]

theorem invariant_attempt (h : Invariant s) {o : Overlapped} (hlive : Live s o.desc)
    (onLoop : Bool) : Invariant (s.attempt o onLoop) := by
  refine invariant_take h hlive fun e => ?_
  rw [outstanding, outstanding, countP_attempt]
  show _ + (if e = o.desc then 1 else 0) + s.inFlight.countP _ + Frame.holds e s.frame = _
  omega

/-- The unbind call moves the reference of the socket to a closure. -/
theorem invariant_unbind (h : Invariant s) (hk : s.sockets k = some d) :
    Invariant ({ s with sockets := Function.update s.sockets k none }.post (.unbind d)) := by
  have hsocket {j : SocketId} {e : DescriptorId}
      (hj : Function.update s.sockets k none j = some e) : j ≠ k ∧ s.sockets j = some e := by
    by_cases hjk : j = k
    · rw [hjk, Function.update_self] at hj
      cases hj
    · rw [Function.update_of_ne hjk] at hj
      exact ⟨hjk, hj⟩
  have hmem {e : DescriptorId} (he : Posted.unbind e ∈ s.posted ++ [.unbind d]) :
      .unbind e ∈ s.posted ∨ e = d := by
    rcases List.mem_append.mp he with he | he
    · exact Or.inl he
    · exact Or.inr (by simpa using he)
  refine invariant_moved h rfl rfl (fun _ => rfl) ?_ ⟨?_, ?_, ?_⟩ ?_ h.noFault
  · intro e href
    rcases href with ⟨j, hj⟩ | he
    · exact Or.inl ⟨j, (hsocket hj).2⟩
    · rcases hmem he with he | rfl
      · exact Or.inr he
      · exact Or.inl ⟨k, hk⟩
  · intro i j e hi hj
    exact h.owned.sockets i j e (hsocket hi).2 (hsocket hj).2
  · intro j e hj he
    obtain ⟨hne, hj'⟩ := hsocket hj
    rcases hmem he with he | rfl
    · exact h.owned.closed j e hj' he
    · exact hne (h.owned.sockets j k e hj' hk)
  · intro e
    show (s.posted ++ [Posted.unbind d]).count (.unbind e) ≤ 1
    rw [List.count_append, List.count_singleton]
    by_cases he : e = d
    · subst he
      rw [List.count_eq_zero.mpr (h.owned.closed k e hk)]
      simp
    · have honce := h.owned.once e
      simpa [Ne.symm he] using honce
  · show s.engine + 1 + s.posted.length = s.engine + (s.posted ++ [Posted.unbind d]).length
    rw [List.length_append, List.length_singleton]
    omega

theorem invariant_effect (h : Invariant s) {c : Call} (onLoop : Bool) (hc : c.Allowed s)
    (hconnect : ¬ StartsConnect (.call onLoop c)) : Invariant (c.effect onLoop s) := by
  cases c with
  | openSocket k bound => exact invariant_create h k bound
  | connect k op r =>
    cases r with
    | noDescriptor => exact invariant_post_op h op
    | failed => exact invariant_post_op (invariant_create h k false) op
    | started => exact absurd trivial hconnect
  | start k op kind =>
    obtain ⟨d, hk⟩ := Option.isSome_iff_exists.mp hc.1
    simp only [Call.effect, hk]
    exact invariant_attempt (o := ⟨op, kind, d⟩) h ((h.accounts d).live (Or.inr (Or.inl ⟨k, hk⟩)))
      onLoop
  | udpWriteNull k op created =>
    cases created with
    | none => exact invariant_post_op h op
    | some bound =>
      cases bound with
      | false => exact invariant_post_op (invariant_create h k false) op
      | true => exact invariant_attempt (invariant_create h k true) (live_create h k) onLoop
  | udpReadNull op => exact invariant_post_op h op
  | unbind k =>
    simp only [Call.effect]
    split
    · exact h
    · next d hk => exact invariant_unbind h hk

/-! ## Steps -/

theorem countP_eraseIdx {α : Type} {l : List α} {j : Nat} {x : α} (h : l[j]? = some x)
    (p : α → Bool) : l.countP p = (l.eraseIdx j).countP p + if p x = true then 1 else 0 := by
  obtain ⟨hlt, hget⟩ := List.getElem?_eq_some_iff.mp h
  rw [← (List.getElem_cons_eraseIdx_perm hlt).countP_eq, List.countP_cons, hget]

theorem attempts_erase {j : Nat} {a : Attempt} (h : s.attempts[j]? = some a) (e : DescriptorId) :
    s.attempts.countP (·.overlapped.desc = e) =
      (s.attempts.eraseIdx j).countP (·.overlapped.desc = e) +
        if e = a.overlapped.desc then 1 else 0 := by
  rw [countP_eraseIdx h]
  simp [eq_comm]

theorem inFlight_erase {j : Nat} {o : Overlapped} (h : s.inFlight[j]? = some o) (e : DescriptorId) :
    s.inFlight.countP (·.desc = e) =
      (s.inFlight.eraseIdx j).countP (·.desc = e) + if e = o.desc then 1 else 0 := by
  rw [countP_eraseIdx h]
  simp [eq_comm]

theorem invariant_result (h : Invariant s) {j : Nat} (hj : j < s.attempts.length)
    (started : Bool) : Invariant (next s (.result j started)) := by
  have hget : s.attempts[j]? = some s.attempts[j] := List.getElem?_eq_getElem hj
  have herase (e : DescriptorId) := attempts_erase hget e
  generalize s.attempts[j] = a at hget herase
  simp only [next, hget]
  cases started with
  | true =>
    simp only [if_true]
    refine invariant_moved h rfl rfl (fun e => ?_) (fun _ href => href)
      ⟨h.owned.sockets, h.owned.closed, h.owned.once⟩ rfl h.noFault
    have hone : (s.inFlight ++ [a.overlapped]).countP (·.desc = e) =
        s.inFlight.countP (·.desc = e) + if e = a.overlapped.desc then 1 else 0 := by
      rw [List.countP_append, List.countP_singleton]
      simp [eq_comm]
    rw [outstanding, outstanding, hone, herase]
    show (s.attempts.eraseIdx j).countP _ + (_ + _) + Frame.holds e s.frame = _
    omega
  | false =>
    simp only [Bool.false_eq_true, if_false]
    refine invariant_post_op ?_ a.overlapped.op
    have hpos : 0 < outstanding s a.overlapped.desc := by
      rw [outstanding, herase, if_pos rfl]
      omega
    have hlive := (h.accounts _).live (Or.inl hpos)
    refine invariant_give h hlive hpos (s.attempts.eraseIdx j) s.frame fun e => ?_
    rw [outstanding, outstanding, herase]
    show (s.attempts.eraseIdx j).countP _ + s.inFlight.countP _ + Frame.holds e s.frame = _
    omega

theorem invariant_complete (h : Invariant s) {j : Nat} (hidle : s.frame = .idle)
    (hj : j < s.inFlight.length) : Invariant (next s (.complete j)) := by
  have hget : s.inFlight[j]? = some s.inFlight[j] := List.getElem?_eq_getElem hj
  have herase (e : DescriptorId) := inFlight_erase hget e
  generalize s.inFlight[j] = o at hget herase
  simp only [next, hget]
  refine invariant_moved h rfl rfl (fun e => ?_) (fun _ href => href)
    ⟨h.owned.sockets, h.owned.closed, h.owned.once⟩ rfl h.noFault
  rw [outstanding, outstanding, herase, hidle]
  simp only [Frame.holds, eq_comm]
  omega

/-- The operation that `run` works off still holds its reference. -/
theorem live_completing (h : Invariant s) {o : Overlapped} (hf : s.frame = .completing o) :
    Live s o.desc := by
  refine (h.accounts _).live (Or.inl ?_)
  rw [outstanding, hf, Frame.holds, if_pos rfl]
  omega

theorem invariant_frame (h : Invariant s) {f : Frame}
    (hf : ∀ d, Frame.holds d f = Frame.holds d s.frame) : Invariant { s with frame := f } := by
  refine invariant_moved h rfl rfl (fun d => ?_) (fun _ href => href)
    ⟨h.owned.sockets, h.owned.closed, h.owned.once⟩ rfl h.noFault
  rw [outstanding, outstanding, hf]

theorem invariant_postProc (h : Invariant s) {o : Overlapped} (hf : s.frame = .completing o)
    {r : PostResult} (hr : o.kind.mayPost r = true) : Invariant (next s (.postProc r)) := by
  have hlive := live_completing h hf
  have hposted : Invariant (postProc s o r) ∧ (postProc s o r).frame = s.frame := by
    cases r with
    | done => exact ⟨invariant_access h hlive, rfl⟩
    | again => exact ⟨invariant_attempt h hlive true, rfl⟩
    | accepted bound =>
      obtain ⟨k, hk⟩ : ∃ k, o.kind = .accept k := by
        cases hk : o.kind with
        | accept k => exact ⟨k, rfl⟩
        | _ => simp [hk, Kind.mayPost] at hr
      simp only [postProc, hk]
      exact ⟨invariant_create (invariant_access h hlive) k bound, rfl⟩
  simp only [next, hf]
  refine invariant_frame hposted.1 fun d => ?_
  rw [hposted.2, hf]
  rfl

theorem invariant_release (h : Invariant s) (hf : s.frame = .releasing d) :
    Invariant (next s .release) := by
  have hpos : 0 < outstanding s d := by
    rw [outstanding, hf, Frame.holds, if_pos rfl]
    omega
  simp only [next, hf]
  refine invariant_give h ((h.accounts _).live (Or.inl hpos)) hpos s.attempts .idle fun e => ?_
  rw [outstanding, outstanding, hf]
  show s.attempts.countP _ + s.inFlight.countP _ + 0 = _
  simp only [Frame.holds, eq_comm]
  omega

/-- The first closure is taken off the queue. -/
theorem owned_tail (h : Owned s) {c : Posted} {rest : List Posted}
    (hposted : s.posted = c :: rest) :
    (∀ k d, s.sockets k = some d → .unbind d ∉ rest) ∧
      (∀ d, rest.count (.unbind d) ≤ 1) ∧ ∀ d, c = .unbind d → .unbind d ∉ rest := by
  refine ⟨fun k d hk hmem => ?_, fun d => ?_, fun d hc hmem => ?_⟩
  · exact h.closed k d hk (hposted ▸ List.mem_cons_of_mem _ hmem)
  · have honce := h.once d
    rw [hposted, List.count_cons] at honce
    omega
  · have honce := h.once d
    have hpos := List.count_pos_iff.mpr hmem
    rw [hposted, hc, List.count_cons_self] at honce
    omega

theorem invariant_task_op (h : Invariant s) {op : OperationId} {rest : List Posted}
    (hposted : s.posted = .op op :: rest) :
    Invariant { s with posted := rest, engine := s.engine - 1 } := by
  obtain ⟨hclosed, honce, -⟩ := owned_tail h.owned hposted
  refine invariant_moved h rfl rfl (fun _ => rfl) (fun d href => ?_)
    ⟨h.owned.sockets, hclosed, honce⟩ ?_ h.noFault
  · rcases href with hk | hmem
    · exact Or.inl hk
    · exact Or.inr (hposted ▸ List.mem_cons_of_mem _ hmem)
  · rw [hposted]
    show s.engine - 1 + ((rest.length + 1 : Nat) : Int) = s.engine + rest.length
    omega

theorem invariant_task_unbind (h : Invariant s) {rest : List Posted}
    (hposted : s.posted = .unbind d :: rest) :
    Invariant (runUnbind { s with posted := rest, engine := s.engine - 1 } d) := by
  obtain ⟨hclosed, honce, hgone⟩ := owned_tail h.owned hposted
  have href : Referred s d := Or.inr (hposted ▸ List.mem_cons_self)
  have hlive := (h.accounts d).live (Or.inr href)
  have hunbound : (s.descs d).unbound = false := Bool.eq_false_iff.mpr fun hu => hlive.free hu href
  have hbase : base s d = 1 := by
    rw [base, hunbound]
    rfl
  have hheld := hlive.held
  rw [hbase] at hheld
  generalize ht : runUnbind { s with posted := rest, engine := s.engine - 1 } d = t
  have hself : t.descs d = ⟨(s.descs d).cell.release, false, (s.descs d).failed, true⟩ := by
    rw [← ht]
    simp [runUnbind, descriptorRelease, State.set, State.access]
  have hother (e : DescriptorId) (he : e ≠ d) : t.descs e = s.descs e := by
    rw [← ht]
    simp [runUnbind, descriptorRelease, State.set, State.access, he]
  have hrest : t.posted = rest ∧ t.sockets = s.sockets ∧ t.made = s.made ∧
      ∀ e, outstanding t e = outstanding s e := by
    rw [← ht]
    exact ⟨rfl, rfl, rfl, fun e => rfl⟩
  obtain ⟨hpost, hsockets, hmade, hout⟩ := hrest
  have hreferred (e : DescriptorId) (he : Referred t e) : Referred s e := by
    rcases he with ⟨k, hk⟩ | hmem
    · exact Or.inl ⟨k, hsockets ▸ hk⟩
    · exact Or.inr (hposted ▸ List.mem_cons_of_mem _ (hpost ▸ hmem))
  refine invariant_counted h hlive hmade ?_ ?_ ?_ ?_ ?_ ?_ ?_
  · rw [hself]
    exact hlive.failed
  · have hreleased := hheld.release (by omega)
    rw [Nat.add_sub_cancel_left] at hreleased
    rw [base, hself, hout, if_pos rfl, Nat.zero_add]
    exact hreleased
  · intro _ hd
    rcases hd with ⟨k, hk⟩ | hmem
    · exact h.owned.closed k d (hsockets ▸ hk) (hposted ▸ List.mem_cons_self)
    · exact hgone d rfl (hpost ▸ hmem)
  · intro e he
    exact ⟨hother e he, hout e, hreferred e⟩
  · refine ⟨?_, ?_, ?_⟩
    · rw [hsockets]
      exact h.owned.sockets
    · rw [hsockets, hpost]
      exact hclosed
    · rw [hpost]
      exact honce
  · have hless : (descriptorRelease { s with posted := rest, engine := s.engine - 1 } d).engine +
        ((s.descs d).cell.release.deleted.toNat : Int) = s.engine - 1 :=
      release_engine hheld (by omega)
    have hsame : t.engine = (descriptorRelease
        { s with posted := rest, engine := s.engine - 1 } d).engine := by
      rw [← ht]
      simp [runUnbind, descriptorRelease, State.set, State.access]
    rw [hself, hsame, hposted, hpost]
    show _ + ((rest.length + 1 : Nat) : Int) + ((s.descs d).cell.release.deleted.toNat : Int) =
      s.engine + rest.length
    omega
  · rw [← ht]
    have hnot := h.access_noFault hlive
    simpa [runUnbind, descriptorRelease, State.set, State.access] using hnot

theorem invariant_step (h : Invariant s) {e : Step} (he : Enabled s e)
    (hconnect : ¬ StartsConnect e) : Invariant (next s e) := by
  cases e with
  | call onLoop c => exact invariant_effect h onLoop he.1 hconnect
  | result j started => exact invariant_result h he started
  | complete j => exact invariant_complete h he.2.1 he.2.2
  | postProc r =>
    cases hf : s.frame with
    | completing o => exact invariant_postProc h hf (by simpa [hf, Frame.mayPost] using he.2)
    | _ => simp [Enabled, hf, Frame.mayPost] at he
  | release =>
    cases hf : s.frame with
    | releasing d => exact invariant_release h hf
    | _ => simp [Enabled, hf, Frame.releases] at he
  | task =>
    obtain ⟨c, rest, hposted⟩ := List.exists_cons_of_ne_nil he.2.2
    cases c with
    | op op =>
      simp only [next, hposted]
      exact invariant_task_op h hposted
    | unbind d =>
      simp only [next, hposted]
      exact invariant_task_unbind h hposted

theorem invariant_initial : Invariant initial := by
  constructor
  · intro d
    refine .unborn (Nat.zero_le d) rfl ?_
    rintro (⟨k, hk⟩ | hmem)
    · cases hk
    · cases hmem
  · exact ⟨nofun, nofun, fun d => Nat.zero_le 1⟩
  · rfl
  · rfl

theorem invariant_reachable (h : machine.Execution (fun _ e => ¬ StartsConnect e) initial s) :
    Invariant s :=
  h.invariant invariant_initial fun _ _ _ hu he hconnect => invariant_step hu he hconnect

/-! ## Every run -/

/-- A descriptor is deleted when neither its socket nor an operation needs it any more. -/
structure SoundDescriptors (s : State) : Prop where
  refcount : ∀ d < s.made, (s.descs d).failed = false →
    (s.descs d).cell.refcount = ((base s d + outstanding s d : Nat) : Int)
  deleted : ∀ d < s.made, (s.descs d).cell.deleted = true →
    outstanding s d = 0 ∧ ∀ k, s.sockets k ≠ some d
  engine : s.engine = s.posted.length + Nat.count (owns s · = true) s.made
  noUseAfter : s.fault = false

theorem soundDescriptors_of_invariant (h : Invariant s) : SoundDescriptors s := by
  refine ⟨fun d hd hfailed => ?_, fun d hd hdeleted => ?_, h.engine, h.noFault⟩
  · cases h.accounts d with
    | unborn made => exact absurd hd (Nat.not_lt.mpr made)
    | failed made failed =>
      rw [hfailed] at failed
      cases failed
    | born made failed held free => exact held.refcount_eq
  · have hdead : ¬ (0 < outstanding s d ∨ Referred s d) := by
      intro hpos
      have hlive := ((h.accounts d).live hpos).notDeleted
      rw [hdeleted] at hlive
      cases hlive
    refine ⟨Nat.eq_zero_of_not_pos fun hpos => hdead (Or.inl hpos), fun k hk => ?_⟩
    exact hdead (Or.inr (Or.inl ⟨k, hk⟩))

/-- From the moment it is started, `ConnectEx` is one operation more than was counted. -/
theorem not_sound_startsConnect {e : Step} (hconnect : StartsConnect e) :
    ¬ SoundDescriptors (next s e) := by
  intro h
  cases e with
  | call onLoop c =>
    cases c with
    | connect k op r =>
      cases r with
      | started =>
        have hself : (next s (.call onLoop (.connect k op .started))).descs s.made =
            ⟨⟨1, false⟩, true, false, false⟩ := create_self (k := k) true
        have href := h.refcount s.made (Nat.lt_succ_self _) (by rw [hself])
        have hmore : 0 < outstanding (next s (.call onLoop (.connect k op .started))) s.made := by
          have hone : 0 < (next s (.call onLoop (.connect k op .started))).inFlight.countP
              (·.desc = s.made) :=
            List.countP_pos_iff.mpr ⟨⟨op, .connect, s.made⟩, List.mem_append_right _ (by simp),
              by simp⟩
          rw [outstanding]
          omega
        rw [base, hself] at href
        simp at href
        omega
      | _ => cases hconnect
    | _ => cases hconnect
  | _ => cases hconnect

theorem sound_step_iff (h : Invariant s) {e : Step} (he : Enabled s e) :
    SoundDescriptors (next s e) ↔ ¬ StartsConnect e := by
  constructor
  · exact fun hsound hconnect => not_sound_startsConnect hconnect hsound
  · exact fun hconnect => soundDescriptors_of_invariant (invariant_step h he hconnect)

/-- A read whose socket is unbound while it is outstanding. -/
def readAndUnbind : List Step :=
  [.call true (.openSocket 0 true), .call true (.start 0 7 .read), .result 0 true,
    .call false (.unbind 0), .task, .complete 0, .postProc .done, .release]

instance : ∀ e : Step, Decidable (StartsConnect e)
  | .call _ (.connect _ _ .started) => isTrue trivial
  | .call _ (.connect _ _ .noDescriptor) | .call _ (.connect _ _ .failed)
  | .call _ (.openSocket _ _) | .call _ (.start _ _ _) | .call _ (.udpWriteNull _ _ _)
  | .call _ (.udpReadNull _) | .call _ (.unbind _) | .result _ _ | .complete _ | .postProc _
  | .release | .task => isFalse nofun

/-- The completion of a connect operation gives back the reference of the socket. -/
def connected : List Step :=
  [.call true (.connect 0 7 .started), .complete 0, .postProc .done, .release]

end CompletionPortReferences
