import Mathlib.Data.List.Perm.Basic
import Tcode.TimerMachine

/-! # References to timer ids

What holds a `timer::id` is counted place by place: the timer object, the entries of the
list, the closures from `add_ref` to their last `release`, the entry that is being fired,
and the entry that a cancel closure took out and has not released yet.
-/
namespace TimerReferences

open SupportTransitionSystem SupportUpperBound TimerMachine

def closureId : Closure → TimerId
  | .schedule id | .cancel id _ => id

/-- Another thread has taken the reference of a closure and not posted it yet. -/
def postsFor (i : TimerId) : Pending → Bool
  | .timerCancel _ _ => false
  | .post c => i = closureId c

/-- The closure that the loop thread runs. -/
def runsClosure (i : TimerId) : Frame → Nat
  | .schedule id | .scheduled id | .cancel id _ | .aborting id _ | .inAbort id _
  | .aborted id _ | .cancelled id _ => if i = id then 1 else 0
  | _ => 0

/-- The entry that `timer_drain` took out. -/
def firesEntry (i : TimerId) : Frame → Nat
  | .firing id _ | .inFire id _ | .repeats id _ | .fired id _ => if i = id then 1 else 0
  | _ => 0

/-- The entry that a cancel closure took out. -/
def abortsEntry (i : TimerId) : Frame → Nat
  | .aborting id _ | .inAbort id _ | .aborted id _ => if i = id then 1 else 0
  | _ => 0

section Places

variable (s : State) (i : TimerId)

def object : Nat := (s.alive i).toNat

def entries : Nat := s.timers.count i

/-- Closures that are posted or are just being posted. -/
def waiting : Nat :=
  s.posted.countP (fun c => i = closureId c) + s.others.countP (postsFor i)

def closures : Nat := waiting s i + runsClosure i s.frame

def holders : Nat :=
  object s i + entries s i + closures s i + firesEntry i s.frame + abortsEntry i s.frame

/-- The memory of an id that has `n` holders. -/
inductive Accounts (n : Nat) : Prop where
  | unborn (made : s.made ≤ i) (none : n = 0) (deleted : (s.ids i).deleted = false)
      (deletions : s.deletions i = 0)
  | live (made : i < s.made) (some : 0 < n) (refcount : (s.ids i).refcount = n)
      (deleted : (s.ids i).deleted = false) (deletions : s.deletions i = 0)
  | gone (made : i < s.made) (none : n = 0) (refcount : (s.ids i).refcount = 0)
      (deleted : (s.ids i).deleted = true) (deletions : s.deletions i = 1)

end Places

structure Counted (s : State) : Prop where
  accounts : ∀ i, Accounts s i (holders s i)
  noFault : s.fault = false

variable {s t : State} {i id : TimerId} {n : Nat}

theorem Accounts.notDeleted (h : Accounts s i n) (hn : 0 < n) : (s.ids i).deleted = false := by
  cases h with
  | unborn made none => omega
  | live made some refcount deleted => exact deleted
  | gone made none => omega

theorem Accounts.congr (h : Accounts s i n) (hmade : t.made = s.made)
    (href : (t.ids i).refcount = (s.ids i).refcount)
    (hdel : (t.ids i).deleted = (s.ids i).deleted) (hcount : t.deletions i = s.deletions i) :
    Accounts t i n := by
  cases h with
  | unborn made none deleted deletions =>
    exact .unborn (hmade ▸ made) none (hdel.trans deleted) (hcount.trans deletions)
  | live made some refcount deleted deletions =>
    exact .live (hmade ▸ made) some (href.trans refcount) (hdel.trans deleted)
      (hcount.trans deletions)
  | gone made none refcount deleted deletions =>
    exact .gone (hmade ▸ made) none (href.trans refcount) (hdel.trans deleted)
      (hcount.trans deletions)

theorem Accounts.addRef (h : Accounts s i n) (hn : i = id → 0 < n) :
    Accounts (s.addRef id) i (n + if i = id then 1 else 0) := by
  by_cases hi : i = id
  · subst hi
    cases h with
    | unborn made none => exact absurd none (Nat.pos_iff_ne_zero.mp (hn rfl))
    | live made some refcount deleted deletions =>
      refine .live made (by simp) ?_ ?_ deletions
      · simp [State.addRef, State.set, State.access, refcount]
      · simpa [State.addRef, State.set, State.access] using deleted
    | gone made none => exact absurd none (Nat.pos_iff_ne_zero.mp (hn rfl))
  · rw [if_neg hi]
    refine h.congr rfl ?_ ?_ rfl
    · simp [State.addRef, State.set, State.access, hi]
    · simp [State.addRef, State.set, State.access, hi]

theorem release_last (h : (s.ids id).refcount = 1) :
    s.release id = { (s.access id).set id { s.ids id with refcount := 0, deleted := true } with
      deletions := Function.update s.deletions id (s.deletions id + 1) } := if_pos h

theorem release_more (h : (s.ids id).refcount ≠ 1) :
    s.release id =
      (s.access id).set id { s.ids id with refcount := (s.ids id).refcount - 1 } := if_neg h

theorem Accounts.release (h : Accounts s i n) (hn : i = id → 0 < n) :
    Accounts (s.release id) i (n - if i = id then 1 else 0) := by
  by_cases hi : i = id
  · subst hi
    rw [if_pos rfl]
    cases h with
    | unborn made none => exact absurd none (Nat.pos_iff_ne_zero.mp (hn rfl))
    | gone made none => exact absurd none (Nat.pos_iff_ne_zero.mp (hn rfl))
    | live made some refcount deleted deletions =>
      by_cases hone : n = 1
      · rw [release_last (by rw [refcount, hone]; rfl)]
        refine .gone made (by omega) ?_ ?_ ?_
        · simp [State.set]
        · simp [State.set]
        · simp [deletions]
      · rw [release_more (by rw [refcount]; omega)]
        refine .live made (by omega) ?_ ?_ deletions
        · simp [State.set, refcount]
          omega
        · simpa [State.set] using deleted
  · rw [if_neg hi, Nat.sub_zero]
    by_cases hone : (s.ids id).refcount = 1
    · rw [release_last hone]
      exact h.congr rfl (by simp [State.set, State.access, hi])
        (by simp [State.set, State.access, hi])
        (by simp [hi])
    · rw [release_more hone]
      exact h.congr rfl (by simp [State.set, State.access, hi])
        (by simp [State.set, State.access, hi])
        rfl

/-! ## What the operations leave alone -/

section Same

variable (s id)

@[simp] theorem release_alive : (s.release id).alive = s.alive := by
  unfold State.release; dsimp only; split <;> rfl

@[simp] theorem release_timers : (s.release id).timers = s.timers := by
  unfold State.release; dsimp only; split <;> rfl

@[simp] theorem release_posted : (s.release id).posted = s.posted := by
  unfold State.release; dsimp only; split <;> rfl

@[simp] theorem release_others : (s.release id).others = s.others := by
  unfold State.release; dsimp only; split <;> rfl

@[simp] theorem release_frame : (s.release id).frame = s.frame := by
  unfold State.release; dsimp only; split <;> rfl

@[simp] theorem release_cancels : (s.release id).cancels = s.cancels := by
  unfold State.release; dsimp only; split <;> rfl

@[simp] theorem release_callbacks : (s.release id).callbacks = s.callbacks := by
  unfold State.release; dsimp only; split <;> rfl

@[simp] theorem release_fault :
    (s.release id).fault = (s.fault || (s.ids id).deleted) := by
  unfold State.release; dsimp only; split <;> rfl

end Same

/-! ## Steps -/

theorem Counted.access_noFault (h : Counted s) (hid : 0 < holders s id) :
    (s.fault || (s.ids id).deleted) = false := by
  rw [h.noFault, (h.accounts id).notDeleted hid]
  rfl

theorem Counted.timers_noFault (h : Counted s) {k : List TimerId} (hk : k ⊆ s.timers) :
    (k.any fun j => (s.ids j).deleted) = false := by
  rw [List.any_eq_false]
  intro j hj
  have hmem : 0 < s.timers.count j := List.count_pos_iff.mpr (hk hj)
  have hpos : 0 < holders s j := by
    unfold holders entries
    omega
  simp [(h.accounts j).notDeleted hpos]

@[simp] theorem addRef_deleted (j : TimerId) :
    ((s.addRef id).ids j).deleted = (s.ids j).deleted := by
  by_cases hj : j = id
  · simp [State.addRef, State.set, State.access, hj]
  · simp [State.addRef, State.set, State.access, hj]

theorem countP_closure (c : Closure) :
    List.countP (fun c => decide (i = closureId c)) [c] = if i = closureId c then 1 else 0 := by
  simp [List.countP_singleton]

theorem countP_post (c : Closure) :
    List.countP (postsFor i) [.post c] = if i = closureId c then 1 else 0 := by
  simp [List.countP_singleton, postsFor]

theorem entries_schedule (onLoop : Bool) : entries (timerSchedule onLoop s id) i =
    entries s i + if onLoop = true ∧ i = id then 1 else 0 := by
  cases onLoop with
  | false => simp [timerSchedule, entries, State.addRef, State.set, State.access]
  | true =>
    have htimers :
        (timerSchedule true s id).timers = insertByKey (s.addRef id).dueTime id s.timers :=
      rfl
    rw [entries, htimers, insertByKey_perm.count_eq]
    by_cases hi : i = id
    · subst hi
      rw [if_pos ⟨rfl, rfl⟩, List.count_cons_self, entries]
    · rw [if_neg (fun h => hi h.2), List.count_cons_of_ne (Ne.symm hi), entries, Nat.add_zero]

theorem closures_schedule (onLoop : Bool) : closures (timerSchedule onLoop s id) i =
    closures s i + if onLoop = false ∧ i = id then 1 else 0 := by
  cases onLoop with
  | true => rfl
  | false =>
    have hothers : (timerSchedule false s id).others = s.others ++ [.post (.schedule id)] := rfl
    rw [closures, waiting, hothers, List.countP_append, countP_post, closures, waiting]
    show s.posted.countP _ + (_ + if i = id then 1 else 0) + runsClosure i s.frame = _
    simp only [true_and]
    omega

/-- `timer_schedule` on any thread: one more reference of the timer. -/
theorem counted_schedule (h : Counted s) (hid : 0 < holders s id) (onLoop : Bool) :
    Counted (timerSchedule onLoop s id) ∧
      ∀ i, holders (timerSchedule onLoop s id) i = holders s i + if i = id then 1 else 0 := by
  have hholders : ∀ i, holders (timerSchedule onLoop s id) i =
      holders s i + if i = id then 1 else 0 := by
    intro i
    have hframe : (timerSchedule onLoop s id).frame = s.frame := by cases onLoop <;> rfl
    have halive : (timerSchedule onLoop s id).alive = s.alive := by cases onLoop <;> rfl
    rw [holders, holders, entries_schedule, closures_schedule, hframe, object, object, halive]
    cases onLoop <;> simp <;> omega
  refine ⟨⟨fun i => ?_, ?_⟩, hholders⟩
  · rw [hholders]
    have hadd := (h.accounts i).addRef fun hi : i = id => hi ▸ hid
    cases onLoop with
    | true => exact hadd.congr rfl rfl rfl rfl
    | false => exact hadd.congr rfl rfl rfl rfl
  · have hone := h.access_noFault hid
    cases onLoop with
    | false => exact hone
    | true =>
      have hall := h.timers_noFault (List.Subset.refl s.timers)
      have hfault : (timerSchedule true s id).fault = ((s.fault || (s.ids id).deleted) ||
          s.timers.any fun j => ((s.addRef id).ids j).deleted) := rfl
      rw [hfault, hone]
      simpa using hall

/-- A holder gives its reference back. -/
theorem counted_release (h : Counted s) (hid : 0 < holders s id)
    (hlists : t = { s.release id with frame := t.frame, alive := t.alive, cancels := t.cancels })
    (hholders : ∀ i, holders t i = holders s i - if i = id then 1 else 0) : Counted t := by
  constructor
  · intro i
    have hrel := (h.accounts i).release fun hi : i = id => hi ▸ hid
    rw [hholders]
    rw [hlists]
    exact hrel.congr rfl rfl rfl rfl
  · rw [hlists]
    show (s.release id).fault = false
    rw [release_fault]
    exact h.access_noFault hid

/-- Nothing happens to the memory of ids. -/
theorem counted_moved (h : Counted s) (hmade : t.made = s.made)
    (hmemory : ∀ i, (t.ids i).refcount = (s.ids i).refcount ∧
      (t.ids i).deleted = (s.ids i).deleted ∧ t.deletions i = s.deletions i)
    (hfault : t.fault = s.fault ∨
      ∃ id, 0 < holders s id ∧ t.fault = (s.fault || (s.ids id).deleted))
    (hholders : ∀ i, holders t i = holders s i) : Counted t := by
  constructor
  · intro i
    obtain ⟨href, hdel, hcount⟩ := hmemory i
    rw [hholders]
    exact (h.accounts i).congr hmade href hdel hcount
  · rcases hfault with hfault | ⟨id, hid, hfault⟩
    · exact hfault.trans h.noFault
    · exact hfault.trans (h.access_noFault hid)

/-- What the loop thread holds itself. -/
def frameHolds (i : TimerId) (f : Frame) : Nat :=
  runsClosure i f + firesEntry i f + abortsEntry i f

theorem holders_eq : holders s i =
    object s i + entries s i + waiting s i + frameHolds i s.frame := by
  rw [holders, closures, frameHolds]
  omega

theorem holders_frame {f : Frame} (hf : frameHolds i f = frameHolds i s.frame) :
    holders { s with frame := f } i = holders s i := by
  rw [holders_eq, holders_eq, hf]
  rfl

theorem held_pos (h : 0 < frameHolds i s.frame) : 0 < holders s i := by
  rw [holders_eq]
  omega

theorem entries_pos (h : id ∈ s.timers) : 0 < holders s id := by
  have hcount : 0 < entries s id := List.count_pos_iff.mpr h
  rw [holders_eq]
  omega

attribute [local simp] frameHolds runsClosure firesEntry abortsEntry

/-- The loop thread gives back one of the references that it holds. -/
theorem counted_gives (h : Counted s) (hid : 0 < frameHolds id s.frame) {f : Frame}
    (hf : ∀ i, frameHolds i s.frame = frameHolds i f + if i = id then 1 else 0)
    (cancels : List CancelCall) :
    Counted { s.release id with frame := f, cancels := cancels } := by
  refine counted_release h (held_pos hid) rfl fun i => ?_
  rw [holders_eq, holders_eq, hf]
  simp only [object, entries, waiting, release_alive, release_timers, release_posted,
    release_others]
  omega

/-- The loop thread calls back. -/
theorem counted_callback (h : Counted s) (hid : 0 < frameHolds id s.frame) {f : Frame}
    (hf : ∀ i, frameHolds i f = frameHolds i s.frame) (callbacks : List (TimerId × ErrorCode)) :
    Counted { s.access id with callbacks := callbacks, frame := f } :=
  counted_moved h rfl (fun _ => ⟨rfl, rfl, rfl⟩) (Or.inr ⟨id, held_pos hid, rfl⟩) fun i =>
    holders_frame (hf i)

theorem counted_frame (h : Counted s) {f : Frame}
    (hf : ∀ i, frameHolds i f = frameHolds i s.frame) : Counted { s with frame := f } :=
  counted_moved h rfl (fun _ => ⟨rfl, rfl, rfl⟩) (Or.inl rfl) fun i => holders_frame (hf i)

/-- A setter of the timer. -/
theorem counted_set (h : Counted s) (hid : 0 < holders s id) {v : Id}
    (href : v.refcount = (s.ids id).refcount) (hdel : v.deleted = (s.ids id).deleted) :
    Counted ((s.access id).set id v) ∧
      ∀ i, holders ((s.access id).set id v) i = holders s i := by
  have hholders : ∀ i, holders ((s.access id).set id v) i = holders s i := fun i => rfl
  refine ⟨counted_moved h rfl (fun i => ?_) (Or.inr ⟨id, hid, rfl⟩) hholders, hholders⟩
  by_cases hi : i = id
  · simp [State.set, State.access, hi, href, hdel]
  · simp [State.set, State.access, hi]

/-- An entry of the list becomes an entry that the loop thread holds. -/
theorem holders_taken {rest : List TimerId} {f : Frame}
    (hrest : rest.count i = s.timers.count i - if i = id then 1 else 0) (hmem : id ∈ s.timers)
    (hf : frameHolds i f = frameHolds i s.frame + if i = id then 1 else 0) :
    holders { s with timers := rest, frame := f } i = holders s i := by
  have hcount : rest.count i + (if i = id then 1 else 0) = s.timers.count i := by
    by_cases hi : i = id
    · subst hi
      have hpos := List.count_pos_iff.mpr hmem
      rw [if_pos rfl] at hrest ⊢
      omega
    · rw [if_neg hi] at hrest ⊢
      omega
  rw [holders_eq, holders_eq, hf, entries, entries, ← hcount]
  simp only [object, waiting]
  omega

theorem count_erase_ite (i id : TimerId) (xs : List TimerId) :
    (xs.erase id).count i = xs.count i - if i = id then 1 else 0 := by
  by_cases hi : i = id
  · simp [hi]
  · rw [List.count_erase_of_ne hi, if_neg hi, Nat.sub_zero]

theorem counted_run (h : Counted s) : Counted (run s) := by
  unfold run
  cases hf : s.frame with
  | idle => exact h
  | schedule id =>
    have hid : 0 < holders s id := held_pos (by simp [hf])
    refine counted_frame (counted_schedule h hid true).1 fun i => ?_
    show _ = frameHolds i s.frame
    simp [hf]
  | scheduled id => exact counted_gives h (by simp [hf]) (by simp [hf]) _
  | cancel id k =>
    dsimp only
    split
    · next hmem =>
      refine counted_moved h rfl (fun _ => ⟨rfl, rfl, rfl⟩) (Or.inl rfl) fun i => ?_
      exact holders_taken (count_erase_ite i id _) hmem (by simp [hf])
    · exact counted_frame h (by simp [hf])
  | aborting id k => exact counted_callback h (by simp [hf]) (by simp [hf]) _
  | inAbort id k => exact counted_frame h (by simp [hf])
  | aborted id k => exact counted_gives h (by simp [hf]) (by simp [hf]) _
  | cancelled id k => exact counted_gives h (by simp [hf]) (by simp [hf]) _
  | drain ts =>
    dsimp only
    split
    · exact counted_frame h (by simp [hf])
    · next id rest htimers =>
      have hmem : id ∈ s.timers := htimers ▸ List.mem_cons_self
      have hid : 0 < holders s id := entries_pos hmem
      split
      · refine counted_moved h rfl (fun _ => ⟨rfl, rfl, rfl⟩) (Or.inr ⟨id, hid, rfl⟩) fun i => ?_
        refine holders_taken (s := s) ?_ hmem (by simp [hf])
        by_cases hi : i = id
        · simp [htimers, hi]
        · simp [htimers, hi, List.count_cons_of_ne (Ne.symm hi)]
      · exact counted_moved h rfl (fun _ => ⟨rfl, rfl, rfl⟩) (Or.inr ⟨id, hid, rfl⟩) fun i =>
          holders_frame (s := s) (by simp [hf])
  | firing id ts => exact counted_callback h (by simp [hf]) (by simp [hf]) _
  | inFire id ts => exact counted_frame h (by simp [hf])
  | repeats id ts =>
    have hid : 0 < frameHolds id s.frame := by simp [hf]
    have hsched (d : Int) : Counted ((s.access id).set id { s.ids id with dueTime := d }) ∧
        ∀ i, holders ((s.access id).set id { s.ids id with dueTime := d }) i = holders s i :=
      counted_set h (held_pos hid) rfl rfl
    dsimp only
    split
    · obtain ⟨hinv, hholders⟩ := hsched ((s.ids id).dueTime + (s.ids id).repeatSpan)
      have hpos := hholders id ▸ held_pos hid
      refine counted_frame (counted_schedule hinv hpos true).1 fun i => ?_
      show _ = frameHolds i s.frame
      simp [hf]
    · refine counted_moved h rfl (fun _ => ⟨rfl, rfl, rfl⟩) (Or.inr ⟨id, held_pos hid, rfl⟩)
        fun i => holders_frame (s := s) ?_
      simp [hf]
  | fired id ts => exact counted_gives h (by simp [hf]) (by simp [hf]) _

theorem counted_make (h : Counted s) (onLoop : Bool) : Counted (Call.make.effect onLoop s) := by
  have hnone : holders s s.made = 0 := by
    cases h.accounts s.made with
    | unborn made none => exact none
    | live made => exact absurd made (Nat.lt_irrefl _)
    | gone made => exact absurd made (Nat.lt_irrefl _)
  refine ⟨fun i => ?_, h.noFault⟩
  have hacc := h.accounts i
  have hrest : holders (Call.make.effect onLoop s) i + object s i =
      holders s i + object (Call.make.effect onLoop s) i := by
    rw [holders_eq, holders_eq]
    show _ + entries s i + waiting s i + frameHolds i s.frame + _ = _
    omega
  by_cases hi : i = s.made
  · subst hi
    have hobject : object (Call.make.effect onLoop s) s.made = 1 := by
      simp [object, Call.effect, State.set]
    have hgone : object s s.made = 0 := by
      rw [holders_eq] at hnone
      omega
    have hone : holders (Call.make.effect onLoop s) s.made = 1 := by omega
    rw [hone]
    cases hacc with
    | live made => exact absurd made (Nat.lt_irrefl _)
    | gone made => exact absurd made (Nat.lt_irrefl _)
    | unborn made none deleted deletions =>
      refine .live (Nat.lt_succ_self _) Nat.one_pos ?_ ?_ deletions
      · simp [Call.effect, State.set]
      · simp [Call.effect, State.set]
  · have hobject : object (Call.make.effect onLoop s) i = object s i := by
      simp [object, Call.effect, State.set, hi]
    have hsame : holders (Call.make.effect onLoop s) i = holders s i := by omega
    have hids : (Call.make.effect onLoop s).ids i = s.ids i := by
      simp [Call.effect, State.set, hi]
    rw [hsame]
    cases hacc with
    | unborn made none deleted deletions =>
      exact .unborn (Nat.lt_of_le_of_ne made (Ne.symm hi)) none (hids ▸ deleted) deletions
    | live made some refcount deleted deletions =>
      exact .live (Nat.lt_succ_of_lt made) some (hids ▸ refcount) (hids ▸ deleted) deletions
    | gone made none refcount deleted deletions =>
      exact .gone (Nat.lt_succ_of_lt made) none (hids ▸ refcount) (hids ▸ deleted) deletions

theorem object_pos (h : s.alive id = true) : 0 < holders s id := by
  rw [holders_eq, object, h, Bool.toNat_true]
  omega

theorem counted_destroy (h : Counted s) (hid : s.alive id = true) (onLoop : Bool) :
    Counted ((Call.destroy id).effect onLoop s) := by
  have hmoved : { s with alive := Function.update s.alive id false }.release id =
      { s.release id with alive := Function.update s.alive id false } := by
    unfold State.release
    dsimp only [State.access]
    split <;> rfl
  have hpos : 0 < holders s id := object_pos hid
  refine counted_release h hpos ?_ fun i => ?_
  · rw [Call.effect, hmoved]
  · rw [Call.effect, hmoved, holders_eq, holders_eq]
    have hobject : (Function.update s.alive id false i).toNat =
        (s.alive i).toNat - if i = id then 1 else 0 := by
      by_cases hi : i = id
      · subst hi
        simp [hid]
      · simp [hi]
    have hle : (if i = id then 1 else 0) ≤ (s.alive i).toNat := by
      by_cases hi : i = id
      · simp [hi, hid]
      · simp [hi]
    simp only [object, entries, waiting, hobject, release_timers, release_posted, release_others,
      release_frame]
    omega

/-- A reference is taken for a closure that is posted or is to be posted. -/
theorem counted_take (h : Counted s) (hid : 0 < holders s id) {posted : List Closure}
    {others : List Pending}
    (hmore : ∀ i, posted.countP (fun c => i = closureId c) + others.countP (postsFor i) =
      waiting s i + if i = id then 1 else 0) :
    Counted { s.addRef id with posted := posted, others := others } := by
  have hholders : ∀ i, holders { s.addRef id with posted := posted, others := others } i =
      holders s i + if i = id then 1 else 0 := by
    intro i
    rw [holders_eq, holders_eq, waiting, hmore]
    show object s i + entries s i + _ + frameHolds i s.frame = _
    omega
  constructor
  · intro i
    rw [hholders]
    exact ((h.accounts i).addRef fun hi => hi ▸ hid).congr rfl rfl rfl rfl
  · exact h.access_noFault hid

theorem counted_cancel (h : Counted s) (hid : s.alive id = true) (onLoop : Bool) :
    Counted (timerCancel onLoop s id) := by
  have hpos := object_pos hid
  have hloaded : Counted (s.access id) :=
    counted_moved h rfl (fun i => ⟨rfl, rfl, rfl⟩) (Or.inr ⟨id, hpos, rfl⟩) fun i => rfl
  have hrecord : Counted ((s.access id).record id) :=
    counted_moved hloaded rfl (fun i => ⟨rfl, rfl, rfl⟩) (Or.inl rfl) fun i => rfl
  unfold timerCancel
  split
  · cases onLoop with
    | false =>
      refine counted_moved hrecord rfl (fun i => ⟨rfl, rfl, rfl⟩) (Or.inl rfl) fun i => ?_
      rw [holders_eq, holders_eq]
      have hwaiting : waiting { (s.access id).record id with
          others := s.others ++ [.timerCancel id s.cancels.length] } i = waiting s i := by
        rw [waiting, waiting, List.countP_append]
        rfl
      show object s i + entries s i + waiting { (s.access id).record id with
        others := s.others ++ [.timerCancel id s.cancels.length] } i + frameHolds i s.frame = _
      rw [hwaiting]
      rfl
    | true =>
      refine counted_take hrecord hpos fun i => ?_
      rw [List.countP_append, countP_closure]
      show _ + _ + s.others.countP (postsFor i) = waiting s i + _
      rw [waiting]
      show _ + (if i = id then 1 else 0) + _ = _
      omega
  · exact hloaded

theorem counted_go (h : Counted s) {k : Nat} {p : Pending} (hk : s.others[k]? = some p)
    (hcall : ∀ id j, p = .timerCancel id j → s.alive id = true) :
    Counted (p.go { s with others := s.others.eraseIdx k }) := by
  obtain ⟨hlt, hget⟩ := List.getElem?_eq_some_iff.mp hk
  have hsplit (i : TimerId) : s.others.countP (postsFor i) =
      (s.others.eraseIdx k).countP (postsFor i) + if postsFor i p then 1 else 0 := by
    rw [← (List.getElem_cons_eraseIdx_perm hlt).countP_eq, List.countP_cons, hget]
  cases p with
  | timerCancel id j =>
    have hpos := object_pos (hcall id j rfl)
    show Counted { s.addRef id with
      posted := s.posted, others := s.others.eraseIdx k ++ [.post (.cancel id j)] }
    refine counted_take h hpos fun i => ?_
    have hrest : s.others.countP (postsFor i) = (s.others.eraseIdx k).countP (postsFor i) :=
      hsplit i
    rw [List.countP_append, waiting, hrest, countP_post]
    show _ + (_ + if i = id then 1 else 0) = _
    omega
  | post c =>
    refine counted_moved h rfl (fun i => ⟨rfl, rfl, rfl⟩) (Or.inl rfl) fun i => ?_
    have hwaiting : waiting (Pending.go { s with others := s.others.eraseIdx k } (.post c)) i =
        waiting s i := by
      rw [waiting, waiting, hsplit]
      show (s.posted ++ [c]).countP _ + (s.others.eraseIdx k).countP (postsFor i) = _
      rw [List.countP_append, countP_closure]
      simp only [postsFor, decide_eq_true_eq]
      omega
    rw [holders_eq, holders_eq, hwaiting]
    rfl

/-! ## Every run -/

theorem counted_task (h : Counted s) {c : Closure} {posted : List Closure}
    (hidle : s.frame = .idle) (hposted : s.posted = c :: posted) :
    Counted { s with posted := posted, frame := c.frame } := by
  refine counted_moved h rfl (fun i => ⟨rfl, rfl, rfl⟩) (Or.inl rfl) fun i => ?_
  rw [holders_eq, holders_eq, waiting, waiting, hposted, hidle, List.countP_cons]
  have hframe : frameHolds i c.frame = if i = closureId c then 1 else 0 := by
    cases c <;> rfl
  simp only [hframe, object, entries, decide_eq_true_eq]
  simp
  omega

/-- A timer exists as long as another thread is about to take a reference for it. -/
def Calling (s : State) : Prop := ∀ p ∈ s.others, ∀ id ∈ p.inside, s.alive id = true

structure Invariant (s : State) : Prop where
  counted : Counted s
  calling : Calling s

theorem counted_effect (h : Counted s) {c : Call} (hc : c.Allowed s) (onLoop : Bool) :
    Counted (c.effect onLoop s) := by
  cases c with
  | make => exact counted_make h onLoop
  | destroy id => exact counted_destroy h hc.1 onLoop
  | dueTime id ts =>
    exact (counted_set (v := { s.ids id with dueTime := ts }) h (object_pos hc) rfl rfl).1
  | repeatSpan id span =>
    exact (counted_set (v := { s.ids id with repeatSpan := span }) h (object_pos hc) rfl rfl).1
  | fire id =>
    have hquiet : Counted { s with cancels := disturb id s.cancels } :=
      counted_moved h rfl (fun i => ⟨rfl, rfl, rfl⟩) (Or.inl rfl) fun i => rfl
    exact (counted_schedule hquiet (object_pos hc) onLoop).1
  | cancel id => exact counted_cancel h hc onLoop

theorem counted_step (h : Invariant s) {e : Step} (he : Enabled s e) : Counted (next s e) := by
  cases e with
  | call c => exact counted_effect h.counted he.2 true
  | callOther c => exact counted_effect h.counted he false
  | other k =>
    have hk : s.others[k]? = some s.others[k] := List.getElem?_eq_getElem he
    simp only [next, hk]
    exact counted_go h.counted hk fun id j heq =>
      h.calling _ (List.getElem_mem he) id (heq ▸ rfl)
  | task =>
    obtain ⟨c, posted, hposted⟩ := List.exists_cons_of_ne_nil he.2
    simp only [next, hposted]
    exact counted_task h.counted he.1 hposted
  | drain ts =>
    have hidle : s.frame = .idle := he
    exact counted_frame h.counted (by simp [hidle])
  | run => exact counted_run h.counted

/-- The loop thread leaves alone what other threads work on. -/
theorem run_outside (s : State) :
    (run s).others = s.others ∧ (run s).alive = s.alive ∧ (run s).posted = s.posted := by
  have hrelease (id : TimerId) : (s.release id).others = s.others ∧
      (s.release id).alive = s.alive ∧ (s.release id).posted = s.posted :=
    ⟨release_others s id, release_alive s id, release_posted s id⟩
  unfold run
  cases s.frame with
  | scheduled id => exact hrelease id
  | aborted id k => exact hrelease id
  | cancelled id k => exact hrelease id
  | fired id ts => exact hrelease id
  | cancel id k => dsimp only; split <;> exact ⟨rfl, rfl, rfl⟩
  | repeats id ts => dsimp only; split <;> exact ⟨rfl, rfl, rfl⟩
  | drain ts =>
    dsimp only
    split
    · exact ⟨rfl, rfl, rfl⟩
    · split <;> exact ⟨rfl, rfl, rfl⟩
  | _ => exact ⟨rfl, rfl, rfl⟩

theorem calling_append {p : Pending} (h : Calling s) (halive : t.alive = s.alive)
    (hothers : t.others = s.others ++ [p]) (hp : ∀ id ∈ p.inside, s.alive id = true) :
    Calling t := by
  intro q hq id hid
  rw [halive]
  rw [hothers] at hq
  rcases List.mem_append.mp hq with hq | hq
  · exact h q hq id hid
  · rw [List.mem_singleton.mp hq] at hid
    exact hp id hid

theorem calling_effect (h : Calling s) {c : Call} (hc : c.Allowed s) (onLoop : Bool) :
    Calling (c.effect onLoop s) := by
  cases c with
  | make =>
    intro p hp id hid
    by_cases hmade : id = s.made
    · simp [Call.effect, hmade]
    · simpa [Call.effect, hmade] using h p hp id hid
  | destroy j =>
    intro p hp id hid
    have hp' : p ∈ s.others := by simpa [Call.effect] using hp
    have hne : id ≠ j := fun heq => hc.2 p hp' (heq ▸ hid)
    simpa [Call.effect, hne] using h p hp' id hid
  | dueTime j ts => exact h
  | repeatSpan j span => exact h
  | fire j =>
    cases onLoop with
    | true => exact h
    | false => exact calling_append h rfl rfl nofun
  | cancel j =>
    simp only [Call.effect, timerCancel]
    split
    · cases onLoop with
      | true => exact h
      | false => exact calling_append h rfl rfl fun id hid => Option.some.inj hid ▸ hc
    · exact h

theorem calling_step (h : Calling s) {e : Step} (he : Enabled s e) : Calling (next s e) := by
  cases e with
  | call c => exact calling_effect h he.2 true
  | callOther c => exact calling_effect h he false
  | other k =>
    have hk : s.others[k]? = some s.others[k] := List.getElem?_eq_getElem he
    simp only [next, hk]
    cases s.others[k] with
    | timerCancel j l =>
      intro p hp id hid
      rcases List.mem_append.mp hp with hp | hp
      · exact h p (List.mem_of_mem_eraseIdx hp) id hid
      · rw [List.mem_singleton.mp hp] at hid
        cases hid
    | post c => exact fun p hp => h p (List.mem_of_mem_eraseIdx hp)
  | task =>
    obtain ⟨c, posted, hposted⟩ := List.exists_cons_of_ne_nil he.2
    simp only [next, hposted]
    exact h
  | drain ts => exact h
  | run =>
    obtain ⟨hothers, halive, -⟩ := run_outside s
    intro p hp id hid
    rw [show (next s .run).alive = s.alive from halive]
    exact h p (hothers ▸ hp) id hid

theorem invariant_initial : Invariant initial := by
  constructor
  · exact ⟨fun i => .unborn (Nat.zero_le _) rfl rfl rfl, rfl⟩
  · exact fun p hp => absurd hp List.not_mem_nil

theorem invariant_step (h : Invariant s) {e : Step} (he : Enabled s e) : Invariant (next s e) :=
  ⟨counted_step h he, calling_step h.calling he⟩

theorem invariant_reachable (h : machine.Reachable initial s) : Invariant s :=
  h.invariant invariant_initial fun _ _ _ hu he _ => invariant_step hu he

/-- The references to an id that the memory and the running code account for. -/
def total (s : State) (i : TimerId) : Nat :=
  object s i + entries s i + closures s i + firesEntry i s.frame + abortsEntry i s.frame

/-- An id is deleted once, when nothing refers to it, and not used after that. -/
structure SoundReferences (s : State) : Prop where
  refcount : ∀ i < s.made, (s.ids i).refcount = total s i
  deleted : ∀ i < s.made, (s.ids i).deleted = true ↔ total s i = 0
  once : ∀ i < s.made, s.deletions i = if total s i = 0 then 1 else 0
  noUseAfter : s.fault = false

theorem references_sound (h : machine.Reachable initial s) : SoundReferences s := by
  have hinv := invariant_reachable h
  have haccounts (i : TimerId) (hi : i < s.made) : (s.ids i).refcount = total s i ∧
      ((s.ids i).deleted = true ↔ total s i = 0) ∧
      s.deletions i = if total s i = 0 then 1 else 0 := by
    show _ = (holders s i : Int) ∧ (_ ↔ holders s i = 0) ∧ _ = if holders s i = 0 then 1 else 0
    cases hinv.counted.accounts i with
    | unborn made => exact absurd hi (Nat.not_lt.mpr made)
    | live made some refcount deleted deletions =>
      have hne := Nat.pos_iff_ne_zero.mp some
      exact ⟨refcount, by simp [deleted, hne], by simp [deletions, hne]⟩
    | gone made none refcount deleted deletions =>
      exact ⟨by simp [refcount, none], by simp [deleted, none], by simp [deletions, none]⟩
  exact ⟨fun i hi => (haccounts i hi).1, fun i hi => (haccounts i hi).2.1,
    fun i hi => (haccounts i hi).2.2, hinv.counted.noFault⟩

/-- A timer is fired and cancelled on the loop thread, up to its callback. -/
def abortedInCallback : List Step :=
  [.call .make, .call (.fire 0), .call (.cancel 0), .task, .run, .run]

theorem abortedInCallback_valid :
    machine.ValidTrace (fun _ _ => True) initial abortedInCallback := by
  decide

theorem references_sound_abortedInCallback :
    SoundReferences (machine.runTrace initial abortedInCallback) :=
  references_sound abortedInCallback_valid.reachable

/-- A cancel closure still holds the reference of the entry that it took out. -/
theorem abortedInCallback_holds_more :
    ¬ ∀ s : State, machine.Reachable initial s → ∀ i < s.made,
      (s.ids i).refcount =
        ((object s i + entries s i + closures s i + firesEntry i s.frame : Nat) : Int) := by
  intro h
  have hcount := h _ abortedInCallback_valid.reachable 0 (by decide)
  revert hcount
  decide

end TimerReferences
