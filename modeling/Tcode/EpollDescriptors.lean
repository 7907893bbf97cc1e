import Tcode.EpollReferences

/-! # Descriptors are made and released

A new descriptor is held by its creator alone, and a release gives one reference back.
-/
namespace EpollReferences

open SupportReferenceCount SupportTransitionSystem EpollMachine

variable {s t : State} {d e : DescriptorId} {k : SocketId} {m : EngineId}

/-! ## Descriptors are made -/

/-- Nothing refers to the descriptor. -/
structure Unmentioned (s : State) (d : DescriptorId) : Prop where
  sockets : ∀ k, (s.sockets k).desc ≠ some d
  postings : ∀ p ∈ s.postings, Task.desc p.task ≠ some d
  queued : ∀ n, ∀ a ∈ tasks s n, Task.desc a ≠ some d
  running : ∀ n, Frame.closure (s.engines n).frame ≠ some d
  polled : ∀ n, d ∉ Frame.polled (s.engines n).frame

theorem unmentioned_of_free (hfree : Free s d) (hnone : closures s d = 0) (hbelongs : Belongs s)
    (howned : Owned s) : Unmentioned s d := by
  rw [closures] at hnone
  constructor
  · exact hfree.sockets
  · intro p hp hdesc
    have hpos : 0 < s.postings.countP (fun p => Task.captures d p.task) :=
      List.countP_pos_iff.mpr ⟨p, hp, captures_of_desc hdesc (howned.postings p hp d)⟩
    omega
  · intro n a ha hdesc
    have hn := hbelongs.tasks n a ha d hdesc
    have hunbind : a ≠ .unbind d := fun heq => hfree.tasks (hn ▸ heq ▸ ha)
    have hpos : 0 < (tasks s (home s d)).countP (Task.captures d) :=
      List.countP_pos_iff.mpr ⟨a, hn ▸ ha, captures_of_desc hdesc hunbind⟩
    omega
  · intro n hn
    have hhome := hbelongs.closure n d hn
    rw [hhome, if_pos hn] at hnone
    omega
  · intro n hmem
    have hhome := hbelongs.polled n d hmem
    exact hfree.polled (hhome ▸ hmem)

theorem Unmentioned.none_captured (h : Unmentioned s d) (n : EngineId) :
    s.postings.countP (fun p => Task.captures d p.task) +
      (tasks s n).countP (Task.captures d) +
      (if Frame.closure (s.engines n).frame = some d then 1 else 0) = 0 := by
  rw [if_neg (h.running _), List.countP_eq_zero.mpr, List.countP_eq_zero.mpr]
  · intro a ha
    exact fun hcaptures => h.queued _ a ha (desc_of_captures hcaptures)
  · intro p hp
    exact fun hcaptures => h.postings p hp (desc_of_captures hcaptures)

theorem Invariant.fresh (h : Invariant s) : Unmentioned s s.made := by
  cases h.accounts s.made with
  | unborn made none free => exact unmentioned_of_free free none h.belongs h.owned
  | failed made => exact absurd made (Nat.lt_irrefl _)
  | born made => exact absurd made (Nat.lt_irrefl _)

theorem Unmentioned.other_socket {j : SocketId} (h : Unmentioned s d)
    (hj : (s.sockets j).desc = some e) : e ≠ d := by
  intro heq
  exact h.sockets j (heq ▸ hj)

/-- Engine `m` makes the next descriptor for the socket `k`, which has `desc` then. -/
structure Creates (s t : State) (m : EngineId) (k : SocketId) (desc : Option DescriptorId) :
    Prop where
  made : t.made = s.made + 1
  others : ∀ e, e ≠ s.made → t.descs e = s.descs e
  maker : (t.descs s.made).home = m
  unbound : (t.descs s.made).unbound = false
  registered : ∀ n, (t.descs s.made).registered = some n → n = m
  socket : t.sockets k = { s.sockets k with desc := desc }
  sockets : ∀ j, j ≠ k → t.sockets j = s.sockets j
  desc : ∀ d, desc = some d → d = s.made ∧ (s.sockets k).engine = m
  postings : t.postings = s.postings
  queued : ∀ n, tasks t n = tasks s n
  frames : ∀ n, (t.engines n).frame = (s.engines n).frame
  fault : t.fault = s.fault

section

variable {desc : Option DescriptorId} (hc : Creates s t m k desc)
include hc

theorem Creates.home_other (he : e ≠ s.made) : home t e = home s e := by
  rw [home, hc.others e he, home]

/-- No other descriptor than the new one gets a socket. -/
theorem Creates.socket_desc {j : SocketId} (hj : (t.sockets j).desc = some e) :
    (e = s.made ∧ j = k ∧ (t.sockets j).engine = m) ∨ t.sockets j = s.sockets j := by
  by_cases hjk : j = k
  · subst hjk
    rw [hc.socket] at hj ⊢
    obtain ⟨he, hm⟩ := hc.desc e hj
    exact Or.inl ⟨he, rfl, hm⟩
  · exact Or.inr (hc.sockets j hjk)

theorem Creates.closures_other (he : e ≠ s.made) : closures t e = closures s e := by
  rw [closures, closures, hc.home_other he, hc.postings, hc.queued, hc.frames]

theorem Creates.free_other (he : e ≠ s.made) (hfree : Free s e) : Free t e := by
  constructor
  · intro j hj
    rcases hc.socket_desc hj with ⟨heq, _, _⟩ | hsame
    · exact he heq
    · exact hfree.sockets j (hsame ▸ hj)
  · rw [hc.queued, hc.home_other he]
    exact hfree.tasks
  · rw [hc.others e he]
    exact hfree.registered
  · rw [hc.frames, hc.home_other he]
    exact hfree.polled

variable (hfresh : Unmentioned s s.made)
include hfresh

theorem Creates.closures_new : closures t s.made = 0 := by
  rw [closures, hc.postings, hc.queued, hc.frames]
  exact hfresh.none_captured _

theorem Creates.belongs (hs : Belongs s) : Belongs t := by
  constructor
  · intro j e hj
    rcases hc.socket_desc hj with ⟨rfl, _, hm⟩ | hsame
    · rw [hm]
      exact hc.maker
    · have hold : (s.sockets j).desc = some e := hsame ▸ hj
      rw [hsame, hc.home_other (hfresh.other_socket hold)]
      exact hs.sockets j e hold
  · intro p hp e hdesc
    rw [hc.postings] at hp
    have hne : e ≠ s.made := fun heq => hfresh.postings p hp (heq ▸ hdesc)
    rw [hc.home_other hne]
    exact hs.postings p hp e hdesc
  · intro n a ha e hdesc
    rw [hc.queued] at ha
    have hne : e ≠ s.made := fun heq => hfresh.queued n a ha (heq ▸ hdesc)
    rw [hc.home_other hne]
    exact hs.tasks n a ha e hdesc
  · intro n e hn
    rw [hc.frames] at hn
    have hne : e ≠ s.made := fun heq => hfresh.running n (heq ▸ hn)
    rw [hc.home_other hne]
    exact hs.closure n e hn
  · intro n e hmem
    rw [hc.frames] at hmem
    have hne : e ≠ s.made := fun heq => hfresh.polled n (heq ▸ hmem)
    rw [hc.home_other hne]
    exact hs.polled n e hmem
  · intro n e hregistered
    by_cases he : e = s.made
    · subst he
      rw [hc.registered n hregistered]
      exact hc.maker
    · rw [hc.others e he] at hregistered
      rw [hc.home_other he]
      exact hs.registered n e hregistered

theorem Creates.owned (hs : Owned s) : Owned t := by
  constructor
  · intro i j e hi hj
    rcases hc.socket_desc hi with ⟨rfl, rfl, _⟩ | hi'
    · rcases hc.socket_desc hj with ⟨_, rfl, _⟩ | hj'
      · rfl
      · exact absurd (hj' ▸ hj) (hfresh.sockets j)
    · have hold : (s.sockets i).desc = some e := hi' ▸ hi
      rcases hc.socket_desc hj with ⟨heq, _, _⟩ | hj'
      · exact absurd heq (hfresh.other_socket hold)
      · exact hs.sockets i j e hold (hj' ▸ hj)
  · intro j e hj hmem
    rw [hc.queued] at hmem
    have hne : e ≠ s.made := fun heq => hfresh.queued _ _ hmem (heq ▸ rfl)
    rw [hc.home_other hne] at hmem
    rcases hc.socket_desc hj with ⟨heq, _, _⟩ | hsame
    · exact hne heq
    · exact hs.closed j e (hsame ▸ hj) hmem
  · intro e
    rw [hc.queued]
    by_cases he : e = s.made
    · subst he
      rw [List.count_eq_zero_of_not_mem]
      · exact Nat.zero_le 1
      · intro hmem
        exact hfresh.queued _ _ hmem rfl
    · rw [hc.home_other he]
      exact hs.once e
  · rw [hc.postings]
    exact hs.postings

end

/-- With a reference of the engine for the new descriptor, if it is not deleted at once. -/
theorem invariant_creates {desc : Option DescriptorId} (h : Invariant s)
    (hc : Creates s t m k desc) (haccount : Account t s.made)
    (hengine : ∀ n, (t.engines n).refcount =
      (s.engines n).refcount + if owns t s.made n = true then 1 else 0) : Invariant t := by
  constructor
  · intro e
    by_cases he : e = s.made
    · exact he ▸ haccount
    · have hdesc : Agrees (t.descs e) (s.descs e) := by
        rw [hc.others e he]
        exact Agrees.refl _
      have hclosures := hc.closures_other he
      have hfree := hc.free_other he
      have hbase : base t e = base s e := by rw [base, hc.others e he, base]
      have hmade := hc.made
      cases h.accounts e with
      | unborn made none free notDeleted =>
        have hlater : t.made ≤ e := by
          rw [hmade]
          exact Nat.lt_of_le_of_ne made (Ne.symm he)
        exact .unborn hlater (hclosures.trans none) (hfree free) (hdesc.unbound.trans notDeleted)
      | failed made failed held none free =>
        refine .failed ?_ (hdesc.failed.trans failed) ?_ (hclosures.trans none) (hfree free)
        · rw [hmade]
          exact Nat.lt_succ_of_lt made
        · rw [hdesc.cell]
          exact held
      | born made failed held free =>
        refine .born ?_ (hdesc.failed.trans failed) ?_ ?_
        · rw [hmade]
          exact Nat.lt_succ_of_lt made
        · rw [hbase, hclosures, hdesc.cell]
          exact held
        · intro hunbound
          exact hfree (free (hdesc.unbound ▸ hunbound))
  · exact hc.belongs h.fresh h.belongs
  · exact hc.owned h.fresh h.owned
  · intro n
    have hcount : Nat.count (owns t · n = true) s.made = Nat.count (owns s · n = true) s.made := by
      apply count_congr
      intro e he
      rw [owns, hc.others e (Nat.ne_of_lt he), owns]
    have hs := h.engine n
    have ht := hengine n
    rw [hc.made, Nat.count_succ, hcount, hc.queued]
    by_cases hown : owns t s.made n = true
    · rw [if_pos hown] at ht ⊢
      omega
    · rw [if_neg hown] at ht ⊢
      omega
  · exact hc.fault.trans h.noFault

theorem created_self {registered : Bool} :
    (descriptorCreate s m k registered).descs s.made = .new m registered :=
  Function.update_self ..

theorem created_queue {registered : Bool} :
    ((descriptorCreate s m k registered).descs s.made).opQueue = fun _ => [] := by
  rw [created_self]
  rfl

theorem created_tasks {registered : Bool} (n : EngineId) :
    tasks (descriptorCreate s m k registered) n = tasks s n := by
  by_cases hn : n = m
  · subst hn
    exact tasks_self
  · exact tasks_other hn

theorem created_frame {registered : Bool} (n : EngineId) :
    ((descriptorCreate s m k registered).engines n).frame = (s.engines n).frame := by
  by_cases hn : n = m
  · subst hn
    rw [descriptorCreate, engines_self]
  · rw [descriptorCreate, engines_other hn]
    rfl

theorem notBound_queue : ((s.create m k false).descs s.made).opQueue = fun _ => [] := by
  show ((Function.update s.descs s.made _) s.made).opQueue = _
  rw [Function.update_self]
  rfl

theorem creates_descriptorCreate (hm : (s.sockets k).engine = m) (registered : Bool) :
    Creates s (descriptorCreate s m k registered) m k (some s.made) := by
  constructor
  · rfl
  · intro e he
    exact Function.update_of_ne he ..
  · rw [created_self]
    rfl
  · rw [created_self]
    rfl
  · intro n hn
    rw [created_self] at hn
    cases registered with
    | false => cases hn
    | true => exact (Option.some.inj hn).symm
  · exact Function.update_self ..
  · intro j hj
    exact Function.update_of_ne hj ..
  · intro d hd
    exact ⟨(Option.some.inj hd).symm, hm⟩
  · rfl
  · exact created_tasks
  · exact created_frame
  · rfl

theorem owns_new {registered : Bool} {n : EngineId} (h : t.descs d = .new m registered) :
    owns t d n = decide (m = n) := by
  rw [owns, h]
  exact Bool.and_true _

theorem invariant_descriptorCreate (h : Invariant s) (hm : (s.sockets k).engine = m)
    (registered : Bool) : Invariant (descriptorCreate s m k registered) := by
  have hc := creates_descriptorCreate (k := k) hm registered
  apply invariant_creates h hc
  · refine .born ?_ ?_ ?_ ?_
    · rw [hc.made]
      exact Nat.lt_succ_self _
    · rw [created_self]
      rfl
    · rw [base_of_unbound hc.unbound, hc.closures_new h.fresh, created_self]
      exact held_new
    · intro hunbound
      rw [hc.unbound] at hunbound
      cases hunbound
  · intro n
    rw [owns_new created_self]
    by_cases hn : n = m
    · subst hn
      rw [descriptorCreate, engines_self, if_pos (decide_eq_true rfl)]
    · rw [descriptorCreate, engines_other hn, if_neg (by simpa using Ne.symm hn), Int.add_zero]
      rfl

theorem creates_notBound : Creates s (s.create m k false) m k none := by
  have hself : (s.create m k false).descs s.made = { Descriptor.new m false with
      cell := Cell.new.release, failed := true } := Function.update_self ..
  refine ⟨rfl, ?_, ?_, ?_, ?_, ?_, ?_, nofun, rfl, fun _ => rfl, fun _ => rfl, rfl⟩
  · intro e he
    exact Function.update_of_ne he ..
  · rw [hself]
    rfl
  · rw [hself]
    rfl
  · intro n hn
    rw [hself] at hn
    cases hn
  · exact Function.update_self ..
  · intro j hj
    exact Function.update_of_ne hj ..

theorem invariant_notBound (h : Invariant s) : Invariant (s.create m k false) := by
  have hc := creates_notBound (s := s) (m := m) (k := k)
  have hself : (s.create m k false).descs s.made = { Descriptor.new m false with
      cell := Cell.new.release, failed := true } := Function.update_self ..
  have hdeleted : ((s.create m k false).descs s.made).cell.deleted = true := by
    rw [hself]
    rfl
  apply invariant_creates h hc
  · apply Account.failed
    · rw [hc.made]
      exact Nat.lt_succ_self _
    · rw [hself]
    · rw [hself]
      exact held_new.release Nat.one_pos
    · exact hc.closures_new h.fresh
    · constructor
      · intro j hj
        by_cases hjk : j = k
        · rw [hjk, hc.socket] at hj
          cases hj
        · rw [hc.sockets j hjk] at hj
          exact h.fresh.sockets j hj
      · intro hmem
        rw [hc.queued] at hmem
        exact h.fresh.queued _ _ hmem rfl
      · rw [hself]
        rfl
      · rw [hc.frames]
        exact h.fresh.polled _
  · intro n
    rw [owns, hdeleted, Bool.not_true, Bool.and_false]
    simp [State.create, State.setSocket, State.setDesc]

theorem invariant_create (h : Invariant s) (bound : Bool) :
    Invariant (s.create (s.sockets k).engine k bound) := by
  cases bound with
  | false => exact invariant_notBound h
  | true => exact invariant_descriptorCreate h rfl true

/-! ## Releases -/

theorem frame_abort (n : EngineId) : ((s.abort m d).engines n).frame = (s.engines n).frame := by
  by_cases hn : n = m
  · subst hn
    show (Function.update s.engines n _ n).frame = _
    rw [Function.update_self]
  · show (Function.update s.engines m _ n).frame = _
    rw [Function.update_of_ne hn]

/-- An engine gets the operations of the descriptor. -/
theorem mem_tasks_abort {n : EngineId} {a : Task} (ha : a ∈ tasks (s.abort m d) n) :
    a ∈ tasks s n ∨ ∃ o ∈ (s.descs d).ops, a = .op o := by
  rw [tasks, frame_abort] at ha
  rcases List.mem_append.mp ha with ha | ha
  · by_cases hn : n = m
    · subst hn
      replace ha : a ∈ (Function.update s.engines n _ n).opQueue := ha
      rw [Function.update_self] at ha
      rcases List.mem_append.mp ha with ha | ha
      · exact Or.inl (List.mem_append_left _ ha)
      · obtain ⟨o, ho, rfl⟩ := List.mem_map.mp ha
        exact Or.inr ⟨o, ho, rfl⟩
    · replace ha : a ∈ (Function.update s.engines m _ n).opQueue := ha
      rw [Function.update_of_ne hn] at ha
      exact Or.inl (List.mem_append_left _ ha)
  · exact Or.inl (List.mem_append_right _ ha)

section

variable (s d m)

theorem release_made : (descriptorRelease s m d).made = s.made := by
  unfold descriptorRelease
  split <;> rfl

theorem release_fault :
    (descriptorRelease s m d).fault = (s.fault || (s.descs d).cell.deleted) := by
  unfold descriptorRelease
  split <;> rfl

theorem release_other (he : e ≠ d) : (descriptorRelease s m d).descs e = s.descs e := by
  unfold descriptorRelease
  split <;> exact Function.update_of_ne he ..

theorem release_self : ∃ q, (descriptorRelease s m d).descs d =
    { s.descs d with cell := (s.descs d).cell.release, opQueue := q } := by
  unfold descriptorRelease
  split
  · exact ⟨_, Function.update_self ..⟩
  · exact ⟨_, Function.update_self ..⟩

/-- The operations that the release aborts. -/
def aborts : List OperationId := if (s.descs d).cell.refcount = 1 then (s.descs d).ops else []

theorem release_engines (n : EngineId) : (descriptorRelease s m d).engines n =
    if n = m then { s.engines m with
      refcount := (s.engines m).refcount - (if (s.descs d).cell.refcount = 1 then 1 else 0) +
        (aborts s d).length
      opQueue := (s.engines m).opQueue ++ (aborts s d).map .op }
    else s.engines n := by
  unfold descriptorRelease aborts
  by_cases hn : n = m
  · subst hn
    split
    · rw [if_pos rfl]
      exact Function.update_self ..
    · rw [if_pos rfl]
      simp [State.setDesc, State.access]
  · rw [if_neg hn]
    split
    · exact Function.update_of_ne hn ..
    · rfl

end

theorem engine_release (s : State) (d : DescriptorId) (m n : EngineId) :
    ((descriptorRelease s m d).engines n).refcount + (tasks s n).length +
      (if m = n then (decide ((s.descs d).cell.refcount = 1)).toNat else 0) =
        (s.engines n).refcount + (tasks (descriptorRelease s m d) n).length := by
  rw [tasks, tasks, release_engines]
  by_cases hn : n = m
  · subst hn
    rw [if_pos rfl, if_pos rfl]
    by_cases hlast : (s.descs d).cell.refcount = 1
    · simp only [hlast, if_true, decide_true, Bool.toNat_true, List.length_append, List.length_map]
      omega
    · simp [hlast, aborts]
  · rw [if_neg hn, if_neg (Ne.symm hn)]
    omega

theorem cell_release_deleted {c : Cell} (h : c.deleted = false) :
    c.release.deleted = decide (c.refcount = 1) := by
  by_cases hone : c.refcount = 1
  · simp [Cell.release, hone]
  · simp [Cell.release, hone, h]

theorem mirrors_release : Mirrors s (descriptorRelease s m d) := by
  have hengines := release_engines s d m
  obtain ⟨q, hself⟩ := release_self s d m
  have hsame (e : DescriptorId) : home (descriptorRelease s m d) e = home s e ∧
      ((descriptorRelease s m d).descs e).registered = (s.descs e).registered := by
    by_cases he : e = d
    · subst he
      rw [home, hself]
      exact ⟨rfl, rfl⟩
    · rw [home, release_other s d m he]
      exact ⟨rfl, rfl⟩
  have hframe (n : EngineId) :
      ((descriptorRelease s m d).engines n).frame = (s.engines n).frame := by
    rw [hengines]
    split
    · next hn => rw [hn]
    · rfl
  constructor
  · unfold descriptorRelease
    split <;> rfl
  · unfold descriptorRelease
    split <;> rfl
  · exact fun e => (hsame e).1
  · exact fun e => (hsame e).2
  · intro n
    rw [tasks, hframe, hengines]
    split
    · next hn =>
      rw [hn, List.filter_append, List.filter_append, filter_ops, List.append_nil, tasks,
        List.filter_append]
    · rfl
  · intro n
    rw [hframe]
  · intro n e he
    rw [hframe] at he
    exact Or.inl he

/-- From `s`, a reference of `d` is no longer used in `u`, and then given back. -/
theorem invariant_release {u : State} (h : Invariant s) (hlive : Live s d) (hm : home s d = m)
    (hmade : u.made = s.made) (hcell : (u.descs d).cell = (s.descs d).cell)
    (hfailed : (u.descs d).failed = false) (hhome : home u d = home s d)
    (hless : base u d + closures u d + 1 = base s d + closures s d)
    (hfree : (u.descs d).unbound = true → Free u d)
    (hothers : ∀ e, e ≠ d → Agrees (u.descs e) (s.descs e) ∧ closures u e = closures s e ∧
      (Free s e → Free u e))
    (hbelongs : Belongs u) (howned : Owned u)
    (hengine : ∀ n, (u.engines n).refcount + (tasks s n).length =
      (s.engines n).refcount + (tasks u n).length)
    (hfault : u.fault = false) : Invariant (descriptorRelease u m d) := by
  have hmirrors := mirrors_release (s := u) (d := d) (m := m)
  obtain ⟨q, hself⟩ := release_self u d m
  have hheld := hlive.held.release hlive.total
  rw [← hless, Nat.add_sub_cancel, ← hcell] at hheld
  have hdeleted := cell_release_deleted (hcell ▸ hlive.notDeleted)
  have hbase : base (descriptorRelease u m d) d = base u d := by
    rw [base, hself, base]
  apply invariant_counted h hlive
  · rw [release_made, hmade]
  · rw [hmirrors.homes, hhome]
  · rw [hself]
    exact hfailed
  · rw [hself, hbase, hmirrors.closures_eq]
    exact hheld
  · intro hunbound
    rw [hself] at hunbound
    exact hmirrors.free (hfree hunbound)
  · intro e he
    obtain ⟨hdesc, hclosures, hfree'⟩ := hothers e he
    rw [release_other u d m he, hmirrors.closures_eq]
    exact ⟨hdesc, hclosures, fun hs => hmirrors.free (hfree' hs)⟩
  · exact hmirrors.belongs hbelongs
  · exact hmirrors.owned howned
  · intro n
    have hn := hengine n
    have hr := engine_release u d m n
    have hcell' : ((descriptorRelease u m d).descs d).cell = (u.descs d).cell.release := by
      rw [hself]
    rw [hcell', hdeleted, hm]
    omega
  · rw [release_fault, hfault, hcell, hlive.notDeleted]
    rfl

end EpollReferences
