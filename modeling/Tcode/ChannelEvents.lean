import Tcode.ChannelRefinement

/-! # The events of a channel

A channel that is opened on its run-loop thread. The story of a state is what was fired
and what the loop thread is about to fire; the error bit tells whether its end has been
written yet.
-/
namespace ChannelEvents

open ChannelFlagWord ChannelMachine ChannelTokens ChannelInvariant ChannelRefinement
open SupportListSums SupportTransitionSystem

def Event.Traffic : Event → Prop
  | .onRead _ | .onWrite _ _ => True
  | _ => False

/-- What an instruction fires. -/
def pend : Instr → List Event
  | .fireOnOpen => [.onOpen]
  | .fire e => [e]
  | _ => []

def story {F : Type} (s : State F) : List Event := s.events ++ s.main.flatMap pend

/-- The calls of `fire_on_close` with another code than `ec`. -/
def otherCodeTokens (ec : ErrorCode) : Tokens where
  own
    | .fireOnClose code => if code = ec then 0 else 1
    | _ => 0
  task
    | .fireOnClose code => if code = ec then 0 else 1
    | _ => 0
  op _ := 0
  task_code t := by rcases t with _ | _ | _ | (_ | _) <;> rfl
  op_handler o r := by cases o <;> rfl

/-- The call of `close` that found the bit set gives its code to `fire_on_close`. -/
def Winner (s : State Counters) : Prop :=
  s.flag.close = true ∧ s.winners = [] ∨
    s.flag.close = false ∧ ∃ ec, s.winners = [ec] ∧ (otherCodeTokens ec).load s = 0

def Story (s : State Counters) : Prop :=
  ∃ traffic, (∀ e ∈ traffic, Event.Traffic e) ∧
    (s.flag.error = true ∧ story s = .onOpen :: traffic ∨
      s.flag.error = false ∧ ∃ ec, s.winners = [ec] ∧
        (story s = .onOpen :: traffic ++ [.onError ec, .onClose] ∨
          story s = .onOpen :: traffic ++ [.onError ec, .onClose, .onEndReference]))

def Ends (s : State Counters) : Prop :=
  endTokens.load s + s.events.count .onEndReference = (counters.isZero s.flag).toNat

def Deletes (s : State Counters) : Prop :=
  deleteTokens.load s + s.deleted.toNat = (counters.isZero s.flag).toNat

structure Opened (s : State Counters) : Prop where
  invariant : Invariant true s
  ends : Ends s
  deletes : Deletes s
  winner : Winner s
  story : Story s

variable {i : Instr} {c : Call} {s t u : State Counters} {front rest : List Instr} {onLoop b : Bool}

theorem isZero_eq_false_of_refs {x : Counters} (h : 0 < x.refs) : counters.isZero x = false := by
  have hne : x.refs ≠ 0 := Nat.ne_of_gt h
  simp [counters, hne]

theorem isZero_eq_false_of_error {x : Counters} (h : x.error = true) :
    counters.isZero x = false := by
  simp [counters, h]

theorem isZero_same {x y : Counters} (hx : counters.isZero x = false)
    (hy : counters.isZero y = false) :
    (counters.isZero x).toNat = (counters.isZero y).toNat + 0 := by
  rw [hx, hy]
  rfl

/-- The count becomes zero once, by the release that leaves `fire_on_end_reference` behind. -/
theorem isZero_ran (h : Invariant onLoop s) (hr : Ran b i s t u front)
    (hready : i.Ready counters s)
    (hpos : ∀ holder, i = .release holder → 0 < s.flag.refs)
    (hclose : ∀ ec, i = .fireOnClose ec → 0 < s.flag.refs)
    (htakes : i = .fireOnOpen ∨ i = .readBody ∨ i = .writeBody → s.flag.error = true) :
    (counters.isZero t.flag).toNat =
        (counters.isZero s.flag).toNat + total endTokens.instr front ∧
      total deleteTokens.instr front = total endTokens.instr front := by
  rw [hr.parts]
  cases hr.outcome with
  | opened | openPosted | readBody | writeBody =>
    have herror := htakes (by simp)
    exact ⟨isZero_same (isZero_eq_false_of_refs (Nat.succ_pos _))
      (isZero_eq_false_of_error herror), rfl⟩
  | addRefExecute held =>
    exact ⟨isZero_same (isZero_eq_false_of_refs (Nat.succ_pos _))
      (isZero_eq_false_of_refs hready.1), rfl⟩
  | closeWon ec hc =>
    have herror := h.closes.error_of_close hc
    exact ⟨isZero_same (isZero_eq_false_of_error herror) (isZero_eq_false_of_error herror), rfl⟩
  | failed ec he =>
    have hrefs := hclose ec rfl
    exact ⟨isZero_same (isZero_eq_false_of_refs hrefs) (isZero_eq_false_of_refs hrefs), rfl⟩
  | releaseLast holder hz =>
    refine ⟨?_, rfl⟩
    rw [isZero_eq_false_of_refs (hpos holder rfl)]
    exact congrArg Bool.toNat hz
  | releaseSome holder hz =>
    exact ⟨isZero_same hz (isZero_eq_false_of_refs (hpos holder rfl)), rfl⟩
  | _ => exact ⟨rfl, rfl⟩

/-- What is fired next, or was given to the engine, is counted where it goes. -/
theorem ends_ran (h : Ends s) (hr : Ran b i s t u front)
    (hzero : (counters.isZero t.flag).toNat =
      (counters.isZero s.flag).toNat + total endTokens.instr front) : Ends t := by
  have hload := hr.load endTokens
  have hops : total endTokens.op (newOps s i) = 0 := total_eq_zero fun _ _ => rfl
  have hcount : t.events.count .onEndReference + total endTokens.task (newTasks i) =
      s.events.count .onEndReference + endTokens.instr i := by
    rw [hr.parts]
    cases hr.outcome with
    | fire e => cases e <;> simp [Tokens.instr, weigh, endTokens, newTasks]
    | _ => rfl
  rw [Ends] at h ⊢
  omega

theorem deletes_ran (h : Deletes s) (hr : Ran b i s t u front)
    (hzero : (counters.isZero t.flag).toNat =
      (counters.isZero s.flag).toNat + total deleteTokens.instr front)
    (hlive : i = .delete → s.deleted = false) : Deletes t := by
  have hload := hr.load deleteTokens
  have hops : total deleteTokens.op (newOps s i) = 0 := total_eq_zero fun _ _ => rfl
  have hdeleted : t.deleted.toNat + total deleteTokens.task (newTasks i) =
      s.deleted.toNat + deleteTokens.instr i := by
    rw [hr.parts]
    cases hr.outcome with
    | delete =>
      rw [hlive rfl]
      rfl
    | _ => rfl
  rw [Deletes] at h ⊢
  omega

theorem otherCode_load_le (ec : ErrorCode) (s : State Counters) :
    (otherCodeTokens ec).load s ≤ closeTokens.load s := by
  have hinstr (i : Instr) : (otherCodeTokens ec).instr i ≤ closeTokens.instr i := by
    rcases i with _ | _ | _ | _ | _ | _ | _ | _ | _ | _ | _ | code | (_ | code | _ | _) | _ | _ | _
    all_goals first
      | exact Nat.le_refl 0
      | (simp only [Tokens.instr, weigh, otherCodeTokens, closeTokens]
         split <;> decide)
  have htask (t : Task) : (otherCodeTokens ec).task t ≤ closeTokens.task t := by
    rcases t with _ | code | _ | _
    all_goals first
      | exact Nat.le_refl 0
      | (simp only [otherCodeTokens, closeTokens]
         split <;> decide)
  have hmain := total_le_total (l := s.main) fun i _ => hinstr i
  have hothers := total_le_total (l := s.others) fun i _ => hinstr i
  have htasks := total_le_total (l := s.tasks) fun t _ => htask t
  have hops := total_le_total (w := (otherCodeTokens ec).op) (v := closeTokens.op) (l := s.ops)
    fun _ _ => Nat.le_refl 0
  simp only [Tokens.load]
  omega

theorem winner_ran (h : Winner s) (hcloses : Closes s) (hr : Ran b i s t u front) :
    Winner t := by
  have hload := fun ec => hr.load (otherCodeTokens ec)
  rw [Winner, hr.flag, hr.winners]
  cases hr.outcome with
  | closeWon ec hc =>
    have herror := hcloses.error_of_close hc
    rw [Closes, hc, herror] at hcloses
    have hle := otherCode_load_le ec s
    have hgain := hload ec
    rcases h with ⟨-, hnone⟩ | ⟨hc', -⟩
    · refine Or.inr ⟨rfl, ec, by simp [hnone], ?_⟩
      have hfront : total (otherCodeTokens ec).instr [.execute (.fireOnClose ec)] = 0 := by
        simp [otherCodeTokens]
      have htask : total (otherCodeTokens ec).task (newTasks (.close ec)) = 0 := rfl
      have hop : total (otherCodeTokens ec).op (newOps s (.close ec)) = 0 := rfl
      rw [Bool.toNat_true] at hcloses
      omega
    · rw [hc] at hc'
      cases hc'
  | _ =>
    rcases h with h | ⟨hc, ec, hwinners, hnone⟩
    · exact Or.inl h
    · refine Or.inr ⟨hc, ec, hwinners, ?_⟩
      have hgain := hload ec
      generalize (otherCodeTokens ec).load t = a, (otherCodeTokens ec).load s = a' at *
      simp_all [Tokens.instr, weigh, otherCodeTokens, newTasks, newOps]

theorem winner_of_fireOnClose {ec : ErrorCode} (h : Winner s) (hcloses : Closes s)
    (hs : s.main = .fireOnClose ec :: rest) : s.winners = [ec] := by
  have hheld : 1 ≤ closeTokens.load s := closeTokens.instr_le_load hs
  rcases h with ⟨hc, -⟩ | ⟨-, code, hwinners, hnone⟩
  · have herror := hcloses.error_of_close hc
    rw [Closes, hc, herror, Bool.toNat_true] at hcloses
    omega
  · have hcode := (otherCodeTokens code).instr_le_load hs
    have hinstr : (otherCodeTokens code).instr (.fireOnClose ec) = if ec = code then 0 else 1 :=
      rfl
    rw [hnone, hinstr] at hcode
    split at hcode
    · next heq => rw [hwinners, heq]
    · omega

theorem story_same (h : Story s) (hstory : story t = story s)
    (herror : t.flag.error = s.flag.error)
    (hwinners : s.flag.error = false → t.winners = s.winners) : Story t := by
  obtain ⟨traffic, htraffic, ⟨he, hopen⟩ | ⟨he, ec, hec, hclosed⟩⟩ := h
  · exact ⟨traffic, htraffic, Or.inl ⟨herror.trans he, hstory.trans hopen⟩⟩
  · refine ⟨traffic, htraffic, Or.inr ⟨herror.trans he, ec, (hwinners he).trans hec, ?_⟩⟩
    rwa [hstory]

/-- While the error bit is set the story is open to one more read or write. -/
theorem story_traffic (h : Story s) (he : s.flag.error = true) {e : Event}
    (htraffic : Event.Traffic e) (hstory : story t = story s ++ [e])
    (herror : t.flag.error = s.flag.error) : Story t := by
  obtain ⟨traffic, hall, ⟨-, hopen⟩ | ⟨he', -⟩⟩ := h
  · refine ⟨traffic ++ [e], ?_, Or.inl ⟨herror.trans he, ?_⟩⟩
    · intro x hx
      rcases List.mem_append.mp hx with hx | hx
      · exact hall x hx
      · exact List.mem_singleton.mp hx ▸ htraffic
    · rw [hstory, hopen]
      rfl
  · rw [he] at he'
    cases he'

theorem pend_releases (h : ∀ j ∈ rest, ∃ holder, j = .release holder) :
    rest.flatMap pend = [] := by
  rw [List.flatMap_eq_nil_iff]
  intro j hj
  obtain ⟨holder, rfl⟩ := h j hj
  rfl

theorem story_run (h : Opened s) (hr : Ran true i s t u front) (hs : s.main = i :: rest)
    (ht : t.main = front ++ rest) : Story t := by
  have htail := h.invariant.heads.head i (by rw [hs]; rfl)
  rw [hs, List.tail_cons] at htail
  have hstory : story s = s.events ++ (pend i ++ rest.flatMap pend) := by
    rw [story, hs, List.flatMap_cons]
  have hstory' : story t = u.events ++ (front.flatMap pend ++ rest.flatMap pend) := by
    rw [story, ht, hr.events, List.flatMap_append]
  have herror := hr.flag
  have hwinners := hr.winners
  cases hr.outcome with
  | fire e =>
    refine story_same h.story ?_ (by rw [herror]) fun _ => hwinners
    rw [hstory, hstory']
    simp [pend]
  | readDone nbytes hc =>
    refine story_traffic h.story (h.invariant.closes.error_of_close hc)
      (e := .onRead nbytes) trivial ?_ (by rw [herror])
    rw [hstory, hstory', pend_releases (htail rfl)]
    simp [pend]
  | writeFlushed nbytes hc hq =>
    refine story_traffic h.story (h.invariant.closes.error_of_close hc)
      (e := .onWrite nbytes true) trivial ?_ (by rw [herror])
    rw [hstory, hstory', pend_releases (htail rfl)]
    simp [pend]
  | writeLeft nbytes hc hq =>
    refine story_traffic h.story (h.invariant.closes.error_of_close hc)
      (e := .onWrite nbytes false) trivial ?_ (by rw [herror])
    rw [hstory, hstory', pend_releases (htail rfl)]
    simp [pend]
  | failed ec he =>
    obtain ⟨traffic, htraffic, ⟨-, hopen⟩ | ⟨he', -⟩⟩ := h.story
    · have hec := winner_of_fireOnClose (s := s) h.winner h.invariant.closes hs
      refine ⟨traffic, htraffic, Or.inr ⟨by rw [herror], ec, hwinners.trans hec, Or.inl ?_⟩⟩
      rw [hstory, pend_releases (htail rfl)] at hopen
      have hevents : s.events = .onOpen :: traffic := by simpa [pend] using hopen
      rw [hstory', pend_releases (htail rfl)]
      simp [pend, hevents]
    · rw [he] at he'
      cases he'
  | closed ec he =>
    have hheld : 1 ≤ closeTokens.load s := closeTokens.instr_le_load hs
    have hcloses := h.invariant.closes
    rw [Closes, he, Bool.toNat_false] at hcloses
    omega
  | closeWon ec hc =>
    refine story_same h.story ?_ (by rw [herror]) fun he => ?_
    · rw [hstory, hstory']
      simp [pend]
    · rw [h.invariant.closes.error_of_close hc] at he
      cases he
  | openPosted hb => cases hb
  | _ =>
    refine story_same h.story ?_ ((congrArg Counters.error herror).trans rfl) fun _ => hwinners
    rw [hstory, hstory']
    simp [pend]

theorem story_other (h : Opened s) (hr : Ran false i s t u front) (hi : Instr.OnOther i)
    (ht : t.main = s.main) : Story t := by
  have herror := hr.flag
  have hwinners := hr.winners
  have hstory : story t = u.events ++ s.main.flatMap pend := by rw [story, hr.events, ht]
  cases hr.outcome with
  | fire => exact hi.elim
  | failed => exact hi.elim
  | closeWon ec hc =>
    refine story_same h.story hstory (by rw [herror]) fun he => ?_
    rw [h.invariant.closes.error_of_close hc] at he
    cases he
  | _ =>
    exact story_same h.story hstory ((congrArg Counters.error herror).trans rfl) fun _ => hwinners

/-! ## Steps -/

theorem opened_ran (h : Opened s) (hr : Ran b i s t u front) (hready : i.Ready counters s)
    (hinv : Invariant true t) (hstory : Story t)
    (hpos : ∀ holder, i = .release holder → 0 < s.flag.refs)
    (hclose : ∀ ec, i = .fireOnClose ec → 0 < s.flag.refs)
    (htakes : i = .fireOnOpen ∨ i = .readBody ∨ i = .writeBody → s.flag.error = true)
    (hlive : i = .delete → s.deleted = false) : Opened t := by
  obtain ⟨hzero, hsame⟩ := isZero_ran h.invariant hr hready hpos hclose htakes
  exact {
    invariant := hinv
    ends := ends_ran h.ends hr hzero
    deletes := deletes_ran h.deletes hr (hsame ▸ hzero) hlive
    winner := winner_ran h.winner h.invariant.closes hr
    story := hstory }

theorem opened_run (h : Opened s) (hs : s.main = i :: rest) (hready : i.Ready counters s) :
    Opened (next counters s .run) := by
  obtain ⟨u, front, hr, hmain, -⟩ := ran_run hs
  refine opened_ran h hr hready (invariant_run h.invariant hs hready) (story_run h hr hs hmain)
    ?_ ?_ ?_ ?_
  · rintro holder rfl
    exact h.invariant.refs_pos_run hs
  · rintro ec rfl
    exact h.invariant.refs_pos (h.invariant.settled_of_main hs (by simp))
      (Or.inl (refTokens.instr_le_load hs))
  · rintro (rfl | hbody | hbody)
    · cases h.invariant.phase with
      | before thread main refs error => exact error
      | done thread reposts tokens =>
        have := openTokens.instr_le_load hs
        rw [tokens] at this
        cases this
      | start thread => cases thread
      | posted thread => cases thread
    · exact h.invariant.bodies (Or.inl (by rw [hs, hbody]; exact List.mem_cons_self))
    · exact h.invariant.bodies (Or.inr (by rw [hs, hbody]; exact List.mem_cons_self))
  · rintro rfl
    have hdeletes := h.deletes
    have hheld : 1 ≤ deleteTokens.load s := deleteTokens.instr_le_load hs
    have hzero := Bool.toNat_le (counters.isZero s.flag)
    rw [Deletes] at hdeletes
    cases hd : s.deleted with
    | false => rfl
    | true =>
      rw [hd, Bool.toNat_true] at hdeletes
      omega

theorem opened_runOther (h : Opened s) {k : Nat} (hi : s.others[k]? = some i)
    (hready : i.Ready counters s) : Opened (next counters s (.runOther k)) := by
  obtain ⟨u, front, hr, hmain, -⟩ := ran_other hi
  have hmem : i ∈ s.others := List.mem_of_getElem? hi
  have hon := h.invariant.threads i hmem
  refine opened_ran h hr hready (invariant_runOther h.invariant hi hready)
    (story_other h hr hon hmain) ?_ ?_ ?_ ?_
  · rintro holder rfl
    exact h.invariant.refs_pos_other hmem
  · rintro ec rfl
    exact hon.elim
  · rintro (rfl | rfl | rfl)
    · cases h.invariant.phase with
      | before thread main refs error => exact error
      | done thread reposts tokens =>
        have := eq_zero_of_total (w := openTokens.instr) (l := s.others)
          (by simp only [Tokens.load] at tokens; omega) hmem
        cases this
      | start thread => cases thread
      | posted thread => cases thread
    · exact hon.elim
    · exact hon.elim
  · rintro rfl
    exact hon.elim

/-- `fire_on_end_reference` starts on a story that ends with the close event. -/
theorem story_end (h : Opened s) (hmain : s.main = []) {tasks : List Task}
    (htasks : s.tasks = .fireOnEndReference :: tasks) (hload : t.winners = s.winners)
    (hstory : story t = s.events ++ [.onEndReference]) (herror : t.flag = s.flag) : Story t := by
  have hends := h.ends
  have hheld : 1 ≤ endTokens.load s := by
    have : 1 ≤ total endTokens.task s.tasks := by
      rw [htasks, total_cons]
      exact Nat.le_add_right 1 _
    simp only [Tokens.load]
    omega
  have hone := Bool.toNat_le (counters.isZero s.flag)
  rw [Ends] at hends
  have hzero : counters.isZero s.flag = true := by
    cases hz : counters.isZero s.flag with
    | true => rfl
    | false =>
      rw [hz, Bool.toNat_false] at hends
      omega
  have he : s.flag.error = false := by
    cases he : s.flag.error with
    | false => rfl
    | true => simp [isZero_eq_false_of_error he] at hzero
  have hevents : story s = s.events := by rw [story, hmain]; simp
  obtain ⟨traffic, htraffic, ⟨he', -⟩ | ⟨-, ec, hec, hclosed | hended⟩⟩ := h.story
  · rw [he] at he'
    cases he'
  · refine ⟨traffic, htraffic, Or.inr ⟨by rw [herror, he], ec, hload.trans hec, Or.inr ?_⟩⟩
    rw [hstory, ← hevents, hclosed, List.append_assoc]
    rfl
  · have : s.events.count .onEndReference = 0 := by omega
    rw [← hevents, hended, List.count_eq_zero] at this
    exact absurd (by simp) this

/-- A closure or a handler begins, which is no event yet. -/
theorem opened_of_started (hst : Started s t) (h : Opened s) (hevents : t.events = s.events)
    (hdeleted : t.deleted = s.deleted) (hwinners : t.winners = s.winners) (hstory : Story t) :
    Opened t := by
  refine ⟨hst.invariant h.invariant, ?_, ?_, ?_, hstory⟩
  · rw [Ends, hst.load, hst.flag, hevents]
    exact h.ends
  · rw [Deletes, hst.load, hst.flag, hdeleted]
    exact h.deletes
  · simp only [Winner, hst.load, hst.flag, hwinners]
    exact h.winner

theorem opened_task (h : Opened s) (hmain : s.main = []) (htasks : s.tasks ≠ []) :
    Opened (next counters s .task) := by
  have hst := started_task hmain htasks
  obtain ⟨task, tasks, hcons⟩ := List.exists_cons_of_ne_nil htasks
  have hnext : next counters s .task = { s with tasks, main := task.code } := by
    simp only [next, hcons]
  rw [hnext] at hst ⊢
  refine opened_of_started hst h rfl rfl rfl ?_
  cases task with
  | fireOnOpen =>
    cases h.invariant.phase with
    | before thread main => simp [hmain] at main
    | done thread reposts tokens =>
      have := eq_zero_of_total (w := openTokens.task) (l := s.tasks) (x := .fireOnOpen)
        (by simp only [Tokens.load] at tokens; omega) (by simp [hcons])
      cases this
    | start thread => cases thread
    | posted thread => cases thread
  | fireOnEndReference => exact story_end h hmain hcons rfl rfl rfl
  | fireOnClose ec =>
    exact story_same h.story (by simp [story, Task.code, pend, hmain]) rfl fun _ => rfl
  | held held =>
    refine story_same h.story ?_ rfl fun _ => rfl
    cases held <;> simp [story, Task.code, pend, hmain]

theorem opened_complete (h : Opened s) (hmain : s.main = []) {k : Nat} (hk : k < s.ops.length)
    (r : Result) : Opened (next counters s (.complete k r)) := by
  have hst := started_complete hmain hk r
  have hop : s.ops[k]? = some s.ops[k] := List.getElem?_eq_getElem hk
  simp only [next, hop] at hst ⊢
  refine opened_of_started hst h rfl rfl rfl (story_same h.story ?_ rfl fun _ => rfl)
  cases s.ops[k] <;> simp [story, Op.handler, pend, hmain]

theorem opened_called (h : Opened s) (hcall : Called c s t) (hinv : Invariant true t)
    (hmain : t.main = s.main ∨ t.main = c.code ++ s.main) : Opened t := by
  have hcode : total endTokens.instr c.code = 0 ∧ total deleteTokens.instr c.code = 0 ∧
      (∀ ec, total (otherCodeTokens ec).instr c.code = 0) ∧ c.code.flatMap pend = [] := by
    cases c <;> exact ⟨rfl, rfl, fun _ => rfl, rfl⟩
  obtain ⟨hend, hdelete, hother, hpend⟩ := hcode
  obtain ⟨hclose, herror, -⟩ := hcall.flag
  have hsame : t.events = s.events ∧ t.deleted = s.deleted ∧ t.winners = s.winners ∧
      counters.isZero t.flag = counters.isZero s.flag := by
    have hallowed := hcall.allowed
    rw [hcall.effect]
    cases c with
    | addRef =>
      refine ⟨rfl, rfl, rfl, ?_⟩
      exact (isZero_eq_false_of_refs (Nat.succ_pos _)).trans
        (isZero_eq_false_of_refs hallowed.1).symm
    | _ => exact ⟨rfl, rfl, rfl, rfl⟩
  obtain ⟨hevents, hdeleted, hwinners, hzero⟩ := hsame
  refine ⟨hinv, ?_, ?_, ?_, ?_⟩
  · rw [Ends, hcall.load, hend, hevents, hzero]
    exact h.ends
  · rw [Deletes, hcall.load, hdelete, hdeleted, hzero]
    exact h.deletes
  · have := h.winner
    simpa only [Winner, hclose, hwinners, hcall.load, hother, Nat.add_zero] using this
  · refine story_same h.story ?_ herror fun _ => hwinners
    rcases hmain with hmain | hmain
    · rw [story, story, hevents, hmain]
    · rw [story, story, hevents, hmain, List.flatMap_append, hpend, List.nil_append]

theorem opened_opening : Opened (opening counters true) where
  invariant := invariant_opening true
  ends := rfl
  deletes := rfl
  winner := Or.inl ⟨rfl, rfl⟩
  story := ⟨[], by simp, Or.inl ⟨rfl, rfl⟩⟩

theorem opened_step (h : Opened s) (e : Step) (he : Enabled counters s e) :
    Opened (next counters s e) := by
  cases e with
  | run =>
    obtain ⟨i, hi, hready⟩ := he
    obtain ⟨rest, hs⟩ := List.head?_eq_some_iff.mp hi
    exact opened_run h hs hready
  | runOther k =>
    obtain ⟨i, hi, hready⟩ := he
    exact opened_runOther h hi hready
  | task => exact opened_task h he.1 he.2
  | complete k r => exact opened_complete h he.1 he.2 r
  | call c =>
    exact opened_called h ⟨he.2.2, he.2.1, by cases c <;> rfl, fun w => load_call counters w s c⟩
      (invariant_step h.invariant (.call c) he) (Or.inr rfl)
  | callOther c =>
    exact opened_called h ⟨he.2, he.1, by cases c <;> rfl, fun w => load_callOther counters w s c⟩
      (invariant_step h.invariant (.callOther c) he) (Or.inl (by cases c <;> rfl))

theorem opened_reachable (h : (machine counters).Reachable (opening counters true) s) :
    Opened s :=
  h.invariant opened_opening fun _ e _ hopen he _ => opened_step hopen e he

/-- The events come in the order open, reads and writes, error, close, end of references,
and the error carries the code of the only call of `close` that found the bit set. -/
theorem events_in_order {s : State (BitVec 32)}
    (h : (machine word).Reachable (opening word true) s) :
    (∃ traffic ec, (∀ e ∈ traffic, Event.Traffic e) ∧
      s.events <+: .onOpen :: traffic ++ [.onError ec, .onClose, .onEndReference]) ∧
    s.winners.length ≤ 1 ∧ ∀ ec, .onError ec ∈ s.events → s.winners = [ec] := by
  obtain ⟨s, hs, rfl⟩ := execution_encode h
  have hopen := opened_reachable (hs.mono fun _ _ _ => trivial)
  have hevents : s.events <+: story s := List.prefix_append _ _
  have hwinners : s.winners.length ≤ 1 := by
    rcases hopen.winner with ⟨-, hnone⟩ | ⟨-, ec, hec, -⟩
    · simp [hnone]
    · simp [hec]
  have hnotError {traffic : List Event} (htraffic : ∀ e ∈ traffic, Event.Traffic e)
      (ec : ErrorCode) : .onError ec ∉ traffic := fun hmem => htraffic _ hmem
  obtain ⟨traffic, htraffic, ⟨-, hstory⟩ | ⟨-, code, hcode, hstory⟩⟩ := hopen.story
  · refine ⟨⟨traffic, 0, htraffic, ?_⟩, hwinners, fun ec hmem => ?_⟩
    · exact hevents.trans (hstory ▸ List.prefix_append _ _)
    · have := hevents.subset hmem
      simp [hstory, hnotError htraffic ec] at this
  · have hfull : story s <+: .onOpen :: traffic ++ [.onError code, .onClose, .onEndReference] := by
      rcases hstory with hstory | hstory
      · rw [hstory]
        exact ⟨[.onEndReference], by simp⟩
      · exact hstory ▸ List.prefix_refl _
    refine ⟨⟨traffic, code, htraffic, hevents.trans hfull⟩, hwinners, fun ec hmem => ?_⟩
    have := (hevents.trans hfull).subset hmem
    simp [hnotError htraffic ec] at this
    rw [this]
    exact hcode

/-- A peer that sends five bytes and then resets, while another thread calls `close` too late. -/
def resetByPeer : List Step :=
  List.replicate 5 Step.run ++ [.complete 0 (.ok 5)] ++ List.replicate 6 Step.run ++
    [.complete 0 (.error 104)] ++ List.replicate 2 Step.run ++
    [.callOther (.close 125), .runOther 0] ++ List.replicate 2 Step.run ++ [.task] ++
    List.replicate 7 Step.run ++ [.task] ++ List.replicate 3 Step.run

theorem events_in_order_resetByPeer :
    let s := (machine word).runTrace (opening word true) resetByPeer
    s.events = [.onOpen, .onRead 5, .onError 104, .onClose, .onEndReference] ∧
      s.winners = [104] ∧ s.winners.length ≤ 1 := by
  have hvalid : (machine word).ValidTrace (fun _ _ => True) (opening word true) resetByPeer := by
    decide +kernel
  have hs := hvalid.reachable
  exact ⟨by decide +kernel, by decide +kernel, (events_in_order hs).2.1⟩

end ChannelEvents
