import Tcode.ChannelTokens

/-! # The invariant of a channel

Stated over `counters`, where `_flag` is taken apart. Each kind of token is counted
wherever it can be: in instructions, closures and operations.
-/
namespace ChannelInvariant

open ChannelFlagWord ChannelMachine ChannelTokens SupportListSums SupportTransitionSystem

/-- The references that are held. -/
def refTokens : Tokens where
  own
    | .fireOnClose _ | .release _ => 1
    | _ => 0
  task
    | .fireOnClose _ | .held _ => 1
    | _ => 0
  op _ := 1
  task_code t := by rcases t with _ | _ | _ | (_ | _) <;> rfl
  op_handler o r := by cases o <;> rfl

/-- Those among them that are held for callers. -/
def callerTokens : Tokens where
  own
    | .release .caller => 1
    | _ => 0
  task
    | .held _ => 1
    | _ => 0
  op _ := 0
  task_code t := by rcases t with _ | _ | _ | (_ | _) <;> rfl
  op_handler o r := by cases o <;> rfl

def openTokens : Tokens where
  own
    | .fireOnOpen => 1
    | _ => 0
  task
    | .fireOnOpen => 1
    | _ => 0
  op _ := 0
  task_code t := by rcases t with _ | _ | _ | (_ | _) <;> rfl
  op_handler o r := by cases o <;> rfl

def closeTokens : Tokens where
  own
    | .fireOnClose _ => 1
    | _ => 0
  task
    | .fireOnClose _ => 1
    | _ => 0
  op _ := 0
  task_code t := by rcases t with _ | _ | _ | (_ | _) <;> rfl
  op_handler o r := by cases o <;> rfl

/-- The reading of the channel, from `fire_on_open` on. -/
def readTokens : Tokens where
  own
    | .fireOnOpen | .read | .readBody | .handleRead _ => 1
    | _ => 0
  task
    | .fireOnOpen => 1
    | _ => 0
  op
    | .read => 1
    | .write _ => 0
  task_code t := by rcases t with _ | _ | _ | (_ | _) <;> rfl
  op_handler o r := by cases o <;> rfl

/-- The writing of what is queued. -/
def writeTokens : Tokens where
  own
    | .writeRemains | .writeBody | .handleWrite _ => 1
    | _ => 0
  task _ := 0
  op
    | .read => 0
    | .write _ => 1
  task_code t := by rcases t with _ | _ | _ | (_ | _) <;> rfl
  op_handler o r := by cases o <;> rfl

/-- `fire_on_end_reference`, up to its event. -/
def endTokens : Tokens where
  own
    | .fire .onEndReference => 1
    | _ => 0
  task
    | .fireOnEndReference => 1
    | _ => 0
  op _ := 0
  task_code t := by rcases t with _ | _ | _ | (_ | _) <;> rfl
  op_handler o r := by cases o <;> rfl

/-- `fire_on_end_reference`, up to the end of the channel. -/
def deleteTokens : Tokens where
  own
    | .delete => 1
    | _ => 0
  task
    | .fireOnEndReference => 1
    | _ => 0
  op _ := 0
  task_code t := by rcases t with _ | _ | _ | (_ | _) <;> rfl
  op_handler o r := by cases o <;> rfl

/-! ## Parts of the invariant -/

/-- Each reference in the count is held by somebody, or was taken by the call of
`fire_on_open` that posted itself. -/
def Accounted (s : State Counters) : Prop :=
  s.flag.refs + openTokens.load s =
    s.flag.close.toNat + refTokens.load s + s.user + s.reposts

/-- The close bit becomes the one call of `fire_on_close`, which clears the error bit. -/
def Closes (s : State Counters) : Prop :=
  s.flag.close.toNat + closeTokens.load s = s.flag.error.toNat

/-- The loop thread is about to close the channel. -/
def Closing (s : State Counters) : Prop := ∃ ec, s.main.head? = some (.close ec)

def Reads (s : State Counters) : Prop :=
  readTokens.load s ≤ 1 ∧ (s.flag.close = true → readTokens.load s = 1 ∨ Closing s)

def Writes (s : State Counters) : Prop :=
  writeTokens.load s ≤ 1 ∧
    (s.flag.close = true → (writeTokens.load s = 1 ↔ s.writeBuffers ≠ []) ∨ Closing s)

def RoomForCallers (s : State Counters) : Prop :=
  s.user + callerTokens.load s + 7 ≤ 268435456

def Instr.OnOther : Instr → Prop
  | .fireOnOpen | .close _ | .doWrite _ | .addRefExecute _ | .execute _ | .release .caller => True
  | _ => False

/-- Instructions that the loop thread only has when it starts something. -/
def Instr.starts : Instr → Bool
  | .fireOnOpen | .fireOnClose _ | .handleRead _ | .handleWrite _ => true
  | _ => false

/-- What starts on the loop thread has nothing but a `release` behind it. -/
structure Heads (main : List Instr) : Prop where
  tail : ∀ i ∈ main.tail, Instr.starts i = false
  head : ∀ i ∈ main.head?, Instr.starts i = true → ∀ j ∈ main.tail, ∃ h, j = .release h

/-- References that the loop thread gives back for the channel itself. -/
def ownRelease : Instr → Nat
  | .fireOnClose _ | .release .opened | .release .read | .release .write => 1
  | _ => 0

/-- Who has called `fire_on_open`, and how far it has come. -/
inductive OpenPhase (onLoop : Bool) (s : State Counters) : Prop where
  | start (thread : onLoop = false) (state : s = opening counters false)
  | before (thread : onLoop = true) (main : s.main = [.fireOnOpen]) (refs : s.flag.refs = 0)
      (error : s.flag.error = true) (user : s.user = 0) (reposts : s.reposts = 0)
      (tokens : openTokens.load s = 1)
      (others : ∀ i ∈ s.others, i ≠ .fireOnOpen ∧ ∀ h, i ≠ .release h)
  | posted (thread : onLoop = false) (reposts : s.reposts = 1) (tokens : openTokens.load s ≤ 1)
      (others : .fireOnOpen ∉ s.others)
  | done (thread : onLoop = true) (reposts : s.reposts = 0) (tokens : openTokens.load s = 0)

structure Invariant (onLoop : Bool) (s : State Counters) : Prop where
  accounted : Accounted s
  closes : Closes s
  reads : Reads s
  writes : Writes s
  callers : RoomForCallers s
  phase : OpenPhase onLoop s
  heads : Heads s.main
  threads : ∀ i ∈ s.others, Instr.OnOther i
  releases : total ownRelease s.main ≤ 1
  bodies : .readBody ∈ s.main ∨ .writeBody ∈ s.main → s.flag.error = true

variable {onLoop : Bool} {i : Instr} {c : Call} {s t u : State Counters}
  {front rest : List Instr}

/-! ## Bounds on the number of references -/

theorem OpenPhase.reposts_le (h : OpenPhase onLoop s) : s.reposts ≤ 1 := by
  cases h with
  | start thread state => simp [state, opening]
  | before thread main refs error user reposts => omega
  | posted thread reposts => omega
  | done thread reposts => omega

theorem refTokens_instr_le (i : Instr) :
    refTokens.instr i ≤ callerTokens.instr i + (closeTokens.instr i + ownRelease i) := by
  cases i with
  | execute t => cases t <;> simp [refTokens, callerTokens, closeTokens]
  | release holder => cases holder <;> exact Nat.le_refl 1
  | fireOnClose ec => simp [Tokens.instr, weigh, refTokens, callerTokens, closeTokens, ownRelease]
  | _ => exact Nat.zero_le _

theorem refTokens_other_le {i : Instr} (h : Instr.OnOther i) :
    refTokens.instr i ≤ callerTokens.instr i + closeTokens.instr i := by
  cases i with
  | execute t => cases t <;> simp [refTokens, callerTokens, closeTokens]
  | release holder => cases holder <;> first | exact Nat.le_refl 1 | exact h.elim
  | fireOnClose ec => exact h.elim
  | _ => exact Nat.zero_le _

theorem refTokens_task_le (t : Task) :
    refTokens.task t ≤ callerTokens.task t + closeTokens.task t := by
  cases t <;> simp [refTokens, callerTokens, closeTokens]

theorem ops_le (op : Op) : refTokens.op op ≤ readTokens.op op + writeTokens.op op := by
  cases op <;> exact Nat.le_refl 1

theorem callerTokens_instr_le (i : Instr) : callerTokens.instr i ≤ refTokens.instr i := by
  cases i with
  | execute t => cases t <;> simp [refTokens, callerTokens]
  | release holder => cases holder <;> simp [Tokens.instr, weigh, refTokens, callerTokens]
  | _ => exact Nat.zero_le _

theorem callerTokens_task_le (t : Task) : callerTokens.task t ≤ refTokens.task t := by
  cases t <;> simp [refTokens, callerTokens]

/-- The count stays below the bits of the word, also after one more reference. -/
theorem Invariant.refs_lt (h : Invariant onLoop s) : s.flag.refs + 1 < 268435456 := by
  have haccounted := h.accounted
  have hcloses := h.closes
  have hcallers := h.callers
  have hreposts := h.phase.reposts_le
  have hreleases := h.releases
  have hreads := h.reads.1
  have hwrites := h.writes.1
  have herror := Bool.toNat_le s.flag.error
  have hmain := total_le_total (l := s.main) fun i _ => refTokens_instr_le i
  have hothers := total_le_total (w := refTokens.instr) fun i hi =>
    refTokens_other_le (h.threads i hi)
  have htasks := total_le_total (l := s.tasks) fun t _ => refTokens_task_le t
  have hops := total_le_total (l := s.ops) fun op _ => ops_le op
  simp only [total_add] at hmain hothers htasks hops
  simp only [Accounted, Closes, RoomForCallers, Tokens.load] at *
  omega

/-- Once the first reference was taken, whoever holds one keeps the count up. -/
theorem Invariant.refs_pos (h : Invariant onLoop s) (hopen : openTokens.load s ≤ s.reposts)
    (hheld : 0 < refTokens.load s ∨ s.flag.close = true) : 0 < s.flag.refs := by
  have haccounted := h.accounted
  rw [Accounted] at haccounted
  rcases hheld with hheld | hheld
  · omega
  · rw [hheld, Bool.toNat_true] at haccounted
    omega

theorem Invariant.settled_of_main (h : Invariant onLoop s) (hmain : s.main = i :: rest)
    (hi : i ≠ .fireOnOpen) : openTokens.load s ≤ s.reposts := by
  cases h.phase with
  | start thread state => simp [state, opening] at hmain
  | before thread main =>
    rw [main] at hmain
    exact absurd (List.cons.inj hmain).1.symm hi
  | posted thread reposts tokens => omega
  | done thread reposts tokens => omega

theorem Invariant.settled_of_refs (h : Invariant onLoop s) (hrefs : 1 ≤ s.flag.refs) :
    openTokens.load s ≤ s.reposts := by
  cases h.phase with
  | start thread state => simp [state, opening, counters] at hrefs
  | before thread main refs => omega
  | posted thread reposts tokens => omega
  | done thread reposts tokens => omega

/-- A caller that may take a reference leaves room for all that callers hold. -/
theorem Invariant.callers_room (h : Invariant onLoop s) (hmay : MayAddRef counters s) :
    s.user + callerTokens.load s + 8 ≤ 268435456 := by
  obtain ⟨hheld, hroom⟩ : 1 ≤ s.flag.refs ∧ s.flag.refs + 8 ≤ 268435456 := hmay
  have hsettled := h.settled_of_refs hheld
  have haccounted := h.accounted
  have hmain := total_le_total (l := s.main) fun i _ => callerTokens_instr_le i
  have hothers := total_le_total (l := s.others) fun i _ => callerTokens_instr_le i
  have htasks := total_le_total (l := s.tasks) fun t _ => callerTokens_task_le t
  have hops : total callerTokens.op s.ops = 0 := total_eq_zero fun _ _ => rfl
  simp only [Accounted, Tokens.load] at *
  omega

theorem Invariant.settled_of_other (h : Invariant onLoop s) {holder : Holder}
    (hi : .release holder ∈ s.others) : openTokens.load s ≤ s.reposts := by
  cases h.phase with
  | start thread state => simp [state, opening] at hi
  | before thread main refs error user reposts tokens others => exact absurd rfl ((others _ hi).2 _)
  | posted thread reposts tokens => omega
  | done thread reposts tokens => omega

theorem Invariant.refs_pos_run (h : Invariant onLoop s) {holder : Holder}
    (hs : s.main = .release holder :: rest) : 0 < s.flag.refs :=
  h.refs_pos (h.settled_of_main hs (by simp)) (Or.inl (refTokens.instr_le_load hs))

theorem Invariant.refs_pos_other (h : Invariant onLoop s) {holder : Holder}
    (hi : .release holder ∈ s.others) : 0 < s.flag.refs := by
  refine h.refs_pos (h.settled_of_other hi) (Or.inl ?_)
  have hone : 1 ≤ total refTokens.instr s.others := total_pos_of_mem (w := refTokens.instr) hi
  simp only [Tokens.load]
  omega

theorem Closes.error_of_close (h : Closes s) (hc : s.flag.close = true) :
    s.flag.error = true := by
  rw [Closes, hc, Bool.toNat_true] at h
  cases he : s.flag.error with
  | true => rfl
  | false => simp [he] at h

/-! ## One instruction -/

theorem accounted_ran (h : Accounted s) (hr : Ran onLoop i s t u front)
    (hpos : ∀ holder, i = .release holder → 0 < s.flag.refs) : Accounted t := by
  have hrefs := hr.load refTokens
  have hopen := hr.load openTokens
  rw [Accounted] at h ⊢
  generalize refTokens.load s = a, refTokens.load t = a', openTokens.load s = b,
    openTokens.load t = b' at *
  rw [hr.parts]
  cases hr.outcome <;>
    simp_all [Tokens.instr, weigh, refTokens, openTokens, newTasks, newOps, counters] <;> omega

theorem closes_ran (h : Closes s) (hr : Ran onLoop i s t u front) : Closes t := by
  have hclose := hr.load closeTokens
  rw [Closes] at h ⊢
  generalize closeTokens.load s = a, closeTokens.load t = a' at *
  rw [hr.parts]
  cases hc : s.flag.close <;> cases hr.outcome <;>
    simp_all [Tokens.instr, weigh, closeTokens, newTasks, newOps, counters]
  all_goals omega

theorem callers_ran (h : RoomForCallers s) (hr : Ran onLoop i s t u front)
    (hroom : ∀ held, i = .addRefExecute held → s.user + callerTokens.load s + 8 ≤ 268435456) :
    RoomForCallers t := by
  have hcallers := hr.load callerTokens
  rw [RoomForCallers] at h ⊢
  generalize callerTokens.load s = a, callerTokens.load t = a' at *
  rw [hr.parts]
  cases hr.outcome <;>
    simp_all [Tokens.instr, weigh, callerTokens, newTasks, newOps, counters] <;> omega

theorem reads_run (h : Reads s) (hr : Ran onLoop i s t u front) (hs : s.main = i :: rest)
    (ht : t.main = front ++ rest) : Reads t := by
  have hreads := hr.load readTokens
  rw [Reads, Closing] at h ⊢
  rw [hs] at h
  rw [ht]
  generalize readTokens.load s = a, readTokens.load t = a' at *
  rw [hr.parts]
  cases hr.outcome <;>
    simp_all [Tokens.instr, weigh, readTokens, newTasks, newOps, counters] <;> omega

theorem writes_run (h : Writes s) (hr : Ran onLoop i s t u front) (hs : s.main = i :: rest)
    (ht : t.main = front ++ rest) : Writes t := by
  have hwrites := hr.load writeTokens
  have hheld := writeTokens.instr_le_load hs
  rw [Writes, Closing] at h ⊢
  rw [hs] at h
  rw [ht]
  generalize writeTokens.load s = a, writeTokens.load t = a' at *
  rw [hr.parts]
  cases hr.outcome with
  | writeLeft nbytes hc hq =>
    -- A write was being handled, so there is no second one.
    have hone : a = 1 := Nat.le_antisymm h.1 hheld
    simp_all [Tokens.instr, weigh, writeTokens, newTasks, newOps]
  | _ => simp_all [Tokens.instr, weigh, writeTokens, newTasks, newOps, counters] <;> omega

theorem reads_other (h : Reads s) (hr : Ran onLoop i s t u front) (hi : Instr.OnOther i)
    (ht : t.main = s.main) : Reads t := by
  have hreads := hr.load readTokens
  rw [Reads, Closing] at h ⊢
  rw [ht]
  generalize readTokens.load s = a, readTokens.load t = a' at *
  rw [hr.parts]
  cases hr.outcome <;>
    simp_all [Tokens.instr, weigh, readTokens, newTasks, newOps, counters, Instr.OnOther]

theorem writes_other (h : Writes s) (hr : Ran false i s t u front) (hi : Instr.OnOther i)
    (ht : t.main = s.main) : Writes t := by
  have hwrites := hr.load writeTokens
  rw [Writes, Closing] at h ⊢
  rw [ht]
  generalize writeTokens.load s = a, writeTokens.load t = a' at *
  rw [hr.parts]
  cases hr.outcome <;>
    simp_all [Tokens.instr, weigh, writeTokens, newTasks, newOps, counters, Instr.OnOther]

theorem front_not_starts (h : Outcome onLoop s i u front) :
    ∀ j ∈ front, Instr.starts j = false := by
  cases h <;> simp [Instr.starts]

theorem front_onOther (h : Outcome false s i u front) (hi : Instr.OnOther i) :
    ∀ j ∈ front, Instr.OnOther j ∧ ∀ holder, j ≠ .release holder := by
  cases h <;> simp_all [Instr.OnOther]

theorem front_releases (h : Outcome onLoop s i u front) :
    total ownRelease front ≤ ownRelease i := by
  cases h <;> simp [ownRelease]

theorem heads_of_none {main : List Instr} (h : ∀ i ∈ main, Instr.starts i = false) :
    Heads main := by
  refine ⟨fun i hi => h i (List.mem_of_mem_tail hi), fun i hi hstarts => ?_⟩
  rw [h i (List.mem_of_mem_head? hi)] at hstarts
  cases hstarts

theorem heads_run (h : Heads s.main) (ho : Outcome onLoop s i u front) (hs : s.main = i :: rest) :
    Heads (front ++ rest) := by
  refine heads_of_none fun j hj => ?_
  rcases List.mem_append.mp hj with hj | hj
  · exact front_not_starts ho j hj
  · exact h.tail j (by rw [hs]; exact hj)

theorem bodies_run (h : .readBody ∈ s.main ∨ .writeBody ∈ s.main → s.flag.error = true)
    (hheads : Heads s.main) (hcloses : Closes s) (hr : Ran onLoop i s t u front)
    (hs : s.main = i :: rest) (ht : t.main = front ++ rest) :
    .readBody ∈ t.main ∨ .writeBody ∈ t.main → t.flag.error = true := by
  intro hbody
  have herror : s.flag.close = true → s.flag.error = true := hcloses.error_of_close
  rw [hs] at h
  rw [ht] at hbody
  rw [hr.parts]
  cases hr.outcome with
  | failed ec he =>
    -- Behind `fire_on_close` there is nothing but a release.
    have htail := hheads.head (.fireOnClose ec) (by simp [hs]) rfl
    rw [hs, List.tail_cons] at htail
    have hrest : Instr.readBody ∈ rest ∨ Instr.writeBody ∈ rest := by simpa using hbody
    rcases hrest with hj | hj <;> obtain ⟨holder, hj'⟩ := htail _ hj <;> cases hj'
  | _ => simp_all [counters]

theorem openTokens_ran (hr : Ran onLoop i s t u front) :
    openTokens.load t + (if i = .fireOnOpen ∧ onLoop = true then 1 else 0) = openTokens.load s ∧
      t.reposts = s.reposts + (if i = .fireOnOpen ∧ onLoop = false then 1 else 0) := by
  have hopen := hr.load openTokens
  generalize openTokens.load s = a, openTokens.load t = a' at *
  rw [hr.parts]
  cases hr.outcome <;>
    simp_all [Tokens.instr, weigh, openTokens, newTasks, newOps]

theorem phase_run (h : OpenPhase onLoop s) (hr : Ran true i s t u front) (hs : s.main = i :: rest)
    (ht : t.others = s.others) : OpenPhase onLoop t := by
  obtain ⟨htokens, hreposts⟩ := openTokens_ran hr
  simp only [and_true, Bool.true_eq_false, and_false, if_false, Nat.add_zero] at htokens hreposts
  cases h with
  | start thread state => simp [state, opening] at hs
  | before thread main refs error user reposts tokens others =>
    obtain ⟨rfl, -⟩ := List.cons.inj (hs.symm.trans main)
    rw [if_pos rfl] at htokens
    exact .done thread (by omega) (by omega)
  | posted thread reposts tokens others =>
    exact .posted thread (by omega) (by omega) (by rw [ht]; exact others)
  | done thread reposts tokens => exact .done thread (by omega) (by omega)

theorem phase_other (h : OpenPhase onLoop s) (hr : Ran false i s t u front)
    (hthreads : ∀ j ∈ s.others, Instr.OnOther j) {k : Nat} (hi : s.others[k]? = some i)
    (hready : i.Ready counters s) (htm : t.main = s.main)
    (hto : t.others = s.others.eraseIdx k ++ front) : OpenPhase onLoop t := by
  obtain ⟨htokens, hreposts⟩ := openTokens_ran hr
  have hmem : i ∈ s.others := List.mem_of_getElem? hi
  have hfront := front_onOther hr.outcome (hthreads i hmem)
  have hnew (j) (hj : j ∈ t.others) : j ∈ s.others ∨ j ∈ front := by
    rw [hto] at hj
    exact (List.mem_append.mp hj).imp_left List.mem_of_mem_eraseIdx
  have hnotOpen (j) (hj : j ∈ front) : j ≠ .fireOnOpen := by
    have := front_not_starts hr.outcome j hj
    rintro rfl
    cases this
  simp only [Bool.false_eq_true, and_false, and_true, if_false, Nat.add_zero] at htokens hreposts
  cases h with
  | start thread state =>
    obtain rfl : i = .fireOnOpen := by simpa [state, opening] using hmem
    have hzero : s.reposts = 0 := by simp [state, opening]
    have hone : openTokens.load s = 1 := by rw [state]; rfl
    rw [if_pos rfl] at hreposts
    refine .posted thread (by omega) (by omega) fun hin => ?_
    have herase : t.others = front := by
      rw [hto]
      cases k with
      | zero => simp [state, opening]
      | succ k => simp [state, opening] at hi
    exact hnotOpen _ (herase ▸ hin) rfl
  | before thread main refs error user reposts tokens others =>
    obtain ⟨hne, hrelease⟩ := others i hmem
    have hflag : t.flag.refs = s.flag.refs ∧ t.flag.error = s.flag.error ∧ t.user = s.user := by
      rw [hr.parts]
      cases hr.outcome with
      | addRefExecute held => exact absurd hready.1 (by simp [counters, refs])
      | releaseLast holder => exact absurd rfl (hrelease holder)
      | releaseSome holder => exact absurd rfl (hrelease holder)
      | opened => exact absurd rfl hne
      | openPosted => exact absurd rfl hne
      | readBody => exact (hthreads _ hmem).elim
      | writeBody => exact (hthreads _ hmem).elim
      | failed => exact (hthreads _ hmem).elim
      | _ => exact ⟨rfl, rfl, rfl⟩
    rw [if_neg hne] at hreposts
    refine .before thread (htm.trans main) (hflag.1.trans refs) (hflag.2.1.trans error)
      (hflag.2.2.trans user) (by omega) (by omega) fun j hj => ?_
    rcases hnew j hj with hj | hj
    · exact others j hj
    · exact ⟨hnotOpen j hj, (hfront j hj).2⟩
  | posted thread reposts tokens others =>
    have hne : i ≠ .fireOnOpen := fun hi => others (hi ▸ hmem)
    rw [if_neg hne] at hreposts
    refine .posted thread (by omega) (by omega) fun hin => ?_
    rcases hnew _ hin with hin | hin
    · exact others hin
    · exact hnotOpen _ hin rfl
  | done thread reposts tokens =>
    have hne : i ≠ .fireOnOpen := by
      rintro rfl
      have := eq_zero_of_total (w := openTokens.instr) (l := s.others)
        (by simp only [Tokens.load] at tokens; omega) hmem
      cases this
    rw [if_neg hne] at hreposts
    exact .done thread (by omega) (by omega)

/-! ## Steps -/

theorem invariant_run (h : Invariant onLoop s) (hs : s.main = i :: rest)
    (hready : i.Ready counters s) : Invariant onLoop (next counters s .run) := by
  obtain ⟨u, front, hr, hmain, hothers⟩ := ran_run hs
  have hpos : ∀ holder, i = .release holder → 0 < s.flag.refs := by
    rintro holder rfl
    exact h.refs_pos_run hs
  have hroom : ∀ held, i = .addRefExecute held →
      s.user + callerTokens.load s + 8 ≤ 268435456 := by
    rintro held rfl
    exact h.callers_room hready
  exact {
    accounted := accounted_ran h.accounted hr hpos
    closes := closes_ran h.closes hr
    reads := reads_run h.reads hr hs hmain
    writes := writes_run h.writes hr hs hmain
    callers := callers_ran h.callers hr hroom
    phase := phase_run h.phase hr hs hothers
    heads := hmain ▸ heads_run h.heads hr.outcome hs
    threads := hothers ▸ h.threads
    releases := by
      have hfront := front_releases hr.outcome
      have hreleases := h.releases
      rw [hs, total_cons] at hreleases
      rw [hmain, total_append]
      omega
    bodies := bodies_run h.bodies h.heads h.closes hr hs hmain }

theorem invariant_runOther (h : Invariant onLoop s) {k : Nat} (hi : s.others[k]? = some i)
    (hready : i.Ready counters s) : Invariant onLoop (next counters s (.runOther k)) := by
  obtain ⟨u, front, hr, hmain, hothers⟩ := ran_other hi
  have hmem : i ∈ s.others := List.mem_of_getElem? hi
  have hon := h.threads i hmem
  have hpos : ∀ holder, i = .release holder → 0 < s.flag.refs := by
    rintro holder rfl
    exact h.refs_pos_other hmem
  have hroom : ∀ held, i = .addRefExecute held →
      s.user + callerTokens.load s + 8 ≤ 268435456 := by
    rintro held rfl
    exact h.callers_room hready
  have herror : (next counters s (.runOther k)).flag.error = s.flag.error := by
    rw [hr.parts]
    cases hr.outcome with
    | failed => exact hon.elim
    | _ => rfl
  exact {
    accounted := accounted_ran h.accounted hr hpos
    closes := closes_ran h.closes hr
    reads := reads_other h.reads hr hon hmain
    writes := writes_other h.writes hr hon hmain
    callers := callers_ran h.callers hr hroom
    phase := phase_other h.phase hr h.threads hi hready hmain hothers
    heads := hmain ▸ h.heads
    threads := by
      intro j hj
      rw [hothers] at hj
      rcases List.mem_append.mp hj with hj | hj
      · exact h.threads j (List.mem_of_mem_eraseIdx hj)
      · exact (front_onOther hr.outcome hon j hj).1
    releases := hmain ▸ h.releases
    bodies := by rw [hmain, herror]; exact h.bodies }

/-- A closure or a handler starts on the loop thread; nothing else changes but its place. -/
structure Started (s t : State Counters) : Prop where
  idle : s.main = []
  waiting : s.tasks ≠ [] ∨ s.ops ≠ []
  flag : t.flag = s.flag
  writeBuffers : t.writeBuffers = s.writeBuffers
  others : t.others = s.others
  reposts : t.reposts = s.reposts
  user : t.user = s.user
  heads : Heads t.main
  releases : total ownRelease t.main ≤ 1
  bodies : .readBody ∉ t.main ∧ .writeBody ∉ t.main
  load : ∀ w : Tokens, w.load t = w.load s

theorem heads_code (t : Task) : Heads t.code := by
  rcases t with _ | ec | _ | (buf | _) <;>
    exact ⟨by simp [Task.code, Instr.starts], by simp [Task.code, Instr.starts]⟩

theorem releases_code (t : Task) : total ownRelease t.code ≤ 1 := by
  rcases t with _ | ec | _ | (buf | _) <;> simp [Task.code, ownRelease]

theorem heads_handler (op : Op) (r : Result) : Heads (op.handler r) := by
  cases op <;> exact ⟨by simp [Op.handler, Instr.starts], by simp [Op.handler, Instr.starts]⟩

theorem started_task (hmain : s.main = []) (htasks : s.tasks ≠ []) :
    Started s (next counters s .task) := by
  obtain ⟨t, tasks, hcons⟩ := List.exists_cons_of_ne_nil htasks
  have hload := fun w => load_task counters w s hmain
  simp only [next, hcons] at hload ⊢
  refine ⟨hmain, Or.inl htasks, rfl, rfl, rfl, rfl, rfl, heads_code t, releases_code t, ?_, hload⟩
  · rcases t with _ | ec | _ | (buf | _) <;> simp [Task.code]

theorem started_complete (hmain : s.main = []) {k : Nat} (hk : k < s.ops.length) (r : Result) :
    Started s (next counters s (.complete k r)) := by
  have hop : s.ops[k]? = some s.ops[k] := List.getElem?_eq_getElem hk
  have hload := fun w => load_complete counters w s k r hmain
  simp only [next, hop] at hload ⊢
  have hops : s.ops ≠ [] := List.ne_nil_of_length_pos (Nat.zero_lt_of_lt hk)
  refine ⟨hmain, Or.inr hops, rfl, rfl, rfl, rfl, rfl, heads_handler _ r, ?_, ?_, hload⟩
  · cases s.ops[k] <;> simp [Op.handler, ownRelease]
  · cases s.ops[k] <;> simp [Op.handler]

theorem Started.invariant (hst : Started s t) (h : Invariant onLoop s) : Invariant onLoop t := by
  have hload := hst.load
  have hnot : ¬ Closing s := by simp [Closing, hst.idle]
  have hwaiting := hst.waiting
  exact {
    accounted := by
      have := h.accounted
      simpa only [Accounted, hst.flag, hst.user, hst.reposts, hload] using this
    closes := by
      have := h.closes
      simpa only [Closes, hst.flag, hload] using this
    reads := by
      have := h.reads
      simp only [Reads, hst.flag, hload, hnot, or_false] at this ⊢
      exact ⟨this.1, fun hc => Or.inl (this.2 hc)⟩
    writes := by
      have := h.writes
      simp only [Writes, hst.flag, hst.writeBuffers, hload, hnot, or_false] at this ⊢
      exact ⟨this.1, fun hc => Or.inl (this.2 hc)⟩
    callers := by
      have := h.callers
      simpa only [RoomForCallers, hst.user, hload] using this
    phase := by
      cases h.phase with
      | start thread state => simp [state, opening] at hwaiting
      | before thread main => simp [hst.idle] at main
      | posted thread reposts tokens others =>
        exact .posted thread (hst.reposts ▸ reposts) (by rwa [hload]) (hst.others ▸ others)
      | done thread reposts tokens =>
        exact .done thread (hst.reposts ▸ reposts) (by rwa [hload])
    heads := hst.heads
    threads := hst.others ▸ h.threads
    releases := hst.releases
    bodies := fun hbody => (hbody.elim hst.bodies.1 hst.bodies.2).elim }

theorem code_tokens (c : Call) :
    total openTokens.instr c.code = 0 ∧ total closeTokens.instr c.code = 0 ∧
      total readTokens.instr c.code = 0 ∧ total writeTokens.instr c.code = 0 ∧
      total ownRelease c.code = 0 := by
  cases c <;> exact ⟨rfl, rfl, rfl, rfl, rfl⟩

/-- A call changes what its caller holds, and leaves what is to be done for it. -/
structure Called (c : Call) (s t : State Counters) : Prop where
  allowed : c.Allowed counters s
  usable : Usable s
  effect : t = { c.effect counters s with main := t.main, others := t.others }
  load : ∀ w : Tokens, w.load t = w.load s + total w.instr c.code

theorem Called.accounted (hcall : Called c s t) (h : Accounted s) : Accounted t := by
  have hrefs := hcall.load refTokens
  have hopen := hcall.load openTokens
  have hallowed := hcall.allowed
  rw [Accounted] at h ⊢
  generalize refTokens.load s = a, refTokens.load t = a', openTokens.load s = b,
    openTokens.load t = b' at *
  rw [hcall.effect]
  cases c <;> simp_all [Call.effect, Call.code, Call.Allowed, Tokens.instr, weigh, refTokens,
    openTokens, counters] <;> omega

theorem Called.callers (hcall : Called c s t) (h : Invariant onLoop s) : RoomForCallers t := by
  have hload := hcall.load callerTokens
  have hallowed := hcall.allowed
  have hcallers := h.callers
  have hroom := fun hmay => h.callers_room hmay
  rw [RoomForCallers] at hcallers ⊢
  generalize callerTokens.load s = a, callerTokens.load t = a' at *
  rw [hcall.effect]
  cases c with
  | addRef =>
    have := hroom hallowed
    simp_all [Call.effect, Call.code]
    omega
  | release =>
    simp_all [Call.effect, Call.code, Call.Allowed, Tokens.instr, weigh, callerTokens]
    omega
  | _ => simp_all [Call.effect, Call.code, Tokens.instr, weigh, callerTokens]

theorem Called.flag (hcall : Called c s t) :
    t.flag.close = s.flag.close ∧ t.flag.error = s.flag.error ∧
      t.writeBuffers = s.writeBuffers ∧ t.reposts = s.reposts := by
  rw [hcall.effect]
  cases c <;> exact ⟨rfl, rfl, rfl, rfl⟩

theorem Called.phase (hcall : Called c s t) (h : OpenPhase onLoop s)
    (hmain : s.main = [.fireOnOpen] → t.main = s.main)
    (hothers : t.others = s.others ∨ t.others = s.others ++ c.code) : OpenPhase onLoop t := by
  have htokens := hcall.load openTokens
  obtain ⟨-, herror, -, hreposts⟩ := hcall.flag
  rw [(code_tokens c).1, Nat.add_zero] at htokens
  have hcode : Instr.fireOnOpen ∉ c.code := by cases c <;> simp [Call.code]
  have hnew (j) (hj : j ∈ t.others) : j ∈ s.others ∨ j ∈ c.code := by
    rcases hothers with hothers | hothers
    · exact Or.inl (hothers ▸ hj)
    · exact List.mem_append.mp (hothers ▸ hj)
  cases h with
  | start thread state =>
    refine absurd hcall.usable.2 (not_not.mpr ?_)
    simp [state, opening]
  | before thread main refs error user reposts tokens others =>
    have hallowed := hcall.allowed
    have hsame : t.flag.refs = s.flag.refs ∧ t.user = s.user := by
      rw [hcall.effect]
      cases c with
      | addRef => exact absurd hallowed.1 (by simp [counters, refs])
      | _ => simp [Call.effect, user]
    have hnoRelease : ∀ j ∈ c.code, ∀ holder, j ≠ .release holder := by
      cases c with
      | release => exact absurd hallowed (by simp [Call.Allowed, user])
      | _ => simp [Call.code]
    refine .before thread ((hmain main).trans main) (hsame.1.trans refs) (herror.trans error)
      (hsame.2.trans user) (hreposts.trans reposts) (htokens.trans tokens) fun j hj => ?_
    rcases hnew j hj with hj | hj
    · exact others j hj
    · exact ⟨fun he => hcode (he ▸ hj), hnoRelease j hj⟩
  | posted thread reposts tokens others =>
    refine .posted thread (hreposts.trans reposts) (htokens.trans_le tokens) fun hin => ?_
    exact (hnew _ hin).elim others hcode
  | done thread reposts tokens =>
    exact .done thread (hreposts.trans reposts) (htokens.trans tokens)

/-- All but the instructions of the loop thread, which differ with the thread of the call. -/
theorem Called.invariant (hcall : Called c s t) (h : Invariant onLoop s)
    (hmain : t.main = s.main ∨
      t.main = c.code ++ s.main ∧ (s.main = [] ∨ s.main.head? = some .callback))
    (hothers : t.others = s.others ∨ t.others = s.others ++ c.code) : Invariant onLoop t := by
  obtain ⟨hclose, herror, hqueue, -⟩ := hcall.flag
  obtain ⟨-, hcloseTokens, hreadTokens, hwriteTokens, hown⟩ := code_tokens c
  have hcodeStarts : ∀ j ∈ c.code, Instr.starts j = false := by
    cases c <;> simp [Call.code, Instr.starts]
  have hcodeOther : ∀ j ∈ c.code, Instr.OnOther j := by
    cases c <;> simp [Call.code, Instr.OnOther]
  have hcodeBody : .readBody ∉ c.code ∧ .writeBody ∉ c.code := by
    cases c <;> simp [Call.code]
  have hclosing : Closing s → Closing t := by
    rintro ⟨ec, hec⟩
    rcases hmain with hmain | ⟨-, hidle | hidle⟩
    · exact ⟨ec, hmain ▸ hec⟩
    · simp [hidle] at hec
    · simp [hidle] at hec
  exact {
    accounted := hcall.accounted h.accounted
    closes := by
      have := h.closes
      rwa [Closes, hclose, herror, hcall.load, hcloseTokens]
    reads := by
      rw [Reads, hclose, hcall.load, hreadTokens]
      exact ⟨h.reads.1, fun hc => (h.reads.2 hc).imp_right hclosing⟩
    writes := by
      rw [Writes, hclose, hqueue, hcall.load, hwriteTokens]
      exact ⟨h.writes.1, fun hc => (h.writes.2 hc).imp_right hclosing⟩
    callers := hcall.callers h
    phase := hcall.phase h.phase (fun hopen => by
      rcases hmain with hmain | ⟨-, hidle | hidle⟩
      · exact hmain
      · simp [hidle] at hopen
      · simp [hopen] at hidle) hothers
    heads := by
      rcases hmain with hmain | ⟨hmain, hidle⟩
      · exact hmain ▸ h.heads
      rw [hmain]
      refine heads_of_none fun j hj => ?_
      rcases List.mem_append.mp hj with hj | hj
      · exact hcodeStarts j hj
      rcases hidle with hidle | hidle
      · simp [hidle] at hj
      · obtain ⟨tail, hs⟩ := List.head?_eq_some_iff.mp hidle
        rcases List.mem_cons.mp (hs ▸ hj) with rfl | hj
        · rfl
        · exact h.heads.tail j (by rw [hs]; exact hj)
    threads := by
      intro j hj
      rcases hothers with hothers | hothers
      · exact h.threads j (hothers ▸ hj)
      · rcases List.mem_append.mp (hothers ▸ hj) with hj | hj
        · exact h.threads j hj
        · exact hcodeOther j hj
    releases := by
      rcases hmain with hmain | ⟨hmain, -⟩
      · exact hmain ▸ h.releases
      · rw [hmain, total_append, hown, Nat.zero_add]
        exact h.releases
    bodies := by
      intro hbody
      rw [herror]
      rcases hmain with hmain | ⟨hmain, -⟩
      · exact h.bodies (hmain ▸ hbody)
      · rw [hmain, List.mem_append, List.mem_append] at hbody
        exact h.bodies (hbody.imp (fun hb => hb.resolve_left hcodeBody.1)
          fun hb => hb.resolve_left hcodeBody.2) }

theorem invariant_opening (onLoop : Bool) : Invariant onLoop (opening counters onLoop) := by
  cases onLoop with
  | false =>
    exact {
      accounted := rfl
      closes := rfl
      reads := ⟨Nat.le_refl 1, fun _ => Or.inl rfl⟩
      writes := ⟨Nat.zero_le 1, fun _ => Or.inl (by decide)⟩
      callers := show 0 + 0 + 7 ≤ 268435456 by decide
      phase := .start rfl rfl
      heads := heads_of_none (by simp [opening])
      threads := by simp [opening, Instr.OnOther]
      releases := Nat.zero_le 1
      bodies := by simp [opening] }
  | true =>
    exact {
      accounted := rfl
      closes := rfl
      reads := ⟨Nat.le_refl 1, fun _ => Or.inl rfl⟩
      writes := ⟨Nat.zero_le 1, fun _ => Or.inl (by decide)⟩
      callers := show 0 + 0 + 7 ≤ 268435456 by decide
      phase := .before rfl rfl rfl rfl rfl rfl rfl (by simp [opening])
      heads := ⟨by simp [opening], by simp [opening]⟩
      threads := by simp [opening]
      releases := Nat.zero_le 1
      bodies := by simp [opening] }

theorem invariant_step (h : Invariant onLoop s) (e : Step) (he : Enabled counters s e) :
    Invariant onLoop (next counters s e) := by
  cases e with
  | run =>
    obtain ⟨i, hi, hready⟩ := he
    obtain ⟨rest, hs⟩ := List.head?_eq_some_iff.mp hi
    exact invariant_run h hs hready
  | runOther k =>
    obtain ⟨i, hi, hready⟩ := he
    exact invariant_runOther h hi hready
  | task => exact (started_task he.1 he.2).invariant h
  | complete k r => exact (started_complete he.1 he.2 r).invariant h
  | call c =>
    have hcall : Called c s (next counters s (.call c)) :=
      ⟨he.2.2, he.2.1, by cases c <;> rfl, fun w => load_call counters w s c⟩
    exact hcall.invariant h (Or.inr ⟨rfl, he.1⟩) (Or.inl (by cases c <;> rfl))
  | callOther c =>
    have hcall : Called c s (next counters s (.callOther c)) :=
      ⟨he.2, he.1, by cases c <;> rfl, fun w => load_callOther counters w s c⟩
    exact hcall.invariant h (Or.inl (by cases c <;> rfl)) (Or.inr rfl)

theorem invariant_reachable {C : State Counters → Step → Prop}
    (h : (machine counters).Execution C (opening counters onLoop) s) : Invariant onLoop s :=
  h.invariant (invariant_opening onLoop) fun _ e _ hinv he _ => invariant_step hinv e he

end ChannelInvariant
