import Tcode.ChannelInvariant

/-! # The int _flag and its parts

Every run over the word is a run over its parts: the number of references never reaches
the bits above it, and nothing is released that is not held.
-/
namespace ChannelRefinement

open ChannelFlagWord ChannelMachine ChannelInvariant SupportTransitionSystem

def State.encode (s : State Counters) : State (BitVec 32) :=
  { s with flag := ChannelFlagWord.encode s.flag }

variable {onLoop : Bool} {s : State Counters}

theorem exec_encode (b : Bool) (hlt : s.flag.refs + 1 < 268435456) {i : Instr}
    (hpos : ∀ holder, i = .release holder → 0 < s.flag.refs) :
    exec word b (State.encode s) i =
      (State.encode (exec counters b s i).1, (exec counters b s i).2) := by
  have hsmall : s.flag.refs < 268435456 := Nat.lt_of_succ_lt hlt
  have hflag : (State.encode s).flag = ChannelFlagWord.encode s.flag := rfl
  have hcontains := fun b => encode_contains hsmall b
  cases i with
  | fireOnOpen => simp only [exec, hflag, encode_addRef hlt]; rfl
  | readBody => simp only [exec, hflag, encode_addRef hlt]; rfl
  | writeBody => simp only [exec, hflag, encode_addRef hlt]; rfl
  | addRefExecute h => simp only [exec, hflag, encode_addRef hlt]; rfl
  | close ec =>
    simp only [exec, hflag, hcontains, encode_reset hsmall]
    split <;> rfl
  | fireOnClose ec =>
    simp only [exec, hflag, hcontains, encode_reset hsmall]
    split <;> rfl
  | release holder =>
    have hless : (counters.release s.flag).refs < 268435456 :=
      Nat.lt_of_le_of_lt (Nat.sub_le _ _) hsmall
    simp only [exec, hflag, encode_release hsmall (hpos holder rfl), encode_isZero hless]
    rfl
  | handleRead r =>
    simp only [exec, hflag, hcontains]
    cases r <;> split <;> rfl
  | handleWrite r =>
    simp only [exec, hflag, hcontains]
    cases r <;> split <;> rfl
  | doWrite buf =>
    simp only [exec, hflag, hcontains]
    split
    · cases b <;> rfl
    · rfl
  | read => simp only [exec, hflag, hcontains]
  | writeRemains => simp only [exec, hflag, hcontains]
  | fire e => rfl
  | callback => rfl
  | execute t => rfl
  | delete => rfl

theorem mayAddRef_encode (hlt : s.flag.refs < 268435456) :
    MayAddRef word (State.encode s) ↔ MayAddRef counters s := by
  have hrefs : word.references (State.encode s).flag = counters.references s.flag :=
    encode_references hlt
  rw [MayAddRef, hrefs, MayAddRef]

theorem enabled_encode (hlt : s.flag.refs < 268435456) (e : Step) :
    Enabled word (State.encode s) e ↔ Enabled counters s e := by
  have hready (i : Instr) : i.Ready word (State.encode s) ↔ i.Ready counters s := by
    cases i with
    | addRefExecute h => exact mayAddRef_encode hlt
    | _ => exact Iff.rfl
  have hallowed (c : Call) : c.Allowed word (State.encode s) ↔ c.Allowed counters s := by
    cases c with
    | addRef => exact mayAddRef_encode hlt
    | _ => exact Iff.rfl
  cases e with
  | run => exact exists_congr fun i => and_congr_right fun _ => hready i
  | runOther k => exact exists_congr fun i => and_congr_right fun _ => hready i
  | task => exact Iff.rfl
  | complete k r => exact Iff.rfl
  | call c => exact and_congr_right fun _ => and_congr_right fun _ => hallowed c
  | callOther c => exact and_congr_right fun _ => hallowed c

theorem next_encode (h : Invariant onLoop s) {e : Step} (he : Enabled counters s e) :
    next word (State.encode s) e = State.encode (next counters s e) := by
  have hlt := h.refs_lt
  have heffect (c : Call) :
      c.effect word (State.encode s) = State.encode (c.effect counters s) := by
    cases c with
    | addRef => simp only [Call.effect, State.encode, encode_addRef hlt]
    | _ => rfl
  cases e with
  | run =>
    obtain ⟨i, hi, -⟩ := he
    obtain ⟨rest, hs⟩ := List.head?_eq_some_iff.mp hi
    have hexec := exec_encode (s := { s with main := rest }) true hlt (i := i)
      (fun holder hrel => h.refs_pos_run (hrel ▸ hs))
    have hmain : (State.encode s).main = i :: rest := hs
    simp only [next, hmain, hs]
    exact congrArg (fun r => { r.1 with main := r.2 ++ rest }) hexec
  | runOther k =>
    obtain ⟨i, hi, -⟩ := he
    have hexec := exec_encode (s := { s with others := s.others.eraseIdx k }) false hlt (i := i)
      (fun holder hrel => h.refs_pos_other (hrel ▸ List.mem_of_getElem? hi))
    have hothers : (State.encode s).others[k]? = some i := hi
    have hi' : s.others[k]? = some i := hi
    simp only [next, hothers, hi']
    exact congrArg (fun r => { r.1 with others := r.1.others ++ r.2 }) hexec
  | task =>
    have htasks : (State.encode s).tasks = s.tasks := rfl
    simp only [next, htasks]
    cases s.tasks <;> rfl
  | complete k r =>
    have hops : (State.encode s).ops = s.ops := rfl
    simp only [next, hops]
    cases s.ops[k]? <;> rfl
  | call c =>
    simp only [next, heffect]
    rfl
  | callOther c =>
    simp only [next, heffect]
    rfl

theorem opening_encode (onLoop : Bool) :
    State.encode (opening counters onLoop) = opening word onLoop := by
  rw [State.encode, opening, encode_initial]
  rfl

/-- Each execution over the word is the code of an execution over the parts. -/
theorem execution_encode {C : State (BitVec 32) → Step → Prop} {w : State (BitVec 32)}
    (h : (machine word).Execution C (opening word onLoop) w) :
    ∃ s,
      (machine counters).Execution (fun s e => C (State.encode s) e) (opening counters onLoop) s ∧
      w = State.encode s := by
  induction h with
  | refl => exact ⟨_, .refl, (opening_encode onLoop).symm⟩
  | @tail w e hw he hc ih =>
    obtain ⟨s, hs, rfl⟩ := ih
    have hinv := invariant_reachable hs
    have he' := (enabled_encode (Nat.lt_of_succ_lt hinv.refs_lt) e).mp he
    exact ⟨_, hs.tail he' hc, next_encode hinv he'⟩

end ChannelRefinement
