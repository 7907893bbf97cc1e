import Tcode.ChannelInput
import Tcode.ChannelStream

/-! # From one channel to another

The channel at one end writes to a stream, from which the one at the other end reads. The kernel
delivers in order what it was given, as much at a time as it likes.
-/
namespace ChannelTransfer

open ChannelFlagWord ChannelInput ChannelStream SupportTransitionSystem
open ChannelMachine (Instr Step opening)

structure State where
  sender : ChannelMachine.State (BitVec 32)
  receiver : ChannelInput.State

inductive Event where
  | sends (e : Step)
  | receives (e : ChannelInput.Event)

def initial (onLoop : Bool) : State := ⟨opening word onLoop, ChannelInput.initial⟩

/-- The bytes that a step of the receiver takes from the stream. -/
def arrived : ChannelInput.Event → List UInt8
  | .receive _ _ _ bs => bs
  | _ => []

def Enabled (s : State) : Event → Prop
  | .sends e => ChannelMachine.Enabled word s.sender e
  | .receives e =>
    ChannelInput.Enabled s.receiver e ∧ s.receiver.received ++ arrived e <+: s.sender.wire

instance (s : State) : ∀ e : Event, Decidable (Enabled s e)
  | .sends e => inferInstanceAs (Decidable (ChannelMachine.Enabled word s.sender e))
  | .receives e => inferInstanceAs (Decidable (ChannelInput.Enabled s.receiver e ∧
      s.receiver.received ++ arrived e <+: s.sender.wire))

def next (s : State) : Event → State
  | .sends e => { s with sender := ChannelMachine.next word s.sender e }
  | .receives e => { s with receiver := ChannelInput.next s.receiver e }

def machine : System State Event := ⟨Enabled, next⟩

instance (s : State) (e : Event) : Decidable (machine.Enabled s e) :=
  inferInstanceAs (Decidable (Enabled s e))

def Fair (s : State) : Event → Prop
  | .sends e => FullWrites s.sender e
  | .receives e => CarefulUse s.receiver e

/-! ## The stream -/

section Wire

variable {F : Type} (W : FlagWord F)

theorem wire_exec (onLoop : Bool) (s : ChannelMachine.State F) (i : Instr) :
    s.wire <+: (ChannelMachine.exec W onLoop s i).1.wire := by
  cases i <;> simp only [ChannelMachine.exec] <;> repeat' split
  all_goals simp

/-- What has been given to the kernel stays given. -/
theorem wire_next (s : ChannelMachine.State F) (e : Step) :
    s.wire <+: (ChannelMachine.next W s e).wire := by
  cases e with
  | run =>
    simp only [ChannelMachine.next]
    split
    · exact List.prefix_refl _
    · next i rest _ => exact wire_exec W true { s with main := rest } i
  | runOther k =>
    simp only [ChannelMachine.next]
    split
    · exact List.prefix_refl _
    · next i _ => exact wire_exec W false { s with others := s.others.eraseIdx k } i
  | task =>
    simp only [ChannelMachine.next]
    split <;> exact List.prefix_refl _
  | complete k r =>
    simp only [ChannelMachine.next]
    split <;> exact List.prefix_refl _
  | call c => cases c <;> exact List.prefix_refl _
  | callOther c => cases c <;> exact List.prefix_refl _

end Wire

theorem received_next (s : ChannelInput.State) (e : ChannelInput.Event) :
    (ChannelInput.next s e).received = s.received ++ arrived e := by
  have hread (u : ChannelInput.State) : (ChannelInput.read u).received = u.received := by
    unfold ChannelInput.read
    dsimp only
    split
    · split <;> rfl
    · rfl
  have hhandle (u : ChannelInput.State) (n : Int) : (handleRead u n).received = u.received := by
    unfold handleRead
    split <;> rfl
  cases e with
  | opens => exact (hread s).trans (List.append_nil _).symm
  | receive b offset len bs => exact hhandle _ _
  | afterRead => exact (hread _).trans (List.append_nil _).symm
  | _ => exact (List.append_nil _).symm

/-! ## Both ends -/

variable {onLoop : Bool} {s : State}

/-- A run of both is a run of each, and the one receives what the other has given away. -/
theorem both_run (h : machine.Execution Fair (initial onLoop) s) :
    (ChannelMachine.machine word).Execution FullWrites (opening word onLoop) s.sender ∧
      ChannelInput.machine.Execution CarefulUse ChannelInput.initial s.receiver ∧
      s.receiver.received <+: s.sender.wire := by
  induction h with
  | refl => exact ⟨.refl, .refl, List.nil_prefix⟩
  | @tail t e _ hen hc ih =>
    obtain ⟨hsender, hreceiver, hwire⟩ := ih
    cases e with
    | sends e => exact ⟨hsender.tail hen hc, hreceiver, hwire.trans (wire_next word t.sender e)⟩
    | receives e =>
      refine ⟨hsender, hreceiver.tail hen.1 hc, ?_⟩
      have hreceived : (machine.next t (.receives e)).receiver.received =
          t.receiver.received ++ arrived e := received_next t.receiver e
      rw [hreceived]
      exact hen.2

/-- The sender is open and has nothing to do, and no write is on its way. -/
structure Quiet (s : ChannelMachine.State (BitVec 32)) : Prop where
  isOpen : word.contains .close s.flag = true
  main : s.main = []
  ops : ∀ op ∈ s.ops, ChannelStream.Op.isWrite op = false

/-- A quiet channel has given away everything that it accepted. -/
theorem wire_of_quiet {t : ChannelMachine.State (BitVec 32)}
    (h : (ChannelMachine.machine word).Execution FullWrites (opening word onLoop) t)
    (hq : Quiet t) : t.wire = t.accepted := by
  obtain ⟨u, hu, rfl⟩ := ChannelRefinement.execution_encode h
  have hstream : Stream onLoop u := stream_reachable (hu.mono fun v e hfull =>
    ⟨by cases e with
      | complete k r => cases r <;> exact hfull.1
      | _ => trivial, hfull.2⟩)
  have hmain : u.main = [] := hq.main
  have hopen : u.flag.close = true := by
    rw [← hq.isOpen]
    exact (encode_contains (Nat.lt_of_succ_lt hstream.invariant.refs_lt) .close).symm
  have hno (i : Instr) : i ∉ u.main := by
    rw [hmain]
    exact List.not_mem_nil
  cases hstream.stage with
  | idle tokens queue completed wire => exact wire
  | ready main wire accepted => exact absurd main (not_or.mpr ⟨hno _, hno _⟩)
  | inFlight bufs op wire front accepted => exact absurd (hq.ops _ op) Bool.noConfusion
  | handling n main wire accepted => exact absurd main (hno _)
  | failing ec main wire => exact absurd main (hno _)
  | stopped tokens closed wire =>
    rcases closed with hclosed | ⟨ec, hclosing⟩
    · rw [hopen] at hclosed
      exact absurd hclosed Bool.noConfusion
    · rw [hmain] at hclosing
      cases hclosing

/-- What the filters of the receiver get begins what the sender accepted. It is all of it once
the sender is quiet and everything has arrived at an open receiver. -/
structure Transferred (s : State) : Prop where
  order : firedBytes s.receiver <+: s.sender.accepted
  complete : Quiet s.sender → s.receiver.closeFlag = true →
    s.receiver.received = s.sender.wire → firedBytes s.receiver = s.sender.accepted

/-- Steps that only send a buffer, or receive. -/
def Plain : Event → Prop
  | .sends e => e = .run ∨ e = .call (.doWrite threeBytes)
  | .receives (.op _) => False
  | .receives _ => True

instance : ∀ e : Event, Decidable (Plain e)
  | .sends _ => inferInstanceAs (Decidable (_ ∨ _))
  | .receives (.op _) => isFalse id
  | .receives .opens | .receives (.receive _ _ _ _) | .receives (.fail _ _ _)
  | .receives .afterRead | .receives .close | .receives .delete => isTrue trivial

theorem Plain.fair {e : Event} (h : Plain e) (s : State) : Fair s e := by
  cases e with
  | sends e =>
    rcases h with rfl | rfl
    · exact ⟨trivial, trivial⟩
    · exact ⟨trivial, rfl, by decide, by decide, by decide, by decide⟩
  | receives e =>
    cases e with
    | op op => exact absurd h id
    | _ => trivial

/-- Three bytes arrive as two and one. -/
def cutInTwo : List Event :=
  List.replicate 5 (.sends .run) ++ [.sends (.call (.doWrite threeBytes))] ++
    List.replicate 3 (.sends .run) ++
    [.receives .opens, .receives (.receive 0 0 4096 [1, 2]), .receives .afterRead,
      .receives (.receive 1 0 4096 [3])]

end ChannelTransfer
