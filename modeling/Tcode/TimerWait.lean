import Tcode.SupportMachineInt
import Tcode.TimerOrder

/-! # The wait that a multiplexer hands to the operating system

`engine::run` asks for the time until the timer at the front of the list is due, in microseconds.
Every multiplexer converts it to the form that its system function takes.
-/
namespace TimerWait

open SupportTransitionSystem SupportMachineInt TimerMachine TimerOrder

/-! ## `timespan` -/

def totalSeconds (delta : Int) : Int := delta.tdiv 1000000

def totalMilliseconds (delta : Int) : Int := delta.tdiv 1000

def totalMicroseconds (delta : Int) : Int := delta

/-! ## Native waits -/

/-- What `epoll_wait` and `::poll`, `::select`, and `kevent` take. -/
inductive NativeWait where
  | milliseconds (timeout : Int)
  | timeval (sec usec : Int)
  | timespec (sec nsec : Int)
  deriving DecidableEq, Repr

/-- A negative timeout waits without an end, and fractions of seconds stay below one second. -/
def NativeWait.Valid : NativeWait → Prop
  | .milliseconds timeout => 0 ≤ timeout
  | .timeval sec usec => 0 ≤ sec ∧ 0 ≤ usec ∧ usec < 1000000
  | .timespec sec nsec => 0 ≤ sec ∧ 0 ≤ nsec ∧ nsec < 1000000000

instance : ∀ w : NativeWait, Decidable w.Valid
  | .milliseconds _ => inferInstanceAs (Decidable (0 ≤ _))
  | .timeval _ _ => inferInstanceAs (Decidable (_ ∧ _ ∧ _))
  | .timespec _ _ => inferInstanceAs (Decidable (_ ∧ _ ∧ _))

def NativeWait.nanoseconds : NativeWait → Int
  | .milliseconds timeout => timeout * 1000000
  | .timeval sec usec => sec * 1000000000 + usec * 1000
  | .timespec sec nsec => sec * 1000000000 + nsec

/-- One unit of the form, in nanoseconds. -/
def NativeWait.unit : NativeWait → Int
  | .milliseconds _ => 1000000
  | .timeval _ _ => 1000
  | .timespec _ _ => 1

inductive Multiplexer where
  | epoll
  | poll
  | select
  | kqueue
  deriving DecidableEq, Repr

/-- The conversions in `epoll::run`, `poll::run`, `select::run` and `kqueue::run`. -/
def Multiplexer.nativeWait (ts : Int) : Multiplexer → NativeWait
  | .epoll => .milliseconds (toInt (totalMilliseconds ts))
  | .poll => .milliseconds (toInt (totalMilliseconds ts))
  | .select => .timeval (toLong ((totalMicroseconds ts).tdiv 1000000))
      (toLong ((totalMicroseconds ts).tmod 1000000))
  | .kqueue => .timespec (toLong (totalSeconds ts))
      (toLong ((totalMicroseconds ts).tmod 1000000 * 1000))

/-- A wait that the system function accepts, of at most `span` microseconds, and less than one
unit short of them. -/
structure NativeWait.Serves (w : NativeWait) (span : Int) : Prop where
  valid : w.Valid
  notLate : w.nanoseconds ≤ span * 1000
  close : span * 1000 - w.nanoseconds < w.unit

variable {s : State} {now due span delta : Int}

/-! ## The conversions -/

theorem milliseconds_serve_iff (h : 0 ≤ span) :
    (NativeWait.milliseconds (toInt (totalMilliseconds span))).Serves span ↔
      span < 2147483648000 := by
  have hms : totalMilliseconds span = span / 1000 := Int.tdiv_eq_ediv_of_nonneg h
  rw [hms]
  constructor
  · intro hserves
    have hclose := hserves.close
    have hrange := toInt_range (span / 1000)
    simp only [NativeWait.nanoseconds, NativeWait.unit] at hclose
    omega
  · intro hspan
    have hfits : toInt (span / 1000) = span / 1000 := toInt_of_range (by omega) (by omega)
    rw [hfits]
    constructor
    · show 0 ≤ span / 1000
      omega
    · show span / 1000 * 1000000 ≤ span * 1000
      omega
    · show span * 1000 - span / 1000 * 1000000 < 1000000
      omega

theorem toLong_seconds (h : 0 ≤ span) (hspan : span < 9223372036854775808) :
    toLong (span.tdiv 1000000) = span / 1000000 := by
  rw [Int.tdiv_eq_ediv_of_nonneg h]
  exact toLong_of_range (by omega) (by omega)

theorem timeval_serves (h : 0 ≤ span) (hspan : span < 9223372036854775808) :
    (Multiplexer.select.nativeWait span).Serves span := by
  have hsec := toLong_seconds h hspan
  have husec : toLong (span.tmod 1000000) = span % 1000000 := by
    rw [Int.tmod_eq_emod_of_nonneg h]
    exact toLong_of_range (by omega) (by omega)
  simp only [Multiplexer.nativeWait, totalMicroseconds, hsec, husec]
  constructor
  · show 0 ≤ span / 1000000 ∧ 0 ≤ span % 1000000 ∧ span % 1000000 < 1000000
    omega
  · show span / 1000000 * 1000000000 + span % 1000000 * 1000 ≤ span * 1000
    omega
  · show span * 1000 - (span / 1000000 * 1000000000 + span % 1000000 * 1000) < 1000
    omega

theorem timespec_serves (h : 0 ≤ span) (hspan : span < 9223372036854775808) :
    (Multiplexer.kqueue.nativeWait span).Serves span := by
  have hsec := toLong_seconds h hspan
  have hnsec : toLong (span.tmod 1000000 * 1000) = span % 1000000 * 1000 := by
    rw [Int.tmod_eq_emod_of_nonneg h]
    exact toLong_of_range (by omega) (by omega)
  simp only [Multiplexer.nativeWait, totalSeconds, totalMicroseconds, hsec, hnsec]
  constructor
  · show 0 ≤ span / 1000000 ∧ 0 ≤ span % 1000000 * 1000 ∧ span % 1000000 * 1000 < 1000000000
    omega
  · show span / 1000000 * 1000000000 + span % 1000000 * 1000 ≤ span * 1000
    omega
  · show span * 1000 - (span / 1000000 * 1000000000 + span % 1000000 * 1000) < 1
    omega

/-- The forms in seconds serve every span, those in milliseconds as long as an `int` holds it. -/
theorem nativeWait_serves_iff (h : 0 ≤ span) (hspan : span < 9223372036854775808) :
    (∀ m : Multiplexer, (m.nativeWait span).Serves span) ↔ span < 2147483648000 := by
  constructor
  · intro hall
    exact (milliseconds_serve_iff h).mp (hall .epoll)
  · intro hfits m
    cases m with
    | epoll => exact (milliseconds_serve_iff h).mpr hfits
    | poll => exact (milliseconds_serve_iff h).mpr hfits
    | select => exact timeval_serves h hspan
    | kqueue => exact timespec_serves h hspan

/-- What serves one span in microseconds serves no other one. -/
theorem timeval_serves_unique (h : 0 ≤ delta) (hdelta : delta < 9223372036854775808)
    (hserves : (Multiplexer.select.nativeWait delta).Serves span) : span = delta := by
  have hown := timeval_serves h hdelta
  have hlate := hserves.notLate
  have hclose := hserves.close
  have hlate' := hown.notLate
  have hclose' := hown.close
  have hunit : (Multiplexer.select.nativeWait delta).unit = 1000 := rfl
  have hwhole : (Multiplexer.select.nativeWait delta).nanoseconds % 1000 = 0 := by
    show (toLong _ * 1000000000 + toLong _ * 1000) % 1000 = 0
    omega
  omega

/-! ## The wait of `engine::run` -/

/-- The earliest due time of the timers that are scheduled. -/
def Earliest (s : State) (due : Int) : Prop :=
  (∃ id ∈ s.timers, s.dueTime id = due) ∧ ∀ id ∈ s.timers, due ≤ s.dueTime id

/-- The entry at the front is due first, or due already. -/
def FrontFirst (s : State) (now due : Int) : Prop :=
  ∀ id ∈ s.timers.head?, s.dueTime id = due ∨ s.dueTime id ≤ now

instance : Decidable (FrontFirst s now due) :=
  inferInstanceAs (Decidable (∀ id ∈ s.timers.head?, s.dueTime id = due ∨ s.dueTime id ≤ now))

theorem frontFirst_of_sorted (h : Sorted s) (hdue : Earliest s due) : FrontFirst s now due := by
  intro id hid
  obtain ⟨rest, htimers⟩ := List.head?_eq_some_iff.mp hid
  obtain ⟨⟨j, hj, rfl⟩, hleast⟩ := hdue
  left
  apply Int.le_antisymm
  · exact h.first_le htimers j hj
  · apply hleast
    rw [htimers]
    exact List.mem_cons_self

theorem nextWakeUpTime_eq {id : TimerId} (hid : s.timers.head? = some id) :
    nextWakeUpTime s now = max 0 (s.dueTime id - now) := by
  obtain ⟨rest, htimers⟩ := List.head?_eq_some_iff.mp hid
  rw [nextWakeUpTime, htimers]
  dsimp only
  split <;> omega

/-- The wait of every multiplexer serves the earliest due time exactly while the front of the
list is due first and the milliseconds until then fit an `int`. -/
theorem waits_serve_iff (hdue : Earliest s due)
    (hrepresentable : ∀ id ∈ s.timers, s.dueTime id - now < 9223372036854775808) :
    (∀ m : Multiplexer, (m.nativeWait (nextWakeUpTime s now)).Serves (max 0 (due - now))) ↔
      FrontFirst s now due ∧ max 0 (due - now) < 2147483648000 := by
  obtain ⟨⟨j, hj, hdue'⟩, hleast⟩ := hdue
  obtain ⟨first, hfirst⟩ : ∃ first, s.timers.head? = some first := by
    obtain ⟨first, rest, htimers⟩ := List.exists_cons_of_ne_nil (List.ne_nil_of_mem hj)
    exact ⟨first, by rw [htimers]; rfl⟩
  have hmem : first ∈ s.timers := List.mem_of_mem_head? hfirst
  have hle := hleast first hmem
  have hspan := hrepresentable first hmem
  have hwait : nextWakeUpTime s now = _ := nextWakeUpTime_eq hfirst
  have hfront : FrontFirst s now due ↔ nextWakeUpTime s now = max 0 (due - now) := by
    constructor
    · intro hfront
      have hcase := hfront first hfirst
      omega
    · intro heq id hid
      obtain rfl : id = first := Option.some.inj (hid.symm.trans hfirst)
      omega
  constructor
  · intro hall
    have hsame : max 0 (due - now) = nextWakeUpTime s now :=
      timeval_serves_unique (by omega) (by omega) (hall .select)
    refine ⟨hfront.mpr hsame.symm, ?_⟩
    rw [hsame] at hall ⊢
    exact (nativeWait_serves_iff (by omega) (by omega)).mp hall
  · rintro ⟨hfirstDue, hfits⟩
    rw [hfront.mp hfirstDue]
    exact (nativeWait_serves_iff (by omega) (by omega)).mpr hfits

/-- A timer that is due in a second and a half. -/
theorem waits_serve_iff_oneAndAHalf :
    let s := machine.runTrace initial
      [.call .make, .call (.dueTime 0 2500000), .call (.fire 0)]
    ∀ m : Multiplexer,
      (m.nativeWait (nextWakeUpTime s 1000000)).Serves (max 0 (2500000 - 1000000)) :=
  have hdue : Earliest _ 2500000 := ⟨⟨0, by decide, by decide⟩, by decide⟩
  (waits_serve_iff hdue (by decide)).mpr (by decide)

/-- A timer that is due in 2^31 milliseconds, which is less than 25 days: `epoll_wait` and `::poll`
get a negative timeout. -/
theorem weeksAway_not_served :
    let s := machine.runTrace initial
      [.call .make, .call (.dueTime 0 2147483648000), .call (.fire 0)]
    Earliest s 2147483648000 ∧
      Multiplexer.epoll.nativeWait (nextWakeUpTime s 0) = .milliseconds (-2147483648) ∧
      Multiplexer.poll.nativeWait (nextWakeUpTime s 0) = .milliseconds (-2147483648) ∧
      ¬ ∀ m : Multiplexer, (m.nativeWait (nextWakeUpTime s 0)).Serves
        (max 0 (2147483648000 - 0)) := by
  refine ⟨⟨⟨0, by decide, by decide⟩, by decide⟩, by decide, by decide, ?_⟩
  intro hall
  have hvalid := (hall .epoll).valid
  revert hvalid
  decide

end TimerWait
