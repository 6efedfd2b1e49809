/-
The host.

A host keeps the work that is deferred to a later tick, the timers, and a clock that only moves
when it is told to. It never runs anything itself: it hands out the next piece of work, and the
machine runs it.

* `Host.defer`, `Host.delay` — put a tick or a timer in;
* `Host.takeTick`, `Host.takeDue` — take the next one out, the latter moving the clock to the
  deadline of the timer it takes;
* `Host.unset` — removes a timer of the user.
-/
import Actors.Time
import Actors.Address

namespace Actors

/-- The right to complete one binding of one process. -/
structure Ticket where
  pid : Pid
  binding : Nat
deriving DecidableEq

/-- What identifies a timer: its deadline, and its number among all timers ever set. -/
structure TimerKey where
  due : Nat
  serial : Nat
deriving DecidableEq

/-- Work deferred to a tick: a turn of the scheduler, or user code. -/
inductive Tick (κ : Type) where
  | pump
  | thunk (c : κ)

/-- What happens when a timer fires: a sleeping process wakes up, or user code runs. -/
inductive Alarm (κ : Type) where
  | wake (t : Ticket)
  | thunk (c : κ)

/-- A timer that is set. -/
structure Timer (κ : Type) where
  key : TimerKey
  alarm : Alarm κ

/-- The host's state. Timers are kept in the order in which they fire: by deadline, and among
equal deadlines by number. -/
structure Host (κ : Type) where
  ticks : List (Tick κ)
  timers : List (Timer κ)
  now : Nat
  serial : Nat

/-- What can be seen of a host: its clock, and how many ticks and timers wait. -/
structure HostView where
  now : Nat
  ticks : Nat
  timers : Nat
deriving DecidableEq

def HostView.text (h : HostView) : String :=
  "ManualHost \x7b now: " ++ Time.text h.now ++ ", ticks: " ++ toString h.ticks ++
    ", timers: " ++ toString h.timers ++ " \x7d"

namespace Host

variable {κ : Type}

/-- A host with nothing to do, at time zero. -/
def empty : Host κ := ⟨[], [], 0, 0⟩

/-- Puts a tick behind those that wait. -/
def defer (h : Host κ) (t : Tick κ) : Host κ :=
  { h with ticks := h.ticks ++ [t] }

/-- Puts a timer behind those that fire no later. -/
def insertTimer (t : Timer κ) : List (Timer κ) → List (Timer κ)
  | [] => [t]
  | u :: us => if u.key.due ≤ t.key.due then u :: insertTimer t us else t :: u :: us

/-- The key of a timer set now. -/
def keyAfter (h : Host κ) (span : Nat) : TimerKey :=
  ⟨Time.later h.now span, h.serial⟩

/-- Sets a timer, under the key `keyAfter`. -/
def delay (h : Host κ) (span : Nat) (a : Alarm κ) : Host κ :=
  { h with timers := insertTimer ⟨h.keyAfter span, a⟩ h.timers, serial := h.serial + 1 }

/-- Whether a timer has this key and runs user code. -/
def isThunkAt (k : TimerKey) (t : Timer κ) : Bool :=
  match t.alarm with
  | .thunk _ => t.key = k
  | .wake _ => false

/-- Whether a timer has this key and wakes a process. -/
def isWakeAt (k : TimerKey) (t : Timer κ) : Bool :=
  match t.alarm with
  | .thunk _ => false
  | .wake _ => t.key = k

/-- Removes the user's timer with this key, if it is still set. -/
def unset (h : Host κ) (k : TimerKey) : Host κ :=
  { h with timers := h.timers.filter fun t => !isThunkAt k t }

/-- Removes the sleeping process's timer with this key, if it is still set. -/
def unsetWake (h : Host κ) (k : TimerKey) : Host κ :=
  { h with timers := h.timers.filter fun t => !isWakeAt k t }

/-- The tick that has waited longest, and the host without it. -/
def takeTick (h : Host κ) : Option (Tick κ × Host κ) :=
  match h.ticks with
  | [] => none
  | t :: ts => some (t, { h with ticks := ts })

/-- The first timer whose deadline is not after `limit`, and the host without it, its clock at
that deadline. -/
def takeDue (h : Host κ) (limit : Nat) : Option (Alarm κ × Host κ) :=
  match h.timers with
  | [] => none
  | t :: ts =>
    if t.key.due ≤ limit then some (t.alarm, { h with timers := ts, now := t.key.due }) else none

/-- What can be seen of the host. -/
def view (h : Host κ) : HostView :=
  ⟨h.now, h.ticks.length, h.timers.length⟩

theorem mem_insertTimer {t u : Timer κ} {us : List (Timer κ)} :
    u ∈ insertTimer t us ↔ u = t ∨ u ∈ us := by
  induction us with
  | nil => simp [insertTimer]
  | cons v us ih =>
    simp only [insertTimer]
    split
    · simp only [List.mem_cons, ih]
      constructor <;> rintro (h | h | h) <;> simp [h]
    · simp

/-- Timers stay in the order of their deadlines. -/
theorem pairwise_insertTimer {t : Timer κ} {us : List (Timer κ)}
    (h : us.Pairwise fun u v => u.key.due ≤ v.key.due) :
    (insertTimer t us).Pairwise fun u v => u.key.due ≤ v.key.due := by
  induction us with
  | nil => simp [insertTimer]
  | cons v us ih =>
    obtain ⟨hv, hus⟩ := List.pairwise_cons.1 h
    simp only [insertTimer]
    split
    · next hle =>
      refine List.pairwise_cons.2 ⟨fun u hu => ?_, ih hus⟩
      rcases mem_insertTimer.1 hu with rfl | hu
      · exact hle
      · exact hv u hu
    · next hlt =>
      refine List.pairwise_cons.2 ⟨fun u hu => ?_, h⟩
      rcases List.mem_cons.1 hu with rfl | hu
      · omega
      · have := hv u hu; omega

end Host

end Actors
