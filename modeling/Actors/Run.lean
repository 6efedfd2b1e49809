/-
Runs.

A run begins with a new world and with code that acts on it from outside. When that code is over,
with everything it has driven, further code may be loaded onto the world that is left. What a run
enters of user code is its sequence of calls.

* `Reachable` — the machines that a run can lead to;
* `Reachable.run` — a run may be continued by any number of steps;
* `Machine.calls` — the calls that a number of steps enter, in order.
-/
import Actors.Machine

namespace Actors

variable {κ σ α : Type}

/-- The machines that runs lead to. -/
inductive Reachable (b : Behaviour κ σ) : Machine κ σ → Prop where
  | new (config : Config) (user : σ) (code : Code κ σ Unit) :
      Reachable b (.load (.new config user) (Procedure.ofCode code))
  | step {m : Machine κ σ} : Reachable b m → Reachable b (m.step b)
  | load {m : Machine κ σ} (code : Code κ σ Unit) :
      Reachable b m → m.stack = [] → m.fault = none →
        Reachable b (.load m.world (Procedure.ofCode code))

/-- A run may be continued by any number of steps. -/
theorem Reachable.run {b : Behaviour κ σ} {m : Machine κ σ} (h : Reachable b m) (n : Nat) :
    Reachable b (Machine.run b n m) := by
  induction n generalizing m with
  | zero => exact h
  | succ n ih => exact ih h.step

/-- The call that a piece of code is about to enter. -/
def Pending.call? : Pending κ σ α → Option (Call κ)
  | .run (.op (.invoke c) _) => some c
  | _ => none

/-- The call that an activity is about to enter. -/
def Activity.call? : Activity κ σ → Option (Call κ)
  | work code => code.call?
  | tick _ _ (.callback _ code) => code.call?
  | tick _ _ (.starting _ code) => code.call?
  | _ => none

namespace Machine

/-- The call that the next step enters. -/
def call? (m : Machine κ σ) : Option (Call κ) :=
  match m.fault, m.stack with
  | none, a :: _ => a.call?
  | _, _ => none

/-- The calls that a number of steps enter, in order. -/
def calls (b : Behaviour κ σ) : Nat → Machine κ σ → List (Call κ)
  | 0, _ => []
  | n + 1, m => m.call?.toList ++ calls b n (m.step b)

/-- The calls of two parts of a run follow one another. -/
theorem calls_add (b : Behaviour κ σ) (n k : Nat) (m : Machine κ σ) :
    calls b (n + k) m = calls b n m ++ calls b k (run b n m) := by
  induction n generalizing m with
  | zero => rw [Nat.zero_add]; rfl
  | succ n ih => rw [Nat.succ_add, calls, calls, run, ih, List.append_assoc]

/-- A machine that is over enters nothing more. -/
theorem call?_of_isOver {m : Machine κ σ} (h : m.isOver = true) : m.call? = none := by
  obtain ⟨w, stack, fault⟩ := m
  cases fault <;> cases stack <;> simp_all [isOver, call?]

end Machine

end Actors
