/-
Tasks built from tasks.

Everything here is an abbreviation for a few constructors of `Task`; nothing is run.

* `Task.sequence` — runs tasks from left to right and collects their values;
* `Task.perform`, `Task.attempt` — the tasks behind the two kinds of command.
-/
import Actors.Value

namespace Actors.Task

variable {κ : Type}

/-- Succeeds or fails as a result value says. -/
def ofResult : Except (Value κ) (Value κ) → Task κ
  | .ok v => .succeed v
  | .error v => .fail v

/-- Changes the value of a success. -/
def map (t : Task κ) (c : κ) : Task κ :=
  .andThen t (.map c)

/-- Changes the value of a failure. -/
def mapError (t : Task κ) (c : κ) : Task κ :=
  .onError t (.mapError c)

/-- Runs the tasks that are left, given the values collected before them. -/
def collect : List (Task κ) → List (Value κ) → Task κ
  | [], done => .succeed (.list done)
  | t :: rest, done => .andThen t (.collect rest done)

/-- Runs tasks from left to right; succeeds with the list of their values, or fails as the first
of them that fails. -/
def sequence (ts : List (Task κ)) : Task κ :=
  collect ts []

/-- The task of a command that is heard of only if it succeeds. -/
def perform (t : Task κ) (c : κ) : Task κ :=
  t.map c

/-- The task of a command that is heard of in either case: user code gets a result value. -/
def attempt (t : Task κ) (c : κ) : Task κ :=
  .andThen (.onError (.andThen t .asOk) .asErr) (.attempted c)

/-- Whether the task has already succeeded. -/
def isSucceed : Task κ → Bool
  | .succeed _ => true
  | _ => false

/-- Whether the task has already failed. -/
def isFail : Task κ → Bool
  | .fail _ => true
  | _ => false

end Actors.Task
