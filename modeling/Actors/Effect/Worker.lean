/-
The built-in manager.

The built-in manager takes commands that hold tasks. It runs each of them as a process of its own,
a worker, which sends what comes out of the task to the program.

* `Manager.worker` — the task of a worker;
* `Manager.tasks` — the manager itself.
-/
import Actors.Effect.Tagger
import Actors.Task

namespace Actors.Manager

variable {κ σ : Type}

/-- The tasks in a list of commands, or the refusal of the first value that is none. -/
def tasksOf : List (Value κ) → Except Fault (List (Task κ))
  | [] => .ok []
  | v :: vs => do
    let t ← v.toCommand
    let ts ← tasksOf vs
    return t :: ts

/-- The process that runs one command for a program. -/
def worker (app : Pid) (t : Task κ) : Task κ :=
  .andThen t (.deliver app)

/-- The manager that runs tasks. Its state carries nothing. -/
def tasks : Manager κ σ where
  kind := .only .command
  state := .unit
  init := .ret (.succeed .unit)
  onEffects router cmds _ state :=
    (Act.ofExcept (tasksOf cmds)).map fun ts =>
      .andThen (Task.sequence (ts.map fun t => .native (.spawn (worker router.app t))))
        (.replace state)
  onMessage _ _ state := .ret (.succeed state)
  mapCommand chain v :=
    (Act.ofExcept v.toCommand).map fun t => .command (.andThen t (.tag chain))
  mapSubscription chain v := Tagger.applyAll chain v

end Actors.Manager
