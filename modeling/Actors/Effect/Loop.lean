/-
The life of a manager.

A manager is a process. It starts with a task of its own, whose value is its first state; then it
takes one message after another, and the task that handles a message ends with the next state. If
a task fails the manager exits with that failure.

* `Manager.opening` — the task that a manager's process runs;
* `Manager.handle` — the task that handles one message.
-/
import Actors.Call
import Actors.Directive

namespace Actors.Manager

open Procedure

variable {κ σ : Type}

/-- The task that a manager's process runs: first the manager's own start, then its loop. -/
def opening (m : Post κ) : Procedure κ σ (Task κ) := do
  note .initializing
  let t ← invoke (.managerInit m)
  return .andThen t (.managerReady m)

/-- The task that handles a message, given the state. What is neither a set of effects nor a
message of the manager to itself is a breach of contract, and so is a state of the wrong type. -/
def handle (b : Behaviour κ σ) (m : Post κ) (state : Value κ) : Value κ → Procedure κ σ (Task κ)
  | .effects cmds subs => do
    note (.effects cmds.length subs.length)
    let s ← Act.ofExcept (state.coerce (m.hooks.manager b).state)
    invoke (.managerEffects m cmds subs s)
  | .internal v => do
    note .selfMessage
    let s ← Act.ofExcept (state.coerce (m.hooks.manager b).state)
    invoke (.managerMessage m v s)
  | other => .raise (.strangeManagerMessage m.router other.text)

/-- One turn of the loop: the message is handled, and after that the loop goes on or ends. -/
def turn (b : Behaviour κ σ) (m : Post κ) (state v : Value κ) : Procedure κ σ (Task κ) := do
  let t ← handle b m state v
  return .andThen (.onError t (.managerFailed m)) (.managerNext m)

end Actors.Manager
