/-
The journal.

A runtime keeps a journal of what happens in it. Each entry belongs to the span of work that it
was made in, if any: the managers' own entries to the span of the manager, the update cycle's to
that of the program, and everything that happens while a program is being started to that program.

* `Event` — what can happen; `Event.level`, `Event.text` and `Event.fields` are its written form;
* `Entry` — an event in its span.
-/
import Actors.Value
import Actors.Config

namespace Actors

/-- A span of work that entries can belong to. -/
inductive Span where
  | manager
  | program
deriving DecidableEq

def Span.text : Span → String
  | manager => "manager"
  | program => "program"

/-- What is written to the journal. -/
inductive Event (κ : Type) where
  | created (budget : Nat)
  | spawned (pid : Pid) (label : Option String)
  | killed (pid : Pid) (cancelled : Bool)
  | exited (pid : Pid) (label : Option String) (v : Value κ)
  | failed (pid : Pid) (label : Option String) (v : Value κ)
  | dropped (pid : Pid) (v : Value κ)
  | discarded (pid : Pid)
  | started (pid : Pid) (binding : Nat)
  | pumped (tick steps stepped : Nat) (drained : Bool)
  | registered (home : Home) (kind : ManagerKind)
  | initializing
  | polling
  | effects (cmds subs : Nat)
  | selfMessage
  | exiting (v : Value κ)
  | dispatched (home : Home) (pid : Pid) (cmds subs : Nat)
  | updating
  | programStarted (pid : Pid) (managers : Nat)

namespace Event

variable {κ : Type}

/-- The span that an event belongs to wherever it happens. -/
def span? : Event κ → Option Span
  | initializing => some .manager
  | polling => some .manager
  | effects .. => some .manager
  | selfMessage => some .manager
  | exiting _ => some .manager
  | updating => some .program
  | _ => none

/-- How important an event is. The end of a process that has a label is a warning. -/
def level : Event κ → Level
  | created _ => .debug
  | spawned .. => .debug
  | killed .. => .debug
  | exited _ label _ => if label.isSome then .warn else .debug
  | failed _ label _ => if label.isSome then .warn else .debug
  | dropped .. => .trace
  | discarded _ => .trace
  | started .. => .trace
  | pumped .. => .trace
  | registered .. => .debug
  | initializing => .debug
  | polling => .debug
  | effects .. => .trace
  | selfMessage => .trace
  | exiting _ => .debug
  | dispatched .. => .trace
  | updating => .trace
  | programStarted .. => .debug

/-- The wording of an event. -/
def text : Event κ → String
  | created _ => "runtime created"
  | spawned .. => "process spawned"
  | killed .. => "process killed"
  | exited _ label _ => if label.isSome then "permanent process exited" else "process exited"
  | failed _ label _ => if label.isSome then "permanent process failed" else "process failed"
  | dropped .. => "message dropped"
  | discarded _ => "completion discarded"
  | started .. => "binding started"
  | pumped .. => "pump tick"
  | registered .. => "manager registered"
  | initializing => "initializing"
  | polling => "polling"
  | effects .. => "effects"
  | selfMessage => "self message"
  | exiting _ => "exiting"
  | dispatched .. => "dispatch effects"
  | updating => "update"
  | programStarted .. => "program started"

/-- A label as a field, if there is one. -/
def labelField (label : Option String) : List (String × String) :=
  label.toList.map fun s => ("label", s)

/-- What an event carries, each with a name. -/
def fields : Event κ → List (String × String)
  | created budget => [("step_budget", toString budget)]
  | spawned pid label => ("pid", pid.text) :: labelField label
  | killed pid cancelled => [("pid", pid.text), ("cancel", Config.switch cancelled)]
  | exited pid label v => ("pid", pid.text) :: labelField label ++ [("value", v.text)]
  | failed pid label v => ("pid", pid.text) :: labelField label ++ [("error", v.text)]
  | dropped pid v => [("pid", pid.text), ("message", v.text)]
  | discarded pid => [("pid", pid.text)]
  | started pid binding => [("pid", pid.text), ("binding", toString binding)]
  | pumped tick steps stepped drained =>
    [("tick", toString tick), ("steps", toString steps), ("stepped", toString stepped),
     ("drained", Config.switch drained)]
  | registered home kind => [("home", home.text), ("kind", kind.text)]
  | initializing => []
  | polling => []
  | effects cmds subs => [("cmds", toString cmds), ("subs", toString subs)]
  | selfMessage => []
  | exiting v => [("error", v.text)]
  | dispatched home pid cmds subs =>
    [("home", home.text), ("pid", pid.text), ("cmds", toString cmds), ("subs", toString subs)]
  | updating => []
  | programStarted pid managers => [("pid", pid.text), ("managers", toString managers)]

end Event

/-- An event with the span it belongs to. -/
structure Entry (κ : Type) where
  span : Option Span
  event : Event κ

end Actors
