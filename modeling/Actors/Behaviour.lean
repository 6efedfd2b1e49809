/-
User code.

Everything that a user of the library supplies as a function is a `Code`: a finite tree over the
operations of `Request`. User code reads and writes a state of its own, of type `σ`, and acts on
processes, timers and programs through requests. Tasks name user code by codes of type `κ`; a
`Behaviour` says what each code means, wherever such a code can stand.

* `Request` — what user code can ask for, and `Request.Reply`, what it gets;
* `Manager`, `Application` — the functions that make up an effect manager and a program;
* `Behaviour` — the meaning of the codes;
* `Call` — an entry into user code: which function, and what it is given.
-/
import Actors.Act
import Actors.Config
import Actors.Host
import Actors.Effect.Tree

namespace Actors

/-- How far the host is asked to run: one tick, at most some number of ticks, until no tick waits,
or for a span of time. -/
inductive Extent where
  | one
  | upTo (n : Nat)
  | idle
  | advance (span : Nat)
deriving DecidableEq

/-- What can be seen of a runtime and its host from outside. -/
structure Snapshot where
  reachable : Bool
  processes : List Pid
  queued : Nat
  armed : Bool
  config : Config
  host : HostView

/-- The text of a runtime: its settings, and how many processes and queued turns there are. -/
def Snapshot.text (s : Snapshot) : String :=
  "Runtime \x7b config: " ++ s.config.text ++ ", processes: " ++ toString s.processes.length ++
    ", queued: " ++ toString s.queued ++ ", armed: " ++ Config.switch s.armed ++ " \x7d"

/-- What can be seen of a program. -/
structure ProgramView where
  pid : Pid
  updates : Nat
  managers : List (Home × Pid)

/-- The process of the manager under a home. -/
def ProgramView.manager (v : ProgramView) (home : Home) : Option Pid :=
  (v.managers.find? fun e => e.1 = home).map Prod.snd

/-- What user code can ask for. -/
inductive Request (κ σ : Type) where
  /-- Reads the user's state. -/
  | recall
  /-- Replaces the user's state. -/
  | remember (s : σ)
  /-- Runs user code that builds a task. -/
  | build (c : κ)
  /-- Runs user code that turns a value into a value. -/
  | convert (c : κ) (v : Value κ)
  /-- Starts a process; there is no reply if the runtime is gone. -/
  | spawn (t : Task κ)
  /-- Starts a process with a task that is built once its name is known. -/
  | spawnWith (c : κ)
  | send (p : Pid) (v : Value κ)
  | kill (p : Pid)
  | isAlive (p : Pid)
  /-- Uses a ticket, which is spent by that. -/
  | complete (t : Ticket) (task : Task κ)
  /-- Throws a ticket away. -/
  | forget (t : Ticket)
  /-- Whether the runtime that issued a ticket is still there. -/
  | isReachable
  /-- Runs user code in a later tick. -/
  | defer (c : κ)
  /-- Runs user code when a span of time has passed. -/
  | delay (span : Nat) (c : κ)
  /-- Removes a timer set by `delay`. -/
  | unset (k : TimerKey)
  /-- Lets the host run; the reply is the number of ticks run, or of timers fired. -/
  | drive (e : Extent)
  | observe
  /-- Starts a program; the reply is a fault if two of its managers have one home, and there is none
  if the runtime is gone. -/
  | start (c : κ)
  | program (p : ProgramId)
  | model (p : ProgramId)
  /-- Takes a further reference to the runtime for the user, if the runtime is there, and lets go of
  one. -/
  | retain
  | release

/-- What comes back. -/
def Request.Reply {κ σ : Type} : Request κ σ → Type
  | .recall => σ
  | .remember _ => Unit
  | .build _ => Task κ
  | .convert .. => Value κ
  | .spawn _ => Option Pid
  | .spawnWith _ => Option Pid
  | .send .. => Unit
  | .kill _ => Unit
  | .isAlive _ => Bool
  | .complete .. => Unit
  | .forget _ => Unit
  | .isReachable => Bool
  | .defer _ => Unit
  | .delay .. => TimerKey
  | .unset _ => Unit
  | .drive _ => Nat
  | .observe => Snapshot
  | .start _ => Option (Except Fault ProgramId)
  | .program _ => Option ProgramView
  | .model _ => Option (Value κ)
  | .retain => Unit
  | .release => Unit

/-- The operations of user code. -/
def requests (κ σ : Type) : Signature :=
  ⟨Request κ σ, Request.Reply⟩

/-- User code with a result in `α`. -/
abbrev Code (κ σ α : Type) := Act (requests κ σ) α

/-- The functions of an effect manager. -/
structure Manager (κ σ : Type) where
  kind : ManagerKind
  /-- The type that the manager's state always has. -/
  state : ValueType
  init : Code κ σ (Task κ)
  /-- Handles the commands and subscriptions of one update cycle. -/
  onEffects : Router → List (Value κ) → List (Value κ) → Value κ → Code κ σ (Task κ)
  /-- Handles a message that the manager has sent to itself. -/
  onMessage : Router → Value κ → Value κ → Code κ σ (Task κ)
  mapCommand : List (Tagger κ) → Value κ → Code κ σ (Value κ)
  mapSubscription : List (Tagger κ) → Value κ → Code κ σ (Value κ)

/-- The functions of a program. -/
structure Application (κ σ : Type) where
  /-- The type that the program's messages have. -/
  message : ValueType
  /-- The managers to register, in order. -/
  managers : List (Home × Hooks κ)
  init : Code κ σ (Value κ × EffectTree κ)
  /-- The next model and the commands, from a message and the model. -/
  update : Value κ → Value κ → Code κ σ (Value κ × EffectTree κ)
  subscriptions : Value κ → Code κ σ (EffectTree κ)
  render : Value κ → Code κ σ Unit

/-- What the codes mean, in each of the places where one can stand. -/
structure Behaviour (κ σ : Type) where
  /-- A continuation of a task. -/
  callback : κ → Value κ → Code κ σ (Task κ)
  /-- A function from values to values. -/
  convert : κ → Value κ → Code κ σ (Value κ)
  /-- The start of a binding. The result, if there is one, is run when the binding is called off. -/
  start : κ → Ticket → Code κ σ (Option κ)
  /-- Work without a result. -/
  thunk : κ → Code κ σ Unit
  /-- A task that is built on demand. -/
  build : κ → Code κ σ (Task κ)
  /-- A task that is built for a process whose name is known. -/
  buildFor : κ → Pid → Code κ σ (Task κ)
  manager : κ → Manager κ σ
  application : κ → Application κ σ

/-- The behaviour where there are no codes. Tasks are left with what the runtime itself puts into
them. -/
def Behaviour.empty {σ : Type} : Behaviour Empty σ :=
  ⟨nofun, nofun, nofun, nofun, nofun, nofun, nofun, nofun⟩

/-- An entry into user code, with what the code is given. -/
inductive Call (κ : Type) where
  | callback (c : κ) (v : Value κ)
  | convert (c : κ) (v : Value κ)
  | start (c : κ) (t : Ticket)
  | thunk (c : κ)
  | build (c : κ)
  | buildFor (c : κ) (p : Pid)
  | managerInit (m : Post κ)
  | managerEffects (m : Post κ) (cmds subs : List (Value κ)) (state : Value κ)
  | managerMessage (m : Post κ) (v state : Value κ)
  | mapLeaf (m : Hooks κ) (f : Family) (chain : List (Tagger κ)) (v : Value κ)
  | init (p : ProgramId) (app : κ)
  | update (p : ProgramId) (app : κ) (v model : Value κ)
  | subscriptions (p : ProgramId) (app : κ) (model : Value κ)
  | render (p : ProgramId) (app : κ) (model : Value κ)

/-- What a call returns. -/
def Call.Result {κ : Type} : Call κ → Type
  | .callback .. => Task κ
  | .convert .. => Value κ
  | .start .. => Option κ
  | .thunk _ => Unit
  | .build _ => Task κ
  | .buildFor .. => Task κ
  | .managerInit _ => Task κ
  | .managerEffects .. => Task κ
  | .managerMessage .. => Task κ
  | .mapLeaf .. => Value κ
  | .init .. => Value κ × EffectTree κ
  | .update .. => Value κ × EffectTree κ
  | .subscriptions .. => EffectTree κ
  | .render .. => Unit

namespace Code

variable {κ σ : Type}

/-- A single request. -/
def ask (r : Request κ σ) : Code κ σ r.Reply :=
  Act.op (S := requests κ σ) r Act.ret

end Code

end Actors
