/-
Programs.

A program has a model, a main process, and managers. Every message that the main process takes
runs one update cycle: `update` makes the next model and commands, the model is rendered, and the
commands and the current subscriptions are handed out to the managers.

* `Program.update` — one update cycle;
* `Program.start` — the start of a program, with a first cycle for the initial model.
-/
import Actors.Effect.Cycle
import Actors.Effect.Loop

namespace Actors.Program

open Procedure

variable {κ σ : Type}

/-- Sends every manager of a program its share of the effects, in order of registration. A manager
without a share is sent an empty one. -/
def distribute (shares : Shares κ) : List (Home × Pid) → Procedure κ σ Unit
  | [] => .ret ()
  | (home, pid) :: rest => do
    let e := shares.find home
    note (.dispatched home pid e.cmds.length e.subs.length)
    ask (.send pid (.effects e.cmds e.subs))
    distribute shares rest

/-- The second half of an update cycle: the new model is rendered and put in its place, and the
effects are collected and handed out. -/
def conclude (b : Behaviour κ σ) (p : ProgramId) (d : RunningProgram κ) (model : Value κ)
    (cmds : EffectTree κ) : Procedure κ σ Unit := do
  invoke (.render p d.app model)
  let subs : EffectTree κ ← invoke (.subscriptions p d.app model)
  -- The model is back in its place before the managers' own code sees the effects.
  direct (.putModel p model)
  let shares ← Shares.ofCycle b d.registry cmds subs
  let here : Bool ← ask .isReachable
  if here then distribute shares d.managers

/-- One update cycle. The message has to be of the program's message type, and the model has to be
in its place. -/
def update (b : Behaviour κ σ) (p : ProgramId) (v : Value κ) : Procedure κ σ Unit := do
  match ← direct (.running p) with
  | none => return ()
  | some d =>
    if v.hasType (b.application d.app).message then
      match ← direct (.takeModel p) with
      | none => Act.raise .modelMissing
      | some model =>
        let r : Value κ × EffectTree κ ← invoke (.update p d.app v model)
        direct (.countUpdate p)
        conclude b p d r.1 r.2
    else
      Act.raise (.strangeProgramMessage v.text)

/-- Registers managers in order, up to the first that is refused. -/
def register (b : Behaviour κ σ) :
    Registry κ → List (Home × Hooks κ) → Procedure κ σ (Except Fault (Registry κ))
  | r, [] => .ret (.ok r)
  | r, (home, hooks) :: rest =>
    match r.register home hooks with
    | .error f => .ret (.error f)
    | .ok r => do
      note (.registered home (hooks.manager b).kind)
      register b r rest

/-- Starts the process of every manager, in order of registration. -/
def startManagers (app : Pid) :
    List (Home × Hooks κ) → Procedure κ σ (List (Home × Pid))
  | [] => .ret []
  | (home, hooks) :: rest => do
    let this ← direct .reserve
    let t ← Manager.opening ⟨hooks, ⟨app, this⟩⟩
    direct (.install this (some home.name) t)
    let others ← startManagers app rest
    return (home, this) :: others

/-- The task of a main process: it waits for a message. -/
def listen (p : ProgramId) : Task κ :=
  .receive (.programTurn p)

/-- Starts a program: its managers, then a first cycle with the initial model, and at last its
main process. The result is the program's position, or the refusal of a manager. -/
def start (b : Behaviour κ σ) (c : κ) : Procedure κ σ (Except Fault ProgramId) := do
  match ← register b .empty (b.application c).managers with
  | .error f => return .error f
  | .ok registry =>
    direct .hold
    let pid ← direct .reserve
    direct .enter
    let managers ← startManagers pid registry.entries
    let d : RunningProgram κ := ⟨pid, c, registry, managers, none, 0⟩
    let p ← direct (.found d)
    let r : Value κ × EffectTree κ ← invoke (.init p c)
    conclude b p d r.1 r.2
    -- Only now is there somebody to take messages: those sent to `pid` so far are dropped.
    direct (.install pid (some "program") (listen p))
    note (.programStarted pid managers.length)
    direct .leave
    ask .retain
    direct .unhold
    return .ok p

end Actors.Program
