/-
Continuations and bindings.

What a process does when it goes on with a value, and what it does when it reaches a binding, are
procedures: most of them enter user code, some belong to the runtime itself.

* `Callback.run` — what a task goes on with, given a value;
* `Binding.start` — the work of a binding;
* `Procedure.spawnWith` — starts a process whose task is built once its name is known.
-/
import Actors.Program

namespace Actors

open Procedure

variable {κ σ : Type}

/-- What a task goes on with, given a value. -/
def Callback.run (b : Behaviour κ σ) : Callback κ → Value κ → Procedure κ σ (Task κ)
  | .code c, v => invoke (.callback c v)
  | .map c, v => (invoke (.convert c v)).map .succeed
  | .mapError c, v => (invoke (.convert c v)).map .fail
  | .collect rest done, v => .ret (Task.collect rest (done ++ [v]))
  | .replace w, _ => .ret (.succeed w)
  | .asOk, v => .ret (.succeed (.ok v))
  | .asErr, v => .ret (.succeed (.err v))
  | .attempted c, v =>
    (Act.ofExcept v.toResult).bind fun _ => (invoke (.convert c v)).map .succeed
  | .tag chain, v => (ofCode (Tagger.applyAll chain v)).map .succeed
  | .deliver p, v => .ret (.native (.send p v))
  | .managerReady m, v => (note .polling).map fun _ => .receive (.managerTurn m v)
  | .managerTurn m state, v => Manager.turn b m state v
  | .managerFailed _, v => (note (.exiting v)).map fun _ => .fail v
  | .managerNext m, v => .ret (.receive (.managerTurn m v))
  | .programTurn p, v => .ret (.andThen (.native (.update p v)) (.programNext p))
  | .programNext p, _ => .ret (Program.listen p)

/-- Whose ticket the completion of a binding is. -/
def Binding.holder : Binding κ → Holder
  | .code _ => .user
  | _ => .runtime

/-- Does the work of a binding. Only user code may go on after the start; what it returns calls the
binding off. -/
def Binding.start (b : Behaviour κ σ) (t : Ticket) : Binding κ → Procedure κ σ Unit
  | .code c => do
    let r : Option κ ← invoke (.start c t)
    match r with
    | some c => direct (.attach t c)
    | none => return ()
  | .spawn task => do
    let p : Option Pid ← ask (.spawn task)
    match p with
    | some p => direct (.settle t (.succeed (.pid p)))
    | none => return ()
  | .kill p => do
    ask (.kill p)
    direct (.settle t (.succeed .unit))
  | .send p v => do
    ask (.send p v)
    direct (.settle t (.succeed .unit))
  | .this => direct (.settle t (.succeed (.pid t.pid)))
  | .sleep span => direct (.sleep span t)
  | .update p v => do
    note .updating
    Program.update b p v
    direct (.settle t (.succeed .unit))

/-- Starts a process whose task is built once its name is known. -/
def Procedure.spawnWith (c : κ) : Procedure κ σ (Option Pid) := do
  direct .hold
  let p ← direct .reserve
  let t ← invoke (.buildFor c p)
  direct (.install p none t)
  direct .unhold
  return some p

end Actors
