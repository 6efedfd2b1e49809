/-
Work towards an answer.

An answer takes as many steps as the machine needs, so it is worked out by a `Job`, which makes one
step at a time: of a machine, until it is over, and then of the work that depends on how it ended.

* `Job.step` — one step of a job;
* `Job.answer?` — the answer of a job that is done;
* `Recovery` — whether a machine that has ended in a fault goes on.
-/
import Actors.Machine
import Actors.Script.Meaning

namespace Actors.Script

/-- A machine that runs scripts. -/
abbrev Runner := Machine Closure Session

/-- The world of a script. -/
abbrev Setting := World Closure Session

/-- What a machine goes on as after a fault, if it does go on. -/
abbrev Recovery := Runner → Option Runner

namespace Recovery

/-- A fault ends everything. -/
def never : Recovery :=
  fun _ => none

/-- A fault in a tick or a timer ends no more than that tick or that timer, and the references that
it held are let go. The tick has not come to its end, so the pump stays armed and no further tick
is deferred. A fault of the code that drives the host ends everything. -/
def ofHost : Recovery := fun m =>
  match m.fault, m.stack.reverse with
  | some _, own :: drive :: _ =>
    let user := m.world.user
    some
      { world := { m.world with
          handles := (if user.attached then 1 else 0) + user.programs.length
          holds := 0
          entered := 0 }
        stack := [drive, own]
        fault := none }
  | _, _ => none

end Recovery

/-- Work towards an answer. -/
inductive Job where
  | done (answer : Written)
  | run (recovery : Recovery) (m : Runner) (k : Runner → Job)

namespace Job

/-- One step of the machine, or the next part of the work once the machine is over. -/
def step : Job → Job
  | done w => done w
  | run recovery m k =>
    if m.isOver then
      match recovery m with
      | some m => run recovery m k
      | none => k m
    else
      run recovery (m.step meaning) k

/-- The answer, once it is there. -/
def answer? : Job → Option Written
  | done w => some w
  | run .. => none

/-- Runs a procedure whose result is kept as the answer of the session. -/
def code (recovery : Recovery) (w : Setting) (x : Procedure Closure Session Answer)
    (k : Runner → Job) : Job :=
  run recovery (Machine.load w (x.bind fun a =>
    Procedure.ofCode (Eval.update fun s => { s with answer := a }))) k

/-- Runs code with a written result. -/
def writing (recovery : Recovery) (w : Setting) (x : Eval Written) (k : Runner → Job) : Job :=
  code recovery w ((Procedure.ofCode x).map .written) k

end Job

end Actors.Script
