/-
The meaning of closures.

A closure is a phrase with its scope; what it means depends on the place where it stands. Where a
closure of the wrong sort stands it does nothing, which no phrase can bring about.

* `meaning` — the behaviour that scripts give to their closures;
* `ManagerExpr.entry` — a manager as it is registered.
-/
import Actors.Effect.Worker
import Actors.Script.Perform

namespace Actors.Script

/-- A manager as it is registered. -/
def ManagerExpr.entry (s : Scope) : ManagerExpr → Home × Hooks Closure
  | .tasks => (.tasks, .tasks)
  | m@(.custom home ..) => (⟨home⟩, .custom (.mk (.manager m) s))

/-- A handler of a manager, with the values it can see; without a handler the state is kept. -/
def handler (s : Scope) (r : Router) (t : Option TaskExpr) (vs : List (String × V)) (state : V) :
    Eval T :=
  match t with
  | none => .ret (.succeed state)
  | some t => t.build ((show Scope from { s with router := some r }).bindAll vs)

/-- The map of a manager; without one the taggers are applied. -/
def leafMap (s : Scope) (e : Option Expr) (chain : List (Tagger Closure)) (v : V) : Eval V :=
  match e with
  | none => Tagger.applyAll chain v
  | some e => e.eval ((show Scope from { s with chain := chain }).bind "value" v)

/-- The functions of a manager. -/
def ManagerExpr.functions (s : Scope) : ManagerExpr → Manager Closure Session
  | .tasks => .tasks
  | .custom _ kind state init onEffects onMessage mapCommand mapSubscription => {
      kind := kind
      state := state
      init := init.build s
      onEffects := fun r cmds subs v =>
        handler s r onEffects [("state", v), ("cmds", .list cmds), ("subs", .list subs)] v
      onMessage := fun r w v => handler s r onMessage [("state", v), ("msg", w)] v
      mapCommand := leafMap s mapCommand
      mapSubscription := leafMap s mapSubscription }

/-- One half-cycle of a program: statements, the model, then the commands, which see the model
under a name if they are given one. -/
def CycleExpr.run (type : ValueType) (next : Option String) (s : Scope) :
    CycleExpr → Eval (V × Tree)
  | .mk work model cmds => do
    Stmt.performAll work s
    let v ← model.eval s
    let inner := match next with
      | some x => s.bind x v
      | none => s
    let b ← cmds.build type inner
    return (v, b)

/-- The functions of a program. -/
def ProgramExpr.functions (s : Scope) : ProgramExpr → Application Closure Session
  | .mk type managers init update subsWork subs render => {
      message := type
      managers := managers.map (ManagerExpr.entry s)
      init := init.run type none s
      update := fun msg model =>
        update.run type (some "next") (s.bindAll [("msg", msg), ("model", model)])
      subscriptions := fun model => do
        Stmt.performAll subsWork (s.bind "model" model)
        subs.build type (s.bind "model" model)
      render := fun model => Stmt.performAll render (s.bind "model" model) }

namespace Closure

/-- Builds the next task from a value. -/
def callback : Closure → V → Eval T
  | mk (.task x t) s, v => t.build (Scope.bind s x v)
  | _, _ => .ret (.succeed .unit)

/-- Makes a value from a value. -/
def convert : Closure → V → Eval V
  | mk (.value x e type) s, v => do
    let w ← e.eval (Scope.bind s x v)
    match type with
    | some t => Act.ofExcept (w.coerce t)
    | none => return w
  | _, v => .ret v

/-- Puts a ticket into its slot, where an older one is thrown away, and acts. -/
def start : Closure → Ticket → Eval (Option Closure)
  | mk (.native slot work cancel) s, t => do
    let session ← Eval.session
    Eval.update fun session => { session with slots := Session.put slot t session.slots }
    if let some old := session.slots.lookup slot then
      Code.ask (.forget old)
    let inner := Scope.bind s "pid" (.pid t.pid)
    Stmt.performAll work inner
    return cancel.map fun ss => .mk (.thunk ss) inner
  | _, _ => .ret none

/-- Acts. -/
def thunk : Closure → Eval Unit
  | mk (.thunk ss) s => Stmt.performAll ss s
  | _ => .ret ()

/-- Builds a task. -/
def build : Closure → Eval T
  | mk (.plain t) s => t.build s
  | _ => .ret (.succeed .unit)

/-- Builds a task for a process of a given name. -/
def buildFor : Closure → Pid → Eval T
  | mk (.plain t) s, p => t.build (Scope.bind s "pid" (.pid p))
  | _, _ => .ret (.succeed .unit)

/-- The functions of a manager. -/
def manager : Closure → Manager Closure Session
  | mk (.manager m) s => m.functions s
  | _ => .tasks

/-- The functions of a program. -/
def application : Closure → Application Closure Session
  | mk (.program p) s => p.functions s
  | _ => {
      message := .unit
      managers := []
      init := .ret (.unit, .none)
      update := fun _ v => .ret (v, .none)
      subscriptions := fun _ => .ret .none
      render := fun _ => .ret () }

end Closure

/-- What the closures of a script mean. -/
def meaning : Behaviour Closure Session where
  callback := Closure.callback
  convert := Closure.convert
  start := Closure.start
  thunk := Closure.thunk
  build := Closure.build
  buildFor := Closure.buildFor
  manager := Closure.manager
  application := Closure.application

end Actors.Script
