/-
Tasks, statements and effect trees.

Building a task evaluates everything in it at once, except what stands under a variable; that is
put into the task as a closure. A statement acts at once and has a written result.

* `TaskExpr.build` — the task that a phrase describes;
* `Stmt.perform` — what a statement does, and its result;
* `TreeExpr.build` — the effect tree that a phrase describes, for messages of a given type.
-/
import Actors.Script.Eval
import Actors.Task

namespace Actors.Script

open Eval

/-- Puts something around a task. -/
def TaskWrap.put (s : Scope) : TaskWrap → T → T
  | .andThen x u, t => .andThen t (.code (.mk (.task x u) s))
  | .onError x u, t => .onError t (.code (.mk (.task x u) s))
  | .map x e, t => t.map (.mk (.value x e none) s)
  | .mapError x e, t => t.mapError (.mk (.value x e none) s)
  | .spawn, t => .native (.spawn t)

/-- Puts something around a task several times. -/
def TaskWrap.putTimes (s : Scope) (w : TaskWrap) : Nat → T → T
  | 0, t => t
  | n + 1, t => w.put s (putTimes s w n t)

/-- A task that writes its outcome to the log and then succeeds. -/
def watched (t : T) : T :=
  let report (w : Wrapper) : Closure :=
    .mk (.task "v" (.act [.log (.wrap w (.var "v"))] (.succeed .null))) Scope.empty
  .onError (.andThen t (.code (report .ok))) (.code (report .err))

/-- The result of a statement that needs a runtime when there is none. -/
def noRuntime : Written := .text "no runtime"

/-- The result of a statement about something that is not there. -/
def nothing : Written := .text "none"

/-- The task of a definition, with the arguments as its only variables. -/
def callDef (name : String) (vs : List V) (s : Scope) : Eval T := do
  let session ← session
  match session.defs.find? fun d => d.name = name with
  | some d =>
    let inner : Scope := { s with vars := [] }
    Code.ask (.build (.mk (.plain d.body) (inner.bindAll (d.params.zip vs))))
  | none => return .succeed .unit

/-- Names a process that has been started. -/
def named (name : Option String) (p : Option Pid) : Eval Written :=
  match p with
  | none => .ret noRuntime
  | some p =>
    let keep (session : Session) : Session :=
      match name with
      | some x => { session with globals := Session.put x (.pid p) session.globals }
      | none => session
    (update keep).map fun _ => .count p.number

/-- Starts a process with a task that is built first, while the runtime is held. -/
def spawnBuilt (x : Eval T) (name : Option String) : Eval Written := do
  Code.ask .retain
  let t ← x
  let p : Option Pid ← Code.ask (.spawn t)
  Code.ask .release
  named name p

/-- Goes on if the script still has its reference to the runtime. -/
def attachedOr (x : Eval Written) : Eval Written := do
  let session ← session
  if session.attached then x else return noRuntime

/-- Takes a ticket out of its slot and goes on with it. -/
def withSlot (slot : String) (x : Ticket → Eval Written) : Eval Written := do
  let session ← session
  match session.slots.lookup slot with
  | none => return nothing
  | some t =>
    update fun session => { session with slots := Session.remove slot session.slots }
    x t

/-- Goes on with a program, if there is one of this number. -/
def withProgram (i : Nat) (x : ProgramId → ValueType → Eval Written) : Eval Written := do
  let session ← session
  match session.programs[i]? with
  | none => return nothing
  | some (p, type) => x p type

/-- Goes on with what can be seen of a program. -/
def withView (i : Nat) (x : ProgramView → Written) : Eval Written :=
  withProgram i fun p _ => do
    let view : Option ProgramView ← Code.ask (.program p)
    return (view.map x).getD nothing

/-- Completes a binding with a ticket. -/
def completeWith (t : Ticket) (task : T) : Eval Written := do
  Code.ask (.complete t task)
  return .null

/-- Lets the host run, and tells what came of it. -/
def driveHost (e : Extent) (tell : Nat → Written) : Eval Written := do
  let n : Nat ← Code.ask (.drive e)
  return tell n

/-- Lets go of all references to the runtime that a script has. -/
def leaveRuntime : Eval Written := do
  let before ← session
  update fun session => { session with attached := false, programs := [] }
  let own := if before.attached then [()] else []
  let _ ← Act.traverse (fun _ => Code.ask .release) (own ++ before.programs.map fun _ => ())
  return .null

/-- What can be seen of a ticket. -/
def peekSlot (slot : String) : Eval Written := do
  let session ← session
  match session.slots.lookup slot with
  | none => return nothing
  | some t =>
    let b : Bool ← Code.ask .isReachable
    return .list
      [.text ("Complete \x7b pid: " ++ t.pid.text ++ ", binding: " ++ toString t.binding ++
        ", .. \x7d"), .count t.pid.number, .bool b]

/-- Starts a program and keeps its number. -/
def startProgram (p : ProgramExpr) (s : Scope) : Eval Written := do
  let .mk type .. := p
  let r : Option (Except Fault ProgramId) ← Code.ask (.start (.mk (.program p) s))
  match r with
  | none => return noRuntime
  | some (.error f) => return f.written
  | some (.ok id) =>
    let session ← session
    update fun session => { session with programs := session.programs ++ [(id, type)] }
    return .count session.programs.length

mutual

/-- The task that a phrase describes. -/
def TaskExpr.build : TaskExpr → Scope → Eval T
  | .succeed e, s => do
    let v ← e.eval s
    return .succeed v
  | .fail e, s => do
    let v ← e.eval s
    return .fail v
  | .result e, s => do
    let v ← e.eval s
    let r ← Act.ofExcept v.toResult
    return Task.ofResult r
  | .wrap t w, s => do
    let t ← t.build s
    return w.put s t
  | .receive x t, s => .ret (.receive (.code (.mk (.task x t) s)))
  | .sequence ts, s => do
    let ts ← TaskExpr.buildAll ts s
    return Task.sequence ts
  | .each l x t, s => do
    let vs ← asList (l.eval s)
    let ts ← Act.traverse (fun v => t.build (s.bind x v)) vs
    return Task.sequence ts
  | .native slot work cancel, s => .ret (.native (.code (.mk (.native slot work cancel) s)))
  | .kill e, s => do
    let p ← asPid (e.eval s)
    return .native (.kill p)
  | .send a b, s => do
    let p ← asPid (a.eval s)
    let v ← b.eval s
    return .native (.send p v)
  | .this, _ => .ret (.native .this)
  | .sleep d, s => do
    let span ← d.eval s
    return .native (.sleep span)
  | .toApp e, s => do
    let v ← e.eval s
    return (s.router.map fun r => .native (.send r.app v)).getD (.succeed .unit)
  | .toSelf e, s => do
    let v ← e.eval s
    return (s.router.map fun r => .native (.send r.this (.internal v))).getD (.succeed .unit)
  | .cond c t u, s => do
    let b ← asBool (c.eval s)
    if b then t.build s else u.build s
  | .bind x e t, s => do
    let v ← e.eval s
    t.build (s.bind x v)
  | .act ss t, s => do
    Stmt.performAll ss s
    t.build s
  | .call name es, s => do
    let vs ← Expr.evalAll es s
    callDef name vs s
  | .rep n t w, s => do
    let t ← t.build s
    return w.putTimes s n t

/-- The tasks that phrases describe, from left to right. -/
def TaskExpr.buildAll : List TaskExpr → Scope → Eval (List T)
  | [], _ => .ret []
  | t :: ts, s => do
    let t ← t.build s
    let ts ← TaskExpr.buildAll ts s
    return t :: ts

/-- Does what a statement says. -/
def Stmt.perform : Stmt → Scope → Eval Written
  | .log e, s => do
    let v ← e.eval s
    update fun session => session.note v.written
    return .null
  | .count name, _ => do
    update fun session => session.count name
    return .null
  | .assign name e, s => do
    let v ← e.eval s
    update fun session => { session with globals := Session.put name v.image session.globals }
    return .null
  | .when e ss, s => do
    let b ← asBool (e.eval s)
    if b then Stmt.performAll ss s
    return .null
  | .spawn t name, s => attachedOr (spawnBuilt (t.build s) name)
  | .watch t name, s => attachedOr (spawnBuilt ((t.build s).map watched) name)
  | .spawnWith t name, s => attachedOr do
    let p : Option Pid ← Code.ask (.spawnWith (.mk (.plain t) s))
    named name p
  | .send a b, s => do
    let p ← asPid (a.eval s)
    let v ← b.eval s
    attachedOr do
      Code.ask (.send p v)
      return .null
  | .kill e, s => do
    let p ← asPid (e.eval s)
    attachedOr do
      Code.ask .retain
      Code.ask (.kill p)
      Code.ask .release
      return .null
  | .alive e, s => do
    let p ← asPid (e.eval s)
    attachedOr do
      let b : Bool ← Code.ask (.isAlive p)
      return .bool b
  | .dropRuntime, _ => leaveRuntime
  | .complete slot t, s => withSlot slot fun ticket => do
    let t ← t.build s
    completeWith ticket t
  | .succeed slot e, s => withSlot slot fun ticket => do
    let v ← e.eval s
    completeWith ticket (.succeed v)
  | .fail slot e, s => withSlot slot fun ticket => do
    let v ← e.eval s
    completeWith ticket (.fail v)
  | .forget slot, _ => withSlot slot fun ticket => do
    Code.ask (.forget ticket)
    return .null
  | .peek slot, _ => peekSlot slot
  | .defer ss, s => do
    Code.ask (.defer (.mk (.thunk ss) s))
    return .null
  | .delay d ss name, s => attachedOr do
    let span ← d.eval s
    let k : TimerKey ← Code.ask (.delay span (.mk (.thunk ss) s))
    update fun session => { session with timers := Session.put name k session.timers }
    return .null
  | .cancel name, _ => do
    let session ← session
    match session.timers.lookup name with
    | none => return nothing
    | some k =>
      update fun session => { session with timers := Session.remove name session.timers }
      Code.ask (.unset k)
      return .null
  | .runOne, _ => driveHost .one fun n => .bool (n = 1)
  | .run n, _ => driveHost (.upTo n) .count
  | .idle, _ => driveHost .idle .count
  | .advance d, s => do
    let span ← d.eval s
    driveHost (.advance span) .count
  | .wait d, s => do
    let span ← d.eval s
    driveHost (.advance span) fun _ => .null
  | .inspect, _ => do
    let session ← session
    let o ← observe
    return .list [if session.attached then .text o.text else .null, .text o.host.text]
  | .start p, s => attachedOr (startProgram p s)
  | .tell i e, s => withProgram i fun p type => do
    let v ← e.eval s
    let v ← Act.ofExcept (v.coerce type)
    let view : Option ProgramView ← Code.ask (.program p)
    match view with
    | none => return nothing
    | some view =>
      Code.ask (.send view.pid v)
      return .null
  | .pid i, _ => withView i fun view => .count view.pid.number
  | .updates i, _ => withView i fun view => .count view.updates
  | .model i, _ => withProgram i fun p _ => do
    let model : Option V ← Code.ask (.model p)
    return (model.map fun v => .record [("model", v.written)]).getD nothing
  | .manager i home, _ => withView i fun view =>
    ((view.manager ⟨home⟩).map fun p => .count p.number).getD .null

/-- Does what statements say, one after another. -/
def Stmt.performAll : List Stmt → Scope → Eval Unit
  | [], _ => .ret ()
  | t :: ts, s => do
    let _ ← t.perform s
    Stmt.performAll ts s

end

mutual

/-- The effect tree that a phrase describes, for messages of a given type. -/
def TreeExpr.build : TreeExpr → ValueType → Scope → Eval Tree
  | .none, _, _ => .ret EffectTree.none
  | .leaf home e, _, s => do
    let v ← e.eval s
    return .leaf ⟨home⟩ v
  | .batch bs, m, s => do
    let bs ← TreeExpr.buildAll bs m s
    return .node bs
  | .each l x b, m, s => do
    let vs ← asList (l.eval s)
    let bs ← Act.traverse (fun v => b.build m (s.bind x v)) vs
    return .node bs
  | .map source x e b, m, s => do
    let b ← b.build source s
    return .map (.typed source (.mk (.value x e (some m)) s)) b
  | .mapRaw x e b, m, s => do
    let b ← b.build m s
    return .map (.raw (.mk (.value x e Option.none) s)) b
  | .rep n x e b, m, s => do
    let b ← b.build m s
    return n.repeat (EffectTree.map (.typed m (.mk (.value x e (some m)) s))) b
  | .cond c a b, m, s => do
    let t ← asBool (c.eval s)
    if t then a.build m s else b.build m s
  | .perform t x e, m, s => do
    let t ← t.build s
    return .ofTask (t.perform (.mk (.value x e (some m)) s))
  | .attempt t x e, m, s => do
    let t ← t.build s
    return .ofTask (t.attempt (.mk (.value x e (some m)) s))

/-- The effect trees that phrases describe, from left to right. -/
def TreeExpr.buildAll : List TreeExpr → ValueType → Scope → Eval (List Tree)
  | [], _, _ => .ret []
  | b :: bs, m, s => do
    let b ← b.build m s
    let bs ← TreeExpr.buildAll bs m s
    return b :: bs

end

end Actors.Script
