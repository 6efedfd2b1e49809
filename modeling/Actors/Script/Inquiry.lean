/-
Inquiries.

An inquiry is a question about the library that has a written answer: run a script and tell what
every statement did, evaluate an expression, build a task, register managers, share out effects, and
so on.

* `Inquiry.begin` — the job that answers an inquiry;
* `scriptJob`, `timedJob` — the statements of a script, one after another.
-/
import Actors.Script.Job

namespace Actors.Script

/-- A tagger: with the types it takes and gives, or without. -/
inductive TaggerExpr where
  | typed (source target : ValueType) (x : String) (e : Expr)
  | raw (x : String) (e : Expr)

/-- What can be asked. -/
inductive Inquiry where
  /-- Runs statements and tells about each of them. -/
  | script (budget : Option Nat) (traced : Bool) (defs : List Def) (ops : List Stmt)
  /-- The same on a host that runs by itself while the script waits; less is told, and a statement
  that ends in a fault is the whole answer. -/
  | timed (budget : Option Nat) (defs : List Def) (ops : List Stmt)
  | expr (e : Expr)
  | task (t : TaskExpr)
  | taggers (chain : List TaggerExpr) (forks : List (List TaggerExpr)) (value : Expr)
  | table (managers : List ManagerExpr) (probe : List String)
  | shares (type : ValueType) (managers : List ManagerExpr) (cmds subs : TreeExpr)
  | handedBack (group : FaultGroup) (text : String)
  | raised (group : FaultGroup) (text : String)
  | config (budget : Option Nat) (verbose veryVerbose : Option Bool)
  | home (name : String)
  | texts

/-- What the session says the answer is. -/
def writtenAnswer (m : Runner) : Written :=
  match m.world.user.answer with
  | .written w => w
  | .trees .. => .null

/-- The log, its oldest entry first. -/
def logOf (m : Runner) : Written :=
  .list m.world.user.log.reverse

/-- The settings for a step budget. -/
def configFor (budget : Option Nat) : Config :=
  { Config.standard with budget := (budget.map Budget.ofNat).getD .standard }

/-- The world at the beginning of an inquiry. -/
def setting (budget : Option Nat) (defs : List Def) : Setting :=
  .new (configFor budget) (.new defs)

/-- An entry of the journal. -/
def entryWritten (e : Entry Closure) : Written :=
  .list [.text e.event.level.text, (e.span.map fun s => .text s.text).getD .null,
    .text e.event.text, .record (e.event.fields.map fun f => (f.1, .text f.2))]

/-- What is told about every statement: the log, the counters, and the processes that are alive. -/
def commonFields (m : Runner) : List (String × Written) :=
  let w := m.world
  [("log", logOf m), ("ctr", .record (w.user.counters.map fun c => (c.1, .count c.2))),
   ("procs",
     if w.user.attached then .list (w.processes.map fun p => .count p.number) else .null)]

/-- What is told about the host, and about the pump. -/
def hostFields (m : Runner) : List (String × Written) :=
  let w := m.world
  [("idle", if w.user.attached then .bool w.isIdle else .null),
   ("host", .list [.count w.host.ticks.length, .count w.host.timers.length,
      .text (toString w.host.now)])]

/-- The journal since a number of entries. -/
def traceFields (before : Nat) (m : Runner) : List (String × Written) :=
  let journal := m.world.journal
  [("trace", .list ((journal.take (journal.length - before)).reverse.map entryWritten))]

/-- What is told about a statement: its result or the fault it ended in, what is common, the host,
and, if asked for, the journal since the step before. -/
def stepReport (traced : Bool) (before : Nat) (m : Runner) : Written :=
  let result := match m.fault with
    | some f => f.raisedFields
    | none => [("r", writtenAnswer m)]
  .record (result ++ commonFields m ++ hostFields m ++
    if traced then traceFields before m else [])

/-- Runs statements one after another, up to the first that ends in a fault. -/
def scriptJob (traced : Bool) : List Stmt → Nat → List Written → Setting → Job
  | [], _, reports, _ => .done (.record [("steps", .list reports.reverse)])
  | t :: ts, before, reports, w =>
    .writing .never { w with user := { w.user with log := [] } } (t.perform .empty) fun m =>
      let reports := stepReport traced before m :: reports
      match m.fault with
      | some _ => .done (.record [("steps", .list reports.reverse)])
      | none => scriptJob traced ts m.world.journal.length reports m.world

/-- Runs statements one after another on a host that runs by itself. -/
def timedJob : List Stmt → List Written → Setting → Job
  | [], reports, _ => .done (.record [("steps", .list reports.reverse)])
  | t :: ts, reports, w =>
    .writing .ofHost { w with user := { w.user with log := [] } } (t.perform .empty) fun m =>
      match m.fault with
      | some f => .done (.record f.raisedFields)
      | none =>
        timedJob ts (.record (("r", writtenAnswer m) :: commonFields m) :: reports) m.world

/-- The fault that a machine ended in, or else what is told about its end. -/
def orFault (m : Runner) (w : Written) : Written :=
  match m.fault with
  | some f => .record f.raisedFields
  | none => w

/-- A tagger in no scope. -/
def TaggerExpr.tagger : TaggerExpr → Tagger Closure
  | .typed source target x e => .typed source (.mk (.value x e (some target)) Scope.empty)
  | .raw x e => .raw (.mk (.value x e none) Scope.empty)

/-- Applies each of several chains to a value, each with a log of its own. -/
def chainsJob (value : Expr) :
    List (List (Tagger Closure)) → List Written → Setting → Job
  | [], reports, _ => .done (.record [("chains", .list reports.reverse)])
  | chain :: chains, reports, w =>
    .writing .never { w with user := { w.user with log := [] } }
      ((value.eval Scope.empty).bind fun v => (Tagger.applyAll chain v).map Value.written)
      fun m =>
        let report : Written := .record
          [("len", .count chain.length), ("empty", .bool chain.isEmpty),
           ("debug", .text ("Taggers \x7b len: " ++ toString chain.length ++ " \x7d")),
           ("value", orFault m (writtenAnswer m)), ("log", logOf m)]
        chainsJob value chains (report :: reports) m.world

/-- The kind of a manager of a script. -/
def kindOf (m : Hooks Closure) : ManagerKind :=
  (m.manager meaning).kind

/-- What is told about a registry. -/
def registryWritten (probe : List String) (r : Registry Closure) : Written :=
  .record [("len", .count r.entries.length), ("empty", .bool r.entries.isEmpty),
    ("homes", .list (r.homes.map fun h => .text h.text)), ("debug", .text (r.text kindOf)),
    ("probe", .list (probe.map fun name => .list
      [.bool (r.contains ⟨name⟩),
       ((r.kind? meaning ⟨name⟩).map fun kind => .text kind.text).getD .null]))]

/-- Registers managers one after another, and tells about each. -/
def registrations (probe : List String) :
    List ManagerExpr → Registry Closure → List Written
  | [], _ => []
  | m :: ms, r =>
    let e := m.entry Scope.empty
    let answer : Written :=
      match r.register e.1 e.2 with
      | .ok _ => .null
      | .error f => f.written
    .record [("r", answer), ("table", registryWritten probe (r.call e))] ::
      registrations probe ms (r.call e)

/-- Registers managers up to the first that is refused. -/
def registerAll : List ManagerExpr → Registry Closure → Except Fault (Registry Closure)
  | [], r => .ok r
  | m :: ms, r =>
    let (home, hooks) := m.entry Scope.empty
    match r.register home hooks with
    | .ok r => registerAll ms r
    | .error f => .error f

/-- What is told about an effect tree. -/
def treeWritten (name : String) (b : Tree) : Written :=
  .record [("debug", .text (name ++ "(" ++ b.text ++ ")")), ("bag", .text b.text),
    ("leaves", .count b.leaves)]

/-- Share by home, homes in ascending order. -/
def sharesWritten (g : Shares Closure) : Written :=
  let sorted := g.mergeSort fun a b => !decide (b.1.name < a.1.name)
  .list (sorted.map fun e => .record
    [("home", .text e.1.name), ("empty", .bool e.2.isEmpty), ("debug", .text e.2.text),
     ("cmds", .list (Value.writtenAll e.2.cmds)), ("subs", .list (Value.writtenAll e.2.subs))])

/-- Builds two effect trees and shares them out. -/
def sharesJob (type : ValueType) (r : Registry Closure) (cmds subs : TreeExpr) : Job :=
  .code .never (setting none [])
    (Procedure.ofCode do
      let c ← cmds.build type Scope.empty
      let s ← subs.build type Scope.empty
      return .trees c s)
    fun m =>
      match m.fault, m.world.user.answer with
      | none, .trees c s =>
        .code .never m.world ((Shares.ofCycle meaning r c s).map fun g => .written (sharesWritten g)) fun m =>
          .done (.record [("bags", .list [treeWritten "Cmd" c, treeWritten "Sub" s]),
            ("out", orFault m (writtenAnswer m)), ("log", logOf m)])
      | _, _ => .done (orFault m .null)

/-- What is told about settings. -/
def configWritten (c : Config) : Written :=
  .record [("debug", .text c.text), ("level", .text c.level.text), ("budget", .count c.budget.val)]

/-- The texts of things whose text never changes, and of some that are still empty. -/
def plainTexts : Written :=
  let w : Setting := setting none []
  .list ([ "Cancel(..)", "Callback(..)", "Binding(..)", "Tagger(..)", "Taggers \x7b len: 0 \x7d",
    "TokioHost", "TaskManager", Home.tasks.text, w.snapshot.text,
    (Share.none : Share Closure).text, w.host.view.text, w.config.text,
    ManagerKind.both.text ].map .text)

/-- The job that answers an inquiry. -/
def Inquiry.begin : Inquiry → Job
  | script budget traced defs ops => scriptJob traced ops 0 [] (setting budget defs)
  | timed budget defs ops => timedJob ops [] (setting budget defs)
  | expr e =>
    .writing .never (setting none [])
      ((e.eval Scope.empty).map fun v => .record [("value", v.written), ("text", .text v.text)])
      fun m => .done (orFault m (match writtenAnswer m with
        | .record fields => .record (fields ++ [("log", logOf m)])
        | w => w))
  | task t =>
    .writing .never (setting none [])
      ((t.build Scope.empty).map fun t => .record
        [("debug", .text t.text), ("succeed", .bool t.isSucceed), ("fail", .bool t.isFail)])
      fun m => .done (orFault m (writtenAnswer m))
  | taggers chain forks value =>
    let base := (chain.map TaggerExpr.tagger).reverse
    let branches := forks.map fun fork => (fork.map TaggerExpr.tagger).reverse ++ base
    chainsJob value (base :: branches) [] (setting none [])
  | table managers probe =>
    .done (.record [("first", registryWritten probe .empty),
      ("steps", .list (registrations probe managers .empty))])
  | shares type managers cmds subs =>
    match registerAll managers .empty with
    | .ok r => sharesJob type r cmds subs
    | .error f => .done f.written
  | handedBack group text => .done (Fault.reported group text).written
  | raised group text => .done (.record (Fault.reported group text).raisedFields)
  | config budget verbose veryVerbose =>
    let c := configFor budget
    .done (configWritten { c with
      verbose := verbose.getD c.verbose,
      veryVerbose := veryVerbose.getD c.veryVerbose })
  | home name =>
    .done (.record [("display", .text (Home.mk name).text), ("debug", .text (Home.mk name).text),
      ("name", .text name)])
  | texts => .done plainTexts

end Actors.Script
