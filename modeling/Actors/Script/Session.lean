/-
The state of a script.

A piece of script that waits for its turn is a `Closure`: the phrase together with the variables,
the router and the chain of taggers that were in scope where it stands. Closures are the codes that
a script puts into tasks. What a script keeps outside of the processes is a `Session`.
-/
import Actors.Script.Syntax
import Actors.Written

namespace Actors.Script

/-- What a phrase can see, for closures of type `κ`. -/
structure ScopeOf (κ : Type) where
  vars : List (String × Value κ)
  router : Option Router
  chain : List (Tagger κ)

/-- A phrase that waits. -/
inductive Body where
  /-- Builds a task from the value of a variable. -/
  | task (x : String) (t : TaskExpr)
  /-- Makes a value from the value of a variable, of a given type if there is one. -/
  | value (x : String) (e : Expr) (type : Option ValueType)
  | native (slot : String) (work : List Stmt) (cancel : Option (List Stmt))
  | thunk (ss : List Stmt)
  /-- Builds a task. -/
  | plain (t : TaskExpr)
  | manager (m : ManagerExpr)
  | program (p : ProgramExpr)

/-- A phrase with its scope. -/
inductive Closure where
  | mk (body : Body) (scope : ScopeOf Closure)

/-- What a phrase can see. -/
abbrev Scope := ScopeOf Closure

abbrev V := Value Closure
abbrev T := Task Closure
abbrev Tree := EffectTree Closure

namespace Scope

/-- Nothing in sight. -/
def empty : Scope := ⟨[], none, []⟩

/-- A further variable, which hides an older one of the same name. It keeps the image of the
value. -/
def bind (s : Scope) (x : String) (v : V) : Scope :=
  { s with vars := (x, v.image) :: s.vars }

/-- Several further variables. -/
def bindAll (s : Scope) (vs : List (String × V)) : Scope :=
  vs.foldl (fun s v => s.bind v.1 v.2) s

/-- The value of a variable. -/
def lookup (s : Scope) (x : String) : V :=
  (s.vars.lookup x).getD .unit

end Scope

/-- A result that is not plain data, kept from one part of an inquiry to the next. -/
inductive Answer where
  | written (w : Written)
  | trees (cmds subs : Tree)

/-- What a script keeps. -/
structure Session where
  defs : List Def
  /-- The log, its latest entry first. -/
  log : List Written
  counters : List (String × Nat)
  globals : List (String × V)
  /-- Tickets that have been put aside. -/
  slots : List (String × Ticket)
  /-- Timers that can be unset. -/
  timers : List (String × TimerKey)
  /-- The programs started, each with the type of its messages. -/
  programs : List (ProgramId × ValueType)
  /-- Whether the script still has its own reference to the runtime. -/
  attached : Bool
  answer : Answer

namespace Session

def new (defs : List Def) : Session where
  defs := defs
  log := []
  counters := []
  globals := []
  slots := []
  timers := []
  programs := []
  attached := true
  answer := .written .null

/-- Replaces the value under a name, or adds it. -/
def put {α : Type} (name : String) (a : α) : List (String × α) → List (String × α)
  | [] => [(name, a)]
  | e :: es => if e.1 = name then (name, a) :: es else e :: put name a es

/-- Removes what stands under a name. -/
def remove {α : Type} (name : String) (es : List (String × α)) : List (String × α) :=
  es.filter fun e => e.1 ≠ name

/-- Adds an entry to the log. -/
def note (s : Session) (w : Written) : Session :=
  { s with log := w :: s.log }

/-- Adds one to a counter. -/
def count (s : Session) (name : String) : Session :=
  { s with counters := put name ((s.counters.lookup name).getD 0 + 1) s.counters }

end Session

end Actors.Script
