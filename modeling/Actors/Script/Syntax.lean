/-
The scripting language.

A script describes values, tasks, effect trees, managers and programs, and says what to do with a
runtime from outside. There are four kinds of phrase: expressions make values, task expressions
build tasks, statements act at once, and bag expressions build effect trees. A phrase that stands
under a variable waits until the variable has a value.
-/
import Actors.Behaviour
import Actors.Written

namespace Actors.Script

/-- The four ways to wrap one value in another. -/
inductive Wrapper where
  | ok
  | err
  | message
  | internal

/-- Arithmetic on integers, modulo two to the power of 64. -/
inductive Arith where
  | add
  | sub
  | mul

/-- Phrases that make values. -/
inductive Expr where
  | null
  | bool (b : Bool)
  | int (n : Int64)
  | string (s : String)
  | var (name : String)
  | global (name : String)
  | counter (name : String)
  | list (es : List Expr)
  | pid (n : Nat)
  | word (n : UInt32)
  | wrap (w : Wrapper) (e : Expr)
  | effects (cmds subs : Expr)
  | arith (op : Arith) (a b : Expr)
  | less (a b : Expr)
  | same (a b : Expr)
  | not (e : Expr)
  | cond (c a b : Expr)
  | concat (a b : Expr)
  | display (e : Expr)
  | length (e : Expr)
  | nth (e : Expr) (n : Nat)
  | push (a b : Expr)
  | join (a b : Expr)
  /-- Whether the list, which is evaluated last, has the element. -/
  | has (l e : Expr)
  | unique (e : Expr)
  | mapList (l : Expr) (x : String) (e : Expr)
  | filterList (l : Expr) (x : String) (e : Expr)
  /-- Writes a label to the log, as it stands, before the value is made. -/
  | noted (label : Written) (e : Expr)
  | cast (t : ValueType) (e : Expr)
  | isType (t : ValueType) (e : Expr)
  | tryCast (t : ValueType) (e : Expr)
  | increase (a b : Expr)
  | renew (e : Expr)
  | tag (e : Expr)
  | tagged (e : Expr)
  | chainLength
  | chainEmpty
  | untag (a b : Expr)
  | taggedValue (e : Expr)
  | app
  | self
  | router
  | alive (e : Expr)
  | processes
  | now

/-- Phrases for spans of time. -/
inductive SpanExpr where
  | fixed (span : Nat)
  | millis (e : Expr)

mutual

/-- Phrases that build tasks. -/
inductive TaskExpr where
  | succeed (e : Expr)
  | fail (e : Expr)
  | result (e : Expr)
  | wrap (t : TaskExpr) (w : TaskWrap)
  | receive (x : String) (t : TaskExpr)
  | sequence (ts : List TaskExpr)
  | each (l : Expr) (x : String) (t : TaskExpr)
  | native (slot : String) (work : List Stmt) (cancel : Option (List Stmt))
  | kill (e : Expr)
  | send (a b : Expr)
  | this
  | sleep (d : SpanExpr)
  | toApp (e : Expr)
  | toSelf (e : Expr)
  | cond (c : Expr) (t u : TaskExpr)
  | bind (x : String) (e : Expr) (t : TaskExpr)
  | act (ss : List Stmt) (t : TaskExpr)
  | call (name : String) (es : List Expr)
  /-- One wrapping put on several times. -/
  | rep (n : Nat) (t : TaskExpr) (w : TaskWrap)

/-- What can be put around a task. -/
inductive TaskWrap where
  | andThen (x : String) (t : TaskExpr)
  | onError (x : String) (t : TaskExpr)
  | map (x : String) (e : Expr)
  | mapError (x : String) (e : Expr)
  | spawn

/-- Phrases that act at once. -/
inductive Stmt where
  | log (e : Expr)
  | count (name : String)
  | assign (name : String) (e : Expr)
  | when (e : Expr) (ss : List Stmt)
  | spawn (t : TaskExpr) (name : Option String)
  /-- Starts a process whose outcome is written to the log. -/
  | watch (t : TaskExpr) (name : Option String)
  | spawnWith (t : TaskExpr) (name : Option String)
  | send (a b : Expr)
  | kill (e : Expr)
  | alive (e : Expr)
  | dropRuntime
  | complete (slot : String) (t : TaskExpr)
  | succeed (slot : String) (e : Expr)
  | fail (slot : String) (e : Expr)
  | forget (slot : String)
  | peek (slot : String)
  | defer (ss : List Stmt)
  | delay (d : SpanExpr) (ss : List Stmt) (name : String)
  | cancel (name : String)
  | runOne
  | run (n : Nat)
  | idle
  | advance (d : SpanExpr)
  /-- Advances, and does not tell how many timers fired. -/
  | wait (d : SpanExpr)
  | inspect
  | start (p : ProgramExpr)
  | tell (i : Nat) (e : Expr)
  | pid (i : Nat)
  | updates (i : Nat)
  | model (i : Nat)
  | manager (i : Nat) (home : String)

/-- Phrases that build effect trees. -/
inductive TreeExpr where
  | none
  | leaf (home : String) (e : Expr)
  | batch (bs : List TreeExpr)
  | each (l : Expr) (x : String) (b : TreeExpr)
  | map (source : ValueType) (x : String) (e : Expr) (b : TreeExpr)
  | mapRaw (x : String) (e : Expr) (b : TreeExpr)
  | rep (n : Nat) (x : String) (e : Expr) (b : TreeExpr)
  | cond (c : Expr) (a b : TreeExpr)
  | perform (t : TaskExpr) (x : String) (e : Expr)
  | attempt (t : TaskExpr) (x : String) (e : Expr)

/-- What a program does in one of its cycles: statements, then the model, then the commands. -/
inductive CycleExpr where
  | mk (work : List Stmt) (model : Expr) (cmds : TreeExpr)

/-- A manager of a program. Handlers that are left out keep the state; maps that are left out
apply the taggers. -/
inductive ManagerExpr where
  | tasks
  | custom (home : String) (kind : ManagerKind) (state : ValueType) (init : TaskExpr)
      (onEffects onMessage : Option TaskExpr) (mapCommand mapSubscription : Option Expr)

/-- A program. -/
inductive ProgramExpr where
  | mk (type : ValueType) (managers : List ManagerExpr) (init update : CycleExpr)
      (subsWork : List Stmt) (subs : TreeExpr) (render : List Stmt)

end

/-- Named tasks with parameters, which are all that such a task can see of the variables. -/
structure Def where
  name : String
  params : List String
  body : TaskExpr

end Actors.Script
