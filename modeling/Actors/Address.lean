/-
Addresses.

Three kinds of name occur in a system of processes: a `Pid` names one process for ever, a
`Home` names an effect manager inside a program, and a `Router` is the pair of addresses that a
manager is given when it is started. `ValueType` names the type that a value is expected to have.
-/

namespace Actors

/-- The name of a process. Numbers are handed out from one upwards and never used again. -/
structure Pid where
  number : Nat
deriving DecidableEq

/-- A process name is written with its number after a fixed node number zero. -/
def Pid.text (p : Pid) : String :=
  "#PID<0." ++ toString p.number ++ ">"

/-- The name under which an effect manager is registered. -/
structure Home where
  name : String
deriving DecidableEq

/-- A home is written with a leading at sign; the name itself is not quoted. -/
def Home.text (h : Home) : String :=
  "@" ++ h.name

/-- The home of the built-in manager that runs tasks as commands. -/
def Home.tasks : Home := ⟨"Task"⟩

/-- The two addresses a manager needs: the main process of its program, and its own process. -/
structure Router where
  app : Pid
  this : Pid
deriving DecidableEq

def Router.text (r : Router) : String :=
  "Router \x7b app: " ++ r.app.text ++ ", this: " ++ r.this.text ++ " \x7d"

/-- The type of a value, as far as a conversion can ask for it. -/
inductive ValueType where
  | unit
  | bool
  | int
  | word
  | string
  | pid
  | list
  | result
  | message
  | managerMessage
  | tagged
  | command
deriving DecidableEq

/-- The full name of a type, as it is written when a conversion is refused. -/
def ValueType.fullName : ValueType → String
  | .unit => "()"
  | .bool => "bool"
  | .int => "i64"
  | .word => "u32"
  | .string => "alloc::string::String"
  | .pid => "errand::core::pid::Pid"
  | .list => "alloc::vec::Vec<errand::core::term::Term>"
  | .result => "core::result::Result<errand::core::term::Term, errand::core::term::Term>"
  | .message => "oracle_driver::Msg"
  | .managerMessage => "errand::effects::manager::ManagerMsg"
  | .tagged => "oracle_driver::Tagged"
  | .command => "errand::effects::task::Command"

end Actors
