/-
Values and tasks.

A `Value` is what flows between processes: results, errors, messages, states of managers. A `Task`
describes work without doing it. The two are defined together because a command, which is a value,
holds a task. Functions do not occur in either: code supplied by the user is named by a code of
type `κ`, and the few functions that the library itself puts into tasks are constructors of
`Callback` and `Binding`. What a code means is said elsewhere, by a `Behaviour`.

* `Value.type`, `Value.text` — the type of a value and its written text;
* `Task.text` — the written text of a task, which shows constructors but no code;
* `Value.image` — a value with the tasks inside it replaced by their text.
-/
import Actors.Fault
import Actors.Text.Quoted

namespace Actors

/-- One function of a chain that turns values into messages. A typed one first converts. -/
inductive Tagger (κ : Type) where
  | raw (c : κ)
  | typed (source : ValueType) (c : κ)

/-- An effect manager: the built-in one for tasks, or one defined by user code. -/
inductive Hooks (κ : Type) where
  | tasks
  | custom (c : κ)

/-- A manager together with the addresses it was started with. -/
structure Post (κ : Type) where
  hooks : Hooks κ
  router : Router

/-- The position of a program in the list of started programs. -/
abbrev ProgramId := Nat

mutual

/-- A value of any type. -/
inductive Value (κ : Type) where
  | unit
  | bool (b : Bool)
  | int (n : Int64)
  | word (n : UInt32)
  | string (s : String)
  | pid (p : Pid)
  | list (vs : List (Value κ))
  | ok (v : Value κ)
  | err (v : Value κ)
  | message (v : Value κ)
  | internal (v : Value κ)
  | effects (cmds subs : List (Value κ))
  | tagged (v : Value κ) (chain : List (Tagger κ))
  | command (t : Task κ)
  | shown (text : String)

/-- A description of work. A process consumes it one constructor at a time. -/
inductive Task (κ : Type) where
  | succeed (v : Value κ)
  | fail (v : Value κ)
  | native (b : Binding κ)
  | andThen (t : Task κ) (c : Callback κ)
  | onError (t : Task κ) (c : Callback κ)
  | receive (c : Callback κ)

/-- What a task goes on with once a value is there. -/
inductive Callback (κ : Type) where
  /-- User code that returns the next task. -/
  | code (c : κ)
  /-- Succeeds with the value that user code returns. -/
  | map (c : κ)
  /-- Fails with the value that user code returns. -/
  | mapError (c : κ)
  /-- Adds the value to those collected and goes on with the remaining tasks. -/
  | collect (rest : List (Task κ)) (done : List (Value κ))
  /-- Succeeds with a fixed value. -/
  | replace (v : Value κ)
  /-- Succeeds with the value as a good result. -/
  | asOk
  /-- Succeeds with the value as a bad result. -/
  | asErr
  /-- Expects a result and succeeds with what user code makes of it. -/
  | attempted (c : κ)
  /-- Succeeds with the value after a chain of taggers. -/
  | tag (chain : List (Tagger κ))
  /-- Sends the value to a process. -/
  | deliver (p : Pid)
  /-- A manager has its first state. -/
  | managerReady (m : Post κ)
  /-- A manager gets a message. -/
  | managerTurn (m : Post κ) (state : Value κ)
  /-- A manager's handler has failed. -/
  | managerFailed (m : Post κ)
  /-- A manager's handler has succeeded with the next state. -/
  | managerNext (m : Post κ)
  /-- A program gets a message. -/
  | programTurn (p : ProgramId)
  /-- A program has finished an update cycle. -/
  | programNext (p : ProgramId)

/-- Work that is done when a process reaches it, and may complete later. -/
inductive Binding (κ : Type) where
  /-- User code that is handed the means to complete. -/
  | code (c : κ)
  | spawn (t : Task κ)
  | kill (p : Pid)
  | send (p : Pid) (v : Value κ)
  | this
  | sleep (span : Nat)
  /-- One update cycle of a program. -/
  | update (p : ProgramId) (v : Value κ)

end

variable {κ : Type}

/-- The type of a value. A value that is only a text has none. -/
def Value.type : Value κ → Option ValueType
  | .unit => some .unit
  | .bool _ => some .bool
  | .int _ => some .int
  | .word _ => some .word
  | .string _ => some .string
  | .pid _ => some .pid
  | .list _ => some .list
  | .ok _ => some .result
  | .err _ => some .result
  | .message _ => some .message
  | .internal _ => some .managerMessage
  | .effects .. => some .managerMessage
  | .tagged .. => some .tagged
  | .command _ => some .command
  | .shown _ => none

/-- Whether a value is of a given type. -/
def Value.hasType (v : Value κ) (t : ValueType) : Bool :=
  v.type == some t

mutual

/-- The text of a value. -/
def Value.text : Value κ → String
  | .unit => "()"
  | .bool b => if b then "true" else "false"
  | .int n => toString n.toInt
  | .word n => toString n.toNat
  | .string s => Text.quote s
  | .pid p => p.text
  | .list vs => "[" ++ Value.listText vs ++ "]"
  | .ok v => "Ok(" ++ v.text ++ ")"
  | .err v => "Err(" ++ v.text ++ ")"
  | .message v => "Msg(" ++ v.text ++ ")"
  | .internal v => "Internal(" ++ v.text ++ ")"
  | .effects cmds subs =>
    "Effects(Effects \x7b cmds: [" ++ Value.listText cmds ++ "], subs: [" ++
      Value.listText subs ++ "] \x7d)"
  | .tagged v chain =>
    "Tagged(" ++ v.text ++ ", Taggers \x7b len: " ++ toString chain.length ++ " \x7d)"
  | .command t => "Command(" ++ t.text ++ ")"
  | .shown s => s

/-- The texts of values with commas between them. -/
def Value.listText : List (Value κ) → String
  | [] => ""
  | [v] => v.text
  | v :: vs => v.text ++ ", " ++ Value.listText vs

/-- The text of a task: constructors and values, but no code. -/
def Task.text : Task κ → String
  | .succeed v => "Succeed(" ++ v.text ++ ")"
  | .fail v => "Fail(" ++ v.text ++ ")"
  | .native _ => "Native(..)"
  | .andThen t _ => "AndThen(" ++ t.text ++ ", ..)"
  | .onError t _ => "OnError(" ++ t.text ++ ", ..)"
  | .receive _ => "Receive(..)"

end

mutual

/-- The value as it is kept outside of the processes: the same, with commands as mere text. -/
def Value.image : Value κ → Value κ
  | .list vs => .list (Value.images vs)
  | .ok v => .ok v.image
  | .err v => .err v.image
  | .message v => .message v.image
  | .internal v => .internal v.image
  | .effects cmds subs => .effects (Value.images cmds) (Value.images subs)
  | .tagged v chain => .tagged v.image chain
  | .command t => .shown ("Command(" ++ t.text ++ ")")
  | .unit => .unit
  | .bool b => .bool b
  | .int n => .int n
  | .word n => .word n
  | .string s => .string s
  | .pid p => .pid p
  | .shown s => .shown s

/-- The images of several values. -/
def Value.images : List (Value κ) → List (Value κ)
  | [] => []
  | v :: vs => v.image :: Value.images vs

end

namespace Value

/-- The refusal of a value that is not of the type asked for. -/
def refusal (t : ValueType) (v : Value κ) : Fault :=
  .wrongType t v.text

/-- The number in an integer value. -/
def toInt : Value κ → Except Fault Int64
  | .int n => .ok n
  | v => .error (v.refusal .int)

/-- The truth value in a value. -/
def toBool : Value κ → Except Fault Bool
  | .bool b => .ok b
  | v => .error (v.refusal .bool)

/-- The string in a text value. -/
def toText : Value κ → Except Fault String
  | .string s => .ok s
  | v => .error (v.refusal .string)

/-- The process name in a value. -/
def toPid : Value κ → Except Fault Pid
  | .pid p => .ok p
  | v => .error (v.refusal .pid)

/-- The elements of a list value. -/
def toList : Value κ → Except Fault (List (Value κ))
  | .list vs => .ok vs
  | v => .error (v.refusal .list)

/-- The two cases of a result value. -/
def toResult : Value κ → Except Fault (Except (Value κ) (Value κ))
  | .ok v => .ok (.ok v)
  | .err v => .ok (.error v)
  | v => .error (v.refusal .result)

/-- The parts of a tagged value. -/
def toTagged : Value κ → Except Fault (Value κ × List (Tagger κ))
  | .tagged v chain => .ok (v, chain)
  | v => .error (v.refusal .tagged)

/-- The task in a command. -/
def toCommand : Value κ → Except Fault (Task κ)
  | .command t => .ok t
  | v => .error (v.refusal .command)

/-- A value that has to be of a given type. -/
def coerce (t : ValueType) (v : Value κ) : Except Fault (Value κ) :=
  if v.hasType t then .ok v else .error (v.refusal t)

end Value

end Actors
