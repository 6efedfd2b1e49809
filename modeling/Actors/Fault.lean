/-
Contract violations.

A task that fails carries its error as an ordinary value and never appears here. A `Fault` is a
breach of contract by the code that uses the runtime: it stops everything that is under way.
Registration hands the same kind of record back as a value instead of stopping.

* `Fault.group` — which of the three groups a fault belongs to;
* `Fault.text` — its wording, and `Fault.message`, the wording with its group in front.
-/
import Actors.Address

namespace Actors

/-- The three groups of contract violation. -/
inductive FaultGroup where
  | badArgument
  | capacity
  | invariant
deriving DecidableEq

namespace FaultGroup

/-- The group's name inside a message. -/
def label : FaultGroup → String
  | badArgument => "badarg"
  | capacity => "syscap"
  | invariant => "sysinv"

/-- The group's short name. -/
def name : FaultGroup → String
  | badArgument => "BadArg"
  | capacity => "SysCap"
  | invariant => "SysInv"

/-- The group's description. -/
def description : FaultGroup → String
  | badArgument => "(BadArg) errors were found with the given argument(s)"
  | capacity => "(SysCap) a system limit has been reached"
  | invariant => "(SysInv) a system invariant has been broken"

end FaultGroup

/-- Which half of an update cycle's effects a value belongs to. -/
inductive Family where
  | command
  | subscription
deriving DecidableEq

/-- The set of families that a manager accepts, as eight flags of which two have a meaning. -/
structure ManagerKind where
  bits : UInt8
deriving DecidableEq

namespace ManagerKind

/-- The kind that holds exactly one family. -/
def only : Family → ManagerKind
  | .command => ⟨1⟩
  | .subscription => ⟨2⟩

/-- Whether a family is among those accepted. -/
def accepts (k : ManagerKind) (f : Family) : Bool :=
  k.bits &&& (only f).bits == (only f).bits

/-- Both families. -/
def both : ManagerKind := ⟨3⟩

theorem accepts_only {f g : Family} : (only f).accepts g = true ↔ f = g := by
  cases f <;> cases g <;> decide

theorem accepts_both (f : Family) : both.accepts f = true := by
  cases f <;> decide

/-- The flags by name, joined by bars; flags without a meaning follow as one number in base
sixteen, and the empty set is written as zero. -/
def flagNames (k : ManagerKind) : List String :=
  (if k.accepts .command then ["CMD"] else []) ++
  (if k.accepts .subscription then ["SUB"] else []) ++
  (if k.bits &&& 0xfc = 0 then [] else ["0x" ++ String.ofList (Nat.toDigits 16 (k.bits &&& 0xfc).toNat)])

def text (k : ManagerKind) : String :=
  let names := k.flagNames
  "ManagerKind(" ++ (if names.isEmpty then "0x0" else " | ".intercalate names) ++ ")"

end ManagerKind

/-- What went against the contract. A value that was found is kept as its written text. -/
inductive Fault where
  | wrongType (expected : ValueType) (found : String)
  | strangeProgramMessage (found : String)
  | strangeManagerMessage (router : Router) (found : String)
  | modelMissing
  | modelInUse
  | unregistered (home : Home)
  | refused (home : Home) (family : Family)
  | alreadyRegistered (home : Home)
  | notAwaiting (binding : Nat)
  | pidsExhausted
  | duplicatePid (pid : Pid)
  | reported (group : FaultGroup) (text : String)
deriving DecidableEq

namespace Fault

/-- The group of a fault. -/
def group : Fault → FaultGroup
  | wrongType .. => .badArgument
  | strangeProgramMessage _ => .badArgument
  | strangeManagerMessage .. => .invariant
  | modelMissing => .invariant
  | modelInUse => .invariant
  | unregistered _ => .invariant
  | refused .. => .invariant
  | alreadyRegistered _ => .badArgument
  | notAwaiting _ => .invariant
  | pidsExhausted => .capacity
  | duplicatePid _ => .invariant
  | reported g _ => g

/-- The wording of a fault. -/
def text : Fault → String
  | wrongType expected found => "expected `" ++ expected.fullName ++ "`, found " ++ found
  | strangeProgramMessage found => "unexpected program message " ++ found
  | strangeManagerMessage router found => router.text ++ " got foreign message " ++ found
  | modelMissing => "model missing"
  | modelInUse => "model accessed during update"
  | unregistered home => "effect for unregistered manager " ++ home.text
  | refused home family =>
    "manager " ++ home.text ++ " does not accept " ++ (ManagerKind.only family).text
  | alreadyRegistered home => "manager " ++ home.text ++ " already registered"
  | notAwaiting binding => "binding " ++ toString binding ++ " resumed while not awaiting"
  | pidsExhausted => "pid space exhausted"
  | duplicatePid pid => "duplicate pid " ++ pid.text
  | reported _ text => text

/-- Every fault is of this class. -/
def className : String := "error"

/-- The class, the group's label and the wording, in one line. -/
def message (f : Fault) : String :=
  className ++ ":" ++ f.group.label ++ " - " ++ f.text

end Fault

end Actors
