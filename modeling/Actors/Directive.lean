/-
The runtime's own code.

A `Procedure` is code of the runtime itself. It enters user code by calls, and beside the requests
of user code it has operations of its own, which are out of the user's reach: it may note events,
use the tickets that the runtime keeps for itself, hand out process names, and take the model of a
program out of its place and put it back.

* `Directive` — the operations, and `Directive.Reply`, their replies;
* `Procedure` — trees over them; `Procedure.ofCode` — user code as one of them.
-/
import Actors.World

namespace Actors

/-- The operations of the runtime's own code. -/
inductive Directive (κ σ : Type) where
  | request (r : Request κ σ)
  /-- Enters user code. -/
  | invoke (c : Call κ)
  | note (e : Event κ)
  /-- Completes a binding with a ticket of the runtime. -/
  | settle (t : Ticket) (task : Task κ)
  /-- Puts the process of a ticket to sleep. -/
  | sleep (span : Nat) (t : Ticket)
  /-- Keeps what calls a binding off, or runs it. -/
  | attach (t : Ticket) (c : κ)
  | reserve
  | install (p : Pid) (label : Option String) (t : Task κ)
  /-- Takes a reference to the runtime for what is under way, and lets it go. -/
  | hold
  | unhold
  /-- Enters and leaves the span of a program. -/
  | enter
  | leave
  | found (d : RunningProgram κ)
  | running (p : ProgramId)
  | takeModel (p : ProgramId)
  | putModel (p : ProgramId) (v : Value κ)
  | countUpdate (p : ProgramId)

/-- What comes back. -/
def Directive.Reply {κ σ : Type} : Directive κ σ → Type
  | .request r => r.Reply
  | .invoke c => c.Result
  | .note _ => Unit
  | .settle .. => Unit
  | .sleep .. => Unit
  | .attach .. => Unit
  | .reserve => Pid
  | .install .. => Unit
  | .hold => Unit
  | .unhold => Unit
  | .enter => Unit
  | .leave => Unit
  | .found _ => ProgramId
  | .running _ => Option (RunningProgram κ)
  | .takeModel _ => Option (Value κ)
  | .putModel .. => Unit
  | .countUpdate _ => Unit

/-- The operations of the runtime's own code, with their replies. -/
def directives (κ σ : Type) : Signature :=
  ⟨Directive κ σ, Directive.Reply⟩

/-- Code of the runtime with a result in `α`. -/
abbrev Procedure (κ σ α : Type) := Act (directives κ σ) α

namespace Procedure

variable {κ σ α β : Type}

/-- User code as part of a procedure. -/
def ofCode : Code κ σ α → Procedure κ σ α
  | .ret a => .ret a
  | .raise f => .raise f
  | .op r k => Act.op (S := directives κ σ) (.request r) fun x => ofCode (k x)

/-- Sequencing is kept when user code becomes part of a procedure. -/
theorem ofCode_bind (x : Code κ σ α) (f : α → Code κ σ β) :
    (ofCode (x.bind f) : Procedure κ σ β) = (ofCode x).bind fun a => ofCode (f a) := by
  induction x with
  | ret a => rfl
  | raise e => rfl
  | op o k ih => simp only [ofCode, Act.bind]; congr 1; funext r; exact ih r

/-- A single directive. -/
def direct (d : Directive κ σ) : Procedure κ σ d.Reply :=
  Act.op (S := directives κ σ) d Act.ret

/-- A single request. -/
def ask (r : Request κ σ) : Procedure κ σ r.Reply :=
  direct (.request r)

/-- A call of user code. -/
def invoke (c : Call κ) : Procedure κ σ c.Result :=
  direct (.invoke c)

/-- Adds an event to the journal. -/
def note (e : Event κ) : Procedure κ σ Unit :=
  direct (.note e)

end Procedure

end Actors
