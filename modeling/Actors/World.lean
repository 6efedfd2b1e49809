/-
The state of a runtime.

A `World` holds the processes, the work queue, the host, the programs that have been started, and
the state that belongs to user code. The functions here are the elementary changes; none of them
runs any code.

A process that can do something stands in the work queue, once. Putting a process into the queue
arms the pump: one tick is deferred to the host, and no further one while that tick waits or runs.
A runtime is reachable as long as somebody holds a reference to it; the user holds some, and a tick
and the start of a program hold one each while they run.

* `World.enqueue`, `World.dequeue` — the work queue;
* `World.send`, `World.spawn`, `World.kill` — what is done to a process from outside;
* `World.issue`, `World.attach`, `World.complete` — the life of a binding;
* `World.exit`, `World.endTick` — the end of a process and of a tick.
-/
import Actors.Effect.Registry
import Actors.Event
import Actors.Process

namespace Actors

/-- Who may use a ticket: user code, or the runtime itself. -/
inductive Holder where
  | user
  | runtime
deriving DecidableEq

/-- A program that has been started. -/
structure RunningProgram (κ : Type) where
  pid : Pid
  /-- The code of the application. -/
  app : κ
  registry : Registry κ
  /-- The process of each manager, in order of registration. -/
  managers : List (Home × Pid)
  /-- The model; it is away while `update` has it. -/
  model : Option (Value κ)
  updates : Nat

/-- The state of a runtime, its host and its user. -/
structure World (κ σ : Type) where
  user : σ
  host : Host κ
  config : Config
  procs : ProcTable κ
  /-- The processes that are to be stepped, in order. -/
  queue : List Pid
  /-- Whether a tick of the runtime waits or runs. -/
  armed : Bool
  /-- The number of ticks run. -/
  ticks : Nat
  /-- The number of references that the user holds to the runtime. -/
  handles : Nat
  /-- The number of references held by what is under way. -/
  holds : Nat
  /-- The tickets that have been issued and not been used, those in timers apart. -/
  tickets : List (Ticket × Holder)
  programs : List (RunningProgram κ)
  /-- How many starts of programs are under way. -/
  entered : Nat
  /-- What has happened, the latest first. -/
  journal : List (Entry κ)

namespace World

variable {κ σ : Type}

/-- A new runtime on a new host, with one reference to it. -/
def new (config : Config) (user : σ) : World κ σ where
  user := user
  host := .empty
  config := config
  procs := .empty
  queue := []
  armed := false
  ticks := 0
  handles := 1
  holds := 0
  tickets := []
  programs := []
  entered := 0
  journal := [⟨none, .created config.budget.val⟩]

/-- Adds an event to the journal. -/
def note (w : World κ σ) (e : Event κ) : World κ σ :=
  let span := match e.span? with
    | some s => some s
    | none => if w.entered = 0 then none else some Span.program
  { w with journal := ⟨span, e⟩ :: w.journal }

/-- Whether the runtime is still there. -/
def reachable (w : World κ σ) : Bool :=
  0 < w.handles + w.holds

/-- The steps that one tick may take. -/
def limit (w : World κ σ) : Nat :=
  w.config.budget.val

/-- Changes a process. -/
def modify (w : World κ σ) (p : Pid) (f : Proc κ → Proc κ) : World κ σ :=
  match w.procs.get? p with
  | some x => { w with procs := w.procs.set p (f x) }
  | none => w

/-- A change of one process leaves the others as they are. -/
theorem get?_modify (w : World κ σ) (p : Pid) (f : Proc κ → Proc κ) (q : Pid) :
    (w.modify p f).procs.get? q = if q = p then (w.procs.get? q).map f else w.procs.get? q := by
  unfold modify
  split
  · next x h =>
    simp only [ProcTable.get?_set _ (ProcTable.number_lt_of_get? h)]
    split <;> simp_all
  · next h => split <;> simp_all

/-- Defers a tick unless one waits or runs. -/
def arm (w : World κ σ) : World κ σ :=
  if w.armed then w else { w with armed := true, host := w.host.defer .pump }

/-- Puts a process into the work queue, unless it stands there or is dead. -/
def enqueue (w : World κ σ) (p : Pid) : World κ σ :=
  match w.procs.get? p with
  | none => w
  | some x =>
    if x.queued || x.isDead then w
    else arm { w with procs := w.procs.set p { x with queued := true }, queue := w.queue ++ [p] }

/-- Takes the first process out of the work queue. -/
def dequeue (w : World κ σ) : Option (Pid × World κ σ) :=
  match w.queue with
  | [] => none
  | p :: ps => some (p, modify { w with queue := ps } p fun x => { x with queued := false })

/-- Puts a message into a mailbox. A message to a process that is not alive is dropped. -/
def send (w : World κ σ) (p : Pid) (v : Value κ) : World κ σ :=
  if w.procs.isAlive p then
    (w.modify p fun x => { x with mailbox := x.mailbox ++ [v] }).enqueue p
  else
    w.note (.dropped p v)

/-- Hands out a process name. -/
def reserve (w : World κ σ) : Except Fault (Pid × World κ σ) :=
  if w.procs.nextNumber + 1 < UInt64.size then
    .ok (w.procs.reserve.1, { w with procs := w.procs.reserve.2 })
  else
    .error .pidsExhausted

/-- Starts a process under a name that has been handed out. -/
def install (w : World κ σ) (p : Pid) (label : Option String) (t : Task κ) :
    Except Fault (World κ σ) :=
  if (w.procs.get? p).isSome then
    .error (.duplicatePid p)
  else
    .ok (({ w with procs := w.procs.set p (.start label t) }.note (.spawned p label)).enqueue p)

/-- Starts a process under a new name. -/
def spawn (w : World κ σ) (t : Task κ) : Except Fault (Pid × World κ σ) := do
  let (p, w) ← w.reserve
  let w ← w.install p none t
  return (p, w)

/-- Kills a process. What calls its pending binding off is handed back, to be run. -/
def kill (w : World κ σ) (p : Pid) : World κ σ × Option (Cancel κ) :=
  match w.procs.get? p with
  | none => (w, none)
  | some x =>
    if x.isDead then (w, none)
    else
      ({ w with procs := w.procs.set p x.killed }.note (.killed p x.cancel?.isSome), x.cancel?)

/-- Makes a task the root of a process that awaits a binding. A dead process ignores it; anything
else is a breach of contract. -/
def resume (w : World κ σ) (t : Ticket) (task : Task κ) : Except Fault (World κ σ) :=
  match w.procs.get? t.pid with
  | none => .ok w
  | some x =>
    match x.root with
    | .dead => .ok (w.note (.discarded t.pid))
    | .awaiting binding _ =>
      -- Only the ticket of the binding that is awaited counts.
      if binding = t.binding then
        .ok ({ w with procs := w.procs.set t.pid { x with root := .ready task } }.enqueue t.pid)
      else
        .error (.notAwaiting t.binding)
    | _ => .error (.notAwaiting t.binding)

/-- Uses up a ticket. -/
def spend (w : World κ σ) (t : Ticket) (h : Holder) : World κ σ :=
  { w with tickets := w.tickets.erase (t, h) }

/-- Completes a binding with a ticket that its holder has. Without the ticket, and without the
runtime, nothing happens. -/
def complete (w : World κ σ) (h : Holder) (t : Ticket) (task : Task κ) :
    Except Fault (World κ σ) :=
  if w.tickets.contains (t, h) then
    if w.reachable then (w.spend t h).resume t task else .ok (w.spend t h)
  else
    .ok w

/-- Starts the next binding of a process and issues its ticket. -/
def issue (w : World κ σ) (p : Pid) (h : Holder) : Ticket × World κ σ :=
  match w.procs.get? p with
  | none => (⟨p, 0⟩, w)
  | some x =>
    let binding := x.binding + 1
    let started := { x with binding := binding, root := .awaiting binding none }
    (⟨p, binding⟩,
      { w with
        procs := w.procs.set p started,
        tickets := (⟨p, binding⟩, h) :: w.tickets }.note (.started p binding))

/-- Keeps what calls a binding off as long as the binding is awaited. If the process has died in
the meantime it is handed back, to be run at once; if the binding has been completed it is lost. -/
def attach (w : World κ σ) (t : Ticket) (c : Cancel κ) : World κ σ × Option (Cancel κ) :=
  match w.procs.get? t.pid with
  | none => (w, none)
  | some x =>
    match x.root with
    | .dead => (w, some c)
    | .awaiting binding _ =>
      if binding = t.binding then
        ({ w with procs := w.procs.set t.pid { x with root := .awaiting binding (some c) } }, none)
      else
        (w, none)
    | _ => (w, none)

/-- Puts a process to sleep: the ticket of its binding goes into a timer, and killing the process
removes the timer. -/
def sleep (w : World κ σ) (span : Nat) (t : Ticket) : World κ σ :=
  let k := w.host.keyAfter span
  -- From here on the ticket is in the timer, and nobody else can use it.
  let w := { w.spend t .runtime with host := w.host.delay span (.wake t) }
  (w.attach t (.timer k)).1

/-- Uses the ticket of a timer that has fired. -/
def wake (w : World κ σ) (t : Ticket) : Except Fault (World κ σ) :=
  if w.reachable then w.resume t (.succeed .unit) else .ok w

/-- Ends a process whose task has come to an end. -/
def exit (w : World κ σ) (p : Pid) (r : Except (Value κ) (Value κ)) : World κ σ :=
  match w.procs.get? p with
  | none => w
  | some x =>
    { w with procs := w.procs.set p { x with root := .dead, mailbox := [] } }.note
      (match r with
        | .ok v => .exited p x.label v
        | .error v => .failed p x.label v)

/-- Takes a further reference for the user, if the runtime is there. -/
def retain (w : World κ σ) : World κ σ :=
  if w.reachable then { w with handles := w.handles + 1 } else w

/-- Lets go of one of the user's references. -/
def release (w : World κ σ) : World κ σ :=
  { w with handles := w.handles - 1 }

/-- Begins a tick, which holds a reference of its own. -/
def beginTick (w : World κ σ) : World κ σ :=
  { w with holds := w.holds + 1 }

/-- Ends a tick: a further tick is deferred if there is still something in the work queue, and the
tick's own reference is let go. -/
def endTick (w : World κ σ) (steps stepped : Nat) : World κ σ :=
  let drained := w.queue.isEmpty
  let w := { w with ticks := w.ticks + 1 }.note (.pumped (w.ticks + 1) steps stepped drained)
  let w := if drained then { w with armed := false } else { w with host := w.host.defer .pump }
  { w with holds := w.holds - 1 }

/-- Whether a process is alive, as seen by somebody who needs the runtime for the question. -/
def isAlive (w : World κ σ) (p : Pid) : Bool :=
  w.reachable && w.procs.isAlive p

/-- The processes that are alive. -/
def processes (w : World κ σ) : List Pid :=
  w.procs.alive

/-- Whether the pump has nothing to do. -/
def isIdle (w : World κ σ) : Bool :=
  !w.armed && w.queue.isEmpty

/-- What can be seen from outside. -/
def snapshot (w : World κ σ) : Snapshot where
  reachable := w.reachable
  processes := w.processes
  queued := w.queue.length
  armed := w.armed
  config := w.config
  host := w.host.view

/-- Changes a program. -/
def modifyProgram (w : World κ σ) (p : ProgramId) (f : RunningProgram κ → RunningProgram κ) :
    World κ σ :=
  match w.programs[p]? with
  | some d => { w with programs := w.programs.set p (f d) }
  | none => w

/-- What can be seen of a program. -/
def programView (w : World κ σ) (p : ProgramId) : Option ProgramView :=
  (w.programs[p]?).map fun d => ⟨d.pid, d.updates, d.managers⟩

end World

end Actors
