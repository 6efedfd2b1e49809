/-
The machine.

A machine is a world together with a stack of activities: what is under way, the innermost on top.
An activity is a piece of code, a drive of the host, or a tick of the scheduler. `Machine.step`
makes the smallest change there is: one operation of a piece of code, one transition of a process,
one decision of a loop. Code that drives the host is suspended under the drive until the drive is
over, so ticks, and user code inside ticks, may be nested to any depth.

A machine stops when its stack is empty, or when a contract has been broken; in the latter case the
world stays as it was at that moment.

* `Machine.step` — one step;
* `Machine.isOver` — whether there is nothing left to do.
-/
import Actors.Continuation

namespace Actors

/-- What a drive of the host goes for: a number of ticks, if limited, or a point in time. -/
inductive Goal where
  | ticks (limit : Option Nat)
  | time (limit : Nat)
deriving DecidableEq

/-- What an extent means at a point in time. -/
def Extent.goal (now : Nat) : Extent → Goal
  | .one => .ticks (some 1)
  | .upTo n => .ticks (some n)
  | .idle => .ticks none
  | .advance span => .time (Time.later now span)

/-- Code that runs, or that waits for the count of the drive above it. -/
inductive Pending (κ σ α : Type) where
  | run (code : Procedure κ σ α)
  | await (k : Nat → Procedure κ σ α)

/-- Where a tick of the scheduler stands. -/
inductive Phase (κ σ : Type) where
  /-- The next process is to be taken out of the work queue. -/
  | seek
  /-- A process has its turn. -/
  | turn (p : Pid)
  /-- A continuation of a process runs. -/
  | callback (p : Pid) (code : Pending κ σ (Task κ))
  /-- A binding of a process is being started. -/
  | starting (p : Pid) (code : Pending κ σ Unit)

/-- Something that is under way. -/
inductive Activity (κ σ : Type) where
  /-- Code without a result. -/
  | work (code : Pending κ σ Unit)
  /-- A tick of the scheduler: the steps charged to it, the turns given, and where it stands. -/
  | tick (steps stepped : Nat) (phase : Phase κ σ)
  /-- A drive of the host: its goal, and the count so far. -/
  | drive (goal : Goal) (count : Nat)

/-- A world, and what is under way in it. -/
structure Machine (κ σ : Type) where
  world : World κ σ
  stack : List (Activity κ σ)
  fault : Option Fault

/-- What one operation of a piece of code leads to. -/
inductive Progress (κ σ α : Type) where
  | next (w : World κ σ) (code : Procedure κ σ α)
  | drive (w : World κ σ) (goal : Goal) (k : Nat → Procedure κ σ α)
  | fault (f : Fault)

variable {κ σ α : Type}

namespace Progress

/-- Goes on with what a change of the world gives, or stops with its fault. -/
def ofExcept (r : Except Fault (World κ σ)) (code : Procedure κ σ α) : Progress κ σ α :=
  match r with
  | .ok w => .next w code
  | .error f => .fault f

/-- Runs what calls a binding off, and then the code that is left. -/
def callOff (w : World κ σ) (c : Option (Cancel κ)) (code : Procedure κ σ α) :
    Progress κ σ α :=
  match c with
  | none => .next w code
  | some (.timer k) => .next { w with host := w.host.unsetWake k } code
  | some (.thunk c) => .next w ((Procedure.invoke (.thunk c)).bind fun _ => code)

end Progress

/-- One request. A request that needs user code calls it first. -/
def Request.step (b : Behaviour κ σ) (w : World κ σ) :
    (r : Request κ σ) → (r.Reply → Procedure κ σ α) → Progress κ σ α
  | .recall, k => .next w (k w.user)
  | .remember s, k => .next { w with user := s } (k ())
  | .build c, k => .next w ((Procedure.invoke (.build c)).bind k)
  | .convert c v, k => .next w ((Procedure.invoke (.convert c v)).bind k)
  | .spawn t, k =>
    if w.reachable then
      match w.spawn t with
      | .ok (p, w) => .next w (k (some p))
      | .error f => .fault f
    else
      .next w (k none)
  | .spawnWith c, k =>
    if w.reachable then .next w ((Procedure.spawnWith c).bind k) else .next w (k none)
  | .send p v, k => .next (if w.reachable then w.send p v else w) (k ())
  | .kill p, k =>
    if w.reachable then
      let (w, c) := w.kill p
      .callOff w c (k ())
    else
      .next w (k ())
  | .isAlive p, k => .next w (k (w.isAlive p))
  | .complete t task, k => .ofExcept (w.complete .user t task) (k ())
  | .forget t, k => .next (w.spend t .user) (k ())
  | .isReachable, k => .next w (k w.reachable)
  | .defer c, k => .next { w with host := w.host.defer (.thunk c) } (k ())
  | .delay span c, k =>
    .next { w with host := w.host.delay span (.thunk c) } (k (w.host.keyAfter span))
  | .unset key, k => .next { w with host := w.host.unset key } (k ())
  | .drive e, k => .drive w (e.goal w.host.now) k
  | .observe, k => .next w (k w.snapshot)
  | .start c, k =>
    if w.reachable then .next w ((Program.start b c).bind fun r => k (some r))
    else .next w (k none)
  | .program p, k => .next w (k (w.programView p))
  | .model p, k =>
    match w.programs[p]? with
    | none => .next w (k none)
    | some d =>
      match d.model with
      | some v => .next w (k (some v))
      | none => .fault .modelInUse
  | .retain, k => .next w.retain (k ())
  | .release, k => .next w.release (k ())

/-- One operation of the runtime's own code. -/
def Directive.step (b : Behaviour κ σ) (w : World κ σ) :
    (d : Directive κ σ) → (d.Reply → Procedure κ σ α) → Progress κ σ α
  | .request r, k => r.step b w k
  | .invoke c, k => .next w ((Procedure.ofCode (b.code c)).bind k)
  | .note e, k => .next (w.note e) (k ())
  | .settle t task, k => .ofExcept (w.complete .runtime t task) (k ())
  | .sleep span t, k => .next (w.sleep span t) (k ())
  | .attach t c, k =>
    let (w, c) := w.attach t (.thunk c)
    .callOff w c (k ())
  | .reserve, k =>
    match w.reserve with
    | .ok (p, w) => .next w (k p)
    | .error f => .fault f
  | .install p label t, k => .ofExcept (w.install p label t) (k ())
  | .hold, k => .next { w with holds := w.holds + 1 } (k ())
  | .unhold, k => .next { w with holds := w.holds - 1 } (k ())
  | .enter, k => .next { w with entered := w.entered + 1 } (k ())
  | .leave, k => .next { w with entered := w.entered - 1 } (k ())
  | .found d, k => .next { w with programs := w.programs ++ [d] } (k w.programs.length)
  | .running p, k => .next w (k w.programs[p]?)
  | .takeModel p, k =>
    .next (w.modifyProgram p fun d => { d with model := none })
      (k ((w.programs[p]?).bind RunningProgram.model))
  | .putModel p v, k => .next (w.modifyProgram p fun d => { d with model := some v }) (k ())
  | .countUpdate p, k =>
    .next (w.modifyProgram p fun d => { d with updates := d.updates + 1 }) (k ())

/-- Charges a step for a turn that has ended; the count stays within a word of 32 bits. -/
def chargeTurn (steps : Nat) : Nat :=
  min (steps + 1) (UInt32.size - 1)

namespace Activity

/-- The count of a drive reaches the code that waits for it. -/
def resume (n : Nat) : Activity κ σ → Activity κ σ
  | work (.await k) => work (.run (k n))
  | tick steps stepped (.callback p (.await k)) => tick steps stepped (.callback p (.run (k n)))
  | tick steps stepped (.starting p (.await k)) => tick steps stepped (.starting p (.run (k n)))
  | a => a

end Activity

namespace Machine

/-- Changes the topmost activity of the stack. -/
def resumeTop (n : Nat) : List (Activity κ σ) → List (Activity κ σ)
  | [] => []
  | a :: rest => a.resume n :: rest

/-- One operation of code that runs on top of a stack; `frame` is what the code is part of. -/
def stepCode (b : Behaviour κ σ) (w : World κ σ) (frame : Pending κ σ α → Activity κ σ)
    (rest : List (Activity κ σ)) (d : Directive κ σ) (k : d.Reply → Procedure κ σ α) :
    Machine κ σ :=
  match d.step b w k with
  | .next w code => ⟨w, frame (.run code) :: rest, none⟩
  | .drive w goal k => ⟨w, .drive goal 0 :: frame (.await k) :: rest, none⟩
  | .fault f => ⟨w, frame (.run (.raise f)) :: rest, some f⟩

/-- Begins a tick that has been taken out of the host. A tick of a runtime that is gone does
nothing. -/
def beginTick (w : World κ σ) (below : List (Activity κ σ)) : Tick κ → Machine κ σ
  | .pump =>
    if w.reachable then ⟨w.beginTick, .tick 0 0 .seek :: below, none⟩ else ⟨w, below, none⟩
  | .thunk c => ⟨w, .work (.run (.invoke (.thunk c))) :: below, none⟩

/-- Fires a timer that has been taken out of the host. -/
def fire (w : World κ σ) (below : List (Activity κ σ)) : Alarm κ → Machine κ σ
  | .wake t =>
    match w.wake t with
    | .ok w => ⟨w, below, none⟩
    | .error f => ⟨w, below, some f⟩
  | .thunk c => ⟨w, .work (.run (.invoke (.thunk c))) :: below, none⟩

/-- One step of a drive: it takes a tick or a timer out of the host, or it is over. A drive towards
a point in time takes a timer only when no tick waits, and does not count ticks. -/
def stepDrive (w : World κ σ) (goal : Goal) (count : Nat) (rest : List (Activity κ σ)) :
    Machine κ σ :=
  match goal with
  | .ticks limit =>
    if limit.all fun n => count < n then
      match w.host.takeTick with
      | some (t, h) => beginTick { w with host := h } (.drive goal (count + 1) :: rest) t
      | none => ⟨w, resumeTop count rest, none⟩
    else
      ⟨w, resumeTop count rest, none⟩
  | .time limit =>
    match w.host.takeTick with
    | some (t, h) => beginTick { w with host := h } (.drive goal count :: rest) t
    | none =>
      match w.host.takeDue limit with
      | some (a, h) => fire { w with host := h } (.drive goal (count + 1) :: rest) a
      -- The clock ends at the goal, wherever a drive inside this one has left it.
      | none => ⟨{ w with host := { w.host with now := limit } }, resumeTop count rest, none⟩

/-- The end of a turn that has not been cut short. -/
def endTurn (w : World κ σ) (steps stepped : Nat) (rest : List (Activity κ σ)) : Machine κ σ :=
  ⟨w, .tick (chargeTurn steps) stepped .seek :: rest, none⟩

/-- A tick that is between turns: the next process gets its turn, unless the budget is used up or
nothing is left. A process that has died in the queue costs nothing. -/
def stepSeek (w : World κ σ) (steps stepped : Nat) (rest : List (Activity κ σ)) : Machine κ σ :=
  if steps < w.limit then
    match w.dequeue with
    | some (p, w) =>
      if w.procs.isAlive p then ⟨w, .tick steps (stepped + 1) (.turn p) :: rest, none⟩
      else ⟨w, .tick steps stepped .seek :: rest, none⟩
    | none => ⟨w.endTick steps stepped, rest, none⟩
  else
    ⟨w.endTick steps stepped, rest, none⟩

/-- A success or a failure reaches the next handler that wants it. Handlers of the other sort are
thrown away. If there is none left the process exits. -/
def stepOutcome (b : Behaviour κ σ) (w : World κ σ) (steps stepped : Nat)
    (rest : List (Activity κ σ)) (p : Pid) (handler : Option (Callback κ × List (Handler κ)))
    (r : Except (Value κ) (Value κ)) : Machine κ σ :=
  let v := match r with
    | .ok v => v
    | .error v => v
  match handler with
  | some (c, stack) =>
    ⟨w.modify p fun x => { x with stack := stack },
      .tick steps stepped (.callback p (.run (c.run b v))) :: rest, none⟩
  | none => endTurn ((w.modify p fun x => { x with stack := [] }).exit p r) steps stepped rest

/-- One transition of the process whose turn it is. The task has been taken from its root, and the
step has been charged. -/
def stepTask (b : Behaviour κ σ) (w : World κ σ) (steps stepped : Nat)
    (rest : List (Activity κ σ)) (p : Pid) (x : Proc κ) : Task κ → Machine κ σ
  | .succeed v => stepOutcome b w steps stepped rest p (Handler.nextSuccess x.stack) (.ok v)
  | .fail v => stepOutcome b w steps stepped rest p (Handler.nextFailure x.stack) (.error v)
  | .andThen t c =>
    ⟨w.modify p fun x => { x with root := .ready t, stack := .onSuccess c :: x.stack },
      .tick steps stepped (.turn p) :: rest, none⟩
  | .onError t c =>
    ⟨w.modify p fun x => { x with root := .ready t, stack := .onFailure c :: x.stack },
      .tick steps stepped (.turn p) :: rest, none⟩
  | .receive c =>
    match x.mailbox with
    | [] => endTurn (w.modify p fun x => { x with root := .ready (.receive c) }) steps stepped rest
    | v :: vs =>
      ⟨w.modify p fun x => { x with mailbox := vs },
        .tick steps stepped (.callback p (.run (c.run b v))) :: rest, none⟩
  | .native n =>
    -- The binding is awaited before its work begins, so the work itself may complete it.
    let (t, w) := w.issue p n.holder
    ⟨w, .tick steps stepped (.starting p (.run (n.start b t))) :: rest, none⟩

/-- A process that has its turn: it makes a transition, or its turn ends because the budget is used
up, in which case it stays in the work queue, or because it cannot do anything. -/
def stepTurn (b : Behaviour κ σ) (w : World κ σ) (steps stepped : Nat)
    (rest : List (Activity κ σ)) (p : Pid) : Machine κ σ :=
  if w.limit ≤ steps then
    -- The process goes behind all others; a turn that is cut short is not charged.
    ⟨w.enqueue p, .tick steps stepped .seek :: rest, none⟩
  else
    match w.procs.get? p with
    | none => endTurn w steps stepped rest
    | some x =>
      match x.root with
      | .ready t =>
        stepTask b (w.modify p fun x => { x with root := .stepping }) (steps + 1) stepped rest p x t
      | _ => endTurn w steps stepped rest

/-- A continuation has returned the next task. If the process has been killed meanwhile, the task
is thrown away and the turn ends. -/
def endCallback (w : World κ σ) (steps stepped : Nat) (rest : List (Activity κ σ)) (p : Pid)
    (t : Task κ) : Machine κ σ :=
  if w.procs.isAlive p then
    ⟨w.modify p fun x => { x with root := .ready t }, .tick steps stepped (.turn p) :: rest, none⟩
  else
    endTurn w steps stepped rest

/-- One step of the activity on top of a stack. -/
def stepTop (b : Behaviour κ σ) (w : World κ σ) (rest : List (Activity κ σ)) :
    Activity κ σ → Machine κ σ
  | .work (.run (.ret _)) => ⟨w, rest, none⟩
  | .work (.run (.raise f)) => ⟨w, .work (.run (.raise f)) :: rest, some f⟩
  | .work (.run (.op d k)) => stepCode b w .work rest d k
  | .tick steps stepped .seek => stepSeek w steps stepped rest
  | .tick steps stepped (.turn p) => stepTurn b w steps stepped rest p
  | .tick steps stepped (.callback p (.run (.ret t))) => endCallback w steps stepped rest p t
  | .tick steps stepped (.callback p (.run (.raise f))) =>
    ⟨w, .tick steps stepped (.callback p (.run (.raise f))) :: rest, some f⟩
  | .tick steps stepped (.callback p (.run (.op d k))) =>
    stepCode b w (fun c => .tick steps stepped (.callback p c)) rest d k
  | .tick steps stepped (.starting _ (.run (.ret _))) => endTurn w steps stepped rest
  | .tick steps stepped (.starting p (.run (.raise f))) =>
    ⟨w, .tick steps stepped (.starting p (.run (.raise f))) :: rest, some f⟩
  | .tick steps stepped (.starting p (.run (.op d k))) =>
    stepCode b w (fun c => .tick steps stepped (.starting p c)) rest d k
  | .drive goal count => stepDrive w goal count rest
  | a => ⟨w, a :: rest, none⟩

/-- One step. A machine that is over stays as it is. -/
def step (b : Behaviour κ σ) (m : Machine κ σ) : Machine κ σ :=
  match m.fault, m.stack with
  | none, a :: rest => stepTop b m.world rest a
  | _, _ => m

/-- Whether there is nothing left to do. -/
def isOver (m : Machine κ σ) : Bool :=
  m.fault.isSome || m.stack.isEmpty

/-- A machine that is about to run a procedure. -/
def load (w : World κ σ) (code : Procedure κ σ Unit) : Machine κ σ :=
  ⟨w, [.work (.run code)], none⟩

/-- The machine after a number of steps. -/
def run (b : Behaviour κ σ) : Nat → Machine κ σ → Machine κ σ
  | 0, m => m
  | n + 1, m => run b n (m.step b)

theorem step_of_isOver {b : Behaviour κ σ} {m : Machine κ σ} (h : m.isOver = true) :
    m.step b = m := by
  obtain ⟨w, stack, fault⟩ := m
  cases fault <;> cases stack <;> simp_all [isOver, step]

/-- A machine that is over does not change. -/
theorem run_of_isOver {b : Behaviour κ σ} {m : Machine κ σ} (h : m.isOver = true) (n : Nat) :
    run b n m = m := by
  induction n with
  | zero => rfl
  | succ n ih => rw [run, step_of_isOver h, ih]

/-- Steps may be made in any two parts. -/
theorem run_add (b : Behaviour κ σ) (n k : Nat) (m : Machine κ σ) :
    run b (n + k) m = run b k (run b n m) := by
  induction n generalizing m with
  | zero => rw [Nat.zero_add]; rfl
  | succ n ih => rw [Nat.succ_add, run, run, ih]

end Machine

end Actors
