/-
What a task costs.

A task without messages and bindings, run alone on an idle runtime, makes a certain number of transitions,
which the evaluator gives. Handlers that are thrown away cost nothing; a sequence, a call and the exit cost one
step each. The ticks cut the run into pieces of as many steps as the budget has: a turn that is cut short is not
charged, so all ticks but the last report the budget exactly, and the last one charges the end of the turn as
well, even where the budget is used up by the exit.

* `Built.cost` — what a task costs, by recursion over its construction;
* `World.reports` — the steps that the ticks have reported;
* `Proc.paces` — one transition of a process that has its turn, with the call that it enters;
* `World.Alone`, `World.Alone.preempts`, `World.Alone.exits` — a tick with one process, and its two ends;
* `World.Stint`, `Goes.stint` — a run of the process, cut into ticks;
* `Built.accounts` — ticks and steps of a task.
-/
import Actors.Proofs.Allocation
import Actors.Proofs.Allowance
import Actors.Proofs.Evaluation
import Actors.Proofs.Leading
import Actors.Proofs.Timetable
import Mathlib.Algebra.GroupWithZero.Nat

namespace Actors

variable {κ σ : Type} {b : Behaviour κ σ} {f : Callback κ → Value κ → Task κ}

open Machine

/-! ### Costs -/

/-- What a task costs: one step for every success or failure, and one for every sequence and every handler. What
a continuation returns is added if the continuation is called. -/
def Built.cost {t : Task κ} : Built b f t → Nat
  | succeed _ => 1
  | fail _ => 1
  | andThen first _ next =>
    match first.eval.1 with
    | .ok v => 1 + first.cost + (next v).cost
    | .error _ => 1 + first.cost + 0
  | onError first _ next =>
    match first.eval.1 with
    | .ok _ => 1 + first.cost + 0
    | .error v => 1 + first.cost + (next v).cost

/-- A task costs its transitions up to its outcome, and the one that takes the outcome away. -/
theorem Built.cost_eq {t : Task κ} (built : Built b f t) : built.cost = built.size + 1 := by
  induction built with
  | succeed v => rfl
  | fail v => rfl
  | andThen first pure next ih ihk =>
    rw [cost, size]
    -- What comes next depends on the outcome of the first part; the other branch costs nothing.
    cases first.eval.1 with
    | ok v =>
      have rest := ihk v
      dsimp only
      omega
    | error v =>
      dsimp only
      omega
  | onError first pure next ih ihk =>
    rw [cost, size]
    cases first.eval.1 with
    | ok v =>
      dsimp only
      omega
    | error v =>
      have rest := ihk v
      dsimp only
      omega

/-- The steps that a tick reports. -/
def Event.reported? : Event κ → Option Nat
  | .pumped _ steps _ _ => some steps
  | _ => none

theorem Event.reported?_ended (p : Pid) (label : Option String) (o : Except (Value κ) (Value κ)) :
    (Event.ended p label o).reported? = none := by
  cases o <;> rfl

/-- The steps that the ticks have reported, in their order. -/
def World.reports (w : World κ σ) : List Nat :=
  (w.journal.filterMap fun e => e.event.reported?).reverse

theorem World.reports_note (w : World κ σ) (e : Event κ) :
    (w.note e).reports = w.reports ++ e.reported?.toList := by
  unfold World.reports World.note
  rw [List.filterMap_cons]
  cases e.reported? with
  | none => exact (List.append_nil _).symm
  | some n => exact List.reverse_cons

/-! ### One process -/

/-- A world in which a process has been put in its place. -/
def World.put (w : World κ σ) (p : Pid) (x : Proc κ) : World κ σ :=
  { w with procs := w.procs.set p x }

namespace World

variable {w : World κ σ} {p : Pid}

theorem put_put (w : World κ σ) (p : Pid) (x y : Proc κ) : (w.put p x).put p y = w.put p y := by
  simp only [put, ProcTable.set, Array.setIfInBounds_setIfInBounds]

theorem get?_put (known : p.number < w.procs.nextNumber) (x : Proc κ) : (w.put p x).procs.get? p = some x :=
  (ProcTable.get?_set x known p).trans (if_pos rfl)

theorem modify_put (known : p.number < w.procs.nextNumber) (x : Proc κ) (g : Proc κ → Proc κ) :
    (w.put p x).modify p g = w.put p (g x) := by
  rw [modify, get?_put known]
  exact put_put w p x (g x)

/-- A living process that does not stand in the work queue goes behind all others. -/
theorem enqueue_put (known : p.number < w.procs.nextNumber) {x : Proc κ} (alive : x.isDead = false)
    (still : x.queued = false) : (w.put p x).enqueue p =
      ({ w.put p { x with queued := true } with queue := w.queue ++ [p] } : World κ σ).arm := by
  have idle : (x.queued || x.isDead) = false := by rw [still, alive]; rfl
  have twice : (w.procs.set p x).set p { x with queued := true } = w.procs.set p { x with queued := true } :=
    congrArg World.procs (put_put w p x { x with queued := true })
  rw [enqueue, get?_put known]
  simp only [idle, Bool.false_eq_true, if_false]
  show World.arm { w with procs := (w.procs.set p x).set p { x with queued := true }, queue := w.queue ++ [p] } = _
  rw [twice]
  rfl

/-- A process that exits is dead from then on, and gives up its messages. -/
theorem exit_put (known : p.number < w.procs.nextNumber) (x : Proc κ) (o : Except (Value κ) (Value κ)) :
    (w.put p x).exit p o = (w.put p { x with root := .dead, mailbox := [] }).note (.ended p x.label o) := by
  rw [exit, get?_put known, ← put_put w p x { x with root := .dead, mailbox := [] }]
  cases o <;> rfl

/-- When nothing is left at the end of a tick, the pump is not armed any more. -/
theorem endTick_of_empty (empty : w.queue = []) (n k : Nat) : w.endTick n k =
    { ({ w with ticks := w.ticks + 1 } : World κ σ).note (.pumped (w.ticks + 1) n k true) with
      armed := false, holds := w.holds - 1 } := by
  simp only [endTick, empty]
  rfl

end World

/-- A process that has its turn comes from one state to another one, and this is charged as one step. -/
def Proc.Paces (b : Behaviour κ σ) (x y : Proc κ) : Prop :=
  ∀ (w : World κ σ) (p : Pid) (n k : Nat), p.number < w.procs.nextNumber → n < w.limit →
    ∃ i, ∀ s, Machine.run b i ⟨w.put p x, .tick n k (.turn p) :: s, none⟩ =
      ⟨w.put p y, .tick (n + 1) k (.turn p) :: s, none⟩

/-- A continuation that, given a value, returns a task and leaves every world as it is. -/
def Callback.Quiet (b : Behaviour κ σ) (c : Callback κ) (v : Value κ) (t : Task κ) : Prop :=
  ∀ w, Procedure.LeadsTo b w (c.run b v) w (.ok t)

/-- User code that returns a task without asking for anything leaves every world as it is. -/
theorem Callback.Quiet.of_code {c : κ} {v : Value κ} {t : Task κ} (h : b.callback c v = .ret t) :
    (Callback.code c).Quiet b v t := by
  intro w
  refine Procedure.LeadsTo.invoke_iff.2 ?_
  show Procedure.LeadsTo b w (.ofCode (b.callback c v)) w (.ok t)
  rw [h]
  exact .ret w t

namespace Machine

variable {w : World κ σ} {p : Pid} {n k : Nat} {s : List (Activity κ σ)} {x : Proc κ}

/-- A process that has its turn makes a transition with the task that is up next. -/
theorem step_ready (known : p.number < w.procs.nextNumber) (budget : n < w.limit) {t : Task κ}
    (root : x.root = .ready t) : step b ⟨w.put p x, .tick n k (.turn p) :: s, none⟩ =
      stepTask b (w.put p { x with root := .stepping }) (n + 1) k s p x t := by
  have more : ¬ (w.put p x).limit ≤ n := Nat.not_le.2 budget
  simp only [step, stepTop, stepTurn, if_neg more, World.get?_put known, root, World.modify_put known]

theorem step_push (known : p.number < w.procs.nextNumber) (budget : n < w.limit) {u t : Task κ} {h : Handler κ}
    (pushes : Pushes u t h) (root : x.root = .ready u) : step b ⟨w.put p x, .tick n k (.turn p) :: s, none⟩ =
      ⟨w.put p { x with root := .ready t, stack := h :: x.stack }, .tick (n + 1) k (.turn p) :: s, none⟩ := by
  rw [step_ready known budget root]
  cases pushes <;> simp only [stepTask, World.modify_put known]

theorem step_outcome (known : p.number < w.procs.nextNumber) (budget : n < w.limit)
    {o : Except (Value κ) (Value κ)} (root : x.root = .ready (.ofResult o)) :
    step b ⟨w.put p x, .tick n k (.turn p) :: s, none⟩ =
      stepOutcome b (w.put p { x with root := .stepping }) (n + 1) k s p (Handler.next o x.stack) o := by
  rw [step_ready known budget root]
  cases o <;> rfl

/-- A living process that is taken out of the work queue has its turn. -/
theorem step_seek {w' : World κ σ} (budget : n < w.limit) (first : w.dequeue = some (p, w'))
    (there : w'.procs.isAlive p = true) :
    step b ⟨w, .tick n k .seek :: s, none⟩ = ⟨w', .tick n (k + 1) (.turn p) :: s, none⟩ := by
  simp only [step, stepTop, stepSeek, if_pos budget, first, if_pos there]

/-- A tick is over when the budget is used up or nothing is left. -/
theorem step_over (ended : w.limit ≤ n ∨ w.queue = []) :
    step b ⟨w, .tick n k .seek :: s, none⟩ = ⟨w.endTick n k, s, none⟩ := by
  simp only [step, stepTop, stepSeek]
  split
  · next budget =>
    have empty := ended.resolve_left (Nat.not_le.2 budget)
    rw [World.dequeue, empty]
  · rfl

/-- A call that leaves the world as it is costs nothing. -/
theorem run_call (known : p.number < w.procs.nextNumber) {c : Callback κ} {v : Value κ} {t : Task κ}
    (quiet : c.Quiet b v t) (alive : x.isDead = false) (n k : Nat) : ∃ i, ∀ s, Machine.run b i
      ⟨w.put p x, .tick n k (.callback p (.run (c.run b v))) :: s, none⟩ =
        ⟨w.put p { x with root := .ready t }, .tick n k (.turn p) :: s, none⟩ := by
  obtain ⟨i, runs⟩ := (quiet (w.put p x)).runs
  refine ⟨i + 1, fun s => ?_⟩
  have there : (w.put p x).procs.isAlive p = true :=
    ProcTable.isAlive_iff.2 ⟨x, World.get?_put known x, alive⟩
  rw [Machine.run_add]
  refine (congrArg (Machine.run b 1) (runs (.callback n k p) s)).trans ?_
  show endCallback (w.put p x) n k s p t = _
  rw [endCallback, if_pos there, World.modify_put known]

end Machine

/-- A step that enters a call comes to what the call returns. -/
theorem Proc.Paces.of_call {x y : Proc κ} {c : Callback κ} {v : Value κ} {t : Task κ} (quiet : c.Quiet b v t)
    (alive : y.isDead = false)
    (enters : ∀ (w : World κ σ) (p : Pid) (n k : Nat) (s : List (Activity κ σ)), p.number < w.procs.nextNumber →
      n < w.limit → Machine.step b ⟨w.put p x, .tick n k (.turn p) :: s, none⟩ =
        ⟨w.put p y, .tick (n + 1) k (.callback p (.run (c.run b v))) :: s, none⟩) :
    x.Paces b { y with root := .ready t } := by
  intro w p n k known budget
  obtain ⟨i, runs⟩ := run_call known quiet alive (n + 1) k
  exact ⟨i + 1, fun s => by rw [Machine.run, enters w p n k s known budget, runs]⟩

/-- A transition that is no exit costs one step, and the call that it enters costs nothing. -/
theorem Proc.paces {x : Proc κ} {mv : Move κ} (can : x.move? = some mv)
    (quiet : ∀ e ∈ mv.entered, e.1.Quiet b e.2 (f e.1 e.2)) {t : Task κ}
    (ready : ((x.moved mv.task).settle f mv.entered).root = .ready t) :
    x.Paces b ((x.moved mv.task).settle f mv.entered) := by
  have root := Proc.root_of_move? can
  have moves := Proc.moves can
  generalize x.moved mv.task = y at ready moves ⊢
  -- A binding would leave the process waiting, which `ready` excludes.
  cases moves with
  | push pushes => exact fun w p n k known budget => ⟨1, fun s => Machine.step_push known budget pushes root⟩
  | native g => cases ready
  | @receive c v vs mail =>
    have returns : c.Quiet b v (f c v) := quiet (c, v) rfl
    refine .of_call (y := { x with root := .stepping, mailbox := vs }) returns rfl fun w p n k s known budget => ?_
    rw [step_ready known budget root, stepTask, mail]
    simp only [World.modify_put known]
  | outcome o =>
    cases hn : Handler.next o x.stack with
    | none =>
      rw [hn] at ready
      cases ready
    | some e =>
      obtain ⟨c, rest⟩ := e
      have returns : c.Quiet b (passed o) (f c (passed o)) := quiet (c, passed o) (by rw [hn]; rfl)
      refine .of_call (y := { x with root := .stepping, stack := rest }) returns rfl fun w p n k s known budget => ?_
      rw [step_outcome known budget root, hn]
      simp only [stepOutcome, World.modify_put known]
      cases o <;> rfl

/-- A process on its own that nobody answers can make transitions only. -/
theorem Solo.of_step {x : Proc κ} {o : Option (Move κ)} {s : Solo κ} (h : Solo.step f ⟨x, []⟩ = some (o, s)) :
    ∃ mv, x.move? = some mv ∧ o = some mv ∧ s = ⟨(x.moved mv.task).settle f mv.entered, []⟩ := by
  unfold Solo.step at h
  split at h
  · next mv can =>
    obtain ⟨rfl, rfl⟩ := Prod.mk.inj (Option.some.inj h)
    exact ⟨mv, can, rfl, rfl⟩
  · split at h
    · next replies => cases replies
    · cases h

/-! ### Ticks -/

theorem Host.takeTick_defer {h : Host κ} (idle : h.ticks = []) (t : Tick κ) :
    (h.defer t).takeTick = some (t, h) := by
  obtain ⟨ticks, timers, now, serial⟩ := h
  obtain rfl : ticks = [] := idle
  rfl

/-- A runtime whose pump is armed, and in which nobody has anything to do but a process with this name. -/
structure World.Alone (w : World κ σ) (p : Pid) : Prop where
  known : p.number < w.procs.nextNumber
  queue : w.queue = []
  armed : w.armed = true
  ticks : w.host.ticks = []
  here : w.reachable = true

/-- The process stands in the work queue, and a tick waits. -/
def World.pending (w : World κ σ) (p : Pid) (x : Proc κ) : World κ σ :=
  { w.put p { x with queued := true } with queue := [p], host := w.host.defer .pump }

/-- A tick has used up the budget. -/
def World.spent (w : World κ σ) : World κ σ :=
  { w with ticks := w.ticks + 1 }.note (.pumped (w.ticks + 1) w.limit 1 false)

namespace World.Alone

variable {w : World κ σ} {p : Pid} {c : Nat} {s base : List (Activity κ σ)} {x : Proc κ}

theorem spent (h : w.Alone p) : w.spent.Alone p :=
  ⟨h.known, h.queue, h.armed, h.ticks, h.here⟩

/-- The tick that waits begins, and the process has its turn. -/
theorem begins (h : w.Alone p) (alive : x.isDead = false) (still : x.queued = false) :
    Machine.run b 2 ⟨w.pending p x, .drive (.ticks none) c :: base, none⟩ =
      ⟨w.beginTick.put p x, .tick 0 1 (.turn p) :: .drive (.ticks none) (c + 1) :: base, none⟩ := by
  have waits : (w.pending p x).host.takeTick = some (.pump, w.host) := Host.takeTick_defer h.ticks .pump
  have taken : Machine.step b ⟨w.pending p x, .drive (.ticks none) c :: base, none⟩ =
      ⟨({ w.pending p x with host := w.host } : World κ σ).beginTick,
        .tick 0 0 .seek :: .drive (.ticks none) (c + 1) :: base, none⟩ := by
    show stepDrive (w.pending p x) (.ticks none) c base = _
    simp only [stepDrive, Option.all_none, if_true, waits]
    exact if_pos h.here
  -- The process has been put into the queue, and is taken out of it again.
  have back : ({ x with queued := false } : Proc κ) = x := by rw [← still]
  have first : ({ w.pending p x with host := w.host } : World κ σ).beginTick.dequeue =
      some (p, w.beginTick.put p x) := by
    have empty : ({ ({ w.pending p x with host := w.host } : World κ σ).beginTick with queue := [] } : World κ σ) =
        w.beginTick.put p { x with queued := true } := by rw [← h.queue]; rfl
    show some (p, World.modify { ({ w.pending p x with host := w.host } : World κ σ).beginTick with queue := [] } p
      fun x => { x with queued := false }) = _
    rw [empty, World.modify_put (w := w.beginTick) h.known]
    exact congrArg (fun y => some (p, w.beginTick.put p y)) back
  have there : (w.beginTick.put p x).procs.isAlive p = true :=
    ProcTable.isAlive_iff.2 ⟨x, World.get?_put (w := w.beginTick) h.known x, alive⟩
  rw [Machine.run, taken]
  exact step_seek (b := b) w.config.budget.property.1 first there

/-- A turn that is cut short is not charged, and its tick is over; the process waits for the next one. -/
theorem cut (h : w.Alone p) (alive : x.isDead = false) (still : x.queued = false) :
    Machine.run b 2 ⟨w.beginTick.put p x, .tick w.limit 1 (.turn p) :: s, none⟩ =
      ⟨w.spent.pending p x, s, none⟩ := by
  have queued : (w.beginTick.put p x).enqueue p =
      { w.beginTick.put p { x with queued := true } with queue := [p] } := by
    rw [World.enqueue_put (w := w.beginTick) h.known alive still, show w.beginTick.queue ++ [p] = [p] by
      rw [show w.beginTick.queue = [] from h.queue]; rfl]
    exact if_pos h.armed
  have cut : Machine.step b ⟨w.beginTick.put p x, .tick w.limit 1 (.turn p) :: s, none⟩ =
      ⟨{ w.beginTick.put p { x with queued := true } with queue := [p] }, .tick w.limit 1 .seek :: s, none⟩ := by
    rw [Machine.step_cut (w := w.beginTick.put p x) b (Nat.le_refl w.limit), queued]
  rw [Machine.run, cut]
  exact step_over (b := b) (.inl (Nat.le_refl w.limit))

/-- A process whose turn is cut short has its turn again in the next tick. -/
theorem preempts (h : w.Alone p) (alive : x.isDead = false) (still : x.queued = false) :
    Machine.run b 4 ⟨w.beginTick.put p x, .tick w.limit 1 (.turn p) :: .drive (.ticks none) c :: base, none⟩ =
      ⟨w.spent.beginTick.put p x, .tick 0 1 (.turn p) :: .drive (.ticks none) (c + 1) :: base, none⟩ := by
  rw [Machine.run_add b 2 2, h.cut alive still]
  exact h.spent.begins alive still

/-- The process exits, its tick is over, and so is the drive. The end of the turn is charged. -/
theorem exits (h : w.Alone p) {n : Nat} (budget : n < w.limit) (word : w.limit < UInt32.size - 1)
    {o : Except (Value κ) (Value κ)} (root : x.root = .ready (.ofResult o))
    (next : Handler.next o x.stack = none) :
    ∃ w', (∀ s, Machine.run b 3 ⟨w.beginTick.put p x, .tick n 1 (.turn p) :: .drive (.ticks none) c :: s, none⟩ =
        ⟨w', resumeTop c s, none⟩) ∧ w'.ticks = w.ticks + 1 ∧ w'.reports = w.reports ++ [n + 2] := by
  -- The exit is a step, and the end of the turn is charged as another one, beyond the budget if need be.
  let gone := (w.beginTick.put p { x with root := .dead, stack := [], mailbox := [] }).note (.ended p x.label o)
  have empty : gone.queue = [] := h.queue
  have charged : chargeTurn (n + 1) = n + 2 := by
    unfold chargeTurn
    omega
  have exit (s : List (Activity κ σ)) : Machine.step b ⟨w.beginTick.put p x, .tick n 1 (.turn p) :: s, none⟩ =
      ⟨gone, .tick (n + 2) 1 .seek :: s, none⟩ := by
    rw [step_outcome (w := w.beginTick) h.known budget root, next]
    show endTurn ((World.modify (w.beginTick.put p { x with root := .stepping }) p _).exit p o) (n + 1) 1 s = _
    rw [World.modify_put (w := w.beginTick) h.known, World.exit_put (w := w.beginTick) h.known, endTurn, charged]
  have last : (gone.endTick (n + 2) 1).host.ticks = [] := by
    rw [World.endTick_of_empty empty]
    exact h.ticks
  have ended (s : List (Activity κ σ)) :
      Machine.step b ⟨gone.endTick (n + 2) 1, .drive (.ticks none) c :: s, none⟩ =
        ⟨gone.endTick (n + 2) 1, resumeTop c s, none⟩ := by
    show stepDrive _ (.ticks none) c s = _
    simp only [stepDrive, Option.all_none, if_true, Host.takeTick_eq_none.2 last]
  refine ⟨gone.endTick (n + 2) 1, fun s => ?_, ?_, ?_⟩
  · rw [Machine.run, exit, Machine.run, step_over (.inr empty), Machine.run, ended, Machine.run]
  · rw [World.endTick_of_empty empty]
    rfl
  · have silent : gone.reports = w.reports := by
      rw [World.reports_note, Event.reported?_ended]
      exact List.append_nil _
    have noted := World.reports_note { gone with ticks := gone.ticks + 1 } (.pumped (gone.ticks + 1) (n + 2) 1 true)
    rw [World.endTick_of_empty empty]
    exact noted.trans (congrArg (· ++ [n + 2]) silent)

end World.Alone

/-- The ticks in which a process has its turn, from a world and a state of the process on: so many have used up
the budget, and in the next one, which began in another world, the process has made so many steps and come to
another state. -/
structure World.Stint (b : Behaviour κ σ) (p : Pid) (w : World κ σ) (x : Proc κ) (v : World κ σ) (y : Proc κ)
    (c n : Nat) : Prop where
  runs : ∃ i, ∀ s, Machine.run b i
    ⟨w.beginTick.put p x, .tick 0 1 (.turn p) :: .drive (.ticks none) 1 :: s, none⟩ =
      ⟨v.beginTick.put p y, .tick n 1 (.turn p) :: .drive (.ticks none) (c + 1) :: s, none⟩
  alone : v.Alone p
  limit : v.limit = w.limit
  ticks : v.ticks = w.ticks + c
  reports : v.reports = w.reports ++ List.replicate c w.limit
  budget : n ≤ w.limit

namespace World.Stint

variable {w v : World κ σ} {p : Pid} {x y z : Proc κ} {c n : Nat}

/-- If the budget is used up, the process has its turn again in the next tick. -/
theorem goes_on (h : w.Stint b p x v y c n) (alive : y.isDead = false) (still : y.queued = false) :
    ∃ v' c' n', w.Stint b p x v' y c' n' ∧ n' < w.limit ∧ c' * w.limit + n' = c * w.limit + n := by
  rcases Nat.lt_or_eq_of_le h.budget with more | rfl
  · exact ⟨v, c, n, h, more, rfl⟩
  · obtain ⟨i, runs⟩ := h.runs
    refine ⟨v.spent, c + 1, 0, ⟨⟨i + 4, fun s => ?_⟩, h.alone.spent, h.limit, ?_, ?_, Nat.zero_le _⟩,
      w.config.budget.property.1, Nat.succ_mul c w.limit⟩
    · rw [Machine.run_add, runs, ← h.limit]
      exact h.alone.preempts alive still
    · exact congrArg (· + 1) h.ticks
    · have spent : v.spent.reports = v.reports ++ [v.limit] :=
        World.reports_note { v with ticks := v.ticks + 1 } _
      rw [spent, h.reports, h.limit, List.append_assoc, ← List.replicate_succ']

theorem paces (h : w.Stint b p x v y c n) (more : n < w.limit) (paces : y.Paces b z) :
    w.Stint b p x v z c (n + 1) := by
  obtain ⟨i, runs⟩ := h.runs
  obtain ⟨j, one⟩ := paces v.beginTick p n 1 h.alone.known (Nat.lt_of_lt_of_eq more h.limit.symm)
  refine ⟨⟨i + j, fun s => ?_⟩, h.alone, h.limit, h.ticks, h.reports, more⟩
  rw [Machine.run_add, runs, one]

/-- If the process has come to an outcome that no handler wants, the drive that has begun with its first tick is
over with the present one. -/
theorem drives (h : w.Stint b p x v y c n) (alone : w.Alone p) (alive : x.isDead = false) (still : x.queued = false)
    (more : n < w.limit) (word : w.limit < UInt32.size - 1) {o : Except (Value κ) (Value κ)}
    (root : y.root = .ready (.ofResult o)) (next : Handler.next o y.stack = none) :
    ∃ w', (w.pending p x).Drives b (.ticks none) w' (c + 1) ∧ w'.ticks = w.ticks + (c + 1) ∧
      w'.reports = w.reports ++ (List.replicate c w.limit ++ [n + 2]) := by
  obtain ⟨i, runs⟩ := h.runs
  rw [← h.limit] at more word
  obtain ⟨w', exits, ticks, reports⟩ := h.alone.exits (b := b) (c := c + 1) more word root next
  refine ⟨w', ⟨2 + (i + 3), fun s => ?_⟩, ?_, ?_⟩
  · rw [Machine.run_add, alone.begins alive still, Machine.run_add, runs, exits]
  · rw [ticks, h.ticks]
    rfl
  · rw [reports, h.reports, List.append_assoc]

end World.Stint

/-- A run of a process on its own, cut into ticks. -/
theorem Goes.stint {x : Proc κ} {ms : List (Move κ)} {s : Solo κ} (goes : Goes f ⟨x, []⟩ ms s)
    (quiet : ∀ e ∈ ms.filterMap Move.entered, e.1.Quiet b e.2 (f e.1 e.2)) {w : World κ σ} {p : Pid}
    (alone : w.Alone p) (still : x.queued = false) :
    s.replies = [] ∧ s.proc.queued = false ∧ ∀ t, s.proc.root = .ready t →
      ∃ v c n, w.Stint b p x v s.proc c n ∧ c * w.limit + n = ms.length := by
  -- By induction on the run. Where the budget is used up before a transition the next tick begins.
  induction goes with
  | refl =>
    refine ⟨rfl, still, fun t _ => ⟨w, 0, 0, ⟨⟨0, fun _ => rfl⟩, alone, rfl, rfl, ?_, Nat.zero_le _⟩, ?_⟩⟩
    · exact (List.append_nil _).symm
    · exact Nat.zero_mul _
  | @snoc ms s s' o _ step ih =>
    rw [List.filterMap_append] at quiet
    obtain ⟨replies, idle, before⟩ := ih fun e he => quiet e (List.mem_append_left _ he)
    obtain ⟨y, rs⟩ := s
    obtain rfl : rs = [] := replies
    obtain ⟨mv, can, rfl, rfl⟩ := Solo.of_step step
    have idle : y.queued = false := idle
    refine ⟨rfl, ?_, fun t ready => ?_⟩
    · have same := (Proc.moves can).queued.trans idle
      cases mv.entered <;> exact same
    · have root := Proc.root_of_move? can
      obtain ⟨v, c, n, stint, length⟩ := before _ root
      obtain ⟨v, c, n, stint, more, same⟩ := stint.goes_on (by rw [Proc.isDead, root]; rfl) idle
      refine ⟨v, c, n + 1, stint.paces more (Proc.paces can (fun e he => quiet e ?_) ready), ?_⟩
      · exact List.mem_append_right _ (List.mem_filterMap.2 ⟨mv, List.mem_singleton.2 rfl, he⟩)
      · rw [List.length_append, Option.toList_some, List.length_singleton, ← length, ← same]
        rfl

/-- A living process that goes into an empty work queue arms the pump, and a tick waits. -/
theorem World.enqueue_alone {w : World κ σ} {p : Pid} {x : Proc κ} (known : p.number < w.procs.nextNumber)
    (alive : x.isDead = false) (still : x.queued = false) (empty : w.queue = []) (off : w.armed = false) :
    (w.put p x).enqueue p = ({ w with armed := true } : World κ σ).pending p x := by
  have first : w.queue ++ [p] = [p] := by
    rw [empty]
    rfl
  rw [enqueue_put known alive still, first, arm]
  exact if_neg (ne_true_of_eq_false off)

/-- A process that is spawned on an idle runtime is the only one in the work queue, and a tick waits. -/
theorem World.spawn_alone {w w' : World κ σ} {p : Pid} {t : Task κ} (here : w.reachable = true)
    (idle : w.isIdle = true) (ticks : w.host.ticks = []) (spawned : w.spawn t = .ok (p, w')) :
    ∃ v : World κ σ, w' = v.pending p (.start none t) ∧ v.Alone p ∧ v.limit = w.limit ∧ v.ticks = w.ticks ∧
      v.reports = w.reports := by
  obtain ⟨w₁, reserved, -⟩ := spawn_eq spawned
  obtain ⟨known, unused⟩ := ProcTable.isFree_iff.1 (isFree_of_reserve reserved)
  rw [isIdle, Bool.and_eq_true, Bool.not_eq_true', List.isEmpty_iff] at idle
  obtain ⟨off, empty⟩ := idle
  have placed : w.spawn t = .ok (p, ((w₁.note (.spawned p none)).put p (.start none t)).enqueue p) := by
    simp only [spawn, reserved, bind, Except.bind, install, unused]
    rfl
  obtain rfl := (Prod.mk.inj (Except.ok.inj (spawned.symm.trans placed))).2
  unfold reserve at reserved
  split at reserved
  · obtain ⟨rfl, rfl⟩ := Prod.mk.inj (Except.ok.inj reserved)
    refine ⟨_, enqueue_alone known rfl rfl empty off, ⟨known, empty, rfl, ticks, here⟩, rfl, rfl, ?_⟩
    exact (reports_note { w with procs := w.procs.reserve.2 } (.spawned _ none)).trans (List.append_nil _)
  · cases reserved

/-- The code of a user who spawns a task and runs the host until no tick waits. -/
def Code.spawnAndRun (t : Task κ) : Code κ σ Nat :=
  (Code.ask (.spawn t)).bind fun _ => Code.ask (.drive .idle)

/-- The process is spawned, and the drive comes to its end. -/
theorem Code.leads_spawnAndRun {w v w' : World κ σ} {t : Task κ} {p : Pid} {n : Nat} (here : w.reachable = true)
    (spawned : w.spawn t = .ok (p, v)) (drives : v.Drives b (.ticks none) w' n) :
    Procedure.LeadsTo b w (.ofCode (.spawnAndRun t)) w' (.ok n) := by
  have starts {k : Option Pid → Procedure κ σ Nat} :
      Directive.step b w (.request (.spawn t)) k = .next v (k (some p)) := by
    simp only [Directive.step, Request.step, if_pos here, spawned]
  have asks {k : Nat → Procedure κ σ Nat} :
      Directive.step b v (.request (.drive .idle)) k = .drive v (.ticks none) k := rfl
  exact .next starts (.drive asks drives (.ret w' n))

/-- Ticks and steps of a task without messages and bindings whose continuations leave the world alone, if it is
spawned on an idle runtime while no other tick waits. The host runs until no tick waits, and runs as many ticks as
it takes to pay for the task; all of them but the last report the budget, and what they report comes to the cost
and one more step, for the end of the last turn. -/
theorem Built.accounts {t : Task κ} (built : Built b f t)
    (quiet : ∀ e ∈ built.eval.2, e.1.Quiet b e.2 (f e.1 e.2)) {w w₁ : World κ σ} {p : Pid}
    (here : w.reachable = true) (idle : w.isIdle = true) (ticks : w.host.ticks = [])
    (word : w.limit < UInt32.size - 1) (spawned : w.spawn t = .ok (p, w₁)) :
    ∃ (w' : World κ σ) (steps : List Nat) (n : Nat), Procedure.LeadsTo b w (.ofCode (.spawnAndRun t)) w' (.ok n) ∧
      n = (built.cost + w.limit - 1) / w.limit ∧ w'.ticks = w.ticks + n ∧
      w'.reports = w.reports ++ steps ∧ steps.length = n ∧ (∀ k ∈ steps.dropLast, k = w.limit) ∧
      steps.sum = built.cost + 1 := by
  obtain ⟨v, rfl, alone, limit, before, reports⟩ := World.spawn_alone here idle ticks spawned
  obtain ⟨ms, skipped, goes, past, entered, length, -⟩ := built.comes (.start none t) [] rfl
  -- The process comes to its outcome, in the middle of a tick.
  obtain ⟨-, still, stint⟩ := goes.stint (entered ▸ quiet) alone rfl
  obtain ⟨v₁, c, n, stint, steps⟩ := stint _ rfl
  obtain ⟨v₁, c, n, stint, more, same⟩ := stint.goes_on rfl still
  have outcome : Handler.next built.eval.1 (skipped ++ []) = none := by
    rw [past]
    cases built.eval.1 <;> rfl
  obtain ⟨w', drives, ticks', reports'⟩ := stint.drives alone rfl rfl more (limit.symm ▸ word) rfl outcome
  have cost : c * w.limit + n + 1 = built.cost := by
    rw [built.cost_eq, ← length, ← steps, ← same, limit]
  rw [limit] at more
  refine ⟨w', List.replicate c w.limit ++ [n + 2], c + 1, Code.leads_spawnAndRun here spawned drives, ?_, ?_, ?_,
    ?_, ?_, ?_⟩
  · -- The last tick has at least one step to do, and at most as many as the budget has.
    have whole : built.cost + w.limit - 1 = n + (c + 1) * w.limit := by
      rw [Nat.succ_mul, ← cost]
      omega
    have pos : 0 < w.limit := w.config.budget.property.1
    rw [whole, Nat.add_mul_div_right n (c + 1) pos, Nat.div_eq_of_lt more, Nat.zero_add]
  · rw [ticks', before]
  · rw [reports', reports, limit]
  · rw [List.length_append, List.length_replicate, List.length_singleton]
  · rw [List.dropLast_concat]
    exact fun k hk => List.eq_of_mem_replicate hk
  · rw [List.sum_append, List.sum_replicate_nat, List.sum_singleton, ← cost]
    rfl

/-- With two steps a tick the task is done in two ticks, though it takes four steps: the exit uses up the budget
of the second one, and the end of the turn is charged all the same. -/
theorem failing_accounts : ∃ w', Procedure.LeadsTo (.ofCallbacks repair)
    (.new { Config.standard with budget := .ofNat 2 } ()) (.ofCode (.spawnAndRun failing)) w' (.ok 2) ∧
      w'.reports = [2, 3] := by
  let f : Callback Bool → Value Bool → Task Bool
    | .code c, v => repair c v
    | _, v => .succeed v
  let built : Built (.ofCallbacks repair) f failing :=
    .onError (.andThen (.fail (.int 7)) (Yields.ofCallbacks repair false) fun v => .succeed (.ok v))
      (Yields.ofCallbacks repair true) fun v => .succeed (.err v)
  have quiet : ∀ e ∈ built.eval.2, e.1.Quiet (.ofCallbacks repair) e.2 (f e.1 e.2) := by
    intro e he
    obtain rfl := List.mem_singleton.1 he
    exact .of_code rfl
  have cost : built.cost = 4 := rfl
  obtain ⟨w', steps, n, leads, count, -, reports, length, full, sum⟩ := built.accounts quiet (p := ⟨1⟩)
    (w := .new { Config.standard with budget := .ofNat 2 } ()) rfl rfl rfl (by decide) rfl
  rw [cost] at count sum
  obtain rfl : n = 2 := count
  refine ⟨w', leads, reports.trans ?_⟩
  obtain ⟨k, l, rfl⟩ := List.length_eq_two.1 length
  obtain rfl : k = 2 := full k (List.mem_singleton.2 rfl)
  have sum : 2 + (l + 0) = 4 + 1 := sum
  obtain rfl : l = 3 := by omega
  rfl

end Actors
