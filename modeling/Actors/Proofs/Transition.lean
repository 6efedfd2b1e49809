/-
What one step of a machine does.

A step of a machine runs one operation of the code on top of the stack, takes one decision of a
tick or of a drive, or lets a process make one transition. `Transition` lists these with what each
of them does to the world, to the stack and to the processes, so that an invariant of machines has
one case to be proved for each of them and none of the functions that make up `Machine.step` has to
be opened again.

* `Machine.record` — the deeds that the next step does, `Machine.offer?`, what it hands in to call a
  binding off, and `Machine.calledOff?`, what it runs to do so;
* `Transition` — the kinds of step, and `Machine.transition`: each step is of one of them.
-/
import Actors.Proofs.Operation
import Actors.Proofs.Surroundings

namespace Actors

variable {κ σ α : Type}

open World

/-- What is written to the journal when a process exits. -/
def Event.ended (p : Pid) (label : Option String) : Except (Value κ) (Value κ) → Event κ
  | .ok v => .exited p label v
  | .error v => .failed p label v

/-- What a piece of running code is part of. -/
inductive Frame (κ σ : Type) : Type → Type 1 where
  | work : Frame κ σ Unit
  | callback (steps stepped : Nat) (p : Pid) : Frame κ σ (Task κ)
  | starting (steps stepped : Nat) (p : Pid) : Frame κ σ Unit

/-- The activity that a piece of code is. -/
def Frame.fill : Frame κ σ α → Pending κ σ α → Activity κ σ
  | .work, c => .work c
  | .callback steps stepped p, c => .tick steps stepped (.callback p c)
  | .starting steps stepped p, c => .tick steps stepped (.starting p c)

/-! ### The deeds of a step -/

/-- The deed of the timer that a drive fires, if it is one that wakes a process. A drive fires
timers only on its way to a point in time, and only when no tick waits. -/
def World.fired (w : World κ σ) : Goal → Record κ
  | .time limit =>
    match w.host.ticks, w.host.takeDue limit with
    | [], some (.wake t, _) => if w.reachable then w.resumed t (.succeed .unit) else []
    | _, _ => []
  | .ticks _ => []

/-- The deed of a process that has its turn, as long as there is budget left. -/
def World.turned (w : World κ σ) (steps : Nat) (p : Pid) : Record κ :=
  if w.limit ≤ steps then []
  else
    match (w.procs.get? p).bind Proc.move? with
    | some mv => [(p, .moved mv)]
    | none => []

/-- The deeds of the next step of an activity. -/
def Activity.record (w : World κ σ) : Activity κ σ → Record κ
  | .work (.run (.op d _)) => Directive.record w d
  | .tick _ _ (.callback _ (.run (.op d _))) => Directive.record w d
  | .tick _ _ (.callback p (.run (.ret t))) =>
    if w.procs.isAlive p then [(p, .returned t)] else []
  | .tick _ _ (.starting _ (.run (.op d _))) => Directive.record w d
  | .tick steps _ (.turn p) => w.turned steps p
  | .drive goal _ => w.fired goal
  | _ => []

/-- The deeds of the next step of a machine. -/
def Machine.record (m : Machine κ σ) : Record κ :=
  match m.fault, m.stack with
  | none, a :: _ => a.record m.world
  | _, _ => []

/-- The directive that the next step of an activity performs. -/
def Activity.directive? : Activity κ σ → Option (Directive κ σ)
  | .work (.run (.op d _)) => some d
  | .tick _ _ (.callback _ (.run (.op d _))) => some d
  | .tick _ _ (.starting _ (.run (.op d _))) => some d
  | _ => none

/-- The directive that the next step of a machine performs. -/
def Machine.directive? (m : Machine κ σ) : Option (Directive κ σ) :=
  match m.fault, m.stack with
  | none, a :: _ => a.directive?
  | _, _ => none

/-- What the next step of a machine hands in to call a binding off. -/
def Machine.offer? (m : Machine κ σ) : Option (Ticket × Cancel κ) :=
  m.directive?.bind (Directive.offer? m.world)

/-- What the next step of a machine runs to call a binding off. -/
def Machine.calledOff? (m : Machine κ σ) : Option (Cancel κ) :=
  m.directive?.bind (Directive.calledOff? m.world)

theorem Frame.offer?_fill (fr : Frame κ σ α) (w : World κ σ) (d : Directive κ σ)
    (k : d.Reply → Procedure κ σ α) (s : List (Activity κ σ)) :
    Machine.offer? ⟨w, fr.fill (.run (.op d k)) :: s, none⟩ = d.offer? w := by
  cases fr <;> rfl

theorem Frame.calledOff?_fill (fr : Frame κ σ α) (w : World κ σ) (d : Directive κ σ)
    (k : d.Reply → Procedure κ σ α) (s : List (Activity κ σ)) :
    Machine.calledOff? ⟨w, fr.fill (.run (.op d k)) :: s, none⟩ = d.calledOff? w := by
  cases fr <;> rfl

/-! ### The kinds of step -/

/-- Whether an activity is a tick of the scheduler. -/
def Activity.isTick : Activity κ σ → Bool
  | .tick .. => true
  | _ => false

/-- The process of which a continuation runs. -/
def Activity.calling? : Activity κ σ → Option Pid
  | .tick _ _ (.callback p _) => some p
  | _ => none

/-- The process that has its turn. -/
def Activity.turn? : Activity κ σ → Option Pid
  | .tick _ _ (.turn p) => some p
  | _ => none

/-- Two activities are the same but for the code that they run. -/
structure Activity.Like (a a' : Activity κ σ) : Prop where
  isTick : a'.isTick = a.isTick
  calling? : a'.calling? = a.calling?
  turn? : a'.turn? = a.turn?

theorem Frame.like (fr : Frame κ σ α) (c c' : Pending κ σ α) : (fr.fill c).Like (fr.fill c') := by
  cases fr <;> exact ⟨rfl, rfl, rfl⟩

theorem Activity.Like.refl (a : Activity κ σ) : a.Like a := ⟨rfl, rfl, rfl⟩

theorem Activity.like_resume (n : Nat) (a : Activity κ σ) : a.Like (a.resume n) := by
  unfold resume
  split <;> exact ⟨rfl, rfl, rfl⟩

variable (b : Behaviour κ σ)

/-- The ways in which an activity breaks a contract, each with the world in which that is noticed:
code raises a fault, a directive fails, or a timer wakes a process that does not wait for it. -/
inductive Breach (w : World κ σ) : Activity κ σ → World κ σ → Fault → Prop where
  | raised {α : Type} (fr : Frame κ σ α) (f : Fault) : Breach w (fr.fill (.run (.raise f))) w f
  | failed {α : Type} (fr : Frame κ σ α) {d : Directive κ σ} {k : d.Reply → Procedure κ σ α}
      {f : Fault} (h : d.step b w k = .fault f) : Breach w (fr.fill (.run (.op d k))) w f
  | woken {w' : World κ σ} {goal : Goal} {n : Nat} {t : Ticket} {f : Fault}
      (due : w.Due (.wake t) w') (h : w'.wake t = .error f) : Breach w (.drive goal n) w' f

/-- The kinds of step that a machine can make, each with its deeds. -/
inductive Transition : Machine κ σ → Record κ → Machine κ σ → Prop where
  /-- There is nothing to do. -/
  | rest (m : Machine κ σ) (idle : m.directive? = none) : Transition m [] m
  /-- An operation of code. -/
  | code {w w' : World κ σ} {s : List (Activity κ σ)} {α : Type} (fr : Frame κ σ α)
      {d : Directive κ σ} {k : d.Reply → Procedure κ σ α} {code : Procedure κ σ α}
      (h : d.step b w k = .next w' code) :
      Transition ⟨w, fr.fill (.run (.op d k)) :: s, none⟩ (d.record w)
        ⟨w', fr.fill (.run code) :: s, none⟩
  /-- Code asks for a drive of the host, and waits for it. -/
  | driving {w : World κ σ} {s : List (Activity κ σ)} {α : Type} (fr : Frame κ σ α)
      {d : Directive κ σ} {k : d.Reply → Procedure κ σ α} {goal : Goal}
      {k' : Nat → Procedure κ σ α} (h : d.step b w k = .drive w goal k') :
      Transition ⟨w, fr.fill (.run (.op d k)) :: s, none⟩ []
        ⟨w, .drive goal 0 :: fr.fill (.await k') :: s, none⟩
  /-- A contract is broken, by code or by a timer that wakes a process. -/
  | broken {w w' : World κ σ} {a a' : Activity κ σ} {s : List (Activity κ σ)} {f : Fault}
      (h : Agree w w') (ha : a.Like a') (cause : Breach b w a w' f) :
      Transition ⟨w, a :: s, none⟩ [] ⟨w', a' :: s, some f⟩
  | finished {w : World κ σ} {s : List (Activity κ σ)} {u : Unit} :
      Transition ⟨w, .work (.run (.ret u)) :: s, none⟩ [] ⟨w, s, none⟩
  /-- A process that is alive gets its turn. -/
  | picked {w w' : World κ σ} {s : List (Activity κ σ)} {n k : Nat} {p : Pid}
      (budget : n < w.limit) (h : w.dequeue = some (p, w')) (alive : w'.procs.isAlive p = true) :
      Transition ⟨w, .tick n k .seek :: s, none⟩ [] ⟨w', .tick n (k + 1) (.turn p) :: s, none⟩
  /-- A process that has died in the work queue is passed over. -/
  | skipped {w w' : World κ σ} {s : List (Activity κ σ)} {n k : Nat} {p : Pid}
      (budget : n < w.limit) (h : w.dequeue = some (p, w')) (dead : w'.procs.isAlive p = false) :
      Transition ⟨w, .tick n k .seek :: s, none⟩ [] ⟨w', .tick n k .seek :: s, none⟩
  | ended {w : World κ σ} {s : List (Activity κ σ)} {n k : Nat}
      (h : w.limit ≤ n ∨ w.queue = []) :
      Transition ⟨w, .tick n k .seek :: s, none⟩ [] ⟨w.endTick n k, s, none⟩
  /-- A turn is cut short. -/
  | preempted {w : World κ σ} {s : List (Activity κ σ)} {n k : Nat} {p : Pid}
      (budget : w.limit ≤ n) :
      Transition ⟨w, .tick n k (.turn p) :: s, none⟩ [] ⟨w.enqueue p, .tick n k .seek :: s, none⟩
  /-- A turn ends because the process cannot make a transition; looking for a message costs a
  step. -/
  | parked {w w' : World κ σ} {s : List (Activity κ σ)} {n k n' : Nat} {p : Pid}
      (budget : n < w.limit) (stuck : (w.procs.get? p).bind Proc.move? = none) (h : Agree w w')
      (beside : w'.surroundings = w.surroundings) :
      Transition ⟨w, .tick n k (.turn p) :: s, none⟩ [] ⟨w', .tick n' k .seek :: s, none⟩
  /-- A process puts a handler on its stack. -/
  | pushed {w w' : World κ σ} {s : List (Activity κ σ)} {n k : Nat} {p : Pid} {x : Proc κ}
      {mv : Move κ} {t : Task κ} (budget : n < w.limit) (hx : w.procs.get? p = some x)
      (can : x.move? = some mv) (h : Put w w' p (x.moved mv.task))
      (root : (x.moved mv.task).root = .ready t) (beside : w'.surroundings = w.surroundings) :
      Transition ⟨w, .tick n k (.turn p) :: s, none⟩ [(p, .moved mv)]
        ⟨w', .tick (n + 1) k (.turn p) :: s, none⟩
  /-- A process enters a continuation. -/
  | entered {w w' : World κ σ} {s : List (Activity κ σ)} {n k : Nat} {p : Pid} {x : Proc κ}
      {mv : Move κ} {c : Callback κ} {v : Value κ} (budget : n < w.limit)
      (hx : w.procs.get? p = some x) (can : x.move? = some mv) (h : Put w w' p (x.moved mv.task))
      (root : (x.moved mv.task).root = .stepping) (hc : mv.entered = some (c, v))
      (beside : w'.surroundings = w.surroundings) :
      Transition ⟨w, .tick n k (.turn p) :: s, none⟩ [(p, .moved mv)]
        ⟨w', .tick (n + 1) k (.callback p (.run (c.run b v))) :: s, none⟩
  /-- A process starts a binding, for which a ticket is issued. -/
  | started {w w' : World κ σ} {s : List (Activity κ σ)} {n k : Nat} {p : Pid} {x : Proc κ}
      {mv : Move κ} {g : Binding κ} (budget : n < w.limit)
      (hx : w.procs.get? p = some x) (can : x.move? = some mv) (h : Put w w' p (x.moved mv.task))
      (task : mv.task = .native g)
      (beside : w'.surroundings = { w.surroundings with
        tickets := (⟨p, x.binding + 1⟩, g.holder) :: w.tickets }) :
      Transition ⟨w, .tick n k (.turn p) :: s, none⟩ [(p, .moved mv)]
        ⟨w', .tick (n + 1) k (.starting p (.run (g.start b ⟨p, x.binding + 1⟩))) :: s, none⟩
  /-- A process exits. -/
  | exited {w w' : World κ σ} {s : List (Activity κ σ)} {n k : Nat} {p : Pid} {x : Proc κ}
      {mv : Move κ} {r : Except (Value κ) (Value κ)} (budget : n < w.limit)
      (hx : w.procs.get? p = some x) (can : x.move? = some mv) (h : Put w w' p (x.moved mv.task))
      (root : (x.moved mv.task).root = .dead) (hr : mv.outcome? = some r)
      (event : w'.journal.head?.map Entry.event = some (.ended p x.label r))
      (beside : w'.surroundings = w.surroundings) :
      Transition ⟨w, .tick n k (.turn p) :: s, none⟩ [(p, .moved mv)]
        ⟨w', .tick (chargeTurn (n + 1)) k .seek :: s, none⟩
  /-- A continuation returns the next task of its process, which is alive. -/
  | returned {w w' : World κ σ} {s : List (Activity κ σ)} {n k : Nat} {p : Pid} {x : Proc κ}
      {t : Task κ} (hx : w.procs.get? p = some x) (alive : x.isDead = false)
      (h : Put w w' p { x with root := .ready t }) (beside : w'.surroundings = w.surroundings) :
      Transition ⟨w, .tick n k (.callback p (.run (.ret t))) :: s, none⟩ [(p, .returned t)]
        ⟨w', .tick n k (.turn p) :: s, none⟩
  /-- A continuation returns after its process has been killed. -/
  | ignored {w : World κ σ} {s : List (Activity κ σ)} {n k : Nat} {p : Pid} {t : Task κ}
      (dead : w.procs.isAlive p = false) :
      Transition ⟨w, .tick n k (.callback p (.run (.ret t))) :: s, none⟩ []
        ⟨w, .tick (chargeTurn n) k .seek :: s, none⟩
  /-- The start of a binding is over, and with it the turn. -/
  | launched {w : World κ σ} {s : List (Activity κ σ)} {n k : Nat} {p : Pid} {u : Unit} :
      Transition ⟨w, .tick n k (.starting p (.run (.ret u))) :: s, none⟩ []
        ⟨w, .tick (chargeTurn n) k .seek :: s, none⟩
  /-- A drive begins a tick of the scheduler. -/
  | pumped {w : World κ σ} {s : List (Activity κ σ)} {ts : List (Tick κ)} {goal : Goal}
      {n n' : Nat} (h : w.host.ticks = .pump :: ts) (here : w.reachable = true) :
      Transition ⟨w, .drive goal n :: s, none⟩ []
        ⟨({ w with host := { w.host with ticks := ts } }).beginTick,
          .tick 0 0 .seek :: .drive goal n' :: s, none⟩
  /-- A tick of a runtime that is gone is lost. -/
  | lost {w : World κ σ} {s : List (Activity κ σ)} {ts : List (Tick κ)} {goal : Goal}
      {n n' : Nat} (h : w.host.ticks = .pump :: ts) (gone : w.reachable = false) :
      Transition ⟨w, .drive goal n :: s, none⟩ []
        ⟨{ w with host := { w.host with ticks := ts } }, .drive goal n' :: s, none⟩
  /-- A drive runs user code, which has been deferred or whose timer is due. -/
  | thunk {w w' : World κ σ} {s : List (Activity κ σ)} {goal : Goal} {n n' : Nat} {c : κ}
      (h : Agree w w')
      (cause : (∃ ts, w.host.ticks = .thunk c :: ts ∧
        w' = { w with host := { w.host with ticks := ts } }) ∨ w.Due (.thunk c) w') :
      Transition ⟨w, .drive goal n :: s, none⟩ []
        ⟨w', .work (.run (.invoke (.thunk c))) :: .drive goal n' :: s, none⟩
  /-- A drive fires a timer that may wake a process. -/
  | woken {w w' : World κ σ} {s : List (Activity κ σ)} {r : Record κ} {goal : Goal} {n n' : Nat}
      (h : Operation w r w') (cause : ∃ t w₁, w.Due (.wake t) w₁ ∧ w₁.wake t = .ok w' ∧
        r = if w₁.reachable then w₁.resumed t (.succeed .unit) else []) :
      Transition ⟨w, .drive goal n :: s, none⟩ r ⟨w', .drive goal n' :: s, none⟩
  /-- A drive is over. -/
  | driven {w w' : World κ σ} {s : List (Activity κ σ)} {goal : Goal} {n : Nat}
      (h : Agree w w')
      (clock : w' = w ∨ ∃ limit, w' = { w with host := { w.host with now := limit } }) :
      Transition ⟨w, .drive goal n :: s, none⟩ [] ⟨w', Machine.resumeTop n s, none⟩

namespace Breach

variable {b} {w w' : World κ σ} {a : Activity κ σ} {f : Fault}

/-- Before a breach at most a timer has been taken out of the host. -/
theorem world (h : Breach b w a w' f) : w' = w ∨ ∃ t, w.Due (.wake t) w' := by
  cases h with
  | raised fr f => exact .inl rfl
  | failed fr h => exact .inl rfl
  | woken due h => exact .inr ⟨_, due⟩

/-- Nothing is handed in by a step that breaks a contract. -/
theorem offer?_eq_none (h : Breach b w a w' f) (s : List (Activity κ σ)) :
    Machine.offer? ⟨w, a :: s, none⟩ = none := by
  cases h with
  | raised fr f => cases fr <;> rfl
  | failed fr h => rw [fr.offer?_fill, Directive.offer?_of_fault h]
  | woken due h => rfl

end Breach

namespace Machine

variable {b}

theorem transition_stepCode {w : World κ σ} {s : List (Activity κ σ)} (fr : Frame κ σ α)
    (d : Directive κ σ) (k : d.Reply → Procedure κ σ α) :
    Transition b ⟨w, fr.fill (.run (.op d k)) :: s, none⟩ (d.record w)
      (stepCode b w fr.fill s d k) := by
  unfold stepCode
  cases h : d.step b w k with
  | next w' code => exact .code fr h
  | drive w' goal k' =>
    obtain ⟨rfl, hd⟩ := Directive.of_drive h
    rw [hd]
    exact .driving fr h
  | fault f =>
    rw [Directive.record_of_fault h]
    exact .broken (.refl w) (fr.like _ _) (.failed fr h)

theorem transition_stepSeek (w : World κ σ) (n k : Nat) (s : List (Activity κ σ)) :
    Transition b ⟨w, .tick n k .seek :: s, none⟩ [] (stepSeek w n k s) := by
  unfold stepSeek
  split
  · next budget =>
    split
    · next p w' h =>
      split
      · next alive => exact .picked budget h alive
      · next dead => exact .skipped budget h (Bool.eq_false_iff.2 dead)
    · next h =>
      refine .ended (.inr ?_)
      unfold dequeue at h
      split at h
      · next hq => exact hq
      · cases h
  · next budget => exact .ended (.inl (Nat.le_of_not_lt budget))

theorem put_exit {w w₁ : World κ σ} {p : Pid} {x y : Proc κ} (h : Put w w₁ p y)
    (hy : { y with root := .dead, stack := [], mailbox := [] } = x.killed)
    (r : Except (Value κ) (Value κ)) :
    Put w ((w₁.modify p fun x => { x with stack := [] }).exit p r) p x.killed := by
  have h₂ : Put w (w₁.modify p fun x => { x with stack := [] }) p { y with stack := [] } :=
    h.put (put_modify h.self _)
  have hn : p.number < (w₁.modify p fun x => { x with stack := [] }).procs.nextNumber :=
    ProcTable.number_lt_of_get? h₂.self
  unfold World.exit
  rw [h₂.self, ← hy]
  exact (h₂.put (put_set _ hn)).agree (agree_note _ _)

theorem event_exit {w : World κ σ} {p : Pid} {y : Proc κ} (hy : w.procs.get? p = some y)
    (r : Except (Value κ) (Value κ)) :
    (w.exit p r).journal.head?.map Entry.event = some (.ended p y.label r) := by
  unfold World.exit
  rw [hy]
  cases r <;> rfl

theorem transition_stepOutcome {w w₁ : World κ σ} {s : List (Activity κ σ)} {n k : Nat} {p : Pid}
    {x : Proc κ} {mv : Move κ} {handler : Option (Callback κ × List (Handler κ))}
    {r : Except (Value κ) (Value κ)} (budget : n < w.limit)
    (hx : w.procs.get? p = some x) (can : x.move? = some mv)
    (h : Put w w₁ p { x with root := .stepping }) (beside : w₁.surroundings = w.surroundings)
    (moved : x.moved mv.task = x.handled handler)
    (entered : mv.entered = handler.map fun e =>
      (e.1, match r with | .ok v => v | .error v => v))
    (outcome : handler = none → mv.outcome? = some r) :
    Transition b ⟨w, .tick n k (.turn p) :: s, none⟩ [(p, .moved mv)]
      (stepOutcome b w₁ (n + 1) k s p handler r) := by
  unfold stepOutcome
  cases handler with
  | some e =>
    obtain ⟨c, stack⟩ := e
    have put : Put w (w₁.modify p fun x => { x with stack := stack }) p (x.moved mv.task) := by
      rw [moved]
      exact h.put (put_modify h.self _)
    exact .entered budget hx can put (by rw [moved]; rfl) entered (by simpa using beside)
  | none =>
    rw [Proc.handled] at moved
    refine .exited budget hx can ?_ (by rw [moved]; rfl) (outcome rfl) ?_ (by simpa using beside)
    · rw [moved]
      exact put_exit h rfl r
    · exact event_exit (put_modify h.self _).self r

/-- The turn of a process that cannot make a transition changes nothing, in the processes or beside
them. -/
theorem stepTurn_stuck {w : World κ σ} {n : Nat} {p : Pid} (k : Nat) (s : List (Activity κ σ))
    (budget : n < w.limit) (stuck : (w.procs.get? p).bind Proc.move? = none) :
    ∃ w' n', Agree w w' ∧ w'.surroundings = w.surroundings ∧
      stepTurn b w n k s p = ⟨w', .tick n' k .seek :: s, none⟩ := by
  unfold stepTurn
  rw [if_neg (Nat.not_le_of_lt budget)]
  cases hx : w.procs.get? p with
  | none => exact ⟨w, _, .refl w, rfl, rfl⟩
  | some x =>
    cases hr : x.root with
    | ready t =>
      rw [hx] at stuck
      obtain ⟨c, rfl, hm⟩ := Proc.move?_eq_none stuck hr
      simp only [hr, stepTask, hm]
      refine ⟨_, _, ?_, by simp, rfl⟩
      -- The task is taken from the root, and put back when the mailbox turns out to be empty.
      have taken : Put w (w.modify p fun x => { x with root := .stepping }) p
          { x with root := .stepping } := put_modify hx _
      have back := taken.put (put_modify taken.self fun x => { x with root := .ready (.receive c) })
      have same : ({ x with root := .ready (.receive c) } : Proc κ) = x := by rw [← hr]
      exact Put.same (same ▸ back) hx
    | stepping => exact ⟨w, _, .refl w, rfl, by simp only [hr]; rfl⟩
    | awaiting m c => exact ⟨w, _, .refl w, rfl, by simp only [hr]; rfl⟩
    | dead => exact ⟨w, _, .refl w, rfl, by simp only [hr]; rfl⟩

/-- What the scheduler sees of such a turn. -/
theorem stepTurn_of_stuck {w : World κ σ} {n : Nat} {p : Pid} (k : Nat) (s : List (Activity κ σ))
    (budget : n < w.limit) (stuck : (w.procs.get? p).bind Proc.move? = none) :
    ∃ w' n', Agree w w' ∧ stepTurn b w n k s p = ⟨w', .tick n' k .seek :: s, none⟩ := by
  obtain ⟨w', n', agree, -, turn⟩ := stepTurn_stuck (b := b) k s budget stuck
  exact ⟨w', n', agree, turn⟩

theorem transition_stepTurn (w : World κ σ) (n k : Nat) (s : List (Activity κ σ)) (p : Pid) :
    Transition b ⟨w, .tick n k (.turn p) :: s, none⟩ (w.turned n p) (stepTurn b w n k s p) := by
  -- The budget is checked before the process is looked at.
  by_cases cut : w.limit ≤ n
  · rw [turned, if_pos cut, stepTurn, if_pos cut]
    exact .preempted cut
  have budget : n < w.limit := Nat.lt_of_not_le cut
  rw [turned, if_neg cut]
  cases can : (w.procs.get? p).bind Proc.move? with
  | none =>
    obtain ⟨w', n', agree, beside, h⟩ := stepTurn_stuck (b := b) k s budget can
    rw [h]
    exact .parked budget can agree beside
  | some mv =>
    obtain ⟨x, hx, can⟩ := Option.bind_eq_some_iff.1 can
    have hr : x.root = .ready mv.task := Proc.root_of_move? can
    have h : Put w (w.modify p fun x => { x with root := .stepping }) p
        { x with root := .stepping } := put_modify hx _
    have beside : (w.modify p fun x => { x with root := .stepping }).surroundings =
        w.surroundings := surroundings_modify w p _
    have turn : stepTurn b w n k s p =
        stepTask b (w.modify p fun x => { x with root := .stepping }) (n + 1) k s p x mv.task := by
      unfold stepTurn
      rw [if_neg cut, hx]
      simp only [hr]
    rw [turn]
    -- The transition is given by the task: what it enters can be read off the stack and mailbox.
    have hmv := can
    rw [Proc.move?, hr] at hmv
    obtain ⟨t, entered⟩ := mv
    cases t with
    | succeed v =>
      obtain ⟨-, rfl⟩ := Move.mk.inj (Option.some.inj hmv)
      exact transition_stepOutcome budget hx can h beside rfl rfl fun e => by rw [e]; rfl
    | fail v =>
      obtain ⟨-, rfl⟩ := Move.mk.inj (Option.some.inj hmv)
      exact transition_stepOutcome budget hx can h beside rfl rfl fun e => by rw [e]; rfl
    | andThen t c => exact .pushed budget hx can (h.put (put_modify h.self _)) rfl (by simp)
    | onError t c => exact .pushed budget hx can (h.put (put_modify h.self _)) rfl (by simp)
    | receive c =>
      simp only [stepTask]
      cases hm : x.mailbox with
      | nil => simp only [hm, List.head?_nil, Option.map_none, reduceCtorEq] at hmv
      | cons v vs =>
        simp only [hm, List.head?_cons, Option.map_some, Option.some.injEq, Move.mk.injEq,
          true_and] at hmv
        refine .entered budget hx can ?_ rfl hmv.symm (by simp)
        rw [show x.moved (.receive c) = { x with root := .stepping, mailbox := vs } by
          rw [Proc.moved, hm]; rfl]
        exact h.put (put_modify h.self _)
    | native g =>
      simp only [stepTask, issue, h.self]
      refine .started budget hx can ?_ rfl ?_
      · have hn := ProcTable.number_lt_of_get? h.self
        exact (h.put (put_set _ hn)).agree ⟨fun _ => rfl, rfl, rfl, rfl, rfl⟩
      · rw [← beside]
        have tickets := congrArg Surroundings.tickets beside
        have tickets : (w.modify p fun x => { x with root := .stepping }).tickets = w.tickets :=
          tickets
        rw [← tickets]
        rfl

theorem transition_endCallback (w : World κ σ) (n k : Nat) (s : List (Activity κ σ)) (p : Pid)
    (t : Task κ) :
    Transition b ⟨w, .tick n k (.callback p (.run (.ret t))) :: s, none⟩
      (if w.procs.isAlive p then [(p, .returned t)] else []) (endCallback w n k s p t) := by
  unfold endCallback
  split
  · next h =>
    obtain ⟨x, hx, alive⟩ := ProcTable.isAlive_iff.1 h
    exact .returned hx alive (put_modify hx _) (by simp)
  · next h => exact .ignored (Bool.eq_false_iff.2 h)

theorem transition_beginTick {w : World κ σ} {s : List (Activity κ σ)} {goal : Goal}
    {n n' : Nat} {t : Tick κ} {h : Host κ} (ht : w.host.takeTick = some (t, h)) :
    Transition b ⟨w, .drive goal n :: s, none⟩ []
      (beginTick { w with host := h } (.drive goal n' :: s) t) := by
  unfold Host.takeTick at ht
  split at ht
  · cases ht
  · next t' ts hts =>
    obtain ⟨rfl, rfl⟩ := Prod.mk.inj (Option.some.inj ht)
    cases t' with
    | pump =>
      rw [beginTick]
      split
      · next here => exact .pumped hts here
      · next gone => exact .lost hts (Bool.eq_false_iff.2 gone)
    | thunk c =>
      have pumps : w.host.pumps = ts.countP Tick.isPump := by
        rw [Host.pumps, hts, List.countP_cons_of_neg (by simp [Tick.isPump])]
      exact .thunk ⟨fun _ => rfl, rfl, rfl, pumps.symm, rfl⟩ (.inl ⟨ts, hts, rfl⟩)

theorem agree_takeDue {w : World κ σ} {limit : Nat} {a : Alarm κ} {h : Host κ}
    (ha : w.host.takeDue limit = some (a, h)) : Agree w { w with host := h } := by
  unfold Host.takeDue at ha
  split at ha
  · cases ha
  · split at ha
    · obtain ⟨rfl, rfl⟩ := Prod.mk.inj (Option.some.inj ha)
      exact ⟨fun _ => rfl, rfl, rfl, rfl, rfl⟩
    · cases ha

theorem transition_fire {w w₁ : World κ σ} {s : List (Activity κ σ)} {goal : Goal}
    {n n' : Nat} {a : Alarm κ} (h : Agree w w₁) (due : w.Due a w₁) :
    Transition b ⟨w, .drive goal n :: s, none⟩
      (match a with
        | .wake t => if w₁.reachable then w₁.resumed t (.succeed .unit) else []
        | .thunk _ => [])
      (fire w₁ (.drive goal n' :: s) a) := by
  cases a with
  | thunk c => exact .thunk h (.inr due)
  | wake t =>
    simp only [fire]
    cases hw : w₁.wake t with
    | ok w₂ =>
      refine .woken ?_ ⟨t, w₁, due, hw, rfl⟩
      -- Without a runtime the timer fires and nothing happens.
      unfold wake at hw
      split at hw
      · next here =>
        rw [if_pos here]
        exact .after h (operation_resume hw)
      · next gone =>
        rw [if_neg gone]
        obtain rfl := Except.ok.inj hw
        exact .quiet h
    | error f =>
      -- A wake is refused by the table alone, so nothing is recorded for it.
      have hr : (if w₁.reachable then w₁.resumed t (.succeed .unit) else []) = [] := by
        unfold wake at hw
        split at hw
        · next here => rw [if_pos here, resumed_of_error hw]
        · cases hw
      rw [hr]
      exact .broken h ⟨rfl, rfl, rfl⟩ (.woken due hw)

theorem transition_stepDrive (w : World κ σ) (goal : Goal) (n : Nat) (s : List (Activity κ σ)) :
    Transition b ⟨w, .drive goal n :: s, none⟩ (w.fired goal) (stepDrive w goal n s) := by
  -- A drive of ticks fires no timers; a drive of time fires one only when no tick waits.
  cases goal with
  | ticks limit =>
    simp only [stepDrive, fired]
    split
    · split
      · next t h ht => exact transition_beginTick ht
      · exact .driven (.refl w) (.inl rfl)
    · exact .driven (.refl w) (.inl rfl)
  | time limit =>
    simp only [stepDrive, fired]
    cases hts : w.host.ticks with
    | cons t ts =>
      have ht : w.host.takeTick = some (t, { w.host with ticks := ts }) := by
        rw [Host.takeTick, hts]
      rw [ht]
      exact transition_beginTick ht
    | nil =>
      rw [show w.host.takeTick = none by rw [Host.takeTick, hts]]
      cases hd : w.host.takeDue limit with
      | none =>
        refine .driven ⟨fun _ => rfl, rfl, rfl, ?_, rfl⟩ (.inr ⟨limit, by simp only [hts]⟩)
        rw [Host.pumps, Host.pumps, hts]
      | some e =>
        obtain ⟨a, h⟩ := e
        have due : w.Due a { w with host := h } := ⟨limit, h, hd, rfl⟩
        have fired : Transition b ⟨w, .drive (.time limit) n :: s, none⟩ _
            (fire { w with host := h } (.drive (.time limit) (n + 1) :: s) a) :=
          transition_fire (agree_takeDue hd) due
        cases a with
        | wake t => exact fired
        | thunk c => exact fired

/-- Every step is of one of the kinds. -/
theorem transition (b : Behaviour κ σ) (m : Machine κ σ) :
    Transition b m m.record (m.step b) := by
  obtain ⟨w, stack, fault⟩ := m
  cases fault with
  | some f => exact .rest _ rfl
  | none =>
    cases stack with
    | nil => exact .rest _ rfl
    | cons a s =>
      rw [step, record]
      -- The record of a step is read off the activity on top in the same cases as the step
      -- itself.
      cases a with
      | work code =>
        cases code with
        | run code =>
          cases code with
          | ret u => exact .finished
          | raise f => exact .broken (.refl w) (.refl _) (.raised .work f)
          | op d k => exact transition_stepCode .work d k
        | await k => exact .rest _ rfl
      | tick n k phase =>
        cases phase with
        | seek => exact transition_stepSeek w n k s
        | turn p => exact transition_stepTurn w n k s p
        | callback p code =>
          cases code with
          | run code =>
            cases code with
            | ret t => exact transition_endCallback w n k s p t
            | raise f => exact .broken (.refl w) (.refl _) (.raised (.callback n k p) f)
            | op d k' => exact transition_stepCode (.callback n k p) d k'
          | await k' => exact .rest _ rfl
        | starting p code =>
          cases code with
          | run code =>
            cases code with
            | ret u => exact .launched
            | raise f => exact .broken (.refl w) (.refl _) (.raised (.starting n k p) f)
            | op d k' => exact transition_stepCode (.starting n k p) d k'
          | await k' => exact .rest _ rfl
      | drive goal n => exact transition_stepDrive w goal n s

end Machine

/-- What a step with a transition of a process leads to: the process has its next task, or one of
its continuations is run with the value that is passed on, or its binding is started, or it has
exited, which is written to the journal. -/
theorem Transition.of_moved {b : Behaviour κ σ} {m m' : Machine κ σ} {r : Record κ}
    (tr : Transition b m r m') {p : Pid} {mv : Move κ} (h : (p, .moved mv) ∈ r) :
    ∃ x, m.world.procs.get? p = some x ∧ x.move? = some mv ∧
      ((∃ t, (x.moved mv.task).root = .ready t) ∨
        (∃ c v n k s, mv.entered = some (c, v) ∧ (x.moved mv.task).root = .stepping ∧
          m'.stack = .tick n k (.callback p (.run (c.run b v))) :: s) ∨
        (∃ g n k s, mv.task = .native g ∧
          (x.moved mv.task).root = .awaiting (x.binding + 1) none ∧
          m'.stack = .tick n k (.starting p (.run (g.start b ⟨p, x.binding + 1⟩))) :: s) ∨
        (∃ o, mv.outcome? = some o ∧ (x.moved mv.task).root = .dead ∧
          m'.world.journal.head?.map Entry.event = some (.ended p x.label o))) := by
  -- A record of one deed names the process and the move.
  have own : ∀ {q : Pid} {mv' : Move κ}, (p, Deed.moved mv) ∈ [(q, Deed.moved mv')] →
      p = q ∧ mv = mv' := by
    intro q mv' hm
    obtain ⟨hp, hd⟩ := Prod.mk.inj (List.mem_singleton.1 hm)
    exact ⟨hp, Deed.moved.inj hd⟩
  cases tr with
  | code fr hd => cases (Directive.operation hd).isOwn_eq_false _ h
  | woken op => cases op.isOwn_eq_false _ h
  | pushed budget hx can h' root =>
    obtain ⟨rfl, rfl⟩ := own h
    exact ⟨_, hx, can, .inl ⟨_, root⟩⟩
  | entered budget hx can h' root hc =>
    obtain ⟨rfl, rfl⟩ := own h
    exact ⟨_, hx, can, .inr (.inl ⟨_, _, _, _, _, hc, root, rfl⟩)⟩
  | started budget hx can h' task =>
    obtain ⟨rfl, rfl⟩ := own h
    exact ⟨_, hx, can, .inr (.inr (.inl ⟨_, _, _, _, task, by rw [task]; rfl, rfl⟩))⟩
  | exited budget hx can h' root hr event =>
    obtain ⟨rfl, rfl⟩ := own h
    exact ⟨_, hx, can, .inr (.inr (.inr ⟨_, hr, root, event⟩))⟩
  | returned => cases List.mem_singleton.1 h
  | _ => cases h

/-- A process makes a transition in its turn. -/
theorem Transition.turn_of_moved {b : Behaviour κ σ} {m m' : Machine κ σ} {r : Record κ}
    (tr : Transition b m r m') {p : Pid} {mv : Move κ} (h : (p, .moved mv) ∈ r) :
    ∃ w n k s, m = ⟨w, .tick n k (.turn p) :: s, none⟩ := by
  have own : ∀ {q : Pid} {mv' : Move κ}, (p, Deed.moved mv) ∈ [(q, Deed.moved mv')] → p = q :=
    fun hm => (Prod.mk.inj (List.mem_singleton.1 hm)).1
  cases tr with
  | code fr hd => cases (Directive.operation hd).isOwn_eq_false _ h
  | woken op => cases op.isOwn_eq_false _ h
  | returned => cases List.mem_singleton.1 h
  | pushed =>
    obtain rfl := own h
    exact ⟨_, _, _, _, rfl⟩
  | entered =>
    obtain rfl := own h
    exact ⟨_, _, _, _, rfl⟩
  | started =>
    obtain rfl := own h
    exact ⟨_, _, _, _, rfl⟩
  | exited =>
    obtain rfl := own h
    exact ⟨_, _, _, _, rfl⟩
  | _ => cases h

/-- No code is on top then. -/
theorem Transition.still_of_moved {b : Behaviour κ σ} {m m' : Machine κ σ} {r : Record κ}
    (tr : Transition b m r m') {p : Pid} {mv : Move κ} (h : (p, .moved mv) ∈ r) :
    m.directive? = none := by
  obtain ⟨w, n, k, s, rfl⟩ := tr.turn_of_moved h
  rfl

/-- A transition that enters a continuation runs this continuation next, with the value that the
transition passes on. -/
theorem Transition.of_entered {b : Behaviour κ σ} {m m' : Machine κ σ} {r : Record κ}
    (tr : Transition b m r m') {p : Pid} {mv : Move κ} {c : Callback κ} {v : Value κ}
    (h : (p, .moved mv) ∈ r) (hc : mv.entered = some (c, v)) :
    ∃ n k s, m'.stack = .tick n k (.callback p (.run (c.run b v))) :: s := by
  obtain ⟨x, -, can, moved⟩ := tr.of_moved h
  rw [(Proc.moves can).root_of_entered hc] at moved
  -- Of the four things a transition leads to, the root says which one it is.
  rcases moved with ⟨t, root⟩ | ⟨c', v', n, k, s, hc', -, stack⟩ | ⟨g, n, k, s, -, root, -⟩ |
    ⟨o, -, root, -⟩
  · cases root
  · obtain ⟨rfl, rfl⟩ := Prod.mk.inj (Option.some.inj (hc.symm.trans hc'))
    exact ⟨n, k, s, stack⟩
  · cases root
  · cases root

theorem Machine.step_of_entered {b : Behaviour κ σ} {m : Machine κ σ} {p : Pid} {mv : Move κ}
    {c : Callback κ} {v : Value κ} (h : (p, .moved mv) ∈ m.record) (hc : mv.entered = some (c, v)) :
    ∃ n k s, (m.step b).stack = .tick n k (.callback p (.run (c.run b v))) :: s :=
  (Machine.transition b m).of_entered h hc

/-- A transition that reaches a binding starts it next, with the ticket that has been issued. -/
theorem Transition.of_native {b : Behaviour κ σ} {m m' : Machine κ σ} {r : Record κ}
    (tr : Transition b m r m') {p : Pid} {mv : Move κ} {g : Binding κ} (h : (p, .moved mv) ∈ r)
    (hg : mv.task = .native g) :
    ∃ x n k s, m.world.procs.get? p = some x ∧ x.move? = some mv ∧
      m'.stack = .tick n k (.starting p (.run (g.start b ⟨p, x.binding + 1⟩))) :: s := by
  obtain ⟨x, hx, can, moved⟩ := tr.of_moved h
  have waits : (x.moved mv.task).root = .awaiting (x.binding + 1) none := by rw [hg]; rfl
  rw [waits] at moved
  rcases moved with ⟨t, root⟩ | ⟨c, v, n, k, s, -, root, -⟩ | ⟨g', n, k, s, hg', -, stack⟩ |
    ⟨o, -, root, -⟩
  · cases root
  · cases root
  · obtain rfl := Task.native.inj (hg.symm.trans hg')
    exact ⟨x, n, k, s, hx, can, stack⟩
  · cases root

theorem Machine.step_of_native {b : Behaviour κ σ} {m : Machine κ σ} {p : Pid} {mv : Move κ}
    {g : Binding κ} (h : (p, .moved mv) ∈ m.record) (hg : mv.task = .native g) :
    ∃ x n k s, m.world.procs.get? p = some x ∧ x.move? = some mv ∧
      (m.step b).stack = .tick n k (.starting p (.run (g.start b ⟨p, x.binding + 1⟩))) :: s :=
  (Machine.transition b m).of_native h hg

/-- A transition by which a process exits is written to the journal, with its outcome. -/
theorem Machine.event_of_outcome {b : Behaviour κ σ} {m : Machine κ σ} {p : Pid} {mv : Move κ}
    {o : Except (Value κ) (Value κ)} (h : (p, .moved mv) ∈ m.record) (ho : mv.outcome? = some o) :
    ∃ label, (m.step b).world.journal.head?.map Entry.event = some (.ended p label o) := by
  obtain ⟨x, -, can, moved⟩ := (Machine.transition b m).of_moved h
  rw [(Proc.moves can).root_of_outcome ho] at moved
  rcases moved with ⟨t, root⟩ | ⟨c', v', n, k, s, -, root, -⟩ | ⟨g, n, k, s, -, root, -⟩ |
    ⟨o', ho', -, event⟩
  · cases root
  · cases root
  · cases root
  · obtain rfl := Option.some.inj (ho.symm.trans ho')
    exact ⟨x.label, event⟩

/-- What a step does to one process the process does not do itself; or it is a transition of the
process, or the return of one of its continuations. -/
theorem Transition.own {b : Behaviour κ σ} {m m' : Machine κ σ} {r : Record κ}
    (tr : Transition b m r m') (p : Pid) :
    (∀ d ∈ r.of p, d.isOwn = false) ∨ (∃ mv, r.of p = [.moved mv]) ∨
      ∃ t n k s, r.of p = [.returned t] ∧ m.fault = none ∧
        m.stack = .tick n k (.callback p (.run (.ret t))) :: s := by
  -- Four kinds of step record one transition; whether it is of this process is all that is asked.
  have moved : ∀ (q : Pid) (mv : Move κ), (∀ d ∈ Record.of [(q, .moved mv)] p, d.isOwn = false) ∨
      ∃ mv', Record.of [(q, .moved mv)] p = [.moved mv'] := by
    intro q mv
    rw [Record.of_singleton]
    split
    · exact .inr ⟨mv, rfl⟩
    · exact .inl nofun
  cases tr with
  | code fr hd =>
    exact .inl fun d h => (Directive.operation hd).isOwn_eq_false _ (Record.mem_of.1 h)
  | woken op => exact .inl fun d h => op.isOwn_eq_false _ (Record.mem_of.1 h)
  | pushed budget hx can h root => exact (moved _ _).imp_right .inl
  | entered budget hx can h root hc => exact (moved _ _).imp_right .inl
  | started budget hx can h task => exact (moved _ _).imp_right .inl
  | exited budget hx can h root hr event => exact (moved _ _).imp_right .inl
  | @returned w w' s n k q x t hx alive h =>
    rw [Record.of_singleton]
    split
    · next hq => exact .inr (.inr ⟨t, n, k, s, rfl, rfl, by rw [← hq]⟩)
    · exact .inl nofun
  | _ => exact .inl nofun

end Actors
