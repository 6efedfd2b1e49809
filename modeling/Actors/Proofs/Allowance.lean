/-
The step budget of a tick.

A tick charges each transition and the end of each turn, unless the turn is cut short; taking a dead
process out of the work queue is free. A transition is only begun while there is budget left, so a
tick cannot spend more than its budget but for the end of its last turn. The counter grows with every
turn, so a tick comes to its end if the code comes to its end that it runs.

* `Verdict`, `Machine.verdict?`, `Machine.transits` — how a turn ends, and what a tick charges;
* `Machine.step_tick` — what one step of a tick does to its counter;
* `Spent` — what a tick has spent so far, and `Spent.step`: every step of the tick preserves it;
* `Machine.Obliging` — the code that a tick runs comes to its end, and `Machine.Obliging.over`: then so
  does the tick;
* `Reachable.tick_within_budget` — what a tick spends, and how it ends.
-/
import Actors.Proofs.Overtaking
import Mathlib.Data.Nat.Find

namespace Actors

variable {κ σ : Type} {b : Behaviour κ σ}

open World Activity

/-! ### What is charged -/

/-- How a turn ends: the process cannot go on, or it has exited, or the budget is used up. -/
inductive Verdict where
  | blocked
  | exited
  | preempted
deriving DecidableEq

/-- Whether a turn that ends like this is charged. -/
def Verdict.isCharged : Verdict → Bool
  | .preempted => false
  | _ => true

/-- How a transition ends the turn, if it does so at once. -/
def Proc.verdict? (x : Proc κ) : Task κ → Option Verdict
  | .succeed _ => if (Handler.nextSuccess x.stack).isSome then none else some .exited
  | .fail _ => if (Handler.nextFailure x.stack).isSome then none else some .exited
  | .receive _ => if x.mailbox.isEmpty then some .blocked else none
  | _ => none

theorem Proc.verdict?_ne_preempted (x : Proc κ) (t : Task κ) : x.verdict? t ≠ some .preempted := by
  cases t <;> simp only [Proc.verdict?]
  all_goals first | split <;> simp | simp

/-- The process that has its turn, and the task that it is about to make a transition with. Looking for
a message is a transition, whether there is one or not. -/
def World.ready? (w : World κ σ) (p : Pid) : Option (Proc κ × Task κ) :=
  match w.procs.get? p with
  | none => none
  | some x =>
    match x.root with
    | .ready t => some (x, t)
    | _ => none

namespace Activity

/-- Whether the next step of an activity is a transition of a process. -/
def transits (w : World κ σ) : Activity κ σ → Bool
  | .tick n _ (.turn p) => n < w.limit && (w.ready? p).isSome
  | _ => false

/-- How the next step of an activity ends a turn, if it does. -/
def verdict? (w : World κ σ) : Activity κ σ → Option Verdict
  | .tick n _ (.turn p) =>
    if w.limit ≤ n then some .preempted
    else
      match w.ready? p with
      | none => some .blocked
      | some (x, t) => x.verdict? t
  | .tick _ _ (.callback p (.run (.ret _))) => if w.procs.isAlive p then none else some .blocked
  | .tick _ _ (.starting _ (.run (.ret _))) => some .blocked
  | _ => none

end Activity

namespace Machine

/-- Whether the next step is a transition of a process. -/
def transits (m : Machine κ σ) : Bool :=
  match m.fault, m.stack with
  | none, a :: _ => a.transits m.world
  | _, _ => false

/-- How the next step ends a turn, if it does. -/
def verdict? (m : Machine κ σ) : Option Verdict :=
  match m.fault, m.stack with
  | none, a :: _ => a.verdict? m.world
  | _, _ => none

/-- Whether the next step ends a turn other than by cutting it short. -/
def yields (m : Machine κ σ) : Bool :=
  m.verdict?.any Verdict.isCharged

/-- What a tick is charged for the next step. -/
def charge (m : Machine κ σ) : Nat :=
  m.transits.toNat + m.yields.toNat

end Machine

/-- Nothing that is not a tick is charged. -/
theorem Machine.charge_of_not_tick {w : World κ σ} {a : Activity κ σ} {s : List (Activity κ σ)}
    {f : Option Fault} (h : a.isTick = false) :
    (⟨w, a :: s, f⟩ : Machine κ σ).transits = false ∧
      (⟨w, a :: s, f⟩ : Machine κ σ).yields = false := by
  cases a with
  | tick n k phase => cases h
  | _ => cases f <;> exact ⟨rfl, rfl⟩

/-- Every task that a process consumes is a transition. -/
theorem Machine.transits_of_moved (b : Behaviour κ σ) {m : Machine κ σ} {p : Pid} {mv : Move κ}
    (h : (p, .moved mv) ∈ m.record) : m.transits = true := by
  have tr := transition b m
  generalize m.step b = m' at tr
  generalize m.record = r at tr h
  have turn : ∀ {w : World κ σ} {n k : Nat} {q : Pid} {s : List (Activity κ σ)} {x : Proc κ}
      {mv' : Move κ}, n < w.limit → w.procs.get? q = some x → x.move? = some mv' →
      (⟨w, .tick n k (.turn q) :: s, none⟩ : Machine κ σ).transits = true := by
    intro w n k q s x mv' budget hx can
    show (decide (n < w.limit) && (w.ready? q).isSome) = true
    rw [decide_eq_true budget, World.ready?, hx]
    simp only [Proc.root_of_move? can, Option.isSome_some, Bool.and_self]
  cases tr with
  | code fr hd => cases (Directive.operation hd).isOwn_eq_false _ h
  | woken op => cases op.isOwn_eq_false _ h
  | pushed budget hx can => exact turn budget hx can
  | entered budget hx can => exact turn budget hx can
  | started budget hx can => exact turn budget hx can
  | exited budget hx can => exact turn budget hx can
  | returned => cases List.mem_singleton.1 h
  | _ => cases h

/-! ### One step of a tick -/

/-- Whether a tick is between two turns. -/
def Phase.isSeek : Phase κ σ → Bool
  | .seek => true
  | _ => false

namespace Machine

variable {w : World κ σ} {s : List (Activity κ σ)} {n k : Nat} {p : Pid}

/-- A transition ends the turn, or the turn goes on. -/
theorem stepTask_cases (b : Behaviour κ σ) (w : World κ σ) (n k : Nat) (s : List (Activity κ σ))
    (p : Pid) (x : Proc κ) (t : Task κ) :
    ((x.verdict? t).any Verdict.isCharged = true ∧ ∃ w', stepTask b w n k s p x t = endTurn w' n k s) ∨
      ((x.verdict? t).any Verdict.isCharged = false ∧ ∃ w' phase, phase.isSeek = false ∧
        stepTask b w n k s p x t = ⟨w', .tick n k phase :: s, none⟩) := by
  -- An outcome is where both kinds meet: a handler of its kind takes the turn on, and without one
  -- the process exits.
  have outcome : ∀ (handler : Option (Callback κ × List (Handler κ))) (r : Except (Value κ) (Value κ)),
      (handler.isSome = false ∧ ∃ w', stepOutcome b w n k s p handler r = endTurn w' n k s) ∨
        (handler.isSome = true ∧ ∃ w' phase, phase.isSeek = false ∧
          stepOutcome b w n k s p handler r = ⟨w', .tick n k phase :: s, none⟩) := by
    intro handler r
    cases handler with
    | some e => exact .inr ⟨rfl, _, .callback p _, rfl, rfl⟩
    | none => exact .inl ⟨rfl, _, rfl⟩
  cases t with
  | succeed v =>
    rw [Proc.verdict?]
    rcases outcome (Handler.nextSuccess x.stack) (.ok v) with ⟨unhandled, past⟩ | ⟨handled, under⟩
    · exact .inl ⟨by rw [unhandled]; rfl, past⟩
    · exact .inr ⟨by rw [handled]; rfl, under⟩
  | fail v =>
    rw [Proc.verdict?]
    rcases outcome (Handler.nextFailure x.stack) (.error v) with ⟨unhandled, past⟩ | ⟨handled, under⟩
    · exact .inl ⟨by rw [unhandled]; rfl, past⟩
    · exact .inr ⟨by rw [handled]; rfl, under⟩
  | andThen t c => exact .inr ⟨rfl, _, .turn p, rfl, rfl⟩
  | onError t c => exact .inr ⟨rfl, _, .turn p, rfl, rfl⟩
  | receive c =>
    rw [stepTask, Proc.verdict?]
    cases x.mailbox with
    | nil => exact .inl ⟨rfl, _, rfl⟩
    | cons v vs => exact .inr ⟨rfl, _, .callback p _, rfl, rfl⟩
  | native g => exact .inr ⟨rfl, _, .starting p _, rfl, rfl⟩

/-- A turn with budget left goes on, or it is over; either way something is charged. -/
theorem step_turn (b : Behaviour κ σ) (w : World κ σ) (n k : Nat) (p : Pid)
    (s : List (Activity κ σ)) (budget : n < w.limit) :
    ∃ w' n' phase, Machine.step b ⟨w, .tick n k (.turn p) :: s, none⟩ =
        ⟨w', .tick n' k phase :: s, none⟩ ∧ n < n' ∧
      n' = min (n + (⟨w, .tick n k (.turn p) :: s, none⟩ : Machine κ σ).charge) (UInt32.size - 1) ∧
      phase.isSeek = (⟨w, .tick n k (.turn p) :: s, none⟩ : Machine κ σ).yields := by
  have word : w.limit < UInt32.size := w.config.budget.property.2
  have cut : ¬ w.limit ≤ n := Nat.not_le.2 budget
  have transits : (⟨w, .tick n k (.turn p) :: s, none⟩ : Machine κ σ).transits = (w.ready? p).isSome := by
    show (decide (n < w.limit) && _) = _
    rw [decide_eq_true budget, Bool.true_and]
  have verdict : (⟨w, .tick n k (.turn p) :: s, none⟩ : Machine κ σ).verdict? =
      match w.ready? p with
      | none => some .blocked
      | some (x, t) => x.verdict? t := if_neg cut
  rw [charge, yields, transits, verdict]
  -- A process that is dead, or has no task ready, is no work for the turn: `ready?` says which.
  have step : Machine.step b ⟨w, .tick n k (.turn p) :: s, none⟩ =
      match w.ready? p with
      | none => endTurn w n k s
      | some (x, t) =>
        stepTask b (w.modify p fun x => { x with root := .stepping }) (n + 1) k s p x t := by
    show stepTurn b w n k s p = _
    rw [stepTurn, if_neg cut, World.ready?]
    cases w.procs.get? p with
    | none => rfl
    | some x => cases hx : x.root <;> simp only [hx]
  rw [step]
  cases w.ready? p with
  | none => exact ⟨w, chargeTurn n, .seek, rfl, by rw [chargeTurn]; omega, rfl, rfl⟩
  | some e =>
    rcases stepTask_cases b (w.modify p fun x => { x with root := .stepping }) (n + 1) k s p e.1 e.2
      with ⟨past, w', h⟩ | ⟨under, w', phase, going, h⟩
    · exact ⟨w', chargeTurn (n + 1), .seek, h, by rw [chargeTurn]; omega,
        by simp only [past]; rfl, by simp only [past]; rfl⟩
    · exact ⟨w', n + 1, phase, h, Nat.lt_succ_self n,
        by simp only [under]; show n + 1 = min (n + 1) _; omega, by simp only [under]; exact going⟩

end Machine

/-- What a step of a tick does to its counter. Transitions are made within the budget, and turns begin
within it; when a turn ends the tick is between two turns. -/
structure Charged (m : Machine κ σ) (n n' : Nat) (phase phase' : Phase κ σ) : Prop where
  count : n' = min (n + m.charge) (UInt32.size - 1)
  begins : m.transits = true → n < m.world.limit ∧ phase.isSeek = false
  ends : m.yields = true → phase'.isSeek = true ∧ phase.isSeek = false
  picks : phase.isSeek = true → phase'.isSeek = false → n < m.world.limit

theorem Charged.free {m : Machine κ σ} {n : Nat} {phase phase' : Phase κ σ}
    (word : n ≤ UInt32.size - 1) (transits : m.transits = false) (yields : m.yields = false)
    (picks : phase.isSeek = true → phase'.isSeek = false → n < m.world.limit) :
    Charged m n n phase phase' where
  count := by
    rw [Machine.charge, transits, yields]
    show n = min n _
    omega
  begins := fun h => by cases transits.symm.trans h
  ends := fun h => by cases yields.symm.trans h
  picks := picks

theorem Charged.end {m : Machine κ σ} {n : Nat} {phase : Phase κ σ} (transits : m.transits = false)
    (yields : m.yields = true) (within : phase.isSeek = false) :
    Charged m n (chargeTurn n) phase .seek where
  count := by rw [Machine.charge, transits, yields, chargeTurn, Bool.toNat_false, Bool.toNat_true, Nat.zero_add]
  begins := fun h => by cases transits.symm.trans h
  ends := fun _ => ⟨rfl, within⟩
  picks := fun _ h => by cases h

/-- Code that runs stays where it is, perhaps under a drive of the host. -/
theorem Machine.stack_stepCode {α : Type} (b : Behaviour κ σ) (w : World κ σ)
    (frame : Pending κ σ α → Activity κ σ) (s : List (Activity κ σ)) (d : Directive κ σ)
    (k : d.Reply → Procedure κ σ α) :
    ∃ above c, (stepCode b w frame s d k).stack = above ++ frame c :: s ∧ ticksOf above = 0 := by
  unfold stepCode
  split
  · exact ⟨[], _, rfl, rfl⟩
  · exact ⟨[.drive _ 0], _, rfl, rfl⟩
  · exact ⟨[], _, rfl, rfl⟩

namespace Machine

variable {w : World κ σ} {n : Nat}

/-- A tick on top goes on with its next step, perhaps under a drive of the host. -/
def TicksOn (b : Behaviour κ σ) (w : World κ σ) (n k : Nat) (phase : Phase κ σ) (s : List (Activity κ σ)) :
    Prop :=
  ∃ above n' k' phase', (Machine.step b ⟨w, .tick n k phase :: s, none⟩).stack =
      above ++ .tick n' k' phase' :: s ∧ ticksOf above = 0 ∧
    Charged ⟨w, .tick n k phase :: s, none⟩ n n' phase phase'

theorem ticksOn_turn (b : Behaviour κ σ) (k : Nat) (p : Pid) (s : List (Activity κ σ))
    (word : n ≤ UInt32.size - 1) : TicksOn b w n k (.turn p) s := by
  by_cases cut : w.limit ≤ n
  · have free : (⟨w, .tick n k (.turn p) :: s, none⟩ : Machine κ σ).yields = false := by
      show (if w.limit ≤ n then some Verdict.preempted else _).any _ = _
      rw [if_pos cut]
      rfl
    have still : (⟨w, .tick n k (.turn p) :: s, none⟩ : Machine κ σ).transits = false := by
      show (decide (n < w.limit) && _) = _
      rw [decide_eq_false (Nat.not_lt.2 cut), Bool.false_and]
    refine ⟨[], n, k, .seek, ?_, rfl, .free word still free fun h => by cases h⟩
    show (stepTurn b w n k s p).stack = _
    rw [stepTurn, if_pos cut]
    rfl
  · have budget : n < w.limit := Nat.not_le.1 cut
    obtain ⟨w', n', phase', step, -, count, seek⟩ := step_turn b w n k p s budget
    rw [TicksOn, step]
    exact ⟨[], n', k, phase', rfl, rfl, count, fun _ => ⟨budget, rfl⟩, fun yields =>
      ⟨seek.trans yields, rfl⟩, fun h => by cases h⟩

/-- Code that returns is the one case in which a callback can end the turn: its process may have been killed by
what the callback did. -/
theorem ticksOn_callback (b : Behaviour κ σ) (k : Nat) (p : Pid) (code : Pending κ σ (Task κ))
    (s : List (Activity κ σ)) (word : n ≤ UInt32.size - 1) : TicksOn b w n k (.callback p code) s := by
  have off : ∀ q : Prop, (Phase.callback p code).isSeek = true → q := fun q h => by cases h
  cases code with
  | await k' => exact ⟨[], n, k, .callback p (.await k'), rfl, rfl, .free word rfl rfl (off _)⟩
  | run code =>
    cases code with
    | ret t =>
      by_cases alive : w.procs.isAlive p = true
      · have step : Machine.step b ⟨w, .tick n k (.callback p (.run (.ret t))) :: s, none⟩ = _ :=
          if_pos alive
        have free : (⟨w, .tick n k (.callback p (.run (.ret t))) :: s, none⟩ : Machine κ σ).verdict? =
          none := if_pos alive
        rw [TicksOn, step]
        exact ⟨[], n, k, .turn p, rfl, rfl, .free word rfl (by rw [yields, free]; rfl) (off _)⟩
      · have step : Machine.step b ⟨w, .tick n k (.callback p (.run (.ret t))) :: s, none⟩ = _ :=
          if_neg alive
        have past : (⟨w, .tick n k (.callback p (.run (.ret t))) :: s, none⟩ : Machine κ σ).verdict? =
          some .blocked := if_neg alive
        rw [TicksOn, step]
        exact ⟨[], chargeTurn n, k, .seek, rfl, rfl, .end rfl (by rw [yields, past]; rfl) rfl⟩
    | raise f => exact ⟨[], n, k, .callback p (.run (.raise f)), rfl, rfl, .free word rfl rfl (off _)⟩
    | op d k' =>
      obtain ⟨above, c, stack, quiet⟩ := stack_stepCode b w (fun c => .tick n k (.callback p c)) s d k'
      exact ⟨above, n, k, .callback p c, stack, quiet, .free word rfl rfl (off _)⟩

theorem ticksOn_starting (b : Behaviour κ σ) (k : Nat) (p : Pid) (code : Pending κ σ Unit)
    (s : List (Activity κ σ)) (word : n ≤ UInt32.size - 1) : TicksOn b w n k (.starting p code) s := by
  have off : ∀ q : Prop, (Phase.starting p code).isSeek = true → q := fun q h => by cases h
  cases code with
  | await k' => exact ⟨[], n, k, .starting p (.await k'), rfl, rfl, .free word rfl rfl (off _)⟩
  | run code =>
    cases code with
    | ret u => exact ⟨[], chargeTurn n, k, .seek, rfl, rfl, .end rfl rfl rfl⟩
    | raise f => exact ⟨[], n, k, .starting p (.run (.raise f)), rfl, rfl, .free word rfl rfl (off _)⟩
    | op d k' =>
      obtain ⟨above, c, stack, quiet⟩ := stack_stepCode b w (fun c => .tick n k (.starting p c)) s d k'
      exact ⟨above, n, k, .starting p c, stack, quiet, .free word rfl rfl (off _)⟩

/-- One step of a tick: the tick is over, or it goes on. -/
theorem step_tick (b : Behaviour κ σ) (w : World κ σ) (n k : Nat) (phase : Phase κ σ)
    (s : List (Activity κ σ)) (word : n ≤ UInt32.size - 1) :
    (phase.isSeek = true ∧ (w.limit ≤ n ∨ w.queue = []) ∧
      Machine.step b ⟨w, .tick n k phase :: s, none⟩ = ⟨w.endTick n k, s, none⟩) ∨
    TicksOn b w n k phase s := by
  cases phase with
  | turn p => exact .inr (ticksOn_turn b k p s word)
  | callback p code => exact .inr (ticksOn_callback b k p code s word)
  | starting p code => exact .inr (ticksOn_starting b k p code s word)
  | seek =>
    show (_ ∧ _ ∧ stepSeek w n k s = _) ∨ ∃ above n' k' phase', (stepSeek w n k s).stack = _ ∧ _
    unfold stepSeek
    by_cases budget : n < w.limit
    · rw [if_pos budget]
      cases hq : w.queue with
      | nil => exact .inl ⟨rfl, .inr rfl, by rw [dequeue, hq]⟩
      | cons p rest =>
        obtain ⟨w', hd, -, -⟩ := dequeue_of_cons hq
        rw [hd]
        right
        -- The queue may name a process that has exited since; it is passed over and not charged.
        by_cases alive : w'.procs.isAlive p = true
        · simp only [if_pos alive]
          exact ⟨[], n, _, .turn p, rfl, rfl, .free word rfl rfl fun _ _ => budget⟩
        · simp only [if_neg alive]
          exact ⟨[], n, _, .seek, rfl, rfl, .free word rfl rfl fun _ _ => budget⟩
    · rw [if_neg budget]
      exact .inl ⟨rfl, .inl (Nat.not_lt.1 budget), rfl⟩

end Machine

/-! ### What is above a tick -/

/-- The activity on top of a stack that is no tick comes to its end, or goes on with others above it,
as long as no tick begins. -/
theorem Transition.above {w : World κ σ} {a : Activity κ σ} {s : List (Activity κ σ)}
    {f : Option Fault} {m' : Machine κ σ} {r : Record κ}
    (tr : Transition b ⟨w, a :: s, f⟩ r m') (quiet : a.isTick = false)
    (alone : ticksOf m'.stack ≤ ticksOf s) :
    (∃ n, m'.stack = Machine.resumeTop n s) ∨
      ∃ above, ticksOf above = 0 ∧ m'.stack = above ++ s := by
  cases tr with
  | rest => exact .inr ⟨[a], by rw [ticksOf_skip quiet]; rfl, rfl⟩
  | code fr hd =>
    cases fr with
    | work => exact .inr ⟨[_], rfl, rfl⟩
    | _ => cases quiet
  | driving fr hd =>
    cases fr with
    | work => exact .inr ⟨[.drive _ 0, .work _], rfl, rfl⟩
    | _ => cases quiet
  | @broken _ _ _ a' _ _ agree like =>
    exact .inr ⟨[a'], by rw [ticksOf_skip (like.isTick.trans quiet)]; rfl, rfl⟩
  | finished => exact .inr ⟨[], rfl, rfl⟩
  -- Another tick above this one is what `alone` excludes.
  | pumped =>
    rw [ticksOf_tick, ticksOf_skip rfl] at alone
    omega
  | lost => exact .inr ⟨[.drive _ _], rfl, rfl⟩
  | thunk => exact .inr ⟨[.work _, .drive _ _], rfl, rfl⟩
  | woken => exact .inr ⟨[.drive _ _], rfl, rfl⟩
  | driven => exact .inl ⟨_, rfl⟩
  | _ => cases quiet

/-- A drive that is over leaves a tick below it where it is. -/
theorem Activity.resume_tick (i n k : Nat) (phase : Phase κ σ) :
    ∃ phase', (Activity.tick n k phase).resume i = .tick n k phase' ∧ phase'.isSeek = phase.isSeek := by
  unfold Activity.resume
  split
  · next h => cases h
  · next h => cases h; exact ⟨_, rfl, rfl⟩
  · next h => cases h; exact ⟨_, rfl, rfl⟩
  · exact ⟨_, rfl, rfl⟩

namespace World

theorem limit_arm (w : World κ σ) : w.arm.limit = w.limit := by
  unfold arm
  split <;> rfl

theorem limit_enqueue (w : World κ σ) (p : Pid) : (w.enqueue p).limit = w.limit := by
  unfold enqueue
  split
  · rfl
  · split
    · rfl
    · exact limit_arm _

theorem limit_dequeue {w w' : World κ σ} {p : Pid} (h : w.dequeue = some (p, w')) :
    w'.limit = w.limit := by
  obtain ⟨w₁, hd, -, limit⟩ := dequeue_of_cons (queue_dequeue h)
  obtain ⟨-, rfl⟩ := Prod.mk.inj (Option.some.inj (h.symm.trans hd))
  exact limit

theorem limit_endTick (w : World κ σ) (n k : Nat) : (w.endTick n k).limit = w.limit := by
  simp only [endTick]
  split <;> rfl

end World

theorem Operation.limit {w w' : World κ σ} {r : Record κ} (op : Operation w r w') :
    w'.limit = w.limit := by
  induction op with
  | quiet h => exact h.limit
  | dropped v dead h => exact h.limit
  | sent v hx alive h => exact (limit_enqueue _ _).trans h.limit
  | spawned label t hx h => exact (limit_enqueue _ _).trans h.limit
  | killed hx alive h => exact h.limit
  | completed t hx awaiting h => exact (limit_enqueue _ _).trans h.limit
  | attached hx awaiting h => exact h.limit
  | seq _ _ ih ih' => exact ih'.trans ih

/-- The budget of a runtime does not change. -/
theorem Transition.limit {m m' : Machine κ σ} {r : Record κ} (tr : Transition b m r m') :
    m'.world.limit = m.world.limit := by
  cases tr with
  | rest => rfl
  | code fr hd => exact (Directive.operation hd).limit
  | driving => rfl
  | broken agree => exact agree.limit
  | finished => rfl
  | picked budget hd => exact limit_dequeue hd
  | skipped budget hd => exact limit_dequeue hd
  | ended => exact limit_endTick _ _ _
  | preempted => exact limit_enqueue _ _
  | parked budget stuck agree => exact agree.limit
  | pushed budget hx can put => exact put.limit
  | entered budget hx can put => exact put.limit
  | started budget hx can put => exact put.limit
  | exited budget hx can put => exact put.limit
  | returned hx alive put => exact put.limit
  | ignored => rfl
  | launched => rfl
  | pumped => rfl
  | lost => rfl
  | thunk agree => exact agree.limit
  | woken op => exact op.limit
  | driven agree => exact agree.limit

/-! ### A whole tick -/

/-- What a tick above `s` has spent when it has passed the machines `ms`: its counter stands at what
has been charged, within a word of 32 bits, and that is no more than the budget, but for the end of its
last turn. -/
structure Spent (s : List (Activity κ σ)) (ms : List (Machine κ σ)) (m : Machine κ σ) : Prop where
  place : ∃ above n k phase, m.stack = above ++ .tick n k phase :: s ∧ ticksOf above = 0 ∧
    n = min (ms.countP Machine.transits + ms.countP Machine.yields) (UInt32.size - 1) ∧
    (phase.isSeek = false →
      ms.countP Machine.transits + ms.countP Machine.yields ≤ m.world.limit)
  transits : ms.countP Machine.transits ≤ m.world.limit
  total : ms.countP Machine.transits + ms.countP Machine.yields ≤ m.world.limit + 1

namespace Spent

variable {s : List (Activity κ σ)} {m : Machine κ σ} {ms : List (Machine κ σ)}

theorem begin {k : Nat} (h : m.stack = .tick 0 k .seek :: s) : Spent s [] m where
  place := ⟨[], 0, k, .seek, h, rfl, rfl, fun _ => Nat.zero_le _⟩
  transits := Nat.zero_le _
  total := Nat.zero_le _

/-- A counter below the budget has not been cut off. -/
theorem uncut {n c : Nat} (count : n = min c (UInt32.size - 1)) (budget : n < m.world.limit) :
    c = n := by
  have word : m.world.limit < UInt32.size := m.world.config.budget.property.2
  omega

theorem countP_snoc (p : Machine κ σ → Bool) :
    (ms ++ [m]).countP p = ms.countP p + (p m).toNat := by
  rw [List.countP_append, List.countP_singleton]
  cases p m <;> rfl

/-- A step of the tick is added to what has been spent. -/
theorem add {m' : Machine κ σ} {n n' : Nat} {phase phase' : Phase κ σ} (h : Spent s ms m)
    (above : List (Activity κ σ)) (k : Nat)
    (count : n = min (ms.countP Machine.transits + ms.countP Machine.yields) (UInt32.size - 1))
    (within : phase.isSeek = false →
      ms.countP Machine.transits + ms.countP Machine.yields ≤ m.world.limit)
    (charged : Charged m n n' phase phase') (limit : m'.world.limit = m.world.limit)
    (stack : m'.stack = above ++ .tick n' k phase' :: s) (quiet : ticksOf above = 0) :
    Spent s (ms ++ [m]) m' := by
  -- A transition is made below the budget only, and a turn ends where what it took was within it.
  have moves : m.transits = true →
      ms.countP Machine.transits + ms.countP Machine.yields < m.world.limit := fun ht =>
    (uncut count (charged.begins ht).1).symm ▸ (charged.begins ht).1
  have ends : m.yields = true →
      ms.countP Machine.transits + ms.countP Machine.yields ≤ m.world.limit := fun hy =>
    within (charged.ends hy).2
  have late : m.yields.toNat ≤ 1 := Bool.toNat_le _
  refine ⟨⟨above, n', k, phase', stack, quiet, ?_, fun seek => ?_⟩, ?_, ?_⟩
  · have count' := charged.count
    rw [Machine.charge] at count'
    rw [countP_snoc, countP_snoc]
    omega
  · have goes : m.yields = false := Bool.eq_false_iff.2 fun hy => by
      cases seek.symm.trans (charged.ends hy).1
    rw [countP_snoc, countP_snoc, limit, goes]
    cases ht : m.transits with
    | true =>
      have := moves ht
      simp only [Bool.toNat_true, Bool.toNat_false]
      omega
    | false =>
      cases hp : phase.isSeek with
      | true =>
        have budget := charged.picks hp seek
        exact (uncut count budget).symm ▸ Nat.le_of_lt budget
      | false => exact within hp
  · rw [countP_snoc, limit]
    cases ht : m.transits with
    | true => exact Nat.lt_of_le_of_lt (Nat.le_add_right _ _) (moves ht)
    | false => exact h.transits
  · rw [countP_snoc, countP_snoc, limit]
    cases ht : m.transits with
    | true =>
      have := moves ht
      simp only [Bool.toNat_true]
      omega
    | false =>
      cases hy : m.yields with
      | true => exact Nat.succ_le_succ (ends hy)
      | false => exact h.total

/-- Every step of the tick but its last keeps to the budget. -/
theorem step (h : Spent s ms m) (alone : ticksOf (m.step b).stack ≤ 1)
    (still : (m.step b).stack ≠ s) : Spent s (ms ++ [m]) (m.step b) := by
  have tr := Machine.transition b m
  have limit := tr.limit
  obtain ⟨above, n, k, phase, stack, quiet, count, within⟩ := h.place
  obtain ⟨w, stack', fault⟩ := m
  cases (stack : stack' = _)
  have word : n ≤ UInt32.size - 1 := count ▸ Nat.min_le_right _ _
  have same : ∀ {phase' : Phase κ σ}, phase'.isSeek = phase.isSeek →
      phase.isSeek = true → phase'.isSeek = false → n < w.limit := fun eq seek off => by
    cases off.symm.trans (eq.trans seek)
  cases fault with
  | some f => exact h.add _ k count within (.free word rfl rfl (same rfl)) rfl rfl quiet
  | none =>
    cases above with
    | nil =>
      rcases Machine.step_tick b w n k phase s word with ⟨-, -, past⟩ |
        ⟨above, n', k', phase', stack', quiet', charged⟩
      · exact absurd (congrArg Machine.stack past) still
      · exact h.add above k' count within charged limit stack' quiet'
    | cons a above =>
      -- What runs above the tick is not charged to it.
      have idle := List.countP_eq_zero.1 quiet
      have off : a.isTick = false := Bool.eq_false_iff.2 (idle a List.mem_cons_self)
      have rest : ticksOf above = 0 := List.countP_eq_zero.2 fun a' ha =>
        idle a' (List.mem_cons_of_mem _ ha)
      obtain ⟨transits, yields⟩ := Machine.charge_of_not_tick (w := w)
        (s := above ++ .tick n k phase :: s) (f := none) off
      have below : ticksOf (above ++ .tick n k phase :: s) = ticksOf s + 1 := by
        rw [ticksOf_append, rest, ticksOf_tick, Nat.zero_add]
      have one : 1 ≤ ticksOf (above ++ .tick n k phase :: s) := below ▸ Nat.succ_pos _
      rcases tr.above off (Nat.le_trans alone one) with ⟨j, stack'⟩ | ⟨above', quiet', stack'⟩
      · cases above with
        | nil =>
          obtain ⟨phase', resumed, seek⟩ := resume_tick j n k phase
          refine h.add [] k count within (.free word transits yields (same seek)) limit ?_ rfl
          rw [stack', ← resumed]
          rfl
        | cons a' above =>
          refine h.add (a'.resume j :: above) k count within
            (.free word transits yields (same rfl)) limit stack' ?_
          exact (ticksOf_like (like_resume j a') above).trans rest
      · refine h.add (above' ++ above) k count within
          (.free word transits yields (same rfl)) limit ?_ ?_
        · rw [stack', List.append_assoc]
          rfl
        · rw [ticksOf_append, quiet', rest]

/-- A step of the tick's own activity is made with nothing above it. -/
theorem eq_of_tick {n k : Nat} {phase : Phase κ σ} {s' : List (Activity κ σ)} (h : Spent s ms m)
    (stack : m.stack = .tick n k phase :: s') :
    s' = s ∧ n = min (ms.countP Machine.transits + ms.countP Machine.yields) (UInt32.size - 1) := by
  obtain ⟨above, n', k', phase', place, quiet, count, -⟩ := h.place
  rw [stack] at place
  cases above with
  | nil =>
    obtain ⟨same, rfl⟩ := List.cons.inj place
    obtain ⟨rfl, -, -⟩ := Activity.tick.inj same
    exact ⟨rfl, count⟩
  | cons a above =>
    obtain ⟨rfl, -⟩ := List.cons.inj place
    exact absurd rfl (List.countP_eq_zero.1 quiet _ List.mem_cons_self)

end Spent

/-- A tick above `s` is under way after a number of steps. -/
def Machine.Underway (b : Behaviour κ σ) (s : List (Activity κ σ)) (m : Machine κ σ) (i : Nat) : Prop :=
  ∀ j ≤ i, (Machine.run b j m).stack ≠ s

namespace Machine

variable {s : List (Activity κ σ)} {m : Machine κ σ}

theorem run_succ (b : Behaviour κ σ) (i : Nat) (m : Machine κ σ) :
    run b (i + 1) m = (run b i m).step b :=
  run_add b i 1 m

theorem passed_succ (b : Behaviour κ σ) (i : Nat) (m : Machine κ σ) :
    passed b (i + 1) m = passed b i m ++ [run b i m] := by
  induction i generalizing m with
  | zero => rfl
  | succ i ih => rw [passed, ih, run]; rfl

theorem spent (h : Reachable b m) (stack : m.stack = .tick 0 0 .seek :: s) (i : Nat)
    (under : m.Underway b s i) : Spent s (passed b i m) (run b i m) := by
  induction i with
  | zero => exact .begin stack
  | succ i ih =>
    have before := ih fun j hj => under j (Nat.le_succ_of_le hj)
    have still := under (i + 1) (Nat.le_refl _)
    have sound : (run b (i + 1) m).world.SoundWith (run b (i + 1) m).stack := (h.run (i + 1)).sound
    have alone := Nat.le_trans (Nat.le_add_left _ _) sound.pumps
    rw [run_succ] at still alone
    rw [passed_succ, run_succ]
    exact before.step alone still

end Machine

/-! ### The end of a tick -/

/-- Code of a process comes to its end. -/
inductive Phase.Returns : Phase κ σ → Phase κ σ → Prop where
  | callback (p : Pid) (code : Pending κ σ (Task κ)) (t : Task κ) :
      Returns (.callback p code) (.callback p (.run (.ret t)))
  | starting (p : Pid) (code : Pending κ σ Unit) :
      Returns (.starting p code) (.starting p (.run (.ret ())))

/-- The code that a tick above `s` runs comes to its end, unless a contract is broken. -/
def Machine.Obliging (b : Behaviour κ σ) (s : List (Activity κ σ)) (m : Machine κ σ) : Prop :=
  ∀ i n k phase phase', m.Underway b s i → phase.Returns phase' →
    (Machine.run b i m).stack = .tick n k phase :: s → ∃ j, (Machine.run b (i + j) m).fault ≠ none ∨
      ∃ phase', phase.Returns phase' ∧ (Machine.run b (i + j) m).stack = .tick n k phase' :: s

namespace Machine

variable {s : List (Activity κ σ)} {m : Machine κ σ}

/-- A tick above `s` is over at some time, or a contract is broken. -/
def Finishes (b : Behaviour κ σ) (s : List (Activity κ σ)) (m : Machine κ σ) : Prop :=
  ∃ i, (run b i m).fault ≠ none ∨ (run b i m).stack = s

theorem Finishes.of_run {i : Nat} (h : (run b i m).Finishes b s) : m.Finishes b s := by
  obtain ⟨j, past⟩ := h
  rw [← run_add] at past
  exact ⟨i + j, past⟩

theorem Finishes.of_step (h : (m.step b).Finishes b s) : m.Finishes b s :=
  Finishes.of_run (i := 1) h

namespace Obliging

theorem later (h : m.Obliging b s) {i : Nat} (under : m.Underway b s i) :
    (Machine.run b i m).Obliging b s := by
  intro j n k phase phase' under' code stack
  rw [← run_add] at stack
  have all : m.Underway b s (i + j) := fun l hl => by
    rcases Nat.le_total l i with low | high
    · exact under l low
    · have := under' (l - i) (by omega)
      rwa [← run_add, Nat.add_sub_cancel' high] at this
  obtain ⟨l, past⟩ := h (i + j) n k phase phase' all code stack
  refine ⟨l, ?_⟩
  rwa [← run_add, ← Nat.add_assoc]

end Obliging

/-- A tick that is not over ends if it ends from one of its later moments on. -/
theorem ends_of_run {i : Nat} (h : m.Obliging b s)
    (after : (run b i m).Obliging b s → (run b i m).Finishes b s) : m.Finishes b s := by
  by_cases under : m.Underway b s i
  · exact .of_run (after (h.later under))
  · rw [Underway] at under
    push Not at under
    obtain ⟨j, -, past⟩ := under
    exact ⟨j, .inr past⟩

theorem limit_run (b : Behaviour κ σ) (i : Nat) (m : Machine κ σ) :
    (run b i m).world.limit = m.world.limit := by
  induction i with
  | zero => rfl
  | succ i ih =>
    rw [run_succ]
    exact (transition b _).limit.trans ih

variable {w : World κ σ} {n k : Nat}

/-- Without budget left a tick that is between two turns is over. -/
theorem ends_seek (h : w.limit ≤ n) : (⟨w, .tick n k .seek :: s, none⟩ : Machine κ σ).Finishes b s := by
  refine ⟨1, .inr ?_⟩
  show (stepSeek w n k s).stack = s
  rw [stepSeek, if_neg (Nat.not_lt.2 h)]

/-- A turn without budget left is cut short, and the tick is over. -/
theorem step_cut {p : Pid} (b : Behaviour κ σ) (h : w.limit ≤ n) :
    Machine.step b ⟨w, .tick n k (.turn p) :: s, none⟩ = ⟨w.enqueue p, .tick n k .seek :: s, none⟩ :=
  if_pos h

/-- When its code comes to its end a tick goes on with a turn, or the turn is over. -/
theorem ends_code {phase phase' : Phase κ σ} (code : phase.Returns phase')
    (turn : ∀ (w' : World κ σ) p, w'.limit = w.limit →
      Obliging b s ⟨w', .tick n k (.turn p) :: s, none⟩ → Finishes b s ⟨w', .tick n k (.turn p) :: s, none⟩)
    (seek : ∀ w' : World κ σ, w'.limit = w.limit →
      Obliging b s ⟨w', .tick (chargeTurn n) k .seek :: s, none⟩ →
      Finishes b s ⟨w', .tick (chargeTurn n) k .seek :: s, none⟩)
    (h : Obliging b s ⟨w, .tick n k phase :: s, none⟩) : Finishes b s ⟨w, .tick n k phase :: s, none⟩ := by
  -- No step has been made yet, so `s` is not reached before the moment asked for.
  have under : (⟨w, .tick n k phase :: s, none⟩ : Machine κ σ).Underway b s 0 := fun i hi => by
    obtain rfl := Nat.le_zero.1 hi
    exact List.cons_ne_self _ _
  obtain ⟨j, past⟩ := h 0 n k phase phase' under code rfl
  rw [Nat.zero_add] at past
  -- Either a contract is broken on the way, and that is an end, or the code is at its return and
  -- one step takes the tick to `turn` or to `seek`.
  by_cases broken : (run b j ⟨w, .tick n k phase :: s, none⟩).fault = none
  · obtain ⟨phase'', back, stack⟩ := past.resolve_left fun h => h broken
    have limit := limit_run b j ⟨w, .tick n k phase :: s, none⟩
    refine ends_of_run (i := j + 1) h fun h => ?_
    rw [run_succ] at h ⊢
    generalize run b j ⟨w, .tick n k phase :: s, none⟩ = m' at h broken stack limit ⊢
    obtain ⟨w', stack', fault⟩ := m'
    cases (broken : fault = none)
    cases (stack : stack' = _)
    cases back with
    | callback p code t =>
      by_cases alive : w'.procs.isAlive p = true
      · have step : Machine.step b ⟨w', .tick n k (.callback p (.run (.ret t))) :: s, none⟩ =
            ⟨w'.modify p fun x => { x with root := .ready t }, .tick n k (.turn p) :: s, none⟩ :=
          if_pos alive
        have same := (transition b ⟨w', .tick n k (.callback p (.run (.ret t))) :: s, none⟩).limit
        rw [step] at h same ⊢
        exact turn _ p (same.trans limit) h
      · have step : Machine.step b ⟨w', .tick n k (.callback p (.run (.ret t))) :: s, none⟩ =
            ⟨w', .tick (chargeTurn n) k .seek :: s, none⟩ := if_neg alive
        rw [step]
        exact seek w' limit (step ▸ h)
    | starting p code => exact seek w' limit h
  · exact ⟨j, .inl broken⟩

/-- A tick whose budget is used up ends if its code does. -/
theorem Obliging.ends_late {phase : Phase κ σ} (late : w.limit ≤ n)
    (h : Obliging b s ⟨w, .tick n k phase :: s, none⟩) : Finishes b s ⟨w, .tick n k phase :: s, none⟩ := by
  have word : w.limit < UInt32.size := w.config.budget.property.2
  have turn : ∀ (w' : World κ σ) p, w'.limit = w.limit →
      Finishes b s ⟨w', .tick n k (.turn p) :: s, none⟩ := by
    intro w' p same
    refine .of_step ?_
    rw [step_cut b (same ▸ late)]
    exact ends_seek ((limit_enqueue w' p).trans same ▸ late)
  have seek : ∀ w' : World κ σ, w'.limit = w.limit →
      Finishes b s ⟨w', .tick (chargeTurn n) k .seek :: s, none⟩ := by
    intro w' same
    refine ends_seek ?_
    rw [same, chargeTurn]
    omega
  -- Nothing is left for a transition, so whatever phase the tick is in leads to a `seek` that
  -- ends it.
  cases phase with
  | seek => exact ends_seek late
  | turn p => exact turn w p rfl
  | callback p code =>
    exact ends_code (.callback p code (.succeed .unit)) (fun w' p same _ => turn w' p same)
      (fun w' same _ => seek w' same) h
  | starting p code =>
    exact ends_code (.starting p code) (fun w' p same _ => turn w' p same)
      (fun w' same _ => seek w' same) h

/-- A tick that is between two turns takes processes out of the queue until one of them is alive. -/
theorem Obliging.ends_between (queue : List Pid) : ∀ w : World κ σ, w.queue = queue → n < w.limit →
    (∀ (w' : World κ σ) k p, w'.limit = w.limit → Obliging b s ⟨w', .tick n k (.turn p) :: s, none⟩ →
      Finishes b s ⟨w', .tick n k (.turn p) :: s, none⟩) →
    Obliging b s ⟨w, .tick n k .seek :: s, none⟩ → Finishes b s ⟨w, .tick n k .seek :: s, none⟩ := by
  -- The budget does not fall while dead processes are passed over, so the induction is on the
  -- queue.
  induction queue with
  | nil =>
    intro w hq budget turn h
    refine .of_step ⟨0, .inr ?_⟩
    show (stepSeek w n k s).stack = s
    rw [stepSeek, if_pos budget, dequeue, hq]
  | cons p queue ih =>
    intro w hq budget turn h
    obtain ⟨w', hd, rest, same⟩ := dequeue_of_cons hq
    have step : Machine.step b ⟨w, .tick n k .seek :: s, none⟩ =
        if w'.procs.isAlive p then ⟨w', .tick n (k + 1) (.turn p) :: s, none⟩
        else ⟨w', .tick n k .seek :: s, none⟩ := by
      show stepSeek w n k s = _
      rw [stepSeek, if_pos budget, hd]
    refine ends_of_run (i := 1) h fun h => ?_
    rw [Machine.run, Machine.run, step] at h ⊢
    by_cases alive : w'.procs.isAlive p = true
    · rw [if_pos alive] at h ⊢
      exact turn w' _ p same h
    · rw [if_neg alive] at h ⊢
      exact ih w' rest (same ▸ budget) (fun w'' k p same' => turn w'' k p (same'.trans same)) h

/-- A tick ends if its code does, by induction on the budget that is left. -/
theorem Obliging.ends_of_le (d : Nat) : ∀ (w : World κ σ) (n k : Nat) (phase : Phase κ σ),
    w.limit ≤ n + d → Obliging b s ⟨w, .tick n k phase :: s, none⟩ →
      Finishes b s ⟨w, .tick n k phase :: s, none⟩ := by
  induction d with
  | zero => exact fun w n k phase late h => h.ends_late late
  | succ d ih =>
    intro w n k phase left h
    rcases Nat.lt_or_ge n w.limit with budget | late
    · have word : w.limit < UInt32.size := w.config.budget.property.2
      -- Both a turn and the end of one are charged; this is where the budget that is left falls.
      have turn : ∀ (w' : World κ σ) k p, w'.limit = w.limit →
          Obliging b s ⟨w', .tick n k (.turn p) :: s, none⟩ →
          Finishes b s ⟨w', .tick n k (.turn p) :: s, none⟩ := by
        intro w' k p same h
        obtain ⟨w'', n', phase', step, more, -⟩ := step_turn b w' n k p s (same ▸ budget)
        have limit := (transition b ⟨w', .tick n k (.turn p) :: s, none⟩).limit
        refine ends_of_run (i := 1) h fun h => ?_
        rw [Machine.run, Machine.run, step] at h ⊢
        rw [step] at limit
        exact ih w'' n' k phase' (by have : w''.limit = w'.limit := limit; omega) h
      have seek : ∀ w' : World κ σ, w'.limit = w.limit →
          Obliging b s ⟨w', .tick (chargeTurn n) k .seek :: s, none⟩ →
          Finishes b s ⟨w', .tick (chargeTurn n) k .seek :: s, none⟩ :=
        fun w' same => ih w' _ k .seek (by rw [chargeTurn]; omega)
      cases phase with
      | seek => exact Obliging.ends_between w.queue w rfl budget turn h
      | turn p => exact turn w k p rfl h
      | callback p code =>
        exact ends_code (.callback p code (.succeed .unit)) (fun w' p => turn w' k p) seek h
      | starting p code => exact ends_code (.starting p code) (fun w' p => turn w' k p) seek h
    · exact h.ends_late late

/-- A tick that has begun and whose code comes to its end takes a last step, unless a contract is
broken before. -/
theorem Obliging.last (stack : m.stack = .tick 0 0 .seek :: s) (whole : m.fault = none)
    (h : m.Obliging b s) :
    ∃ i, m.Underway b s i ∧ ((run b i m).fault ≠ none ∨ ((run b i m).step b).stack = s) := by
  -- The first moment at which the tick is over; before it the stack is never `s`.
  classical
  have ends : m.Finishes b s := by
    obtain ⟨w, stack', fault⟩ := m
    cases (whole : fault = none)
    cases (stack : stack' = _)
    exact Obliging.ends_of_le w.limit w 0 0 .seek (Nat.le_add_left _ _) h
  have before : ∀ j < Nat.find ends, (run b j m).stack ≠ s := fun j hj past =>
    Nat.find_min ends hj (.inr past)
  have first := Nat.find_spec ends
  cases hi : Nat.find ends with
  | zero =>
    rw [hi] at first
    rcases first with broken | past
    · exact absurd whole broken
    -- It cannot be the moment the tick begins: the tick itself is then on the stack.
    · exact absurd (stack.symm.trans past) (List.cons_ne_self _ _)
  | succ i =>
    rw [hi] at first before
    have under : m.Underway b s i := fun j hj => before j (Nat.lt_succ_of_le hj)
    rw [run_succ] at first
    by_cases past : ((run b i m).step b).stack = s
    · exact ⟨i, under, .inr past⟩
    · refine ⟨i + 1, fun j hj => ?_, .inl ?_⟩
      · rcases Nat.lt_or_eq_of_le hj with earlier | rfl
        · exact before j earlier
        · rw [run_succ]
          exact past
      · rw [run_succ]
        exact first.resolve_right past

/-- A turn is cut short when the budget is used up, and then the tick is over. -/
theorem step_of_preempted (h : m.verdict? = some .preempted) :
    ∃ n k phase s, m.stack = .tick n k phase :: s ∧ ((m.step b).step b).stack = s := by
  obtain ⟨w, stack, fault⟩ := m
  cases fault with
  | some f => cases h
  | none =>
    cases stack with
    | nil => cases h
    | cons a s =>
      cases a with
      | tick n k phase =>
        cases phase with
        | turn p =>
          by_cases cut : w.limit ≤ n
          · refine ⟨n, k, _, s, rfl, ?_⟩
            rw [step_cut b cut]
            show (stepSeek _ n k s).stack = s
            rw [stepSeek, if_neg (Nat.not_lt.2 ((limit_enqueue w _).symm ▸ cut))]
          · have verdict : (⟨w, .tick n k (.turn p) :: s, none⟩ : Machine κ σ).verdict? = _ := if_neg cut
            rw [verdict] at h
            split at h
            · cases h
            · exact absurd h (Proc.verdict?_ne_preempted _ _)
        | seek => cases h
        | callback p code =>
          cases code with
          | await k => cases h
          | run code =>
            cases code with
            | ret t =>
              have h : (if w.procs.isAlive p then none else some Verdict.blocked) = some .preempted := h
              split at h <;> cases h
            | _ => cases h
        | starting p code =>
          cases code with
          | await k => cases h
          | run code => cases code <;> cases h
      | _ => cases h

/-- The last step of a tick: the budget is used up, or the queue is empty. -/
theorem step_of_over {ms : List (Machine κ σ)} (spent : Spent s ms m) (past : (m.step b).stack = s) :
    ∃ n k, m.stack = .tick n k .seek :: s ∧ (m.world.limit ≤ n ∨ m.world.queue = []) ∧
      m.step b = ⟨m.world.endTick n k, s, none⟩ := by
  have tr := transition b m
  obtain ⟨above, n, k, phase, stack, quiet, count, -⟩ := spent.place
  have word : n ≤ UInt32.size - 1 := count ▸ Nat.min_le_right _ _
  -- A stack does not lose more than its topmost activity.
  have short : ∀ above' (a : Activity κ σ), above' ++ a :: s ≠ s := fun above' a same => by
    have := congrArg List.length same
    simp only [List.length_append, List.length_cons] at this
    omega
  obtain ⟨w, stack', fault⟩ := m
  cases (stack : stack' = _)
  cases fault with
  | some f => exact absurd past (short above _)
  | none =>
    cases above with
    | nil =>
      rcases step_tick b w n k phase s word with ⟨seek, used, step⟩ | ⟨above, n', k', phase', stack, -⟩
      · cases phase with
        | seek => exact ⟨n, k, rfl, used, step⟩
        | _ => cases seek
      · exact absurd (stack.symm.trans past) (short _ _)
    | cons a above =>
      have idle := List.countP_eq_zero.1 quiet
      have off : a.isTick = false := Bool.eq_false_iff.2 (idle a List.mem_cons_self)
      have fewer : ticksOf s ≤ ticksOf (above ++ .tick n k phase :: s) := by
        rw [ticksOf_append, ticksOf_tick]
        omega
      rcases tr.above off (by rw [past]; exact fewer) with ⟨j, stack⟩ | ⟨above', -, stack⟩
      · rw [past] at stack
        cases above with
        | nil => exact absurd stack.symm (short [] _)
        | cons a' above => exact absurd stack.symm (short (a'.resume j :: above) _)
      · refine absurd (past.symm.trans stack).symm ?_
        show above' ++ (above ++ .tick n k phase :: s) ≠ s
        rw [← List.append_assoc]
        exact short _ _

end Machine

theorem World.endTick_cases (w : World κ σ) (n k : Nat) :
    ((w.endTick n k).journal.head?.map Entry.event =
      some (.pumped (w.ticks + 1) n k w.queue.isEmpty)) ∧
    (w.queue = [] ∧ (w.endTick n k).armed = false ∨
      w.queue ≠ [] ∧ (w.endTick n k).host.ticks = w.host.ticks ++ [.pump]) := by
  simp only [endTick]
  cases hq : w.queue with
  | nil => exact ⟨rfl, .inl ⟨rfl, rfl⟩⟩
  | cons p ps => exact ⟨rfl, .inr ⟨List.cons_ne_nil _ _, rfl⟩⟩

/-- What a tick above `s` spends and how it ends. If the code that it runs comes to its end then the
tick does, unless a contract is broken. At every moment of the tick its processes have made no more
transitions than the budget has steps, and the counter stands at the number of these and of the turns
that have ended by blocking or exiting, within a word of 32 bits and within one of the budget. A turn
that is cut short is the last one, and a dead process that is taken out of the queue costs nothing. At its
end the tick reports its counter; either the queue is empty and the pump is disarmed, or the budget is used
up and one further tick is deferred. -/
theorem Reachable.tick_within_budget {m : Machine κ σ} {s : List (Activity κ σ)} (h : Reachable b m)
    (whole : m.fault = none) (stack : m.stack = .tick 0 0 .seek :: s) :
    (m.Obliging b s → ∃ i, m.Underway b s i ∧
      ((Machine.run b i m).fault ≠ none ∨ ((Machine.run b i m).step b).stack = s)) ∧
    ∀ i m' ms, m.Underway b s i → m' = Machine.run b i m → ms = Machine.passed b i m →
      ms.countP Machine.transits ≤ m.world.limit ∧
      (∃ above n k phase, m'.stack = above ++ .tick n k phase :: s ∧ n < UInt32.size ∧
        n = min (ms.countP Machine.transits + ms.countP Machine.yields) (UInt32.size - 1) ∧
        n ≤ m.world.limit + 1) ∧
      (m'.verdict? = some .preempted → ((m'.step b).step b).stack = s) ∧
      (∀ p, m'.taken? = some p → (m'.step b).world.procs.isAlive p = false →
        (m'.step b).stack = m'.stack) ∧
      ((m'.step b).stack = s → ∃ n k, m'.stack = .tick n k .seek :: s ∧
        n = min (ms.countP Machine.transits + ms.countP Machine.yields) (UInt32.size - 1) ∧
        (m'.step b).world.journal.head?.map Entry.event =
          some (.pumped (m'.world.ticks + 1) n k m'.world.queue.isEmpty) ∧
        (m'.step b).world.queue = m'.world.queue ∧
        (m'.world.queue = [] ∧ (m'.step b).world.armed = false ∨
          m'.world.queue ≠ [] ∧ m.world.limit ≤ n ∧ (m'.step b).world.host.pumps = 1 ∧
          (m'.step b).world.host.ticks = m'.world.host.ticks ++ [.pump])) := by
  refine ⟨Machine.Obliging.last stack whole, ?_⟩
  rintro i m' ms under rfl rfl
  have spent := Machine.spent h stack i under
  have limit := Machine.limit_run b i m
  have word : m.world.limit < UInt32.size := m.world.config.budget.property.2
  have moves := spent.transits
  have total := spent.total
  obtain ⟨above, n, k, phase, place, -, count, -⟩ := spent.place
  rw [limit] at moves total
  refine ⟨moves, ⟨above, n, k, phase, place, by omega, count, by omega⟩, fun cut => ?_,
    fun p taken dead => ?_, fun past => ?_⟩
  · obtain ⟨n, k, phase, s', stack, past⟩ := Machine.step_of_preempted cut
    rw [past]
    exact (spent.eq_of_tick stack).1
  · obtain ⟨-, n, k, s', -, -, -, turn⟩ := Machine.step_taken b taken
    rwa [dead, if_neg Bool.false_ne_true] at turn
  · obtain ⟨n, k, place, used, step⟩ := Machine.step_of_over spent past
    have sound : ((Machine.run b i m).step b).world.SoundWith ((Machine.run b i m).step b).stack :=
      (h.run i).step.sound
    have most := sound.pumps
    obtain ⟨report, rest⟩ := World.endTick_cases (Machine.run b i m).world n k
    rw [step] at most ⊢
    refine ⟨n, k, place, (spent.eq_of_tick place).2, report, queue_endTick _ _ _, rest.imp_right ?_⟩
    rintro ⟨work, deferred⟩
    refine ⟨work, ?_, ?_, deferred⟩
    · exact limit ▸ used.resolve_right work
    · have more : 0 < ((Machine.run b i m).world.endTick n k).host.pumps := by
        rw [Host.pumps, deferred]
        exact List.countP_pos_iff.2 ⟨.pump, List.mem_append_right _ (List.mem_singleton_self _), rfl⟩
      have : ((Machine.run b i m).world.endTick n k).host.pumps ≤ 1 := Nat.le_trans (Nat.le_add_right _ _) most
      exact Nat.le_antisymm this more

/-- One process that always has something to do, on a runtime with a budget of two steps. -/
def lonely : Machine Unit Unit :=
  let code : Code Unit Unit Unit :=
    (Code.ask (.spawn (.andThen (.succeed .unit) (.code ())))).bind fun _ =>
      (Code.ask (.drive .idle)).bind fun _ => .ret ()
  .load (.new { Config.standard with budget := ⟨2, by decide⟩ } ()) (Procedure.ofCode code)

/-- What is under way once its first tick has begun. -/
def lonelyBelow : List (Activity Unit Unit) :=
  (Machine.run restless 3 lonely).stack.tail

theorem lonely_obliging : (Machine.run restless 3 lonely).Obliging restless lonelyBelow := by
  intro i n k phase phase' under code stack
  have early : i < 7 := by
    by_contra late
    exact under 7 (Nat.not_lt.1 late) rfl
  -- The callback is entered by the third step of the tick and comes to its end with the fourth.
  match i, early with
  | 0, _ | 1, _ | 2, _ | 5, _ | 6, _ =>
    cases stack
    cases code
  | 3, _ =>
    cases stack
    exact ⟨1, .inr ⟨_, .callback _ _ _, rfl⟩⟩
  | 4, _ =>
    cases stack
    exact ⟨0, .inr ⟨_, .callback _ _ _, rfl⟩⟩

/-- Its first tick makes two transitions; then its turn is cut short, and one further tick is deferred. -/
theorem lonely_first_tick :
    (Machine.run restless 3 lonely).fault = none ∧
    (Machine.run restless 3 lonely).stack = .tick 0 0 .seek :: lonelyBelow ∧
    (Machine.run restless 3 lonely).Obliging restless lonelyBelow ∧
    (∃ i, (Machine.run restless 3 lonely).Underway restless lonelyBelow i ∧
      ((Machine.run restless i (Machine.run restless 3 lonely)).fault ≠ none ∨
        ((Machine.run restless i (Machine.run restless 3 lonely)).step restless).stack = lonelyBelow)) ∧
    (Machine.passed restless 6 (Machine.run restless 3 lonely)).countP Machine.transits ≤ 2 ∧
    ((Machine.run restless 9 lonely).step restless).world.host.pumps = 1 := by
  have h : Reachable restless (Machine.run restless 3 lonely) := (Reachable.new _ _ _).run 3
  obtain ⟨ends, moment⟩ := h.tick_within_budget rfl (s := lonelyBelow) rfl
  have under : (Machine.run restless 3 lonely).Underway restless lonelyBelow 6 := by
    intro j hj same
    match j, hj with
    | 0, _ | 1, _ | 2, _ | 3, _ | 4, _ | 5, _ | 6, _ => cases congrArg List.length same
  obtain ⟨moves, -, -, -, past⟩ := moment 6 _ _ under rfl rfl
  obtain ⟨n, k, -, -, -, -, rest⟩ := past rfl
  refine ⟨rfl, rfl, lonely_obliging, ends lonely_obliging, moves, ?_⟩
  rcases rest with ⟨none, -⟩ | ⟨-, -, one, -⟩
  · cases none
  · exact one

end Actors
