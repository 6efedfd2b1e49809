/-
Parting with the runtime.

A runtime is gone when the last reference to it has been given back. As long as a tick is under way this
cannot happen, so a tick in the course of which the user lets go runs to its normal end. From then on
nothing of the runtime moves any more: its processes stay as they are, what they wait for included, and
nothing is called for them. What has been left with the host or with the user, a deferred tick, a timer, a
ticket, is used up when its time comes, without any effect.

* `World.Kept` — what belongs to the runtime stays as it is, and `Reachable.kept_of_gone`: so it does in
  every step when the runtime is gone;
* `Machine.Parts`, `Machine.parts` — the steps by which a runtime can lose its last reference;
* `Machine.Deserted` — what is left to do without the runtime;
* `Reachable.parts_cleanly` — the end of a runtime, from its last tick on.
-/
import Actors.Proofs.Allowance
import Actors.Proofs.Cancellation
import Actors.Proofs.Custody

namespace Actors

variable {κ σ α : Type} {b : Behaviour κ σ}

open Procedure World Activity

/-! ### What belongs to the runtime -/

/-- Of two worlds the second has everything as it was that belongs to the runtime. -/
structure World.Kept (w w' : World κ σ) : Prop where
  procs : w'.procs = w.procs
  queue : w'.queue = w.queue
  armed : w'.armed = w.armed
  ticks : w'.ticks = w.ticks
  handles : w'.handles = w.handles
  holds : w'.holds = w.holds
  programs : w'.programs = w.programs

namespace World

variable {w w' w'' : World κ σ}

theorem Kept.refl (w : World κ σ) : w.Kept w :=
  ⟨rfl, rfl, rfl, rfl, rfl, rfl, rfl⟩

theorem Kept.trans (h : w.Kept w') (h' : w'.Kept w'') : w.Kept w'' :=
  ⟨h'.procs.trans h.procs, h'.queue.trans h.queue, h'.armed.trans h.armed, h'.ticks.trans h.ticks,
    h'.handles.trans h.handles, h'.holds.trans h.holds, h'.programs.trans h.programs⟩

/-- What the host does is not the runtime's. -/
theorem kept_host (w : World κ σ) (h : Host κ) : w.Kept { w with host := h } :=
  ⟨rfl, rfl, rfl, rfl, rfl, rfl, rfl⟩

theorem kept_spend (w : World κ σ) (t : Ticket) (h : Holder) : w.Kept (w.spend t h) :=
  ⟨rfl, rfl, rfl, rfl, rfl, rfl, rfl⟩

theorem Kept.reachable (h : w.Kept w') : w'.reachable = w.reachable := by
  rw [World.reachable, World.reachable, h.handles, h.holds]

theorem Due.kept {a : Alarm κ} (h : w.Due a w') : w.Kept w' := by
  obtain ⟨limit, host, -, rfl⟩ := h
  exact kept_host w host

/-- Without the runtime a ticket is of no use; it is used up if it was there. -/
theorem complete_of_gone (gone : w.reachable = false) (k : Holder) (t : Ticket) (task : Task κ) :
    w.complete k t task = .ok (w.spend t k) := by
  unfold complete
  split
  · rw [gone]
    rfl
  · next absent =>
    rw [spend, List.erase_of_not_mem fun held => absent (List.contains_iff_mem.2 held)]

/-- Without the runtime nobody is woken. -/
theorem wake_of_gone (gone : w.reachable = false) (t : Ticket) : w.wake t = .ok w :=
  if_neg (Bool.eq_false_iff.1 gone)

/-- The end of a tick gives back one reference. -/
theorem reachable_after_tick (w : World κ σ) (n k : Nat) (some : 0 < w.holds) :
    (w.endTick n k).reachable = decide (1 < w.handles + w.holds) := by
  have handles : (w.endTick n k).handles = w.handles := by
    simp only [endTick]
    split <;> rfl
  have holds : (w.endTick n k).holds = w.holds - 1 := congrArg Stock.holds (stock_endTick w n k)
  rw [World.reachable, handles, holds, decide_eq_decide]
  omega

end World

/-! ### Without the runtime nothing of it moves -/

/-- What code may do without a reference leaves the runtime as it is, if it is gone. -/
theorem Directive.kept_of_gone {w w' : World κ σ} {d : Directive κ σ} {k : d.Reply → Procedure κ σ α}
    {code : Procedure κ σ α} (h : d.step b w k = .next w' code) (gone : w.reachable = false)
    (free : d.isFree = true) (hold : d ≠ .hold) : w.Kept w' := by
  have away : ¬w.reachable = true := Bool.eq_false_iff.1 gone
  cases d with
  | request r =>
    cases r with
    | spawn t =>
      rcases of_spawn h with ⟨p, here, -⟩ | ⟨-, rfl, -⟩
      · exact absurd here away
      · exact .refl _
    | spawnWith c =>
      obtain ⟨rfl, -⟩ := of_spawnWith h
      exact .refl _
    | send p v =>
      simp only [step, Request.step, if_neg away] at h
      obtain ⟨rfl, -⟩ := Progress.next.inj h
      exact .refl _
    | kill p =>
      rcases of_kill h with ⟨here, -⟩ | ⟨-, rfl, -⟩
      · exact absurd here away
      · exact .refl _
    | start c =>
      obtain ⟨rfl, -⟩ := of_start h
      exact .refl _
    | complete t task =>
      have used := Progress.ofExcept_eq_next h
      rw [complete_of_gone gone] at used
      obtain rfl := Except.ok.inj used
      exact kept_spend _ _ _
    | drive e => cases h
    | model p =>
      obtain ⟨rfl, -⟩ := of_model h
      exact .refl _
    | retain =>
      simp only [step, Request.step, World.retain, if_neg away] at h
      obtain ⟨rfl, -⟩ := Progress.next.inj h
      exact .refl _
    | release =>
      obtain ⟨rfl, -⟩ := Progress.next.inj h
      -- There is no reference left that could be given back.
      have none : w.handles = 0 := (gone_iff.1 gone).1
      exact ⟨rfl, rfl, rfl, rfl, show w.handles - 1 = w.handles by omega, rfl, rfl⟩
    | _ =>
      -- What is left reads the world, or changes what belongs to the user and the host.
      obtain ⟨rfl, -⟩ := Progress.next.inj h
      exact ⟨rfl, rfl, rfl, rfl, rfl, rfl, rfl⟩
  | invoke c =>
    obtain ⟨rfl, -⟩ := Progress.next.inj h
    exact .refl _
  | note e =>
    obtain ⟨rfl, -⟩ := Progress.next.inj h
    exact ⟨rfl, rfl, rfl, rfl, rfl, rfl, rfl⟩
  | hold => exact absurd rfl hold
  | _ => cases free

/-- No step of a machine whose runtime is gone touches anything of the runtime. -/
theorem Reachable.kept_of_gone {m : Machine κ σ} (h : Reachable b m) (gone : m.world.reachable = false) :
    m.world.Kept (m.step b).world := by
  have free := fun {d : Directive κ σ} => h.free_of_gone gone (d := d)
  have quiet := fun going => h.ticksOf_of_gone going gone
  have tr := Machine.transition b m
  generalize m.step b = m' at tr
  generalize m.record = r at tr
  cases tr with
  | rest => exact .refl _
  | code fr hd =>
    obtain ⟨free, hold⟩ := free (fr.directive?_fill _ _ _ _)
    exact Directive.kept_of_gone hd gone free hold
  | driving => exact .refl _
  | broken agree like cause =>
    rcases cause.world with rfl | ⟨t, due⟩
    · exact .refl _
    · exact due.kept
  | finished => exact .refl _
  | pumped ht here => cases gone.symm.trans here
  | lost => exact kept_host _ _
  | thunk agree cause =>
    rcases cause with ⟨ts, -, rfl⟩ | due
    · exact kept_host _ _
    · exact due.kept
  | woken op cause =>
    obtain ⟨t, w₁, due, hw, -⟩ := cause
    rw [wake_of_gone (due.reachable.trans gone)] at hw
    obtain rfl := Except.ok.inj hw
    exact due.kept
  | driven agree clock =>
    rcases clock with rfl | ⟨limit, rfl⟩
    · exact .refl _
    · exact kept_host _ _
  | _ =>
    -- What is left is done by a tick.
    have none := quiet rfl
    rw [ticksOf_tick] at none
    cases none

/-- However long it goes on, the runtime stays as it was when it went. -/
theorem Stretch.kept_of_gone {m₀ m : Machine κ σ} {ms : List (Machine κ σ)} (h : Stretch b m₀ ms m)
    (h₀ : Reachable b m₀) (gone : m₀.world.reachable = false) : m₀.world.Kept m.world := by
  induction h with
  | refl => exact .refl _
  | @step m ms h ih => exact ih.trans ((h.reachable h₀).kept_of_gone (ih.reachable.trans gone))
  | load code _ _ _ ih => exact ih

/-! ### The last reference -/

/-- The steps by which the last reference to a runtime can be given back: the user lets go, code does that
has taken one for its work, or a tick is over. -/
inductive Machine.Parts (b : Behaviour κ σ) (m : Machine κ σ) : Prop where
  | released (top : m.directive? = some (.request .release))
  | returned (top : m.directive? = some .unhold)
  | ended {n k : Nat} {s : List (Activity κ σ)} (stack : m.stack = .tick n k .seek :: s)
      (step : m.step b = ⟨m.world.endTick n k, s, none⟩)

/-- No other directive gives a reference back. -/
theorem Directive.reachable_after {w w' : World κ σ} {d : Directive κ σ} {k : d.Reply → Procedure κ σ α}
    {code : Procedure κ σ α} (h : d.step b w k = .next w' code) (here : w.reachable = true)
    (release : d ≠ .request .release) (unhold : d ≠ .unhold) : w'.reachable = true := by
  have beside := Directive.surroundings h
  have handles : w'.handles = (d.surroundingsAfter w).handles := congrArg Surroundings.handles beside
  have holds : w'.holds = (d.surroundingsAfter w).holds := congrArg Surroundings.holds beside
  -- What is counted does not fall: the two directives that lower it are excluded.
  have more : w.handles ≤ (d.surroundingsAfter w).handles ∧ w.holds ≤ (d.surroundingsAfter w).holds := by
    cases d with
    | request r =>
      cases r with
      | release => exact absurd rfl release
      | retain =>
        refine ⟨?_, Nat.le_refl _⟩
        show w.handles ≤ w.retain.handles
        rw [World.retain, if_pos here]
        exact Nat.le_succ _
      | kill p =>
        have same : (Directive.request (.kill p)).surroundingsAfter w = w.unsetBy (w.kill p).2 := if_pos here
        rw [same]
        rcases (w.kill p).2 with _ | _ | _ <;> exact ⟨Nat.le_refl _, Nat.le_refl _⟩
      | _ => exact ⟨Nat.le_refl _, Nat.le_refl _⟩
    | hold => exact ⟨Nat.le_refl _, Nat.le_succ _⟩
    | unhold => exact absurd rfl unhold
    | _ => exact ⟨Nat.le_refl _, Nat.le_refl _⟩
  have left : 0 < w.handles + w.holds := of_decide_eq_true here
  exact decide_eq_true (by omega)

namespace Machine

variable {m : Machine κ σ}

/-- A runtime loses its last reference in one of these ways. -/
theorem parts (here : m.world.reachable = true) (gone : (m.step b).world.reachable = false) : m.Parts b := by
  have tr := transition b m
  generalize hm : m.step b = m' at tr gone
  generalize m.record = r at tr
  -- Everything else leaves the runtime where it is.
  have stays : ∀ {w' : World κ σ}, w' = m'.world → w'.reachable = m.world.reachable → m.Parts b := by
    rintro _ rfl same
    cases (gone.symm.trans same).trans here
  cases tr with
  | @code w w' s α fr d k code hd =>
    have top := fr.directive?_fill w d k s
    by_cases release : d = .request .release
    · exact .released (release ▸ top)
    by_cases unhold : d = .unhold
    · exact .returned (unhold ▸ top)
    cases gone.symm.trans (Directive.reachable_after hd here release unhold)
  | ended => exact .ended rfl hm
  | broken agree like cause =>
    rcases cause.world with rfl | ⟨t, due⟩
    · exact stays rfl rfl
    · exact stays rfl due.reachable
  | picked budget hd => exact stays rfl (reachable_of_surroundings (surroundings_dequeue hd))
  | skipped budget hd => exact stays rfl (reachable_of_surroundings (surroundings_dequeue hd))
  | preempted => exact stays rfl (reachable_of_surroundings (surroundings_enqueue _ _))
  | parked budget stuck agree beside => exact stays rfl (reachable_of_surroundings beside)
  | pushed budget hx can put root beside => exact stays rfl (reachable_of_surroundings beside)
  | entered budget hx can put root hc beside => exact stays rfl (reachable_of_surroundings beside)
  | started budget hx can put task beside =>
    refine stays rfl ?_
    rw [World.reachable, World.reachable]
    exact congrArg₂ (fun x y => decide (0 < x + y)) (congrArg Surroundings.handles beside)
      (congrArg Surroundings.holds beside)
  | exited budget hx can put root hr event beside => exact stays rfl (reachable_of_surroundings beside)
  | returned hx alive put beside => exact stays rfl (reachable_of_surroundings beside)
  | @pumped w s ts goal n n' ht there =>
    have left : 0 < w.handles + w.holds := of_decide_eq_true there
    have more : 0 < w.handles + (w.holds + 1) := by omega
    cases gone.symm.trans (decide_eq_true more)
  | lost ht away => cases away.symm.trans here
  | thunk agree cause =>
    rcases cause with ⟨ts, -, rfl⟩ | due
    · exact stays rfl rfl
    · exact stays rfl due.reachable
  | woken op cause =>
    obtain ⟨t, w₁, due, hw, -⟩ := cause
    exact stays rfl ((reachable_of_wake hw).trans due.reachable)
  | driven agree clock =>
    rcases clock with rfl | ⟨limit, rfl⟩
    · exact stays rfl rfl
    · exact stays rfl rfl
  | _ => exact stays rfl rfl

/-- Giving the last reference back leaves the processes with what they wait for, and calls nothing off. -/
theorem Parts.leaves (h : m.Parts b) :
    (m.step b).world.procs = m.world.procs ∧ (m.step b).world.queue = m.world.queue ∧
      (m.step b).world.tickets = m.world.tickets ∧ (m.step b).world.host.timers = m.world.host.timers ∧
      m.calledOff? = none ∧ ∀ c, ¬m.Defers c := by
  -- Deferred thunks belong to a drive, and the directive on top to code.
  have performs : ∀ {d : Directive κ σ}, m.directive? = some d → ∀ c, ¬m.Defers c := by
    rintro d top c ⟨w, goal, n, s, rfl, -⟩
    cases top
  cases h with
  | released top =>
    refine ⟨?_, ?_, ?_, ?_, by rw [calledOff?, top]; rfl, performs top⟩
    all_goals
      obtain ⟨α, w, fr, k, s, rfl⟩ := eq_of_directive? top
      rw [fr.step_op]
      rfl
  | returned top =>
    refine ⟨?_, ?_, ?_, ?_, by rw [calledOff?, top]; rfl, performs top⟩
    all_goals
      obtain ⟨α, w, fr, k, s, rfl⟩ := eq_of_directive? top
      rw [fr.step_op]
      rfl
  | @ended n k s stack step =>
    have unforced : m.directive? = none := by
      rw [directive?, stack]
      cases m.fault <;> rfl
    rw [step]
    refine ⟨?_, queue_endTick _ _ _, ?_, ?_, by rw [calledOff?, unforced]; rfl, ?_⟩
    · simp only [World.endTick]
      split <;> rfl
    · exact congrArg Stock.tickets (stock_endTick _ n k)
    · simp only [World.endTick]
      split <;> rfl
    · rintro c ⟨w, goal, n', s', rfl, -⟩
      cases stack

end Machine

/-! ### What is left to do -/

/-- A machine whose runtime is gone. No tick is under way; and code of the user is called only where the user
asks for it, and what has been put aside only where the host runs it. What was meant for the runtime has no
effect any more: a deferred tick counts as a tick, and the timer of a process that sleeps as a timer; a ticket
is used up at most; and whoever asks for the runtime is told that it is gone. -/
structure Machine.Deserted (b : Behaviour κ σ) (m : Machine κ σ) : Prop where
  gone : m.world.reachable = false
  idle : m.fault = none → ticksOf m.stack = 0
  calls : ∀ c, m.call? = some c → c.isOutside = true
  thunks : ∀ c, (m.step b).call? = some (.thunk c) → m.Defers c
  tick : ∀ w limit n s ts, m = ⟨w, .drive (.ticks limit) n :: s, none⟩ → w.host.ticks = .pump :: ts →
    (limit.all fun most => n < most) = true →
    m.step b = ⟨{ w with host := { w.host with ticks := ts } }, .drive (.ticks limit) (n + 1) :: s, none⟩
  /-- On the way to a point in time timers are counted, and no ticks. -/
  pass : ∀ w limit n s ts, m = ⟨w, .drive (.time limit) n :: s, none⟩ → w.host.ticks = .pump :: ts →
    m.step b = ⟨{ w with host := { w.host with ticks := ts } }, .drive (.time limit) n :: s, none⟩
  timer : ∀ w limit n s t host, m = ⟨w, .drive (.time limit) n :: s, none⟩ → w.host.ticks = [] →
    w.host.takeDue limit = some (.wake t, host) →
    m.step b = ⟨{ w with host := host }, .drive (.time limit) (n + 1) :: s, none⟩
  ticket : ∀ (α : Type) (fr : Frame κ σ α) w t task k s,
    m = ⟨w, fr.fill (.run (.op (S := directives κ σ) (.request (.complete t task)) k)) :: s, none⟩ →
    m.step b = ⟨w.spend t .user, fr.fill (.run (k ())) :: s, none⟩
  asked : ∀ (α : Type) (fr : Frame κ σ α) w k s,
    m = ⟨w, fr.fill (.run (.op (S := directives κ σ) (.request .isReachable) k)) :: s, none⟩ →
    m.step b = ⟨w, fr.fill (.run (k false)) :: s, none⟩

namespace Machine

variable {w : World κ σ} {s : List (Activity κ σ)} {n : Nat}

/-- A tick that the runtime has deferred does nothing once it is gone. -/
theorem beginTick_of_gone (gone : w.reachable = false) (below : List (Activity κ σ)) :
    beginTick w below .pump = ⟨w, below, none⟩ :=
  if_neg (Bool.eq_false_iff.1 gone)

/-- A timer that would wake a process does nothing once the runtime is gone. -/
theorem fire_of_gone (gone : w.reachable = false) (below : List (Activity κ σ)) (t : Ticket) :
    fire w below (.wake t) = ⟨w, below, none⟩ := by
  rw [fire, World.wake_of_gone gone]

/-- What a drive that counts ticks does with a deferred one. -/
theorem step_tick_of_gone (gone : w.reachable = false) {limit : Option Nat} {ts : List (Tick κ)}
    (ht : w.host.ticks = .pump :: ts) (more : (limit.all fun most => n < most) = true) :
    step b ⟨w, .drive (.ticks limit) n :: s, none⟩ =
      ⟨{ w with host := { w.host with ticks := ts } }, .drive (.ticks limit) (n + 1) :: s, none⟩ := by
  have taken : w.host.takeTick = some (.pump, { w.host with ticks := ts }) := by
    rw [Host.takeTick, ht]
  show stepDrive w (.ticks limit) n s = _
  rw [stepDrive, if_pos more, taken]
  exact beginTick_of_gone (w := { w with host := { w.host with ticks := ts } }) gone _

theorem step_pass_of_gone (gone : w.reachable = false) {limit : Nat} {ts : List (Tick κ)}
    (ht : w.host.ticks = .pump :: ts) :
    step b ⟨w, .drive (.time limit) n :: s, none⟩ =
      ⟨{ w with host := { w.host with ticks := ts } }, .drive (.time limit) n :: s, none⟩ := by
  have taken : w.host.takeTick = some (.pump, { w.host with ticks := ts }) := by
    rw [Host.takeTick, ht]
  show stepDrive w (.time limit) n s = _
  rw [stepDrive, taken]
  exact beginTick_of_gone (w := { w with host := { w.host with ticks := ts } }) gone _

/-- What a drive towards a point in time does with the timer of a process that sleeps. -/
theorem step_timer_of_gone (gone : w.reachable = false) {limit : Nat} {t : Ticket} {host : Host κ}
    (ht : w.host.ticks = []) (due : w.host.takeDue limit = some (.wake t, host)) :
    step b ⟨w, .drive (.time limit) n :: s, none⟩ =
      ⟨{ w with host := host }, .drive (.time limit) (n + 1) :: s, none⟩ := by
  have none : w.host.takeTick = none := by rw [Host.takeTick, ht]
  show stepDrive w (.time limit) n s = _
  rw [stepDrive, none, due]
  exact fire_of_gone (w := { w with host := host }) gone _ t

theorem step_ticket_of_gone (gone : w.reachable = false) (fr : Frame κ σ α) (t : Ticket) (task : Task κ)
    (k : Unit → Procedure κ σ α) :
    step b ⟨w, fr.fill (.run (.op (S := directives κ σ) (.request (.complete t task)) k)) :: s, none⟩ =
      ⟨w.spend t .user, fr.fill (.run (k ())) :: s, none⟩ := by
  have used : (Directive.request (.complete t task)).step b w k = .next (w.spend t .user) (k ()) := by
    show Progress.ofExcept (w.complete .user t task) (k ()) = _
    rw [World.complete_of_gone gone]
    rfl
  exact fr.step_next used s

end Machine

theorem Machine.directive?_of_call? {m : Machine κ σ} {c : Call κ} (h : m.call? = some c) :
    m.directive? = some (.invoke c) := by
  obtain ⟨w, a, s, rfl, ha⟩ := Machine.eq_of_call? h
  cases a with
  | work code =>
    obtain ⟨k, rfl⟩ := Pending.eq_of_call? ha
    rfl
  | drive goal n => cases ha
  | tick n k phase =>
    cases phase with
    | callback p code =>
      obtain ⟨k, rfl⟩ := Pending.eq_of_call? ha
      rfl
    | starting p code =>
      obtain ⟨k, rfl⟩ := Pending.eq_of_call? ha
      rfl
    | _ => cases ha

/-- Once the runtime is gone there is nothing else left to do. -/
theorem Reachable.deserted {m : Machine κ σ} (h : Reachable b m) (gone : m.world.reachable = false) :
    m.Deserted b where
  gone := gone
  idle going := h.ticksOf_of_gone going gone
  calls c hc := by
    have top : m.directive? = some (.invoke c) := Machine.directive?_of_call? hc
    exact (h.free_of_gone gone top).1
  thunks c hc := by
    refine (h.thunk_of_call hc).resolve_left fun off => ?_
    obtain ⟨d, top, run⟩ := Option.bind_eq_some_iff.1 off
    have free := (h.free_of_gone gone top).1
    -- A process is killed only while the runtime is there.
    cases d with
    | request r =>
      cases r with
      | kill p =>
        have away : (Directive.request (.kill p)).calledOff? m.world = none :=
          if_neg (Bool.eq_false_iff.1 gone)
        cases away.symm.trans run
      | _ => cases run
    | attach => cases free
    | _ => cases run
  tick w limit n s ts hm ht more := by
    subst hm
    exact Machine.step_tick_of_gone gone ht more
  pass w limit n s ts hm ht := by
    subst hm
    exact Machine.step_pass_of_gone gone ht
  timer w limit n s t host hm ht due := by
    subst hm
    exact Machine.step_timer_of_gone gone ht due
  ticket α fr w t task k s hm := by
    subst hm
    exact Machine.step_ticket_of_gone gone fr t task k
  asked α fr w k s hm := by
    subst hm
    have told : (Directive.request .isReachable).step b w k = .next w (k false) :=
      congrArg (fun here => Progress.next w (k here)) gone
    exact fr.step_next told s

/-! ### The end of a runtime -/

/-- As long as a tick is under way the runtime is there, whoever lets go of it; and a tick whose code comes to
its end comes to its own, where it gives back its reference. A runtime loses its last reference when the user
lets go of it, when code does that has worked for it, or with the end of a tick; its processes then stay as
they are, with what they wait for, and nothing is called off. From then on, whatever the user and the host
do, nothing of the runtime moves and nothing is called for it; its deferred ticks and its timers are counted
when their time comes, and have no more effect than the tickets that are still about. -/
theorem Reachable.parts_cleanly {m : Machine κ σ} (h : Reachable b m) :
    (∀ s, m.fault = none → m.stack = .tick 0 0 .seek :: s →
      (∀ i, m.Underway b s i → (Machine.run b i m).fault = none →
        (Machine.run b i m).world.reachable = true) ∧
      (m.Obliging b s → ∃ i, m.Underway b s i ∧ ((Machine.run b i m).fault ≠ none ∨
        ∃ n k, (Machine.run b i m).stack = .tick n k .seek :: s ∧
          (Machine.run b (i + 1) m) = ⟨(Machine.run b i m).world.endTick n k, s, none⟩ ∧
          (Machine.run b (i + 1) m).world.reachable =
            decide (1 < (Machine.run b i m).world.handles + (Machine.run b i m).world.holds)))) ∧
    (m.world.reachable = true → (m.step b).world.reachable = false →
      m.Parts b ∧ (m.step b).world.procs = m.world.procs ∧ (m.step b).world.queue = m.world.queue ∧
        (m.step b).world.tickets = m.world.tickets ∧
        (m.step b).world.host.timers = m.world.host.timers ∧
        ∀ c, (m.step b).call? ≠ some (.thunk c)) ∧
    (m.world.reachable = false → ∀ ms m', Stretch b m ms m' →
      m.world.Kept m'.world ∧ m'.Deserted b) := by
  refine ⟨fun s whole stack => ?_, fun here gone => ?_, fun gone ms m' st => ?_⟩
  · have present : ∀ i, m.Underway b s i → (Machine.run b i m).fault = none →
        0 < ticksOf (Machine.run b i m).stack := by
      intro i under going
      obtain ⟨above, n, k, phase, place, -⟩ := (Machine.spent h stack i under).place
      rw [place, ticksOf, List.countP_append, List.countP_cons_of_pos rfl]
      omega
    refine ⟨fun i under going => (h.run i).reachable_of_tick going (present i under going),
      fun obliging => ?_⟩
    obtain ⟨i, under, ends⟩ := obliging.last stack whole
    refine ⟨i, under, ends.imp_right fun past => ?_⟩
    obtain ⟨n, k, place, -, step⟩ := Machine.step_of_over (Machine.spent h stack i under) past
    rw [Machine.run_succ, step]
    have going : (Machine.run b i m).fault = none := Machine.going_of_step (by rw [step])
    obtain ⟨L, -, held⟩ := (h.run i).held
    have held := held going
    have some := present i under going
    exact ⟨n, k, place, rfl, World.reachable_after_tick _ n k (by omega)⟩
  · have parts := Machine.parts here gone
    obtain ⟨procs, queue, tickets, timers, off, idle⟩ := parts.leaves
    refine ⟨parts, procs, queue, tickets, timers, fun c hc => ?_⟩
    rcases h.thunk_of_call hc with run | defers
    · cases off.symm.trans run
    · exact idle c defers
  · have kept := st.kept_of_gone h gone
    exact ⟨kept, (st.reachable h).deserted (kept.reachable.trans gone)⟩

/-- User code whose continuations let go of the runtime, and whose bindings can be called off. -/
def adieu : Behaviour Unit Unit :=
  { Behaviour.ofCallbacks fun _ v => .succeed v with
    callback := fun _ _ => (Code.ask .release).bind fun _ => .ret (.receive (.code ()))
    start := fun _ _ => .ret (some ()) }

/-- A process that waits for the user, one that sleeps, and one that lets go of the runtime with the last step
of the budget. The user goes on all the same. -/
def forsaken : Machine Unit Unit :=
  let code : Code Unit Unit Unit :=
    (Code.ask (.spawn (.native (.code ())))).bind fun _ =>
      (Code.ask (.spawn (.native (.sleep 5)))).bind fun _ =>
        (Code.ask (.spawn (.andThen (.succeed .unit) (.code ())))).bind fun _ =>
          (Code.ask (.drive .idle)).bind fun _ =>
            (Code.ask (.drive (.advance 9))).bind fun _ =>
              Code.ask (.complete ⟨⟨1⟩, 1⟩ (.succeed .unit))
  .load (.new { Config.standard with budget := ⟨6, by decide⟩ } ()) (Procedure.ofCode code)

/-- What is under way once the first tick has begun. -/
def forsakenBelow : List (Activity Unit Unit) :=
  (Machine.run adieu 5 forsaken).stack.tail

/-- The runtime is there until the tick is over in which it is let go of. A further tick that has been deferred
and the timer of the sleeping process are counted, the ticket is used up, and nothing else happens. -/
theorem forsaken_deserted :
    (Machine.run adieu 14 (Machine.run adieu 5 forsaken)).world.handles = 0 ∧
    (Machine.run adieu 14 (Machine.run adieu 5 forsaken)).world.reachable = true ∧
    (Machine.run adieu 21 forsaken).Parts adieu ∧
    (∀ c, (Machine.run adieu 22 forsaken).call? ≠ some (.thunk c)) ∧
    (∃ s, (Machine.run adieu 22 forsaken).stack = .drive (.ticks none) 1 :: s ∧
      (Machine.run adieu 23 forsaken).stack = .drive (.ticks none) 2 :: s) ∧
    (∃ s, (Machine.run adieu 25 forsaken).stack = .drive (.time 9) 0 :: s ∧
      (Machine.run adieu 26 forsaken).stack = .drive (.time 9) 1 :: s) ∧
    (Machine.run adieu 27 forsaken).world.tickets = [(⟨⟨1⟩, 1⟩, .user)] ∧
    (Machine.run adieu 28 forsaken).world.tickets = [] ∧
    (Machine.run adieu 22 forsaken).world.Kept (Machine.run adieu 28 forsaken).world ∧
    (Machine.run adieu 28 forsaken).Deserted adieu := by
  have h : ∀ n, Reachable adieu (Machine.run adieu n forsaken) := fun n => (Reachable.new _ _ _).run n
  have under : (Machine.run adieu 5 forsaken).Underway adieu forsakenBelow 14 := by
    have above : ∀ j < 15, (Machine.run adieu j (Machine.run adieu 5 forsaken)).stack.length =
        forsakenBelow.length + 1 := by decide +kernel
    intro j hj same
    have more := above j (Nat.lt_succ_of_le hj)
    rw [same] at more
    omega
  obtain ⟨during, -⟩ := (h 5).parts_cleanly.1 forsakenBelow rfl rfl
  obtain ⟨parts, -, -, -, -, silent⟩ := (h 21).parts_cleanly.2.1 rfl rfl
  obtain ⟨kept, deserted⟩ := (h 22).parts_cleanly.2.2 rfl _ _ (Stretch.refl.run 6)
  exact ⟨rfl, during 14 under rfl, parts, silent, ⟨_, rfl, rfl⟩, ⟨_, rfl, rfl⟩, rfl, rfl, kept, deserted⟩

end Actors
