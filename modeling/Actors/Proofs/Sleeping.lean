/-
Processes that sleep.

A process that is put to sleep awaits a binding whose ticket is in a timer, and what calls the binding off
is this timer. The timer is removed when the process is killed, and only then; when it fires the process is
resumed, and nothing else resumes it, since nobody else has the ticket. So as long as there is a runtime,
timers and sleepers stand one for one.

* `World.Asleep` — a process sleeps until a timer fires;
* `Reachable.slumber` — what a step does to a process that sleeps;
* `Trail.sleepers` — timers and sleepers, when each of them began to sleep, and when it is resumed.
-/
import Actors.Proofs.Cancellation
import Actors.Proofs.Timetable

namespace Actors

variable {κ σ : Type} {b : Behaviour κ σ}

open World

/-- A process awaits the binding of a ticket, and sleeps until the timer with a key fires. -/
def World.Asleep (w : World κ σ) (t : Ticket) (key : TimerKey) : Prop :=
  ∃ x, w.procs.get? t.pid = some x ∧ x.root = .awaiting t.binding (some (.timer key))

/-- The process that a timer wakes. -/
def Timer.sleeper? (u : Timer κ) : Option Pid :=
  match u.alarm with
  | .wake t => some t.pid
  | .thunk _ => none

/-- The next step begins a binding that puts a process to sleep. -/
def Machine.Retires (m : Machine κ σ) (t : Ticket) (span : Nat) : Prop :=
  m.begins? = some t ∧ ∃ e, m.record = [(t.pid, .moved ⟨.native (.sleep span), e⟩)]

/-! ### Accounts of sleepers -/

namespace World

variable {w : World κ σ} {t : Ticket} {key : TimerKey}

/-- A binding that has been begun, with no other one after it, is at the stage of its process. -/
theorem root_of_stage {x : Proc κ} (hx : w.procs.get? t.pid = some x)
    (born : w.stage t ≠ .unborn) (current : w.stage t ≠ .past) :
    x.binding = t.binding ∧ x.root.stage = w.stage t := by
  have standing : (w.account t.pid).standing = some (x.root, x.binding) := standing_of_get? hx
  rcases Nat.lt_trichotomy x.binding t.binding with lt | eq | gt
  · exact absurd (Account.stage_of_lt standing lt) born
  · refine ⟨eq, ?_⟩
    rw [eq] at standing
    exact (Account.stage_self standing).symm
  · exact absurd (Account.stage_of_gt standing gt) current

/-- A process that waits does so for its latest binding. -/
theorem latest_of_awaiting {p : Pid} (entitled : (w.account p).Entitled) {x : Proc κ}
    (hx : w.procs.get? p = some x) {i : Nat} {c : Option (Cancel κ)} (awaiting : x.root = .awaiting i c) :
    i = x.binding ∧ 0 < x.binding := by
  have standing : (w.account p).standing = some (x.root, x.binding) := standing_of_get? hx
  rw [awaiting] at standing
  exact entitled.latest _ _ _ standing

/-- A binding is pending if and only if its process awaits it. -/
theorem stage_eq_pending (entitled : (w.account t.pid).Entitled) {c : Option (Cancel κ)} :
    w.stage t = .pending c ↔
      ∃ x, w.procs.get? t.pid = some x ∧ x.root = .awaiting t.binding c := by
  constructor
  · intro pending
    cases hx : w.procs.get? t.pid with
    | none => cases pending.symm.trans (stage_eq_unborn hx)
    | some x =>
      -- The binding is the latest one: the stage of an older one does not read the root any more.
      obtain ⟨latest, root⟩ := root_of_stage hx (by simp [pending]) (by simp [pending])
      rw [pending] at root
      refine ⟨x, rfl, ?_⟩
      cases hr : x.root with
      | awaiting i c' =>
        rw [hr] at root
        obtain rfl := Stage.pending.inj root
        rw [(latest_of_awaiting entitled hx hr).1, latest]
      | _ => rw [hr] at root; cases root
  · rintro ⟨x, hx, awaiting⟩
    have standing : (w.account t.pid).standing = some (x.root, x.binding) := standing_of_get? hx
    rw [awaiting, ← (latest_of_awaiting entitled hx awaiting).1] at standing
    exact Account.stage_self standing

/-- What is pending is a binding that has been begun. -/
theorem binding_pos_of_pending (entitled : (w.account t.pid).Entitled) {c : Option (Cancel κ)}
    (pending : w.stage t = .pending c) : 0 < t.binding := by
  obtain ⟨x, hx, awaiting⟩ := (stage_eq_pending entitled).1 pending
  obtain ⟨latest, pos⟩ := latest_of_awaiting entitled hx awaiting
  exact latest ▸ pos

theorem asleep_iff (entitled : (w.account t.pid).Entitled) :
    w.Asleep t key ↔ w.stage t = .pending (some (.timer key)) :=
  (stage_eq_pending entitled).symm

/-- The ticket in a timer has not been used. -/
theorem unused_of_timer (h : ⟨key, .wake t⟩ ∈ w.host.timers) : 0 < w.unused t :=
  Nat.add_pos_right _ (List.countP_pos_iff.2 ⟨_, h, decide_eq_true rfl⟩)

/-- The ticket of a binding that has been completed has been used. -/
theorem unused_of_done (entitled : (w.account t.pid).Entitled) (done : w.stage t = .done) :
    w.unused t = 0 := by
  cases hx : w.procs.get? t.pid with
  | none => cases done.symm.trans (stage_eq_unborn hx)
  | some x =>
    obtain ⟨-, root⟩ := root_of_stage hx (by simp [done]) (by simp [done])
    have standing : (w.account t.pid).standing = some (x.root, x.binding) := standing_of_get? hx
    rw [done] at root
    have idle : x.root.isAwaiting = false ∧ x.root.isDead = false := by
      cases hr : x.root with
      | ready task => exact ⟨rfl, rfl⟩
      | stepping => exact ⟨rfl, rfl⟩
      | _ => rw [hr] at root; cases root
    exact entitled.used _ _ standing idle.1 idle.2 t.binding

end World

/-! ### Timers that wake -/

namespace Machine

variable {m m' : Machine κ σ} {t : Ticket} {key : TimerKey}

/-- A timer that wakes a process was there before, or has just been set for it. -/
theorem Passes.of_mem_timers (ps : Passes m m') (h : ⟨key, .wake t⟩ ∈ m'.world.host.timers) :
    ⟨key, .wake t⟩ ∈ m.world.host.timers ∨
      ∃ span, m.directive? = some (.sleep span t) ∧ key = m.world.host.keyAfter span := by
  have timers : ∀ {x : Timetable κ}, m'.world.timetable = x → ⟨key, .wake t⟩ ∈ x.timers :=
    fun hx => hx ▸ h
  cases ps with
  | rests timetable => exact .inl (timers timetable)
  | called top timetable => exact .inl (timers timetable)
  | arrived arrives timetable => exact .inl (timers timetable)
  | fired under here due record timetable =>
    rw [here]
    exact .inl (List.mem_cons_of_mem _ (timers timetable))
  -- Of what code can perform only a sleep adds a timer of this kind; the others set one of
  -- another kind or take some away.
  | @performed d top timetable =>
    have mem := timers timetable
    have sets := d.sets m.world
    revert mem sets
    generalize (d.surroundingsAfter m.world).timetable = x
    intro mem sets
    cases sets with
    | nothing => exact .inl mem
    | delay span c =>
      rcases Host.mem_insertTimer.1 mem with same | mem
      · cases (Timer.mk.inj same).2
      · exact .inl mem
    | sleep span t' =>
      rcases Host.mem_insertTimer.1 mem with same | mem
      · obtain ⟨rfl, ht⟩ := Timer.mk.inj same
        obtain rfl := Alarm.wake.inj ht
        exact .inr ⟨span, top, rfl⟩
      · exact .inl mem
    | unset k => exact .inl (List.mem_filter.1 mem).1
    | kill off => exact .inl (List.mem_filter.1 mem).1

/-- A timer that wakes a process stays until its process is killed, or it fires. -/
theorem Passes.mem_timers (ps : Passes m m') (h : ⟨key, .wake t⟩ ∈ m.world.host.timers) :
    ⟨key, .wake t⟩ ∈ m'.world.host.timers ∨
      (∃ p, m.directive? = some (.request (.kill p)) ∧
        Directive.calledOff? m.world (.request (.kill p)) = some (.timer key)) ∨
      ∃ us, m.world.host.timers = ⟨key, .wake t⟩ :: us ∧
        m'.world.timetable = ⟨key.due, m.world.host.serial, us⟩ ∧
        m.record = m.world.fires (.wake t) := by
  have stays : ∀ {x : Timetable κ}, m'.world.timetable = x → ⟨key, .wake t⟩ ∈ x.timers →
      ⟨key, .wake t⟩ ∈ m'.world.host.timers := fun hx mem => by
    rw [← hx] at mem
    exact mem
  cases ps with
  | rests timetable => exact .inl (stays timetable h)
  | called top timetable => exact .inl (stays timetable h)
  | arrived arrives timetable => exact .inl (stays timetable h)
  -- Timers fire in their order, so only the first one can be the one that is gone.
  | @fired limit below u us under here due record timetable =>
    rw [here] at h
    rcases List.mem_cons.1 h with rfl | mem
    · exact .inr (.inr ⟨us, here, timetable, record⟩)
    · exact .inl (stays timetable mem)
  | @performed d top timetable =>
    have sets := d.sets m.world
    revert timetable sets
    generalize (d.surroundingsAfter m.world).timetable = x
    intro timetable sets
    cases sets with
    | nothing => exact .inl (stays timetable h)
    | delay span c => exact .inl (stays timetable (Host.mem_insertTimer.2 (.inr h)))
    | sleep span t' => exact .inl (stays timetable (Host.mem_insertTimer.2 (.inr h)))
    | unset k => exact .inl (stays timetable (List.mem_filter.2 ⟨h, rfl⟩))
    -- A kill takes away the timer of the process it kills, which is this one if the keys agree.
    | @kill p k off =>
      by_cases hk : key = k
      · exact .inr (.inl ⟨p, top, hk ▸ off⟩)
      · refine .inl (stays timetable (List.mem_filter.2 ⟨h, ?_⟩))
        simp [Host.isWakeAt, hk]

/-- What a directive that is performed does to clock and timers. -/
theorem timetable_of_next {d : Directive κ σ} (top : m.directive? = some d)
    (next : ∀ {α : Type} (k : d.Reply → Procedure κ σ α),
      ∃ w' code, d.step b m.world k = .next w' code) :
    (m.step b).world.timetable = (d.surroundingsAfter m.world).timetable := by
  obtain ⟨α, w, fr, k, s, rfl⟩ := eq_of_directive? top
  obtain ⟨w', code, hd⟩ := next k
  rw [fr.step_next hd]
  exact congrArg Surroundings.timetable (Directive.surroundings hd)

/-- Putting a process to sleep sets a timer. -/
theorem timetable_of_sleep {span : Nat} (top : m.directive? = some (.sleep span t)) :
    (m.step b).world.timetable = ⟨m.world.host.now, m.world.host.serial + 1,
      Host.insertTimer ⟨m.world.host.keyAfter span, .wake t⟩ m.world.host.timers⟩ :=
  timetable_of_next top fun k => ⟨m.world.sleep span t, k (), rfl⟩

/-- Killing a process that sleeps removes its timer. -/
theorem timetable_of_kill {p : Pid} (top : m.directive? = some (.request (.kill p)))
    (off : Directive.calledOff? m.world (.request (.kill p)) = some (.timer key)) :
    (m.step b).world.timetable = ⟨m.world.host.now, m.world.host.serial,
      m.world.host.timers.filter fun u => !Host.isWakeAt key u⟩ := by
  have off : (if m.world.reachable then (m.world.kill p).2 else none) = some (.timer key) := off
  split at off
  · next here =>
    refine (timetable_of_next top fun k => ?_).trans ?_
    · simp only [Directive.step, Request.step, here, if_true, Progress.callOff, off]
      exact ⟨_, _, rfl⟩
    · simp only [Directive.surroundingsAfter, Request.surroundingsAfter, here, if_true, off]
      rfl
  · cases off

/-- A message leaves the timers alone. -/
theorem timetable_of_send {p : Pid} {v : Value κ} (top : m.directive? = some (.request (.send p v))) :
    (m.step b).world.timetable = m.world.timetable :=
  timetable_of_next top fun k => ⟨if m.world.reachable then m.world.send p v else m.world, k (), rfl⟩

/-- Of the timers in order one is taken out. -/
theorem mem_filter_wake (sound : m.world.timetable.Sound)
    (timer : ⟨key, .wake t⟩ ∈ m.world.host.timers) (u : Timer κ) :
    u ∈ m.world.host.timers.filter (fun u => !Host.isWakeAt key u) ↔
      u ∈ m.world.host.timers ∧ u ≠ ⟨key, .wake t⟩ := by
  rw [List.mem_filter]
  refine and_congr_right fun mem => ⟨?_, fun other => ?_⟩
  · rintro stays rfl
    simp [Host.isWakeAt] at stays
  · rw [Bool.not_eq_true', Bool.eq_false_iff]
    intro wakes
    refine other (sound.eq_of_serial mem timer ?_)
    unfold Host.isWakeAt at wakes
    split at wakes
    · cases wakes
    · rw [of_decide_eq_true wakes]

/-- What a directive hands in is a timer only if it puts a process to sleep. -/
theorem sleep_of_offer (h : m.offer? = some (t, .timer key)) :
    ∃ span, m.directive? = some (.sleep span t) ∧ key = m.world.host.keyAfter span := by
  obtain ⟨d, top, offer⟩ := Option.bind_eq_some_iff.1 h
  cases d with
  | sleep span t' =>
    obtain ⟨rfl, hk⟩ := Prod.mk.inj (Option.some.inj offer)
    exact ⟨span, top, (Cancel.timer.inj hk).symm⟩
  | attach t' c => cases (Prod.mk.inj (Option.some.inj offer)).2
  | _ => cases offer

end Machine

/-! ### Steps -/

/-- Timers and sleepers stand one for one. -/
def Machine.Slumbers (m : Machine κ σ) : Prop :=
  ∀ t key, ⟨key, .wake t⟩ ∈ m.world.host.timers ↔ m.world.stage t = .pending (some (.timer key))

namespace Trail

variable {m : Machine κ σ} {ms : List (Machine κ σ)} {t : Ticket} {key : TimerKey}

/-- A process that sleeps is killed together with its timer. -/
theorem killed_of_calledOff (h : Trail b m ms) (slumbers : m.Slumbers)
    (timer : ⟨key, .wake t⟩ ∈ m.world.host.timers) {p : Pid}
    (top : m.directive? = some (.request (.kill p)))
    (off : Directive.calledOff? m.world (.request (.kill p)) = some (.timer key)) :
    p = t.pid ∧ .killed true (some (.timer key)) ∈ m.happens t := by
  have sound := h.reachable.timely.timetable
  simp only [Directive.calledOff?] at off
  split at off
  · next here =>
    cases alive : m.world.procs.isAlive p with
    | false => rw [kill_of_dead alive] at off; cases off
    | true =>
      obtain ⟨x, hx, live⟩ := ProcTable.isAlive_iff.1 alive
      rw [kill_of_alive hx live] at off
      have cancel : x.root.cancel? = some (.timer key) := x.cancel?_eq.symm.trans off
      obtain ⟨i, awaiting⟩ : ∃ i, x.root = .awaiting i (some (.timer key)) := by
        cases hr : x.root with
        | awaiting i c =>
          rw [hr] at cancel
          exact ⟨i, congrArg _ cancel⟩
        | _ => rw [hr] at cancel; cases cancel
      -- The timer that calls this process off is its own, and there is only one with this key.
      have entitled := h.reachable.entitled p
      obtain ⟨rfl, -⟩ := latest_of_awaiting entitled hx awaiting
      have other := (slumbers ⟨p, x.binding⟩ key).2
        ((stage_eq_pending entitled).2 ⟨x, hx, awaiting⟩)
      obtain rfl : ⟨p, x.binding⟩ = t :=
        Alarm.wake.inj (Timer.mk.inj (sound.eq_of_serial other timer rfl)).2
      refine ⟨rfl, Machine.mem_happens.2 ⟨x, hx, .inl ⟨.killed, ?_, ?_⟩⟩⟩
      · have record := Machine.record_of_directive? top
        rw [record]
        show (p, Deed.killed) ∈ Request.record m.world (.kill p)
        rw [Request.record, here, alive]
        exact List.mem_singleton.2 rfl
      · rw [Proc.incidents, awaiting]
        exact List.mem_singleton.2 rfl
  · cases off

/-- When the timer of a process that sleeps fires, the process is resumed. -/
theorem completed_of_fires (slumbers : m.Slumbers) (h : Trail b m ms)
    (here : m.world.reachable = true) (timer : ⟨key, .wake t⟩ ∈ m.world.host.timers)
    (record : m.record = m.world.fires (.wake t)) :
    m.record = [(t.pid, .completed (.succeed .unit))] ∧ .completed ∈ m.happens t := by
  have entitled := h.reachable.entitled t.pid
  obtain ⟨x, hx, awaiting⟩ := (stage_eq_pending entitled).1 ((slumbers t key).1 timer)
  obtain ⟨latest, -⟩ := latest_of_awaiting entitled hx awaiting
  have resumed : m.record = [(t.pid, .completed (.succeed .unit))] := by
    rw [record, fires, if_pos here, World.resumed, hx, Option.map_some, awaiting]
    exact if_pos rfl
  refine ⟨resumed, Machine.mem_happens.2 ⟨x, hx, .inl ⟨_, resumed ▸ List.mem_singleton.2 rfl, ?_⟩⟩⟩
  rw [Proc.incidents, latest]
  exact List.mem_singleton.2 rfl

/-- A process is put to sleep when its binding has just been begun. -/
theorem stage_of_sleep (h : Trail b m ms) {span : Nat} (top : m.directive? = some (.sleep span t)) :
    m.world.stage t = .pending none ∧ .handed (.timer (m.world.host.keyAfter span)) false ∈ m.happens t := by
  have offer : m.offer? = some (t, .timer (m.world.host.keyAfter span)) := by
    rw [Machine.offer?, top]
    rfl
  obtain ⟨c, thunk, -⟩ | ⟨pos, stage, -⟩ :=
    (Machine.transition b m).hand_of_offer h.course_and_proper.2 offer
  · cases thunk
  · refine ⟨stage, ?_⟩
    obtain ⟨x, hx, awaiting⟩ := (stage_eq_pending (h.reachable.entitled t.pid)).1 stage
    refine Machine.mem_happens.2 ⟨x, hx, .inr ⟨_, offer, ?_⟩⟩
    rw [Proc.isDead, awaiting]
    rfl

/-- What a step does to a process that sleeps: it goes on to sleep, or it is killed and its timer is
removed, or its timer fires and it is resumed. -/
theorem slumber (h : Trail b m ms) (slumbers : m.Slumbers) (here : m.world.reachable = true)
    (asleep : m.world.stage t = .pending (some (.timer key))) :
    ((m.step b).world.stage t = .pending (some (.timer key)) ∧
        ⟨key, .wake t⟩ ∈ (m.step b).world.host.timers) ∨
      (m.directive? = some (.request (.kill t.pid)) ∧ (m.step b).world.stage t = .dead ∧
        (m.step b).world.timetable = ⟨m.world.host.now, m.world.host.serial,
          m.world.host.timers.filter fun u => !Host.isWakeAt key u⟩) ∨
      (m.record = [(t.pid, .completed (.succeed .unit))] ∧ (m.step b).world.stage t = .done ∧
        ∃ us, m.world.host.timers = ⟨key, .wake t⟩ :: us ∧
          (m.step b).world.timetable = ⟨key.due, m.world.host.serial, us⟩) := by
  have entitled := h.reachable.entitled t.pid
  obtain ⟨x, hx, awaiting⟩ := (stage_eq_pending entitled).1 asleep
  -- The timer outlasts the step or it does not, and the stage goes on or it does not: of these
  -- cases only the three that agree are left.
  have timer := (slumbers t key).2 asleep
  have kept := (Machine.passes b m).mem_timers timer
  have ps := h.reachable.passage (binding_pos_of_pending entitled asleep)
  rw [asleep] at ps
  generalize happens : m.happens t = is at ps
  generalize stage : (m.step b).world.stage t = s at ps
  cases ps with
  -- The stage has not changed, so neither a kill nor a fired timer can have taken the timer.
  | stay =>
    rcases kept with kept | ⟨p, top, off⟩ | ⟨us, -, -, record⟩
    · exact .inl ⟨rfl, kept⟩
    · obtain ⟨-, killed⟩ := h.killed_of_calledOff slumbers timer top off
      rw [happens] at killed
      cases killed
    · obtain ⟨-, completed⟩ := completed_of_fires slumbers h here timer record
      rw [happens] at completed
      cases completed
  -- A completed binding has used up its rights, and with them its timer.
  | completed =>
    rcases kept with kept | ⟨p, top, off⟩ | ⟨us, timers, timetable, record⟩
    · have used := unused_of_done (h.reachable.step.entitled t.pid) stage
      exact absurd used (Nat.ne_of_gt (unused_of_timer kept))
    · obtain ⟨-, killed⟩ := h.killed_of_calledOff slumbers timer top off
      rw [happens] at killed
      cases List.mem_singleton.1 killed
    · obtain ⟨record, -⟩ := completed_of_fires slumbers h here timer record
      exact .inr (.inr ⟨record, rfl, us, timers, timetable⟩)
  | killed =>
    have killed : .killed true (some (.timer key)) ∈ m.happens t :=
      happens ▸ List.mem_singleton.2 rfl
    obtain ⟨record, y, hy, -, -, cancel⟩ := Machine.killed_of_happens killed
    obtain ⟨α, w, fr, k, s, hm, reach, alive⟩ :=
      (Machine.transition b m).kill_of_record record
    have top : m.directive? = some (.request (.kill t.pid)) := by
      rw [hm]
      exact fr.directive?_fill _ _ _ _
    have off : Directive.calledOff? m.world (.request (.kill t.pid)) = some (.timer key) := by
      have live : y.isDead = false := by
        obtain rfl := Option.some.inj (hx.symm.trans hy)
        rw [Proc.isDead, awaiting]
        rfl
      rw [Directive.calledOff?, if_pos here, kill_of_alive hy live]
      exact y.cancel?_eq.trans cancel.symm
    exact .inr (.inl ⟨top, rfl, Machine.timetable_of_kill top off⟩)
  | kept c c' =>
    have handed : .handed c' false ∈ m.happens t := happens ▸ List.mem_singleton.2 rfl
    obtain ⟨opened, -⟩ := (Machine.transition b m).open_of_handed h.course_and_proper.2 handed
    rw [asleep] at opened
    generalize fate ms t = word at opened
    cases opened
  | late c run missed => exact absurd rfl (missed _)

/-- Timers and sleepers stand one for one after a step if they do so before. -/
theorem slumbers_step (h : Trail b m ms) (slumbers : m.Slumbers) (here : m.world.reachable = true) :
    (m.step b).Slumbers := by
  intro t key
  have before := h.reachable.timely.timetable
  have entitled := h.reachable.step.entitled t.pid
  constructor
  -- A timer after the step was there before, and then its sleeper has gone on to sleep, or it is
  -- new.
  · intro timer
    rcases (Machine.passes b m).of_mem_timers timer with old | ⟨span, top, rfl⟩
    · rcases h.slumber slumbers here ((slumbers t key).1 old) with ⟨stage, -⟩ | ⟨-, -, timetable⟩ |
        ⟨-, -, us, timers, timetable⟩
      · exact stage
      · rw [show (m.step b).world.host.timers = _ from congrArg Timetable.timers timetable] at timer
        have gone := (List.mem_filter.1 timer).2
        simp [Host.isWakeAt] at gone
      · rw [show (m.step b).world.host.timers = us from congrArg Timetable.timers timetable] at timer
        have distinct : (⟨key, .wake t⟩ :: us).Pairwise fun u v : Timer κ =>
            u.key.serial ≠ v.key.serial := timers ▸ before.distinct
        exact absurd rfl ((List.pairwise_cons.1 distinct).1 _ timer)
    · -- A process that has just begun to sleep has its own timer.
      obtain ⟨pending, handed⟩ := h.stage_of_sleep top
      have ps := h.reachable.passage
        (binding_pos_of_pending (h.reachable.entitled t.pid) pending)
      rw [pending] at ps
      generalize m.happens t = is at ps handed
      generalize (m.step b).world.stage t = s at ps
      cases ps with
      | kept c c' =>
        obtain ⟨rfl, -⟩ := Incident.handed.inj (List.mem_singleton.1 handed)
        rfl
      | late c run missed => exact absurd rfl (missed none)
      | stay => cases handed
      | _ => cases List.mem_singleton.1 handed
  -- A sleeper after the step slept before, and then its timer is still set, or it has just begun.
  · intro stage
    have ps := h.reachable.passage (binding_pos_of_pending entitled stage)
    rw [stage] at ps
    generalize happens : m.happens t = is at ps
    generalize asleep : m.world.stage t = s at ps
    cases ps with
    | stay =>
      rcases h.slumber slumbers here asleep with ⟨-, timer⟩ | ⟨-, dead, -⟩ | ⟨-, done, -⟩
      · exact timer
      · cases stage.symm.trans dead
      · cases stage.symm.trans done
    | kept c =>
      have handed : .handed (.timer key) false ∈ m.happens t := happens ▸ List.mem_singleton.2 rfl
      obtain ⟨span, top, rfl⟩ := Machine.sleep_of_offer (Machine.offer_of_handed handed).1
      rw [show (m.step b).world.host.timers = _ from
        congrArg Timetable.timers (Machine.timetable_of_sleep top)]
      exact Host.mem_insertTimer.2 (.inl rfl)
    | late c run missed => exact absurd rfl (missed _)

/-- As long as there is a runtime, timers and sleepers stand one for one. -/
theorem slumbers (h : Trail b m ms) (here : m.world.reachable = true) : m.Slumbers := by
  induction h with
  | new config user code =>
    intro t key
    refine ⟨fun timer => ?_, fun stage => ?_⟩
    · cases timer
    · cases stage.symm.trans (stage_eq_unborn (get?_new config user t.pid))
  | load code h hs hf ih => exact ih here
  | @step m ms h ih =>
    have before := (Machine.transition b m).reachable h.reachable.proper here
    exact h.slumbers_step (ih before) before

end Trail

/-- A step that does something to a process breaks no contract. -/
theorem Transition.going_of_record {m m' : Machine κ σ} {r : Record κ} (tr : Transition b m r m')
    (does : r ≠ []) : m'.fault = none := by
  cases tr with
  | rest => exact absurd rfl does
  | broken => exact absurd rfl does
  | _ => rfl

/-- A process is put to sleep right after the binding has been begun that does so. -/
theorem Reachable.retires_of_sleep {m : Machine κ σ} (h : Reachable b m) {t : Ticket} {span : Nat}
    (top : (m.step b).directive? = some (.sleep span t)) : m.Retires t span := by
  let begun : Leave κ := { Leave.full with start := fun t => m.begins? = some t }
  have proper : (m.step b).Proper begun := by
    refine h.proper.transition h.sound (Machine.transition b m) (fun _ _ _ _ => trivial)
      (fun p x mv g hx task hr => ?_) fun _ _ => trivial
    obtain ⟨u, e⟩ := mv
    obtain rfl : u = .native g := task
    exact Machine.begins?_eq_some.2 ⟨x, g, e, hr, hx, rfl⟩
  have offer : (m.step b).offer? = some (t, .timer ((m.step b).world.host.keyAfter span)) := by
    rw [Machine.offer?, top]
    rfl
  obtain ⟨c, thunk, -⟩ | begins := (Machine.transition b (m.step b)).hand_of_offer proper offer
  · cases thunk
  have begins : m.begins? = some t := begins
  refine ⟨begins, ?_⟩
  -- The step leaves the code of this binding on top, so the process is put to sleep by it.
  obtain ⟨g, e, n, k, s, hr, stack⟩ := Machine.step_of_begins (b := b) begins
  obtain ⟨α, w, fr, code, s', hm⟩ := Machine.eq_of_directive? top
  rw [hm] at stack
  obtain ⟨here, -⟩ := List.cons.inj stack
  have same : Activity.directive? (.tick n k (.starting t.pid (.run (g.start b t)))) =
      some (.sleep span t) := by
    rw [← here]
    cases fr <;> rfl
  cases g with
  | sleep span' =>
    obtain ⟨rfl, -⟩ := Directive.sleep.inj (Option.some.inj same)
    exact ⟨e, hr⟩
  | _ => cases Option.some.inj same

/-- Code that has been loaded puts nobody to sleep. -/
theorem Machine.not_sleep_load (w : World κ σ) (code : Code κ σ Unit) (span : Nat) (t : Ticket) :
    (Machine.load w (Procedure.ofCode code)).directive? ≠ some (.sleep span t) := by
  cases code <;> exact nofun

namespace Trail

variable {m : Machine κ σ} {ms : List (Machine κ σ)} {t : Ticket} {key : TimerKey} {span : Nat}

theorem retires (h : Trail b m ms) {m₁ : Machine κ σ} (hm : m₁ ∈ ms ++ [m])
    (top : m₁.directive? = some (.sleep span t)) :
    ∃ m₀ ∈ ms, m₁ = m₀.step b ∧ m₀.Retires t span := by
  induction h with
  | new config user code =>
    rw [List.mem_singleton.1 hm] at top
    exact absurd top (Machine.not_sleep_load _ _ _ _)
  | @load m ms code h hs hf ih =>
    rcases List.mem_append.1 hm with hm | hm
    · exact ih (List.mem_append_left _ hm)
    · rw [List.mem_singleton.1 hm] at top
      exact absurd top (Machine.not_sleep_load _ _ _ _)
  | @step m ms h ih =>
    rcases List.mem_append.1 hm with hm | hm
    · obtain ⟨m₀, hm₀, before⟩ := ih hm
      exact ⟨m₀, List.mem_append_left _ hm₀, before⟩
    · obtain rfl := List.mem_singleton.1 hm
      exact ⟨m, List.mem_append_right _ (List.mem_singleton.2 rfl), rfl, h.reachable.retires_of_sleep top⟩

/-- A binding that puts its process to sleep is about to do so, or has set a timer for it. -/
theorem handed_of_retires (h : Trail b m ms) {m₀ : Machine κ σ} (hm : m₀ ∈ ms)
    (retires : m₀.Retires t span) :
    m.directive? = some (.sleep span t) ∨ ∃ key, .handed (.timer key) false ∈ fate ms t := by
  induction h with
  | new config user code => cases hm
  | @load m ms code h hs hf ih =>
    rcases ih hm with top | handed
    · obtain ⟨α, w, fr, k, s, rfl⟩ := Machine.eq_of_directive? top
      cases hs
    · exact .inr handed
  -- What is about to sleep before the step sleeps after it; a binding that begins in this step is
  -- about to sleep next.
  | @step m ms h ih =>
    rcases List.mem_append.1 hm with hm | hm
    · refine .inr ?_
      simp only [fate_snoc, List.mem_append]
      rcases ih hm with top | ⟨key, handed⟩
      · exact ⟨_, .inr (h.stage_of_sleep top).2⟩
      · exact ⟨key, .inl handed⟩
    · obtain rfl := List.mem_singleton.1 hm
      obtain ⟨begins, e, hr⟩ := retires
      obtain ⟨g, e', n, k, s, hr', stack⟩ := Machine.step_of_begins (b := b) begins
      have moved := Deed.moved.inj (Prod.mk.inj (List.cons.inj (hr.symm.trans hr')).1).2
      obtain rfl : Binding.sleep span = g := Task.native.inj (Move.mk.inj moved).1
      have going := (Machine.transition b m₀).going_of_record (by rw [hr]; exact List.cons_ne_nil _ _)
      left
      rw [Machine.directive?, going, stack]
      rfl

/-- What has been handed in for a process that sleeps is its timer. -/
theorem handed_of_asleep (h : Trail b m ms) {c : Option (Cancel κ)}
    (pending : m.world.stage t = .pending c) :
    fate ms t = .begun :: (c.map fun c' => .handed c' false).toList := by
  have course := h.course_and_proper.1 t
    (binding_pos_of_pending (h.reachable.entitled t.pid) pending)
  rw [pending] at course
  generalize fate ms t = word at course
  cases course <;> rfl

/-- No two timers wake one process. -/
theorem nodup_sleepers (h : Trail b m ms) (slumbers : m.Slumbers) :
    (m.world.host.timers.filterMap Timer.sleeper?).Nodup := by
  have sound := h.reachable.timely.timetable
  refine List.pairwise_filterMap.2 (List.Pairwise.imp_of_mem ?_ sound.distinct)
  rintro ⟨key, a⟩ ⟨key', a'⟩ hu hv other p hp q hq rfl
  cases a with
  | thunk c => cases hp
  | wake t =>
    cases a' with
    | thunk c => cases hq
    | wake t' =>
      have same : t.pid = t'.pid := (Option.some.inj hp).trans (Option.some.inj hq).symm
      obtain ⟨x, hx, awaiting⟩ :=
        (stage_eq_pending (h.reachable.entitled _)).1 ((slumbers t key).1 hu)
      obtain ⟨y, hy, awaiting'⟩ :=
        (stage_eq_pending (h.reachable.entitled _)).1 ((slumbers t' key').1 hv)
      rw [same, hy] at hx
      obtain rfl := Option.some.inj hx
      obtain ⟨-, cancel⟩ := Root.awaiting.inj (awaiting.symm.trans awaiting')
      exact other (congrArg TimerKey.serial (Cancel.timer.inj (Option.some.inj cancel)))

/-- Taking the first timer out leaves the others. -/
theorem mem_others (sound : m.world.timetable.Sound) {us : List (Timer κ)} {v : Timer κ}
    (timers : m.world.host.timers = v :: us) (u : Timer κ) :
    u ∈ us ↔ u ∈ m.world.host.timers ∧ u ≠ v := by
  have distinct : (v :: us).Pairwise fun u v : Timer κ => u.key.serial ≠ v.key.serial :=
    timers ▸ sound.distinct
  rw [timers, List.mem_cons]
  constructor
  · intro mem
    refine ⟨.inr mem, ?_⟩
    rintro rfl
    exact (List.pairwise_cons.1 distinct).1 u mem rfl
  · rintro ⟨rfl | mem, other⟩
    · exact absurd rfl other
    · exact mem

/-- A process sleeps if the binding that it awaits has been begun to put it to sleep. -/
theorem asleep_of_retires (h : Trail b m ms) {m₀ : Machine κ σ} (hm : m₀ ∈ ms)
    (retires : m₀.Retires t span) {x : Proc κ} {c : Option (Cancel κ)}
    (hx : m.world.procs.get? t.pid = some x) (awaiting : x.root = .awaiting t.binding c) :
    m.directive? = some (.sleep span t) ∨ ∃ key, m.world.Asleep t key := by
  rcases h.handed_of_retires hm retires with top | ⟨key, handed⟩
  · exact .inl top
  have pending := (stage_eq_pending (h.reachable.entitled _)).2 ⟨x, hx, awaiting⟩
  rw [h.handed_of_asleep pending] at handed
  cases c with
  | none => cases List.mem_singleton.1 handed
  | some c =>
    rcases List.mem_cons.1 handed with same | handed
    · cases same
    · obtain ⟨rfl, -⟩ := Incident.handed.inj (List.mem_singleton.1 handed)
      exact .inr ⟨key, x, hx, awaiting⟩

/-- The timer of a process that sleeps has been set when it was put to sleep. -/
theorem retired (h : Trail b m ms) (sleeps : m.world.Asleep t key) :
    ∃ m₀ ∈ ms, ∃ m₁ ∈ ms, ∃ span, m₀.Retires t span ∧ m₁ = m₀.step b ∧
      m₁.directive? = some (.sleep span t) ∧
      key = ⟨Time.later m₁.world.host.now span, m₁.world.host.serial⟩ := by
  have pending := (asleep_iff (h.reachable.entitled _)).1 sleeps
  have handed : .handed (.timer key) false ∈ fate ms t := by
    rw [h.handed_of_asleep pending]
    exact List.mem_cons_of_mem _ (List.mem_singleton.2 rfl)
  obtain ⟨m₁, hm₁, happens⟩ := List.mem_flatMap.1 handed
  obtain ⟨span, top, hk⟩ := Machine.sleep_of_offer (Machine.offer_of_handed happens).1
  obtain ⟨m₀, hm₀, next, retires⟩ := h.retires (List.mem_append_left _ hm₁) top
  exact ⟨m₀, hm₀, m₁, hm₁, span, retires, next, top, hk⟩

/-- To kill a process that sleeps removes its timer, and no other one. -/
theorem kill_sleeper (h : Trail b m ms) (here : m.world.reachable = true)
    (sleeps : m.world.Asleep t key) (top : m.directive? = some (.request (.kill t.pid))) :
    (m.step b).world.procs.isAlive t.pid = false ∧
      ∀ u, u ∈ (m.step b).world.host.timers ↔ u ∈ m.world.host.timers ∧ u ≠ ⟨key, .wake t⟩ := by
  have slumbers := h.slumbers here
  have pending := (asleep_iff (h.reachable.entitled _)).1 sleeps
  obtain ⟨x, hx, awaiting⟩ := sleeps
  have live : x.isDead = false := by rw [Proc.isDead, awaiting]; rfl
  have off : Directive.calledOff? m.world (.request (.kill t.pid)) = some (.timer key) := by
    rw [Directive.calledOff?, if_pos here, kill_of_alive hx live]
    exact x.cancel?_eq.trans (by rw [awaiting]; rfl)
  have timers : (m.step b).world.host.timers = _ :=
    congrArg Timetable.timers (Machine.timetable_of_kill top off)
  have gone := Machine.mem_filter_wake h.reachable.timely.timetable ((slumbers t key).2 pending)
  rw [timers]
  refine ⟨?_, gone⟩
  -- Of what may become of a sleeper, going on contradicts the timer that is gone, and being
  -- resumed is not what a kill reports.
  rcases h.slumber slumbers here pending with ⟨-, stays⟩ | ⟨-, dead, -⟩ | ⟨record, -⟩
  · rw [timers] at stays
    exact absurd rfl ((gone _).1 stays).2
  · cases hy : (m.step b).world.procs.get? t.pid with
    | none => rw [ProcTable.isAlive, hy]
    | some y =>
      obtain ⟨-, root⟩ := root_of_stage hy (by simp [dead]) (by simp [dead])
      rw [dead] at root
      rw [isAlive_of_get? hy, Proc.isDead]
      cases hr : y.root with
      | dead => rfl
      | _ => rw [hr] at root; cases root
  · rw [Machine.record_of_directive? top] at record
    have record : Request.record m.world (.kill t.pid) = [(t.pid, .completed (.succeed .unit))] := record
    rw [Request.record] at record
    split at record
    · cases record
    · cases record

/-- A process that is not killed sleeps until its timer fires, and is resumed then. -/
theorem spare_sleeper (h : Trail b m ms) (here : m.world.reachable = true)
    (sleeps : m.world.Asleep t key) (spared : m.directive? ≠ some (.request (.kill t.pid))) :
    ((m.step b).world.Asleep t key ∧ ⟨key, .wake t⟩ ∈ (m.step b).world.host.timers) ∨
      (m.record = [(t.pid, .completed (.succeed .unit))] ∧ (m.step b).world.host.now = key.due ∧
        ∀ u, u ∈ (m.step b).world.host.timers ↔
          u ∈ m.world.host.timers ∧ u ≠ ⟨key, .wake t⟩) := by
  have pending := (asleep_iff (h.reachable.entitled _)).1 sleeps
  rcases h.slumber (h.slumbers here) here pending with ⟨stage, timer⟩ | ⟨top, -⟩ |
    ⟨record, -, us, timers, timetable⟩
  · exact .inl ⟨(asleep_iff (h.reachable.step.entitled _)).2 stage, timer⟩
  · exact absurd top spared
  · have rest : (m.step b).world.host.timers = us := congrArg Timetable.timers timetable
    rw [rest]
    exact .inr ⟨record, congrArg Timetable.now timetable,
      mem_others h.reachable.timely.timetable timers⟩

/-- A message does not wake a process. -/
theorem send_to_sleeper (h : Trail b m ms) (here : m.world.reachable = true) {p : Pid} {v : Value κ}
    (top : m.directive? = some (.request (.send p v))) (sleeps : m.world.Asleep t key) :
    (m.step b).world.Asleep t key := by
  have other : m.directive? ≠ some (.request (.kill t.pid)) := by
    rw [top]
    simp
  rcases h.spare_sleeper here sleeps other with ⟨still, -⟩ | ⟨record, -⟩
  · exact still
  · rw [Machine.record_of_directive? top] at record
    have record : Request.record m.world (.send p v) = [(t.pid, .completed (.succeed .unit))] := record
    rw [Request.record, if_pos here] at record
    split at record
    · cases record
    · cases record

/-- As long as there is a runtime the timers that wake a process and the processes that sleep stand one
for one. A process sleeps if the binding that it awaits has been begun to put it to sleep, and its timer is
due when the span has passed that it was to sleep, as far as time goes; the clock does not go past that
before. To kill it removes just its own timer. Otherwise every step leaves it asleep and its timer in its
place, unless the timer fires; then the process is resumed, and nothing is done to any other process. In
particular a message neither wakes it nor touches a timer. -/
theorem sleepers (h : Trail b m ms) (here : m.world.reachable = true) :
    (∀ t key, ⟨key, .wake t⟩ ∈ m.world.host.timers ↔ m.world.Asleep t key) ∧
    (m.world.host.timers.filterMap Timer.sleeper?).Nodup ∧
    (∀ m₀ ∈ ms, ∀ t span, m₀.Retires t span → ∀ x c, m.world.procs.get? t.pid = some x →
      x.root = .awaiting t.binding c →
        m.directive? = some (.sleep span t) ∨ ∃ key, m.world.Asleep t key) ∧
    (∀ t key, m.world.Asleep t key → m.world.host.now ≤ key.due ∧
      ∃ m₀ ∈ ms, ∃ m₁ ∈ ms, ∃ span, m₀.Retires t span ∧ m₁ = m₀.step b ∧
        m₁.directive? = some (.sleep span t) ∧
        key = ⟨Time.later m₁.world.host.now span, m₁.world.host.serial⟩) ∧
    (∀ t key, m.world.Asleep t key → m.directive? = some (.request (.kill t.pid)) →
      (m.step b).world.procs.isAlive t.pid = false ∧
      ∀ u, u ∈ (m.step b).world.host.timers ↔ u ∈ m.world.host.timers ∧ u ≠ ⟨key, .wake t⟩) ∧
    (∀ t key, m.world.Asleep t key → m.directive? ≠ some (.request (.kill t.pid)) →
      ((m.step b).world.Asleep t key ∧ ⟨key, .wake t⟩ ∈ (m.step b).world.host.timers) ∨
      (m.record = [(t.pid, .completed (.succeed .unit))] ∧
        (m.step b).world.host.now = key.due ∧
        ∀ u, u ∈ (m.step b).world.host.timers ↔ u ∈ m.world.host.timers ∧ u ≠ ⟨key, .wake t⟩)) ∧
    (∀ p v, m.directive? = some (.request (.send p v)) →
      (m.step b).world.host.timers = m.world.host.timers ∧
      ∀ t key, m.world.Asleep t key → (m.step b).world.Asleep t key) := by
  have slumbers := h.slumbers here
  have asleep : ∀ {t key}, m.world.Asleep t key ↔ m.world.stage t = .pending (some (.timer key)) :=
    asleep_iff (h.reachable.entitled _)
  refine ⟨fun t key => (slumbers t key).trans asleep.symm, h.nodup_sleepers slumbers, ?_, ?_, ?_, ?_, ?_⟩
  · intro m₀ hm t span retires x c hx awaiting
    exact h.asleep_of_retires hm retires hx awaiting
  · intro t key sleeps
    have timer := (slumbers t key).2 (asleep.1 sleeps)
    exact ⟨(h.reachable.timely.timetable.ahead _ timer).1, h.retired sleeps⟩
  · intro t key sleeps top
    exact h.kill_sleeper here sleeps top
  · intro t key sleeps spared
    exact h.spare_sleeper here sleeps spared
  · intro p v top
    refine ⟨congrArg Timetable.timers (Machine.timetable_of_send top), fun t key sleeps => ?_⟩
    exact h.send_to_sleeper here top sleeps

end Trail

/-- Two processes that sleep for the same span; the first one is sent a message and killed. -/
def dormitory : Machine Empty Unit :=
  let code : Code Empty Unit Unit :=
    (Code.ask (.spawn (.native (.sleep 5)))).bind fun _ =>
      (Code.ask (.spawn (.native (.sleep 5)))).bind fun _ =>
        (Code.ask (.drive .idle)).bind fun _ =>
          (Code.ask (.send ⟨1⟩ .unit)).bind fun _ =>
            (Code.ask (.kill ⟨1⟩)).bind fun _ =>
              (Code.ask (.drive (.advance 7))).bind fun _ => .ret ()
  .load (.new .standard ()) (Procedure.ofCode code)

/-- The kill removes the timer of the first one, and the other one sleeps on. -/
theorem dormitory_in_step :
    (Machine.run .empty 15 dormitory).world.Asleep ⟨⟨1⟩, 1⟩ ⟨5, 0⟩ ∧
      (Machine.run .empty 15 dormitory).world.Asleep ⟨⟨2⟩, 1⟩ ⟨5, 1⟩ ∧
      (∀ u, u ∈ ((Machine.run .empty 15 dormitory).step .empty).world.host.timers ↔
        u ∈ (Machine.run .empty 15 dormitory).world.host.timers ∧
          u ≠ ⟨⟨5, 0⟩, .wake ⟨⟨1⟩, 1⟩⟩) ∧
      ((Machine.run .empty 15 dormitory).step .empty).world.Asleep ⟨⟨2⟩, 1⟩ ⟨5, 1⟩ := by
  have begin : Trail .empty dormitory [] := .new _ _ _
  obtain ⟨one, -, -, -, killed, spared, -⟩ := (begin.run 15).sleepers rfl
  have timers : (Machine.run .empty 15 dormitory).world.host.timers =
      [⟨⟨5, 0⟩, .wake ⟨⟨1⟩, 1⟩⟩, ⟨⟨5, 1⟩, .wake ⟨⟨2⟩, 1⟩⟩] := rfl
  have first := (one ⟨⟨1⟩, 1⟩ ⟨5, 0⟩).1 (by rw [timers]; exact List.mem_cons_self)
  have second := (one ⟨⟨2⟩, 1⟩ ⟨5, 1⟩).1
    (by rw [timers]; exact List.mem_cons_of_mem _ List.mem_cons_self)
  have top : (Machine.run .empty 15 dormitory).directive? = some (.request (.kill ⟨1⟩)) := rfl
  have others : (Machine.run .empty 15 dormitory).directive? ≠ some (.request (.kill ⟨2⟩)) := by
    rw [top]
    simp
  have still : (Machine.run .empty 15 dormitory).record ≠
      [(⟨2⟩, .completed (.succeed .unit))] := by
    rw [Machine.record_of_directive? top]
    exact nofun
  refine ⟨first, second, (killed _ _ first top).2, ?_⟩
  rcases spared _ _ second others with ⟨sleeps, -⟩ | ⟨record, -⟩
  · exact sleeps
  · exact absurd record still

end Actors
