/-
Calling bindings off.

When a process is killed while a binding is pending, what has been handed in to call the binding off
is run before the code goes on that has asked for this; and what is handed in by a start function
that returns only then is run as soon as it returns. Thunks are entered in no other way, but for
those that the host runs. After that the process is dead, and neither another kill nor a ticket that
is left does anything.

What calls a binding off is not run once the binding has been completed, with one exception: if the
process is killed between the completion and the return of the start function, then the start
function finds the process dead, and what it returns is run.

* `Machine.KillRuns`, `Machine.StartRuns` — how a step runs what calls a binding off;
* `Trail.killed_while_pending` — a binding is called off once;
* `Trail.completed_before_killed` — when a completed binding is called off.
-/
import Actors.Proofs.Course

namespace Actors

variable {κ σ α : Type} {b : Behaviour κ σ}

open World

/-! ### Kills -/

/-- A process is killed by request only, and only if it is alive. -/
theorem Directive.kill_of_record {w : World κ σ} {d : Directive κ σ} {p : Pid}
    (h : (p, .killed) ∈ d.record w) :
    d = .request (.kill p) ∧ w.reachable = true ∧ w.procs.isAlive p = true := by
  cases Directive.records h with
  | killed here alive => exact ⟨rfl, here, alive⟩

theorem Transition.kill_of_record {m m' : Machine κ σ} {r : Record κ} (tr : Transition b m r m')
    {p : Pid} (h : (p, .killed) ∈ r) :
    ∃ (α : Type) (w : World κ σ) (fr : Frame κ σ α) (k : Unit → Procedure κ σ α)
      (s : List (Activity κ σ)),
      m = ⟨w, fr.fill (.run (.op (S := directives κ σ) (.request (.kill p)) k)) :: s, none⟩ ∧
        w.reachable = true ∧ w.procs.isAlive p = true := by
  cases tr with
  | @code w w' s α fr d k code hd =>
    obtain ⟨rfl, here, alive⟩ := Directive.kill_of_record h
    exact ⟨α, w, fr, k, s, rfl, here, alive⟩
  | woken op cause =>
    obtain ⟨t, w₁, -, -, rfl⟩ := cause
    split at h
    · cases (Prod.mk.inj (eq_completed_of_mem_resumed h)).2
    · cases h
  | pushed => cases (Prod.mk.inj (List.mem_singleton.1 h)).2
  | entered => cases (Prod.mk.inj (List.mem_singleton.1 h)).2
  | started => cases (Prod.mk.inj (List.mem_singleton.1 h)).2
  | exited => cases (Prod.mk.inj (List.mem_singleton.1 h)).2
  | returned => cases (Prod.mk.inj (List.mem_singleton.1 h)).2
  | _ => cases h

/-- A binding that is struck by a kill is the latest one of the process. -/
theorem Machine.killed_of_happens {m : Machine κ σ} {t : Ticket} {pending : Bool}
    {run : Option (Cancel κ)} (h : .killed pending run ∈ m.happens t) :
    (t.pid, .killed) ∈ m.record ∧ ∃ x, m.world.procs.get? t.pid = some x ∧
      t.binding = x.binding ∧ pending = x.root.isAwaiting ∧ run = x.root.cancel? := by
  obtain ⟨x, hx, ⟨d, hd, hi⟩ | ⟨c, -, hi⟩⟩ := Machine.mem_happens.1 h
  · unfold Proc.incidents at hi
    split at hi
    · simp at hi
    · simp at hi
    · obtain ⟨ht, hi⟩ := Prod.mk.inj (List.mem_singleton.1 hi)
      obtain ⟨rfl, rfl⟩ := Incident.killed.inj hi
      exact ⟨hd, x, hx, ht, rfl, rfl⟩
    · cases hi
  · cases hi

/-- What the step of an operation leads to. -/
theorem Frame.step_next (fr : Frame κ σ α) {w w' : World κ σ} {d : Directive κ σ}
    {k : d.Reply → Procedure κ σ α} {code : Procedure κ σ α} (h : d.step b w k = .next w' code)
    (s : List (Activity κ σ)) :
    Machine.step b ⟨w, fr.fill (.run (.op d k)) :: s, none⟩ =
      ⟨w', fr.fill (.run code) :: s, none⟩ := by
  have hs : Machine.step b ⟨w, fr.fill (.run (.op d k)) :: s, none⟩ =
      Machine.stepCode b w fr.fill s d k := by cases fr <;> rfl
  rw [hs, Machine.stepCode, h]

/-- The next step kills a process and runs what calls its binding off: a timer is removed, and a
thunk is entered before the code goes on that has asked for the kill. -/
def Machine.KillRuns (b : Behaviour κ σ) (m : Machine κ σ) (p : Pid) (c : Cancel κ) : Prop :=
  ∃ (α : Type) (fr : Frame κ σ α) (k : Unit → Procedure κ σ α) (s : List (Activity κ σ)),
    m.stack = fr.fill (.run (.op (S := directives κ σ) (.request (.kill p)) k)) :: s ∧
      match c with
      | .thunk c =>
        (m.step b).stack = fr.fill (.run ((Procedure.invoke (.thunk c)).bind fun _ => k ())) :: s
      | .timer key =>
        (m.step b).stack = fr.fill (.run (k ())) :: s ∧
          (m.step b).world.host = m.world.host.unsetWake key

theorem World.host_kill (w : World κ σ) (p : Pid) : (w.kill p).1.host = w.host := by
  cases ha : w.procs.isAlive p with
  | false => rw [kill_of_dead ha]
  | true =>
    obtain ⟨x, hx, alive⟩ := ProcTable.isAlive_iff.1 ha
    rw [kill_of_alive hx alive]
    rfl

theorem Machine.killRuns_of_happens {m : Machine κ σ} {t : Ticket} {pending : Bool} {c : Cancel κ}
    (h : .killed pending (some c) ∈ m.happens t) : m.KillRuns b t.pid c := by
  obtain ⟨hr, x, hx, -, -, hc⟩ := Machine.killed_of_happens h
  obtain ⟨α, w, fr, k, s, rfl, here, alive⟩ := (Machine.transition b m).kill_of_record hr
  refine ⟨α, fr, k, s, rfl, ?_⟩
  have hd : Directive.step b w (.request (.kill t.pid)) k =
      Progress.callOff (w.kill t.pid).1 (w.kill t.pid).2 (k ()) := if_pos here
  rw [isAlive_of_get? hx, Bool.not_eq_true'] at alive
  rw [congrArg Prod.snd (kill_of_alive hx alive), Proc.cancel?_eq, ← hc] at hd
  cases c with
  | thunk c => exact congrArg stack (fr.step_next hd s)
  | timer key =>
    have step := fr.step_next hd s
    refine ⟨congrArg stack step, (congrArg (World.host ∘ world) step).trans ?_⟩
    exact congrArg (Host.unsetWake · key) (w.host_kill t.pid)

/-! ### Start functions that return late -/

/-- A start function has returned a thunk, which the next step enters. -/
def Machine.StartRuns (b : Behaviour κ σ) (m : Machine κ σ) (t : Ticket) (c : κ) : Prop :=
  ∃ n k s, m.stack = .tick n k (.starting t.pid (.run (Procedure.handIn t (some c)))) :: s ∧
    (m.step b).stack = .tick n k
      (.starting t.pid (.run ((Procedure.invoke (.thunk c)).bind fun _ => .ret ()))) :: s

theorem Trail.startRuns_of_happens {m : Machine κ σ} {ms : List (Machine κ σ)} (h : Trail b m ms)
    {t : Ticket} {c : Cancel κ} (hc : .handed c true ∈ m.happens t) :
    ∃ c', c = .thunk c' ∧ m.StartRuns b t c' := by
  obtain ⟨offer, x, hx, dead⟩ := Machine.offer_of_handed hc
  have proper := h.course_and_proper.2
  rcases (Machine.transition b m).hand_of_offer proper offer with
    ⟨c', rfl, -, w, n, k, s, rfl⟩ | leave
  · refine ⟨c', rfl, n, k, s, rfl, ?_⟩
    have root : x.root = .dead := Proc.isDead_iff.1 dead.symm
    have attached : w.attach t (.thunk c') = (w, some (.thunk c')) := attach_of_dead hx root _
    have hd : Directive.step b w (.attach t c') (fun u => (.ret u : Procedure κ σ Unit)) =
        .next w ((Procedure.invoke (.thunk c')).bind fun _ => .ret ()) := by
      simp only [Directive.step, attached]
      rfl
    exact congrArg Machine.stack ((Frame.starting n k t.pid).step_next hd s)
  · rw [World.alive_of_pending leave.2.1 hx] at dead
    cases dead

/-- A start function that returns a thunk hands it in. -/
theorem Trail.handed_of_return {m : Machine κ σ} {ms : List (Machine κ σ)} (h : Trail b m ms)
    {t : Ticket} {c : κ} {n k : Nat} {s : List (Activity κ σ)} (hf : m.fault = none)
    (hs : m.stack = .tick n k (.starting t.pid (.run (Procedure.handIn t (some c)))) :: s) :
    ∃ late, .handed (.thunk c) late ∈ m.happens t := by
  have offer : m.offer? = some (t, .thunk c) := by
    rw [Machine.offer?, Machine.directive?, hf, hs]
    rfl
  have opened : Course.Open (m.world.stage t) (fate ms t) := by
    rcases (Machine.transition b m).hand_of_offer h.course_and_proper.2 offer with
      ⟨c', -, leave, -⟩ | leave
    · exact leave.2
    · exact (Leave.open_of_start leave).2
  cases hx : m.world.procs.get? t.pid with
  | none =>
    rw [World.stage_eq_unborn hx] at opened
    cases opened
  | some x => exact ⟨x.isDead, Machine.mem_happens.2 ⟨x, hx, .inr ⟨_, offer, rfl⟩⟩⟩

/-! ### Thunks -/

/-- What is run in an incident to call a binding off. -/
def Incident.run? : Incident κ → Option (Cancel κ)
  | .killed _ run => run
  | .handed c true => some c
  | _ => none

theorem Machine.record_of_directive? {m : Machine κ σ} {d : Directive κ σ}
    (h : m.directive? = some d) : m.record = d.record m.world := by
  obtain ⟨w, stack, fault⟩ := m
  cases fault with
  | some f => cases h
  | none =>
    cases stack with
    | nil => cases h
    | cons a s =>
      have ha : a.directive? = some d := h
      unfold Activity.directive? at ha
      split at ha <;> cases ha <;> rfl

/-- A kill strikes the latest binding of the process. -/
theorem Machine.happens_of_kill {m : Machine κ σ} {p : Pid} {x : Proc κ}
    (hd : m.directive? = some (.request (.kill p))) (here : m.world.reachable = true)
    (hx : m.world.procs.get? p = some x) (alive : x.isDead = false) :
    .killed x.root.isAwaiting x.root.cancel? ∈ m.happens ⟨p, x.binding⟩ := by
  have alive : m.world.procs.isAlive p = true := by
    rw [isAlive_of_get? hx, alive]
    rfl
  refine Machine.mem_happens.2 ⟨x, hx, .inl ⟨.killed, ?_, List.mem_singleton.2 rfl⟩⟩
  simp only [Machine.record_of_directive? hd, Directive.record, Request.record, here, alive,
    Bool.and_self, if_true, List.mem_singleton]

/-- What a step runs to call a binding off is run for an incident of this binding. -/
theorem Machine.happens_of_calledOff {m : Machine κ σ} {c : Cancel κ}
    (h : m.calledOff? = some c) : ∃ t, ∃ i ∈ m.happens t, i.run? = some c := by
  obtain ⟨d, hd, hc⟩ := Option.bind_eq_some_iff.1 h
  -- Two directives call something off: a kill what the binding of the killed process has left,
  -- and a start that returns too late its own thunk.
  cases d with
  | request r =>
    cases r with
    | kill p =>
      simp only [Directive.calledOff?] at hc
      split at hc
      · next here =>
        cases ha : m.world.procs.isAlive p with
        | false =>
          rw [kill_of_dead ha] at hc
          cases hc
        | true =>
          obtain ⟨x, hx, alive⟩ := ProcTable.isAlive_iff.1 ha
          rw [kill_of_alive hx alive, Proc.cancel?_eq] at hc
          exact ⟨⟨p, x.binding⟩, _, Machine.happens_of_kill hd here hx alive, hc⟩
      · cases hc
    | _ => cases hc
  | attach t c' =>
    have offer : m.offer? = some (t, .thunk c') := by
      rw [Machine.offer?, hd]
      rfl
    have hc : (m.world.attach t (.thunk c')).2 = some c := hc
    have how := m.world.attaches t (.thunk c')
    generalize m.world.attach t (.thunk c') = e at hc how
    cases how with
    | kept => cases hc
    | @late x hx dead =>
      obtain rfl := Option.some.inj hc
      refine ⟨t, .handed (.thunk c') true, Machine.mem_happens.2 ⟨x, hx, .inr ⟨_, offer, ?_⟩⟩, rfl⟩
      rw [Proc.isDead_iff.2 dead]
    | lost => cases hc
  | _ => cases hc

/-- A thunk is entered only by a step that runs it to call a binding off, or takes it out of the host. -/
theorem Reachable.thunk_of_call {m : Machine κ σ} (h : Reachable b m) {c : κ}
    (hc : (m.step b).call? = some (.thunk c)) : m.calledOff? = some (.thunk c) ∨ m.Defers c := by
  let called : Leave κ :=
    { (Leave.full : Leave κ) with call := fun c => m.calledOff? = some (.thunk c) ∨ m.Defers c }
  have proper : (m.step b).Proper called :=
    h.proper.transition h.sound (Machine.transition b m) (fun _ _ _ _ => trivial)
      (fun _ _ _ _ _ _ _ => trivial) fun c hc => hc
  exact proper.allows hc

/-- A thunk is entered only to call a binding off, or because the host runs it. -/
theorem Reachable.run_of_call {m : Machine κ σ} (h : Reachable b m) {c : κ}
    (hc : (m.step b).call? = some (.thunk c)) :
    m.Defers c ∨ ∃ t, ∃ i ∈ m.happens t, i.run? = some (.thunk c) :=
  (h.thunk_of_call hc).symm.imp_right Machine.happens_of_calledOff

/-! ### After a kill -/

theorem Completion.not_killed {is : List (Incident κ)} (h : Completion is) {pending : Bool}
    {run : Option (Cancel κ)} : .killed pending run ∉ is := by
  cases h <;> simp

/-- Nothing is run for a binding that is completed and not struck by a kill. -/
theorem Completion.run_nothing {is : List (Incident κ)} (h : Completion is) :
    is.filterMap Incident.run? = [] := by
  cases h <;> rfl

/-- A binding that has been killed while it was pending is called off once, if at all. -/
theorem Course.of_killed {s : Stage κ} {is : List (Incident κ)} (h : Course s is)
    {run : Option (Cancel κ)} (killed : .killed true run ∈ is) :
    s = .dead ∧ ∀ c late, .handed c late ∈ is →
      is = [.begun, .handed c false, .killed true (some c)] ∨
        ∃ c', c = .thunk c' ∧ is = [.begun, .killed true none, .handed c true] := by
  -- Three courses hold a kill of a pending binding: nothing is handed in, or before it, or after it.
  -- A binding that is completed is no longer pending.
  cases h with
  | unborn => cases killed
  | begun => simp at killed
  | kept c => simp at killed
  | done completion => exact absurd killed completion.not_killed
  | past completion => exact absurd killed completion.not_killed
  | exited completion => exact absurd killed completion.not_killed
  | struck completion =>
    rcases List.mem_append.1 killed with killed | killed
    · exact absurd killed completion.not_killed
    · simp at killed
  | overrun c => simp at killed
  | killed =>
    refine ⟨rfl, fun c late handed => ?_⟩
    simp at handed
  | called c =>
    refine ⟨rfl, fun c' late handed => ?_⟩
    simp only [List.mem_cons, reduceCtorEq, Incident.handed.injEq, List.not_mem_nil, or_false,
      false_or] at handed
    exact .inl (by rw [handed.1])
  | caught c =>
    refine ⟨rfl, fun c' late handed => ?_⟩
    simp only [List.mem_cons, reduceCtorEq, Incident.handed.injEq, List.not_mem_nil, or_false,
      false_or] at handed
    obtain ⟨rfl, -⟩ := handed
    exact .inr ⟨c, rfl, rfl⟩

/-- Nothing is run for a binding that has been completed, unless its start function returns after
the process has been killed. -/
theorem Course.of_completed {s : Stage κ} {is : List (Incident κ)} (h : Course s is)
    (completed : .completed ∈ is) :
    is.filterMap Incident.run? = [] ∨
      ∃ c, is = [.begun, .completed, .killed false none, .handed (.thunk c) true] := by
  cases h with
  | unborn => cases completed
  | begun => simp at completed
  | kept c => simp at completed
  | done completion => exact .inl completion.run_nothing
  | past completion => exact .inl completion.run_nothing
  | exited completion => exact .inl completion.run_nothing
  | killed => simp at completed
  | called c => simp at completed
  | caught c => simp at completed
  | struck completion =>
    left
    rw [List.filterMap_append, completion.run_nothing]
    rfl
  | overrun c => exact .inr ⟨c, rfl⟩

theorem Trail.pos_of_fate {m : Machine κ σ} {ms : List (Machine κ σ)} (h : Trail b m ms)
    {t : Ticket} (ht : .completed ∈ fate ms t ∨ ∃ run, .killed true run ∈ fate ms t) :
    0 < t.binding := by
  obtain ⟨m', hm, ht⟩ : ∃ m' ∈ ms,
      .completed ∈ m'.happens t ∨ ∃ run, .killed true run ∈ m'.happens t := by
    rcases ht with ht | ⟨run, ht⟩
    · obtain ⟨m', hm, ht⟩ := List.mem_flatMap.1 ht
      exact ⟨m', hm, .inl ht⟩
    · obtain ⟨m', hm, ht⟩ := List.mem_flatMap.1 ht
      exact ⟨m', hm, .inr ⟨run, ht⟩⟩
  have reached := h.reachable_of_mem hm
  have affair := (Machine.transition b m').affair reached.proper reached.sound t.pid
  exact affair.pos (reached.entitled t.pid)
    (ht.imp mem_happening.1 fun ⟨run, hr⟩ => ⟨run, mem_happening.1 hr⟩)

namespace World

variable {w w' : World κ σ} {t : Ticket} {x : Proc κ}

theorem dead_of_stage (h : w.stage t = .dead) :
    ∃ x, w.procs.get? t.pid = some x ∧ x.root = .dead := by
  cases hx : w.procs.get? t.pid with
  | none => cases h.symm.trans (stage_eq_unborn hx)
  | some x =>
    rcases stage_of_get? hx with stage | stage | stage
    · cases h.symm.trans stage
    · cases h.symm.trans stage
    · refine ⟨x, rfl, ?_⟩
      cases hr : x.root with
      | dead => rfl
      | _ =>
        rw [hr] at stage
        cases h.symm.trans stage

theorem resume_of_dead (hx : w.procs.get? t.pid = some x) (dead : x.root = .dead) (task : Task κ) :
    ∃ w', w.resume t task = .ok w' ∧ Agree w w' := by
  have how := w.resumes t task
  generalize w.resumed t task = r at how
  generalize w.resume t task = g at how ⊢
  cases how with
  | completed hx' awaiting =>
    obtain rfl := Option.some.inj (hx.symm.trans hx')
    cases dead.symm.trans awaiting
  | discarded gone agree => exact ⟨_, rfl, agree⟩
  | failed hx' live =>
    obtain rfl := Option.some.inj (hx.symm.trans hx')
    exact absurd dead live

/-- A ticket of a dead process is used up in vain. -/
theorem complete_of_dead (hx : w.procs.get? t.pid = some x) (dead : x.root = .dead) (k : Holder)
    (task : Task κ) : ∃ w', w.complete k t task = .ok w' ∧ Agree w w' := by
  have spent : Agree w (w.spend t k) := agree_spend w t k
  have how := w.completes k t task
  generalize w.completed k t task = r at how
  generalize w.complete k t task = g at how ⊢
  cases how with
  | used held =>
    obtain ⟨w', done, agree⟩ := resume_of_dead (w := w.spend t k) hx dead task
    exact ⟨w', done, spent.trans agree⟩
  | lost held => exact ⟨_, rfl, spent⟩
  | absent => exact ⟨_, rfl, .refl w⟩

/-- A timer wakes a dead process in vain. -/
theorem wake_of_dead (hx : w.procs.get? t.pid = some x) (dead : x.root = .dead)
    (due : w.Due (.wake t) w') : ∃ w'', w'.wake t = .ok w'' ∧ Agree w w'' := by
  obtain ⟨limit, host, taken, rfl⟩ := due
  have fired := Machine.agree_takeDue taken
  unfold wake
  split
  · obtain ⟨w'', done, agree⟩ :=
      resume_of_dead (w := { w with host := host }) hx dead (.succeed .unit)
    exact ⟨w'', done, fired.trans agree⟩
  · exact ⟨_, rfl, fired⟩

end World

/-- A binding whose process has been killed while the binding was pending. If its start function has
returned what calls it off, this has been run once: by the kill, before the code went on that had
asked for it; or, if the start function returned later, at its return. No thunk is entered for
another reason, unless the host runs it. Further kills and what is left of the binding's ticket do
nothing. -/
theorem Trail.killed_while_pending {m : Machine κ σ} {ms : List (Machine κ σ)} (h : Trail b m ms)
    {t : Ticket} {run : Option (Cancel κ)} (killed : .killed true run ∈ fate ms t) :
    (∀ m' ∈ ms, ∀ n k s c, m'.fault = none →
      m'.stack = .tick n k (.starting t.pid (.run (Procedure.handIn t (some c)))) :: s →
      ∃ late, .handed (.thunk c) late ∈ fate ms t) ∧
    (∀ c late, .handed c late ∈ fate ms t →
      (fate ms t).filterMap Incident.run? = [c] ∧
      (fate ms t = [.begun, .handed c false, .killed true (some c)] ∨
        ∃ c', c = .thunk c' ∧ fate ms t = [.begun, .killed true none, .handed c true])) ∧
    (∀ m' ∈ ms, ∀ pending c, .killed pending (some c) ∈ m'.happens t → m'.KillRuns b t.pid c) ∧
    (∀ m' ∈ ms, ∀ c, .handed c true ∈ m'.happens t → ∃ c', c = .thunk c' ∧ m'.StartRuns b t c') ∧
    (∀ m' ∈ ms, ∀ c, (m'.step b).call? = some (.thunk c) →
      m'.Defers c ∨ ∃ t', ∃ i ∈ m'.happens t', i.run? = some (.thunk c)) ∧
    m.world.kill t.pid = (m.world, none) ∧
    (∀ holder task, ∃ w, m.world.complete holder t task = .ok w ∧ Agree m.world w) ∧
    (∀ w, m.world.Due (.wake t) w → ∃ w', w.wake t = .ok w' ∧ Agree m.world w') := by
  have course := h.course_and_proper.1 t (h.pos_of_fate (.inr ⟨run, killed⟩))
  obtain ⟨stage, once⟩ := course.of_killed killed
  obtain ⟨x, hx, dead⟩ := World.dead_of_stage stage
  have gone : m.world.procs.isAlive t.pid = false := by
    rw [isAlive_of_get? hx, Proc.isDead_iff.2 dead]
    rfl
  refine ⟨fun m' hm n k s c hf hs => ?_, fun c late handed => ⟨?_, once c late handed⟩,
    fun m' hm pending c => Machine.killRuns_of_happens, fun m' hm c hc => ?_,
    fun m' hm c => (h.reachable_of_mem hm).run_of_call, World.kill_of_dead gone,
    World.complete_of_dead hx dead, fun w => World.wake_of_dead hx dead⟩
  · obtain ⟨ms', h'⟩ := (h.reachable_of_mem hm).trail
    obtain ⟨late, handed⟩ := h'.handed_of_return hf hs
    exact ⟨late, List.mem_flatMap.2 ⟨m', hm, handed⟩⟩
  · rcases once c late handed with word | ⟨c', rfl, word⟩
    · rw [word]
      rfl
    · rw [word]
      rfl
  · obtain ⟨ms', h'⟩ := (h.reachable_of_mem hm).trail
    exact h'.startRuns_of_happens hc

/-- User code whose bindings do some work at once, and return what calls them off. -/
def startingWith (work : Ticket → Code Unit Unit Unit) : Behaviour Unit Unit :=
  { Behaviour.ofCallbacks fun _ v => .succeed v with
    start := fun _ t => (work t).bind fun _ => .ret (some ()) }

/-- A process with a single binding. -/
def lone : Machine Unit Unit :=
  let code : Code Unit Unit Unit :=
    (Code.ask (.spawn (.native (.code ())))).bind fun _ =>
      (Code.ask (.drive .idle)).bind fun _ => .ret ()
  .load (.new .standard ()) (Procedure.ofCode code)

/-- A start function that kills its process, and uses its ticket after that. -/
def desperate : Behaviour Unit Unit :=
  startingWith fun t =>
    (Code.ask (.kill t.pid)).bind fun _ => Code.ask (.complete t (.succeed .unit))

/-- What such a start function returns is run once, and the ticket is of no use. -/
theorem desperate_called_off :
    fate (Machine.passed desperate 20 lone) ⟨⟨1⟩, 1⟩ =
        [.begun, .killed true none, .handed (.thunk ()) true] ∧
      (fate (Machine.passed desperate 20 lone) ⟨⟨1⟩, 1⟩).filterMap Incident.run? =
        [.thunk ()] ∧
      (Machine.run desperate 20 lone).world.kill ⟨1⟩ =
        ((Machine.run desperate 20 lone).world, none) := by
  have begin : Trail desperate lone [] := .new _ _ _
  have h : Trail desperate (Machine.run desperate 20 lone) (Machine.passed desperate 20 lone) :=
    begin.run 20
  have word : fate (Machine.passed desperate 20 lone) ⟨⟨1⟩, 1⟩ =
      [.begun, .killed true none, .handed (.thunk ()) true] := rfl
  have killed : .killed true none ∈ fate (Machine.passed desperate 20 lone) ⟨⟨1⟩, 1⟩ := by
    rw [word]
    simp
  have handed : .handed (.thunk ()) true ∈ fate (Machine.passed desperate 20 lone) ⟨⟨1⟩, 1⟩ := by
    rw [word]
    simp
  obtain ⟨-, once, -, -, -, again, -⟩ := h.killed_while_pending killed
  exact ⟨word, (once _ _ handed).1, again⟩

/-- What calls a binding off is not run once the binding has been completed, unless the process is
killed between the completion and the return of the start function. -/
theorem Trail.completed_before_killed {m : Machine κ σ} {ms : List (Machine κ σ)}
    (h : Trail b m ms) {t : Ticket} (completed : .completed ∈ fate ms t) :
    ((fate ms t).filterMap Incident.run? = [] ∨
      ∃ c, fate ms t = [.begun, .completed, .killed false none, .handed (.thunk c) true]) ∧
    (∀ m' ∈ ms, ∀ c, (m'.step b).call? = some (.thunk c) →
      m'.Defers c ∨ ∃ t', ∃ i ∈ m'.happens t', i.run? = some (.thunk c)) :=
  ⟨(h.course_and_proper.1 t (h.pos_of_fate (.inl completed))).of_completed completed,
    fun _ hm _ => (h.reachable_of_mem hm).run_of_call⟩

/-- A start function that completes its binding. -/
def prompt : Behaviour Unit Unit :=
  startingWith fun t => Code.ask (.complete t (.succeed .unit))

/-- What such a start function returns is not run. -/
theorem prompt_not_called_off :
    fate (Machine.passed prompt 20 lone) ⟨⟨1⟩, 1⟩ =
        [.begun, .completed, .handed (.thunk ()) false] ∧
      (fate (Machine.passed prompt 20 lone) ⟨⟨1⟩, 1⟩).filterMap Incident.run? = [] := by
  have begin : Trail prompt lone [] := .new _ _ _
  have h : Trail prompt (Machine.run prompt 20 lone) (Machine.passed prompt 20 lone) := begin.run 20
  have word : fate (Machine.passed prompt 20 lone) ⟨⟨1⟩, 1⟩ =
      [.begun, .completed, .handed (.thunk ()) false] := rfl
  have completed : .completed ∈ fate (Machine.passed prompt 20 lone) ⟨⟨1⟩, 1⟩ := by
    rw [word]
    simp
  refine ⟨word, h.completed_before_killed completed |>.1.resolve_right fun ⟨c, other⟩ => ?_⟩
  rw [word] at other
  simp at other

/-- A start function that completes its binding and kills its process after that. -/
def hasty : Behaviour Unit Unit :=
  startingWith fun t =>
    (Code.ask (.complete t (.succeed .unit))).bind fun _ => Code.ask (.kill t.pid)

/-- What such a start function returns is run, although the binding has been completed. -/
theorem hasty_called_off :
    Trail hasty (Machine.run hasty 20 lone) (Machine.passed hasty 20 lone) ∧
      fate (Machine.passed hasty 20 lone) ⟨⟨1⟩, 1⟩ =
        [.begun, .completed, .killed false none, .handed (.thunk ()) true] ∧
      (Machine.passed hasty 20 lone).filterMap Machine.call? =
        [.start () ⟨⟨1⟩, 1⟩, .thunk ()] ∧
      ¬ ∀ (m : Machine Unit Unit) (ms : List (Machine Unit Unit)), Trail hasty m ms →
        ∀ t, .completed ∈ fate ms t → (fate ms t).filterMap Incident.run? = [] := by
  have begin : Trail hasty lone [] := .new _ _ _
  have h : Trail hasty (Machine.run hasty 20 lone) (Machine.passed hasty 20 lone) := begin.run 20
  have word : fate (Machine.passed hasty 20 lone) ⟨⟨1⟩, 1⟩ =
      [.begun, .completed, .killed false none, .handed (.thunk ()) true] := rfl
  refine ⟨h, word, rfl, fun never => ?_⟩
  have none := never _ _ h ⟨⟨1⟩, 1⟩ (by rw [word]; simp)
  rw [word] at none
  cases none

end Actors
