/-
The work queue and the pump.

Four pieces of state have to agree: the flag of each process, the work queue, the armed bit, and the
ticks that wait in the host. The flags and the queue are compared by the invariant of `Wakeup`,
which also bounds the number of ticks that wait or run. What is added here is that the pump is armed
while the queue is not empty, and that an armed pump has a tick that waits or runs. The latter holds
as long as the runtime is there: a tick of a runtime that is gone is lost, and since such a runtime
does not come back nobody is left to wait for it.

* `World.Pumped` — the invariant, for a number of ticks that run;
* `Reachable.pumped` — it holds throughout a run;
* `Reachable.queue_and_pump` — flags, queue, armed bit and ticks agree at every moment of a run.
-/
import Actors.Proofs.Proper
import Actors.Proofs.Purity
import Mathlib.Data.List.Nodup

namespace Actors

variable {κ σ : Type} {b : Behaviour κ σ}

open World Activity

/-- The pump is armed while there is work, and an armed pump has a tick that waits or runs, as far
as `live` holds. -/
structure World.Pumped (w : World κ σ) (live : Prop) (ticks : Nat) : Prop where
  stocked : w.queue ≠ [] → w.armed = true
  ticking : live → w.armed = true → 0 < w.host.pumps + ticks

namespace World.Pumped

variable {w w' : World κ σ} {live live' : Prop} {n : Nat} {p : Pid} {y : Proc κ}

theorem mono (h : w.Pumped live n) (hl : live' → live) : w.Pumped live' n :=
  ⟨h.stocked, fun here => h.ticking (hl here)⟩

theorem same (h : w.Pumped live n) (queue : w'.queue = w.queue) (armed : w'.armed = w.armed)
    (pumps : w'.host.pumps = w.host.pumps) : w'.Pumped live n := by
  refine ⟨?_, ?_⟩
  · rw [queue, armed]
    exact h.stocked
  · rw [armed, pumps]
    exact h.ticking

theorem agree (h : w.Pumped live n) (h' : Agree w w') : w'.Pumped live n :=
  h.same h'.queue h'.armed h'.pumps

theorem put (h : w.Pumped live n) (h' : Put w w' p y) : w'.Pumped live n :=
  h.same h'.queue h'.armed h'.pumps

/-- Arming the pump defers a tick unless there is one. -/
theorem arm (h : live → w.armed = true → 0 < w.host.pumps + n) : w.arm.Pumped live n := by
  unfold World.arm
  by_cases ha : w.armed = true
  · rw [if_pos ha]
    exact ⟨fun _ => ha, h⟩
  · rw [if_neg ha]
    have one : (w.host.defer .pump).pumps = w.host.pumps + 1 := Host.pumps_defer w.host .pump
    refine ⟨fun _ => rfl, fun _ _ => ?_⟩
    show 0 < (w.host.defer .pump).pumps + n
    omega

theorem enqueue (h : w.Pumped live n) (p : Pid) : (w.enqueue p).Pumped live n := by
  unfold World.enqueue
  split
  · exact h
  · split
    · exact h
    · exact arm h.ticking

theorem dequeue (h : w.Pumped live n) (hd : w.dequeue = some (p, w')) : w'.Pumped live n := by
  unfold World.dequeue at hd
  split at hd
  · cases hd
  · next p' ps hq =>
    obtain ⟨rfl, rfl⟩ := Prod.mk.inj (Option.some.inj hd)
    have rest : Pumped ({ w with queue := ps } : World κ σ) live n :=
      ⟨fun _ => h.stocked (by simp [hq]), h.ticking⟩
    unfold modify
    split
    · exact rest.same rfl rfl rfl
    · exact rest

theorem operation {r : Record κ} (h : w.Pumped live n) (op : Operation w r w') :
    w'.Pumped live n := by
  induction op with
  | quiet h' => exact h.agree h'
  | dropped v dead h' => exact h.agree h'
  | sent v hx alive h' => exact (h.put h').enqueue _
  | spawned label t hx h' => exact (h.put h').enqueue _
  | killed hx alive h' => exact h.put h'
  | completed t hx awaiting h' => exact (h.put h').enqueue _
  | attached hx awaiting h' => exact h.put h'
  | seq _ _ ih ih' => exact ih' (ih h)

/-- The tick that began to wait first now runs. -/
theorem beginTick (h : w.Pumped live n) {ts : List (Tick κ)} :
    (World.beginTick { w with host := { w.host with ticks := ts } }).Pumped live (n + 1) :=
  ⟨h.stocked, fun _ _ => Nat.succ_pos _⟩

/-- A tick that ends with work left is followed by another one. -/
theorem endTick (h : w.Pumped live (n + 1)) (steps stepped : Nat) :
    (w.endTick steps stepped).Pumped live n := by
  unfold World.endTick
  by_cases hq : w.queue.isEmpty = true
  · simp only [hq, if_pos]
    exact ⟨fun work => absurd (List.isEmpty_iff.1 hq) work, nofun⟩
  · simp only [hq, if_neg, Bool.false_eq_true, not_false_eq_true]
    have one : (w.host.defer .pump).pumps = w.host.pumps + 1 := Host.pumps_defer w.host .pump
    refine ⟨h.stocked, fun _ _ => ?_⟩
    show 0 < (w.host.defer .pump).pumps + n
    omega

end World.Pumped

/-! ### Machines -/

theorem Activity.ticksOf_like {a a' : Activity κ σ} (h : a.Like a') (s : List (Activity κ σ)) :
    ticksOf (a' :: s) = ticksOf (a :: s) := by
  rw [ticksOf, ticksOf, List.countP_cons, List.countP_cons, h.isTick]

theorem Activity.ticksOf_resumeTop (n : Nat) (s : List (Activity κ σ)) :
    ticksOf (Machine.resumeTop n s) = ticksOf s := by
  cases s with
  | nil => rfl
  | cons a s => exact ticksOf_like (like_resume n a) s

/-- A drive does not count as a tick, and neither does code that comes from the host. -/
theorem Activity.ticksOf_skip {a : Activity κ σ} (h : a.isTick = false) (s : List (Activity κ σ)) :
    ticksOf (a :: s) = ticksOf s :=
  List.countP_cons_of_neg (by rw [h]; exact Bool.false_ne_true)

theorem Activity.ticksOf_tick (n k : Nat) (phase : Phase κ σ) (s : List (Activity κ σ)) :
    ticksOf (.tick n k phase :: s) = ticksOf s + 1 :=
  List.countP_cons_of_pos rfl

theorem Activity.ticksOf_append (above s : List (Activity κ σ)) :
    ticksOf (above ++ s) = ticksOf above + ticksOf s :=
  List.countP_append

/-- What is true of a machine's pump at every moment of a run. -/
def Machine.Pumped (m : Machine κ σ) : Prop :=
  m.world.Pumped (m.world.reachable = true) (ticksOf m.stack)

theorem Machine.Pumped.transition {m m' : Machine κ σ} {r : Record κ} {L : Leave κ}
    (h : m.Pumped) (proper : m.Proper L) (tr : Transition b m r m') : m'.Pumped := by
  -- A runtime that is there after the step was there before it.
  have h : m.world.Pumped (m'.world.reachable = true) (ticksOf m.stack) :=
    World.Pumped.mono h (tr.reachable proper)
  show m'.world.Pumped (m'.world.reachable = true) (ticksOf m'.stack)
  cases tr with
  | rest => exact h
  | code fr hd =>
    rw [ticksOf_like (fr.like _ _)]
    exact h.operation (Directive.operation hd)
  | driving fr hd =>
    rw [ticksOf_skip rfl, ticksOf_like (fr.like _ _)]
    exact h
  | broken h' ha cause =>
    rw [ticksOf_like ha]
    exact h.agree h'
  | finished =>
    rw [ticksOf_skip rfl] at h
    exact h
  | picked budget hd alive => exact h.dequeue hd
  | skipped budget hd dead => exact h.dequeue hd
  | ended hq =>
    rw [ticksOf_tick] at h
    exact h.endTick _ _
  | preempted budget => exact h.enqueue _
  | parked budget stuck h' beside => exact h.agree h'
  | pushed budget hx can h' root beside => exact h.put h'
  | entered budget hx can h' root hc beside => exact h.put h'
  | started budget hx can h' task beside => exact h.put h'
  | exited budget hx can h' root hr event beside => exact h.put h'
  | returned hx alive h' beside => exact h.put h'
  | ignored dead => exact h
  | launched => exact h
  | pumped hts here =>
    rw [ticksOf_skip rfl] at h
    rw [ticksOf_tick, ticksOf_skip rfl]
    exact h.beginTick
  | lost hts gone =>
    -- Nobody is left to wait for the tick.
    refine ⟨h.stocked, fun here => ?_⟩
    cases gone.symm.trans here
  | thunk h' cause =>
    rw [ticksOf_skip rfl, ticksOf_skip rfl]
    rw [ticksOf_skip rfl] at h
    exact h.agree h'
  | woken op cause => exact h.operation op
  | driven h' clock =>
    rw [ticksOf_skip rfl] at h
    rw [ticksOf_resumeTop]
    exact h.agree h'

theorem Machine.pumped_load_new (config : Config) (user : σ) (code : Procedure κ σ Unit) :
    (load (.new config user) code).Pumped :=
  ⟨fun work => absurd rfl work, nofun⟩

theorem Reachable.pumped {m : Machine κ σ} (h : Reachable b m) : m.Pumped := by
  induction h with
  | new config user code => exact Machine.pumped_load_new config user _
  | @step m h ih => exact ih.transition h.proper (Machine.transition b m)
  | load code h hs hf ih =>
    unfold Machine.Pumped at ih
    rw [hs] at ih
    exact ih

/-- The work queue and the pump agree at every moment of a run, inside ticks and in code that drives
the host. A process stands in the queue once if its flag says so, and otherwise not at all, and
only processes stand there. At most one tick waits or runs, so none is entered while another one
runs. While the runtime is there, the pump is armed exactly when there is such a tick, and there is
one as long as the queue is not empty. -/
theorem Reachable.queue_and_pump {m : Machine κ σ} (h : Reachable b m) :
    (∀ p x, m.world.procs.get? p = some x →
      m.world.queue.count p = if x.queued then 1 else 0) ∧
    (∀ p ∈ m.world.queue, ∃ x, m.world.procs.get? p = some x) ∧
    m.world.host.pumps + ticksOf m.stack ≤ 1 ∧
    (m.world.host.pumps + ticksOf m.stack = 1 → m.world.armed = true) ∧
    (m.world.queue ≠ [] → m.world.armed = true) ∧
    (m.world.reachable = true → m.world.armed = true →
      m.world.host.pumps + ticksOf m.stack = 1) := by
  have sound : m.world.SoundWith m.stack := h.sound
  have pumped := h.pumped
  refine ⟨fun p x hx => ?_, fun p hp => ?_, sound.pumps, fun one => ?_, pumped.stocked,
    fun here armed => ?_⟩
  · have flag := (sound.proc p x hx).flag
    cases hq : x.queued with
    | true => exact List.count_eq_one_of_mem sound.nodup (flag.1 hq)
    | false =>
      refine List.count_eq_zero.2 fun hp => ?_
      cases hq.symm.trans (flag.2 hp)
  · exact Option.ne_none_iff_exists'.1 (sound.known p (.inl hp))
  · exact sound.armed (by omega)
  · have some := pumped.ticking here armed
    have most := sound.pumps
    omega

/-- A continuation that kills another process and lets the host run. -/
def meddling : Behaviour Unit Unit :=
  { Behaviour.ofCallbacks fun _ v => .succeed v with
    callback := fun _ _ =>
      (Code.ask (.kill ⟨2⟩)).bind fun _ =>
        (Code.ask (.drive .idle)).bind fun _ => .ret (.succeed .unit) }

/-- Two processes, the first of which meddles with the second while both are in the queue. -/
def crowded : Machine Unit Unit :=
  let code : Code Unit Unit Unit :=
    (Code.ask (.spawn (.andThen (.succeed .unit) (.code ())))).bind fun _ =>
      (Code.ask (.spawn (.receive (.code ())))).bind fun _ =>
        (Code.ask (.drive .idle)).bind fun _ => .ret ()
  .load (.new .standard ()) (Procedure.ofCode code)

/-- While the drive inside the continuation is under way, the process that has been killed still
stands in the queue, and the one tick is the one that runs. -/
theorem crowded_in_step : ∃ x, (Machine.run meddling 10 crowded).world.procs.get? ⟨2⟩ = some x ∧
    x.isDead = true ∧ x.queued = true ∧
    (Machine.run meddling 10 crowded).world.queue.count ⟨2⟩ = 1 ∧
    (Machine.run meddling 10 crowded).world.host.pumps +
      ticksOf (Machine.run meddling 10 crowded).stack = 1 := by
  have h : Reachable meddling (Machine.run meddling 10 crowded) := (Reachable.new _ _ _).run 10
  obtain ⟨flag, -, -, -, -, ticking⟩ := h.queue_and_pump
  exact ⟨_, rfl, rfl, rfl, flag ⟨2⟩ _ rfl, ticking rfl rfl⟩

end Actors
