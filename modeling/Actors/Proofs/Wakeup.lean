/-
No wakeup is lost.

A process that can make a transition either stands in the work queue or has its turn. It takes an
invariant of worlds to see this, in which three things depend on what is under way: how many ticks
of the scheduler run, of which processes a continuation runs, and which processes have their turn.
At most one tick of the scheduler waits or runs at any moment, however deeply drives of the host
are nested.

* `Proc.Sound`, `World.Sound`, `Machine.Sound` — the invariant;
* `Machine.Sound.transition` — every step preserves it;
* `Reachable.runnable_queued` — between two ticks whoever can make a transition is in the queue.
-/
import Actors.Proofs.Transition

namespace Actors

variable {κ σ : Type} {b : Behaviour κ σ}

/-- What is true of a process, depending on whether it stands in the work queue, whether one of its
continuations runs, and whether it has its turn. -/
structure Proc.Sound (x : Proc κ) (queued calling turning : Prop) : Prop where
  flag : x.queued = true ↔ queued
  stepping : x.root = .stepping → calling
  calling : calling → x.root = .stepping ∨ x.root = .dead
  runnable : x.move? ≠ none → queued ∨ turning

/-- What is true of a world while a number of ticks run, in them the continuations of some
processes, and while some processes have their turn. -/
structure World.Sound (w : World κ σ) (ticks : Nat) (calling turning : List Pid) : Prop where
  pumps : w.host.pumps + ticks ≤ 1
  armed : 0 < w.host.pumps + ticks → w.armed = true
  nodup : w.queue.Nodup
  known : ∀ p, p ∈ w.queue ∨ p ∈ calling → w.procs.get? p ≠ none
  proc : ∀ p x, w.procs.get? p = some x → x.Sound (p ∈ w.queue) (p ∈ calling) (p ∈ turning)

/-! ### One process -/

namespace Proc.Sound

variable {x : Proc κ} {q c t : Prop}

theorem not_calling (h : x.Sound q c t) (hs : x.root ≠ .stepping) (hd : x.root ≠ .dead) : ¬ c :=
  fun hc => (h.calling hc).elim hs hd

theorem mono {t' : Prop} (h : x.Sound q c t) (ht : t → t') : x.Sound q c t' :=
  ⟨h.flag, h.stepping, h.calling, fun hm => (h.runnable hm).imp_right ht⟩

theorem killed (h : x.Sound q c t) : x.killed.Sound q c t :=
  ⟨h.flag, nofun, fun _ => .inr rfl, fun hm => absurd rfl hm⟩

theorem rooted {r : Root κ} (h : x.Sound q c t) (hc : ¬ c) (hr : r ≠ .stepping) :
    ({ x with root := r } : Proc κ).Sound q c True where
  flag := h.flag
  stepping := fun h' => absurd h' hr
  calling := fun h' => absurd h' hc
  runnable := fun _ => .inr trivial

theorem stuck (flag : x.queued = true ↔ q) (hc : ¬ c) (hr : x.root ≠ .stepping)
    (hm : x.move? = none) : x.Sound q c t :=
  ⟨flag, fun h => absurd h hr, fun h => absurd h hc, fun h => absurd hm h⟩

end Proc.Sound

/-! ### Worlds -/

namespace World.Sound

variable {w w' : World κ σ} {n : Nat} {C C' T T' : List Pid} {p : Pid} {x y : Proc κ}

theorem agree (h : w.Sound n C T) (h' : Agree w w') : w'.Sound n C T where
  pumps := by rw [h'.pumps]; exact h.pumps
  armed := by rw [h'.pumps, h'.armed]; exact h.armed
  nodup := by rw [h'.queue]; exact h.nodup
  known := by
    intro p
    rw [h'.queue, h'.get?]
    exact h.known p
  proc := by
    intro p x
    rw [h'.queue, h'.get?]
    exact h.proc p x

/-- One process is changed, and maybe its place in the work queue. What is under way may change for
this process only. -/
theorem change (h : w.Sound n C T) (pumps : w'.host.pumps = w.host.pumps)
    (armed : w'.armed = w.armed) (nodup : w'.queue.Nodup)
    (get? : ∀ q, w'.procs.get? q = if q = p then some y else w.procs.get? q)
    (hy : y.Sound (p ∈ w'.queue) (p ∈ C') (p ∈ T'))
    (hQ : ∀ q, q ≠ p → (q ∈ w'.queue ↔ q ∈ w.queue)) (hC : ∀ q, q ≠ p → (q ∈ C' ↔ q ∈ C))
    (hT : ∀ q, q ≠ p → q ∈ T → q ∈ T') : w'.Sound n C' T' where
  pumps := by rw [pumps]; exact h.pumps
  armed := by rw [pumps, armed]; exact h.armed
  nodup := nodup
  known := by
    intro q hq
    rw [get?]
    split
    · exact Option.some_ne_none y
    · next hqp =>
      rw [hQ q hqp, hC q hqp] at hq
      exact h.known q hq
  proc := by
    intro q x hx
    rw [get?] at hx
    by_cases hqp : q = p
    · rw [if_pos hqp] at hx
      obtain rfl := Option.some.inj hx
      rw [hqp]
      exact hy
    · rw [if_neg hqp] at hx
      rw [propext (hQ q hqp), propext (hC q hqp)]
      exact (h.proc q x hx).mono (hT q hqp)

theorem put (h : w.Sound n C T) (h' : Put w w' p y)
    (hy : y.Sound (p ∈ w.queue) (p ∈ C') (p ∈ T')) (hC : ∀ q, q ≠ p → (q ∈ C' ↔ q ∈ C))
    (hT : ∀ q, q ≠ p → q ∈ T → q ∈ T') : w'.Sound n C' T' := by
  refine h.change h'.pumps h'.armed (h'.queue ▸ h.nodup) h'.get? ?_ (fun q _ => ?_) hC hT
  · rw [h'.queue]
    exact hy
  · rw [h'.queue]

theorem put_turn (h : w.Sound n C T) (h' : Put w w' p y)
    (hy : y.Sound (p ∈ w.queue) (p ∈ C) True) : w'.Sound n C (p :: T) :=
  h.put h' (hy.mono fun _ => List.mem_cons_self) (fun _ _ => Iff.rfl)
    fun _ _ hq => List.mem_cons_of_mem p hq

/-- The turn of a process may be over if it cannot make a transition, or stands in the queue. -/
theorem settle (h : w.Sound n C (p :: T))
    (hp : ∀ x, w.procs.get? p = some x → x.move? = none ∨ p ∈ w.queue) : w.Sound n C T where
  pumps := h.pumps
  armed := h.armed
  nodup := h.nodup
  known := h.known
  proc := by
    intro q x hx
    have sound := h.proc q x hx
    refine ⟨sound.flag, sound.stepping, sound.calling, fun hm => ?_⟩
    by_cases hqp : q = p
    · subst hqp
      exact .inl ((hp x hx).resolve_left hm)
    · exact (sound.runnable hm).imp_right fun hq => (List.mem_cons.1 hq).resolve_left hqp

/-- Arming the pump keeps the number of ticks that wait or run at one. -/
theorem arm (h : w.Sound n C T) : w.arm.Sound n C T := by
  unfold World.arm
  by_cases ha : w.armed = true
  · rw [if_pos ha]
    exact h
  · rw [if_neg ha]
    refine ⟨?_, fun _ => rfl, h.nodup, h.known, h.proc⟩
    -- The pump is not armed, so no tick waits and none runs; the new one is the only one.
    have none : ¬ 0 < w.host.pumps + n := fun hn => ha (h.armed hn)
    have one : (w.host.defer .pump).pumps = w.host.pumps + 1 := Host.pumps_defer w.host .pump
    show (w.host.defer .pump).pumps + n ≤ 1
    omega

/-- A process that has its turn may go into the work queue instead. -/
theorem enqueue (h : w.Sound n C (p :: T)) : (w.enqueue p).Sound n C T := by
  unfold World.enqueue
  -- A process that has its place already, or is dead, needs none; it just loses its turn.
  cases hx : w.procs.get? p with
  | none => exact h.settle fun x hx' => by rw [hx] at hx'; cases hx'
  | some x =>
    have sound := h.proc p x hx
    simp only
    by_cases hs : x.queued = true ∨ x.isDead = true
    · rw [if_pos (Bool.or_eq_true_iff.2 hs)]
      refine h.settle fun x' hx' => ?_
      obtain rfl := Option.some.inj (hx.symm.trans hx')
      rcases hs with hq | hd
      · exact .inr (sound.flag.1 hq)
      · left
        rw [Proc.move?, Proc.isDead_iff.1 hd]
    · -- Its flag says that it is not in the queue, so it does not get there twice.
      rw [if_neg (mt Bool.or_eq_true_iff.1 hs)]
      have fresh : p ∉ w.queue := fun hp => hs (.inl (sound.flag.2 hp))
      have queued : p ∈ w.queue ++ [p] := List.mem_append_right _ (List.mem_singleton.2 rfl)
      refine arm (h.change rfl rfl ?_
        (ProcTable.get?_set _ (ProcTable.number_lt_of_get? hx))
        ⟨iff_of_true rfl queued, sound.stepping, sound.calling, fun _ => .inl queued⟩
        (fun q hqp => ?_) (fun _ _ => Iff.rfl)
        fun q hqp hq => (List.mem_cons.1 hq).resolve_left hqp)
      · refine List.nodup_append.2 ⟨h.nodup, List.pairwise_singleton _ p, fun a ha c hc hac => ?_⟩
        rw [hac, List.mem_singleton.1 hc] at ha
        exact fresh ha
      · show q ∈ w.queue ++ [p] ↔ q ∈ w.queue
        rw [List.mem_append, List.mem_singleton, or_iff_left hqp]

/-- The process that leaves the work queue gets its turn. -/
theorem dequeue (h : w.Sound n C T) (hd : w.dequeue = some (p, w')) : w'.Sound n C (p :: T) := by
  unfold World.dequeue at hd
  cases hq : w.queue with
  | nil => rw [hq] at hd; cases hd
  | cons p' ps =>
    rw [hq] at hd
    obtain ⟨rfl, rfl⟩ := Prod.mk.inj (Option.some.inj hd)
    obtain ⟨fresh, nodup⟩ := List.nodup_cons.1 (hq ▸ h.nodup)
    obtain ⟨x, hx⟩ : ∃ x, w.procs.get? p' = some x :=
      Option.ne_none_iff_exists'.1 (h.known p' (.inl (hq ▸ List.mem_cons_self)))
    have put : Put { w with queue := ps }
        (World.modify { w with queue := ps } p' fun x => { x with queued := false }) p'
        { x with queued := false } := put_modify (w := { w with queue := ps }) hx _
    have sound := h.proc p' x hx
    refine h.change put.pumps put.armed (put.queue ▸ nodup) put.get?
      ⟨?_, sound.stepping, sound.calling, fun _ => .inr List.mem_cons_self⟩ (fun q hqp => ?_)
      (fun _ _ => Iff.rfl) fun q _ hq => List.mem_cons_of_mem p' hq
    · rw [put.queue]
      exact iff_of_false Bool.false_ne_true fresh
    · rw [put.queue, hq, List.mem_cons, or_iff_right hqp]

theorem pumps_of_ticks {ts : List (Tick κ)} (ht : w.host.ticks = .pump :: ts) :
    w.host.pumps = ({ w.host with ticks := ts } : Host κ).pumps + 1 := by
  rw [Host.pumps, ht, List.countP_cons_of_pos rfl, Host.pumps]

theorem beginTick (h : w.Sound n C T) {ts : List (Tick κ)} (ht : w.host.ticks = .pump :: ts) :
    (World.beginTick { w with host := { w.host with ticks := ts } }).Sound (n + 1) C T := by
  have pumps := pumps_of_ticks ht
  refine ⟨?_, fun _ => ?_, h.nodup, h.known, h.proc⟩
  · show ({ w.host with ticks := ts } : Host κ).pumps + (n + 1) ≤ 1
    have := h.pumps
    omega
  · exact h.armed (by omega)

/-- If the tick is lost instead, none waits and none runs. -/
theorem loseTick (h : w.Sound n C T) {ts : List (Tick κ)} (ht : w.host.ticks = .pump :: ts) :
    World.Sound { w with host := { w.host with ticks := ts } } n C T := by
  have pumps := pumps_of_ticks ht
  refine ⟨?_, fun _ => h.armed (by omega), h.nodup, h.known, h.proc⟩
  show ({ w.host with ticks := ts } : Host κ).pumps + n ≤ 1
  have := h.pumps
  omega

theorem endTick (h : w.Sound (n + 1) C T) (steps stepped : Nat) :
    (w.endTick steps stepped).Sound n C T := by
  have pumps := h.pumps
  unfold World.endTick
  -- The pump is disarmed only when the queue is empty; otherwise the next tick is deferred.
  by_cases hq : w.queue.isEmpty = true
  · simp only [hq, if_pos]
    refine ⟨?_, fun hn => ?_, h.nodup, h.known, h.proc⟩
    · show w.host.pumps + n ≤ 1
      omega
    · have hn : 0 < w.host.pumps + n := hn
      omega
  · simp only [hq, if_neg, Bool.false_eq_true, not_false_eq_true]
    have one : (w.host.defer .pump).pumps = w.host.pumps + 1 := Host.pumps_defer w.host .pump
    refine ⟨?_, fun _ => h.armed (by omega), h.nodup, h.known, h.proc⟩
    show (w.host.defer .pump).pumps + n ≤ 1
    omega

/-- An operation of code leaves whoever can make a transition in the work queue, or with its
turn. -/
theorem operation {r : Record κ} (h : w.Sound n C T) (op : Operation w r w') :
    w'.Sound n C T := by
  induction op with
  | quiet h' => exact h.agree h'
  | dropped v dead h' => exact h.agree h'
  | @sent w w' p x v hx alive h' =>
    have sound := h.proc p x hx
    exact (h.put_turn h'
      ⟨sound.flag, sound.stepping, sound.calling, fun _ => .inr trivial⟩).enqueue
  | @spawned w w' p label t hx h' =>
    -- There is no process of this name, so it is neither in the queue nor under way.
    have fresh : ¬ (p ∈ w.queue ∨ p ∈ C) := fun hp => h.known p hp hx
    refine (h.put_turn h' ⟨?_, fun hr => ?_, fun hp => ?_, fun _ => .inr trivial⟩).enqueue
    · exact iff_of_false Bool.false_ne_true fun hp => fresh (.inl hp)
    · cases hr
    · exact absurd (.inr hp) fresh
  | @killed w w' p x hx alive h' =>
    exact h.put h' (h.proc p x hx).killed (fun _ _ => Iff.rfl) fun _ _ => id
  | @completed w w' p x n c t hx awaiting h' =>
    -- A process that awaits a binding runs no continuation, so its root may be replaced.
    have sound := h.proc p x hx
    have idle := sound.not_calling (by simp [awaiting]) (by simp [awaiting])
    exact (h.put_turn h' (sound.rooted idle (by simp))).enqueue
  | @attached w w' p x n c c' hx awaiting h' =>
    -- It still awaits its binding, and needs no turn.
    have sound := h.proc p x hx
    have idle := sound.not_calling (by simp [awaiting]) (by simp [awaiting])
    refine (h.put_turn h' (sound.rooted idle (by simp))).settle fun y hy => .inl ?_
    obtain rfl := Option.some.inj (h'.self.symm.trans hy)
    rfl
  | seq _ _ ih ih' => exact ih' (ih h)

end World.Sound

/-! ### Machines -/

namespace Activity

/-- The number of ticks of the scheduler that run. -/
def ticksOf (s : List (Activity κ σ)) : Nat :=
  s.countP isTick

/-- The processes of which a continuation runs. -/
def callingOf (s : List (Activity κ σ)) : List Pid :=
  s.filterMap calling?

/-- The processes that have their turn. -/
def turningOf (s : List (Activity κ σ)) : List Pid :=
  s.filterMap turn?

theorem callingOf_eq_nil {s : List (Activity κ σ)} (h : ticksOf s = 0) : callingOf s = [] := by
  refine List.filterMap_eq_nil_iff.2 fun a ha => ?_
  have idle := List.countP_eq_zero.1 h a ha
  cases a with
  | tick n k phase => exact absurd rfl idle
  | _ => rfl

theorem turningOf_eq_nil {s : List (Activity κ σ)} (h : ticksOf s = 0) : turningOf s = [] := by
  refine List.filterMap_eq_nil_iff.2 fun a ha => ?_
  have idle := List.countP_eq_zero.1 h a ha
  cases a with
  | tick n k phase => exact absurd rfl idle
  | _ => rfl

end Activity

open Activity

/-- What is true of a world while a stack is under way. -/
def World.SoundWith (w : World κ σ) (s : List (Activity κ σ)) : Prop :=
  w.Sound (ticksOf s) (callingOf s) (turningOf s)

namespace World

variable {w w' : World κ σ} {a a' : Activity κ σ} {s : List (Activity κ σ)} {n k : Nat}
  {phase : Phase κ σ} {p : Pid}

/-- Code and drives do not count. -/
theorem soundWith_cons (ha : a.isTick = false) : w.SoundWith (a :: s) ↔ w.SoundWith s := by
  have calling : a.calling? = none := by cases a <;> first | rfl | cases ha
  have turn : a.turn? = none := by cases a <;> first | rfl | cases ha
  rw [SoundWith, SoundWith, ticksOf, callingOf, turningOf,
    List.countP_cons_of_neg (by rw [ha]; exact Bool.false_ne_true),
    List.filterMap_cons_none calling, List.filterMap_cons_none turn]
  rfl

theorem soundWith_tick : w.SoundWith (.tick n k phase :: s) ↔
    w.Sound (ticksOf s + 1) ((tick n k phase).calling?.toList ++ callingOf s)
      ((tick n k phase).turn?.toList ++ turningOf s) := by
  rw [SoundWith, ticksOf, callingOf, turningOf, List.countP_cons_of_pos rfl, List.filterMap_cons,
    List.filterMap_cons]
  cases phase <;> exact Iff.rfl

namespace SoundWith

theorem quiet (h : w.SoundWith (.tick n k phase :: s)) : ticksOf s = 0 := by
  have := (soundWith_tick.1 h).pumps
  omega

theorem like (h : w.SoundWith (a :: s)) (ha : a.Like a') : w.SoundWith (a' :: s) := by
  unfold SoundWith ticksOf callingOf turningOf
  rw [List.countP_cons, List.filterMap_cons, List.filterMap_cons, ha.isTick, ha.calling?, ha.turn?,
    ← List.countP_cons, ← List.filterMap_cons, ← List.filterMap_cons]
  exact h

theorem resumeTop (h : w.SoundWith s) (n : Nat) : w.SoundWith (Machine.resumeTop n s) := by
  cases s with
  | nil => exact h
  | cons a s => exact h.like (like_resume n a)

end SoundWith

theorem soundWith_of_quiet (hs : ticksOf s = 0) : w.SoundWith s ↔ w.Sound 0 [] [] := by
  rw [SoundWith, hs, callingOf_eq_nil hs, turningOf_eq_nil hs]

/-- The one tick of a stack, on top of it. -/
theorem soundWith_alone (hs : ticksOf s = 0) : w.SoundWith (.tick n k phase :: s) ↔
    w.Sound 1 (tick n k phase).calling?.toList (tick n k phase).turn?.toList := by
  rw [soundWith_tick, hs, callingOf_eq_nil hs, turningOf_eq_nil hs, List.append_nil,
    List.append_nil]

theorem SoundWith.alone (h : w.SoundWith (.tick n k phase :: s)) :
    w.Sound 1 (tick n k phase).calling?.toList (tick n k phase).turn?.toList :=
  (soundWith_alone h.quiet).1 h

/-- A process that is alive while one of its continuations runs is in a step. -/
theorem SoundWith.stepping_of_callback {c : Pending κ σ (Task κ)} {x : Proc κ}
    (h : w.SoundWith (.tick n k (.callback p c) :: s)) (hx : w.procs.get? p = some x)
    (alive : x.isDead = false) : x.root = .stepping := by
  have calling := (h.alone.proc p x hx).calling
  refine (calling List.mem_cons_self).resolve_right fun dead => ?_
  rw [Proc.isDead_iff.2 dead] at alive
  cases alive

/-- While one process has its turn or runs a continuation, this process may go on. -/
theorem Sound.own {C C' T T' : List Pid} {y : Proc κ} (h : w.Sound n C T) (h' : Put w w' p y)
    (hC : ∀ q, q ≠ p → q ∉ C) (hT : ∀ q, q ≠ p → q ∉ T) (hC' : ∀ q, q ≠ p → q ∉ C')
    (hy : y.Sound (p ∈ w.queue) (p ∈ C') (p ∈ T')) : w'.Sound n C' T' :=
  h.put h' hy (fun q hq => iff_of_false (hC' q hq) (hC q hq)) fun q hq hm => absurd hm (hT q hq)

/-- The process that has its turn makes a transition. It is in a step after that just if one of its continuations
runs, and keeps its turn if it can go on. -/
theorem Sound.moved {C T : List Pid} {x : Proc κ} {mv : Move κ} (h : w.Sound n [] [p])
    (hx : w.procs.get? p = some x) (can : x.move? = some mv) (h' : Put w w' p (x.moved mv.task))
    (others : ∀ q, q ≠ p → q ∉ C) (stepping : (x.moved mv.task).root = .stepping ↔ p ∈ C)
    (runnable : (x.moved mv.task).move? ≠ none → p ∈ T) : w'.Sound n C T := by
  have flag : (x.moved mv.task).queued = true ↔ p ∈ w.queue := by
    rw [(Proc.moves can).queued]
    exact (h.proc p x hx).flag
  refine h.own h' (fun _ _ => List.not_mem_nil) (fun q hq hm => hq (List.mem_singleton.1 hm)) others ?_
  exact ⟨flag, stepping.1, fun hp => .inl (stepping.2 hp), fun hm => .inr (runnable hm)⟩

/-- The turn is over after a transition that leaves the process without a next one. -/
theorem Sound.moved_stuck {x : Proc κ} {mv : Move κ} (h : w.Sound n [] [p])
    (hx : w.procs.get? p = some x) (can : x.move? = some mv) (h' : Put w w' p (x.moved mv.task))
    (still : (x.moved mv.task).root ≠ .stepping) (stuck : (x.moved mv.task).move? = none) :
    w'.Sound n [] [] :=
  h.moved hx can h' (fun _ _ => List.not_mem_nil) (iff_of_false still List.not_mem_nil)
    fun hm => absurd stuck hm

end World

open World

/-- What is true of a machine at every moment of a run. -/
def Machine.Sound (m : Machine κ σ) : Prop :=
  m.world.SoundWith m.stack

/-- Of a process that is not alive no continuation needs to run, and it needs no turn. -/
theorem World.Sound.dead {w : World κ σ} {n : Nat} {C T : List Pid} {p : Pid}
    (h : w.Sound n C T) (dead : w.procs.isAlive p = false) (hC : ∀ q, q ≠ p → q ∉ C)
    (hT : ∀ q, q ≠ p → q ∉ T) : w.Sound n [] [] where
  pumps := h.pumps
  armed := h.armed
  nodup := h.nodup
  known := fun q hq => h.known q (hq.imp_right fun hq => absurd hq List.not_mem_nil)
  proc := by
    intro q x hx
    have sound := h.proc q x hx
    by_cases hqp : q = p
    · subst hqp
      rw [isAlive_of_get? hx, Bool.not_eq_false'] at dead
      have root : x.root = .dead := Proc.isDead_iff.1 dead
      exact .stuck sound.flag List.not_mem_nil (by simp [root]) (by rw [Proc.move?, root])
    · refine ⟨sound.flag, fun hr => absurd (sound.stepping hr) (hC q hqp),
        fun hq => absurd hq List.not_mem_nil, fun hm => ?_⟩
      exact (sound.runnable hm).imp_right fun hq => absurd hq (hT q hqp)

/-- Every step preserves soundness. -/
theorem Machine.Sound.transition {m m' : Machine κ σ} {r : Record κ} (h : m.Sound)
    (tr : Transition b m r m') : m'.Sound := by
  have h : m.world.SoundWith m.stack := h
  show m'.world.SoundWith m'.stack
  have only : ∀ {p q : Pid}, q ≠ p → q ∉ [p] := fun hq hm => hq (List.mem_singleton.1 hm)
  have none : ∀ {p q : Pid}, q ≠ p → q ∉ ([] : List Pid) := fun _ => List.not_mem_nil
  cases tr with
  | rest => exact h
  | code fr hd => exact SoundWith.like (Sound.operation h (Directive.operation hd)) (fr.like _ _)
  | driving fr hd => exact (soundWith_cons rfl).2 (h.like (fr.like _ _))
  | broken h' ha => exact SoundWith.like (Sound.agree h h') ha
  | finished => exact (soundWith_cons rfl).1 h
  -- A tick is the only one, so below it no continuation runs and nobody has a turn.
  | @picked w w' s n k p budget hd alive =>
    have idle : w.Sound 1 [] [] := SoundWith.alone h
    exact (soundWith_alone (SoundWith.quiet h)).2 (idle.dequeue hd)
  | @skipped w w' s n k p budget hd dead =>
    have idle : w.Sound 1 [] [] := SoundWith.alone h
    exact (soundWith_alone (SoundWith.quiet h)).2 ((idle.dequeue hd).dead dead (fun _ => none) fun _ => only)
  | @ended w s n k hq =>
    have idle : w.Sound 1 [] [] := SoundWith.alone h
    exact (soundWith_of_quiet (SoundWith.quiet h)).2 (idle.endTick n k)
  | @preempted w s n k p budget =>
    have turn : w.Sound 1 [] [p] := SoundWith.alone h
    exact (soundWith_alone (SoundWith.quiet h)).2 turn.enqueue
  | @parked w w' s n k n' p budget stuck h' =>
    have turn : w.Sound 1 [] [p] := SoundWith.alone h
    have settled : w.Sound 1 [] [] := turn.settle fun x hx => .inl (by
      rw [hx] at stuck
      exact stuck)
    exact (soundWith_alone (SoundWith.quiet h)).2 (settled.agree h')
  | @pushed w w' s n k p x mv t budget hx can h' root =>
    have turn : w.Sound 1 [] [p] := SoundWith.alone h
    refine (soundWith_alone (SoundWith.quiet h)).2
      (turn.moved hx can h' (fun _ => none) ?_ fun _ => List.mem_cons_self)
    rw [root]
    exact iff_of_false nofun List.not_mem_nil
  | @entered w w' s n k p x mv c v budget hx can h' root hc =>
    have turn : w.Sound 1 [] [p] := SoundWith.alone h
    refine (soundWith_alone (SoundWith.quiet h)).2
      (turn.moved hx can h' (fun _ => only) (iff_of_true root List.mem_cons_self) fun hm => ?_)
    rw [Proc.move?, root] at hm
    exact absurd rfl hm
  | @started w w' s n k p x mv g budget hx can h' task =>
    have turn : w.Sound 1 [] [p] := SoundWith.alone h
    have root : (x.moved mv.task).root = .awaiting (x.binding + 1) .none := by rw [task]; rfl
    exact (soundWith_alone (SoundWith.quiet h)).2
      (turn.moved_stuck hx can h' (by simp [root]) (by rw [Proc.move?, root]))
  | @exited w w' s n k p x mv r budget hx can h' root hr event =>
    have turn : w.Sound 1 [] [p] := SoundWith.alone h
    exact (soundWith_alone (SoundWith.quiet h)).2
      (turn.moved_stuck hx can h' (by simp [root]) (by rw [Proc.move?, root]))
  | @returned w w' s n k p x t hx alive h' =>
    have call : w.Sound 1 [p] [] := SoundWith.alone h
    have flag := (call.proc p x hx).flag
    exact (soundWith_alone (SoundWith.quiet h)).2 (call.own h' (fun _ => only) (fun _ => none) (fun _ => none)
      ⟨flag, by simp, fun hp => absurd hp List.not_mem_nil, fun _ => .inr List.mem_cons_self⟩)
  | @ignored w s n k p t dead =>
    have call : w.Sound 1 [p] [] := SoundWith.alone h
    exact (soundWith_alone (SoundWith.quiet h)).2 (call.dead dead (fun _ => only) fun _ => none)
  | @launched w s n k p u =>
    have idle : w.Sound 1 [] [] := SoundWith.alone h
    exact (soundWith_alone (SoundWith.quiet h)).2 idle
  | pumped ht =>
    have below := Sound.beginTick ((soundWith_cons rfl).1 h) ht
    exact soundWith_tick.2 below
  | lost ht => exact (soundWith_cons rfl).2 (Sound.loseTick ((soundWith_cons rfl).1 h) ht)
  | thunk h' =>
    have below := Sound.agree ((soundWith_cons rfl).1 h) h'
    exact (soundWith_cons rfl).2 ((soundWith_cons rfl).2 below)
  | woken op => exact (soundWith_cons rfl).2 (Sound.operation ((soundWith_cons rfl).1 h) op)
  | driven h' => exact SoundWith.resumeTop (Sound.agree ((soundWith_cons rfl).1 h) h') _

theorem World.get?_new (config : Config) (user : σ) (p : Pid) :
    (World.new config user : World κ σ).procs.get? p = none := by
  obtain ⟨n⟩ := p
  cases n <;> rfl

namespace Machine

theorem sound_load_new (config : Config) (user : σ) (code : Procedure κ σ Unit) :
    (load (.new config user) code).Sound := by
  refine (soundWith_cons rfl).2 ⟨Nat.zero_le 1, nofun, List.nodup_nil, fun p hp => ?_,
    fun p x hx => ?_⟩
  · exact (hp.elim List.not_mem_nil List.not_mem_nil).elim
  · cases (World.get?_new config user p).symm.trans hx

theorem Sound.load {m : Machine κ σ} (h : m.Sound) (hs : m.stack = [])
    (code : Procedure κ σ Unit) : (load m.world code).Sound := by
  have h : m.world.SoundWith m.stack := h
  rw [hs] at h
  exact (soundWith_cons rfl).2 h

end Machine

theorem Reachable.sound {m : Machine κ σ} (h : Reachable b m) : m.Sound := by
  induction h with
  | new config user code => exact Machine.sound_load_new config user _
  | @step m _ ih => exact ih.transition (Machine.transition b m)
  | load code _ hs _ ih => exact ih.load hs _

/-! ### Runs -/

theorem Machine.Sound.ticksOf_eq_zero {m : Machine κ σ} (h : m.Sound)
    (idle : m.world.isIdle = true) : ticksOf m.stack = 0 := by
  have h : m.world.SoundWith m.stack := h
  have armed : ¬ m.world.armed = true := by
    rw [isIdle, Bool.and_eq_true, Bool.not_eq_true'] at idle
    rw [idle.1]
    exact Bool.false_ne_true
  have none : ¬ 0 < m.world.host.pumps + ticksOf m.stack := fun hn => armed (h.armed hn)
  omega

/-- While no tick runs, nobody has a turn, and every process that can make a transition stands in
the work queue. -/
theorem Machine.Sound.runnable_queued {m : Machine κ σ} (h : m.Sound) (quiet : ticksOf m.stack = 0)
    {p : Pid} {x : Proc κ} (hx : m.world.procs.get? p = some x) (hm : x.move? ≠ none) :
    p ∈ m.world.queue := by
  have sound : m.world.Sound 0 [] [] := (soundWith_of_quiet quiet).1 h
  exact ((sound.proc p x hx).runnable hm).resolve_right List.not_mem_nil

theorem Machine.Sound.not_stepping {m : Machine κ σ} (h : m.Sound) (quiet : ticksOf m.stack = 0)
    {p : Pid} {x : Proc κ} (hx : m.world.procs.get? p = some x) : x.root ≠ .stepping := by
  have sound : m.world.Sound 0 [] [] := (soundWith_of_quiet quiet).1 h
  exact fun hr => List.not_mem_nil ((sound.proc p x hx).stepping hr)

/-- While the pump is idle, no process can make a transition. -/
theorem Machine.Sound.stuck_of_idle {m : Machine κ σ} (h : m.Sound) (idle : m.world.isIdle = true)
    {p : Pid} {x : Proc κ} (hx : m.world.procs.get? p = some x) : x.move? = none := by
  refine Classical.byContradiction fun hm => ?_
  have hq := h.runnable_queued (h.ticksOf_eq_zero idle) hx hm
  rw [isIdle, Bool.and_eq_true, List.isEmpty_iff] at idle
  rw [idle.2] at hq
  exact List.not_mem_nil hq

/-- No wakeup is lost. Between two ticks every process that is alive stands in the work queue,
awaits a binding, or waits for a message while its mailbox is empty. Hence, when the pump is idle,
no process can make a transition, a turn that it would get changes nothing, and no message is left
with a process that waits for one. -/
theorem Reachable.no_lost_wakeup {m : Machine κ σ} (h : Reachable b m) :
    (ticksOf m.stack = 0 →
      ∀ p x, m.world.procs.get? p = some x → x.isDead = false →
        p ∈ m.world.queue ∨ (∃ n c, x.root = .awaiting n c) ∨
          ∃ c, x.root = .ready (.receive c) ∧ x.mailbox = []) ∧
    (m.world.isIdle = true →
      (∀ p x, m.world.procs.get? p = some x → x.move? = none) ∧
      (∀ p n k s, n < m.world.limit → ∃ w' n', Agree m.world w' ∧
        Machine.step b ⟨m.world, .tick n k (.turn p) :: s, none⟩ =
          ⟨w', .tick n' k .seek :: s, none⟩) ∧
      ∀ p x c, m.world.procs.get? p = some x → x.root = .ready (.receive c) → x.mailbox = []) := by
  refine ⟨fun quiet p x hx alive => ?_, fun idle => ?_⟩
  · -- Out of the queue and without a turn a process can make no transition, by the invariant.
    by_cases hq : p ∈ m.world.queue
    · exact .inl hq
    · have stuck : x.move? = none := Classical.byContradiction fun hm =>
        hq (h.sound.runnable_queued quiet hx hm)
      cases hr : x.root with
      | ready t =>
        obtain ⟨c, rfl, hm⟩ := Proc.move?_eq_none stuck hr
        exact .inr (.inr ⟨c, rfl, hm⟩)
      | stepping => exact absurd hr (h.sound.not_stepping quiet hx)
      | awaiting n c => exact .inr (.inl ⟨n, c, rfl⟩)
      | dead =>
        rw [Proc.isDead_iff.2 hr] at alive
        cases alive
  · refine ⟨fun p x hx => h.sound.stuck_of_idle idle hx, fun p n k s budget => ?_,
      fun p x c hx hr => ?_⟩
    · have stuck : (m.world.procs.get? p).bind Proc.move? = none := by
        cases hx : m.world.procs.get? p with
        | none => rfl
        | some x => exact h.sound.stuck_of_idle idle hx
      exact Machine.stepTurn_of_stuck k s budget stuck
    · obtain ⟨c', -, hm⟩ := Proc.move?_eq_none (h.sound.stuck_of_idle idle hx) hr
      exact hm

/-- A process that has taken the one message sent to it, and waits for the next. -/
def listening : Machine Empty Unit :=
  let code : Code Empty Unit Unit :=
    (Code.ask (.spawn (.andThen (.receive .asOk) (.programNext 0)))).bind fun _ =>
      (Code.ask (.send ⟨1⟩ .unit)).bind fun _ =>
        (Code.ask (.drive .idle)).bind fun _ => .ret ()
  .run .empty 20 (.load (.new .standard ()) (Procedure.ofCode code))

theorem listening_has_no_mail :
    ∃ x, listening.world.procs.get? ⟨1⟩ = some x ∧ x.isDead = false ∧ x.move? = none ∧
      x.mailbox = [] ∧ (⟨1⟩ ∈ listening.world.queue ∨ (∃ n c, x.root = .awaiting n c) ∨
        ∃ c, x.root = .ready (.receive c) ∧ x.mailbox = []) := by
  have h : Reachable .empty listening := (Reachable.new _ _ _).run 20
  obtain ⟨waiting, idle⟩ := h.no_lost_wakeup
  obtain ⟨stuck, -, mail⟩ := idle (by rfl)
  exact ⟨_, rfl, rfl, stuck ⟨1⟩ _ rfl, mail ⟨1⟩ _ (.programTurn 0) rfl rfl,
    waiting (by rfl) ⟨1⟩ _ rfl rfl⟩

end Actors
