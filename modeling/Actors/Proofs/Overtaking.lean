/-
Turns are given in the order of the queue.

What has been put into the work queue leaves it in the same order, whoever puts it there and whatever
happens meanwhile. Nobody stands in the queue twice, so while a process waits for its turn every other
process gets at most one. A tick that finds somebody in the queue takes somebody out of it, so no more
ticks go by than there are others ahead.

* `Stretch` — the part of a run that leads from one machine to another;
* `Machine.taken?`, `Machine.appended` — what the next step takes out of the queue and puts into it, and
  `Stretch.queue`: what comes in goes out in the same order;
* `Machine.beginsTick`, `Stretch.ticks_le` — the ticks that begin while somebody waits;
* `Reachable.bounded_overtaking` — how long a process waits for its turn.
-/
import Actors.Proofs.Pump

namespace Actors

variable {κ σ : Type} {b : Behaviour κ σ}

open World Activity

/-! ### Parts of runs -/

/-- The part of a run that leads from one machine to another, with the machines that it goes on from. -/
inductive Stretch (b : Behaviour κ σ) (m₀ : Machine κ σ) :
    List (Machine κ σ) → Machine κ σ → Prop where
  | refl : Stretch b m₀ [] m₀
  | step {m : Machine κ σ} {ms : List (Machine κ σ)} :
      Stretch b m₀ ms m → Stretch b m₀ (ms ++ [m]) (m.step b)
  | load {m : Machine κ σ} {ms : List (Machine κ σ)} (code : Code κ σ Unit) :
      Stretch b m₀ ms m → m.stack = [] → m.fault = none →
        Stretch b m₀ ms (.load m.world (Procedure.ofCode code))

namespace Stretch

variable {m₀ m : Machine κ σ} {ms : List (Machine κ σ)}

theorem reachable (h : Stretch b m₀ ms m) (h₀ : Reachable b m₀) : Reachable b m := by
  induction h with
  | refl => exact h₀
  | step _ ih => exact ih.step
  | load code _ hs hf ih => exact ih.load code hs hf

theorem run (h : Stretch b m₀ ms m) (n : Nat) :
    Stretch b m₀ (ms ++ Machine.passed b n m) (Machine.run b n m) := by
  induction n generalizing m ms with
  | zero =>
    rw [Machine.passed, List.append_nil]
    exact h
  | succ n ih =>
    rw [Machine.passed, List.append_cons]
    exact ih h.step

end Stretch

/-! ### The queue -/

/-- The process that the next step of an activity takes out of the work queue. -/
def Activity.taken? (w : World κ σ) : Activity κ σ → Option Pid
  | .tick steps _ .seek => if steps < w.limit then w.queue.head? else none
  | _ => none

namespace Machine

/-- The process that the next step takes out of the work queue. -/
def taken? (m : Machine κ σ) : Option Pid :=
  match m.fault, m.stack with
  | none, a :: _ => a.taken? m.world
  | _, _ => none

/-- What the next step leaves in the work queue. -/
def waiting (m : Machine κ σ) : List Pid :=
  m.world.queue.drop m.taken?.toList.length

/-- What the next step puts into the work queue, behind what it leaves there. -/
def appended (b : Behaviour κ σ) (m : Machine κ σ) : List Pid :=
  (m.step b).world.queue.drop m.waiting.length

end Machine

namespace World

variable {w w' : World κ σ} {p : Pid}

theorem queue_arm (w : World κ σ) : w.arm.queue = w.queue := by
  unfold arm
  split <;> rfl

theorem prefix_enqueue (w : World κ σ) (p : Pid) : w.queue <+: (w.enqueue p).queue := by
  unfold enqueue
  split
  · exact List.prefix_refl _
  · split
    · exact List.prefix_refl _
    · rw [queue_arm]
      exact List.prefix_append _ _

theorem queue_dequeue (h : w.dequeue = some (p, w')) : w.queue = p :: w'.queue := by
  unfold dequeue at h
  split at h
  · cases h
  · next p' ps hq =>
    obtain ⟨rfl, rfl⟩ := Prod.mk.inj (Option.some.inj h)
    rw [hq, modify]
    split <;> rfl

theorem queue_endTick (w : World κ σ) (n k : Nat) : (w.endTick n k).queue = w.queue := by
  simp only [endTick]
  split <;> rfl

end World

/-- Operations of code only put processes into the queue. -/
theorem Operation.prefix_queue {w w' : World κ σ} {r : Record κ} (op : Operation w r w') :
    w.queue <+: w'.queue := by
  induction op with
  | quiet h => exact h.queue ▸ List.prefix_refl _
  | dropped v dead h => exact h.queue ▸ List.prefix_refl _
  | sent v hx alive h => exact h.queue ▸ prefix_enqueue _ _
  | spawned label t hx h => exact h.queue ▸ prefix_enqueue _ _
  | killed hx alive h => exact h.queue ▸ List.prefix_refl _
  | completed t hx awaiting h => exact h.queue ▸ prefix_enqueue _ _
  | attached hx awaiting h => exact h.queue ▸ List.prefix_refl _
  | seq _ _ ih ih' => exact ih.trans ih'

/-- A process is taken out of the queue by a tick that is between turns and has budget left; it is the
first that stands there. -/
theorem Machine.of_taken? {m : Machine κ σ} {p : Pid} (h : m.taken? = some p) :
    ∃ w n k s rest, m = ⟨w, .tick n k .seek :: s, none⟩ ∧ n < w.limit ∧ w.queue = p :: rest := by
  obtain ⟨w, stack, fault⟩ := m
  cases fault with
  | some f => cases h
  | none =>
    cases stack with
    | nil => cases h
    | cons a s =>
      have ha : a.taken? w = some p := h
      unfold Activity.taken? at ha
      split at ha
      · next n k =>
        split at ha
        · next budget =>
          obtain ⟨rest, hq⟩ := List.head?_eq_some_iff.1 ha
          exact ⟨w, n, k, s, rest, rfl, budget, hq⟩
        · cases ha
      · cases ha

theorem World.dequeue_of_cons {w : World κ σ} {p : Pid} {rest : List Pid} (h : w.queue = p :: rest) :
    ∃ w', w.dequeue = some (p, w') ∧ w'.queue = rest ∧ w'.limit = w.limit := by
  have hd : w.dequeue = some (p, modify { w with queue := rest } p fun x => { x with queued := false }) := by
    unfold dequeue
    rw [h]
  refine ⟨_, hd, ?_, ?_⟩
  · unfold modify
    split <;> rfl
  · unfold modify
    split <;> rfl

/-- The process that is taken out of the queue gets its turn, with budget left for it; or it is dead,
and is passed over. -/
theorem Machine.step_taken {m : Machine κ σ} {p : Pid} (b : Behaviour κ σ) (h : m.taken? = some p) :
    m.world.queue = p :: (m.step b).world.queue ∧ ∃ n k s, m.stack = .tick n k .seek :: s ∧
      n < (m.step b).world.limit ∧ (m.step b).fault = none ∧
      (if (m.step b).world.procs.isAlive p then (m.step b).stack = .tick n (k + 1) (.turn p) :: s
        else (m.step b).stack = m.stack) := by
  obtain ⟨w, n, k, s, rest, rfl, budget, hq⟩ := of_taken? h
  obtain ⟨w', hd, rfl, limit⟩ := dequeue_of_cons hq
  have step : Machine.step b ⟨w, .tick n k .seek :: s, none⟩ =
      if w'.procs.isAlive p then ⟨w', .tick n (k + 1) (.turn p) :: s, none⟩
      else ⟨w', .tick n k .seek :: s, none⟩ := by
    show stepSeek w n k s = _
    unfold stepSeek
    rw [if_pos budget, hd]
  rw [step]
  by_cases alive : w'.procs.isAlive p = true
  · simp only [if_pos alive]
    exact ⟨hq, n, k, s, rfl, limit ▸ budget, trivial, rfl⟩
  · simp only [if_neg alive]
    exact ⟨hq, n, k, s, rfl, limit ▸ budget, trivial, trivial⟩

/-- A step that takes nothing out of the queue only puts processes into it. -/
theorem Machine.prefix_of_taken? {m : Machine κ σ} (b : Behaviour κ σ) (h : m.taken? = none) :
    m.world.queue <+: (m.step b).world.queue := by
  have tr := transition b m
  generalize m.step b = m' at tr
  generalize m.record = r at tr
  have taken : ∀ {w w' : World κ σ} {s : List (Activity κ σ)} {n k : Nat} {p : Pid}, n < w.limit →
      w.dequeue = some (p, w') → (⟨w, .tick n k .seek :: s, none⟩ : Machine κ σ).taken? = some p := by
    intro w w' s n k p budget hd
    have hq := queue_dequeue hd
    show (if n < w.limit then w.queue.head? else none) = some p
    rw [if_pos budget, hq]
    rfl
  -- The two steps that take somebody out are excluded; of the others each has its lemma.
  cases tr with
  | rest => exact List.prefix_refl _
  | code fr hd => exact (Directive.operation hd).prefix_queue
  | driving fr hd => exact List.prefix_refl _
  | broken agree => exact agree.queue ▸ List.prefix_refl _
  | finished => exact List.prefix_refl _
  | picked budget hd alive => cases h.symm.trans (taken budget hd)
  | skipped budget hd dead => cases h.symm.trans (taken budget hd)
  | ended => exact (queue_endTick _ _ _).symm ▸ List.prefix_refl _
  | preempted => exact prefix_enqueue _ _
  | parked budget stuck agree => exact agree.queue ▸ List.prefix_refl _
  | pushed budget hx can put => exact put.queue ▸ List.prefix_refl _
  | entered budget hx can put => exact put.queue ▸ List.prefix_refl _
  | started budget hx can put => exact put.queue ▸ List.prefix_refl _
  | exited budget hx can put => exact put.queue ▸ List.prefix_refl _
  | returned hx alive put => exact put.queue ▸ List.prefix_refl _
  | ignored => exact List.prefix_refl _
  | launched => exact List.prefix_refl _
  | pumped => exact List.prefix_refl _
  | lost => exact List.prefix_refl _
  | thunk agree => exact agree.queue ▸ List.prefix_refl _
  | woken op => exact op.prefix_queue
  | driven agree => exact agree.queue ▸ List.prefix_refl _

/-- What a step does to the queue. -/
theorem Machine.queue_step (b : Behaviour κ σ) (m : Machine κ σ) :
    m.world.queue ++ m.appended b = m.taken?.toList ++ (m.step b).world.queue := by
  rw [appended, waiting]
  cases ht : m.taken? with
  | none =>
    obtain ⟨rest, more⟩ := prefix_of_taken? b ht
    show m.world.queue ++ (m.step b).world.queue.drop m.world.queue.length = (m.step b).world.queue
    rw [← more, List.drop_left]
  | some p =>
    have same := (step_taken b ht).1
    show m.world.queue ++ (m.step b).world.queue.drop (m.world.queue.drop 1).length = _
    rw [same]
    show p :: (m.step b).world.queue ++ (m.step b).world.queue.drop (m.step b).world.queue.length = _
    rw [List.drop_length, List.append_nil]
    rfl

/-- What comes into the queue goes out of it in the same order. -/
theorem Stretch.queue {m₀ m : Machine κ σ} {ms : List (Machine κ σ)} (h : Stretch b m₀ ms m) :
    m₀.world.queue ++ ms.flatMap (Machine.appended b) =
      ms.filterMap Machine.taken? ++ m.world.queue := by
  induction h with
  | refl => rw [List.flatMap_nil, List.append_nil]; rfl
  | @step m ms h ih =>
    rw [List.flatMap_append, List.flatMap_singleton, ← List.append_assoc, ih, List.append_assoc,
      Machine.queue_step, filterMap_snoc, List.append_assoc]
  | load code _ hs hf ih => exact ih

/-! ### Ticks -/

/-- Whether the next step begins a tick of the scheduler. -/
def Machine.beginsTick (b : Behaviour κ σ) (m : Machine κ σ) : Bool :=
  ticksOf (m.step b).stack = ticksOf m.stack + 1

/-- A tick has only begun. -/
def Machine.Fresh (m : Machine κ σ) : Prop :=
  m.fault = none ∧ ∃ s, m.stack = .tick 0 0 .seek :: s

/-- What a step is to the ticks that are under way: one begins, one ends, or they stay as they are. -/
theorem Transition.ticks {m m' : Machine κ σ} {r : Record κ} (tr : Transition b m r m') :
    ticksOf m'.stack = ticksOf m.stack ∨ ticksOf m.stack = ticksOf m'.stack + 1 ∨
      (m'.Fresh ∧ m'.world.queue = m.world.queue) := by
  cases tr with
  | rest => exact .inl rfl
  | code fr hd => exact .inl (ticksOf_like (fr.like _ _) _)
  | driving fr hd => exact .inl ((ticksOf_skip rfl _).trans (ticksOf_like (fr.like _ _) _))
  | broken agree like => exact .inl (ticksOf_like like _)
  | finished => exact .inl (ticksOf_skip rfl _).symm
  | ended => exact .inr (.inl (ticksOf_tick _ _ _ _))
  | pumped => exact .inr (.inr ⟨⟨rfl, _, rfl⟩, rfl⟩)
  | thunk => exact .inl ((ticksOf_skip rfl _).trans ((ticksOf_skip rfl _).trans (ticksOf_skip rfl _).symm))
  | lost => exact .inl ((ticksOf_skip rfl _).trans (ticksOf_skip rfl _).symm)
  | woken => exact .inl ((ticksOf_skip rfl _).trans (ticksOf_skip rfl _).symm)
  | driven => exact .inl ((ticksOf_resumeTop _ _).trans (ticksOf_skip rfl _).symm)
  | _ => exact .inl ((ticksOf_tick _ _ _ _).trans (ticksOf_tick _ _ _ _).symm)

theorem Machine.fresh_of_beginsTick {m : Machine κ σ} (h : m.beginsTick b = true) :
    (m.step b).Fresh ∧ (m.step b).world.queue = m.world.queue := by
  have more : ticksOf (m.step b).stack = ticksOf m.stack + 1 := of_decide_eq_true h
  rcases (transition b m).ticks with same | less | fresh
  · omega
  · omega
  · exact fresh

/-- A tick that finds somebody in the queue takes somebody out of it, first of all. -/
theorem Machine.taken?_of_fresh {m : Machine κ σ} (h : m.Fresh) :
    m.taken? = m.world.queue.head? := by
  obtain ⟨w, stack, fault⟩ := m
  obtain ⟨rfl, s, rfl⟩ := h
  exact if_pos w.config.budget.property.1

theorem Machine.beginsTick_of_taken? {m : Machine κ σ} {p : Pid} (b : Behaviour κ σ)
    (h : m.taken? = some p) : m.beginsTick b = false := by
  obtain ⟨-, n, k, s, stack, -, -, turn⟩ := step_taken b h
  refine decide_eq_false fun more => ?_
  split at turn
  · rw [turn, stack, ticksOf_tick, ticksOf_tick] at more
    omega
  · rw [turn] at more
    omega

/-- While there is somebody in the queue, no more ticks begin than processes are taken out of it, but
for one that has only begun. -/
theorem Stretch.ticks_le {m₀ m : Machine κ σ} {ms : List (Machine κ σ)} (h : Stretch b m₀ ms m)
    (stocked : ∀ m' ∈ ms, m'.world.queue ≠ []) :
    ms.countP (Machine.beginsTick b) ≤ (ms.filterMap Machine.taken?).length ∨
      (ms.countP (Machine.beginsTick b) = (ms.filterMap Machine.taken?).length + 1 ∧ m.Fresh) := by
  induction h with
  | refl => exact .inl (Nat.le_refl _)
  | @step m ms h ih =>
    have ih := ih fun m' hm => stocked m' (List.mem_append_left _ hm)
    rw [List.countP_append, List.countP_singleton, filterMap_snoc, List.length_append]
    by_cases fresh : m.Fresh
    · -- The tick that has only begun takes somebody.
      have work := stocked m (List.mem_append_right _ (List.mem_singleton_self m))
      obtain ⟨p, rest, hq⟩ := List.exists_cons_of_ne_nil work
      have taken : m.taken? = some p := by rw [Machine.taken?_of_fresh fresh, hq]; rfl
      rw [Machine.beginsTick_of_taken? b taken, taken]
      refine .inl ?_
      show _ + 0 ≤ _ + 1
      omega
    -- No tick is new, so what has begun is bounded; a tick that begins in this step is the one
    -- exception, and it is new then.
    · have before := ih.resolve_right fun h => fresh h.2
      cases begins : m.beginsTick b with
      | false =>
        refine .inl ?_
        show _ + 0 ≤ _
        omega
      | true =>
        have now : (m.step b).Fresh := (Machine.fresh_of_beginsTick begins).1
        have one : (if true = true then 1 else 0) = 1 := rfl
        rw [one]
        rcases Nat.lt_or_ge ((ms.filterMap Machine.taken?).length + m.taken?.toList.length)
          (ms.countP (Machine.beginsTick b) + 1) with more | less
        · exact .inr ⟨by omega, now⟩
        · exact .inl less
  -- Loading needs an empty stack, and a new tick stands on it.
  | load code _ hs hf ih =>
    refine .inl ((ih stocked).resolve_right fun h => ?_)
    obtain ⟨s, stack⟩ := h.2.2
    cases hs.symm.trans stack

/-! ### A process that waits -/

namespace Stretch

variable {m₀ m : Machine κ σ} {ms : List (Machine κ σ)} {p : Pid}

/-- Whoever stands in the queue stays there until it is taken out. -/
theorem waits (h : Stretch b m₀ ms m) (here : p ∈ m₀.world.queue)
    (yet : p ∉ ms.filterMap Machine.taken?) :
    (∀ m' ∈ ms, p ∈ m'.world.queue) ∧ p ∈ m.world.queue := by
  induction h with
  | refl => exact ⟨fun _ hm => absurd hm List.not_mem_nil, here⟩
  | @step m ms h ih =>
    rw [filterMap_snoc, List.mem_append, not_or] at yet
    obtain ⟨before, now⟩ := ih yet.1
    have stays : p ∈ m.taken?.toList ++ (m.step b).world.queue := by
      rw [← Machine.queue_step b m]
      exact List.mem_append_left _ now
    refine ⟨fun m' hm => ?_, (List.mem_append.1 stays).resolve_left yet.2⟩
    rcases List.mem_append.1 hm with hm | hm
    · exact before m' hm
    · rw [List.mem_singleton.1 hm]
      exact now
  | load code _ hs hf ih => exact ih yet

variable {ahead behind : List Pid}

/-- As long as somebody waits, only those who stood ahead have been taken out, in their order, and
everybody who has come since stands behind. -/
theorem queue_of_waiting (h : Stretch b m₀ ms m) (place : m₀.world.queue = ahead ++ p :: behind)
    (yet : p ∉ ms.filterMap Machine.taken?) :
    ∃ before, ms.filterMap Machine.taken? ++ before = ahead ∧
      m.world.queue = before ++ p :: (behind ++ ms.flatMap (Machine.appended b)) := by
  have order := h.queue
  rw [place, List.append_assoc, List.cons_append] at order
  rcases List.append_eq_append_iff.1 order with ⟨late, taken, rest⟩ | ⟨before, rfl, queue⟩
  · cases late with
    | nil => exact ⟨[], by rw [taken, List.append_nil, List.append_nil], rest.symm⟩
    | cons q late =>
      obtain ⟨rfl, -⟩ := List.cons.inj rest
      exact absurd (taken ▸ List.mem_append_right _ List.mem_cons_self) yet
  · exact ⟨before, rfl, queue⟩

/-- Before somebody is taken out all those go who stood ahead, and after it those who stood behind or
have come since, in their order. -/
theorem taken_of_mem (h : Stretch b m₀ ms m) (place : m₀.world.queue = ahead ++ p :: behind)
    (first : p ∉ ahead) (gone : p ∈ ms.filterMap Machine.taken?) :
    ∃ rest, ms.filterMap Machine.taken? = ahead ++ p :: rest ∧
      behind ++ ms.flatMap (Machine.appended b) = rest ++ m.world.queue := by
  have order := h.queue
  rw [place, List.append_assoc, List.cons_append] at order
  rcases List.append_eq_append_iff.1 order with ⟨late, taken, rest⟩ | ⟨before, taken, queue⟩
  · cases late with
    | nil =>
      rw [List.append_nil] at taken
      exact absurd (taken ▸ gone) first
    | cons q late =>
      obtain ⟨rfl, behind⟩ := List.cons.inj rest
      exact ⟨late, taken, behind⟩
  · exact absurd (taken ▸ List.mem_append_left _ gone) first

end Stretch

/-- Whoever stands in the work queue waits for those ahead of it and for nobody else. Until it is
taken out every other process is taken out at most once, in the order in which they stand there, and
whoever is put into the queue meanwhile stands behind it and is taken out after it. Every tick that
finds somebody in the queue takes somebody out of it, with its first step; so with `k` others ahead no
more than `k + 1` ticks begin, and the last of these takes the process that waits; and as long as it
waits a tick runs or is due. Whoever is taken out has its turn at once, with budget left for it, or is
dead and is passed over. -/
theorem Reachable.bounded_overtaking {m₀ m : Machine κ σ} {ms : List (Machine κ σ)} {p : Pid}
    {ahead behind : List Pid} (h₀ : Reachable b m₀) (h : Stretch b m₀ ms m)
    (place : m₀.world.queue = ahead ++ p :: behind) :
    (p ∉ ms.filterMap Machine.taken? →
      (ms.filterMap Machine.taken?).Nodup ∧
      (∃ before, ms.filterMap Machine.taken? ++ before = ahead ∧
        m.world.queue = before ++ p :: (behind ++ ms.flatMap (Machine.appended b))) ∧
      ms.countP (Machine.beginsTick b) ≤ ahead.length + 1 ∧
      (ms.countP (Machine.beginsTick b) = ahead.length + 1 → m.taken? = some p) ∧
      (m.world.reachable = true → m.world.host.pumps + ticksOf m.stack = 1)) ∧
    (p ∈ ms.filterMap Machine.taken? → ∃ rest,
      ms.filterMap Machine.taken? = ahead ++ p :: rest ∧
      behind ++ ms.flatMap (Machine.appended b) = rest ++ m.world.queue) ∧
    (∀ m' ∈ ms, m'.beginsTick b = true → m'.world.queue ≠ [] →
      ∃ q, (m'.step b).taken? = some q) ∧
    ∀ m' ∈ ms, ∀ q, m'.taken? = some q → ∃ n k s, m'.stack = .tick n k .seek :: s ∧
      n < (m'.step b).world.limit ∧ (m'.step b).fault = none ∧
      if (m'.step b).world.procs.isAlive q then (m'.step b).stack = .tick n (k + 1) (.turn q) :: s
      else (m'.step b).stack = m'.stack := by
  have once : (ahead ++ p :: behind).Nodup := by
    have sound : m₀.world.SoundWith m₀.stack := h₀.sound
    exact place ▸ sound.nodup
  refine ⟨fun yet => ?_, h.taken_of_mem place fun first => ?_, fun m' _ begins work => ?_,
    fun m' _ q taken => (Machine.step_taken b taken).2⟩
  · obtain ⟨before, split, queue⟩ := h.queue_of_waiting place yet
    obtain ⟨present, now⟩ := h.waits (place ▸ List.mem_append_right _ List.mem_cons_self) yet
    have count : (ms.filterMap Machine.taken?).length + before.length = ahead.length := by
      rw [← split, List.length_append]
    have ticks := h.ticks_le fun m' hm => List.ne_nil_of_mem (present m' hm)
    refine ⟨?_, ⟨before, split, queue⟩, by omega, fun all => ?_, fun here => ?_⟩
    · rw [← split, List.append_assoc] at once
      exact (List.nodup_append.1 once).1
    · obtain ⟨more, fresh⟩ := ticks.resolve_left (by omega)
      obtain rfl := List.eq_nil_of_length_eq_zero (show before.length = 0 by omega)
      rw [Machine.taken?_of_fresh fresh, queue]
      rfl
    · have reach := h.reachable h₀
      have armed := reach.pumped.stocked (List.ne_nil_of_mem now)
      have some := reach.pumped.ticking here armed
      have sound : m.world.SoundWith m.stack := reach.sound
      have most := sound.pumps
      omega
  · exact (List.nodup_append.1 once).2.2 p first p List.mem_cons_self rfl
  · obtain ⟨fresh, same⟩ := Machine.fresh_of_beginsTick begins
    obtain ⟨q, rest, hq⟩ := List.exists_cons_of_ne_nil work
    exact ⟨q, by rw [Machine.taken?_of_fresh fresh, same, hq]; rfl⟩

/-- A process that always has something to do. -/
def restless : Behaviour Unit Unit :=
  Behaviour.ofCallbacks fun _ v => .andThen (.succeed v) (.code ())

/-- Three processes that always have something to do, on a runtime with a budget of one step. -/
def thronged : Machine Unit Unit :=
  let enter : Code Unit Unit (Option Pid) :=
    Code.ask (.spawn (.andThen (.succeed .unit) (.code ())))
  let code : Code Unit Unit Unit :=
    enter.bind fun _ => enter.bind fun _ => enter.bind fun _ =>
      (Code.ask (.drive .idle)).bind fun _ => .ret ()
  .load (.new { Config.standard with budget := ⟨1, by decide⟩ } ()) (Procedure.ofCode code)

/-- The third of them waits while the two others have had one turn each, and is taken out by the third
tick. -/
theorem thronged_third :
    (Machine.run restless 3 thronged).world.queue = [⟨1⟩, ⟨2⟩] ++ ⟨3⟩ :: [] ∧
    ⟨3⟩ ∉ (Machine.passed restless 12 (Machine.run restless 3 thronged)).filterMap Machine.taken? ∧
    (Machine.passed restless 12 (Machine.run restless 3 thronged)).countP
      (Machine.beginsTick restless) = 3 ∧
    (Machine.run restless 12 (Machine.run restless 3 thronged)).taken? = some ⟨3⟩ := by
  have h₀ : Reachable restless (Machine.run restless 3 thronged) := (Reachable.new _ _ _).run 3
  have h : Stretch restless (Machine.run restless 3 thronged)
      (Machine.passed restless 12 (Machine.run restless 3 thronged))
      (Machine.run restless 12 (Machine.run restless 3 thronged)) := Stretch.refl.run 12
  have place : (Machine.run restless 3 thronged).world.queue = [⟨1⟩, ⟨2⟩] ++ ⟨3⟩ :: [] := rfl
  have order : (Machine.passed restless 12 (Machine.run restless 3 thronged)).filterMap
      Machine.taken? = [⟨1⟩, ⟨2⟩] := rfl
  have yet : ⟨3⟩ ∉ (Machine.passed restless 12 (Machine.run restless 3 thronged)).filterMap
      Machine.taken? := by
    rw [order]
    decide
  have ticks : (Machine.passed restless 12 (Machine.run restless 3 thronged)).countP
      (Machine.beginsTick restless) = 3 := rfl
  obtain ⟨-, -, -, last, -⟩ := (h₀.bounded_overtaking h place).1 yet
  exact ⟨place, yet, ticks, last ticks⟩

end Actors
