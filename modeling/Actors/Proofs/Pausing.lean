/-
Main processes during their update cycles.

A main process that has begun an update cycle awaits it. Nobody but the code that runs the cycle completes
it: there is no ticket for the user, and no timer. So until this code does so the process makes no
transition, whatever else is done to it.

* `Trail.retires_of_timer` — a timer that wakes a process has been set to let it sleep;
* `Trail.settled` — what a main process awaits is completed by the runtime's own work;
* `World.Pauses`, `Machine.pauses_step` — a process that awaits something, or is dead.
-/
import Actors.Proofs.Routing
import Actors.Proofs.Sleeping

namespace Actors

variable {κ σ : Type} {b : Behaviour κ σ} {p : Pid}

open World

/-! ### What completes a binding -/

namespace Trail

variable {m : Machine κ σ} {ms : List (Machine κ σ)}

theorem retires_of_timer (h : Trail b m ms) {key : TimerKey} {t : Ticket}
    (timer : ⟨key, .wake t⟩ ∈ m.world.host.timers) : ∃ m₀ ∈ ms, ∃ span, m₀.Retires t span := by
  induction h with
  | new config user code => cases timer
  | load code _ _ _ ih => exact ih timer
  | @step m ms h ih =>
    rcases (Machine.passes b m).of_mem_timers timer with before | ⟨span, top, -⟩
    · obtain ⟨m₀, hm, span, retires⟩ := ih before
      exact ⟨m₀, List.mem_append_left _ hm, span, retires⟩
    · obtain ⟨m₀, hm, -, retires⟩ := h.retires (List.mem_append_right _ (List.mem_singleton.2 rfl)) top
      exact ⟨m₀, List.mem_append_left _ hm, span, retires⟩

/-- All bindings of a main process are update cycles, so there is neither a ticket of the user nor a timer
for one of them. -/
theorem settled (h : Trail b m ms) {i : ProgramId}
    (main : ∀ t, .spawned t ∈ Record.of (ms.flatMap Machine.record) p → t = Program.listen i) {t : Task κ}
    (done : (p, .completed t) ∈ m.record) : ∃ k, m.directive? = some (.settle ⟨p, k⟩ t) := by
  have update : ∀ {mv : Move κ} {g : Binding κ},
      .moved mv ∈ Record.of (ms.flatMap Machine.record) p → mv.task = .native g → ∃ v, g = .update i v :=
    fun moved task => h.history.domestic main moved task
  rcases (Machine.transition b m).of_completed done with settles | ⟨k, held⟩ | ⟨-, key, k, timer⟩
  · exact settles
  · obtain ⟨mv, g, moved, task, holder⟩ := h.history.backed _ held
    obtain ⟨v, rfl⟩ := update moved task
    cases holder
  · obtain ⟨m₀, hm, span, -, e, record⟩ := h.retires_of_timer timer
    have moved : (p, Deed.moved ⟨.native (.sleep span), e⟩) ∈ ms.flatMap Machine.record :=
      List.mem_flatMap.2 ⟨m₀, hm, record ▸ List.mem_singleton.2 rfl⟩
    obtain ⟨v, same⟩ := update (Record.mem_of.2 moved) rfl
    cases same

end Trail

/-! ### Processes that cannot go on -/

/-- A process cannot go on by itself: it awaits a binding, or it is dead. -/
def Proc.Pauses (x : Proc κ) : Prop :=
  x.root.isAwaiting = true ∨ x.root = .dead

/-- There is a process of this name, and it cannot go on by itself. -/
def World.Pauses (w : World κ σ) (p : Pid) : Prop :=
  ∃ x, w.bare p = some x ∧ x.Pauses

theorem Proc.Pauses.move? {x : Proc κ} (h : x.Pauses) : x.move? = none := by
  cases hm : x.move? with
  | none => rfl
  | some mv =>
    have root := Proc.root_of_move? hm
    rcases h with awaiting | dead
    · rw [root] at awaiting
      cases awaiting
    · cases root.symm.trans dead

/-- Only when its binding is completed the process can go on. -/
theorem Life.pauses {o o' : Option (Proc κ)} {ds : Deeds κ} (l : Life o ds o')
    (open? : ∀ t, .completed t ∉ ds) (h : ∃ x, o = some x ∧ x.Pauses) : ∃ x, o' = some x ∧ x.Pauses := by
  induction l with
  | refl => exact h
  | snoc l hd ih =>
    obtain ⟨x, rfl, pauses⟩ := ih fun t ht => open? t (List.mem_append_left _ ht)
    cases hd with
    | sent => exact ⟨_, rfl, pauses⟩
    | dropped => exact ⟨_, rfl, pauses⟩
    | killed => exact ⟨_, rfl, .inr rfl⟩
    | completed t => exact absurd (List.mem_append_right _ (List.mem_singleton.2 rfl)) (open? t)
    | moved can =>
      rw [pauses.move?] at can
      cases can
    | returned t stepping =>
      rcases pauses with awaiting | dead
      · rw [stepping] at awaiting
        cases awaiting
      · cases stepping.symm.trans dead

namespace Machine

variable {m : Machine κ σ}

theorem pauses_step (sound : m.Sound) (h : m.world.Pauses p) (open? : ∀ t, (p, .completed t) ∉ m.record) :
    (m.step b).world.Pauses p :=
  ((transition b m).life sound p).pauses (fun t ht => open? t (Record.mem_of.1 ht)) h

/-- As long as it cannot go on the process makes no transition. -/
theorem not_moved (b : Behaviour κ σ) (h : m.world.Pauses p) (mv : Move κ) : (p, .moved mv) ∉ m.record := by
  intro moved
  obtain ⟨x, hx, can, -⟩ := (transition b m).of_moved moved
  obtain ⟨y, hy, pauses⟩ := h
  obtain rfl := Option.some.inj ((World.bare_of_get? hx).symm.trans hy)
  rw [← Proc.move?_bare, pauses.move?] at can
  cases can

/-- A process that has begun a binding awaits it. -/
theorem pauses_of_native (sound : m.Sound) {mv : Move κ} {g : Binding κ} (moved : (p, .moved mv) ∈ m.record)
    (task : mv.task = .native g) : (m.step b).world.Pauses p := by
  have tr := transition b m
  rcases tr.own p with outside | ⟨mv', hr⟩ | ⟨t, n, k, s, hr, -⟩
  · exact absurd (outside _ (Record.mem_of.2 moved)) (by simp [Deed.isOwn])
  · have same : Deed.moved mv ∈ [Deed.moved mv'] := hr ▸ Record.mem_of.2 moved
    obtain rfl := Deed.moved.inj (List.mem_singleton.1 same)
    have leads := (hr ▸ tr.life sound p).leads
    obtain ⟨task', entered⟩ := mv
    obtain rfl : task' = .native g := task
    generalize m.world.bare p = o at leads
    generalize ho : (m.step b).world.bare p = o' at leads
    cases leads
    exact ⟨_, ho, .inl rfl⟩
  · have same : Deed.moved mv ∈ [Deed.returned t] := hr ▸ Record.mem_of.2 moved
    cases List.mem_singleton.1 same

end Machine

end Actors
