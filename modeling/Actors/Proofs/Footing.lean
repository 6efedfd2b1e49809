/-
What stands below a task.

A task that comes up on a stack of handlers leaves the stack as it is. What it puts there itself lies above,
and is what would lie there if there was nothing below; the handlers below come into play only when the task
has come to its outcome, and when no handler of its own is left that wants this outcome. So the loops of
managers and of main processes, which are tasks that lead to themselves again, find the stack as they have
left it: empty.

* `Proc.Above`, `Proc.Yields` — a task under way above a stack, and at its outcome;
* `History.goes_on` — what a process is doing after a step;
* `Trail.above_interpreted` — the stack below a task, in every run;
* `Manager.Apart`, `Manager.Course.idle` — managers whose loop is out of the users' reach;
* `Trail.bounded_stack` — the stacks of managers and of main processes.
-/
import Actors.Proofs.Lifetime
import Actors.Proofs.Listening
import Actors.Proofs.Prompt
import Actors.Proofs.Serving

namespace Actors

variable {κ σ : Type} {b : Behaviour κ σ}

open Procedure

/-! ### Tasks above a stack -/

/-- A process is in the course of a task above a stack. Its own part of the situation is the one in which
the task would be with nothing below it. -/
def Proc.Above (b : Behaviour κ σ) (t : Task κ) (work : Deeds κ) (base : List (Handler κ)) (x : Proc κ) :
    Prop :=
  ∃ d, (Doing.task t []).Runs b work d ∧ (∀ o, d ≠ .exited o) ∧ (d.on base).Fits x

/-- A process has come to the outcome of a task above a stack: whatever is left above the stack does not
want the outcome and is thrown away with it, so that it is the stack that gets the outcome. -/
structure Proc.Yields (o : Except (Value κ) (Value κ)) (base : List (Handler κ)) (x : Proc κ) : Prop where
  root : x.root = .ready (.ofResult o)
  own : ∃ own, x.stack = own ++ base ∧ Handler.next o own = none
  gets : Handler.next o x.stack = Handler.next o base

theorem Doing.suffix_of_fits {d : Doing κ} {base : List (Handler κ)} {x : Proc κ} (h : (d.on base).Fits x) :
    base <:+ x.stack := by
  cases d with
  | task t s => exact h.2 ▸ List.suffix_append s base
  | call c v s => exact h.2 ▸ List.suffix_append s base
  | binding g s => exact h.2 ▸ List.suffix_append s base
  | exited o => exact h.2 ▸ List.suffix_rfl

theorem Proc.Yields.of_fits {o : Except (Value κ) (Value κ)} {s base : List (Handler κ)} {x : Proc κ}
    (none : Handler.next o s = none) (h : (Doing.on base (.task (.ofResult o) s)).Fits x) :
    x.Yields o base where
  root := h.1
  own := ⟨s, h.2, none⟩
  gets := by rw [h.2, Handler.next_append, none]

/-! ### One step -/

/-- What a process is doing in a run. -/
theorem History.interprets {m : Machine κ σ} {r : Record κ} (h : History b m r) {p : Pid} {x : Proc κ}
    (hx : m.world.procs.get? p = some x) : ∃ u d, (r.of p).Interpreted b x.bare u d :=
  ((h.life p).interpreted (h.returns p).1).2 x.bare (World.bare_of_get? hx)

/-- A step leaves what a process is doing, or it is the next thing that the process does. -/
theorem History.goes_on {m : Machine κ σ} {r : Record κ} (h : History b m r) {p : Pid} {x : Proc κ}
    {u : Task κ} {d : Doing κ} (interpreted : (r.of p).Interpreted b x.bare u d) :
    ∃ x' d', (m.step b).world.procs.get? p = some x' ∧
      ((r ++ m.record).of p).Interpreted b x'.bare u d' ∧
      (((Record.of m.record p).acts = [] ∧ d' = d) ∨
        ∃ e, Record.of m.record p = [e] ∧ (Record.of m.record p).acts = [e] ∧ d.Does b e d') := by
  have split : (r ++ m.record).of p = r.of p ++ Record.of m.record p := Record.of_append ..
  obtain ⟨x', d', hx', after⟩ := h.step.interpreted (split ▸ List.mem_append_left _ interpreted.started)
  refine ⟨x', d', hx', after, ?_⟩
  -- What a process does in the whole run splits at this step, since a course of deeds has one end
  -- only.
  have runs : d.Runs b (Record.of m.record p).acts d' := by
    have whole := after.runs
    rw [split, Deeds.acts, List.filter_append] at whole
    exact interpreted.runs.later whole
  rcases runs.head with none | ⟨e, es, d₁, acts, does, rest⟩
  · exact .inl none
  rcases m.record_of p with nothing | ⟨e', -, only⟩
  · rw [nothing] at acts
    cases acts
  · -- A step does one thing only.
    have one : (Record.of m.record p).acts = if e'.isAct then [e'] else [] := by
      rw [only]
      exact Deeds.acts_snoc [] e'
    have act : e'.isAct = true := by
      by_contra idle
      rw [acts, if_neg idle] at one
      cases one
    rw [if_pos act] at one
    obtain ⟨rfl, rfl⟩ := List.cons.inj (acts.symm.trans one)
    rcases rest.head with ⟨-, rfl⟩ | ⟨e₂, es₂, d₂, more, -⟩
    · exact .inr ⟨e, only, one, does⟩
    · cases more

/-- A process that does something is in the situation that its deeds have led to. -/
theorem History.fits_of_act {m : Machine κ σ} {r : Record κ} (h : History b m r) {p : Pid} {x : Proc κ}
    {u : Task κ} {d : Doing κ} {e : Deed κ} (hx : m.world.procs.get? p = some x)
    (interpreted : (r.of p).Interpreted b x.bare u d) (one : Record.of m.record p = [e])
    (act : e.isAct = true) : d.Fits x := by
  refine Doing.fits_bare (interpreted.fits fun dead => ?_)
  have life := (Machine.transition b m).life h.reachable.sound p
  rw [one, World.bare_of_get? hx] at life
  obtain ⟨v, rfl⟩ := (life.of_dead dead).2 e (List.mem_singleton.2 rfl)
  cases act

/-! ### Runs -/

namespace Trail

variable {m : Machine κ σ} {ms : List (Machine κ σ)} {p : Pid}

/-- A task that has come up on a stack is in its course above the stack, as long as it has not come to its
outcome. -/
theorem above_interpreted (h : Trail b m ms) {past during : List (Machine κ σ)} {m₁ : Machine κ σ}
    {x₁ : Proc κ} {t : Task κ} (split : ms = past ++ m₁ :: during)
    (hx₁ : m₁.world.procs.get? p = some x₁) (root : x₁.root = .ready t) :
    (∃ m₂ ∈ m₁ :: during, ∃ x₂ o, m₂.world.procs.get? p = some x₂ ∧ x₂.Yields o x₁.stack) ∨
      ∃ x u d, m.world.procs.get? p = some x ∧
        (Record.of (ms.flatMap Machine.record) p).Interpreted b x.bare u (d.on x₁.stack) ∧
        (Doing.task t []).Runs b (Record.of ((m₁ :: during).flatMap Machine.record) p).acts d ∧
        ∀ o, d ≠ .exited o := by
  -- What is so before a step is so after it: the process leaves its situation, or does the next thing.
  have step : ∀ {m : Machine κ σ} {ms later : List (Machine κ σ)} {x : Proc κ} {u : Task κ} {d : Doing κ}
      {work : Deeds κ}, Trail b m ms → m.world.procs.get? p = some x → m ∈ later →
      (Record.of (ms.flatMap Machine.record) p).Interpreted b x.bare u (d.on x₁.stack) →
      (Doing.task t []).Runs b work d → (∀ o, d ≠ .exited o) →
      (∃ m₂ ∈ later, ∃ x₂ o, m₂.world.procs.get? p = some x₂ ∧ x₂.Yields o x₁.stack) ∨
        ∃ x u d, (m.step b).world.procs.get? p = some x ∧
          (Record.of ((ms ++ [m]).flatMap Machine.record) p).Interpreted b x.bare u (d.on x₁.stack) ∧
          (Doing.task t []).Runs b (work ++ (Record.of m.record p).acts) d ∧ ∀ o, d ≠ .exited o := by
    intro m ms later x u d work h hx mem interpreted runs going
    obtain ⟨x', d', hx', after, still | ⟨e, one, acts, does⟩⟩ := h.history.goes_on interpreted
    · rw [List.flatMap_append, List.flatMap_singleton, still.1, List.append_nil]
      exact .inr ⟨x', u, d, hx', still.2 ▸ after, runs, going⟩
    · rcases does.of_on going with ⟨d'', first, going', rfl⟩ | ⟨o, s, rfl, none, -⟩
      · rw [List.flatMap_append, List.flatMap_singleton, acts]
        exact .inr ⟨x', u, d'', hx', after, runs.snoc first, going'⟩
      · have fits := h.history.fits_of_act hx interpreted one does.call?.1
        exact .inl ⟨m, mem, x, o, hx, .of_fits none fits⟩
  induction h generalizing during with
  | new config user code => cases past <;> cases split
  | load code _ _ _ ih => exact ih split
  | @step m ms h ih =>
    rcases snoc_eq_append_cons split with ⟨rfl, rfl, rfl⟩ | ⟨during, rfl, before⟩
    · -- The first step is made where the task has come up.
      obtain ⟨u, d, interpreted⟩ := h.history.interprets hx₁
      obtain rfl := Doing.eq_of_ready (interpreted.fits_of_living (Proc.isDead_of_ready root)) root
      have begun := step (d := .task t []) h hx₁ (List.mem_singleton.2 rfl) interpreted .refl nofun
      rw [List.flatMap_singleton]
      exact begun
    · rcases ih before with ⟨m₂, mem, yields⟩ | ⟨x, u, d, hx, interpreted, runs, going⟩
      · exact .inl ⟨m₂, List.mem_append_left [m] mem, yields⟩
      · have mem : m ∈ m₁ :: (during ++ [m]) :=
          List.mem_cons_of_mem _ (List.mem_append_right _ (List.mem_singleton.2 rfl))
        have acts : (Record.of ((m₁ :: (during ++ [m])).flatMap Machine.record) p).acts =
            (Record.of ((m₁ :: during).flatMap Machine.record) p).acts ++ (Record.of m.record p).acts := by
          rw [← List.cons_append, List.flatMap_append, List.flatMap_singleton, Record.of_append]
          exact List.filter_append ..
        rw [acts]
        exact step h hx mem interpreted runs going

end Trail

/-! ### Managers whose loop is out of reach -/

namespace Manager

/-- A set of tasks with which a manager is apart from the users' code: the manager's own start and its
handlers return tasks of the set, they come to tasks of the set, and none of them is a manager's loop. -/
structure Apart (b : Behaviour κ σ) (m : Post κ) (T : Task κ → Prop) : Prop where
  hidden : ∀ s, ¬ T (polling m s)
  pushes : ∀ {u t h}, Pushes u t h → T u → T t ∧ ∀ v t', (h.callback.run b v).Brings b t' → T t'
  receive : ∀ {c}, T (.receive c) → ∀ v t, (c.run b v).Brings b t → T t
  init : ∀ t, (b.code (.managerInit m)).Returns t → T t
  effects : ∀ cmds subs s t, (b.code (.managerEffects m cmds subs s)).Returns t → T t
  message : ∀ v s t, (b.code (.managerMessage m v s)).Returns t → T t

/-- A manager whose tasks take no message is apart. -/
theorem Deaf.apart {m : Post κ} {T : Task κ → Prop} (deaf : Deaf b m T) : Apart b m T where
  hidden _ := deaf.silent _
  pushes pushes ht := ⟨(deaf.pushes pushes ht).1, (deaf.pushes pushes ht).2.2⟩
  receive ht := absurd ht (deaf.silent _)
  init := deaf.init
  effects := deaf.effects
  message := deaf.message

/-- What a process is doing that keeps to a set of tasks. -/
def Keeps (b : Behaviour κ σ) (T : Task κ → Prop) : Doing κ → Prop
  | .task t s => T t ∧ ∀ h ∈ s, ∀ v t', (h.callback.run b v).Brings b t' → T t'
  | .call c v s => (∀ t, (c.run b v).Brings b t → T t) ∧
      ∀ h ∈ s, ∀ v t', (h.callback.run b v).Brings b t' → T t'
  | .binding _ s => ∀ h ∈ s, ∀ v t', (h.callback.run b v).Brings b t' → T t'
  | .exited _ => True

variable {m : Post κ} {T : Task κ → Prop} {turns : List (Value κ × Value κ)} {failure : Option (Value κ)}
  {ds : Deeds κ} {d d' : Doing κ} {s : Value κ} {base : List (Handler κ)}

theorem Apart.does {e : Deed κ} (apart : Apart b m T) (keeps : Keeps b T d) (h : d.Does b e d')
    (completed : ∀ t, e = .completed t → T t) : Keeps b T d' := by
  cases h with
  | push pushes s =>
    obtain ⟨hu, hs⟩ := keeps
    obtain ⟨ht, hg⟩ := apart.pushes pushes hu
    exact ⟨ht, List.forall_mem_cons.2 ⟨hg, hs⟩⟩
  | @enter o s s' c next =>
    obtain ⟨-, hs⟩ := keeps
    obtain ⟨g, rfl, sub⟩ := Handler.sublist_of_next next
    exact ⟨hs g (sub.subset List.mem_cons_self) _, fun g' hg' => hs g' (sub.subset (List.mem_cons_of_mem _ hg'))⟩
  | exit next => trivial
  | receive c v s => exact ⟨apart.receive keeps.1 v, keeps.2⟩
  | native g s => exact keeps.2
  | returned brings s => exact ⟨keeps.1 _ brings, keeps.2⟩
  | completed g t s => exact ⟨completed t rfl, keeps⟩

theorem Apart.runs (apart : Apart b m T) (keeps : Keeps b T d) (h : d.Runs b ds d')
    (completed : ∀ t, .completed t ∈ ds → T t) : Keeps b T d' := by
  induction h with
  | refl => exact keeps
  | @snoc ds e d₁ d₂ _ does ih =>
    refine apart.does (ih fun t ht => completed t (List.mem_append_left _ ht)) does fun t ht => ?_
    exact completed t (ht ▸ List.mem_append_right _ (List.mem_singleton.2 rfl))

/-- A task of the set does not come to the loop of the manager. -/
theorem Apart.not_polling (apart : Apart b m T) {t : Task κ} (ht : T t) (runs : (Doing.task t []).Runs b ds d)
    (going : ∀ o, d ≠ .exited o) (completed : ∀ t, .completed t ∈ ds → T t) {stack : List (Handler κ)}
    (h : d.on base = .task (polling m s) stack) : False := by
  have keeps := apart.runs (d := .task t []) ⟨ht, nofun⟩ runs completed
  cases d with
  | task u own =>
    obtain ⟨rfl, -⟩ := Doing.task.inj h
    exact apart.hidden s keeps.1
  | exited o => exact going o rfl
  | _ => cases h

theorem Apart.handles (apart : Apart b m T) {v : Value κ} {call : Call κ} {t : Task κ}
    (h : Handles b m s v call t) : T t := by
  cases h with
  | effects _ returns => exact apart.effects _ _ _ t returns
  | internal _ returns => exact apart.message _ _ t returns

/-- When the loop of a manager is up next, nothing is on the stack. -/
theorem Loop.idle {s' : Value κ} {stack : List (Handler κ)} (apart : Apart b m T)
    (h : Loop b m s turns failure ds d) (completed : ∀ t, .completed t ∈ ds → T t)
    (up : d = .task (polling m s') stack) : stack = [] := by
  induction h with
  | waiting s => exact (Doing.task.inj up).2.symm
  | working handles runs going =>
    refine (apart.not_polling (apart.handles handles) runs going (fun t ht => ?_) up).elim
    exact completed t (List.mem_append_right _ ht)
  | next _ _ _ ih =>
    exact ih (fun t ht => completed t (List.mem_append_right _ (List.mem_append_right _ ht))) up
  | failed _ _ exit => cases exit <;> cases up
  | _ => cases up

theorem Course.idle {t₀ : Task κ} {s' : Value κ} {stack : List (Handler κ)} (apart : Apart b m T) (ht₀ : T t₀)
    (h : Course b m t₀ turns failure ds d) (completed : ∀ t, .completed t ∈ ds → T t)
    (up : d = .task (polling m s') stack) : stack = [] := by
  cases h with
  | opening runs going =>
    refine (apart.not_polling ht₀ runs going (fun t ht => ?_) up).elim
    exact completed t (List.mem_cons_of_mem _ ht)
  | loop _ rest =>
    refine rest.idle apart (fun t ht => completed t ?_) up
    exact List.mem_cons_of_mem _ (List.mem_append_right _ (List.mem_cons_of_mem _ (List.mem_cons_of_mem _ ht)))
  | _ => cases up

end Manager

/-! ### Permanent processes -/

/-- When the loop of a main process is up next, nothing is on the stack. -/
theorem Listening.idle {i : ProgramId} {d : Doing κ} {stack : List (Handler κ)} (h : Listening i d)
    (up : d = .task (Program.listen i) stack) : stack = [] := by
  cases h with
  | waits => exact (Doing.task.inj up).2.symm
  | _ => cases up

namespace Trail

variable {m : Machine κ σ} {ms : List (Machine κ σ)}

/-- In every run, whenever the loop of a manager waits for a message or is about to take one, and whenever
a main process is, its stack is empty. And a task that comes up on some stack, in whatever process, leaves
the stack as it is, below what is its own, until it yields its outcome to just this stack. -/
theorem bounded_stack (h : Trail b m ms) (p : Pid) :
    (∀ m₀ t₀ T, Manager.Apart b m₀ T → (b.code (.managerInit m₀)).Returns t₀ →
      .spawned (.andThen t₀ (.managerReady m₀)) ∈ Record.of (ms.flatMap Machine.record) p →
      (∀ t, .completed t ∈ Record.of (ms.flatMap Machine.record) p → T t) →
      ∀ x s, m.world.procs.get? p = some x → x.root = .ready (Manager.polling m₀ s) → x.stack = []) ∧
    (∀ i, .spawned (Program.listen i) ∈ Record.of (ms.flatMap Machine.record) p →
      ∀ x, m.world.procs.get? p = some x → x.root = .ready (Program.listen i) → x.stack = []) ∧
    ∀ past m₁ during x₁ t, ms = past ++ m₁ :: during →
      m₁.world.procs.get? p = some x₁ → x₁.root = .ready t →
      (∃ m₂ ∈ m₁ :: during, ∃ x₂ o, m₂.world.procs.get? p = some x₂ ∧ x₂.Yields o x₁.stack) ∨
        ∃ x, m.world.procs.get? p = some x ∧ (x.isDead = false → x₁.stack <:+ x.stack ∧
          x.Above b t (Record.of ((m₁ :: during).flatMap Machine.record) p).acts x₁.stack) := by
  refine ⟨fun m₀ t₀ T apart init spawned completed x s hx root => ?_, fun i spawned x hx root => ?_,
    fun past m₁ during x₁ t split hx₁ root => ?_⟩
  · obtain ⟨y, d, hy, interpreted⟩ := h.history.interpreted spawned
    obtain rfl := Option.some.inj (hx.symm.trans hy)
    obtain ⟨turns, failure, course⟩ := Manager.course_of_runs interpreted.runs
    have fits := interpreted.fits_of_living (Proc.isDead_of_ready root)
    exact course.idle apart (apart.init t₀ init) (fun t ht => completed t (List.mem_filter.1 ht).1)
      (Doing.eq_of_ready fits root)
  · obtain ⟨y, d, hy, interpreted, listening⟩ := h.history.listening spawned
    obtain rfl := Option.some.inj (hx.symm.trans hy)
    have fits := interpreted.fits_of_living (Proc.isDead_of_ready root)
    exact listening.idle (Doing.eq_of_ready fits root)
  · rcases h.above_interpreted split hx₁ root with yields | ⟨x, u, d, hx, interpreted, runs, going⟩
    · exact .inl yields
    · refine .inr ⟨x, hx, fun alive => ?_⟩
      have fits := interpreted.fits_of_living alive
      exact ⟨Doing.suffix_of_fits fits, d, runs, going, fits⟩

end Trail

/-- The program with this manager is started. -/
def calm : Machine Unit Unit :=
  let code : Code Unit Unit Unit :=
    (Code.ask (.start ())).bind fun _ => (Code.ask (.drive .idle)).bind fun _ => .ret ()
  .load (.new .standard ()) (Procedure.ofCode code)

/-- The manager of the program. -/
def calmed : Post Unit := ⟨.custom (), ⟨⟨1⟩, ⟨2⟩⟩⟩

/-- The manager has handled its first message and waits for the next one, and so does the main process. The
task of the handler, which had a handler of its own on the stack and awaited a binding, has come to its
outcome above the two handlers of the loop. -/
theorem calm_bounded : ∃ x y,
    (Machine.run brittle 46 calm).world.procs.get? ⟨2⟩ = some x ∧
      x.root = .ready (Manager.polling calmed .unit) ∧ x.stack = [] ∧
    (Machine.run brittle 46 calm).world.procs.get? ⟨1⟩ = some y ∧
      y.root = .ready (Program.listen 0) ∧ y.stack = [] ∧
    ∃ m ∈ Machine.passed brittle 46 calm, ∃ x' o, m.world.procs.get? ⟨2⟩ = some x' ∧
      x'.Yields o (Manager.below calmed) := by
  have begin : Trail brittle calm [] := .new _ _ _
  have h : Trail brittle (Machine.run brittle 46 calm) (Machine.passed brittle 46 calm) := begin.run 46
  have first : ∀ p t, (Record.of ((Machine.passed brittle 46 calm).flatMap Machine.record) p).head? =
      some (.spawned t) → .spawned t ∈ Record.of ((Machine.passed brittle 46 calm).flatMap Machine.record) p :=
    fun p t head => List.mem_of_mem_head? head
  have completions : (Record.of ((Machine.passed brittle 46 calm).flatMap Machine.record) ⟨2⟩).completions =
      [.succeed (.pid ⟨2⟩)] := rfl
  obtain ⟨manager, -, below⟩ := h.bounded_stack ⟨2⟩
  obtain ⟨-, main, -⟩ := h.bounded_stack ⟨1⟩
  have empty := manager calmed (.succeed .unit) Brief (brittle_deaf _).apart (Code.Returns.ret _)
    (first ⟨2⟩ _ rfl) (fun t ht => by
      have ht : t ∈ [.succeed (.pid ⟨2⟩)] := completions ▸ List.mem_filterMap.2 ⟨_, ht, rfl⟩
      rw [List.mem_singleton.1 ht]
      exact .succeed _) _ .unit rfl rfl
  refine ⟨_, _, rfl, rfl, empty, rfl, rfl, main 0 (first ⟨1⟩ _ rfl) _ rfl rfl, ?_⟩
  -- The task of the handler comes up after 35 steps.
  have split : Machine.passed brittle 46 calm = Machine.passed brittle 35 calm ++
      Machine.run brittle 35 calm :: Machine.passed brittle 10 (Machine.run brittle 36 calm) := rfl
  rcases below _ _ _ _ (.andThen (.native .this) (.replace .unit)) split rfl rfl with
    ⟨m, mem, x', o, hx', yields⟩ | ⟨x', hx', there⟩
  · exact ⟨m, split ▸ List.mem_append_right _ mem, x', o, hx', yields⟩
  · obtain rfl := Option.some.inj (hx'.symm.trans rfl)
    cases List.suffix_nil.1 (there rfl).1

end Actors
