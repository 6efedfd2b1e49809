/-
What the process of a manager does.

A manager begins with a task of its own, and its loop with the value to which this task comes. Each
turn of the loop takes a message, gives it to a handler together with the state, and runs the task that
the handler returns. While that is going on nothing else is done by the manager: the next turn begins
when the task has succeeded, with its value as the new state. A failure, of the first task or of a
task of a handler, ends the manager with this failure.

* `Manager.Handles` — a message, the call of its handler, and a task that the handler may return;
* `Manager.Loop`, `Manager.Course` — what the process of a manager does, turn after turn;
* `Manager.course_of_runs` — a process that begins as a manager keeps to this;
* `Deaf`, `Manager.Deaf` — tasks that never take a message, and managers with such tasks;
* `Manager.Course.reads`, `Manager.Course.chain` — the turns, and their states;
* `Manager.Failing` — a manager that has failed.
-/
import Actors.Proofs.Doing
import Actors.Proofs.Handling
import Mathlib.Data.List.Chain

namespace Actors

variable {κ σ α : Type} {b : Behaviour κ σ}

open Procedure

namespace Manager

/-! ### Turns -/

/-- A message with a state, the call of the handler that they are given to, and a task that the handler
may return. -/
inductive Handles (b : Behaviour κ σ) (m : Post κ) (state : Value κ) :
    Value κ → Call κ → Task κ → Prop where
  | effects {cmds subs : List (Value κ)} {s : Value κ} {t : Task κ}
      (coerce : state.coerce (m.hooks.manager b).state = .ok s)
      (returns : (b.code (.managerEffects m cmds subs s)).Returns t) :
      Handles b m state (.effects cmds subs) (.managerEffects m cmds subs s) t
  | internal {v s : Value κ} {t : Task κ}
      (coerce : state.coerce (m.hooks.manager b).state = .ok s)
      (returns : (b.code (.managerMessage m v s)).Returns t) :
      Handles b m state (.internal v) (.managerMessage m v s) t

/-- The task of a manager that waits for a message. -/
def polling (m : Post κ) (s : Value κ) : Task κ :=
  .receive (.managerTurn m s)

/-- The task of a turn, given the task of the handler. -/
def guarded (m : Post κ) (t : Task κ) : Task κ :=
  .andThen (.onError t (.managerFailed m)) (.managerNext m)

/-- What is on the stack of a manager below the task of a handler. -/
def below (m : Post κ) : List (Handler κ) :=
  [.onFailure (.managerFailed m), .onSuccess (.managerNext m)]

/-- A turn returns the task of a handler, guarded. -/
theorem handles_of_brings {m : Post κ} {s v : Value κ} {u : Task κ}
    (h : (turn b m s v).Brings b u) : ∃ call t, Handles b m s v call t ∧ u = guarded m t := by
  obtain ⟨t, first, second⟩ := h.of_bind
  obtain rfl := second.of_ret
  cases v with
  | effects cmds subs =>
    obtain ⟨_, -, rest⟩ := Brings.of_bind first
    obtain ⟨s', coerce, call⟩ := Brings.of_bind rest
    exact ⟨_, t, .effects coerce.of_ofExcept call.of_invoke, rfl⟩
  | internal v =>
    obtain ⟨_, -, rest⟩ := Brings.of_bind first
    obtain ⟨s', coerce, call⟩ := Brings.of_bind rest
    exact ⟨_, t, .internal coerce.of_ofExcept call.of_invoke, rfl⟩
  | _ => cases first

/-! ### The deeds of a manager -/

/-- A manager takes a message. -/
def take (m : Post κ) (s v : Value κ) : Deed κ :=
  .moved ⟨polling m s, some (.managerTurn m s, v)⟩

/-- The beginning of a turn: a message is taken, its handler returns a task, and what is to be done
after the task is put on the stack. -/
def beginning (m : Post κ) (s v : Value κ) (t : Task κ) : Deeds κ :=
  [take m s v, .returned (guarded m t), .moved ⟨guarded m t, none⟩,
    .moved ⟨.onError t (.managerFailed m), none⟩]

/-- The end of a turn: the manager has its next state, and waits for the next message. -/
def ending (m : Post κ) (s : Value κ) : Deeds κ :=
  [.moved ⟨.succeed s, some (.managerNext m, s)⟩, .returned (polling m s)]

/-- The end of a manager whose handler's task has failed. -/
inductive Exit (m : Post κ) (e : Value κ) : Deeds κ → Doing κ → Prop where
  | entered : Exit m e [.moved ⟨.fail e, some (.managerFailed m, e)⟩]
      (.call (.managerFailed m) e [.onSuccess (.managerNext m)])
  | failed : Exit m e [.moved ⟨.fail e, some (.managerFailed m, e)⟩, .returned (.fail e)]
      (.task (.fail e) [.onSuccess (.managerNext m)])
  | exited : Exit m e [.moved ⟨.fail e, some (.managerFailed m, e)⟩, .returned (.fail e),
      .moved ⟨.fail e, none⟩] (.exited (.error e))

/-- What a manager does from a state on, with the turns that it begins: each with the state and the
message. A failure is that of the last turn. -/
inductive Loop (b : Behaviour κ σ) (m : Post κ) : Value κ → List (Value κ × Value κ) →
    Option (Value κ) → Deeds κ → Doing κ → Prop where
  | waiting (s : Value κ) : Loop b m s [] none [] (.task (polling m s) [])
  | entered (s v : Value κ) : Loop b m s [(s, v)] none [take m s v] (.call (.managerTurn m s) v [])
  | answered {s v : Value κ} {call : Call κ} {t : Task κ} (handles : Handles b m s v call t) :
      Loop b m s [(s, v)] none [take m s v, .returned (guarded m t)] (.task (guarded m t) [])
  | guarding {s v : Value κ} {call : Call κ} {t : Task κ} (handles : Handles b m s v call t) :
      Loop b m s [(s, v)] none
        [take m s v, .returned (guarded m t), .moved ⟨guarded m t, none⟩]
        (.task (.onError t (.managerFailed m)) [.onSuccess (.managerNext m)])
  /-- The task of the handler is under way. -/
  | working {s v : Value κ} {call : Call κ} {t : Task κ} (handles : Handles b m s v call t)
      {work : Deeds κ} {d : Doing κ} (runs : (Doing.task t []).Runs b work d)
      (going : ∀ o, d ≠ .exited o) :
      Loop b m s [(s, v)] none (beginning m s v t ++ work) (d.on (below m))
  /-- It has succeeded, and the next state is passed on. -/
  | succeeded {s v s' : Value κ} {call : Call κ} {t : Task κ} (handles : Handles b m s v call t)
      {work : Deeds κ} (results : t.Results b work (.ok s')) :
      Loop b m s [(s, v)] none
        (beginning m s v t ++ work ++ [.moved ⟨.succeed s', some (.managerNext m, s')⟩])
        (.call (.managerNext m) s' [])
  /-- It has succeeded, and the loop goes on. -/
  | next {s v s' : Value κ} {call : Call κ} {t : Task κ} (handles : Handles b m s v call t)
      {work : Deeds κ} (results : t.Results b work (.ok s')) {turns : List (Value κ × Value κ)}
      {failure : Option (Value κ)} {ds : Deeds κ} {d : Doing κ}
      (rest : Loop b m s' turns failure ds d) :
      Loop b m s ((s, v) :: turns) failure (beginning m s v t ++ work ++ (ending m s' ++ ds)) d
  /-- It has failed. -/
  | failed {s v e : Value κ} {call : Call κ} {t : Task κ} (handles : Handles b m s v call t)
      {work : Deeds κ} (results : t.Results b work (.error e)) {ds : Deeds κ} {d : Doing κ}
      (exit : Exit m e ds d) :
      Loop b m s [(s, v)] (some e) (beginning m s v t ++ work ++ ds) d

/-- What the process of a manager does that begins with a task of its own. -/
inductive Course (b : Behaviour κ σ) (m : Post κ) (t₀ : Task κ) : List (Value κ × Value κ) →
    Option (Value κ) → Deeds κ → Doing κ → Prop where
  | fresh : Course b m t₀ [] none [] (.task (.andThen t₀ (.managerReady m)) [])
  /-- The first task is under way. -/
  | opening {work : Deeds κ} {d : Doing κ} (runs : (Doing.task t₀ []).Runs b work d)
      (going : ∀ o, d ≠ .exited o) :
      Course b m t₀ [] none (.moved ⟨.andThen t₀ (.managerReady m), none⟩ :: work)
        (d.on [.onSuccess (.managerReady m)])
  | ready {work : Deeds κ} {s : Value κ} (results : t₀.Results b work (.ok s)) :
      Course b m t₀ [] none (.moved ⟨.andThen t₀ (.managerReady m), none⟩ ::
        (work ++ [.moved ⟨.succeed s, some (.managerReady m, s)⟩])) (.call (.managerReady m) s [])
  /-- It has succeeded, and the loop has begun. -/
  | loop {work : Deeds κ} {s : Value κ} (results : t₀.Results b work (.ok s))
      {turns : List (Value κ × Value κ)} {failure : Option (Value κ)} {ds : Deeds κ} {d : Doing κ}
      (rest : Loop b m s turns failure ds d) :
      Course b m t₀ turns failure (.moved ⟨.andThen t₀ (.managerReady m), none⟩ ::
        (work ++ (.moved ⟨.succeed s, some (.managerReady m, s)⟩ ::
          .returned (polling m s) :: ds))) d
  /-- It has failed. -/
  | failed {work : Deeds κ} {e : Value κ} (results : t₀.Results b work (.error e)) :
      Course b m t₀ [] (some e) (.moved ⟨.andThen t₀ (.managerReady m), none⟩ ::
        (work ++ [.moved ⟨.fail e, none⟩])) (.exited (.error e))

/-! ### Processes of managers keep to it -/

section

variable {m : Post κ}

/-- What a process does when the task of a handler has failed. -/
theorem exit_of_runs {e : Value κ} {ds : Deeds κ} {d : Doing κ}
    (h : (Doing.task (.ofResult (.error e)) (below m)).Runs b ds d) : ds = [] ∨ Exit m e ds d := by
  rcases h.head with ⟨rfl, -⟩ | ⟨e₁, es₁, d₁, rfl, first, rest⟩
  · exact .inl rfl
  obtain ⟨rfl, rfl⟩ := first.of_next rfl
  rcases rest.head with ⟨rfl, rfl⟩ | ⟨e₂, es₂, d₂, rfl, second, rest⟩
  · exact .inr .entered
  obtain ⟨u, brings, rfl, rfl⟩ := second.of_call
  obtain ⟨-, -, rfl⟩ := Brings.of_map brings
  rcases rest.head with ⟨rfl, rfl⟩ | ⟨e₃, es₃, d₃, rfl, third, rest⟩
  · exact .inr .failed
  have third : Doing.Does b (.task (.ofResult (.error e)) _) e₃ d₃ := third
  obtain ⟨rfl, rfl⟩ := third.of_next_none rfl
  obtain ⟨rfl, rfl⟩ := rest.of_exited
  exact .inr .exited

/-- What a process does from the loop on. -/
theorem loop_of_runs {s : Value κ} {ds : Deeds κ} {d : Doing κ}
    (h : (Doing.task (polling m s) []).Runs b ds d) :
    ∃ turns failure, Loop b m s turns failure ds d := by
  induction hn : ds.length using Nat.strongRecOn generalizing s ds with
  | _ n ih =>
    rcases h.head with ⟨rfl, rfl⟩ | ⟨e₁, es₁, d₁, rfl, first, rest⟩
    · exact ⟨[], none, .waiting s⟩
    obtain ⟨v, rfl, rfl⟩ := first.of_receive
    rcases rest.head with ⟨rfl, rfl⟩ | ⟨e₂, es₂, d₂, rfl, second, rest⟩
    · exact ⟨[(s, v)], none, .entered s v⟩
    obtain ⟨u, brings, rfl, rfl⟩ := second.of_call
    obtain ⟨call, t, handles, rfl⟩ := handles_of_brings brings
    rcases rest.head with ⟨rfl, rfl⟩ | ⟨e₃, es₃, d₃, rfl, third, rest⟩
    · exact ⟨[(s, v)], none, .answered handles⟩
    obtain ⟨rfl, rfl⟩ := third.of_pushes (.andThen _ _)
    rcases rest.head with ⟨rfl, rfl⟩ | ⟨e₄, es₄, d₄, rfl, fourth, rest⟩
    · exact ⟨[(s, v)], none, .guarding handles⟩
    obtain ⟨rfl, rfl⟩ := fourth.of_pushes (.onError _ _)
    -- Now the task of the handler is up next, and it is run for itself.
    rcases rest.split with ⟨d', runs, going, rfl⟩ | ⟨work, o, e₅, es₅, rfl, results, rest⟩
    · exact ⟨[(s, v)], none, .working handles runs going⟩
    cases o with
    | error e =>
      rcases exit_of_runs rest with nil | exit
      · cases nil
      · exact ⟨[(s, v)], some e, .failed handles results exit⟩
    | ok s' =>
      rcases rest.head with ⟨nil, -⟩ | ⟨e₆, es₆, d₆, same, sixth, rest⟩
      · cases nil
      obtain ⟨rfl, rfl⟩ := List.cons.inj same
      obtain ⟨rfl, rfl⟩ := sixth.of_next rfl
      rcases rest.head with ⟨rfl, rfl⟩ | ⟨e₇, es₇, d₇, rfl, seventh, rest⟩
      · exact ⟨[(s, v)], none, .succeeded handles results⟩
      obtain ⟨u, brings, rfl, rfl⟩ := seventh.of_call
      obtain rfl := Brings.of_ret brings
      obtain ⟨turns, failure, loop⟩ := ih es₇.length (by
        simp only [List.length_cons, List.length_append] at hn
        omega) rest rfl
      exact ⟨(s, v) :: turns, failure, .next handles results loop⟩

/-- What a process does that begins as a manager. -/
theorem course_of_runs {t₀ : Task κ} {ds : Deeds κ} {d : Doing κ}
    (h : (Doing.task (.andThen t₀ (.managerReady m)) []).Runs b ds d) :
    ∃ turns failure, Course b m t₀ turns failure ds d := by
  -- The run is taken apart along the opening: the handler is pushed, the start runs alone, and
  -- its outcome is passed on.
  rcases h.head with ⟨rfl, rfl⟩ | ⟨e₁, es₁, d₁, rfl, first, rest⟩
  · exact ⟨[], none, .fresh⟩
  obtain ⟨rfl, rfl⟩ := first.of_pushes (.andThen _ _)
  rcases rest.split with ⟨d', runs, going, rfl⟩ | ⟨work, o, e₂, es₂, rfl, results, rest⟩
  · exact ⟨[], none, .opening runs going⟩
  rcases rest.head with ⟨nil, -⟩ | ⟨e₃, es₃, d₃, same, third, rest⟩
  · cases nil
  obtain ⟨rfl, rfl⟩ := List.cons.inj same
  cases o with
  | error e =>
    obtain ⟨rfl, rfl⟩ := third.of_next_none rfl
    obtain ⟨rfl, rfl⟩ := rest.of_exited
    exact ⟨[], some e, .failed results⟩
  | ok s =>
    obtain ⟨rfl, rfl⟩ := third.of_next rfl
    rcases rest.head with ⟨rfl, rfl⟩ | ⟨e₄, es₄, d₄, rfl, fourth, rest⟩
    · exact ⟨[], none, .ready results⟩
    obtain ⟨u, brings, rfl, rfl⟩ := fourth.of_call
    obtain ⟨-, -, rfl⟩ := Brings.of_map brings
    obtain ⟨turns, failure, loop⟩ := loop_of_runs rest
    exact ⟨turns, failure, .loop results loop⟩

end

end Manager

/-! ### Tasks that take no message -/

/-- Whether a continuation is not the turn of a manager, and comes to tasks of a set only. -/
def Callback.Within (b : Behaviour κ σ) (T : Task κ → Prop) (c : Callback κ) : Prop :=
  (∀ m s, c ≠ .managerTurn m s) ∧ ∀ v t, (c.run b v).Brings b t → T t

/-- A set of tasks that never take a message, and that come to tasks of this kind only. -/
structure Deaf (b : Behaviour κ σ) (T : Task κ → Prop) : Prop where
  silent : ∀ c, ¬ T (.receive c)
  pushes : ∀ {u t h}, Pushes u t h → T u → T t ∧ h.callback.Within b T

/-- What a process is doing that stays within a set of tasks. -/
def Doing.Within (b : Behaviour κ σ) (T : Task κ → Prop) : Doing κ → Prop
  | .task t s => T t ∧ ∀ h ∈ s, h.callback.Within b T
  | .call c _ s => c.Within b T ∧ ∀ h ∈ s, h.callback.Within b T
  | .binding _ s => ∀ h ∈ s, h.callback.Within b T
  | .exited _ => True

/-- The turn of a manager that is begun by a deed. -/
def Deed.turn? (d : Deed κ) : Option (Post κ × Value κ × Value κ) :=
  (d.move?.bind Move.entered).bind fun e =>
    match e.1 with
    | .managerTurn m s => some (m, s, e.2)
    | _ => none

theorem Deed.entered_of_turn? {d : Deed κ} {m : Post κ} {s v : Value κ} (h : d.turn? = some (m, s, v)) :
    d.move?.bind Move.entered = some (.managerTurn m s, v) := by
  obtain ⟨⟨c, v'⟩, entered, h⟩ := Option.bind_eq_some_iff.1 h
  cases c with
  | managerTurn m' s' =>
    obtain ⟨rfl, same⟩ := Prod.mk.inj (Option.some.inj h)
    obtain ⟨rfl, rfl⟩ := Prod.mk.inj same
    exact entered
  | _ => cases h

/-- A deed that takes no message and begins no turn of a manager. -/
structure Deed.Quiet (d : Deed κ) : Prop where
  consumed : d.move?.bind Move.consumed? = none
  turn : d.turn? = none

theorem Deed.handler?_eq (p : Pid) (d : Deed κ) :
    Deed.handler? b (p, d) =
      d.turn?.bind fun e => (Manager.handler? b e.1 e.2.1 e.2.2).map (p, ·) := by
  rw [handler?, turn?]
  cases d.move?.bind Move.entered with
  | none => rfl
  | some e =>
    obtain ⟨c, v⟩ := e
    cases c <;> rfl

theorem Deed.quiet_of_entered {o : Except (Value κ) (Value κ)} {c : Callback κ} {v : Value κ}
    (h : ∀ m s, c ≠ .managerTurn m s) : Deed.Quiet (.moved ⟨.ofResult o, some (c, v)⟩) where
  consumed := by cases o <;> rfl
  turn := by
    cases c with
    | managerTurn m s => exact absurd rfl (h m s)
    | _ => rfl

theorem Deed.quiet_of_push {u t : Task κ} {h : Handler κ} (pushes : Pushes u t h) :
    Deed.Quiet (.moved ⟨u, none⟩) := by
  cases pushes <;> exact ⟨rfl, rfl⟩

namespace Doing

variable {T : Task κ → Prop} {d d' : Doing κ} {ds : Deeds κ} {e : Deed κ}

/-- Whatever is done within a set of tasks that take no message is quiet, and stays within it, as long
as bindings are completed within it. -/
theorem Does.within (h : d.Does b e d') (deaf : Deaf b T) (within : d.Within b T)
    (completed : ∀ t, e = .completed t → T t) : d'.Within b T ∧ e.Quiet := by
  cases h with
  | push pushes s =>
    obtain ⟨hu, hs⟩ := within
    obtain ⟨ht, hg⟩ := deaf.pushes pushes hu
    exact ⟨⟨ht, List.forall_mem_cons.2 ⟨hg, hs⟩⟩, Deed.quiet_of_push pushes⟩
  | @enter o s s' c next =>
    obtain ⟨-, hs⟩ := within
    obtain ⟨g, rfl, sub⟩ := Handler.sublist_of_next next
    have hc := hs g (sub.subset List.mem_cons_self)
    exact ⟨⟨hc, fun g' hg' => hs g' (sub.subset (List.mem_cons_of_mem _ hg'))⟩,
      Deed.quiet_of_entered hc.1⟩
  | @exit o s next => exact ⟨trivial, by cases o <;> rfl, rfl⟩
  | receive c v s => exact absurd within.1 (deaf.silent c)
  | native g s => exact ⟨within.2, rfl, rfl⟩
  | @returned c v t brings s => exact ⟨⟨within.1.2 v t brings, within.2⟩, rfl, rfl⟩
  | completed g t s => exact ⟨⟨completed t rfl, within⟩, rfl, rfl⟩

theorem Runs.within (h : d.Runs b ds d') (deaf : Deaf b T) (within : d.Within b T)
    (completed : ∀ t, .completed t ∈ ds → T t) : d'.Within b T ∧ ∀ e ∈ ds, e.Quiet := by
  induction h with
  | refl => exact ⟨within, nofun⟩
  | @snoc ds e d₁ d₂ h does ih =>
    obtain ⟨there, quiet⟩ := ih fun t ht => completed t (List.mem_append_left _ ht)
    obtain ⟨within', last⟩ := does.within deaf there fun t ht =>
      completed t (ht ▸ List.mem_append_right _ (List.mem_singleton.2 rfl))
    refine ⟨within', fun e' he => ?_⟩
    rcases List.mem_append.1 he with he | he
    · exact quiet e' he
    · rw [List.mem_singleton.1 he]
      exact last

end Doing

/-- What is done until a task comes to its outcome is quiet. -/
theorem Task.Results.quiet {T : Task κ → Prop} {t : Task κ} {work : Deeds κ}
    {o : Except (Value κ) (Value κ)} (h : t.Results b work o) (deaf : Deaf b T) (ht : T t)
    (completed : ∀ t, .completed t ∈ work → T t) : ∀ e ∈ work, e.Quiet := by
  have quiet := (Doing.Runs.within h deaf ⟨ht, nofun⟩ fun t ht => by
    rcases List.mem_append.1 ht with ht | ht
    · exact completed t ht
    · cases List.mem_singleton.1 ht).2
  exact fun e he => quiet e (List.mem_append_left _ he)

namespace Manager

/-- A manager whose own start and whose handlers return tasks of a set only, none of which ever takes
a message. -/
structure Deaf (b : Behaviour κ σ) (m : Post κ) (T : Task κ → Prop) : Prop extends Actors.Deaf b T where
  init : ∀ t, (b.code (.managerInit m)).Returns t → T t
  effects : ∀ cmds subs s t, (b.code (.managerEffects m cmds subs s)).Returns t → T t
  message : ∀ v s t, (b.code (.managerMessage m v s)).Returns t → T t

section

variable {m : Post κ} {T : Task κ → Prop} {turns : List (Value κ × Value κ)}
  {failure : Option (Value κ)} {ds : Deeds κ} {d : Doing κ} {s : Value κ}

theorem Handles.within {v : Value κ} {call : Call κ} {t : Task κ} (deaf : Deaf b m T)
    (h : Handles b m s v call t) : T t := by
  cases h with
  | effects _ returns => exact deaf.effects _ _ _ t returns
  | internal _ returns => exact deaf.message _ _ t returns

theorem Exit.quiet {e : Value κ} (h : Exit m e ds d) : ∀ e' ∈ ds, e'.Quiet := by
  have entered : Deed.Quiet (.moved ⟨.fail e, some (Callback.managerFailed m, e)⟩) := ⟨rfl, rfl⟩
  have returned : Deed.Quiet (.returned (.fail e : Task κ)) := ⟨rfl, rfl⟩
  have exited : Deed.Quiet (.moved ⟨(.fail e : Task κ), none⟩) := ⟨rfl, rfl⟩
  cases h <;> simp only [List.forall_mem_cons, List.not_mem_nil, false_implies, implies_true,
    entered, returned, exited, and_true]

/-- What is read off the deeds of a manager is read off its turns, if it is given by the message that
is taken and by the turn that is begun. -/
theorem Loop.reads {β : Type} {g : Deed κ → Option β} {f : Value κ × Value κ → β}
    (taken : ∀ s v, g (take m s v) = some (f (s, v))) (quiet : ∀ e : Deed κ, e.Quiet → g e = none)
    (deaf : Deaf b m T) (h : Loop b m s turns failure ds d)
    (completed : ∀ t, .completed t ∈ ds → T t) : ds.filterMap g = turns.map f := by
  have silent : ∀ {es : Deeds κ}, (∀ e ∈ es, e.Quiet) → es.filterMap g = [] := fun hes =>
    List.filterMap_eq_nil_iff.2 fun e he => quiet e (hes e he)
  have opened : ∀ {s v : Value κ} {es : Deeds κ}, (∀ e ∈ es, e.Quiet) →
      (take m s v :: es).filterMap g = [f (s, v)] := fun hes => by
    rw [List.filterMap_cons_some (taken _ _), silent hes]
  have returned : ∀ t : Task κ, Deed.Quiet (.returned t) := fun _ => ⟨rfl, rfl⟩
  have pushed : ∀ t : Task κ, Deed.Quiet (.moved ⟨guarded m t, none⟩) := fun _ => ⟨rfl, rfl⟩
  have begun : ∀ {s v : Value κ} {t : Task κ}, (beginning m s v t).filterMap g = [f (s, v)] :=
    opened (List.forall_mem_cons.2 ⟨returned _, List.forall_mem_cons.2 ⟨pushed _,
      List.forall_mem_cons.2 ⟨⟨rfl, rfl⟩, nofun⟩⟩⟩)
  -- The work of a turn and what frames it are quiet, so each turn shows just the message it
  -- takes.
  induction h with
  | waiting s => rfl
  | entered s v => exact opened nofun
  | answered handles => exact opened (List.forall_mem_cons.2 ⟨returned _, nofun⟩)
  | guarding handles =>
    exact opened (List.forall_mem_cons.2 ⟨returned _, List.forall_mem_cons.2 ⟨pushed _, nofun⟩⟩)
  | working handles runs going =>
    have work := (runs.within deaf.toDeaf ⟨handles.within deaf, nofun⟩ fun t ht =>
      completed t (List.mem_append_right _ ht)).2
    rw [List.filterMap_append, begun, silent work]
    rfl
  | @succeeded s v s' call t handles work results =>
    have work := results.quiet deaf.toDeaf (handles.within deaf) fun t ht =>
      completed t (List.mem_append_left _ (List.mem_append_right _ ht))
    have next : Deed.Quiet (.moved ⟨.succeed s', some (Callback.managerNext m, s')⟩) := ⟨rfl, rfl⟩
    rw [List.filterMap_append, List.filterMap_append, begun, silent work,
      silent (List.forall_mem_singleton.2 next)]
    rfl
  | @next s v s' call t handles work results turns failure ds d rest ih =>
    have quiet := results.quiet deaf.toDeaf (handles.within deaf) fun t ht =>
      completed t (List.mem_append_left _ (List.mem_append_right _ ht))
    have next : Deed.Quiet (.moved ⟨.succeed s', some (Callback.managerNext m, s')⟩) := ⟨rfl, rfl⟩
    have ended : (ending m s').filterMap g = [] :=
      silent (List.forall_mem_cons.2 ⟨next, List.forall_mem_singleton.2 (returned _)⟩)
    rw [List.filterMap_append, List.filterMap_append, List.filterMap_append, begun, silent quiet,
      ended, ih fun t ht => completed t (List.mem_append_right _ (List.mem_append_right _ ht))]
    rfl
  | @failed s v e call t handles work results ds d exit =>
    have quiet := results.quiet deaf.toDeaf (handles.within deaf) fun t ht =>
      completed t (List.mem_append_left _ (List.mem_append_right _ ht))
    rw [List.filterMap_append, List.filterMap_append, begun, silent quiet, silent exit.quiet]
    rfl

theorem Course.reads {t₀ : Task κ} {β : Type} {g : Deed κ → Option β}
    {f : Value κ × Value κ → β} (taken : ∀ s v, g (take m s v) = some (f (s, v)))
    (quiet : ∀ e : Deed κ, e.Quiet → g e = none) (deaf : Deaf b m T) (ht₀ : T t₀)
    (h : Course b m t₀ turns failure ds d) (completed : ∀ t, .completed t ∈ ds → T t) :
    ds.filterMap g = turns.map f := by
  have silent : ∀ {es : Deeds κ}, (∀ e ∈ es, e.Quiet) → es.filterMap g = [] := fun hes =>
    List.filterMap_eq_nil_iff.2 fun e he => quiet e (hes e he)
  have pushed : g (.moved ⟨.andThen t₀ (.managerReady m), none⟩) = none := quiet _ ⟨rfl, rfl⟩
  have ready : ∀ s, g (.moved ⟨.succeed s, some (.managerReady m, s)⟩) = none :=
    fun s => quiet _ ⟨rfl, rfl⟩
  have returned : ∀ t, g (.returned t) = none := fun t => quiet (.returned t) ⟨rfl, rfl⟩
  cases h with
  | fresh => rfl
  | opening runs going =>
    have work := (runs.within deaf.toDeaf ⟨ht₀, nofun⟩ fun t ht =>
      completed t (List.mem_cons_of_mem _ ht)).2
    rw [List.filterMap_cons_none pushed, silent work]
    rfl
  | ready results =>
    have work := results.quiet deaf.toDeaf ht₀ fun t ht =>
      completed t (List.mem_cons_of_mem _ (List.mem_append_left _ ht))
    rw [List.filterMap_cons_none pushed, List.filterMap_append, silent work,
      List.filterMap_cons_none (ready _)]
    rfl
  | @loop work s results turns failure ds d rest =>
    have quiet' := results.quiet deaf.toDeaf ht₀ fun t ht =>
      completed t (List.mem_cons_of_mem _ (List.mem_append_left _ ht))
    rw [List.filterMap_cons_none pushed, List.filterMap_append, silent quiet',
      List.filterMap_cons_none (ready _), List.filterMap_cons_none (returned _),
      rest.reads taken quiet deaf fun t ht => completed t (List.mem_cons_of_mem _
        (List.mem_append_right _ (List.mem_cons_of_mem _ (List.mem_cons_of_mem _ ht))))]
    rfl
  | @failed work e results =>
    have quiet' := results.quiet deaf.toDeaf ht₀ fun t ht =>
      completed t (List.mem_cons_of_mem _ (List.mem_append_left _ ht))
    have exited : Deed.Quiet (.moved ⟨(.fail e : Task κ), none⟩) := ⟨rfl, rfl⟩
    rw [List.filterMap_cons_none pushed, List.filterMap_append, silent quiet',
      List.filterMap_cons_none (quiet _ exited)]
    rfl

/-! ### States, and failures -/

/-- A turn that begins with the state to which the task of the turn before has come. -/
def Follows (b : Behaviour κ σ) (m : Post κ) (a a' : Value κ × Value κ) : Prop :=
  ∃ call t work, Handles b m a.1 a.2 call t ∧ t.Results b work (.ok a'.1)

theorem Loop.chain (h : Loop b m s turns failure ds d) :
    (∀ a, turns.head? = some a → a.1 = s) ∧ turns.IsChain (Follows b m) := by
  have single : ∀ {s v : Value κ}, (∀ a, [(s, v)].head? = some a → a.1 = s) ∧
      [(s, v)].IsChain (Follows b m) := by
    intro s v
    refine ⟨fun a ha => ?_, .singleton _⟩
    obtain rfl := Option.some.inj ha
    rfl
  induction h with
  | waiting s => exact ⟨nofun, .nil⟩
  | @next s v s' call t handles work results turns failure ds d rest ih =>
    obtain ⟨first, chain⟩ := ih
    refine ⟨fun a ha => ?_, List.isChain_cons.2 ⟨fun a ha => ?_, chain⟩⟩
    · obtain rfl := Option.some.inj ha
      rfl
    · refine ⟨call, t, work, handles, ?_⟩
      rw [first a ha]
      exact results
  | _ => exact single

/-- The first turn of a manager begins with the state to which its first task has come, and each later
one with the state to which the task of the turn before has come. -/
theorem Course.chain {t₀ : Task κ} (h : Course b m t₀ turns failure ds d) :
    (∀ a, turns.head? = some a → ∃ work, t₀.Results b work (.ok a.1)) ∧
      turns.IsChain (Follows b m) := by
  cases h with
  | @loop work s results turns failure ds d rest =>
    obtain ⟨first, chain⟩ := rest.chain
    refine ⟨fun a ha => ⟨work, ?_⟩, chain⟩
    rw [first a ha]
    exact results
  | _ => exact ⟨nofun, .nil⟩

/-- What a manager is doing that has failed. -/
inductive Failing (m : Post κ) (e : Value κ) : Doing κ → Prop where
  | entered : Failing m e (.call (.managerFailed m) e [.onSuccess (.managerNext m)])
  | returned : Failing m e (.task (.fail e) [.onSuccess (.managerNext m)])
  | exited : Failing m e (.exited (.error e))

/-- A manager that has failed goes on to its end. -/
theorem Failing.runs {e : Value κ} {d' : Doing κ} (h : Failing m e d) (runs : d.Runs b ds d') :
    Failing m e d' := by
  induction runs with
  | refl => exact h
  | @snoc ds e' d₁ d₂ _ does ih =>
    cases ih with
    | entered =>
      obtain ⟨t, brings, -, rfl⟩ := does.of_call
      obtain ⟨-, -, rfl⟩ := Brings.of_map brings
      exact .returned
    | returned =>
      have does : Doing.Does b (.task (.ofResult (.error e)) _) e' d₂ := does
      obtain ⟨-, rfl⟩ := does.of_next_none rfl
      exact .exited
    | exited => cases does

theorem Failing.call? {e : Value κ} (h : Failing m e d) :
    d.call? = none ∨ d.call? = some (.managerFailed m, e) := by
  cases h with
  | entered => exact .inr rfl
  | _ => exact .inl rfl

/-- A manager that has failed exits with its failure. -/
theorem Failing.outcome? {e : Value κ} {o : Except (Value κ) (Value κ)} (h : Failing m e d)
    (ho : d.outcome? = some o) : o = .error e := by
  cases h with
  | exited => exact (Option.some.inj ho).symm
  | _ => cases ho

theorem Exit.failing {e : Value κ} (h : Exit m e ds d) : Failing m e d := by
  cases h with
  | entered => exact .entered
  | failed => exact .returned
  | exited => exact .exited

theorem Loop.failing {e : Value κ} (h : Loop b m s turns failure ds d) (failed : failure = some e) :
    Failing m e d := by
  induction h with
  | next _ _ _ ih => exact ih failed
  | failed _ _ exit =>
    obtain rfl := Option.some.inj failed
    exact exit.failing
  | _ => cases failed

theorem Course.failing {t₀ : Task κ} {e : Value κ} (h : Course b m t₀ turns (some e) ds d) :
    Failing m e d := by
  cases h with
  | loop _ rest => exact rest.failing rfl
  | failed => exact .exited

theorem Loop.going (h : Loop b m s turns failure ds d) (none : failure = none) :
    d.outcome? = .none := by
  induction h with
  | next _ _ _ ih => exact ih none
  | failed => cases none
  | @working _ _ _ _ _ _ d _ _ => cases d <;> rfl
  | _ => rfl

/-- A manager exits only when it has failed. -/
theorem Course.going {t₀ : Task κ} (h : Course b m t₀ turns none ds d) : d.outcome? = none := by
  cases h with
  | loop _ rest => exact rest.going rfl
  | @opening _ d _ _ => cases d <;> rfl
  | _ => rfl

/-! ### When a turn has just begun -/

/-- A manager that has just begun a turn does nothing else. -/
theorem Loop.beginning {m' : Post κ} {s' v : Value κ} (deaf : Deaf b m T)
    (h : Loop b m s turns failure ds d) (completed : ∀ t, .completed t ∈ ds → T t)
    (call : d.call? = some (.managerTurn m' s', v)) :
    m' = m ∧ d = .call (.managerTurn m s') v [] ∧ turns.getLast? = some (s', v) ∧ failure = none := by
  -- Inside a turn no manager begins another one, since the work of a handler does not hold that
  -- continuation.
  induction h with
  | entered s v =>
    obtain ⟨hc, rfl⟩ := Prod.mk.inj (Option.some.inj call)
    obtain ⟨rfl, rfl⟩ := Callback.managerTurn.inj hc
    exact ⟨rfl, rfl, rfl, rfl⟩
  | @working _ _ _ _ handles _ d runs _ =>
    have within := (runs.within deaf.toDeaf ⟨handles.within deaf, nofun⟩ fun t ht =>
      completed t (List.mem_append_right _ ht)).1
    cases d with
    | call c v' stack =>
      obtain ⟨rfl, -⟩ := Prod.mk.inj (Option.some.inj call)
      exact absurd rfl (within.1.1 m' s')
    | _ => cases call
  | next _ _ _ ih =>
    obtain ⟨rfl, rfl, last, none⟩ := ih
      (fun t ht => completed t (List.mem_append_right _ (List.mem_append_right _ ht))) call
    exact ⟨rfl, rfl, by rw [List.getLast?_cons, last]; rfl, none⟩
  | failed _ _ exit =>
    rcases exit.failing.call? with none | some
    · cases call.symm.trans none
    · cases call.symm.trans some
  | _ => cases call

theorem Course.beginning {t₀ : Task κ} {m' : Post κ} {s' v : Value κ} (deaf : Deaf b m T)
    (ht₀ : T t₀) (h : Course b m t₀ turns failure ds d) (completed : ∀ t, .completed t ∈ ds → T t)
    (call : d.call? = some (.managerTurn m' s', v)) :
    m' = m ∧ d = .call (.managerTurn m s') v [] ∧ turns.getLast? = some (s', v) ∧ failure = none := by
  cases h with
  | loop _ rest =>
    exact rest.beginning deaf (fun t ht => completed t (List.mem_cons_of_mem _
      (List.mem_append_right _ (List.mem_cons_of_mem _ (List.mem_cons_of_mem _ ht))))) call
  | @opening _ d runs _ =>
    have within := (runs.within deaf.toDeaf ⟨ht₀, nofun⟩ fun t ht =>
      completed t (List.mem_cons_of_mem _ ht)).1
    cases d with
    | call c v' stack =>
      obtain ⟨rfl, -⟩ := Prod.mk.inj (Option.some.inj call)
      exact absurd rfl (within.1.1 m' s')
    | _ => cases call
  | _ => cases call

end

end Manager

end Actors
