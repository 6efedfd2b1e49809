/-
Tasks in sequence.

A sequence of tasks is a chain of continuations, each of which owns the tasks that are left and the values that
have been collected. A process that runs it does the work of one task after the other, and between two of them
nothing but passes the value on. When a task fails the continuation that owns the others is thrown away, and
the failure goes to what stands below the sequence, as if this had been a failure in the first place.

* `Task.Collects` — the deeds with which the values of the first tasks are collected;
* `Task.Collecting` — where the process stands after that;
* `Task.collecting_of_runs` — every course of a sequence is of this kind;
* `Task.results_sequence` — what comes out of a sequence, and when;
* `Trail.sequence_in_order` — the same in every run.
-/
import Actors.Proofs.Equality
import Actors.Proofs.Errands
import Actors.Proofs.Footing

namespace Actors

variable {κ σ : Type} {b : Behaviour κ σ}

/-! ### Outcomes -/

namespace Doing

variable {o : Except (Value κ) (Value κ)} {s s' : List (Handler κ)} {e : Deed κ} {ds : Deeds κ} {d : Doing κ}

/-- An outcome goes to the next handler that wants it, and if there is none the process exits with it. -/
theorem Does.passes (h : (Doing.task (.ofResult o) s).Does b e d) :
    e = .moved ⟨.ofResult o, (Handler.next o s).map fun g => (g.1, passed o)⟩ := by
  rcases h.of_result with ⟨c, s', next, rfl, -⟩ | ⟨none, rfl, -⟩
  · rw [next]
    rfl
  · rw [none]
    rfl

/-- What follows an outcome depends on the next handler that wants it only. -/
theorem Runs.of_next_eq (h : (Doing.task (.ofResult o) s).Runs b (e :: ds) d)
    (same : Handler.next o s = Handler.next o s') : (Doing.task (.ofResult o) s').Runs b (e :: ds) d := by
  rcases h.head with ⟨not, -⟩ | ⟨e', ds', d', all, does, rest⟩
  · cases not
  · obtain ⟨rfl, rfl⟩ := List.cons.inj all
    exact .cons (does.of_next_eq same) rest

/-- What is done is done on top of a stack, too, as long as there is no outcome. -/
theorem Runs.on {d' : Doing κ} (h : d.Runs b ds d') (going : ∀ o, d' ≠ .exited o) (base : List (Handler κ)) :
    (d.on base).Runs b ds (d'.on base) := by
  induction h with
  | refl => exact .refl
  | @snoc ds e d₁ d₂ h does ih =>
    refine (ih ?_).snoc (does.on going base)
    rintro o rfl
    cases does

end Doing

/-- A task that has come to its outcome passes it on to what stands below. -/
theorem Task.Results.on {t : Task κ} {work : Deeds κ} {o : Except (Value κ) (Value κ)} (h : t.Results b work o)
    (base : List (Handler κ)) : ∃ own, (Doing.task t base).Runs b work (.task (.ofResult o) (own ++ base)) ∧
      Handler.next o (own ++ base) = Handler.next o base := by
  obtain ⟨d, runs, does⟩ := h.of_snoc
  obtain ⟨own, rfl, none⟩ := does.of_exited
  exact ⟨own, runs.on nofun base, by rw [Handler.next_append, none]⟩

/-! ### The course of a sequence -/

namespace Task

/-- The deeds with which the values of the first tasks are collected, from the tasks that are left and the values
that there are to the tasks that are left then and the values that there are then. Each task comes up, does its
work, which it would do in the same way alone, and succeeds; its value goes to the continuation that owns the
others. -/
inductive Collects (b : Behaviour κ σ) :
    List (Task κ) → List (Value κ) → Deeds κ → List (Task κ) → List (Value κ) → Prop where
  | none (ts : List (Task κ)) (vs : List (Value κ)) : Collects b ts vs [] ts vs
  | next {t : Task κ} {ts ts' : List (Task κ)} {vs vs' : List (Value κ)} {v : Value κ} {work ds : Deeds κ}
      (results : t.Results b work (.ok v)) (later : Collects b ts (vs ++ [v]) ds ts' vs') :
      Collects b (t :: ts) vs
        (.moved ⟨collect (t :: ts) vs, none⟩ :: (work ++ .moved ⟨.succeed v, some (.collect ts vs, v)⟩ ::
          .returned (collect ts (vs ++ [v])) :: ds)) ts' vs'

/-- Where a process stands that has collected values, with the tasks that are left, on top of `base`, and what it
has done since then. -/
inductive Collecting (b : Behaviour κ σ) (base : List (Handler κ)) :
    List (Task κ) → List (Value κ) → Deeds κ → Doing κ → Prop where
  /-- The next task is about to come up, or there is none and the sequence has succeeded. -/
  | ready (ts : List (Task κ)) (vs : List (Value κ)) : Collecting b base ts vs [] (.task (collect ts vs) base)
  /-- The next task is at work. -/
  | working {t : Task κ} {ts : List (Task κ)} {vs : List (Value κ)} {work : Deeds κ} {d : Doing κ}
      (runs : (Doing.task t []).Runs b work d) (going : ∀ o, d ≠ .exited o) :
      Collecting b base (t :: ts) vs (.moved ⟨collect (t :: ts) vs, none⟩ :: work)
        (d.on (.onSuccess (.collect ts vs) :: base))
  /-- The value of the task is being put to the others. -/
  | passing {t : Task κ} {ts : List (Task κ)} {vs : List (Value κ)} {v : Value κ} {work : Deeds κ}
      (results : t.Results b work (.ok v)) :
      Collecting b base (t :: ts) vs
        (.moved ⟨collect (t :: ts) vs, none⟩ :: (work ++ [.moved ⟨.succeed v, some (.collect ts vs, v)⟩]))
        (.call (.collect ts vs) v base)
  /-- The task has failed, and the failure has been passed to what stands below the sequence. -/
  | failed {t : Task κ} {ts : List (Task κ)} {vs : List (Value κ)} {v : Value κ} {work since : Deeds κ}
      {d : Doing κ} (results : t.Results b work (.error v))
      (runs : (Doing.task (.fail v) base).Runs b
        (.moved ⟨.fail v, (Handler.next (.error v) base).map fun g => (g.1, v)⟩ :: since) d) :
      Collecting b base (t :: ts) vs
        (.moved ⟨collect (t :: ts) vs, none⟩ :: (work ++
          .moved ⟨.fail v, (Handler.next (.error v) base).map fun g => (g.1, v)⟩ :: since)) d
  /-- All tasks have succeeded, and the values have been passed to what stands below the sequence. -/
  | succeeded {vs : List (Value κ)} {since : Deeds κ} {d : Doing κ}
      (runs : (Doing.task (.succeed (.list vs)) base).Runs b
        (.moved ⟨.succeed (.list vs), (Handler.next (.ok (.list vs)) base).map fun g => (g.1, .list vs)⟩ :: since)
        d) :
      Collecting b base [] vs
        (.moved ⟨.succeed (.list vs), (Handler.next (.ok (.list vs)) base).map fun g => (g.1, .list vs)⟩ :: since)
        d

variable {ts ts' : List (Task κ)} {vs vs' : List (Value κ)} {ds : Deeds κ} {base : List (Handler κ)} {d : Doing κ}

/-- The values that have been collected are those of the first tasks, one for each. -/
theorem Collects.succeeded (h : Collects b ts vs ds ts' vs') : ∃ before ws, ts = before ++ ts' ∧ vs' = vs ++ ws ∧
    List.Forall₂ (fun t w => ∃ work, t.Results b work (.ok w)) before ws := by
  induction h with
  | none ts vs => exact ⟨[], [], rfl, (List.append_nil vs).symm, .nil⟩
  | @next t ts ts' vs vs' v work ds results _ ih =>
    obtain ⟨before, ws, rfl, rfl, all⟩ := ih
    exact ⟨t :: before, v :: ws, rfl, List.append_assoc .., .cons ⟨work, results⟩ all⟩

/-- A process can do so, whatever stands on its stack. -/
theorem Collects.runs (h : Collects b ts vs ds ts' vs') (base : List (Handler κ)) :
    (Doing.task (collect ts vs) base).Runs b ds (.task (collect ts' vs') base) := by
  induction h with
  | none ts vs => exact .refl
  | @next t ts ts' vs vs' v work ds results _ ih =>
    obtain ⟨own, runs, next⟩ := results.on (.onSuccess (.collect ts vs) :: base)
    refine .cons (.push (.andThen t (.collect ts vs)) base) (runs.trans ?_)
    exact .cons (.enter (o := .ok v) next) (.cons (.returned (.ret _) base) ih)

/-- Whatever a process does in the course of a sequence, it collects the values of the first tasks, and stands
somewhere after that. -/
theorem collecting_of_runs (h : (Doing.task (collect ts vs) base).Runs b ds d) :
    ∃ first since ts' vs', ds = first ++ since ∧ Collects b ts vs first ts' vs' ∧
      Collecting b base ts' vs' since d := by
  -- By induction on the tasks that are left. The work of the first one is split off where it has its outcome.
  induction ts generalizing vs ds with
  | nil =>
    rcases h.head with ⟨rfl, rfl⟩ | ⟨e, es, d', rfl, does, rest⟩
    · exact ⟨[], [], [], vs, rfl, .none [] vs, .ready [] vs⟩
    · obtain rfl := Doing.Does.passes (o := .ok (.list vs)) does
      exact ⟨[], _, [], vs, rfl, .none [] vs, .succeeded h⟩
  | cons t ts ih =>
    rcases h.head with ⟨rfl, rfl⟩ | ⟨e, es, d', rfl, does, rest⟩
    · exact ⟨[], [], t :: ts, vs, rfl, .none _ vs, .ready _ vs⟩
    obtain ⟨rfl, rfl⟩ := does.of_pushes (.andThen t (.collect ts vs))
    rcases rest.split with ⟨d', runs, going, rfl⟩ | ⟨work, o, e, es, rfl, results, after⟩
    · exact ⟨[], _, t :: ts, vs, rfl, .none _ vs, .working runs going⟩
    cases o with
    | error v =>
      -- The continuation that owns the other tasks is no handler of failures, and is thrown away.
      have after : (Doing.task (Task.ofResult (.error v)) base).Runs b (e :: es) d := after.of_next_eq rfl
      rcases after.head with ⟨not, -⟩ | ⟨e', es', d₁, all, does, -⟩
      · cases not
      · obtain ⟨rfl, rfl⟩ := List.cons.inj all
        obtain rfl := does.passes
        exact ⟨[], _, t :: ts, vs, rfl, .none _ vs, .failed results after⟩
    | ok v =>
      rcases after.head with ⟨not, -⟩ | ⟨e', es', d₁, all, does, rest⟩
      · cases not
      obtain ⟨rfl, rfl⟩ := List.cons.inj all
      obtain ⟨rfl, rfl⟩ := does.of_next (o := .ok v) rfl
      rcases rest.head with ⟨rfl, rfl⟩ | ⟨e, es, d₂, rfl, does, rest⟩
      · exact ⟨[], _, t :: ts, vs, rfl, .none _ vs, .passing results⟩
      · obtain ⟨u, brings, rfl, rfl⟩ := does.of_call
        obtain rfl := brings.of_ret
        obtain ⟨first, since, ts', vs', rfl, collects, collecting⟩ := ih rest
        exact ⟨_, since, ts', vs', congrArg (_ :: ·) (List.append_assoc work (_ :: _ :: first) since).symm,
          .next results collects, collecting⟩

/-- A process with nothing but the sequence exits when the last task has succeeded, or when one has failed. -/
theorem Collecting.exited {o : Except (Value κ) (Value κ)} (h : Collecting b [] ts vs ds (.exited o)) :
    (ts = [] ∧ o = .ok (.list vs) ∧ ds = [.moved ⟨.ofResult o, none⟩]) ∨ ∃ t rest own v, ts = t :: rest ∧
      o = .error v ∧ t.Results b own (.error v) ∧
        ds = (.moved ⟨collect ts vs, none⟩ :: own) ++ [.moved ⟨.ofResult o, none⟩] := by
  -- With no handler below there is nothing to do after an outcome but to exit with it.
  have last : ∀ {o o' : Except (Value κ) (Value κ)} {e : Deed κ} {es : Deeds κ}, Handler.next o [] = none →
      (Doing.task (.ofResult o) []).Runs b (e :: es) (.exited o') → es = [] ∧ o' = o := by
    intro o o' e es none runs
    rcases runs.head with ⟨not, -⟩ | ⟨e', es', d', all, does, rest⟩
    · cases not
    · obtain ⟨rfl, rfl⟩ := List.cons.inj all
      obtain ⟨-, rfl⟩ := does.of_next_none none
      obtain ⟨rfl, same⟩ := rest.of_exited
      exact ⟨rfl, Doing.exited.inj same⟩
  generalize hd : Doing.exited o = d at h
  cases h with
  | ready => cases hd
  | @working _ _ _ _ d => cases d <;> cases hd
  | passing => cases hd
  | @failed t ts vs v own since d results runs =>
    subst hd
    obtain ⟨rfl, rfl⟩ := last (o := .error v) rfl runs
    exact .inr ⟨t, ts, own, v, rfl, rfl, results, rfl⟩
  | @succeeded vs since d runs =>
    subst hd
    obtain ⟨rfl, rfl⟩ := last (o := .ok (.list vs)) rfl runs
    exact .inl ⟨rfl, rfl, rfl⟩

/-- What comes out of a sequence. It succeeds with the values of all its tasks, in their order, or fails as the
first of them that fails; and it comes to this whenever its tasks do. -/
theorem results_sequence {work : Deeds κ} {o : Except (Value κ) (Value κ)} :
    (sequence ts).Results b work o ↔ (∃ vs, Collects b ts [] work [] vs ∧ o = .ok (.list vs)) ∨
      ∃ t rest vs first own v, Collects b ts [] first (t :: rest) vs ∧ t.Results b own (.error v) ∧
        work = first ++ .moved ⟨collect (t :: rest) vs, none⟩ :: own ∧ o = .error v := by
  constructor
  · intro h
    obtain ⟨first, since, ts', vs, all, collects, collecting⟩ := collecting_of_runs h
    rcases collecting.exited with ⟨rfl, rfl, rfl⟩ | ⟨t, rest, own, v, rfl, rfl, results, rfl⟩
    · exact .inl ⟨vs, (List.append_inj' all rfl).1 ▸ collects, rfl⟩
    · rw [← List.append_assoc] at all
      exact .inr ⟨t, rest, vs, first, own, v, collects, results, (List.append_inj' all rfl).1, rfl⟩
  · rintro (⟨vs, collects, rfl⟩ | ⟨t, rest, vs, first, own, v, collects, results, rfl, rfl⟩)
    · exact (collects.runs []).snoc (.exit (o := .ok (.list vs)) rfl)
    · obtain ⟨s, runs, next⟩ := results.on [.onSuccess (.collect rest vs)]
      refine Doing.Runs.snoc ((collects.runs []).trans (.cons (.push (.andThen t (.collect rest vs)) []) runs)) ?_
      exact .exit (o := .error v) next

end Task

/-! ### Runs -/

namespace Trail

variable {m m₁ : Machine κ σ} {ms past during : List (Machine κ σ)} {p : Pid} {x₁ : Proc κ}

/-- What a process has done since a task has come up. -/
theorem runs_since (h : Trail b m ms) (split : ms = past ++ m₁ :: during) (hx₁ : m₁.world.procs.get? p = some x₁)
    {t : Task κ} (root : x₁.root = .ready t) : ∃ x u d, m.world.procs.get? p = some x ∧
      (Record.of (ms.flatMap Machine.record) p).Interpreted b x.bare u d ∧
      (Doing.task t x₁.stack).Runs b (Record.of ((m₁ :: during).flatMap Machine.record) p).acts d := by
  obtain ⟨u, d₁, before⟩ := (h.past split).history.interprets hx₁
  obtain rfl := Doing.eq_of_ready (before.fits_of_living (Proc.isDead_of_ready root)) root
  have both : Record.of (ms.flatMap Machine.record) p =
      Record.of (past.flatMap Machine.record) p ++ Record.of ((m₁ :: during).flatMap Machine.record) p := by
    rw [split, List.flatMap_append, Record.of_append]
  obtain ⟨x, d, hx, after⟩ := h.history.interpreted (both ▸ List.mem_append_left _ before.started)
  have runs := after.runs
  rw [both, Deeds.acts, List.filter_append] at runs
  exact ⟨x, u, d, hx, after, before.runs.later runs⟩

/-- A sequence of tasks runs from left to right, whatever the tasks, in any process, under any schedule. From the
moment that it comes up on a stack the process does this and nothing else: it does the work of the first tasks,
one after the other, each of which succeeds and has its value collected before the next one comes up. Then the next
task is at work, or has failed, or there is none. When all have succeeded the sequence is the success with the list
of their values. When one has failed the process goes on as if the failure had stood in place of the sequence, and
nothing of the tasks behind is done: the failure goes to the next handler of failures below, exactly as it is, and if
there is none the process exits with it. Alone the sequence succeeds with the values of all its tasks and fails as
the first one that fails, and it comes to this whenever its tasks do. -/
theorem sequence_in_order (h : Trail b m ms) (split : ms = past ++ m₁ :: during)
    (hx₁ : m₁.world.procs.get? p = some x₁) (ts : List (Task κ)) (root : x₁.root = .ready (Task.sequence ts)) :
    (∃ x d, m.world.procs.get? p = some x ∧ (x.isDead = false → d.Fits x) ∧
      ∃ first since before rest vs,
        (Record.of ((m₁ :: during).flatMap Machine.record) p).acts = first ++ since ∧
        ts = before ++ rest ∧ List.Forall₂ (fun t v => ∃ work, t.Results b work (.ok v)) before vs ∧
        Task.Collects b ts [] first rest vs ∧ Task.Collecting b x₁.stack rest vs since d) ∧
    ∀ work o, (Task.sequence ts).Results b work o ↔
      (∃ vs, Task.Collects b ts [] work [] vs ∧ o = .ok (.list vs)) ∨
        ∃ t rest vs first own v, Task.Collects b ts [] first (t :: rest) vs ∧ t.Results b own (.error v) ∧
          work = first ++ .moved ⟨Task.collect (t :: rest) vs, none⟩ :: own ∧ o = .error v := by
  obtain ⟨x, u, d, hx, interpreted, runs⟩ := h.runs_since split hx₁ root
  obtain ⟨first, since, rest, vs, acts, collects, collecting⟩ := Task.collecting_of_runs runs
  obtain ⟨before, ws, all, values, succeeded⟩ := collects.succeeded
  obtain rfl : vs = ws := values
  exact ⟨⟨x, d, hx, interpreted.fits_of_living, first, since, before, rest, vs, acts, all, succeeded, collects,
    collecting⟩, fun work o => Task.results_sequence⟩

end Trail

/-- Four tasks, the third of which fails. -/
def stages : List (Task Unit) :=
  [.succeed .unit, .native .this, .fail .unit, .native (.sleep 5)]

/-- A process runs them in sequence, with a handler of failures below. -/
def relay : Machine Unit Unit :=
  let code : Code Unit Unit Unit :=
    (Code.ask (.spawn (.onError (Task.sequence stages) .asErr))).bind fun _ =>
      (Code.ask (.drive .idle)).bind fun _ => .ret ()
  .load (.new .standard ()) (Procedure.ofCode code)

/-- The process does not come to the fourth task, and the handler gets the failure of the third one. -/
theorem relay_in_order :
    ∃ x₁ x d first since before rest vs,
      (Machine.run (.ofCallbacks fun _ v => .succeed v) 5 relay).world.procs.get? ⟨1⟩ = some x₁ ∧
      x₁.root = .ready (Task.sequence stages) ∧ x₁.stack = [.onFailure .asErr] ∧
      (Machine.run (.ofCallbacks fun _ v => .succeed v) 19 relay).world.procs.get? ⟨1⟩ = some x ∧
      first ++ since =
        [.moved ⟨.sequence stages, none⟩, .moved ⟨.succeed .unit, some (.collect (stages.drop 1) [], .unit)⟩,
          .returned (.collect (stages.drop 1) [.unit]), .moved ⟨.collect (stages.drop 1) [.unit], none⟩,
          .moved ⟨.native .this, none⟩, .completed (.succeed (.pid ⟨1⟩)),
          .moved ⟨.succeed (.pid ⟨1⟩), some (.collect (stages.drop 2) [.unit], .pid ⟨1⟩)⟩,
          .returned (.collect (stages.drop 2) [.unit, .pid ⟨1⟩]),
          .moved ⟨.collect (stages.drop 2) [.unit, .pid ⟨1⟩], none⟩, .moved ⟨.fail .unit, some (.asErr, .unit)⟩,
          .returned (.succeed (.err .unit)), .moved ⟨.succeed (.err .unit), none⟩] ∧
      stages = before ++ rest ∧ Task.Collects (.ofCallbacks fun _ v => .succeed v) stages [] first rest vs ∧
      Task.Collecting (.ofCallbacks fun _ v => .succeed v) [.onFailure .asErr] rest vs since d := by
  have begin : Trail (.ofCallbacks fun _ v => .succeed v) relay [] := .new _ _ _
  have split : [] ++ Machine.passed (.ofCallbacks fun _ v => .succeed v) 19 relay =
      Machine.passed (.ofCallbacks fun _ v => .succeed v) 5 relay ++
        Machine.run (.ofCallbacks fun _ v => .succeed v) 5 relay ::
          Machine.passed (.ofCallbacks fun _ v => .succeed v) 13
            (Machine.run (.ofCallbacks fun _ v => .succeed v) 6 relay) := rfl
  obtain ⟨⟨x, d, hx, -, first, since, before, rest, vs, acts, all, -, collects, collecting⟩, -⟩ :=
    (begin.run 19).sequence_in_order split (p := ⟨1⟩) rfl stages rfl
  exact ⟨_, x, d, first, since, before, rest, vs, rfl, rfl, rfl, hx, acts.symm.trans rfl, all, collects, collecting⟩

end Actors
