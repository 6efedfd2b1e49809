/-
Workers.

A worker runs the task of one command. Behind the task stand, as handlers, the function of the command, the
taggers, and the delivery to the program. Until the task has come to an outcome the worker does what the task
does. From then on it is never held up: unless the command is not to be heard of, it sends the program one
message, and then it exits.

* `Task.Results.after` — what follows when a task on a stack of handlers has come to its outcome;
* `Opens` — tasks that put handlers on the stack;
* `Errand.After` — a worker whose task has ended;
* `Errand.Working`, `Errand.Over`, `Trail.errand` — a worker in a run, until its task has ended and since then.
-/
import Actors.Proofs.Hiring
import Actors.Proofs.Nesting

namespace Actors

variable {κ σ : Type} {b : Behaviour κ σ}

open Procedure

/-! ### The end of a task -/

namespace Doing

theorem Runs.of_snoc {d d' : Doing κ} {ds : Deeds κ} {e : Deed κ} (h : d.Runs b (ds ++ [e]) d') :
    ∃ d₁, d.Runs b ds d₁ ∧ d₁.Does b e d' := by
  generalize hes : ds ++ [e] = es at h
  cases h with
  | refl => cases (List.append_eq_nil_iff.1 hes).2
  | snoc h does =>
    obtain ⟨rfl, last⟩ := List.append_inj' hes rfl
    obtain rfl := List.singleton_inj.1 last
    exact ⟨_, h, does⟩

/-- A course of deeds leads to one situation. -/
theorem Runs.unique {d d₁ d₂ : Doing κ} {ds : Deeds κ} (h₁ : d.Runs b ds d₁) (h₂ : d.Runs b ds d₂) : d₁ = d₂ := by
  rcases (h₁.later ((List.append_nil ds).symm ▸ h₂)).head with ⟨-, same⟩ | ⟨e, es, d', not, -⟩
  · exact same.symm
  · cases not

/-- A process exits with an outcome for which there is no handler. -/
theorem Does.of_exited {d : Doing κ} {e : Deed κ} {o : Except (Value κ) (Value κ)} (h : d.Does b e (.exited o)) :
    ∃ s, d = .task (.ofResult o) s ∧ Handler.next o s = none := by
  cases h with
  | exit next => exact ⟨_, rfl, next⟩

/-- The first thing that is done with an outcome is to pass it on. -/
theorem Runs.passes {o : Except (Value κ) (Value κ)} {s : List (Handler κ)} {e : Deed κ} {es : Deeds κ} {d : Doing κ}
    (h : (Doing.task (.ofResult o) s).Runs b (e :: es) d) : ∃ entered, e = .moved ⟨.ofResult o, entered⟩ := by
  rcases h.head with ⟨not, -⟩ | ⟨e', es', d', same, does, -⟩
  · cases not
  · obtain ⟨rfl, -⟩ := List.cons.inj same
    rcases does.of_result with ⟨c, s, -, moved, -⟩ | ⟨-, moved, -⟩
    · exact ⟨_, moved⟩
    · exact ⟨_, moved⟩

end Doing

namespace Task.Results

variable {t : Task κ} {work work' : Deeds κ} {o o' : Except (Value κ) (Value κ)}

/-- A task comes to one outcome, by one course of work. -/
theorem unique (h : t.Results b work o) (h' : t.Results b work' o') (first : work <+: work') :
    work = work' ∧ o = o' := by
  obtain ⟨d, runs, does⟩ := h.of_snoc
  obtain ⟨s, rfl, next⟩ := does.of_exited
  obtain ⟨more, rfl⟩ := first
  rw [Results, List.append_assoc] at h'
  rcases (runs.later h').head with ⟨none, -⟩ | ⟨e, es, d', all, now, rest⟩
  · cases (List.append_eq_nil_iff.1 none).2
  · obtain ⟨rfl, rfl⟩ := now.of_next_none next
    obtain ⟨rfl, same⟩ := rest.of_exited
    have all : more ++ [_] = [] ++ [_] := all
    obtain rfl := (List.append_inj' all rfl).1
    exact ⟨(List.append_nil _).symm, (Doing.exited.inj same).symm⟩

/-- When a task on a stack of handlers has come to its outcome, the outcome goes to the handlers. -/
theorem after (h : t.Results b work o) {base : List (Handler κ)} {e : Deed κ} {es : Deeds κ} {d : Doing κ}
    (runs : (Doing.task t base).Runs b (work ++ e :: es) d) :
    (Doing.task (.ofResult o) base).Runs b (e :: es) d := by
  rcases runs.split with ⟨d', alone, going, -⟩ | ⟨work', o', e', es', all, h', rest⟩
  · -- Alone it would have exited before.
    obtain ⟨d₁, before, does⟩ := h.of_snoc
    obtain ⟨s, rfl, next⟩ := does.of_exited
    rcases (before.later alone).head with ⟨not, -⟩ | ⟨e₁, es₁, d₂, -, now, later⟩
    · cases not
    · obtain ⟨-, rfl⟩ := now.of_next_none next
      exact absurd later.of_exited.2 (going o)
  · have both : work = work' ∧ o = o' := by
      rcases List.prefix_or_prefix_of_prefix (List.prefix_append work (e :: es))
        (all ▸ List.prefix_append work' (e' :: es')) with first | first
      · exact h.unique h' first
      · exact (h'.unique h first).imp Eq.symm Eq.symm
    obtain ⟨rfl, rfl⟩ := both
    rw [List.append_cancel_left all]
    exact rest

end Task.Results

/-! ### Tasks with handlers -/

/-- A task that comes to another one by putting handlers on the stack, the last of them on top. -/
inductive Opens : Task κ → Deeds κ → Task κ → List (Handler κ) → Prop where
  | refl (t : Task κ) : Opens t [] t []
  | push {u v t : Task κ} {g : Handler κ} {ds : Deeds κ} {hs : List (Handler κ)} (pushes : Pushes u v g)
      (rest : Opens v ds t hs) : Opens u (.moved ⟨u, none⟩ :: ds) t (hs ++ [g])

/-- A process does so first, whatever stands on its stack. -/
theorem Opens.split {u t : Task κ} {ds : Deeds κ} {hs : List (Handler κ)} (h : Opens u ds t hs)
    {base : List (Handler κ)} {es : Deeds κ} {d : Doing κ} (runs : (Doing.task u base).Runs b es d) :
    (es <+: ds ∧ es.length < ds.length ∧ ∃ u' v g s, Pushes u' v g ∧ d = .task u' s) ∨
      ∃ es', es = ds ++ es' ∧ (Doing.task t (hs ++ base)).Runs b es' d := by
  induction h generalizing base es with
  | refl t => exact .inr ⟨es, rfl, runs⟩
  | @push u v t g ds hs pushes rest ih =>
    rcases runs.head with ⟨rfl, rfl⟩ | ⟨e, es', d', rfl, does, later⟩
    · exact .inl ⟨List.nil_prefix, Nat.zero_lt_succ _, u, v, g, base, pushes, rfl⟩
    · obtain ⟨rfl, rfl⟩ := does.of_pushes pushes
      rcases ih later with ⟨first, shorter, doing⟩ | ⟨es'', rfl, runs'⟩
      · exact .inl ⟨(List.prefix_cons_inj _).2 first, Nat.succ_lt_succ shorter, doing⟩
      · refine .inr ⟨es'', rfl, ?_⟩
        rw [List.append_assoc]
        exact runs'

/-! ### The worker of a command -/

namespace Errand

variable (app : Pid) (e : Errand κ)

/-- The continuation that applies the function of the command. -/
def callback : Callback κ :=
  if e.attempted then .attempted e.code else .map e.code

/-- What follows when the function has been applied: the taggers, and the delivery. -/
def delivery : List (Handler κ) :=
  [.onSuccess (.tag e.chain), .onSuccess (.deliver app)]

/-- The handlers behind the task of the command. -/
def handlers : List (Handler κ) :=
  (if e.attempted then [.onSuccess .asOk, .onFailure .asErr] else []) ++ .onSuccess e.callback :: e.delivery app

/-- What a worker does before the task. -/
def opening : Deeds κ :=
  .moved ⟨e.order.worker app, none⟩ :: .moved ⟨e.order.tagged, none⟩ :: .moved ⟨e.order.task, none⟩ ::
    if e.attempted then
      [.moved ⟨.onError (.andThen e.task .asOk) .asErr, none⟩, .moved ⟨.andThen e.task .asOk, none⟩]
    else []

theorem opens : Opens (e.order.worker app) (e.opening app) e.task (e.handlers app) := by
  obtain ⟨attempted, task, code, chain⟩ := e
  cases attempted with
  | false => exact .push (.andThen _ _) (.push (.andThen _ _) (.push (.andThen _ _) (.refl _)))
  | true =>
    exact .push (.andThen _ _) (.push (.andThen _ _) (.push (.andThen _ _) (.push (.onError _ _)
      (.push (.andThen _ _) (.refl _)))))

variable {app e}

/-- The function of the command is applied to what it is given. -/
theorem brings_callback {a : Value κ} {t : Task κ} (h : (e.callback.run b a).Brings b t) :
    ∃ w, (b.convert e.code a).Returns w ∧ t = .succeed w := by
  have applied : ∀ {t : Task κ}, Brings b (Act.map Task.succeed (invoke (.convert e.code a))) t →
      ∃ w, (b.convert e.code a).Returns w ∧ t = .succeed w := by
    intro t h
    obtain ⟨w, first, rfl⟩ := h.of_map
    exact ⟨w, first.of_invoke, rfl⟩
  unfold callback at h
  split at h
  · obtain ⟨x, -, second⟩ := h.of_bind
    exact applied second
  · exact applied h

/-- What a worker is doing whose task has come to an outcome, with the requests of the bindings that it has begun
since then, and a bound for what it has still to do. -/
inductive After (b : Behaviour κ σ) (app : Pid) (e : Errand κ) (o : Except (Value κ) (Value κ)) :
    List (Request κ σ) → Nat → Doing κ → Prop where
  | ended : After b app e o [] 11 (.task (.ofResult o) (e.handlers app))
  /-- The outcome is made a value. -/
  | wrapping {c : Callback κ} {v a : Value κ} {hs : List (Handler κ)} (given : e.argument? o = some a)
      (brings : ∀ t, (c.run b v).Brings b t → t = .succeed a)
      (next : Handler.next (.ok a) hs = some (e.callback, e.delivery app)) : After b app e o [] 10 (.call c v hs)
  | wrapped {a : Value κ} {hs : List (Handler κ)} (given : e.argument? o = some a)
      (next : Handler.next (.ok a) hs = some (e.callback, e.delivery app)) :
      After b app e o [] 9 (.task (.succeed a) hs)
  | applying {a : Value κ} (given : e.argument? o = some a) :
      After b app e o [] 8 (.call e.callback a (e.delivery app))
  | applied {a w : Value κ} (given : e.argument? o = some a) (returns : (b.convert e.code a).Returns w) :
      After b app e o [] 7 (.task (.succeed w) (e.delivery app))
  | tagging {a w : Value κ} (given : e.argument? o = some a) (returns : (b.convert e.code a).Returns w) :
      After b app e o [] 6 (.call (.tag e.chain) w [.onSuccess (.deliver app)])
  | tagged {u : Value κ} (reports : e.Reports b o u) :
      After b app e o [] 5 (.task (.succeed u) [.onSuccess (.deliver app)])
  | delivering {u : Value κ} (reports : e.Reports b o u) : After b app e o [] 4 (.call (.deliver app) u [])
  | ready {u : Value κ} (reports : e.Reports b o u) : After b app e o [] 3 (.task (.native (.send app u)) [])
  | sending {u : Value κ} (reports : e.Reports b o u) : After b app e o [.send app u] 2 (.binding (.send app u) [])
  | sent {u v : Value κ} (reports : e.Reports b o u) : After b app e o [.send app u] 1 (.task (.succeed v) [])
  | exited {u v : Value κ} (reports : e.Reports b o u) : After b app e o [.send app u] 0 (.exited (.ok v))
  /-- The command is not to be heard of. -/
  | failed {v : Value κ} (fails : o = .error v) (silent : e.argument? o = none) :
      After b app e o [] 0 (.exited (.error v))

namespace After

variable {o : Except (Value κ) (Value κ)} {rs : List (Request κ σ)} {n : Nat} {d d' : Doing κ} {x : Deed κ}
  {ds : Deeds κ}

/-- The outcome goes to the function of the command, unless the command is not to be heard of. -/
theorem of_ended (does : (Doing.task (.ofResult o) (e.handlers app)).Does b x d') :
    (∃ n < 11, After b app e o [] n d') ∧ x.AtOnce σ ∧ Deeds.requests [x] = ([] : List (Request κ σ)) := by
  have plain : ∀ entered, Deed.AtOnce σ (.moved ⟨Task.ofResult o, entered⟩) ∧
      Deeds.requests [.moved ⟨Task.ofResult o, entered⟩] = ([] : List (Request κ σ)) := by
    intro entered
    refine ⟨fun mv g same task => ?_, by cases o <;> rfl⟩
    obtain rfl := Deed.moved.inj same
    cases o <;> cases task
  -- An attempt hands its outcome on as a value, either way; without one a failure leaves no
  -- handler to go to.
  obtain ⟨attempted, task, code, chain⟩ := e
  cases attempted with
  | false =>
    cases o with
    | ok v =>
      obtain ⟨rfl, rfl⟩ := does.of_next (o := .ok v) rfl
      exact ⟨⟨8, by decide, .applying (a := v) rfl⟩, plain _⟩
    | error v =>
      obtain ⟨rfl, rfl⟩ := does.of_next_none (o := .error v) rfl
      exact ⟨⟨0, by decide, .failed rfl rfl⟩, plain _⟩
  | true =>
    cases o with
    | ok v =>
      obtain ⟨rfl, rfl⟩ := does.of_next (o := .ok v) rfl
      exact ⟨⟨10, by decide, .wrapping (a := .ok v) rfl (fun t brings => brings.of_ret) rfl⟩, plain _⟩
    | error v =>
      obtain ⟨rfl, rfl⟩ := does.of_next (o := .error v) rfl
      exact ⟨⟨10, by decide, .wrapping (a := .err v) rfl (fun t brings => brings.of_ret) rfl⟩, plain _⟩

/-- A worker goes on to the delivery, and then it exits. -/
theorem does (h : After b app e o rs n d) (does : d.Does b x d')
    (success : ∀ t, x = .completed t → ∃ v, t = .succeed v) :
    (∃ n' < n, After b app e o (rs ++ Deeds.requests [x]) n' d') ∧ x.AtOnce σ := by
  have plain : ∀ {v : Value κ} {entered : Option (Callback κ × Value κ)},
      Deed.AtOnce σ (.moved ⟨.succeed v, entered⟩) := by
    intro v entered mv g same task
    obtain rfl := Deed.moved.inj same
    cases task
  have returned : ∀ t : Task κ, Deed.AtOnce σ (.returned t) := fun t mv g not => by cases not
  -- One case for each place on the way from the outcome to the delivery; the number falls with
  -- every deed.
  cases h with
  | ended =>
    obtain ⟨after, atOnce, none⟩ := of_ended (σ := σ) does
    rw [none]
    exact ⟨after, atOnce⟩
  | wrapping given brings next =>
    obtain ⟨t, ht, rfl, rfl⟩ := does.of_call
    obtain rfl := brings t ht
    exact ⟨⟨_, by decide, .wrapped given next⟩, returned _⟩
  | @wrapped a hs given next =>
    obtain ⟨rfl, rfl⟩ := does.of_next (o := .ok a) next
    exact ⟨⟨_, by decide, .applying given⟩, plain⟩
  | applying given =>
    obtain ⟨t, ht, rfl, rfl⟩ := does.of_call
    obtain ⟨w, returns, rfl⟩ := brings_callback ht
    exact ⟨⟨_, by decide, .applied given returns⟩, returned _⟩
  | @applied a w given returns =>
    obtain ⟨rfl, rfl⟩ := does.of_next (o := .ok w) rfl
    exact ⟨⟨_, by decide, .tagging given returns⟩, plain⟩
  | tagging given returns =>
    obtain ⟨t, ht, rfl, rfl⟩ := does.of_call
    obtain ⟨u, first, rfl⟩ := ht.of_map
    exact ⟨⟨_, by decide, .tagged ⟨_, _, given, returns, .of_brings first⟩⟩, returned _⟩
  | @tagged u reports =>
    obtain ⟨rfl, rfl⟩ := does.of_next (o := .ok u) rfl
    exact ⟨⟨_, by decide, .delivering reports⟩, plain⟩
  | delivering reports =>
    obtain ⟨t, ht, rfl, rfl⟩ := does.of_call
    obtain rfl := ht.of_ret
    exact ⟨⟨_, by decide, .ready reports⟩, returned _⟩
  | ready reports =>
    obtain ⟨rfl, rfl⟩ := does.of_native
    refine ⟨⟨_, by decide, .sending reports⟩, fun mv g same task => ?_⟩
    obtain rfl := Deed.moved.inj same
    obtain rfl := Task.native.inj task
    exact fun not => by cases not
  -- The delivery is the one binding of the worker here, and a send completes with a success.
  | sending reports =>
    cases does with
    | completed g t s =>
      obtain ⟨v, rfl⟩ := success t rfl
      exact ⟨⟨_, by decide, .sent reports⟩, fun mv g not => by cases not⟩
  | @sent u v reports =>
    obtain ⟨rfl, rfl⟩ := does.of_next_none (o := .ok v) rfl
    exact ⟨⟨_, by decide, .exited reports⟩, plain⟩
  | exited => cases does
  | failed => cases does

theorem runs (h : After b app e o rs n d) (runs : d.Runs b ds d')
    (success : ∀ t, .completed t ∈ ds → ∃ v, t = .succeed v) :
    (∃ n', ds.length + n' ≤ n ∧ After b app e o (rs ++ Deeds.requests ds) n' d') ∧ ∀ x ∈ ds, x.AtOnce σ := by
  induction runs with
  | refl => exact ⟨⟨n, (Nat.zero_add n).le, (List.append_nil rs).symm ▸ h⟩, fun x hx => by cases hx⟩
  | snoc _ does ih =>
    obtain ⟨⟨n₁, few, after⟩, atOnce⟩ := ih fun t ht => success t (List.mem_append_left _ ht)
    obtain ⟨⟨n₂, less, after'⟩, one⟩ := after.does does fun t ht => success t (List.mem_append_right _ (by simp [ht]))
    refine ⟨⟨n₂, ?_, ?_⟩, List.forall_mem_append.2 ⟨atOnce, List.forall_mem_singleton.2 one⟩⟩
    · rw [List.length_append, List.length_singleton]
      omega
    · rw [Deeds.requests_append, ← List.append_assoc]
      exact after'

/-- A worker whose task has ended takes no message. -/
theorem ne_receive (h : After b app e o rs n d) (c : Callback κ) (hs : List (Handler κ)) : d ≠ .task (.receive c) hs := by
  intro not
  cases h with
  | ended => cases o <;> cases not
  | _ => cases not

/-- It sends one message at most, and only if the command is to be heard of. -/
theorem requests (h : After b app e o rs n d) : rs = [] ∨ ∃ u, e.Reports b o u ∧ rs = [.send app u] := by
  cases h with
  | sending reports => exact .inr ⟨_, reports, rfl⟩
  | sent reports => exact .inr ⟨_, reports, rfl⟩
  | exited reports => exact .inr ⟨_, reports, rfl⟩
  | _ => exact .inl rfl

end After

/-! ### Workers in runs -/

section

variable {q : Pid} {m : Machine κ σ} {ms since : List (Machine κ σ)} {o : Except (Value κ) (Value κ)}
  {work ds : Deeds κ} {d : Doing κ}

/-- What a worker does after its task has come to an outcome. -/
theorem runs_after (results : e.task.Results b work o)
    (runs : (Doing.task (e.order.worker app) []).Runs b (e.opening app ++ (work ++ ds)) d) (more : ds ≠ []) :
    (Doing.task (.ofResult o) (e.handlers app)).Runs b ds d := by
  rcases (e.opens app).split runs with ⟨-, shorter, -⟩ | ⟨es, all, later⟩
  · rw [List.length_append] at shorter
    omega
  · rw [List.append_nil, ← List.append_cancel_left all] at later
    obtain ⟨x, es, rfl⟩ := List.exists_cons_of_ne_nil more
    exact results.after later

/-- The task of a command comes to an outcome: the worker has done all the work of the task, and the next step
passes the outcome on. -/
structure Ends (b : Behaviour κ σ) (app q : Pid) (e : Errand κ) (o : Except (Value κ) (Value κ))
    (past : List (Machine κ σ)) (m₁ : Machine κ σ) : Prop where
  worked : ∃ work, (Record.of (past.flatMap Machine.record) q).acts = e.opening app ++ work ∧ e.task.Results b work o
  passes : ∃ entered, (q, .moved ⟨.ofResult o, entered⟩) ∈ m₁.record

/-- What is true of a worker until its task has come to an outcome: it does what the task does, nothing but the
task holds it up, and it does not exit. -/
structure Working (b : Behaviour κ σ) (app q : Pid) (e : Errand κ) (m : Machine κ σ) (ds : Deeds κ) : Prop where
  does : ds.acts <+: e.opening app ∨ ∃ work d, ds.acts = e.opening app ++ work ∧
    (Doing.task e.task []).Runs b work d ∧ ∀ o, d ≠ .exited o
  awake : m.world.procs.isAlive q = true → m.Awake q ∨ ∃ work, ds.acts = e.opening app ++ work ∧
    ∀ o, ¬ e.task.Results b work o
  alive : m.world.procs.isAlive q = true ∨ .killed ∈ ds

/-- What is true of a worker since its task has come to an outcome. -/
structure Over (b : Behaviour κ σ) (app q : Pid) (e : Errand κ) (o : Except (Value κ) (Value κ)) (m : Machine κ σ)
    (since : List (Machine κ σ)) (ds : Deeds κ) : Prop where
  /-- The worker sends one message at most, which reports the outcome, and its bindings do nothing else. -/
  once : since.filterMap (Machine.performed? q) = [] ∨
    ∃ u, e.Reports b o u ∧ since.filterMap (Machine.performed? q) = [.send app u]
  /-- It sends none if the command is not to be heard of. -/
  silent : e.argument? o = none → since.filterMap (Machine.performed? q) = []
  /-- What it sends goes to the program. -/
  arrives : ∀ m' ∈ since, ∀ u, m'.performed? q = some (.send app u) →
    m'.record = [(app, if m'.world.procs.isAlive app then .sent u else .dropped u)]
  /-- It has only a few things to do, and it is not held up before it exits. -/
  few : (Record.of (since.flatMap Machine.record) q).acts.length ≤ 11
  awake : m.world.procs.isAlive q = true → m.Awake q
  /-- Before it exits it sends the message, unless it is killed. -/
  exits : m.world.procs.isAlive q = false → .killed ∈ ds ∨
    (∃ u v, e.Reports b o u ∧ since.filterMap (Machine.performed? q) = [.send app u] ∧ ds.outcome? = some (.ok v)) ∨
    ∃ v, o = .error v ∧ e.argument? o = none ∧ ds.outcome? = some (.error v)

/-- A worker in a run: it is at work on the task, or the task has come to an outcome and the worker is over with it. -/
def Proceeds (b : Behaviour κ σ) (app q : Pid) (e : Errand κ) (m : Machine κ σ) (ms : List (Machine κ σ)) : Prop :=
  e.Working b app q m (Record.of (ms.flatMap Machine.record) q) ∨
    ∃ past m₁ during o, ms = past ++ m₁ :: during ∧ e.Ends b app q o past m₁ ∧
      e.Over b app q o m (m₁ :: during) (Record.of (ms.flatMap Machine.record) q)

end

end Errand

namespace Machine

variable {m : Machine κ σ} {q : Pid}

/-- A process that makes a transition awaits nothing. -/
theorem up_of_moved (run : Reachable b m) {mv : Move κ} (moved : (q, .moved mv) ∈ m.record) : m.world.Up q := by
  have life := (transition b m).life run.sound q
  have mem : .moved mv ∈ Record.of m.record q := Record.mem_of.2 moved
  rcases m.record_of q with none | ⟨d, -, of⟩
  · rw [none] at mem
    cases mem
  · rw [of] at mem life
    obtain rfl := List.mem_singleton.1 mem
    intro x hx
    have leads := life.leads
    rw [hx] at leads
    generalize (m.step b).world.bare q = o at leads
    cases leads with
    | moved can => rw [Proc.root_of_move? can]; rfl

/-- A message that the work of a binding sends is put into the mailbox, if the process is alive. -/
theorem record_of_send (run : Reachable b m) {p : Pid} {u : Value κ} (h : m.performed? q = some (.send p u)) :
    m.record = [(p, if m.world.procs.isAlive p then .sent u else .dropped u)] := by
  have here := run.reachable_of_performed h
  obtain ⟨-, top⟩ := eq_of_performed? h
  rw [record_of_directive? top, Directive.record, Request.record, if_pos here]

end Machine

namespace Trail

variable {m : Machine κ σ} {ms : List (Machine κ σ)} {q app : Pid} {e : Errand κ}

/-- The step that makes one of the deeds of a process. -/
theorem split_act : ∀ {ms : List (Machine κ σ)} {as bs : Deeds κ} {x : Deed κ},
    (Record.of (ms.flatMap Machine.record) q).acts = as ++ x :: bs → ∃ past m₁ during, ms = past ++ m₁ :: during ∧
      (Record.of (past.flatMap Machine.record) q).acts = as ∧ (q, x) ∈ m₁.record
  | [], as, bs, x, h => by cases (List.append_eq_nil_iff.1 h.symm).2
  | m :: ms, as, bs, x, h => by
    rw [List.flatMap_cons, Record.of_append, Deeds.acts, List.filter_append] at h
    -- The deed is in a later step, or in this one, which records at most one deed of the process.
    have later : ∀ {as' : Deeds κ}, Deeds.acts (Record.of m.record q) ++ as' = as →
        (Record.of (ms.flatMap Machine.record) q).acts = as' ++ x :: bs →
          ∃ past m₁ during, m :: ms = past ++ m₁ :: during ∧
            (Record.of (past.flatMap Machine.record) q).acts = as ∧ (q, x) ∈ m₁.record := by
      intro as' first rest
      obtain ⟨past, m₁, during, rfl, acts, mem⟩ := split_act rest
      refine ⟨m :: past, m₁, during, rfl, ?_, mem⟩
      rw [List.flatMap_cons, Record.of_append, Deeds.acts, List.filter_append, ← first, ← acts]
      rfl
    rcases m.record_of q with none | ⟨d, one, of⟩
    · rw [none] at h later
      exact later rfl h
    · rw [of] at h later
      by_cases act : d.isAct = true
      · have here : Deeds.acts [d] = [d] := List.filter_cons_of_pos act
        rw [here] at later
        rw [List.filter_cons_of_pos act] at h
        cases as with
        | nil =>
          obtain rfl := (List.cons.inj h).1
          exact ⟨[], m, ms, rfl, rfl, one ▸ List.mem_singleton.2 rfl⟩
        | cons a as =>
          obtain ⟨rfl, rest⟩ := List.cons.inj h
          exact @later as rfl rest
      · have none : Deeds.acts [d] = [] := List.filter_cons_of_neg act
        rw [none] at later
        rw [List.filter_cons_of_neg act] at h
        exact later rfl h

/-- What the worker of a command has done since the task has come to an outcome, with what is left of it. -/
theorem errand_since (h : Trail b m ms) (going : m.fault = none)
    (spawned : .spawned (e.order.worker app) ∈ Record.of (ms.flatMap Machine.record) q)
    {past during : List (Machine κ σ)} {m₁ : Machine κ σ} {o : Except (Value κ) (Value κ)}
    (split : ms = past ++ m₁ :: during) (ends : e.Ends b app q o past m₁) :
    ∃ r x d n, m.Stands b q r ∧ m.world.procs.get? q = some x ∧
      (Record.of (ms.flatMap Machine.record) q).Interpreted b x.bare (e.order.worker app) d ∧
      (Record.of ((m₁ :: during).flatMap Machine.record) q).acts.length + n ≤ 11 ∧
      Errand.After b app e o ((m₁ :: during).filterMap (Machine.performed? q) ++ r.toList) n d := by
  obtain ⟨⟨work, worked, results⟩, entered, moved⟩ := ends
  have before := h.past split
  have both : Record.of (ms.flatMap Machine.record) q =
      Record.of (past.flatMap Machine.record) q ++ Record.of ((m₁ :: during).flatMap Machine.record) q := by
    rw [split, List.flatMap_append, Record.of_append]
  have opened : .moved ⟨e.order.worker app, none⟩ ∈ (Record.of (past.flatMap Machine.record) q).acts := by
    rw [worked]
    exact List.mem_append_left _ List.mem_cons_self
  obtain ⟨t, d₁, started, runs⟩ := before.runs_of_moved (List.mem_of_mem_filter opened)
  obtain rfl : t = e.order.worker app :=
    (h.history.life q).spawned_unique.2 t _ (both ▸ List.mem_append_left _ started) spawned
  -- The rest of what the worker does follows the outcome.
  have after : ∀ ds d, d₁.Runs b ds d → ds ≠ [] → (∀ t, .completed t ∈ ds → ∃ v, t = .succeed v) →
      (∃ n, ds.length + n ≤ 11 ∧ Errand.After (σ := σ) b app e o (Deeds.requests ds) n d) ∧ ∀ x ∈ ds, x.AtOnce σ := by
    intro ds d later more success
    have all := runs.trans later
    rw [worked, List.append_assoc] at all
    exact Errand.After.ended.runs (Errand.runs_after results all more) success
  obtain ⟨⟨r, stands, requests⟩, success⟩ := h.stands_since going split started runs
    (fun a ha => Machine.not_starting_of_moved before.reachable moved ha)
    (Machine.up_of_moved before.reachable moved) fun ds d later success mv g mem task =>
      (after ds d later (List.ne_nil_of_mem mem) success).2 _ mem mv g rfl task
  obtain ⟨x, d, hx, interpreted⟩ := h.history.interpreted spawned
  have acts : (Record.of (ms.flatMap Machine.record) q).acts = (Record.of (past.flatMap Machine.record) q).acts ++
      (Record.of ((m₁ :: during).flatMap Machine.record) q).acts := by
    rw [both, Deeds.acts, List.filter_append]
    rfl
  have passing : .moved ⟨.ofResult o, entered⟩ ∈ (Record.of ((m₁ :: during).flatMap Machine.record) q).acts :=
    List.mem_filter.2 ⟨Record.mem_of.2 (List.mem_flatMap.2 ⟨m₁, List.mem_cons_self, moved⟩), rfl⟩
  obtain ⟨⟨n, few, now⟩, -⟩ := after (Record.of ((m₁ :: during).flatMap Machine.record) q).acts d
    (runs.later (acts ▸ interpreted.runs)) (List.ne_nil_of_mem passing) fun t ht =>
      success t (List.mem_of_mem_filter ht)
  rw [Deeds.requests_acts, ← requests] at now
  exact ⟨r, x, d, n, stands, hx, interpreted, few, now⟩

/-- When the task of a command has come to an outcome, its worker is over with it. -/
theorem errand_over (h : Trail b m ms) (going : m.fault = none)
    (spawned : .spawned (e.order.worker app) ∈ Record.of (ms.flatMap Machine.record) q)
    {past during : List (Machine κ σ)} {m₁ : Machine κ σ} {o : Except (Value κ) (Value κ)}
    (split : ms = past ++ m₁ :: during) (ends : e.Ends b app q o past m₁) :
    e.Over b app q o m (m₁ :: during) (Record.of (ms.flatMap Machine.record) q) := by
  obtain ⟨r, x, d, n, stands, hx, interpreted, few, now⟩ := h.errand_since going spawned split ends
  refine ⟨?_, fun silent => ?_, fun m' hm u performed => ?_, ?_, fun alive => ?_, fun dead => ?_⟩
  -- A worker reports at most once, and nothing at all when the command is silent.
  · rcases now.requests with none | ⟨u, reports, one⟩
    · exact .inl (List.append_eq_nil_iff.1 none).1
    · rcases List.append_eq_singleton_iff.1 one with ⟨none, -⟩ | ⟨one, -⟩
      · exact .inl none
      · exact .inr ⟨u, reports, one⟩
  · rcases now.requests with none | ⟨u, ⟨a, w, given, -⟩, -⟩
    · exact (List.append_eq_nil_iff.1 none).1
    · cases silent.symm.trans given
  · have mem : m' ∈ ms := split ▸ List.mem_append_right _ hm
    exact Machine.record_of_send (h.reachable_of_mem mem) performed
  · exact (Nat.le_add_right _ n).trans few
  -- A worker that is alive either is awake or waits for a message, and on its way it never
  -- receives.
  · rw [World.isAlive_of_get? hx, Bool.not_eq_true'] at alive
    refine (stands.awake h.reachable.sound hx alive).resolve_right fun waits => ?_
    obtain ⟨c, root, -⟩ := waits
    exact now.ne_receive c _ (Doing.eq_of_ready (interpreted.fits_of_living alive) root)
  · rw [World.isAlive_of_get? hx, Bool.not_eq_false'] at dead
    obtain rfl := stands.eq_none_of_dead hx dead
    refine (interpreted.killed_or_exited dead).imp_right fun exited => ?_
    obtain ⟨o', rfl⟩ := exited
    have outcome := interpreted.runs.outcome?
    rw [Deeds.outcome?, Deeds.moves_acts, ← Deeds.outcome?] at outcome
    rw [Option.toList_none, List.append_nil] at now
    generalize (m₁ :: during).filterMap (Machine.performed? q) = performed at now
    cases now with
    | exited reports => exact .inl ⟨_, _, reports, rfl, outcome⟩
    | failed fails silent => exact .inr ⟨_, fails, silent, outcome⟩

/-- The worker of a command is at work on the task, or over with it. -/
theorem errand (h : Trail b m ms) (going : m.fault = none)
    (spawned : .spawned (e.order.worker app) ∈ Record.of (ms.flatMap Machine.record) q) :
    e.Proceeds b app q m ms := by
  obtain ⟨x, d, hx, interpreted⟩ := h.history.interpreted spawned
  have spared : (∀ o, d ≠ .exited o) →
      m.world.procs.isAlive q = true ∨ .killed ∈ Record.of (ms.flatMap Machine.record) q := fun on => by
    cases dead : x.isDead with
    | true => exact .inr ((interpreted.killed_or_exited dead).resolve_right fun exited => on _ exited.choose_spec)
    | false => exact .inl (by rw [World.isAlive_of_get? hx, dead]; rfl)
  have awake : ∀ t s, d = .task t s → (∀ c, t ≠ .receive c) → m.world.procs.isAlive q = true → m.Awake q := by
    rintro t s rfl ne alive
    rw [World.isAlive_of_get? hx, Bool.not_eq_true'] at alive
    refine (h.reachable.sound.awake hx (interpreted.fits_of_living alive).1).resolve_right fun waits => ?_
    exact ne _ waits.choose_spec.1
  rcases (e.opens app).split interpreted.runs with ⟨first, -, u, v, g, s, pushes, rfl⟩ | ⟨ds, acts, runs⟩
  · -- The worker has still to put handlers on the stack.
    refine .inl ⟨.inl first, fun there => .inl (awake u s rfl (fun c not => ?_) there), spared nofun⟩
    subst not
    cases pushes
  · rw [List.append_nil] at runs
    rcases runs.split with ⟨d', alone, on, rfl⟩ | ⟨work, o, x₁, es, rfl, results, rest⟩
    · refine .inl ⟨.inr ⟨ds, d', acts, alone, on⟩, fun there => ?_, spared fun o not => ?_⟩
      · by_cases ends : ∃ o, e.task.Results b ds o
        · -- The task has come to its outcome, which the worker is about to pass on.
          obtain ⟨o, results⟩ := ends
          obtain ⟨d₁, before, does⟩ := Doing.Runs.of_snoc results
          obtain ⟨s, rfl, -⟩ := does.of_exited
          obtain rfl := alone.unique before
          exact .inl (awake _ _ rfl (fun c not => by cases o <;> cases not) there)
        · exact .inr ⟨ds, acts, fun o results => ends ⟨o, results⟩⟩
      · cases d' with
        | exited o' => exact on o' rfl
        | _ => cases not
    · rw [← List.append_assoc] at acts
      obtain ⟨past, m₁, during, split, worked, mem⟩ := split_act acts
      obtain ⟨entered, rfl⟩ := rest.passes
      have ends : e.Ends b app q o past m₁ := ⟨⟨work, worked, results⟩, entered, mem⟩
      exact .inr ⟨past, m₁, during, o, split, ends, h.errand_over going spawned split ends⟩

end Trail

/-- A worker that has exited without having been killed has reported what has come of the task, or the command
is not to be heard of. -/
theorem Errand.Proceeds.exited {m : Machine κ σ} {ms : List (Machine κ σ)} {q app : Pid} {e : Errand κ}
    (h : e.Proceeds b app q m ms) (dead : m.world.procs.isAlive q = false)
    (spared : .killed ∉ Record.of (ms.flatMap Machine.record) q) :
    ∃ past m₁ during o, ms = past ++ m₁ :: during ∧ e.Ends b app q o past m₁ ∧
      ((∃ u, e.Reports b o u ∧ (m₁ :: during).filterMap (Machine.performed? q) = [.send app u]) ∨
        e.argument? o = none ∧ (m₁ :: during).filterMap (Machine.performed? q) = []) := by
  rcases h with working | ⟨past, m₁, during, o, split, ends, done⟩
  · have alive := working.alive.resolve_right spared
    rw [dead] at alive
    cases alive
  · refine ⟨past, m₁, during, o, split, ends, ?_⟩
    rcases (done.exits dead).resolve_left spared with ⟨u, -, reports, sent, -⟩ | ⟨-, -, silent, -⟩
    · exact .inl ⟨u, reports, sent⟩
    · exact .inr ⟨silent, done.silent silent⟩

end Actors
