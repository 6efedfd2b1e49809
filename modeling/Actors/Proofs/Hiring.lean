/-
The built-in manager and its workers.

For every command the built-in manager starts a process, a worker. It does so one command after the other, and
what it does with a set of effects is over when the last worker has been started: no worker is waited for,
whatever becomes of it. All its bindings are starts of processes, whose work is done at once.

* `Manager.jobs` — the tasks of the workers for a message;
* `Manager.Hires` — the task of a handler, while workers are started;
* `Manager.Course.hires` — what a whole manager has started;
* `Machine.Hires`, `Trail.hires` — the manager in a run.
-/
import Actors.Proofs.Cancellation
import Actors.Proofs.Orders
import Actors.Proofs.Prompt
import Actors.Proofs.Serving

namespace Actors

variable {κ σ : Type} {b : Behaviour κ σ}

open Procedure

/-! ### Bindings whose work is done at once -/

/-- A deed that begins no binding, or one whose work is done at once. -/
def Deed.AtOnce (σ : Type) (e : Deed κ) : Prop :=
  ∀ mv g, e = .moved mv → mv.task = .native g → g.request? (σ := σ) ≠ none

theorem Deed.atOnce_of_plain {e : Deed κ} (h : ∀ mv g, e = .moved mv → mv.task ≠ .native g) : e.AtOnce σ :=
  fun mv g he task => absurd task (h mv g he)

/-- A process with nothing but an outcome exits. -/
theorem Doing.Runs.of_outcome {o : Except (Value κ) (Value κ)} {ds : Deeds κ} {d : Doing κ}
    (h : (Doing.task (.ofResult o) []).Runs b ds d) :
    (ds = [] ∧ d = .task (.ofResult o) []) ∨ ds = [.moved ⟨.ofResult o, none⟩] ∧ d = .exited o := by
  rcases h.head with none | ⟨e, es, d', rfl, does, rest⟩
  · exact .inl none
  · have next : Handler.next o [] = (none : Option (Callback κ × List (Handler κ))) := by cases o <;> rfl
    obtain ⟨rfl, rfl⟩ := does.of_next_none next
    obtain ⟨rfl, rfl⟩ := rest.of_exited
    exact .inr ⟨rfl, rfl⟩

/-- An outcome comes to itself. -/
theorem Task.Results.of_outcome {o o' : Except (Value κ) (Value κ)} {work : Deeds κ}
    (h : (Task.ofResult o).Results b work o') : work = [] ∧ o' = o := by
  rcases Doing.Runs.of_outcome h with ⟨not, -⟩ | ⟨one, same⟩
  · cases (List.append_eq_nil_iff.1 not).2
  · have one : work ++ [_] = [] ++ [_] := one
    exact ⟨(List.append_inj' one rfl).1, Doing.exited.inj same⟩

namespace Manager

/-! ### The task of a handler -/

/-- The tasks of the workers that the built-in manager starts for a message. -/
def jobs (app : Pid) : Value κ → List (Task κ)
  | .effects cmds _ =>
    match tasksOf cmds with
    | .ok ts => ts.map (worker app)
    | .error _ => []
  | _ => []

theorem tasksOf_orders (os : List (Order κ)) : tasksOf (os.map Order.command) = .ok (os.map Order.tagged) := by
  induction os with
  | nil => rfl
  | cons o os ih =>
    rw [List.map_cons, List.map_cons, tasksOf, ih]
    rfl

/-- For each command there is a worker. -/
theorem jobs_orders (app : Pid) (os : List (Order κ)) (subs : List (Value κ)) :
    jobs app (.effects (os.map Order.command) subs) = os.map (Order.worker app) := by
  rw [jobs, tasksOf_orders]
  exact List.map_map

/-- The tasks that start processes. -/
def starts (ts : List (Task κ)) : List (Task κ) :=
  ts.map fun t => .native (.spawn t)

/-- The task that starts processes, and then goes on with a state. -/
def hiring (ts : List (Task κ)) (s : Value κ) : Task κ :=
  .andThen (Task.sequence (starts ts)) (.replace s)

/-- What the built-in manager does with a set of effects. -/
theorem returns_effects {r : Router} {cmds subs : List (Value κ)} {s : Value κ} {t : Task κ}
    (h : (b.code (.managerEffects ⟨.tasks, r⟩ cmds subs s)).Returns t) :
    t = hiring (jobs r.app (.effects cmds subs)) s := by
  change Code.Returns (Act.map _ (Act.ofExcept (tasksOf cmds))) t at h
  cases ht : tasksOf cmds with
  | error f =>
    rw [ht] at h
    cases h
  | ok ts =>
    rw [ht] at h
    rw [Code.returns_ret h, jobs, ht, hiring, starts, List.map_map]
    rfl

/-- What the built-in manager does with a message. -/
theorem Handles.hiring {r : Router} {s v : Value κ} {call : Call κ} {t : Task κ}
    (h : Handles b ⟨.tasks, r⟩ s v call t) :
    t = Manager.hiring (jobs r.app v) s ∨ t = .succeed s ∧ jobs r.app v = [] := by
  have same : ∀ {s' : Value κ}, s.coerce .unit = .ok s' → s' = s := by
    intro s' coerce
    unfold Value.coerce at coerce
    split at coerce
    · exact (Except.ok.inj coerce).symm
    · cases coerce
  cases h with
  | effects coerce returns =>
    obtain rfl := same coerce
    exact .inl (returns_effects returns)
  | internal coerce returns =>
    obtain rfl := same coerce
    exact .inr ⟨Code.returns_ret returns, rfl⟩

/-- What the manager is doing while it handles a message, with the workers that it has still to start. -/
inductive Hires (s : Value κ) : List (Task κ) → Doing κ → Prop where
  | fresh (ts : List (Task κ)) : Hires s ts (.task (hiring ts s) [])
  | next (ts : List (Task κ)) (done : List (Value κ)) :
      Hires s ts (.task (Task.collect (starts ts) done) [.onSuccess (.replace s)])
  | first (t : Task κ) (ts : List (Task κ)) (done : List (Value κ)) :
      Hires s (t :: ts) (.task (.native (.spawn t)) [.onSuccess (.collect (starts ts) done), .onSuccess (.replace s)])
  | starting (t : Task κ) (ts : List (Task κ)) (done : List (Value κ)) :
      Hires s ts (.binding (.spawn t) [.onSuccess (.collect (starts ts) done), .onSuccess (.replace s)])
  | started (v : Value κ) (ts : List (Task κ)) (done : List (Value κ)) :
      Hires s ts (.task (.succeed v) [.onSuccess (.collect (starts ts) done), .onSuccess (.replace s)])
  | collecting (v : Value κ) (ts : List (Task κ)) (done : List (Value κ)) :
      Hires s ts (.call (.collect (starts ts) done) v [.onSuccess (.replace s)])
  | replacing (v : Value κ) : Hires s [] (.call (.replace s) v [])
  | settled : Hires s [] (.task (.succeed s) [])
  | exited : Hires s [] (.exited (.ok s))

/-- The requests with which processes are started. -/
def spawns (σ : Type) (ts : List (Task κ)) : List (Request κ σ) :=
  ts.map .spawn

namespace Hires

variable {s : Value κ} {ts : List (Task κ)} {d d' : Doing κ} {e : Deed κ} {ds : Deeds κ}

/-- The manager starts the workers one after the other, and each of them once. -/
theorem does (h : Hires s ts d) (does : d.Does b e d') (success : ∀ t, e = .completed t → ∃ v, t = .succeed v) :
    ∃ ts', Hires s ts' d' ∧ Deeds.requests [e] ++ spawns σ ts' = spawns σ ts ∧ e.AtOnce σ := by
  have plain : ∀ {t : Task κ} {o : Option (Callback κ × Value κ)}, (∀ g, t ≠ .native g) →
      Deed.AtOnce σ (.moved ⟨t, o⟩) := by
    intro t o not mv g he task
    obtain rfl := Deed.moved.inj he
    exact absurd task (not g)
  have returned : ∀ t : Task κ, Deed.AtOnce σ (.returned t) := fun t mv g he => by cases he
  -- The requests that are left shrink in one place only, where a worker is started.
  cases h with
  | fresh ts =>
    obtain ⟨rfl, rfl⟩ := does.of_pushes (.andThen _ _)
    exact ⟨ts, .next ts [], rfl, plain fun g not => by cases not⟩
  | next ts done =>
    cases ts with
    | nil =>
      obtain ⟨rfl, rfl⟩ := does.of_next (o := .ok (.list done)) rfl
      exact ⟨[], .replacing _, rfl, plain fun g not => by cases not⟩
    | cons t ts =>
      obtain ⟨rfl, rfl⟩ := does.of_pushes (.andThen _ _)
      exact ⟨t :: ts, .first t ts done, rfl, plain fun g not => by cases not⟩
  | first t ts done =>
    obtain ⟨rfl, rfl⟩ := does.of_native
    refine ⟨ts, .starting t ts done, rfl, fun mv g he task => ?_⟩
    obtain rfl := Deed.moved.inj he
    obtain rfl := Task.native.inj task
    exact fun not => by cases not
  | starting t ts done =>
    cases does with
    | completed g t' s' =>
      obtain ⟨v, rfl⟩ := success t' rfl
      exact ⟨ts, .started v ts done, rfl, fun mv g he => by cases he⟩
  | started v ts done =>
    obtain ⟨rfl, rfl⟩ := does.of_next (o := .ok v) rfl
    exact ⟨ts, .collecting v ts done, rfl, plain fun g not => by cases not⟩
  | collecting v ts done =>
    obtain ⟨t, brings, rfl, rfl⟩ := does.of_call
    obtain rfl := brings.of_ret
    exact ⟨ts, .next ts _, rfl, returned _⟩
  | replacing v =>
    obtain ⟨t, brings, rfl, rfl⟩ := does.of_call
    obtain rfl := brings.of_ret
    exact ⟨[], .settled, rfl, returned _⟩
  | settled =>
    obtain ⟨rfl, rfl⟩ := does.of_next_none (o := .ok s) rfl
    exact ⟨[], .exited, rfl, plain fun g not => by cases not⟩
  | exited => cases does

theorem runs (h : Hires s ts d) (runs : d.Runs b ds d') (success : ∀ t, .completed t ∈ ds → ∃ v, t = .succeed v) :
    ∃ ts', Hires s ts' d' ∧ Deeds.requests ds ++ spawns σ ts' = spawns σ ts ∧ ∀ e ∈ ds, e.AtOnce σ := by
  induction runs with
  | refl => exact ⟨ts, h, rfl, fun e he => by cases he⟩
  | snoc _ does ih =>
    obtain ⟨ts', h', before, atOnce⟩ := ih fun t ht => success t (List.mem_append_left _ ht)
    obtain ⟨ts'', h'', now, one⟩ := h'.does does fun t ht => success t (List.mem_append_right _ (by simp [ht]))
    refine ⟨ts'', h'', ?_, List.forall_mem_append.2 ⟨atOnce, List.forall_mem_singleton.2 one⟩⟩
    rw [Deeds.requests_append, List.append_assoc, now, before]

/-- The manager begins to handle a message. -/
theorem of_handles {r : Router} {v : Value κ} {call : Call κ} {t : Task κ}
    (h : Handles b ⟨.tasks, r⟩ s v call t) : Hires s (jobs r.app v) (.task t []) := by
  rcases h.hiring with rfl | ⟨rfl, none⟩
  · exact .fresh _
  · exact none ▸ .settled

/-- While it does so it takes no message. -/
theorem on_ne_receive (h : Hires s ts d) (going : ∀ o, d ≠ .exited o) (base : List (Handler κ)) (c : Callback κ)
    (hs : List (Handler κ)) : d.on base ≠ .task (.receive c) hs := by
  intro not
  cases h with
  | next ts done => cases ts <;> cases not
  | exited => exact going _ rfl
  | _ => cases not

/-- The task of a handler succeeds when all workers have been started. -/
theorem results {r : Router} {v : Value κ} {call : Call κ} {t : Task κ} {work : Deeds κ}
    {o : Except (Value κ) (Value κ)} (h : Handles b ⟨.tasks, r⟩ s v call t) (results : t.Results b work o)
    (success : ∀ t, .completed t ∈ work → ∃ v, t = .succeed v) :
    o = .ok s ∧ Deeds.requests work = spawns σ (jobs r.app v) ∧ ∀ e ∈ work, e.AtOnce σ := by
  obtain ⟨ts, hires, all, atOnce⟩ := (of_handles h).runs results fun t ht =>
    (List.mem_append.1 ht).elim (success t) fun last => by cases List.mem_singleton.1 last
  obtain ⟨before, -⟩ := List.forall_mem_append.1 atOnce
  cases hires
  have last : Deeds.requests [.moved ⟨.ofResult (.ok s), none⟩] = ([] : List (Request κ σ)) := rfl
  rw [Deeds.requests_append, last, List.append_nil] at all
  exact ⟨rfl, (List.append_nil _).symm.trans all, before⟩

end Hires

/-! ### The loop -/

/-- The tasks of the workers for the messages of turns. -/
def jobsOf (app : Pid) (turns : List (Value κ × Value κ)) : List (Task κ) :=
  turns.flatMap fun a => jobs app a.2

/-- What the built-in manager has done in its turns: it has begun only bindings that start workers, and
`rest` are the workers of the last turn that it has still to start. -/
structure Hired (σ : Type) (app : Pid) (turns : List (Value κ × Value κ)) (ds : Deeds κ) (d : Doing κ)
    (rest : List (Task κ)) : Prop where
  requests : Deeds.requests ds ++ spawns σ rest = spawns σ (jobsOf app turns)
  atOnce : ∀ e ∈ ds, e.AtOnce σ
  /-- When the manager waits for a message it has started them all. -/
  none : ∀ c s, d = .task (.receive c) s → rest = []

section

variable {r : Router} {s : Value κ} {turns : List (Value κ × Value κ)} {failure : Option (Value κ)} {ds : Deeds κ}
  {d : Doing κ}

/-- The beginning of a turn starts no worker. -/
theorem beginning_plain (m : Post κ) (s v : Value κ) (t : Task κ) :
    Deeds.requests (beginning m s v t) = ([] : List (Request κ σ)) ∧ ∀ e ∈ beginning m s v t, e.AtOnce σ := by
  refine ⟨rfl, fun e he => Deed.atOnce_of_plain fun mv g same task => ?_⟩
  simp only [beginning, take, polling, guarded, List.mem_cons, List.not_mem_nil, or_false] at he
  rcases he with rfl | rfl | rfl | rfl <;> cases same <;> cases task

theorem ending_plain (m : Post κ) (s : Value κ) :
    Deeds.requests (ending m s) = ([] : List (Request κ σ)) ∧ ∀ e ∈ ending m s, e.AtOnce σ := by
  refine ⟨rfl, fun e he => Deed.atOnce_of_plain fun mv g same task => ?_⟩
  simp only [ending, List.mem_cons, List.not_mem_nil, or_false] at he
  rcases he with rfl | rfl
  · cases same
    cases task
  · cases same

/-- In a whole turn the manager starts the workers of its message. -/
theorem turn_hires {v : Value κ} {call : Call κ} {t : Task κ} {work : Deeds κ} {o : Except (Value κ) (Value κ)}
    (handles : Handles b ⟨.tasks, r⟩ s v call t) (results : t.Results b work o)
    (success : ∀ t', .completed t' ∈ beginning ⟨.tasks, r⟩ s v t ++ work → ∃ v, t' = .succeed v) :
    o = .ok s ∧ Deeds.requests (beginning ⟨.tasks, r⟩ s v t ++ work) = spawns σ (jobs r.app v) ∧
      ∀ e ∈ beginning ⟨.tasks, r⟩ s v t ++ work, e.AtOnce σ := by
  obtain ⟨none, atOnce⟩ := beginning_plain (σ := σ) ⟨.tasks, r⟩ s v t
  obtain ⟨ok, requests, atOnce'⟩ := Hires.results (σ := σ) handles results fun t ht =>
    success t (List.mem_append_right _ ht)
  refine ⟨ok, ?_, List.forall_mem_append.2 ⟨atOnce, atOnce'⟩⟩
  rw [Deeds.requests_append, none, List.nil_append, requests]

/-- The manager never fails, and in its turns it starts the workers of their messages. -/
theorem Loop.hired (h : Loop b ⟨.tasks, r⟩ s turns failure ds d)
    (success : ∀ t, .completed t ∈ ds → ∃ v, t = .succeed v) :
    failure = .none ∧ ∃ rest, Hired σ r.app turns ds d rest := by
  have one : ∀ s v : Value κ, jobsOf r.app [(s, v)] = jobs r.app v := fun s v => List.append_nil _
  -- Until its task is under way a turn has started no worker.
  have early : ∀ (s v : Value κ) (t : Task κ) (es : Deeds κ), es <+: Manager.beginning ⟨.tasks, r⟩ s v t →
      (∀ c hs, d ≠ .task (.receive c) hs) → Hired σ r.app [(s, v)] es d (jobs r.app v) := by
    intro s v t es first waits
    obtain ⟨none, atOnce⟩ := beginning_plain (σ := σ) ⟨.tasks, r⟩ s v t
    refine ⟨?_, fun e he => atOnce e (first.subset he), fun c hs not => absurd not (waits c hs)⟩
    obtain ⟨later, all⟩ := first
    rw [← all, Deeds.requests_append] at none
    rw [(List.append_eq_nil_iff.1 none).1, one]
    rfl
  induction h with
  | waiting s => exact ⟨rfl, [], rfl, (fun e he => by cases he), fun _ _ _ => rfl⟩
  | entered s v => exact ⟨rfl, _, early s v (.succeed v) _ (List.prefix_append _ _) fun c hs not => by cases not⟩
  | @answered s v call t handles =>
    exact ⟨rfl, _, early s v t _ (List.prefix_append _ _) fun c hs not => by cases not⟩
  | @guarding s v call t handles =>
    exact ⟨rfl, _, early s v t _ (List.prefix_append _ _) fun c hs not => by cases not⟩
  | @working s v call t handles work d runs going =>
    obtain ⟨none, atOnce⟩ := beginning_plain (σ := σ) ⟨.tasks, r⟩ s v t
    obtain ⟨ts, hires, requests, atOnce'⟩ := (Hires.of_handles handles).runs (σ := σ) runs fun t ht =>
      success t (List.mem_append_right _ ht)
    refine ⟨rfl, ts, ?_, List.forall_mem_append.2 ⟨atOnce, atOnce'⟩, fun c hs not => ?_⟩
    · rw [Deeds.requests_append, none, List.nil_append, requests, one]
    · exact absurd not (hires.on_ne_receive going _ c hs)
  | @succeeded s v s' call t handles work results =>
    obtain ⟨-, requests, atOnce⟩ := turn_hires (σ := σ) handles results fun t ht =>
      success t (List.mem_append_left _ ht)
    refine ⟨rfl, [], ?_, List.forall_mem_append.2 ⟨atOnce, List.forall_mem_singleton.2 ?_⟩, fun c hs not => by cases not⟩
    · rw [Deeds.requests_append, requests, one]
      exact (List.append_nil _).trans (List.append_nil _)
    · refine Deed.atOnce_of_plain fun mv g same task => ?_
      cases same
      cases task
  | @next s v s' call t handles work results turns failure ds d rest ih =>
    obtain ⟨-, requests, atOnce⟩ := turn_hires (σ := σ) handles results fun t ht =>
      success t (List.mem_append_left _ ht)
    obtain ⟨none, atOnce'⟩ := ending_plain (σ := σ) ⟨.tasks, r⟩ s'
    obtain ⟨rfl, rest, hired⟩ := ih (fun t ht => success t (List.mem_append_right _ (List.mem_append_right _ ht))) early
    refine ⟨rfl, rest, ?_, List.forall_mem_append.2 ⟨atOnce, List.forall_mem_append.2 ⟨atOnce', hired.atOnce⟩⟩,
      hired.none⟩
    rw [Deeds.requests_append, requests, Deeds.requests_append, none, List.nil_append, List.append_assoc,
      hired.requests]
    exact List.map_append.symm
  | @failed s v e call t handles work results ds d exit =>
    obtain ⟨not, -⟩ := turn_hires (σ := σ) handles results fun t ht => success t (List.mem_append_left _ ht)
    cases not

/-- What the built-in manager has done, from its start on. -/
theorem Course.hired (h : Course b ⟨.tasks, r⟩ (.succeed .unit) turns failure ds d)
    (success : ∀ t, .completed t ∈ ds → ∃ v, t = .succeed v) :
    failure = none ∧ ∃ rest, Hired σ r.app turns ds d rest := by
  have plain : ∀ (t : Task κ) (o : Option (Callback κ × Value κ)), (∀ g, t ≠ .native g) →
      Deed.AtOnce σ (.moved ⟨t, o⟩) := fun t o not mv g he task => by
    obtain rfl := Deed.moved.inj he
    exact absurd task (not g)
  have push := plain (.andThen (.succeed .unit) (.managerReady ⟨.tasks, r⟩)) .none fun g not => by cases not
  have done := plain (.succeed .unit) (some (.managerReady ⟨.tasks, r⟩, .unit)) fun g not => by cases not
  -- The start of this manager succeeds at once, so what it has done before the loop are two plain
  -- deeds.
  cases h with
  | fresh => exact ⟨rfl, [], rfl, (fun e he => by cases he), fun c hs not => by cases not⟩
  | opening runs going =>
    rcases runs.of_outcome (o := .ok .unit) with ⟨rfl, rfl⟩ | ⟨-, rfl⟩
    · exact ⟨rfl, [], rfl, List.forall_mem_singleton.2 push, fun c hs not => by cases not⟩
    · exact absurd rfl (going _)
  | ready results =>
    obtain ⟨rfl, same⟩ := Task.Results.of_outcome (o := .ok .unit) results
    obtain rfl := Except.ok.inj same
    exact ⟨rfl, [], rfl, List.forall_mem_cons.2 ⟨push, List.forall_mem_singleton.2 done⟩, fun c hs not => by cases not⟩
  | loop results rest =>
    obtain ⟨rfl, same⟩ := Task.Results.of_outcome (o := .ok .unit) results
    obtain rfl := Except.ok.inj same
    obtain ⟨rfl, rest, hired⟩ := rest.hired (σ := σ) fun t ht => success t (by simp [ht])
    refine ⟨rfl, rest, hired.requests, ?_, hired.none⟩
    refine List.forall_mem_cons.2 ⟨push, List.forall_mem_cons.2 ⟨done, List.forall_mem_cons.2 ⟨?_, hired.atOnce⟩⟩⟩
    exact fun mv g not => by cases not
  | failed results =>
    obtain ⟨-, not⟩ := Task.Results.of_outcome (o := .ok .unit) results
    cases not

end

/-! ### All its tasks -/

/-- The tasks of the built-in manager. -/
inductive Crew : Task κ → Prop where
  | succeed (v : Value κ) : Crew (.succeed v)
  | start (t : Task κ) : Crew (.native (.spawn t))
  | collecting (t : Task κ) (ts : List (Task κ)) (done : List (Value κ)) :
      Crew (.andThen (.native (.spawn t)) (.collect (starts ts) done))
  | hiring (ts : List (Task κ)) (s : Value κ) : Crew (hiring ts s)

theorem crew_collect (ts : List (Task κ)) (done : List (Value κ)) : Crew (Task.collect (starts ts) done) := by
  cases ts with
  | nil => exact .succeed _
  | cons t ts => exact .collecting t ts done

/-- The built-in manager takes messages in its loop only. -/
theorem crew_deaf (r : Router) : Deaf b ⟨.tasks, r⟩ Crew where
  silent c h := by cases h
  pushes := by
    intro u t h pushes hu
    cases hu with
    | collecting t' ts done =>
      cases pushes with
      | andThen =>
        refine ⟨.start t', (fun m s not => by cases not), fun v t brings => ?_⟩
        exact brings.of_ret ▸ crew_collect ts (done ++ [v])
    | hiring ts s =>
      cases pushes with
      | andThen =>
        refine ⟨crew_collect ts [], (fun m s not => by cases not), fun v t brings => ?_⟩
        exact brings.of_ret ▸ .succeed s
    | _ => cases pushes
  init t h := Code.returns_ret h ▸ .succeed _
  effects cmds subs s t h := returns_effects h ▸ .hiring _ s
  message v s t h := Code.returns_ret h ▸ .succeed s

end Manager

/-! ### Runs -/

namespace Machine

/-- The process that the next step starts as the work of a binding of another process, and its task. -/
def hire? (p : Pid) (m : Machine κ σ) : Option (Pid × Task κ) :=
  match m.performed? p with
  | some (.spawn t) => m.reserved?.map (·, t)
  | _ => none

/-- A worker is started under the next name. -/
theorem hire?_of_performed {m : Machine κ σ} {p : Pid} {t : Task κ} (run : Reachable b m)
    (going : (m.step b).fault = none) (h : m.performed? p = some (.spawn t)) :
    ∃ q, m.hire? p = some (q, t) ∧ m.record = [(q, .spawned t)] := by
  have here := run.reachable_of_performed h
  obtain ⟨-, top⟩ := eq_of_performed? h
  obtain ⟨α, w, fr, k, s, rfl⟩ := eq_of_directive? top
  dsimp only at here
  cases hs : w.spawn t with
  | error f =>
    have broken : (Machine.step b ⟨w, fr.fill (.run (.op (.request (.spawn t)) k)) :: s, none⟩).fault = some f := by
      rw [fr.step_op]
      simp only [stepCode, Directive.step, Request.step, if_pos here, hs]
    cases going.symm.trans broken
  | ok e =>
    obtain ⟨q, w'⟩ := e
    obtain ⟨w₁, reserve, -⟩ := World.spawn_eq hs
    refine ⟨q, ?_, ?_⟩
    · rw [hire?, h]
      show (Option.bind _ _).map _ = _
      rw [top, Option.bind_some, Directive.reserved?, if_pos here, World.fresh?_of_reserve reserve]
      rfl
    · rw [record_of_directive? top, Directive.record, Request.record, if_pos here, reserve]

theorem hire?_eq_some {m : Machine κ σ} {p q : Pid} {t : Task κ} (h : m.hire? p = some (q, t)) :
    m.performed? p = some (.spawn t) ∧ m.reserved? = some q := by
  unfold hire? at h
  split at h
  · next t' performed =>
    obtain ⟨q', hq, same⟩ := Option.map_eq_some_iff.1 h
    obtain ⟨rfl, rfl⟩ := Prod.mk.inj same
    exact ⟨performed, hq⟩
  · cases h

end Machine

/-- The processes that a process has started by bindings, each with its task. -/
def hired (p : Pid) (ms : List (Machine κ σ)) : List (Pid × Task κ) :=
  ms.filterMap (Machine.hire? p)

/-- The built-in manager in a run: for a program with this main process it has started workers. -/
structure Machine.Hires (app p : Pid) (m : Machine κ σ) (ms : List (Machine κ σ)) : Prop where
  /-- For each command of the messages that have arrived one worker is started, in this order. -/
  inOrder : (hired p ms).map Prod.snd <+:
    (Record.of (ms.flatMap Machine.record) p).accepted.flatMap (Manager.jobs app)
  /-- As long as the manager is alive it is never held up before it has started them all. -/
  all : m.world.procs.isAlive p = true → m.Awake p ∨ (hired p ms).map Prod.snd =
    (Record.of (ms.flatMap Machine.record) p).accepted.flatMap (Manager.jobs app)
  /-- It awaits nothing but the start of a worker, which is under way then. -/
  up : (∀ a ∈ m.stack, a.starting? ≠ some p) → m.world.Up p
  ascending : ((hired p ms).map Prod.fst).Pairwise fun q q' => q.number < q'.number
  started : ∀ e ∈ hired p ms, .spawned e.2 ∈ Record.of (ms.flatMap Machine.record) e.1
  /-- It does not exit. -/
  stays : (Record.of (ms.flatMap Machine.record) p).outcome? = none

namespace Trail

variable {m : Machine κ σ} {ms : List (Machine κ σ)} {p : Pid}

/-- No step of a run has broken a contract if the run goes on. -/
theorem going_of_mem (h : Trail b m ms) (going : m.fault = none) : ∀ m' ∈ ms, (m'.step b).fault = none := by
  induction h with
  | new => exact fun m' hm => by cases hm
  | load code _ _ hf ih => exact ih hf
  | step _ ih =>
    exact List.forall_mem_append.2 ⟨ih (Machine.going_of_step going), List.forall_mem_singleton.2 going⟩

/-- Processes are started under ascending names. -/
theorem hired_ascending (h : Trail b m ms) (p : Pid) :
    ((hired p ms).map Prod.fst).Pairwise fun q q' => q.number < q'.number := by
  have sub : ((hired p ms).map Prod.fst).Sublist (ms.filterMap Machine.reserved?) := by
    clear h
    induction ms with
    | nil => exact List.Sublist.refl _
    | cons m ms ih =>
      cases hm : m.hire? p with
      | none =>
        rw [hired, List.filterMap_cons_none hm, List.filterMap_cons]
        split
        · exact ih
        · exact ih.cons _
      | some e =>
        rw [hired, List.filterMap_cons_some hm, List.filterMap_cons_some (Machine.hire?_eq_some hm).2]
        exact ih.cons_cons _
  refine List.Pairwise.sublist sub ?_
  rw [h.reserved.2]
  exact List.pairwise_map.2 List.pairwise_lt_range'

theorem hired_started (h : Trail b m ms) (going : m.fault = none) :
    ∀ e ∈ hired p ms, .spawned e.2 ∈ Record.of (ms.flatMap Machine.record) e.1 := by
  rintro ⟨q, t⟩ he
  obtain ⟨m', hm, hire⟩ := List.mem_filterMap.1 he
  obtain ⟨q', hq, record⟩ := Machine.hire?_of_performed (h.reachable_of_mem hm) (h.going_of_mem going m' hm)
    (Machine.hire?_eq_some hire).1
  obtain rfl : q = q' := congrArg Prod.fst (Option.some.inj (hire.symm.trans hq))
  exact Record.mem_of.2 (List.mem_flatMap.2 ⟨m', hm, record ▸ List.mem_singleton.2 rfl⟩)

/-- If a process performs only starts of processes, these are the processes that it starts. -/
theorem hired_performed (h : Trail b m ms) (going : m.fault = none)
    (only : ∀ r ∈ ms.filterMap (Machine.performed? p), ∃ t, r = .spawn t) :
    Manager.spawns σ ((hired p ms).map Prod.snd) = ms.filterMap (Machine.performed? p) := by
  rw [Manager.spawns, hired, List.map_map, List.map_filterMap]
  refine List.filterMap_congr fun m' hm => ?_
  cases performed : m'.performed? p with
  | none => rw [Machine.hire?, performed]; rfl
  | some r =>
    obtain ⟨t, rfl⟩ := only r (List.mem_filterMap.2 ⟨m', hm, performed⟩)
    obtain ⟨q, hq, -⟩ := Machine.hire?_of_performed (h.reachable_of_mem hm) (h.going_of_mem going m' hm) performed
    rw [hq]
    rfl

/-- The built-in manager starts one worker for each command that it is sent, in the order of the commands and
under ascending names. It waits for none of them, so as long as it is alive nothing keeps it from starting the
others, and it never exits. -/
theorem hires (h : Trail b m ms) (going : m.fault = none) {r : Router}
    (spawned : .spawned (.andThen (.succeed .unit) (.managerReady ⟨.tasks, r⟩)) ∈
      Record.of (ms.flatMap Machine.record) p) : m.Hires r.app p ms := by
  obtain ⟨⟨o, stands, requests⟩, successes⟩ := h.stands going spawned fun ds d runs success mv g moved task => by
    obtain ⟨turns, failure, course⟩ := Manager.course_of_runs runs
    obtain ⟨-, rest, hired⟩ := course.hired (σ := σ) success
    exact hired.atOnce _ moved mv g rfl task
  have init : (b.code (.managerInit ⟨.tasks, r⟩)).Returns (.succeed .unit) := .ret _
  obtain ⟨turns, failure, d, served⟩ := h.serves (Manager.crew_deaf r) init spawned fun t ht => by
    obtain ⟨v, rfl⟩ := successes t ht
    exact .succeed v
  obtain ⟨rfl, rest, staffed⟩ := served.course.hired (σ := σ) fun t ht => successes t (List.mem_of_mem_filter ht)
  -- What is performed, what is about to be performed, and what is left are the workers for the turns.
  have all : ms.filterMap (Machine.performed? p) ++ (o.toList ++ Manager.spawns σ rest) =
      Manager.spawns σ (Manager.jobsOf r.app turns) := by
    rw [← List.append_assoc, requests, ← staffed.requests, Deeds.requests_acts]
  obtain ⟨workers, first, performed⟩ := List.prefix_map_iff.1 (all ▸ List.prefix_append _ _)
  have hired : (hired p ms).map Prod.snd = workers := by
    have same := h.hired_performed (p := p) going fun r' hr => by
      rw [performed] at hr
      obtain ⟨t, -, rfl⟩ := List.mem_map.1 hr
      exact ⟨t, rfl⟩
    exact List.map_injective_iff.2 (fun t t' => Request.spawn.inj) (same.trans performed)
  have jobs : Manager.jobsOf r.app turns = (turns.map Prod.snd).flatMap (Manager.jobs r.app) := by
    rw [List.flatMap_map]
    rfl
  refine ⟨?_, fun alive => ?_, stands.up, h.hired_ascending p, h.hired_started going, served.going rfl⟩
  · obtain ⟨later, accepted⟩ := served.messages.2
    rw [hired, ← accepted, List.flatMap_append, ← jobs]
    exact first.trans (List.prefix_append _ _)
  · obtain ⟨x, hx, fits⟩ := served.fits
    have living : x.isDead = false := by
      rw [World.isAlive_of_get? hx, Bool.not_eq_true'] at alive
      exact alive
    by_cases busy : ∃ a ∈ m.stack, a.starting? = some p
    · exact .inl (.inr (.inr (.inr busy)))
    refine (stands.awake h.reachable.sound hx living).imp_right fun resting => ?_
    obtain ⟨c, root, empty⟩ := resting
    obtain ⟨fits, accepted⟩ := fits living
    obtain rfl : o = none := stands.eq_none fun a ha work => busy ⟨a, ha, work⟩
    obtain rfl : rest = [] := by
      cases d with
      | task t s => exact staffed.none c s (by rw [Root.ready.inj (root.symm.trans fits.1)])
      | call => cases root.symm.trans fits.1
      | binding =>
        obtain ⟨⟨n, c', awaiting⟩, -⟩ := fits
        cases root.symm.trans awaiting
      | exited => exact fits.elim
    have whole : ms.filterMap (Machine.performed? p) = Manager.spawns σ (Manager.jobsOf r.app turns) := by
      rw [← all]
      exact (List.append_nil _).symm
    have same : workers = Manager.jobsOf r.app turns :=
      List.map_injective_iff.2 (fun t t' => Request.spawn.inj) (performed.symm.trans whole)
    rw [empty, List.append_nil] at accepted
    rw [hired, same, jobs, accepted]

end Trail

end Actors
