/-
Situations that look the same.

Of what a process does little can be seen: the bindings that it begins, the messages that it takes, the
completions of its bindings, and its outcome. Two situations are equal if whatever is done in one of them can
be done in the other one, with the same sights, so that the situations are equal again. They may differ in
what is on the stack, and in how many steps lie between two sights.

What is below a task on the stack is met by the outcome of the task only. So two stacks on which all outcomes
are equal may stand for one another below every task, whatever the task does.

* `Sight`, `Deeds.sights` — what can be seen;
* `Doing.Equal` — equal situations, an equivalence that runs keep to;
* `Doing.Equal.of_silent` — a step that cannot be seen, and is the only one;
* `Doing.Equal.on_outcomes`, `Doing.Equal.on` — equal stacks below a task;
* `Task.Equal` — tasks that are equal on every stack.
-/
import Actors.Proofs.Doing
import Actors.Proofs.Purity

namespace Actors

variable {κ σ : Type} {b : Behaviour κ σ}

/-! ### Sights -/

/-- What can be seen of a process: it begins a binding, it takes a message, its binding is completed, or it
exits with an outcome. -/
inductive Sight (κ : Type) where
  | begins (g : Binding κ)
  | takes (v : Value κ)
  | resumes (t : Task κ)
  | ends (o : Except (Value κ) (Value κ))

/-- What can be seen of a deed. -/
def Deed.sight? : Deed κ → Option (Sight κ)
  | .completed t => some (.resumes t)
  | .moved ⟨.native g, _⟩ => some (.begins g)
  | .moved ⟨.receive _, some (_, v)⟩ => some (.takes v)
  | .moved ⟨.succeed v, none⟩ => some (.ends (.ok v))
  | .moved ⟨.fail v, none⟩ => some (.ends (.error v))
  | _ => none

/-- What can be seen of deeds, in order. -/
def Deeds.sights (ds : Deeds κ) : List (Sight κ) :=
  ds.filterMap Deed.sight?

theorem Deeds.sights_append (ds es : Deeds κ) : sights (ds ++ es) = ds.sights ++ es.sights :=
  List.filterMap_append

theorem Deeds.sights_singleton (e : Deed κ) : sights [e] = e.sight?.toList := by
  rw [sights, List.filterMap_cons]
  cases e.sight? <;> rfl

/-! ### Equal situations -/

namespace Doing

/-- A relation along which everything that is done on the left can be done on the right, with what can be
seen of it. -/
def Simulates (b : Behaviour κ σ) (R : Doing κ → Doing κ → Prop) : Prop :=
  ∀ {d₁ d₂ e d₁'}, R d₁ d₂ → d₁.Does b e d₁' →
    ∃ es d₂', d₂.Runs b es d₂' ∧ Deeds.sights es = e.sight?.toList ∧ R d₁' d₂'

/-- Situations that cannot be told apart by what is seen of a process from then on. -/
def Equal (b : Behaviour κ σ) (d₁ d₂ : Doing κ) : Prop :=
  ∃ R, Simulates b R ∧ Simulates b (fun d d' => R d' d) ∧ R d₁ d₂

variable {d d' d₁ d₂ d₃ : Doing κ} {ds : Deeds κ} {s s' : List (Handler κ)} {t u : Task κ}
  {o : Except (Value κ) (Value κ)} {c c' : Callback κ}

/-- A run on the left can be run on the right. -/
theorem Simulates.runs {R : Doing κ → Doing κ → Prop} (sim : Simulates b R) (h : R d₁ d₂)
    (runs : d₁.Runs b ds d) : ∃ es d', d₂.Runs b es d' ∧ Deeds.sights es = ds.sights ∧ R d d' := by
  induction runs with
  | refl => exact ⟨[], d₂, .refl, rfl, h⟩
  | @snoc ds e d d₁' _ does ih =>
    obtain ⟨es, d', first, seen, there⟩ := ih
    obtain ⟨es', d'', second, seen', there'⟩ := sim there does
    refine ⟨es ++ es', d'', first.trans second, ?_, there'⟩
    rw [Deeds.sights_append, Deeds.sights_append, seen, seen', Deeds.sights_singleton]

namespace Equal

theorem refl (d : Doing κ) : Equal b d d := by
  have same : Simulates b (fun d d' : Doing κ => d = d') := by
    rintro d₁ _ e d₁' rfl does
    exact ⟨[e], d₁', .one does, Deeds.sights_singleton e, rfl⟩
  have same' : Simulates b (fun d d' : Doing κ => d' = d) := by
    rintro _ d₂ e d₁' rfl does
    exact ⟨[e], d₁', .one does, Deeds.sights_singleton e, rfl⟩
  exact ⟨_, same, same', rfl⟩

theorem symm (h : Equal b d₁ d₂) : Equal b d₂ d₁ := by
  obtain ⟨R, forth, back, there⟩ := h
  exact ⟨fun d d' => R d' d, back, forth, there⟩

/-- What is done on the left can be done on the right. -/
theorem forth (h : Equal b d₁ d₂) {e : Deed κ} {d₁' : Doing κ} (does : d₁.Does b e d₁') :
    ∃ es d₂', d₂.Runs b es d₂' ∧ Deeds.sights es = e.sight?.toList ∧ Equal b d₁' d₂' := by
  obtain ⟨R, forth, back, there⟩ := h
  obtain ⟨es, d₂', runs, seen, there'⟩ := forth there does
  exact ⟨es, d₂', runs, seen, R, forth, back, there'⟩

theorem simulates : Simulates b (Equal b) :=
  fun h does => h.forth does

theorem runs (h : Equal b d₁ d₂) (runs : d₁.Runs b ds d) :
    ∃ es d', d₂.Runs b es d' ∧ Deeds.sights es = ds.sights ∧ Equal b d d' :=
  simulates.runs h runs

theorem trans (h : Equal b d₁ d₂) (h' : Equal b d₂ d₃) : Equal b d₁ d₃ := by
  have both : Simulates b (fun d d' => ∃ d'', Equal b d d'' ∧ Equal b d'' d') := by
    rintro d₁ d₃ e d₁' ⟨d₂, first, second⟩ does
    obtain ⟨es, d₂', runs, seen, first'⟩ := first.forth does
    obtain ⟨es', d₃', runs', seen', second'⟩ := second.runs runs
    exact ⟨es', d₃', runs', seen'.trans seen, d₂', first', second'⟩
  have both' : Simulates b (fun d' d => ∃ d'', Equal b d d'' ∧ Equal b d'' d') := by
    rintro d₃ d₁ e d₃' ⟨d₂, first, second⟩ does
    obtain ⟨es, d₂', runs, seen, second'⟩ := second.symm.forth does
    obtain ⟨es', d₁', runs', seen', first'⟩ := first.symm.runs runs
    exact ⟨es', d₁', runs', seen'.trans seen, d₂', first'.symm, second'.symm⟩
  exact ⟨_, both, both', d₂, h, h'⟩

/-- Situations that a relation leads from to equal ones are equal, if the relation can be read both ways. -/
theorem of_simulates {R : Doing κ → Doing κ → Prop}
    (forth : ∀ {d₁ d₂ e d₁'}, R d₁ d₂ → d₁.Does b e d₁' → ∃ es d₂', d₂.Runs b es d₂' ∧
      Deeds.sights es = e.sight?.toList ∧ (R d₁' d₂' ∨ Equal b d₁' d₂'))
    (back : ∀ {d₁ d₂ e d₂'}, R d₁ d₂ → d₂.Does b e d₂' → ∃ es d₁', d₁.Runs b es d₁' ∧
      Deeds.sights es = e.sight?.toList ∧ (R d₁' d₂' ∨ Equal b d₁' d₂'))
    (h : R d₁ d₂) : Equal b d₁ d₂ := by
  refine ⟨fun d d' => R d d' ∨ Equal b d d', ?_, ?_, .inl h⟩
  · rintro d₁ d₂ e d₁' (there | equal) does
    · exact forth there does
    · obtain ⟨es, d₂', runs, seen, equal'⟩ := equal.forth does
      exact ⟨es, d₂', runs, seen, .inr equal'⟩
  · rintro d₂ d₁ e d₂' (there | equal) does
    · exact back there does
    · obtain ⟨es, d₁', runs, seen, equal'⟩ := equal.symm.forth does
      exact ⟨es, d₁', runs, seen, .inr equal'.symm⟩

/-- A step that cannot be seen leads to an equal situation, if it is the only one that can be made. -/
theorem of_silent {e : Deed κ} (does : d.Does b e d') (silent : e.sight? = none)
    (only : ∀ e' d'', d.Does b e' d'' → e' = e) : Equal b d d' := by
  refine of_simulates (R := fun x y => x = d ∧ y = d') ?_ ?_ ⟨rfl, rfl⟩
  · rintro _ _ e₁ d₁ ⟨rfl, rfl⟩ first
    obtain rfl := only e₁ d₁ first
    obtain rfl := does.unique first
    exact ⟨[], _, .refl, by rw [silent]; rfl, .inr (.refl _)⟩
  · rintro _ _ e₂ d₂ ⟨rfl, rfl⟩ second
    refine ⟨[e, e₂], d₂, .cons does (.one second), ?_, .inr (.refl d₂)⟩
    rw [Deeds.sights, List.filterMap_cons_none silent]
    exact Deeds.sights_singleton e₂

theorem push {h : Handler κ} (pushes : Pushes u t h) (s : List (Handler κ)) :
    Equal b (.task u s) (.task t (h :: s)) :=
  of_silent (.push pushes s) (by cases pushes <;> rfl) fun _ _ does => (does.of_pushes pushes).1

theorem enter (next : Handler.next o s = some (c, s')) :
    Equal b (.task (.ofResult o) s) (.call c (passed o) s') :=
  of_silent (.enter next) (by cases o <;> rfl) fun _ _ does => (does.of_next next).1

/-- An outcome comes to the same on stacks on which it meets the same handler. -/
theorem outcome (same : Handler.next o s = Handler.next o s') :
    Equal b (.task (.ofResult o) s) (.task (.ofResult o) s') := by
  refine of_simulates (R := fun x y => x = .task (.ofResult o) s ∧ y = .task (.ofResult o) s') ?_ ?_ ⟨rfl, rfl⟩
  · rintro _ _ e d ⟨rfl, rfl⟩ does
    exact ⟨[e], d, .one (does.of_next_eq same), Deeds.sights_singleton e, .inr (.refl d)⟩
  · rintro _ _ e d ⟨rfl, rfl⟩ does
    exact ⟨[e], d, .one (does.of_next_eq same.symm), Deeds.sights_singleton e, .inr (.refl d)⟩

/-- Tasks that take a message are equal if their continuations are, on every message. -/
theorem receive (h : ∀ v, Equal b (.call c v s) (.call c' v s')) :
    Equal b (.task (.receive c) s) (.task (.receive c') s') := by
  refine of_simulates (R := fun x y => x = .task (.receive c) s ∧ y = .task (.receive c') s') ?_ ?_ ⟨rfl, rfl⟩
  · rintro _ _ e d ⟨rfl, rfl⟩ does
    obtain ⟨v, rfl, rfl⟩ := does.of_receive
    exact ⟨[_], _, .one (.receive c' v s'), rfl, .inr (h v)⟩
  · rintro _ _ e d ⟨rfl, rfl⟩ does
    obtain ⟨v, rfl, rfl⟩ := does.of_receive
    exact ⟨[_], _, .one (.receive c v s), rfl, .inr (h v)⟩

end Equal

/-! ### Equal stacks -/

/-- What is done is done on top of a stack, too. -/
theorem Does.on {e : Deed κ} (h : d.Does b e d') (going : ∀ o, d' ≠ .exited o) (base : List (Handler κ)) :
    (d.on base).Does b e (d'.on base) := by
  cases h with
  | push pushes s => exact .push pushes (s ++ base)
  | @enter o s s' c next => exact .enter (by rw [Handler.next_append, next])
  | exit => exact absurd rfl (going _)
  | receive c v s => exact .receive c v (s ++ base)
  | native g s => exact .native g (s ++ base)
  | returned brings s => exact .returned brings (s ++ base)
  | completed g t s => exact .completed g t (s ++ base)

/-- If the outcomes that a task may come to are equal on two stacks, the task is. -/
theorem Equal.on_outcomes {base base' : List (Handler κ)}
    (h : ∀ {ds o own}, d.Runs b ds (.task (.ofResult o) own) → Handler.next o own = none →
      Equal b (.task (.ofResult o) base) (.task (.ofResult o) base')) (going : ∀ o, d ≠ .exited o) :
    Equal b (d.on base) (d.on base') := by
  -- Only the outcome of a task that is done with its own part of the stack meets what is below.
  have step : ∀ {base base' : List (Handler κ)},
      (∀ {ds o own}, d.Runs b ds (.task (.ofResult o) own) → Handler.next o own = none →
        Equal b (.task (.ofResult o) base) (.task (.ofResult o) base')) →
      ∀ {ds : Deeds κ} {d' : Doing κ} {e : Deed κ} {d₁ : Doing κ}, d.Runs b ds d' → (∀ o, d' ≠ .exited o) →
        (d'.on base).Does b e d₁ → ∃ es d₂, (d'.on base').Runs b es d₂ ∧ Deeds.sights es = e.sight?.toList ∧
          ((∃ ds d', d.Runs b ds d' ∧ (∀ o, d' ≠ .exited o) ∧ d₁ = d'.on base ∧ d₂ = d'.on base') ∨ Equal b d₁ d₂) := by
    intro base base' h ds d' e d₁ runs going does
    rcases does.of_on going with ⟨d'', does', going', rfl⟩ | ⟨o, own, rfl, none, last⟩
    · exact ⟨[e], _, .one (does'.on going' base'), Deeds.sights_singleton e,
        .inl ⟨ds ++ [e], d'', runs.snoc does', going', rfl, rfl⟩⟩
    · have past : Equal b (.task (.ofResult o) base') (.task (.ofResult o) (own ++ base')) :=
        .outcome (by rw [Handler.next_append, none])
      obtain ⟨es, d₂, runs, seen, equal⟩ := ((h runs none).trans past).forth last
      exact ⟨es, d₂, runs, seen, .inr equal⟩
  refine of_simulates (R := fun x y => ∃ ds d', d.Runs b ds d' ∧ (∀ o, d' ≠ .exited o) ∧ x = d'.on base ∧
    y = d'.on base') ?_ ?_ ⟨[], d, .refl, going, rfl, rfl⟩
  · rintro _ _ e d₁ ⟨ds, d', runs, going, rfl, rfl⟩ does
    exact step h runs going does
  · rintro _ _ e d₁ ⟨ds, d', runs, going, rfl, rfl⟩ does
    obtain ⟨es, d₂, runs', seen, ⟨ds', d'', runs'', going', same, same'⟩ | equal⟩ :=
      step (fun runs none => (h runs none).symm) runs going does
    · exact ⟨es, d₂, runs', seen, .inl ⟨ds', d'', runs'', going', same', same⟩⟩
    · exact ⟨es, d₂, runs', seen, .inr equal.symm⟩

/-- If all outcomes are equal on two stacks, everything is. -/
theorem Equal.on {base base' : List (Handler κ)}
    (h : ∀ o, Equal b (.task (.ofResult o) base) (.task (.ofResult o) base')) (going : ∀ o, d ≠ .exited o) :
    Equal b (d.on base) (d.on base') :=
  .on_outcomes (fun _ _ => h _) going

/-- Continuations that bring the same tasks with a value are equal with it. -/
theorem Equal.call {v : Value κ} (h : ∀ t, (c.run b v).Brings b t ↔ (c'.run b v).Brings b t)
    (s : List (Handler κ)) : Equal b (.call c v s) (.call c' v s) := by
  refine of_simulates (R := fun x y => x = .call c v s ∧ y = .call c' v s) ?_ ?_ ⟨rfl, rfl⟩
  · rintro _ _ e d ⟨rfl, rfl⟩ does
    obtain ⟨t, brings, rfl, rfl⟩ := does.of_call
    exact ⟨[_], _, .one (.returned ((h t).1 brings) s), rfl, .inr (.refl _)⟩
  · rintro _ _ e d ⟨rfl, rfl⟩ does
    obtain ⟨t, brings, rfl, rfl⟩ := does.of_call
    exact ⟨[_], _, .one (.returned ((h t).2 brings) s), rfl, .inr (.refl _)⟩

end Doing

/-! ### Equal tasks -/

/-- Tasks that are equal on every stack of handlers. -/
def Task.Equal (b : Behaviour κ σ) (t t' : Task κ) : Prop :=
  ∀ s, Doing.Equal b (.task t s) (.task t' s)

/-- Continuations that are equal with every value and on every stack of handlers. -/
def Callback.Equal (b : Behaviour κ σ) (c c' : Callback κ) : Prop :=
  ∀ v s, Doing.Equal b (.call c v s) (.call c' v s)

/-- A continuation that is a function: it returns what the function gives, and nothing else. -/
structure Callback.Computes (b : Behaviour κ σ) (c : Callback κ) (f : Value κ → Task κ) : Prop where
  brings : ∀ v, (c.run b v).Brings b (f v)
  yields : ∀ v, Yields b (f v) (c.run b v)

/-- User code that returns a task without asking for anything is a function. -/
theorem Callback.Computes.of_code {c : κ} {f : Value κ → Task κ} (w : World κ σ)
    (h : ∀ v, b.callback c v = .ret (f v)) : (Callback.code c).Computes b f where
  brings v := by
    have entered : Directive.step b w (.invoke (.callback c v)) (Act.ret (S := directives κ σ)) =
        .next w (.ret (f v)) :=
      congrArg (fun x : Code κ σ (Task κ) => Progress.next w ((Procedure.ofCode x).bind Act.ret)) (h v)
    exact .next entered (.ret _)
  yields v := .of_code (h v)

section

variable {t t' t'' : Task κ} {c c' : Callback κ} {f f' : Value κ → Task κ} {v : Value κ}
  {s base base' : List (Handler κ)}

theorem Task.Equal.refl (t : Task κ) : t.Equal b t :=
  fun _ => .refl _

theorem Task.Equal.symm (h : t.Equal b t') : t'.Equal b t :=
  fun s => (h s).symm

theorem Task.Equal.trans (h : t.Equal b t') (h' : t'.Equal b t'') : t.Equal b t'' :=
  fun s => (h s).trans (h' s)

theorem Doing.Equal.below (h : ∀ o, Equal b (.task (.ofResult o) base) (.task (.ofResult o) base'))
    (t : Task κ) : Equal b (.task t base) (.task t base') :=
  Equal.on (d := .task t []) h nofun

/-- A continuation that is a function goes on with what the function gives. -/
theorem Callback.Computes.equal (h : c.Computes b f) (v : Value κ) (s : List (Handler κ)) :
    Doing.Equal b (.call c v s) (.task (f v) s) := by
  refine .of_silent (.returned (h.brings v) s) rfl fun e d does => ?_
  obtain ⟨u, brings, rfl, -⟩ := does.of_call
  rw [(h.yields v).eq_of_brings brings]

/-- Functions that give equal tasks are equal continuations. -/
theorem Callback.Computes.callback_equal (h : c.Computes b f) (h' : c'.Computes b f')
    (equal : ∀ v, (f v).Equal b (f' v)) : c.Equal b c' :=
  fun v s => (h.equal v s).trans ((equal v s).trans (h'.equal v s).symm)

end

end Actors
