/-
What a process is doing.

Apart from its messages a process is in one of few situations: a task is up next, a continuation is
under way, a binding is awaited, or the process has exited. In each of them there is little that it
can do, and what it does is given by the task, by the stack of handlers, and by what its continuations
come to. This is how tasks are interpreted, without any scheduler.

The interpretation is compositional. A task that is up next on some stack of handlers is run as if
there was nothing below it, until it comes to its outcome; only then the stack matters.

* `Doing`, `Doing.Does`, `Doing.Runs` — the situations, what is done in them, and sequences of that;
* `History.interpreted` — every process in every run is interpreted in this way;
* `Task.Results` — the outcome of a task, run with nothing below it;
* `Doing.Runs.split` — a task on a stack of handlers.
-/
import Actors.Proofs.Returning

namespace Actors

variable {κ σ : Type} {b : Behaviour κ σ}

/-! ### Situations -/

/-- What a process is doing: a task is up next, it has entered a continuation with a value, it awaits a
binding, or it has exited with an outcome. -/
inductive Doing (κ : Type) where
  | task (t : Task κ) (s : List (Handler κ))
  | call (c : Callback κ) (v : Value κ) (s : List (Handler κ))
  | binding (g : Binding κ) (s : List (Handler κ))
  | exited (o : Except (Value κ) (Value κ))

theorem Task.ofResult_injective {o o' : Except (Value κ) (Value κ)}
    (h : ofResult o = ofResult o') : o = o' := by
  cases o <;> cases o' <;> cases h <;> rfl

namespace Doing

/-- What a process can do, and what it is doing then. -/
inductive Does (b : Behaviour κ σ) : Doing κ → Deed κ → Doing κ → Prop where
  | push {u t : Task κ} {h : Handler κ} (pushes : Pushes u t h) (s : List (Handler κ)) :
      Does b (.task u s) (.moved ⟨u, none⟩) (.task t (h :: s))
  | enter {o : Except (Value κ) (Value κ)} {s s' : List (Handler κ)} {c : Callback κ}
      (next : Handler.next o s = some (c, s')) :
      Does b (.task (.ofResult o) s) (.moved ⟨.ofResult o, some (c, passed o)⟩)
        (.call c (passed o) s')
  | exit {o : Except (Value κ) (Value κ)} {s : List (Handler κ)} (next : Handler.next o s = none) :
      Does b (.task (.ofResult o) s) (.moved ⟨.ofResult o, none⟩) (.exited o)
  | receive (c : Callback κ) (v : Value κ) (s : List (Handler κ)) :
      Does b (.task (.receive c) s) (.moved ⟨.receive c, some (c, v)⟩) (.call c v s)
  | native (g : Binding κ) (s : List (Handler κ)) :
      Does b (.task (.native g) s) (.moved ⟨.native g, none⟩) (.binding g s)
  | returned {c : Callback κ} {v : Value κ} {t : Task κ} (brings : (c.run b v).Brings b t)
      (s : List (Handler κ)) : Does b (.call c v s) (.returned t) (.task t s)
  | completed (g : Binding κ) (t : Task κ) (s : List (Handler κ)) :
      Does b (.binding g s) (.completed t) (.task t s)

/-- What a process can do one after the other. -/
inductive Runs (b : Behaviour κ σ) (d : Doing κ) : Deeds κ → Doing κ → Prop where
  | refl : Runs b d [] d
  | snoc {ds : Deeds κ} {e : Deed κ} {d' d'' : Doing κ} (h : Runs b d ds d') (does : d'.Does b e d'') :
      Runs b d (ds ++ [e]) d''

namespace Runs

variable {d d' d'' : Doing κ} {ds es : Deeds κ} {e : Deed κ}

theorem one (does : d.Does b e d') : d.Runs b [e] d' :=
  Runs.refl.snoc does

theorem trans (h : d.Runs b ds d') (h' : d'.Runs b es d'') : d.Runs b (ds ++ es) d'' := by
  induction h' with
  | refl =>
    rw [List.append_nil]
    exact h
  | snoc _ does ih =>
    rw [← List.append_assoc]
    exact ih.snoc does

theorem cons (does : d.Does b e d') (h : d'.Runs b es d'') : d.Runs b (e :: es) d'' :=
  (one does).trans h

/-- What is done first. -/
theorem head (h : d.Runs b ds d'') : (ds = [] ∧ d'' = d) ∨
    ∃ e es d', ds = e :: es ∧ d.Does b e d' ∧ d'.Runs b es d'' := by
  induction h with
  | refl => exact .inl ⟨rfl, rfl⟩
  | @snoc ds e d₁ d₂ h does ih =>
    right
    rcases ih with ⟨rfl, rfl⟩ | ⟨e', es, d', rfl, first, rest⟩
    · exact ⟨e, [], d₂, rfl, does, .refl⟩
    · exact ⟨e', es ++ [e], d', rfl, first, rest.snoc does⟩

end Runs

namespace Does

variable {o : Except (Value κ) (Value κ)} {s s' : List (Handler κ)} {c : Callback κ} {e : Deed κ}
  {d : Doing κ}

/-- With an outcome there is one thing to do only. -/
theorem of_result (h : Does b (.task (.ofResult o) s) e d) :
    (∃ c s', Handler.next o s = some (c, s') ∧ e = .moved ⟨.ofResult o, some (c, passed o)⟩ ∧
        d = .call c (passed o) s') ∨
      Handler.next o s = none ∧ e = .moved ⟨.ofResult o, none⟩ ∧ d = .exited o := by
  generalize ht : Task.ofResult o = t at h
  cases h with
  | push pushes => cases pushes <;> cases o <;> cases ht
  | @enter o' _ s' c next =>
    obtain rfl := Task.ofResult_injective ht
    exact .inl ⟨c, s', next, rfl, rfl⟩
  | @exit o' _ next =>
    obtain rfl := Task.ofResult_injective ht
    exact .inr ⟨next, rfl, rfl⟩
  | receive => cases o <;> cases ht
  | native => cases o <;> cases ht

theorem of_next (h : Does b (.task (.ofResult o) s) e d) (next : Handler.next o s = some (c, s')) :
    e = .moved ⟨.ofResult o, some (c, passed o)⟩ ∧ d = .call c (passed o) s' := by
  rcases h.of_result with ⟨c', s'', next', he, hd⟩ | ⟨none, -⟩
  · obtain ⟨rfl, rfl⟩ := Prod.mk.inj (Option.some.inj (next.symm.trans next'))
    exact ⟨he, hd⟩
  · cases next.symm.trans none

theorem of_next_none (h : Does b (.task (.ofResult o) s) e d) (next : Handler.next o s = none) :
    e = .moved ⟨.ofResult o, none⟩ ∧ d = .exited o := by
  rcases h.of_result with ⟨c, s', next', -⟩ | ⟨-, he, hd⟩
  · cases next.symm.trans next'
  · exact ⟨he, hd⟩

/-- With an outcome the same is done on stacks on which it meets the same handler. -/
theorem of_next_eq (h : Does b (.task (.ofResult o) s) e d) (same : Handler.next o s = Handler.next o s') :
    Does b (.task (.ofResult o) s') e d := by
  rcases h.of_result with ⟨c, s'', next, rfl, rfl⟩ | ⟨none, rfl, rfl⟩
  · exact .enter (same ▸ next)
  · exact .exit (same ▸ none)

theorem of_pushes {u t : Task κ} {g : Handler κ} (pushes : Pushes u t g)
    (h : Does b (.task u s) e d) : e = .moved ⟨u, none⟩ ∧ d = .task t (g :: s) := by
  cases h with
  | push pushes' =>
    cases pushes <;> cases pushes' <;> exact ⟨rfl, rfl⟩
  | @enter o _ s' c next => cases o <;> cases pushes
  | @exit o _ next => cases o <;> cases pushes
  | receive => cases pushes
  | native => cases pushes

theorem of_receive (h : Does b (.task (.receive c) s) e d) :
    ∃ v, e = .moved ⟨.receive c, some (c, v)⟩ ∧ d = .call c v s := by
  generalize ht : Task.receive c = t at h
  cases h with
  | push pushes => cases pushes <;> cases ht
  | @enter o _ s' c next => cases o <;> cases ht
  | @exit o _ next => cases o <;> cases ht
  | receive c' v =>
    obtain rfl := Task.receive.inj ht
    exact ⟨v, rfl, rfl⟩
  | native => cases ht

theorem of_native {g : Binding κ} (h : Does b (.task (.native g) s) e d) :
    e = .moved ⟨.native g, none⟩ ∧ d = .binding g s := by
  generalize ht : Task.native g = t at h
  cases h with
  | push pushes => cases pushes <;> cases ht
  | @enter o => cases o <;> cases ht
  | @exit o => cases o <;> cases ht
  | receive => cases ht
  | native =>
    obtain rfl := Task.native.inj ht
    exact ⟨rfl, rfl⟩

theorem of_call {v : Value κ} (h : Does b (.call c v s) e d) :
    ∃ t, (c.run b v).Brings b t ∧ e = .returned t ∧ d = .task t s := by
  cases h with
  | returned brings => exact ⟨_, brings, rfl, rfl⟩

end Does

/-- The call that is under way. -/
def call? : Doing κ → Option (Callback κ × Value κ)
  | .call c v _ => some (c, v)
  | _ => none

theorem Does.call? {d d' : Doing κ} {e : Deed κ} (h : d.Does b e d') :
    e.isAct = true ∧ e.move?.bind Move.entered = d'.call? := by
  cases h <;> exact ⟨rfl, rfl⟩

theorem Runs.call? {t : Task κ} {s : List (Handler κ)} {ds : Deeds κ} {d : Doing κ}
    (h : (Doing.task t s).Runs b ds d) :
    (ds.getLast?.bind fun e => e.move?.bind Move.entered) = d.call? := by
  cases h with
  | refl => rfl
  | snoc h does =>
    rw [List.getLast?_append]
    exact does.call?.2

/-- The outcome with which a process has exited. -/
def outcome? : Doing κ → Option (Except (Value κ) (Value κ))
  | .exited o => some o
  | _ => none

theorem Does.outcome? {d d' : Doing κ} {e : Deed κ} (h : d.Does b e d') :
    d.outcome? = none ∧ e.move?.bind Move.outcome? = d'.outcome? := by
  cases h with
  | push pushes => cases pushes <;> exact ⟨rfl, rfl⟩
  | @enter o => cases o <;> exact ⟨rfl, rfl⟩
  | @exit o => cases o <;> exact ⟨rfl, rfl⟩
  | _ => exact ⟨rfl, rfl⟩

theorem Runs.outcome? {t : Task κ} {s : List (Handler κ)} {ds : Deeds κ} {d : Doing κ}
    (h : (Doing.task t s).Runs b ds d) : ds.outcome? = d.outcome? := by
  induction h with
  | refl => rfl
  | @snoc ds e d₁ d₂ h does ih =>
    obtain ⟨going, last⟩ := does.outcome?
    rw [Deeds.outcome?, Deeds.moves_snoc, List.findSome?_append,
      show ds.moves.findSome? Move.outcome? = none from ih.trans going, ← last]
    cases e with
    | moved mv =>
      show (none : Option _).or (List.findSome? Move.outcome? [mv]) = mv.outcome?
      rw [Option.none_or, List.findSome?_singleton]
    | _ => rfl

/-- What is done next decides the situation that it leads to. -/
theorem Does.unique {d d₁ d₂ : Doing κ} {e : Deed κ} (h₁ : d.Does b e d₁) (h₂ : d.Does b e d₂) :
    d₁ = d₂ := by
  cases h₁
  case push pushes s => exact (h₂.of_pushes pushes).2.symm
  case enter next => exact (h₂.of_next next).2.symm
  case exit next => exact (h₂.of_next_none next).2.symm
  case receive c v s =>
    obtain ⟨v', he, rfl⟩ := h₂.of_receive
    obtain ⟨-, he⟩ := Prod.mk.inj (Option.some.inj (Move.mk.inj (Deed.moved.inj he)).2)
    rw [he]
  case native g s =>
    exact h₂.of_native.2.symm
  case returned brings s =>
    obtain ⟨t, -, he, rfl⟩ := h₂.of_call
    rw [Deed.returned.inj he]
  case completed g t s =>
    cases h₂
    rfl

/-- What is done first leads to where the rest begins. -/
theorem Runs.later {d d₁ d₂ : Doing κ} {ds es : Deeds κ} (h₁ : d.Runs b ds d₁)
    (h₂ : d.Runs b (ds ++ es) d₂) : d₁.Runs b es d₂ := by
  induction ds generalizing d with
  | nil =>
    rcases h₁.head with ⟨-, rfl⟩ | ⟨e, es, d', nil, -⟩
    · exact h₂
    · cases nil
  | cons e ds ih =>
    rcases h₁.head with ⟨nil, -⟩ | ⟨e₁, es₁, d', same, first, rest⟩
    · cases nil
    obtain ⟨rfl, rfl⟩ := List.cons.inj same
    rcases h₂.head with ⟨nil, -⟩ | ⟨e₂, es₂, d'', same, second, rest'⟩
    · cases nil
    obtain ⟨rfl, rfl⟩ := List.cons.inj same
    obtain rfl := first.unique second
    exact ih rest rest'

/-- A process that has exited does nothing any more. -/
theorem Runs.of_exited {o : Except (Value κ) (Value κ)} {ds : Deeds κ} {d : Doing κ}
    (h : (Doing.exited o).Runs b ds d) : ds = [] ∧ d = .exited o := by
  rcases h.head with h | ⟨e, es, d', -, does, -⟩
  · exact h
  · cases does

end Doing

/-! ### Processes are interpreted -/

/-- The situation of a process that is alive. -/
def Doing.Fits (x : Proc κ) : Doing κ → Prop
  | .task t s => x.root = .ready t ∧ x.stack = s
  | .call _ _ s => x.root = .stepping ∧ x.stack = s
  | .binding _ s => (∃ n c, x.root = .awaiting n c) ∧ x.stack = s
  | .exited _ => False

theorem Doing.fits_bare {d : Doing κ} {x : Proc κ} (h : d.Fits x.bare) : d.Fits x := by
  obtain ⟨label, root, stack, mailbox, binding, queued⟩ := x
  cases d with
  | task t s =>
    obtain ⟨hr, hs⟩ := h
    cases root <;> first | exact ⟨hr, hs⟩ | cases hr
  | call c v s =>
    obtain ⟨hr, hs⟩ := h
    exact ⟨Root.bare_eq_stepping.1 hr, hs⟩
  | binding g s =>
    obtain ⟨⟨n, c, hr⟩, hs⟩ := h
    cases root <;> first | exact ⟨⟨_, _, rfl⟩, hs⟩ | cases hr
  | exited o => exact h

/-- With a task up next, this is what the process is doing. -/
theorem Doing.eq_of_ready {d : Doing κ} {x : Proc κ} {t : Task κ} (h : d.Fits x) (root : x.root = .ready t) :
    d = .task t x.stack := by
  cases d with
  | task t' s =>
    obtain rfl := Root.ready.inj (root.symm.trans h.1)
    rw [h.2]
  | call c v s => cases root.symm.trans h.1
  | binding g s =>
    obtain ⟨⟨n, c, awaiting⟩, -⟩ := h
    cases root.symm.trans awaiting
  | exited o => exact h.elim

/-- While a continuation runs, this is what the process is doing. -/
theorem Doing.eq_of_stepping {d : Doing κ} {x : Proc κ} (h : d.Fits x) (root : x.root = .stepping) :
    ∃ c v, d = .call c v x.stack := by
  cases d with
  | call c v s => exact ⟨c, v, by rw [h.2]⟩
  | task t s => cases root.symm.trans h.1
  | binding g s =>
    obtain ⟨⟨n, c, awaiting⟩, -⟩ := h
    cases root.symm.trans awaiting
  | exited o => exact h.elim

/-- While a binding is awaited, this is what the process is doing. -/
theorem Doing.eq_of_awaiting {d : Doing κ} {x : Proc κ} {n : Nat} {c : Option (Cancel κ)}
    (h : d.Fits x) (root : x.root = .awaiting n c) : ∃ g, d = .binding g x.stack := by
  cases d with
  | binding g s => exact ⟨g, by rw [h.2]⟩
  | task t s => cases root.symm.trans h.1
  | call c v s => cases root.symm.trans h.1
  | exited o => exact h.elim

/-- A process whose deeds are those of the task with which it has been started. -/
structure Deeds.Interpreted (b : Behaviour κ σ) (ds : Deeds κ) (x : Proc κ) (t : Task κ)
    (d : Doing κ) : Prop where
  started : .spawned t ∈ ds
  runs : (Doing.task t []).Runs b ds.acts d
  fits : x.root ≠ .dead → d.Fits x
  dead : x.root = .dead → .killed ∈ ds ∨ ∃ o, d = .exited o

namespace Deeds.Interpreted

variable {ds : Deeds κ} {x : Proc κ} {t : Task κ} {d : Doing κ}

/-- The call of the process that is under way. -/
theorem call? (h : ds.Interpreted b x t d) : ds.call? = d.call? :=
  h.runs.call?

/-- Nothing changes by a deed that has no part in it. -/
theorem idle (h : ds.Interpreted b x t d) {e : Deed κ} {y : Proc κ} (act : e.isAct = false)
    (root : y.root = x.root) (stack : y.stack = x.stack) :
    Deeds.Interpreted b (ds ++ [e]) y t d where
  started := List.mem_append_left _ h.started
  runs := by
    rw [acts_snoc, act, if_neg Bool.false_ne_true, List.append_nil]
    exact h.runs
  fits live := by
    have fits := h.fits (root ▸ live)
    cases d with
    | task u s => exact ⟨root.trans fits.1, stack.trans fits.2⟩
    | call c v s => exact ⟨root.trans fits.1, stack.trans fits.2⟩
    | binding g s => exact ⟨root ▸ fits.1, stack.trans fits.2⟩
    | exited o => exact fits
  dead gone := (h.dead (root ▸ gone)).imp_left (List.mem_append_left _)

/-- The situation changes by what is done in it. -/
theorem act (h : ds.Interpreted b x t d) {e : Deed κ} {y : Proc κ} {d' : Doing κ}
    (act : e.isAct = true) (does : d.Does b e d') (fits : y.root ≠ .dead → d'.Fits y)
    (dead : y.root = .dead → ∃ o, d' = .exited o) :
    Deeds.Interpreted b (ds ++ [e]) y t d' where
  started := List.mem_append_left _ h.started
  runs := by
    rw [acts_snoc, if_pos act]
    exact h.runs.snoc does
  fits := fits
  dead gone := .inr (dead gone)

/-- A transition is what is done with the task that is up next. -/
theorem moved (h : ds.Interpreted b x t d) {mv : Move κ} {y : Proc κ} (hm : x.Moves mv y)
    (root : x.root = .ready mv.task) :
    ∃ d', Deeds.Interpreted b (ds ++ [.moved mv]) y t d' := by
  obtain rfl := Doing.eq_of_ready (h.fits (by rw [root]; nofun)) root
  cases hm with
  | outcome o =>
    cases hn : Handler.next o x.stack with
    | none =>
      exact ⟨.exited o, h.act rfl (.exit hn) (fun live => absurd rfl live) fun _ => ⟨o, rfl⟩⟩
    | some e =>
      exact ⟨.call e.1 (passed o) e.2, h.act rfl (.enter hn) (fun _ => ⟨rfl, rfl⟩) nofun⟩
  | @push u t' g pushes =>
    exact ⟨.task t' (g :: x.stack), h.act rfl (.push pushes _) (fun _ => ⟨rfl, rfl⟩) nofun⟩
  | @receive c v vs mail =>
    exact ⟨.call c v x.stack, h.act rfl (.receive c v _) (fun _ => ⟨rfl, rfl⟩) nofun⟩
  | native g =>
    exact ⟨.binding g x.stack, h.act rfl (.native g _) (fun _ => ⟨⟨_, _, rfl⟩, rfl⟩) nofun⟩

/-- A process that is killed goes no further. -/
theorem killed (h : ds.Interpreted b x t d) :
    Deeds.Interpreted b (ds ++ [.killed]) x.killed t d where
  started := List.mem_append_left _ h.started
  runs := by
    rw [acts_snoc]
    exact (List.append_nil ds.acts).symm ▸ h.runs
  fits live := absurd rfl live
  dead _ := .inl (List.mem_append_right _ (List.mem_singleton.2 rfl))

/-- The result of a binding is the task that is up next. -/
theorem completed (h : ds.Interpreted b x t d) {n : Nat} {c : Option (Cancel κ)}
    (awaiting : x.root = .awaiting n c) (u : Task κ) :
    ∃ d', Deeds.Interpreted b (ds ++ [.completed u]) { x with root := .ready u } t d' := by
  obtain ⟨g, rfl⟩ := Doing.eq_of_awaiting (h.fits (by rw [awaiting]; nofun)) awaiting
  exact ⟨.task u x.stack, h.act rfl (.completed g u _) (fun _ => ⟨rfl, rfl⟩) nofun⟩

/-- The task that comes back is a result of the call that is under way. -/
theorem returned (h : ds.Interpreted b x t d) (stepping : x.root = .stepping) {u : Task κ}
    (honest : ∃ e, ds.call? = some e ∧ (e.1.run b e.2).Brings b u) :
    ∃ d', Deeds.Interpreted b (ds ++ [.returned u]) { x with root := .ready u } t d' := by
  obtain ⟨c, v, rfl⟩ := Doing.eq_of_stepping (h.fits (by rw [stepping]; nofun)) stepping
  obtain ⟨e, he, brings⟩ := honest
  obtain rfl := Option.some.inj (he.symm.trans h.call?)
  exact ⟨.task u x.stack, h.act rfl (.returned brings _) (fun _ => ⟨rfl, rfl⟩) nofun⟩

/-- A living process is in the situation that its deeds have led to. -/
theorem fits_of_living (h : ds.Interpreted b x.bare t d) (alive : x.isDead = false) : d.Fits x := by
  refine Doing.fits_bare (h.fits fun dead => ?_)
  rw [Proc.isDead_iff.2 (Root.bare_eq_dead.1 dead)] at alive
  cases alive

/-- A process that is dead has been killed or has exited. -/
theorem killed_or_exited (h : ds.Interpreted b x.bare t d) (dead : x.isDead = true) :
    .killed ∈ ds ∨ ∃ o, d = .exited o :=
  h.dead (Proc.isDead_iff.1 ((Proc.isDead_bare x).trans dead))

end Deeds.Interpreted

/-- A life in which the tasks that come back are results of the calls is an interpretation. -/
theorem Life.interpreted {ds : Deeds κ} {o : Option (Proc κ)} (l : Life none ds o)
    (honest : ds.Honest b) :
    (o = none → ds.acts = []) ∧ ∀ x ∈ o, ∃ t d, ds.Interpreted b x t d := by
  induction l with
  | refl => exact ⟨fun _ => rfl, nofun⟩
  | @snoc o₁ o₂ ds e l hd ih =>
    obtain ⟨fresh, there⟩ := ih fun es t hp => honest es t (hp.trans (List.prefix_append _ _))
    cases hd with
    | spawned t =>
      refine ⟨nofun, fun x hx => ?_⟩
      obtain rfl := Option.some.inj hx
      refine ⟨t, .task t [], ⟨List.mem_append_right _ (List.mem_singleton.2 rfl), ?_, ?_, nofun⟩⟩
      · rw [Deeds.acts_snoc, fresh rfl]
        exact .refl
      · exact fun _ => ⟨rfl, rfl⟩
    | @sent x v alive =>
      refine ⟨nofun, fun y hy => ?_⟩
      obtain rfl := Option.some.inj hy
      obtain ⟨t, d, h⟩ := there x rfl
      exact ⟨t, d, h.idle rfl rfl rfl⟩
    | dropped v dead =>
      refine ⟨fun ho => ?_, fun x hx => ?_⟩
      · rw [Deeds.acts_snoc, fresh ho]
        rfl
      · obtain ⟨t, d, h⟩ := there x hx
        exact ⟨t, d, h.idle rfl rfl rfl⟩
    | @killed x alive =>
      refine ⟨nofun, fun y hy => ?_⟩
      obtain rfl := Option.some.inj hy
      obtain ⟨t, d, h⟩ := there x rfl
      exact ⟨t, d, h.killed⟩
    | @completed x n c u awaiting =>
      refine ⟨nofun, fun y hy => ?_⟩
      obtain rfl := Option.some.inj hy
      obtain ⟨t, d, h⟩ := there x rfl
      exact ⟨t, h.completed awaiting u⟩
    | @moved x mv can =>
      refine ⟨nofun, fun y hy => ?_⟩
      obtain rfl := Option.some.inj hy
      obtain ⟨t, d, h⟩ := there x rfl
      exact ⟨t, h.moved (Proc.moves can) (Proc.root_of_move? can)⟩
    | @returned x u stepping =>
      refine ⟨nofun, fun y hy => ?_⟩
      obtain rfl := Option.some.inj hy
      obtain ⟨t, d, h⟩ := there x rfl
      exact ⟨t, h.returned stepping (honest ds u List.prefix_rfl)⟩

/-- In every run a process is interpreted, from the task with which it has been started. -/
theorem History.interpreted {m : Machine κ σ} {r : Record κ} (h : History b m r) {p : Pid}
    {t : Task κ} (spawned : .spawned t ∈ r.of p) :
    ∃ x d, m.world.procs.get? p = some x ∧ (r.of p).Interpreted b x.bare t d := by
  have life := h.life p
  obtain ⟨fresh, unique⟩ := life.spawned_unique
  cases hx : m.world.procs.get? p with
  | none =>
    have none : m.world.bare p = none := by rw [World.bare, hx, Option.map_none]
    exact absurd spawned (fresh none t)
  | some x =>
    obtain ⟨u, d, interpreted⟩ := (life.interpreted (h.returns p).1).2 x.bare (World.bare_of_get? hx)
    -- As the process is started once, the task that is known is the one it is started with.
    obtain rfl := unique t u spawned interpreted.started
    exact ⟨x, d, rfl, interpreted⟩

/-! ### A task on a stack of handlers -/

/-- What is left below a handler does not matter as long as there is a handler. -/
theorem Handler.next_append (o : Except (Value κ) (Value κ)) (s base : List (Handler κ)) :
    next o (s ++ base) = match next o s with
      | some (c, s') => some (c, s' ++ base)
      | none => next o base := by
  induction s with
  | nil => cases o <;> rfl
  | cons h s ih => cases o <;> cases h <;> first | rfl | exact ih

/-- A situation with more handlers below it. -/
def Doing.on (base : List (Handler κ)) : Doing κ → Doing κ
  | .task t s => .task t (s ++ base)
  | .call c v s => .call c v (s ++ base)
  | .binding g s => .binding g (s ++ base)
  | .exited o => .task (.ofResult o) base

/-- A process with nothing but the task exits with an outcome, after it has done something. -/
def Task.Results (b : Behaviour κ σ) (t : Task κ) (work : Deeds κ)
    (o : Except (Value κ) (Value κ)) : Prop :=
  (Doing.task t []).Runs b (work ++ [.moved ⟨.ofResult o, none⟩]) (.exited o)

/-- What is done above a stack of handlers is done as if there was nothing below. The handlers below matter
only for an outcome that no handler above them wants. -/
theorem Doing.Does.of_on {d d₂ : Doing κ} {base : List (Handler κ)} {e : Deed κ}
    (going : ∀ o, d ≠ .exited o) (h : (d.on base).Does b e d₂) :
    (∃ d', d.Does b e d' ∧ (∀ o, d' ≠ .exited o) ∧ d₂ = d'.on base) ∨
      ∃ o s, d = .task (.ofResult o) s ∧ Handler.next o s = none ∧
        (Doing.task (.ofResult o) base).Does b e d₂ := by
  cases d with
  | exited o => exact absurd rfl (going o)
  | call c v s =>
    cases h with
    | returned brings => exact .inl ⟨_, .returned brings s, nofun, rfl⟩
  | binding g s =>
    cases h with
    | completed _ t' => exact .inl ⟨_, .completed g t' s, nofun, rfl⟩
  | task u s =>
    -- Of the things that a task does, only the passing of an outcome looks at the handlers.
    have h : Doing.Does b (.task u (s ++ base)) e d₂ := h
    have below := fun o => Handler.next_append o s base
    generalize hs : s ++ base = s' at h below
    cases h with
    | push pushes => exact .inl ⟨_, .push pushes s, nofun, by rw [← hs]; rfl⟩
    | receive c v => exact .inl ⟨_, .receive c v s, nofun, by rw [← hs]; rfl⟩
    | native g => exact .inl ⟨_, .native g s, nofun, by rw [← hs]; rfl⟩
    | @enter o _ s'' c next =>
      rw [below] at next
      cases hn : Handler.next o s with
      | none =>
        rw [hn] at next
        exact .inr ⟨o, s, rfl, hn, .enter next⟩
      | some found =>
        obtain ⟨c', rest⟩ := found
        rw [hn] at next
        obtain ⟨rfl, rfl⟩ := Prod.mk.inj (Option.some.inj next)
        exact .inl ⟨_, .enter hn, nofun, rfl⟩
    | @exit o _ next =>
      rw [below] at next
      cases hn : Handler.next o s with
      | none =>
        rw [hn] at next
        exact .inr ⟨o, s, rfl, hn, .exit next⟩
      | some found => rw [hn] at next; cases next

/-- A task on a stack of handlers is run as if there was nothing below it, until it comes to its
outcome. -/
theorem Doing.Runs.split {t : Task κ} {base : List (Handler κ)} {ds : Deeds κ} {d : Doing κ}
    (h : (Doing.task t base).Runs b ds d) :
    (∃ d', (Doing.task t []).Runs b ds d' ∧ (∀ o, d' ≠ .exited o) ∧ d = d'.on base) ∨
      ∃ work o e es, ds = work ++ e :: es ∧ t.Results b work o ∧
        (Doing.task (.ofResult o) base).Runs b (e :: es) d := by
  induction h with
  | refl => exact .inl ⟨.task t [], .refl, nofun, rfl⟩
  | @snoc ds e d₁ d₂ h does ih =>
    rcases ih with ⟨d', runs, going, rfl⟩ | ⟨work, o, e', es, rfl, results, rest⟩
    · rcases Does.of_on going does with ⟨d'', first, going', rfl⟩ | ⟨o, s, rfl, none, last⟩
      · exact .inl ⟨d'', runs.snoc first, going', rfl⟩
      · -- The outcome is the first thing that can be done for which the handlers below matter.
        exact .inr ⟨ds, o, e, [], rfl, runs.snoc (.exit none), .one last⟩
    · exact .inr ⟨work, o, e', es ++ [e], by rw [List.append_assoc]; rfl, results, rest.snoc does⟩

end Actors
