/-
Pure continuations.

A continuation is pure if the task that it returns is given by its argument: whatever its code asks
for and whatever else happens meanwhile, nothing of it gets into the result. When all continuations
of a process are pure, every task that a continuation returns in a run is the one that is expected
of the call which the process has entered last, however much of the run lies in between.

* `Yields` — code with a result that does not depend on replies;
* `PureOn` — a set of tasks that a process does not leave as long as its continuations are pure;
* `Deeds.Faithful`, `History.pure` — the continuations of a process return what is expected.
-/
import Actors.Proofs.Returning

namespace Actors

variable {κ σ α : Type} {b : Behaviour κ σ}

/-- Code that returns `a` if it returns at all, whatever the worlds in which its operations are
performed. -/
inductive Yields (b : Behaviour κ σ) (a : α) : Procedure κ σ α → Prop where
  | ret : Yields b a (.ret a)
  | raise (f : Fault) : Yields b a (.raise f)
  | op {d : Directive κ σ} {k : d.Reply → Procedure κ σ α}
      (next : ∀ w w' code, d.step b w k = .next w' code → Yields b a code)
      (drive : ∀ w w' goal k' n, d.step b w k = .drive w' goal k' → Yields b a (k' n)) :
      Yields b a (.op d k)

/-- Such code comes to nothing else. -/
theorem Yields.eq_of_brings {a a' : α} {x : Procedure κ σ α} (h : Yields b a x)
    (brings : x.Brings b a') : a' = a := by
  induction brings with
  | ret a' =>
    cases h
    rfl
  | next hs _ ih =>
    cases h with
    | op next drive => exact ih (next _ _ _ hs)
  | drive hs n _ ih =>
    cases h with
    | op next drive => exact ih (drive _ _ _ _ n hs)

/-- User code that returns a task without asking for anything is pure. -/
theorem Yields.of_code {c : κ} {v : Value κ} {t : Task κ} (h : b.callback c v = .ret t) :
    Yields b t (Callback.run b (.code c) v) := by
  refine .op (fun w w' code hd => ?_) (fun w w' goal k' n hd => ?_)
  · obtain ⟨-, rfl⟩ := Progress.next.inj hd
    show Yields b t ((Procedure.ofCode (b.callback c v)).bind Act.ret)
    rw [h]
    exact .ret
  · cases hd

/-- User code whose continuations are functions and ask for nothing. Everything else does as little
as it may. -/
def Behaviour.ofCallbacks (g : κ → Value κ → Task κ) : Behaviour κ Unit where
  callback c v := .ret (g c v)
  convert _ v := .ret v
  start _ _ := .ret none
  thunk _ := .ret ()
  build _ := .ret (.succeed .unit)
  buildFor _ _ := .ret (.succeed .unit)
  manager _ :=
    { kind := .both
      state := .unit
      init := .ret (.succeed .unit)
      onEffects := fun _ _ _ s => .ret (.succeed s)
      onMessage := fun _ _ s => .ret (.succeed s)
      mapCommand := fun _ v => .ret v
      mapSubscription := fun _ v => .ret v }
  application _ :=
    { message := .unit
      managers := []
      init := .ret (.unit, .node [])
      update := fun _ model => .ret (model, .node [])
      subscriptions := fun _ => .ret (.node [])
      render := fun _ => .ret () }

theorem Yields.ofCallbacks (g : κ → Value κ → Task κ) (c : κ) (v : Value κ) :
    Yields (.ofCallbacks g) (g c v) (Callback.run (.ofCallbacks g) (.code c) v) :=
  .of_code rfl

/-- A task all of whose continuations are in a set. -/
def Task.Over (P : Callback κ → Prop) : Task κ → Prop
  | .succeed _ => True
  | .fail _ => True
  | .native _ => True
  | .andThen t c => t.Over P ∧ P c
  | .onError t c => t.Over P ∧ P c
  | .receive c => P c

/-- A set of tasks and a set of continuations that a process does not leave, if it starts there and
if its bindings are completed there. The continuations are pure: `f` gives what they return. -/
structure PureOn (b : Behaviour κ σ) (f : Callback κ → Value κ → Task κ) (T : Task κ → Prop)
    (P : Callback κ → Prop) : Prop where
  andThen : ∀ t c, T (.andThen t c) → T t ∧ P c
  onError : ∀ t c, T (.onError t c) → T t ∧ P c
  receive : ∀ c, T (.receive c) → P c
  returns : ∀ c v, P c → T (f c v)
  yields : ∀ c v, P c → Yields b (f c v) (c.run b v)

/-- Continuations that are pure, and that return only tasks over continuations of this kind. -/
theorem PureOn.of_over {f : Callback κ → Value κ → Task κ} {P : Callback κ → Prop}
    (yields : ∀ c v, P c → Yields b (f c v) (c.run b v)) (returns : ∀ c v, P c → (f c v).Over P) :
    PureOn b f (Task.Over P) P :=
  ⟨fun _ _ => id, fun _ _ => id, fun _ => id, returns, yields⟩

/-! ### Processes that stay within a set of tasks -/

/-- A process whose tasks and continuations are in given sets. -/
structure Proc.Within (T : Task κ → Prop) (P : Callback κ → Prop) (x : Proc κ) : Prop where
  root : ∀ t, x.root = .ready t → T t
  stack : ∀ h ∈ x.stack, P h.callback
  awaiting : ∀ n c, x.root = .awaiting n c → ∃ g, T (.native g)

section

variable {f : Callback κ → Value κ → Task κ} {T : Task κ → Prop} {P : Callback κ → Prop}
  {x : Proc κ}

theorem PureOn.pushes (h : PureOn b f T P) {u t : Task κ} {g : Handler κ} (hg : Pushes u t g)
    (hu : T u) : T t ∧ P g.callback := by
  cases hg with
  | andThen => exact h.andThen _ _ hu
  | onError => exact h.onError _ _ hu

theorem Proc.Within.killed : x.killed.Within T P :=
  ⟨nofun, nofun, nofun⟩

theorem Proc.Within.handled (h : x.Within T P) {o : Option (Callback κ × List (Handler κ))}
    (ho : ∀ e, o = some e → ∃ g : Handler κ, g.callback = e.1 ∧ List.Sublist (g :: e.2) x.stack) :
    (x.handled o).Within T P ∧ ∀ e, o = some e → P e.1 := by
  cases o with
  | none => exact ⟨.killed, nofun⟩
  | some e =>
    obtain ⟨g, hg, sub⟩ := ho e rfl
    refine ⟨⟨nofun, fun g' hg' => h.stack g' (sub.subset (List.mem_cons_of_mem g hg')), nofun⟩, ?_⟩
    intro e' he'
    obtain rfl := Option.some.inj he'
    rw [← hg]
    exact h.stack g (sub.subset List.mem_cons_self)

theorem Proc.Within.push (h : x.Within T P) {t : Task κ} {g : Handler κ} (ht : T t)
    (hg : P g.callback) :
    ({ x with root := .ready t, stack := g :: x.stack } : Proc κ).Within T P := by
  refine ⟨fun u hu => ?_, fun g' hg' => ?_, nofun⟩
  · obtain rfl := Root.ready.inj hu
    exact ht
  · rcases List.mem_cons.1 hg' with rfl | hg'
    · exact hg
    · exact h.stack g' hg'

/-- A process stays within its sets by a transition, and enters only continuations of its set. -/
theorem Proc.Within.moves (h : x.Within T P) (pure : PureOn b f T P) {mv : Move κ} {y : Proc κ}
    (hm : x.Moves mv y) (root : x.root = .ready mv.task) :
    y.Within T P ∧ ∀ e, mv.entered = some e → P e.1 := by
  have task : T mv.task := h.root _ root
  cases hm with
  | outcome o =>
    obtain ⟨within, enters⟩ := h.handled fun e => Handler.sublist_of_next
    refine ⟨within, fun e he => ?_⟩
    obtain ⟨e, hn, rfl⟩ := Option.map_eq_some_iff.1 he
    exact enters e hn
  | push pushes =>
    obtain ⟨ht, hg⟩ := pure.pushes pushes task
    exact ⟨h.push ht hg, by simp⟩
  | receive c mail =>
    refine ⟨⟨by simp, h.stack, by simp⟩, fun e he => ?_⟩
    obtain rfl := Option.some.inj he
    exact pure.receive c task
  | native g => exact ⟨⟨by simp, h.stack, fun _ _ _ => ⟨g, task⟩⟩, by simp⟩

/-! ### What continuations return -/

/-- What a continuation returns is what is expected of the call that the process has entered
last. -/
def Deeds.Faithful (f : Callback κ → Value κ → Task κ) (ds : Deeds κ) : Prop :=
  ∀ es t, es ++ [.returned t] <+: ds → ∃ e, (entered es).getLast? = some e ∧ t = f e.1 e.2

/-- What is true of a process whose continuations are pure. -/
structure Conforms (f : Callback κ → Value κ → Task κ) (T : Task κ → Prop) (P : Callback κ → Prop)
    (ds : Deeds κ) (o : Option (Proc κ)) : Prop where
  faithful : ds.Faithful f
  entered : ∀ e ∈ ds.entered, P e.1
  within : ∀ x ∈ o, x.Within T P

namespace Conforms

variable {ds es : Deeds κ} {o o' : Option (Proc κ)} {d : Deed κ}

/-- Every deed keeps it so, as long as what comes from outside is in the set of tasks, and what
comes from a continuation is expected. -/
theorem leads (h : Conforms f T P ds o) (pure : PureOn b f T P) (hd : d.Leads o o')
    (spawned : ∀ t, d = .spawned t → T t)
    (completed : ∀ t, d = .completed t → (∃ g, T (.native g)) → T t)
    (returned : ∀ t, d = .returned t → ∃ e, ds.entered.getLast? = some e ∧ t = f e.1 e.2) :
    Conforms f T P (ds ++ [d]) o' := by
  have entered : (∀ e, (d.move?.bind Move.entered) = some e → P e.1) →
      ∀ e ∈ Deeds.entered (ds ++ [d]), P e.1 := by
    intro hd e he
    rw [Deeds.entered_snoc] at he
    exact (List.mem_append.1 he).elim (h.entered e) fun he => hd e (Option.mem_toList.1 he)
  have faithful : Deeds.Faithful f (ds ++ [d]) := by
    intro es t hp
    -- A return is the last deed, or it was there before.
    rcases List.prefix_concat_iff.1 hp with heq | hp
    · obtain ⟨rfl, ht⟩ := List.append_inj' heq rfl
      exact returned t (List.singleton_inj.1 ht).symm
    · exact h.faithful es t hp
  cases hd with
  | spawned t =>
    refine ⟨faithful, entered nofun, fun x hx => ?_⟩
    obtain rfl := Option.some.inj hx
    refine ⟨fun u hu => ?_, nofun, nofun⟩
    obtain rfl := Root.ready.inj hu
    exact spawned _ rfl
  | @sent x v alive =>
    refine ⟨faithful, entered nofun, fun y hy => ?_⟩
    obtain rfl := Option.some.inj hy
    have within := h.within x rfl
    exact ⟨within.root, within.stack, within.awaiting⟩
  | dropped v dead => exact ⟨faithful, entered nofun, h.within⟩
  | killed alive =>
    refine ⟨faithful, entered nofun, fun y hy => ?_⟩
    obtain rfl := Option.some.inj hy
    exact .killed
  | @completed x n c t awaiting =>
    refine ⟨faithful, entered nofun, fun y hy => ?_⟩
    obtain rfl := Option.some.inj hy
    have within := h.within x rfl
    refine ⟨fun u hu => ?_, within.stack, nofun⟩
    obtain rfl := Root.ready.inj hu
    exact completed _ rfl (within.awaiting n c awaiting)
  | @moved x mv can =>
    obtain ⟨within, enters⟩ :=
      (h.within x rfl).moves pure (Proc.moves can) (Proc.root_of_move? can)
    refine ⟨faithful, entered enters, fun y hy => ?_⟩
    obtain rfl := Option.some.inj hy
    exact within
  | @returned x t stepping =>
    refine ⟨faithful, entered nofun, fun y hy => ?_⟩
    obtain rfl := Option.some.inj hy
    obtain ⟨e, he, rfl⟩ := returned t rfl
    refine ⟨fun u hu => ?_, (h.within x rfl).stack, nofun⟩
    obtain rfl := Root.ready.inj hu
    exact pure.returns e.1 e.2 (h.entered e (List.mem_of_getLast? he))

/-- The same for deeds that the process does not do itself. -/
theorem outside (h : Conforms f T P ds o) (pure : PureOn b f T P) (l : Life o es o')
    (hes : ∀ d ∈ es, d.isOwn = false) (spawned : ∀ t, .spawned t ∈ es → T t)
    (completed : (∃ g, T (.native g)) → ∀ t, .completed t ∈ es → T t) :
    Conforms f T P (ds ++ es) o' := by
  induction l with
  | refl =>
    rw [List.append_nil]
    exact h
  | @snoc o₁ o₂ es d l hd ih =>
    have last : d ∈ es ++ [d] := List.mem_append_right _ (List.mem_singleton.2 rfl)
    have own : d.isOwn = false := hes d last
    have conforms := ih (fun d hd => hes d (List.mem_append_left _ hd))
      (fun t ht => spawned t (List.mem_append_left _ ht))
      (fun hg t ht => completed hg t (List.mem_append_left _ ht))
    rw [← List.append_assoc]
    refine conforms.leads pure hd (fun t ht => ?_) (fun t ht hg => ?_) fun t ht => ?_
    · exact spawned t (ht ▸ last)
    · exact completed hg t (ht ▸ last)
    · rw [ht] at own
      cases own

end Conforms

/-- The continuations of a process return what is expected of them in every run, if they are pure:
the task that the process is started with, and those that complete its bindings, if it can have
any, must be in a set of tasks with pure continuations. -/
theorem History.pure {m : Machine κ σ} {r : Record κ} (h : History b m r)
    (pure : PureOn b f T P) (p : Pid) (spawned : ∀ t, .spawned t ∈ r.of p → T t)
    (completed : (∃ g, T (.native g)) → ∀ t, .completed t ∈ r.of p → T t) :
    Conforms f T P (r.of p) (m.world.bare p) := by
  induction h with
  | new config user code =>
    refine ⟨fun es t hp => ?_, by simp [Deeds.entered, Deeds.moves], fun x hx => ?_⟩
    · cases List.append_eq_nil_iff.1 (List.prefix_nil.1 hp) |>.2
    · rw [World.bare, show (Machine.load (World.new config user) _).world.procs.get? p = none from
        World.get?_new config user p] at hx
      cases hx
  | load code _ hs hf ih => exact ih spawned completed
  | @step m r h ih =>
    have honest := (h.step.returns p).1
    rw [Record.of_append] at spawned completed honest ⊢
    have conforms := ih (fun t ht => spawned t (List.mem_append_left _ ht))
      fun hg t ht => completed hg t (List.mem_append_left _ ht)
    have tr := Machine.transition b m
    have life := tr.life h.reachable.sound p
    rcases tr.own p with outside | ⟨mv, own⟩ | ⟨t, n, k, s, own, fault, stack⟩
    · exact conforms.outside pure life outside
        (fun t ht => spawned t (List.mem_append_right _ ht))
        fun hg t ht => completed hg t (List.mem_append_right _ ht)
    · rw [own] at life ⊢
      exact conforms.leads pure life.leads (by simp) (by simp) (by simp)
    · -- A continuation returns one of the tasks that its call can come to, and there is only one.
      rw [own] at life honest ⊢
      obtain ⟨e, he, brings⟩ := honest (r.of p) t List.prefix_rfl
      have he := Deeds.lastCall_of_call? he
      have expected : t = f e.1 e.2 :=
        (pure.yields e.1 e.2 (conforms.entered e (List.mem_of_getLast? he))).eq_of_brings brings
      refine conforms.leads pure life.leads (by simp) (by simp) fun u hu => ?_
      obtain rfl := Deed.returned.inj hu
      exact ⟨e, he, expected⟩

end

end Actors
