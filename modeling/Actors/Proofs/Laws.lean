/-
The laws of sequences and handlers.

Sequencing tasks by their successes is lawful: a success goes on with the continuation, a continuation that
succeeds with what it is given can be left out, and it does not matter how three tasks are grouped. The same
holds for handlers of failures; and either sort lets the outcomes of the other one pass. Tasks that differ by
these laws are equal on every stack of handlers and inside every task, so processes that run them cannot be
told apart by anything but the number of their steps.

* `Side` — the two sorts of handlers, with one proof of each law for both;
* `Task.Equal.attach` and so on — equal tasks inside other tasks;
* `Doing.Runs.comparable` — what a process with pure continuations does is decided by what it gets;
* `Task.Indistinct`, `Task.handler_laws` — the laws, and what they say of processes in runs.
-/
import Actors.Proofs.Account
import Actors.Proofs.Equality
import Actors.Proofs.Mailbox

namespace Actors

variable {κ σ : Type} {b : Behaviour κ σ}

/-! ### The two sides -/

/-- What handlers are for. -/
inductive Side where
  | success
  | failure

namespace Side

/-- A task with a continuation for one sort of outcome. -/
def attach : Side → Task κ → Callback κ → Task κ
  | success, t, c => .andThen t c
  | failure, t, c => .onError t c

/-- What such a task puts on the stack. -/
def handler : Side → Callback κ → Handler κ
  | success, c => .onSuccess c
  | failure, c => .onFailure c

/-- The outcomes of this sort. -/
def outcome : Side → Value κ → Except (Value κ) (Value κ)
  | success, v => .ok v
  | failure, v => .error v

/-- The task with such an outcome. -/
def result (side : Side) (v : Value κ) : Task κ :=
  .ofResult (side.outcome v)

variable (side : Side) (c : Callback κ) (s : List (Handler κ))

theorem pushes (t : Task κ) : Pushes (side.attach t c) t (side.handler c) := by
  cases side with
  | success => exact .andThen t c
  | failure => exact .onError t c

theorem next_outcome (v : Value κ) : Handler.next (side.outcome v) (side.handler c :: s) = some (c, s) := by
  cases side <;> rfl

theorem passed_outcome (v : Value κ) : passed (side.outcome v) = v := by
  cases side <;> rfl

/-- An outcome is of one sort, or it passes all handlers of this sort. -/
theorem outcome_or_passes (o : Except (Value κ) (Value κ)) : (∃ v, o = side.outcome v) ∨
    ∀ (c : Callback κ) s, Handler.next o (side.handler c :: s) = Handler.next o s := by
  cases side <;> cases o
  · exact .inr fun _ _ => rfl
  · exact .inl ⟨_, rfl⟩
  · exact .inl ⟨_, rfl⟩
  · exact .inr fun _ _ => rfl

end Side

/-! ### The laws -/

section

variable {side : Side} {t t' : Task κ} {c c' k : Callback κ} {f : Value κ → Task κ}

/-- A task with a continuation comes to the same as the task above the continuation. -/
theorem Doing.Equal.attach (s : List (Handler κ)) :
    Equal b (.task (side.attach t c) s) (.task t (side.handler c :: s)) :=
  .push (side.pushes c t) s

/-- A value goes to its continuation. -/
theorem Doing.Equal.goes (h : c.Computes b f) (v : Value κ) (s : List (Handler κ)) :
    Equal b (.task (side.result v) (side.handler c :: s)) (.task (f v) s) := by
  refine (Equal.enter (side.next_outcome c s v)).trans ?_
  rw [side.passed_outcome]
  exact h.equal v s

namespace Task.Equal

variable (side)

/-- A value goes on with its continuation. -/
theorem result_attach (h : c.Computes b f) (v : Value κ) :
    Task.Equal b (side.attach (side.result v) c) (f v) :=
  fun s => (Doing.Equal.attach s).trans (.goes h v s)

/-- A continuation that comes to what it is given can be left out. -/
theorem attach_result (h : c.Computes b side.result) (t : Task κ) : Task.Equal b (side.attach t c) t := by
  refine fun s => (Doing.Equal.attach s).trans (.below (fun o => ?_) t)
  rcases side.outcome_or_passes o with ⟨v, rfl⟩ | passes
  · exact .goes h v s
  · exact .outcome (passes c s)

/-- Three tasks can be grouped either way. -/
theorem attach_attach (h : c.Computes b f) (hk : k.Computes b fun v => side.attach (f v) c') (t : Task κ) :
    Task.Equal b (side.attach (side.attach t c) c') (side.attach t k) := by
  refine fun s => ((Doing.Equal.attach s).trans (.attach _)).trans
    (Doing.Equal.trans (.below (fun o => ?_) t) (Doing.Equal.attach s).symm)
  rcases side.outcome_or_passes o with ⟨v, rfl⟩ | passes
  · exact (Doing.Equal.goes h v _).trans ((Doing.Equal.goes hk v s).trans (.attach s)).symm
  · exact .outcome (by rw [passes, passes, passes])

/-- An outcome of the other sort passes. -/
theorem outcome_attach {o : Except (Value κ) (Value κ)}
    (passes : ∀ (c : Callback κ) s, Handler.next o (side.handler c :: s) = Handler.next o s) (c : Callback κ) :
    Task.Equal b (side.attach (.ofResult o) c) (.ofResult o) :=
  fun s => (Doing.Equal.attach s).trans (.outcome (passes c s))

/-! #### Inside other tasks -/

theorem attach (ht : t.Equal b t') (hc : c.Equal b c') :
    Task.Equal b (side.attach t c) (side.attach t' c') := by
  refine fun s => (Doing.Equal.attach s).trans (((ht _).trans (.below (fun o => ?_) t')).trans
    (Doing.Equal.attach s).symm)
  rcases side.outcome_or_passes o with ⟨v, rfl⟩ | passes
  · refine (Doing.Equal.enter (side.next_outcome c s v)).trans (Doing.Equal.trans (hc _ s) ?_)
    exact (Doing.Equal.enter (side.next_outcome c' s v)).symm
  · exact .outcome (by rw [passes, passes])

theorem receive (hc : c.Equal b c') : Task.Equal b (.receive c) (.receive c') :=
  fun s => .receive fun v => hc v s

end Task.Equal

end

/-! ### What is decided by what a process gets -/

/-- The message that is taken. -/
def Sight.taken? : Sight κ → Option (Value κ)
  | .takes v => some v
  | _ => none

/-- The task that completes a binding. -/
def Sight.resumed? : Sight κ → Option (Task κ)
  | .resumes t => some t
  | _ => none

/-- The binding that is begun. -/
def Sight.begun? : Sight κ → Option (Binding κ)
  | .begins g => some g
  | _ => none

/-- The outcome of the process. -/
def Sight.ended? : Sight κ → Option (Except (Value κ) (Value κ))
  | .ends o => some o
  | _ => none

theorem Deeds.consumed_eq (ds : Deeds κ) : ds.consumed = ds.sights.filterMap Sight.taken? := by
  rw [consumed, moves, sights, List.filterMap_filterMap, List.filterMap_filterMap]
  congr 1
  funext e
  cases e with
  | moved mv =>
    obtain ⟨t, entered⟩ := mv
    cases t <;> cases entered <;> rfl
  | _ => rfl

theorem Deeds.completions_eq (ds : Deeds κ) : ds.completions = ds.sights.filterMap Sight.resumed? := by
  rw [completions, sights, List.filterMap_filterMap]
  congr 1
  funext e
  cases e with
  | moved mv =>
    obtain ⟨t, entered⟩ := mv
    cases t <;> cases entered <;> rfl
  | _ => rfl

/-- All that can be seen is done by the process itself. -/
theorem Deeds.sights_acts (ds : Deeds κ) : ds.acts.sights = ds.sights := by
  rw [sights, sights, acts, List.filterMap_filter]
  congr 1
  funext e
  cases e <;> rfl

namespace Doing

variable {d d' d₁ d₂ : Doing κ} {ds es : Deeds κ} {P : Callback κ → Prop} {F : Callback κ → Value κ → Task κ}

/-- The binding that is awaited. -/
def binding? : Doing κ → Option (Binding κ)
  | .binding g _ => some g
  | _ => none

/-- What was seen last tells whether a binding is awaited, and whether the process has exited. -/
theorem Runs.last {t : Task κ} {s : List (Handler κ)} (h : (Doing.task t s).Runs b ds d) :
    ds.sights.getLast?.bind Sight.begun? = d.binding? ∧ ds.sights.getLast?.bind Sight.ended? = d.outcome? := by
  -- The induction is on the run, by what its last deed shows: nothing, so the sight before it is
  -- still the last one, or something of its own.
  induction h with
  | refl => exact ⟨rfl, rfl⟩
  | @snoc ds e d d' _ does ih =>
    rw [Deeds.sights_append, Deeds.sights_singleton]
    have silent : e.sight? = none → (ds.sights ++ e.sight?.toList).getLast? = ds.sights.getLast? := fun none => by
      rw [none, Option.toList_none, List.append_nil]
    have seen : ∀ a, e.sight? = some a → (ds.sights ++ e.sight?.toList).getLast? = some a := fun a some => by
      rw [some, Option.toList_some, List.getLast?_concat]
    cases does with
    | push pushes =>
      rw [silent (by cases pushes <;> rfl)]
      exact ih
    | @enter o =>
      rw [silent (by cases o <;> rfl)]
      exact ih
    | @exit o =>
      rw [seen (.ends o) (by cases o <;> rfl)]
      exact ⟨rfl, rfl⟩
    | receive c v =>
      rw [seen (.takes v) rfl]
      exact ⟨rfl, rfl⟩
    | native g =>
      rw [seen (.begins g) rfl]
      exact ⟨rfl, rfl⟩
    | returned =>
      rw [silent rfl]
      exact ih
    | completed g t =>
      rw [seen (.resumes t) rfl]
      exact ⟨rfl, rfl⟩

/-- A situation whose continuations are all in a set. -/
def Over (P : Callback κ → Prop) : Doing κ → Prop
  | .task t s => t.Over P ∧ ∀ h ∈ s, P h.callback
  | .call c _ s => P c ∧ ∀ h ∈ s, P h.callback
  | .binding _ s => ∀ h ∈ s, P h.callback
  | .exited _ => True

theorem Does.over {e : Deed κ} (h : d.Does b e d') (pure : PureOn b F (Task.Over P) P) (covered : d.Over P)
    (completed : ∀ t, e = .completed t → t.Over P) : d'.Over P := by
  cases h with
  | push pushes s =>
    obtain ⟨ht, hg⟩ := pure.pushes pushes covered.1
    exact ⟨ht, List.forall_mem_cons.2 ⟨hg, covered.2⟩⟩
  | @enter o s s' c next =>
    obtain ⟨g, rfl, sub⟩ := Handler.sublist_of_next next
    exact ⟨covered.2 g (sub.subset List.mem_cons_self),
      fun g' hg' => covered.2 g' (sub.subset (List.mem_cons_of_mem _ hg'))⟩
  | exit next => trivial
  | receive c v s => exact ⟨pure.receive c covered.1, covered.2⟩
  | native g s => exact covered.2
  | @returned c v t brings s =>
    rw [(pure.yields c v covered.1).eq_of_brings brings]
    exact ⟨pure.returns c v covered.1, covered.2⟩
  | completed g t s => exact ⟨completed t rfl, covered⟩

theorem Runs.over (h : d.Runs b ds d') (pure : PureOn b F (Task.Over P) P) (covered : d.Over P)
    (completed : ∀ t ∈ ds.completions, t.Over P) : d'.Over P := by
  induction h with
  | refl => exact covered
  | @snoc ds e d₁ d₂ _ does ih =>
    rw [Deeds.completions_snoc] at completed
    refine does.over pure (ih fun t ht => completed t (List.mem_append_left _ ht)) fun t he => ?_
    exact completed t (List.mem_append_right _ (by rw [he]; exact List.mem_singleton.2 rfl))

/-- What a process with pure continuations does next is decided by the message that it takes, and by the task
that completes its binding. -/
theorem Does.same {e e' : Deed κ} (h : d.Does b e d₁) (h' : d.Does b e' d₂)
    (pure : PureOn b F (Task.Over P) P) (covered : d.Over P)
    (takes : ∀ v v', e.sight? = some (.takes v) → e'.sight? = some (.takes v') → v = v')
    (resumes : ∀ t t', e.sight? = some (.resumes t) → e'.sight? = some (.resumes t') → t = t') : e = e' := by
  cases h with
  | push pushes s => exact (h'.of_pushes pushes).1.symm
  | enter next => exact (h'.of_next next).1.symm
  | exit next => exact (h'.of_next_none next).1.symm
  | receive c v s =>
    obtain ⟨v', rfl, -⟩ := h'.of_receive
    rw [takes v v' rfl rfl]
  | native g s => exact h'.of_native.1.symm
  | @returned c v t brings s =>
    obtain ⟨t', brings', rfl, -⟩ := h'.of_call
    have yields := pure.yields c v covered.1
    rw [yields.eq_of_brings brings, yields.eq_of_brings brings']
  | completed g t s =>
    cases h' with
    | completed _ t' => rw [resumes t t' rfl rfl]

/-- Of two entries at one place of a common continuation there is one only. -/
theorem eq_of_prefixes {α : Type} {before rest later l : List α} {a a' : α} (h : before ++ a :: rest <+: l)
    (h' : before ++ a' :: later <+: l) : a = a' := by
  obtain ⟨r, hr⟩ := h
  obtain ⟨r', hr'⟩ := h'
  rw [List.append_assoc] at hr hr'
  have same := List.append_cancel_left (hr.trans hr'.symm)
  exact (List.cons.inj same).1

/-- Of two runs with pure continuations and the same messages and completions, one goes on where the other
ends. -/
theorem Runs.comparable (h₁ : d.Runs b ds d₁) (h₂ : d.Runs b es d₂) (pure : PureOn b F (Task.Over P) P)
    (covered : d.Over P) {inbox : List (Value κ)} {replies : List (Task κ)}
    (messages₁ : ds.consumed <+: inbox) (messages₂ : es.consumed <+: inbox)
    (completions₁ : ds.completions <+: replies) (completions₂ : es.completions <+: replies)
    (allowed : ∀ t ∈ replies, t.Over P) :
    (∃ ls, es = ds ++ ls ∧ d₁.Runs b ls d₂) ∨ ∃ ls, ds = es ++ ls ∧ d₂.Runs b ls d₁ := by
  -- The induction shortens the first run. If the second one goes on where it ends, its next deed is the same.
  induction h₁ with
  | refl => exact .inl ⟨es, rfl, h₂⟩
  | @snoc ds e d' d₁ h does ih =>
    rw [Deeds.consumed_eq, Deeds.sights_append, List.filterMap_append, ← Deeds.consumed_eq,
      Deeds.sights_singleton] at messages₁
    rw [Deeds.completions_eq, Deeds.sights_append, List.filterMap_append, ← Deeds.completions_eq,
      Deeds.sights_singleton] at completions₁
    rcases ih ((List.prefix_append _ _).trans messages₁) ((List.prefix_append _ _).trans completions₁) with
      ⟨ls, rfl, rest⟩ | ⟨ls, rfl, rest⟩
    · rcases rest.head with ⟨rfl, rfl⟩ | ⟨e', ls, d'', rfl, does', rest⟩
      · exact .inr ⟨[e], by rw [List.append_nil], .one does⟩
      rw [Deeds.consumed_eq, Deeds.sights_append, List.filterMap_append, ← Deeds.consumed_eq] at messages₂
      rw [Deeds.completions_eq, Deeds.sights_append, List.filterMap_append, ← Deeds.completions_eq]
        at completions₂
      have covered' : d'.Over P := h.over pure covered fun t ht =>
        allowed t (((List.prefix_append _ _).trans completions₁).subset ht)
      obtain rfl : e = e' := by
        refine does.same does' pure covered' (fun v v' he he' => ?_) fun t t' he he' => ?_
        · rw [he] at messages₁
          rw [Deeds.sights, List.filterMap_cons_some he'] at messages₂
          exact eq_of_prefixes messages₁ messages₂
        · rw [he] at completions₁
          rw [Deeds.sights, List.filterMap_cons_some he'] at completions₂
          exact eq_of_prefixes completions₁ completions₂
      obtain rfl := does.unique does'
      exact .inl ⟨ls, by rw [List.append_assoc]; rfl, rest⟩
    · exact .inr ⟨ls ++ [e], by rw [List.append_assoc], rest.snoc does⟩

end Doing

/-! ### Processes in runs -/

/-- In an idle runtime a process that has not been killed has taken all its messages and waits for one, or
awaits a binding, or has exited. -/
theorem History.blocked {m : Machine κ σ} {r : Record κ} (h : History b m r) (idle : m.world.isIdle = true)
    {p : Pid} {x : Proc κ} {t : Task κ} {d : Doing κ} (hx : m.world.procs.get? p = some x)
    (interpreted : (r.of p).Interpreted b x.bare t d) (spared : .killed ∉ r.of p) :
    (∃ c s, d = .task (.receive c) s ∧ (r.of p).consumed = (r.of p).accepted) ∨ (∃ g s, d = .binding g s) ∨
      ∃ o, d = .exited o := by
  have sound := h.reachable.sound
  by_cases dead : x.isDead = true
  · exact .inr (.inr ((interpreted.killed_or_exited dead).resolve_left spared))
  have fits := interpreted.fits_of_living (Bool.eq_false_iff.2 dead)
  cases d with
  | task u s =>
    obtain ⟨c, rfl, empty⟩ := Proc.move?_eq_none (sound.stuck_of_idle idle hx) fits.1
    have all := (h.life p).fifo.alive x.bare (World.bare_of_get? hx) (by
      rw [Proc.isDead_bare, Proc.isDead, fits.1]
      rfl)
    refine .inl ⟨c, s, rfl, ?_⟩
    rw [← all, show x.bare.mailbox = [] from empty, List.append_nil]
  | call c v s => exact absurd fits.1 (sound.not_stepping (sound.ticksOf_eq_zero idle) hx)
  | binding g s => exact .inr (.inl ⟨g, s, rfl⟩)
  | exited o => exact fits.elim

/-- What is noted of a process that has not been killed is what has been seen last. -/
theorem Deeds.Interpreted.shows {ds : Deeds κ} {x : Proc κ} {t : Task κ} {d : Doing κ}
    (h : ds.Interpreted b x t d) (spared : .killed ∉ ds) :
    x.isDead = (ds.sights.getLast?.bind Sight.ended?).isSome ∧
      x.root.isAwaiting = (ds.sights.getLast?.bind Sight.begun?).isSome := by
  obtain ⟨begun, ended⟩ := h.runs.last
  rw [Deeds.sights_acts] at begun ended
  rw [begun, ended]
  -- A dead process has exited, since it was not killed; a living one fits what is interpreted,
  -- one case for each thing it may be doing.
  by_cases dead : x.root = .dead
  · obtain ⟨o, rfl⟩ := (h.dead dead).resolve_left spared
    rw [Proc.isDead, dead]
    exact ⟨rfl, rfl⟩
  have fits := h.fits dead
  cases d with
  | task u s =>
    rw [Proc.isDead, fits.1]
    exact ⟨rfl, rfl⟩
  | call c v s =>
    rw [Proc.isDead, fits.1]
    exact ⟨rfl, rfl⟩
  | binding g s =>
    obtain ⟨⟨n, c, awaiting⟩, -⟩ := fits
    rw [Proc.isDead, awaiting]
    exact ⟨rfl, rfl⟩
  | exited o => exact fits.elim

/-- What can be seen of the two processes is the same: whatever runs they are in, as long as they get the same
messages and their bindings are completed with the same tasks, what is seen of one begins what is seen of the
other. If they have got the same and have nothing left to do, the same has been seen of them: they have exited
with the same outcome, or they are blocked with the same messages left, both of them where they take one, or
both awaiting the binding that they have begun last. -/
def Task.Indistinct (b : Behaviour κ σ) (t t' : Task κ) : Prop :=
  ∀ (F : Callback κ → Value κ → Task κ) (P : Callback κ → Prop), PureOn b F (Task.Over P) P →
    t.Over P → t'.Over P →
    ∀ (m m' : Machine κ σ) (r r' : Record κ), History b m r → History b m' r' →
    ∀ p p', .spawned t ∈ r.of p → .spawned t' ∈ r'.of p' → .killed ∉ r.of p → .killed ∉ r'.of p' →
    (∃ inbox, (r.of p).accepted <+: inbox ∧ (r'.of p').accepted <+: inbox) →
    (∃ replies, (∀ u ∈ replies, u.Over P) ∧ (r.of p).completions <+: replies ∧
      (r'.of p').completions <+: replies) →
    ((r.of p).sights <+: (r'.of p').sights ∨ (r'.of p').sights <+: (r.of p).sights) ∧
      ((r.of p).accepted = (r'.of p').accepted → (r.of p).completions = (r'.of p').completions →
        m.world.isIdle = true → m'.world.isIdle = true →
          (r.of p).sights = (r'.of p').sights ∧ (r.of p).outcome? = (r'.of p').outcome? ∧
          ∀ x x', m.world.procs.get? p = some x → m'.world.procs.get? p' = some x' →
            x.isDead = x'.isDead ∧ x.bare.root.isAwaiting = x'.bare.root.isAwaiting ∧
              (x.isDead = false → x.mailbox = x'.mailbox))

section

variable {d d' d₁ d₂ : Doing κ} {ds ls : Deeds κ} {t t' : Task κ} {s : List (Handler κ)}

/-- A process that is blocked does nothing further without another message or completion. -/
theorem Doing.Runs.eq_nil_of_blocked {accepted : List (Value κ)} (h : d.Runs b ls d')
    (blocked : (∃ c s, d = .task (.receive c) s ∧ ds.consumed = accepted) ∨ (∃ g s, d = .binding g s) ∨
      ∃ o, d = .exited o)
    (messages : (ds ++ ls).consumed <+: accepted) (completed : (ds ++ ls).completions = ds.completions) :
    ls = [] := by
  rcases h.head with ⟨rfl, -⟩ | ⟨e, es, d₁, rfl, does, -⟩
  · rfl
  exfalso
  rw [Deeds.consumed_eq, Deeds.sights_append, List.filterMap_append, ← Deeds.consumed_eq] at messages
  rw [Deeds.completions_eq, Deeds.sights_append, List.filterMap_append, ← Deeds.completions_eq] at completed
  rcases blocked with ⟨c, s, rfl, all⟩ | ⟨g, s, rfl⟩ | ⟨o, rfl⟩
  · obtain ⟨v, rfl, -⟩ := does.of_receive
    have longer := messages.length_le
    rw [← all, List.length_append] at longer
    exact absurd longer (by simp [Deeds.sights, Deed.sight?, Sight.taken?])
  · cases does with
    | completed _ t =>
      have none := List.append_right_eq_self.1 completed
      cases none
  · cases does

/-- Of two processes with equal tasks, one has shown what the other has, and possibly more. If the first one
has nothing left to do and has got as much as the second one, it is not the second one that has shown more. -/
theorem Task.Equal.compare (equal : t.Equal b t') {F : Callback κ → Value κ → Task κ}
    {P : Callback κ → Prop} (pure : PureOn b F (Task.Over P) P) (covered : t.Over P) {m m' : Machine κ σ}
    {r r' : Record κ} (h : History b m r) (h' : History b m' r') {p p' : Pid} (spawned : .spawned t ∈ r.of p)
    (spawned' : .spawned t' ∈ r'.of p') (spared : .killed ∉ r.of p) {inbox : List (Value κ)}
    {replies : List (Task κ)} (messages : (r.of p).accepted <+: inbox) (messages' : (r'.of p').accepted <+: inbox)
    (completions : (r.of p).completions <+: replies) (completions' : (r'.of p').completions <+: replies)
    (allowed : ∀ u ∈ replies, u.Over P) :
    ((r.of p).sights <+: (r'.of p').sights ∨ (r'.of p').sights <+: (r.of p).sights) ∧
      ((r.of p).accepted = (r'.of p').accepted → (r.of p).completions = (r'.of p').completions →
        m.world.isIdle = true → (r'.of p').sights <+: (r.of p).sights) := by
  obtain ⟨x, d, hx, interpreted⟩ := h.interpreted spawned
  obtain ⟨x', d', hx', interpreted'⟩ := h'.interpreted spawned'
  -- What the second process does, the first one could do, and compared to this it is further on or behind.
  obtain ⟨es, d₁, runs, seen, -⟩ := (equal.symm []).runs interpreted'.runs
  have seen : es.sights = (r'.of p').sights := seen.trans (Deeds.sights_acts _)
  have acts := Deeds.sights_acts (r.of p)
  have taken : es.consumed = (r'.of p').consumed := by rw [Deeds.consumed_eq, seen, ← Deeds.consumed_eq]
  have resumed : es.completions = (r'.of p').completions := by
    rw [Deeds.completions_eq, seen, ← Deeds.completions_eq]
  have own : (r.of p).acts.consumed = (r.of p).consumed := by rw [Deeds.consumed_eq, acts, ← Deeds.consumed_eq]
  have own' : (r.of p).acts.completions = (r.of p).completions := by
    rw [Deeds.completions_eq, acts, ← Deeds.completions_eq]
  have ordered := (h'.life p').fifo.ordered
  rcases Doing.Runs.comparable runs interpreted.runs pure ⟨covered, nofun⟩
      (taken ▸ ordered.trans messages') (own ▸ ((h.life p).fifo.ordered.trans messages))
      (resumed ▸ completions') (own' ▸ completions) allowed with ⟨ls, ahead, -⟩ | ⟨ls, ahead, rest⟩
  · have further : (r'.of p').sights <+: (r.of p).sights := by
      rw [← acts, ahead, Deeds.sights_append, seen]
      exact List.prefix_append _ _
    exact ⟨.inr further, fun _ _ _ => further⟩
  · refine ⟨.inl ?_, fun same_messages same_completions idle => ?_⟩
    · rw [← acts, ← seen, ahead, Deeds.sights_append]
      exact List.prefix_append _ _
    · have blocked := h.blocked idle hx interpreted spared
      rw [← own] at blocked
      obtain rfl := rest.eq_nil_of_blocked blocked (by rw [← ahead, taken, same_messages]; exact ordered)
        (by rw [← ahead, resumed, own', same_completions])
      have same : (r'.of p').sights = (r.of p).sights := by
        rw [← seen, ← acts, ahead, List.append_nil]
      exact same ▸ List.prefix_rfl

/-- Processes with equal tasks cannot be told apart. -/
theorem Task.Equal.indistinct (equal : t.Equal b t') : t.Indistinct b t' := by
  intro F P pure covered covered' m m' r r' h h' p p' spawned spawned' spared spared'
  rintro ⟨inbox, messages, messages'⟩ ⟨replies, allowed, completions, completions'⟩
  obtain ⟨compared, ahead⟩ := equal.compare pure covered h h' spawned spawned' spared messages messages'
    completions completions' allowed
  -- Each of the two is ahead of the other when both are idle, which leaves equal sights.
  refine ⟨compared, fun same_messages same_completions idle idle' => ?_⟩
  have ahead' := (equal.symm.compare pure covered' h' h spawned' spawned spared' messages' messages
    completions' completions allowed).2 same_messages.symm same_completions.symm idle'
  have ahead := ahead same_messages same_completions idle
  have seen : (r.of p).sights = (r'.of p').sights := ahead'.eq_of_length_le ahead.length_le
  obtain ⟨x, d, hx, interpreted⟩ := h.interpreted spawned
  obtain ⟨x', d', hx', interpreted'⟩ := h'.interpreted spawned'
  refine ⟨seen, ?_, fun y y' hy hy' => ?_⟩
  · have outcome : ∀ {r : Record κ} {p : Pid} {x : Proc κ} {t : Task κ} {d : Doing κ},
        (r.of p).Interpreted b x t d → (r.of p).outcome? = (r.of p).sights.getLast?.bind Sight.ended? := by
      intro r p x t d interpreted
      have last := interpreted.runs.last.2
      rw [Deeds.sights_acts] at last
      rw [last, ← interpreted.runs.outcome?, Deeds.outcome?, Deeds.outcome?, Deeds.moves_acts]
    rw [outcome interpreted, outcome interpreted', seen]
  · obtain rfl := Option.some.inj (hx.symm.trans hy)
    obtain rfl := Option.some.inj (hx'.symm.trans hy')
    obtain ⟨dead, awaiting⟩ := interpreted.shows spared
    obtain ⟨dead', awaiting'⟩ := interpreted'.shows spared'
    rw [Proc.isDead_bare] at dead dead'
    have same : x.isDead = x'.isDead := by rw [dead, dead', seen]
    refine ⟨same, by rw [awaiting, awaiting', seen], fun alive => ?_⟩
    -- While alive, a process has in its mailbox what it has not consumed, and both have consumed
    -- the same.
    have all := (h.life p).fifo.alive x.bare (World.bare_of_get? hx) (by rw [Proc.isDead_bare, alive])
    have all' := (h'.life p').fifo.alive x'.bare (World.bare_of_get? hx') (by
      rw [Proc.isDead_bare, ← same, alive])
    have taken : (r.of p).consumed = (r'.of p').consumed := by
      rw [Deeds.consumed_eq, seen, ← Deeds.consumed_eq]
    rw [← same_messages, ← all, taken] at all'
    exact (List.append_cancel_left all').symm

end

/-- The laws of sequences and of handlers, for all tasks, on every stack of handlers. A success goes on with
the continuation; a continuation that succeeds with its value can be left out; three tasks can be grouped
either way; and the same for failures and their handlers. A success passes a handler of failures, and a
failure a continuation. Equal tasks are equal inside other tasks, and processes that run them cannot be told
apart. -/
theorem Task.handler_laws (b : Behaviour κ σ) :
    ((∀ v c f, Callback.Computes b c f → Task.Equal b (.andThen (.succeed v) c) (f v)) ∧
      (∀ t c, Callback.Computes b c .succeed → Task.Equal b (.andThen t c) t) ∧
      ∀ t c c' k f, Callback.Computes b c f → Callback.Computes b k (fun v => .andThen (f v) c') →
        Task.Equal b (.andThen (.andThen t c) c') (.andThen t k)) ∧
    ((∀ e c f, Callback.Computes b c f → Task.Equal b (.onError (.fail e) c) (f e)) ∧
      (∀ t c, Callback.Computes b c .fail → Task.Equal b (.onError t c) t) ∧
      ∀ t c c' k f, Callback.Computes b c f → Callback.Computes b k (fun v => .onError (f v) c') →
        Task.Equal b (.onError (.onError t c) c') (.onError t k)) ∧
    ((∀ v c, Task.Equal b (.onError (.succeed v) c) (.succeed v)) ∧
      ∀ e c, Task.Equal b (.andThen (.fail e) c) (.fail e)) ∧
    ((∀ t t' c c', Task.Equal b t t' → Callback.Equal b c c' →
        Task.Equal b (.andThen t c) (.andThen t' c') ∧ Task.Equal b (.onError t c) (.onError t' c')) ∧
      (∀ c c', Callback.Equal b c c' → Task.Equal b (.receive c) (.receive c')) ∧
      ∀ c c' f f', Callback.Computes b c f → Callback.Computes b c' f' → (∀ v, Task.Equal b (f v) (f' v)) →
        Callback.Equal b c c') ∧
    ∀ t t', Task.Equal b t t' → Task.Indistinct b t t' := by
  have passes : ∀ (c : Callback κ) s v, Handler.next (.ok v) (Side.failure.handler c :: s) = Handler.next (.ok v) s :=
    fun _ _ _ => rfl
  have passes' : ∀ (c : Callback κ) s e,
      Handler.next (.error e) (Side.success.handler c :: s) = Handler.next (.error e) s := fun _ _ _ => rfl
  refine ⟨⟨fun v c f h => ?_, fun t c h => ?_, fun t c c' k f h hk => ?_⟩,
    ⟨fun e c f h => ?_, fun t c h => ?_, fun t c c' k f h hk => ?_⟩, ⟨fun v c => ?_, fun e c => ?_⟩,
    ⟨fun t t' c c' ht hc => ⟨?_, ?_⟩, fun c c' hc => .receive hc,
      fun c c' f f' h h' equal => h.callback_equal h' equal⟩, fun t t' equal => equal.indistinct⟩
  · exact Task.Equal.result_attach .success h v
  · exact Task.Equal.attach_result .success h t
  · exact Task.Equal.attach_attach .success h hk t
  · exact Task.Equal.result_attach .failure h e
  · exact Task.Equal.attach_result .failure h t
  · exact Task.Equal.attach_attach .failure h hk t
  · exact Task.Equal.outcome_attach .failure (fun c s => passes c s v) c
  · exact Task.Equal.outcome_attach .success (fun c s => passes' c s e) c
  · exact Task.Equal.attach .success ht hc
  · exact Task.Equal.attach .failure ht hc

/-- What a process does with a value: it sends a message that nobody gets. -/
def greet (_ : Unit) (_ : Value Unit) : Task Unit :=
  .native (.send ⟨7⟩ .unit)

/-- A process begins with a success and goes on with this. -/
def politely : Machine Unit Unit :=
  let code : Code Unit Unit Unit :=
    (Code.ask (.spawn (.andThen (.succeed .unit) (.code ())))).bind fun _ =>
      (Code.ask (.drive .idle)).bind fun _ => .ret ()
  .load (.new .standard ()) (Procedure.ofCode code)

/-- A process does this at once, beside another one, and every turn has one step. -/
def bluntly : Machine Unit Unit :=
  let code : Code Unit Unit Unit :=
    (Code.ask (.spawn (.native .this))).bind fun _ =>
      (Code.ask (.spawn (.native (.send ⟨7⟩ .unit)))).bind fun _ =>
        (Code.ask (.drive .idle)).bind fun _ => .ret ()
  .load (.new { Config.standard with budget := .ofNat 1 } ()) (Procedure.ofCode code)

/-- The two processes cannot be told apart, though one of them makes two more transitions. -/
theorem greetings_agree :
    Task.Equal (.ofCallbacks greet) (.andThen (.succeed .unit) (.code ())) (greet () .unit) ∧
      ((Machine.records (.ofCallbacks greet) 40 politely).of ⟨1⟩).sights =
        ((Machine.records (.ofCallbacks greet) 50 bluntly).of ⟨2⟩).sights ∧
      ((Machine.records (.ofCallbacks greet) 40 politely).of ⟨1⟩).moves.length =
        ((Machine.records (.ofCallbacks greet) 50 bluntly).of ⟨2⟩).moves.length + 2 := by
  obtain ⟨⟨goes, -⟩, -, -, -, runs⟩ := Task.handler_laws (.ofCallbacks greet)
  have start : History (.ofCallbacks greet) politely [] := .new _ _ _
  have start' : History (.ofCallbacks greet) bluntly [] := .new _ _ _
  have h : History _ _ (Machine.records (.ofCallbacks greet) 40 politely) := start.run 40
  have h' : History _ _ (Machine.records (.ofCallbacks greet) 50 bluntly) := start'.run 50
  have deeds : (Machine.records (.ofCallbacks greet) 40 politely).of ⟨1⟩ =
      [.spawned (.andThen (.succeed .unit) (.code ())), .moved ⟨.andThen (.succeed .unit) (.code ()), none⟩,
        .moved ⟨.succeed .unit, some (.code (), .unit)⟩, .returned (.native (.send ⟨7⟩ .unit)),
        .moved ⟨.native (.send ⟨7⟩ .unit), none⟩, .completed (.succeed .unit),
        .moved ⟨.succeed .unit, none⟩] := rfl
  have deeds' : (Machine.records (.ofCallbacks greet) 50 bluntly).of ⟨2⟩ =
      [.spawned (.native (.send ⟨7⟩ .unit)), .moved ⟨.native (.send ⟨7⟩ .unit), none⟩,
        .completed (.succeed .unit), .moved ⟨.succeed .unit, none⟩] := rfl
  have equal : Task.Equal (.ofCallbacks greet) (.andThen (.succeed .unit) (.code ())) (greet () .unit) :=
    goes .unit (.code ()) (greet ()) (.of_code (.new .standard ()) fun _ => rfl)
  have pure : PureOn (.ofCallbacks greet) (fun _ => greet ()) (Task.Over (· = .code ())) (· = .code ()) :=
    .of_over (fun c v hc => hc ▸ Yields.ofCallbacks greet () v) fun _ _ _ => trivial
  obtain ⟨-, same⟩ := runs _ _ equal _ _ pure ⟨trivial, rfl⟩ trivial _ _ _ _ h h' ⟨1⟩ ⟨2⟩
    (deeds ▸ List.mem_cons_self) (deeds' ▸ List.mem_cons_self) (by rw [deeds]; simp) (by rw [deeds']; simp)
    ⟨[], by rw [deeds]; exact List.prefix_rfl, by rw [deeds']; exact List.prefix_rfl⟩
    ⟨[.succeed .unit], fun u hu => by rw [List.mem_singleton.1 hu]; trivial,
      by rw [deeds]; exact List.prefix_rfl, by rw [deeds']; exact List.prefix_rfl⟩
  exact ⟨equal, (same (by rw [deeds, deeds']; rfl) (by rw [deeds, deeds']; rfl) rfl rfl).1,
    by rw [deeds, deeds']; rfl⟩

end Actors
