/-
Disciplines.

What code may do can depend on what it has done before: a name is installed only by the code that has
reserved it, and only once. A discipline gives code a state, says which directives it may perform in
that state, and where a reply leaves it. A directive that expands into further code, such as a call,
has a state of its own while that code is under way. Code obeys a discipline whatever the replies are,
so nothing has to be said about worlds here.

* `Directive.Expands`, `Directive.step_cases` — a directive is answered, or it expands into code;
* `Discipline`, `Procedure.Obeys` — what code may do, and the code that keeps to it;
* `Discipline.Settled` — how the return of expanded code changes the state;
* `Procedure.Restores`, `Procedure.Uses` — code that ends in the state in which it begins, and code
  that performs certain directives only;
* `Procedure.Runs` — code in the middle of directives that have been expanded, and
  `Procedure.Runs.op_cases`: what an operation of such code may be.
-/
import Actors.Proofs.Conduct

namespace Actors

variable {κ σ S α β : Type} {b : Behaviour κ σ}

open Procedure

/-! ### Directives that expand into code -/

/-- The code that a directive expands into. -/
inductive Directive.Expands (b : Behaviour κ σ) :
    (d : Directive κ σ) → Procedure κ σ d.Reply → Prop where
  | invoke (c : Call κ) : Expands b (.invoke c) (ofCode (b.code c))
  | build (c : κ) : Expands b (.request (.build c)) (Procedure.invoke (.build c))
  | convert (c : κ) (v : Value κ) :
      Expands b (.request (.convert c v)) (Procedure.invoke (.convert c v))
  | spawnWith (c : κ) :
      Expands b (.request (.spawnWith c)) (Procedure.spawnWith c)
  | start (c : κ) :
      Expands b (.request (.start c)) ((Program.start b c).bind fun r => .ret (some r))
  /-- What calls a binding off is run. -/
  | kill (p : Pid) (c : κ) : Expands b (.request (.kill p)) (Procedure.invoke (.thunk c))
  | attach (t : Ticket) (c c' : κ) : Expands b (.attach t c) (Procedure.invoke (.thunk c'))

namespace Directive

variable {w w' : World κ σ} {d : Directive κ σ}

/-- What a directive leads to, whatever code is behind it. -/
theorem step_eq_bind (b : Behaviour κ σ) (w : World κ σ) (d : Directive κ σ)
    (k : d.Reply → Procedure κ σ α) :
    d.step b w k = (d.step b w Act.ret).bind k :=
  d.step_bind w Act.ret k

theorem ret_or_expands_of_callOff {w₁ : World κ σ} {c : Option (Cancel κ)}
    {y : Procedure κ σ Unit} (h : Progress.callOff w₁ c (.ret ()) = .next w' y) :
    y = .ret () ∨ ∃ c', y = Procedure.invoke (.thunk c') := by
  unfold Progress.callOff at h
  split at h
  · exact .inl (Progress.next.inj h).2.symm
  · exact .inl (Progress.next.inj h).2.symm
  · next c' => exact .inr ⟨c', (Progress.next.inj h).2.symm⟩

/-- A directive is answered, or it expands. -/
theorem ret_or_expands {y : Procedure κ σ d.Reply} (h : d.step b w Act.ret = .next w' y) :
    (∃ r, y = .ret r) ∨ d.Expands b y := by
  -- What a directive expands to is code that was not there before: a call, the start of a
  -- program, what calls something off.
  cases d with
  | request r =>
    cases r with
    | build c =>
      obtain ⟨-, rfl⟩ := Progress.next.inj h
      exact .inr (.build c)
    | convert c v =>
      obtain ⟨-, rfl⟩ := Progress.next.inj h
      exact .inr (.convert c v)
    | spawn t =>
      rcases of_spawn h with ⟨p, -, -, rfl⟩ | ⟨-, -, rfl⟩ <;> exact .inl ⟨_, rfl⟩
    | spawnWith c =>
      obtain ⟨-, ⟨-, rfl⟩ | ⟨-, rfl⟩⟩ := of_spawnWith h
      · exact .inr (Eq.mpr (congrArg (Expands b _) (Act.bind_ret _)) (.spawnWith c))
      · exact .inl ⟨_, rfl⟩
    | kill p =>
      rcases of_kill h with ⟨-, off⟩ | ⟨-, -, rfl⟩
      · rcases ret_or_expands_of_callOff off with rfl | ⟨c, rfl⟩
        · exact .inl ⟨_, rfl⟩
        · exact .inr (.kill p c)
      · exact .inl ⟨_, rfl⟩
    | complete t task => exact .inl ⟨_, (Progress.of_ofExcept h).2⟩
    | drive e => cases h
    | start c =>
      obtain ⟨-, ⟨-, rfl⟩ | ⟨-, rfl⟩⟩ := of_start h
      · exact .inr (.start c)
      · exact .inl ⟨_, rfl⟩
    | model p =>
      obtain ⟨-, v, rfl⟩ := of_model h
      exact .inl ⟨_, rfl⟩
    | _ =>
      obtain ⟨-, rfl⟩ := Progress.next.inj h
      exact .inl ⟨_, rfl⟩
  | invoke c =>
    obtain ⟨-, rfl⟩ := Progress.next.inj h
    exact .inr (Eq.mpr (congrArg (Expands b _) (Act.bind_ret _)) (.invoke c))
  | settle t task => exact .inl ⟨_, (Progress.of_ofExcept h).2⟩
  | attach t c =>
    rcases ret_or_expands_of_callOff h with rfl | ⟨c', rfl⟩
    · exact .inl ⟨_, rfl⟩
    · exact .inr (.attach t c c')
  | reserve =>
    obtain ⟨p, -, rfl⟩ := of_reserve h
    exact .inl ⟨_, rfl⟩
  | install p label t => exact .inl ⟨_, (Progress.of_ofExcept h).2⟩
  | _ =>
    obtain ⟨-, rfl⟩ := Progress.next.inj h
    exact .inl ⟨_, rfl⟩

/-- Code that has performed a directive goes on with the reply, or behind what the directive has
expanded into. -/
theorem step_cases {k : d.Reply → Procedure κ σ α} {code : Procedure κ σ α}
    (h : d.step b w k = .next w' code) :
    (∃ r, d.step b w Act.ret = .next w' (.ret r) ∧ code = k r) ∨
      ∃ y, d.step b w Act.ret = .next w' y ∧ d.Expands b y ∧ code = y.bind k := by
  rw [step_eq_bind] at h
  cases hs : d.step b w Act.ret with
  | next w₁ y =>
    rw [hs] at h
    obtain ⟨rfl, rfl⟩ := Progress.next.inj h
    rcases ret_or_expands hs with ⟨r, rfl⟩ | expands
    · exact .inl ⟨r, rfl, rfl⟩
    · exact .inr ⟨y, rfl, expands, rfl⟩
  | drive w₁ goal k' => rw [hs] at h; cases h
  | fault f => rw [hs] at h; cases h

end Directive

/-! ### Disciplines -/

/-- What code may do in each of a number of states. -/
structure Discipline (κ σ S : Type) where
  /-- The state of what owes nothing. -/
  idle : S
  /-- The state in which a process enters a continuation. -/
  enter : Pid → Callback κ → Value κ → S
  /-- The state in which the work of a binding begins. -/
  launch : Ticket → Binding κ → S
  may : S → Directive κ σ → Prop
  /-- What is known of a reply. -/
  knows : S → (d : Directive κ σ) → d.Reply → Prop
  /-- The state while the code is under way that a directive has expanded into. -/
  within : S → Directive κ σ → S
  /-- The state once a directive has been answered. -/
  next : S → (d : Directive κ σ) → d.Reply → S
  /-- The tasks that a continuation may return at its end. -/
  gives : S → Task κ → Prop
  /-- Where the work of a binding may end. -/
  ends : S → Prop

/-- Code that performs only what it may, and ends in a certain state, whatever is replied. -/
def Procedure.Obeys (D : Discipline κ σ S) (Q : S → α → Prop) : S → Procedure κ σ α → Prop
  | s, .ret a => Q s a
  | _, .raise _ => True
  | s, .op d k => D.may s d ∧ ∀ r, D.knows s d r → Procedure.Obeys D Q (D.next s d r) (k r)

namespace Procedure

variable {D : Discipline κ σ S} {Q Q' : S → α → Prop} {s : S}

theorem Obeys.mono {x : Procedure κ σ α} (h : x.Obeys D Q s) (hQ : ∀ s a, Q s a → Q' s a) :
    x.Obeys D Q' s := by
  induction x generalizing s with
  | ret a => exact hQ s a h
  | raise f => trivial
  | op d k ih =>
    obtain ⟨may, next⟩ := h
    exact ⟨may, fun r known => ih r (next r known)⟩

theorem Obeys.bind {R : S → β → Prop} {x : Procedure κ σ α} {f : α → Procedure κ σ β}
    (h : x.Obeys D Q s) (hf : ∀ s a, Q s a → (f a).Obeys D R s) : Obeys D R s (x.bind f) := by
  induction x generalizing s with
  | ret a => exact hf s a h
  | raise e => trivial
  | op d k ih =>
    obtain ⟨may, next⟩ := h
    exact ⟨may, fun r known => ih r (next r known)⟩

theorem Obeys.map {R : S → β → Prop} {x : Procedure κ σ α} {g : α → β}
    (h : x.Obeys D (fun s a => R s (g a)) s) : Obeys D R s (x.map g) := by
  rw [Act.map_eq_bind]
  exact h.bind fun _ _ => id

/-- A directive, and what follows it. -/
theorem obeys_first {R : S → β → Prop} {d : Directive κ σ} {f : d.Reply → Procedure κ σ β}
    (may : D.may s d) (hf : ∀ r, D.knows s d r → (f r).Obeys D R (D.next s d r)) :
    Obeys D R s ((direct d).bind f) :=
  ⟨may, hf⟩

end Procedure

/-- A result that user code may come to, whatever is replied to it. -/
inductive Code.Returns : Code κ σ α → α → Prop where
  | ret (a : α) : Returns (.ret a) a
  | op {r : Request κ σ} {k : r.Reply → Code κ σ α} {x : r.Reply} {a : α} (h : Returns (k x) a) :
      Returns (.op r k) a

theorem Code.returns_ret {a a' : α} (h : Code.Returns (.ret a : Code κ σ α) a') : a' = a := by
  cases h
  rfl

/-- User code obeys a discipline in a state in which it may request everything. -/
theorem Procedure.obeys_ofCode {D : Discipline κ σ S} {s : S}
    (free : ∀ r : Request κ σ, D.may s (.request r) ∧ ∀ x, D.next s (.request r) x = s)
    (code : Code κ σ α) : (ofCode code).Obeys D (fun s' a => s' = s ∧ code.Returns a) s := by
  induction code with
  | ret a => exact ⟨rfl, .ret a⟩
  | raise f => trivial
  | op r k ih =>
    obtain ⟨may, same⟩ := free r
    refine ⟨may, fun x _ => ?_⟩
    rw [same x]
    refine (ih x).mono fun s' a => ?_
    rintro ⟨rfl, returns⟩
    exact ⟨rfl, .op returns⟩

/-! ### Code that comes back to where it was -/

/-- Whether a directive is allowed in a state and leaves it. -/
def Discipline.Neutral (D : Discipline κ σ S) (s : S) (d : Directive κ σ) : Prop :=
  D.may s d ∧ ∀ r, D.knows s d r → D.next s d r = s

/-- Code that ends in the state in which it begins. -/
def Procedure.Restores (D : Discipline κ σ S) (s : S) (x : Procedure κ σ α) : Prop :=
  x.Obeys D (fun s' _ => s' = s) s

/-- Code that performs certain directives only. -/
def Procedure.Uses (P : Directive κ σ → Prop) : Procedure κ σ α → Prop
  | .ret _ => True
  | .raise _ => True
  | .op d k => P d ∧ ∀ r, Procedure.Uses P (k r)

namespace Procedure

variable {D : Discipline κ σ S} {s : S} {P P' : Directive κ σ → Prop}

theorem Restores.bind {x : Procedure κ σ α} {f : α → Procedure κ σ β} (h : x.Restores D s)
    (hf : ∀ a, (f a).Restores D s) : Restores D s (x.bind f) := by
  refine Obeys.bind h fun s' a hs => ?_
  rw [hs]
  exact hf a

/-- A directive that leaves the state, and what follows it. -/
theorem obeys_neutral {R : S → α → Prop} {d : Directive κ σ} {f : d.Reply → Procedure κ σ α}
    (h : D.Neutral s d) (hf : ∀ r, D.knows s d r → (f r).Obeys D R s) :
    Obeys D R s ((direct d).bind f) := by
  obtain ⟨may, same⟩ := h
  refine obeys_first may fun r known => ?_
  rw [same r known]
  exact hf r known

theorem restores_first {d : Directive κ σ} {f : d.Reply → Procedure κ σ α} (h : D.Neutral s d)
    (hf : ∀ r, D.knows s d r → (f r).Restores D s) : Restores D s ((direct d).bind f) :=
  obeys_neutral h hf

theorem Uses.mono {x : Procedure κ σ α} (h : x.Uses P) (hP : ∀ d, P d → P' d) : x.Uses P' := by
  induction x with
  | ret a => trivial
  | raise f => trivial
  | op d k ih => exact ⟨hP d h.1, fun r => ih r (h.2 r)⟩

theorem Uses.bind {x : Procedure κ σ α} {f : α → Procedure κ σ β} (h : x.Uses P)
    (hf : ∀ a, (f a).Uses P) : Uses P (x.bind f) := by
  induction x with
  | ret a => exact hf a
  | raise f => trivial
  | op d k ih => exact ⟨h.1, fun r => ih r (h.2 r)⟩

theorem Uses.map {x : Procedure κ σ α} (h : x.Uses P) (g : α → β) : Uses P (x.map g) := by
  rw [Act.map_eq_bind]
  exact h.bind fun _ => trivial

theorem uses_first {d : Directive κ σ} {f : d.Reply → Procedure κ σ α} (h : P d)
    (hf : ∀ r, (f r).Uses P) : Uses P ((direct d).bind f) :=
  ⟨h, hf⟩

theorem uses_direct {d : Directive κ σ} (h : P d) : Uses P (direct d) :=
  ⟨h, fun _ => trivial⟩

theorem uses_ofExcept (r : Except Fault α) : Uses P (Act.ofExcept r) := by
  cases r <;> trivial

theorem uses_ofCode (h : ∀ r, P (.request r)) (code : Code κ σ α) : Uses P (ofCode code) := by
  induction code with
  | ret a => trivial
  | raise f => trivial
  | op r k ih => exact ⟨h r, ih⟩

/-- Code that performs only directives which leave the state ends where it begins. -/
theorem Uses.restores {x : Procedure κ σ α} (h : x.Uses P) (neutral : ∀ d, P d → D.Neutral s d) :
    x.Restores D s := by
  induction x with
  | ret a => exact rfl
  | raise f => trivial
  | op d k ih =>
    obtain ⟨hd, hk⟩ := h
    obtain ⟨may, same⟩ := neutral d hd
    refine ⟨may, fun r known => ?_⟩
    rw [same r known]
    exact ih r (hk r)

end Procedure

namespace Discipline

variable (D : Discipline κ σ S)

/-- A discipline that all code keeps to: the code of the runtime, and what directives expand into. -/
structure Lawful (b : Behaviour κ σ) : Prop where
  code : ∀ x : Code κ σ Unit, (ofCode x).Obeys D (fun s _ => s = D.idle) D.idle
  thunk : ∀ c, (Procedure.invoke (.thunk c)).Obeys D (fun s _ => s = D.idle) D.idle
  callback : ∀ (p : Pid) (c : Callback κ) (v : Value κ),
    (c.run b v).Obeys D D.gives (D.enter p c v)
  binding : ∀ (t : Ticket) (g : Binding κ),
    (g.start b t).Obeys D (fun s _ => D.ends s) (D.launch t g)
  expands : ∀ s d y, D.may s d → d.Expands b y →
    y.Obeys D (fun s' r => s' = D.within s d ∧ D.knows s d r) (D.within s d)
  drive : ∀ s e n, D.may s (.request (.drive e)) →
    D.knows s (.request (.drive e)) n ∧ D.next s (.request (.drive e)) n = s

/-- The code that a directive has expanded into returns. -/
inductive Settles (b : Behaviour κ σ) : S → S → Prop where
  | intro {s : S} {d : Directive κ σ} {y : Procedure κ σ d.Reply} (may : D.may s d)
      (expands : d.Expands b y) (r : d.Reply) (known : D.knows s d r) :
      Settles b (D.within s d) (D.next s d r)

/-- Any number of returns. -/
inductive Settled (b : Behaviour κ σ) : S → S → Prop where
  | refl (s : S) : Settled b s s
  | head {s s' s'' : S} (h : D.Settles b s s') (t : Settled b s' s'') : Settled b s s''

variable {D}

theorem Settled.trans {s s' s'' : S} (h : D.Settled b s s') (h' : D.Settled b s' s'') :
    D.Settled b s s'' := by
  induction h with
  | refl => exact h'
  | head h _ ih => exact .head h (ih h')

theorem Settled.eq {s s' : S} (none : ∀ s s', D.Settles b s s' → s' = s) (h : D.Settled b s s') :
    s' = s := by
  induction h with
  | refl => rfl
  | head h _ ih => rw [ih, none _ _ h]

/-- Where one operation leads, in a world. -/
inductive Moves (D : Discipline κ σ S) (b : Behaviour κ σ) (w : World κ σ) (s : S) (d : Directive κ σ)
    (w' : World κ σ) : S → Prop where
  | answered (r : d.Reply) (h : d.step b w Act.ret = .next w' (.ret r)) (known : D.knows s d r) :
      Moves D b w s d w' (D.next s d r)
  | expanded {y : Procedure κ σ d.Reply} (h : d.step b w Act.ret = .next w' y)
      (expands : d.Expands b y) : Moves D b w s d w' (D.within s d)

end Discipline

/-! ### Code under way -/

/-- Code under way: code that obeys a discipline, or what a directive of such code has expanded into,
with the rest behind it. -/
inductive Procedure.Runs (D : Discipline κ σ S) (b : Behaviour κ σ) :
    {α : Type} → (S → α → Prop) → S → Procedure κ σ α → Prop where
  | own {α : Type} {Q : S → α → Prop} {s : S} {x : Procedure κ σ α} (h : x.Obeys D Q s) : Runs D b Q s x
  | inside {α : Type} {Q : S → α → Prop} {s t : S} {d : Directive κ σ} {y y₀ : Procedure κ σ d.Reply}
      {k : d.Reply → Procedure κ σ α} (may : D.may s d) (expands : d.Expands b y₀)
      (h : Runs D b (fun s' r => s' = D.within s d ∧ D.knows s d r) t y)
      (rest : ∀ r, D.knows s d r → (k r).Obeys D Q (D.next s d r)) : Runs D b Q t (y.bind k)

namespace Procedure.Runs

variable {D : Discipline κ σ S} {Q : S → α → Prop} {s : S}

theorem ret_cases {x : Procedure κ σ α} (h : x.Runs D b Q s) {a : α} (hx : x = .ret a) :
    ∃ s', D.Settled b s s' ∧ Q s' a := by
  induction h with
  | own h =>
    subst hx
    exact ⟨_, .refl _, h⟩
  | @inside α Q s t d y y₀ k may expands h rest ih =>
    cases y with
    | ret r =>
      obtain ⟨s', settled, rfl, known⟩ := ih rfl
      have returned : Procedure.Obeys D Q (D.next s d r) (.ret a) := hx ▸ rest r known
      exact ⟨_, settled.trans (.head (.intro may expands r known) (.refl _)), returned⟩
    | raise f => cases hx
    | op d' k' => cases hx

/-- What an operation of code under way may be: the code may perform it, once some of the code that
directives have expanded into has returned, and the code that is left is under way. -/
theorem op_cases {x : Procedure κ σ α} (h : x.Runs D b Q s) {d : Directive κ σ}
    {k : d.Reply → Procedure κ σ α} (hx : x = .op d k) :
    ∃ s', D.Settled b s s' ∧ D.may s' d ∧
      (∀ r, D.knows s' d r → (k r).Runs D b Q (D.next s' d r)) ∧
      ∀ y y₀ : Procedure κ σ d.Reply, d.Expands b y₀ →
        y.Obeys D (fun t r => t = D.within s' d ∧ D.knows s' d r) (D.within s' d) →
          Runs D b Q (D.within s' d) (y.bind k) := by
  induction h with
  | own h =>
    subst hx
    obtain ⟨may, next⟩ := h
    exact ⟨_, .refl _, may, fun r known => .own (next r known), fun y y₀ expands hy =>
      .inside may expands (.own hy) next⟩
  | @inside α Q s t d₁ y y₁ k₁ may expands h rest ih =>
    cases y with
    | raise f => cases hx
    | ret r =>
      -- The code that was expanded has returned, so the operation is one of the code behind it.
      obtain ⟨s', settled, rfl, known⟩ := h.ret_cases rfl
      have behind : Procedure.Obeys D Q (D.next s d₁ r) (.op d k) := hx ▸ rest r known
      obtain ⟨may', next⟩ := behind
      exact ⟨_, settled.trans (.head (.intro may expands r known) (.refl _)), may',
        fun r' known' => .own (next r' known'), fun y y₀ expands' hy =>
          .inside may' expands' (.own hy) next⟩
    | op d' k' =>
      cases hx
      obtain ⟨s', settled, may', next, deeper⟩ := ih rfl
      refine ⟨s', settled, may', fun r known => .inside may expands (next r known) rest,
        fun y y₀ expands' hy => ?_⟩
      have behind : (y.bind k').bind k₁ = y.bind fun r => (k' r).bind k₁ := Act.bind_assoc y k' k₁
      exact behind ▸ .inside may expands (deeper y y₀ expands' hy) rest

end Procedure.Runs

end Actors
