/-
A process does not depend on its schedule.

Two runs may differ in the step budget, in the other processes, in the code that drives them, and in
when messages and completions arrive. As long as a process with pure continuations gets the same
messages and the same completions in both, it makes the same transitions, and one run can at most be
further on than the other.

* `Solo.step_of_idle` — a process that is left in an idle runtime can do nothing on its own;
* `History.schedule_independent` — the comparison of two runs.
-/
import Actors.Proofs.Solo

namespace Actors

variable {κ σ : Type} {b : Behaviour κ σ}

/-- A process in an idle runtime is at the end of its run on its own, if no message and no
completion is to come. -/
theorem Solo.step_of_idle {m : Machine κ σ} (h : m.Sound) (idle : m.world.isIdle = true) {p : Pid}
    {x : Proc κ} (hx : m.world.procs.get? p = some x) (f : Callback κ → Value κ → Task κ)
    (call : Option (Callback κ × Value κ)) :
    x.bare.ahead f call [] = x.bare ∧ Solo.step f ⟨x.bare, []⟩ = none := by
  have stuck : x.bare.move? = none := by rw [Proc.move?_bare, h.stuck_of_idle idle hx]
  have stepping : x.bare.root ≠ .stepping := by
    rw [Proc.bare_root, ne_eq, Root.bare_eq_stepping]
    exact h.not_stepping (h.ticksOf_eq_zero idle) hx
  constructor
  · have root : x.bare.root.ahead f call = x.bare.root := by
      cases hr : x.bare.root with
      | stepping => exact absurd hr stepping
      | _ => rfl
    rw [Proc.ahead, root, List.append_nil, ite_self]
  · rw [Solo.step, stuck]
    cases x.bare.root <;> rfl

/-- The transitions of a process do not depend on the schedule. Two runs, of possibly different
user code, start a process with the same task under the same name. All continuations that the
process can meet are pure, and mean the same in both runs; nobody kills the process. Then, if the
messages that it accepts and the tasks that complete its bindings begin the same sequences in both
runs, its transitions in one of them begin its transitions in the other. If it has had the same
messages and completions, and both runtimes are idle, it has made the same transitions: it has
exited with the same outcome, or it is blocked in the same place with the same mailbox. -/
theorem History.schedule_independent {σ₁ σ₂ : Type} {b₁ : Behaviour κ σ₁} {b₂ : Behaviour κ σ₂}
    {f : Callback κ → Value κ → Task κ} {P : Callback κ → Prop}
    (pure₁ : ∀ c v, P c → Yields b₁ (f c v) (c.run b₁ v))
    (pure₂ : ∀ c v, P c → Yields b₂ (f c v) (c.run b₂ v))
    (closed : ∀ c v, P c → (f c v).Over P)
    {m₁ : Machine κ σ₁} {m₂ : Machine κ σ₂} {r₁ r₂ : Record κ} (h₁ : History b₁ m₁ r₁)
    (h₂ : History b₂ m₂ r₂) {p : Pid} {t : Task κ} (covered : t.Over P)
    (spawned₁ : .spawned t ∈ r₁.of p) (spawned₂ : .spawned t ∈ r₂.of p)
    (spared₁ : .killed ∉ r₁.of p) (spared₂ : .killed ∉ r₂.of p)
    (messages : ∃ inbox, (r₁.of p).accepted <+: inbox ∧ (r₂.of p).accepted <+: inbox)
    (completions : ∃ replies, (∀ u ∈ replies, u.Over P) ∧ (r₁.of p).completions <+: replies ∧
      (r₂.of p).completions <+: replies) :
    ((r₁.of p).moves <+: (r₂.of p).moves ∨ (r₂.of p).moves <+: (r₁.of p).moves) ∧
      ((r₁.of p).accepted = (r₂.of p).accepted → (r₁.of p).completions = (r₂.of p).completions →
        m₁.world.isIdle = true → m₂.world.isIdle = true →
          (r₁.of p).moves = (r₂.of p).moves ∧ (r₁.of p).outcome? = (r₂.of p).outcome? ∧
            m₁.world.bare p = m₂.world.bare p) := by
  obtain ⟨inbox, ⟨inbox₁, hi₁⟩, ⟨inbox₂, hi₂⟩⟩ := messages
  obtain ⟨replies, allowed, ⟨replies₁, hr₁⟩, ⟨replies₂, hr₂⟩⟩ := completions
  -- Either run follows the run of the process on its own, for any continuation of its sequences.
  obtain ⟨x₁, hx₁, -, goes₁⟩ := h₁.goes (.of_over pure₁ closed) covered spawned₁ spared₁
    fun _ u hu => allowed u (hr₁ ▸ List.mem_append_left _ hu)
  obtain ⟨x₂, hx₂, -, goes₂⟩ := h₂.goes (.of_over pure₂ closed) covered spawned₂ spared₂
    fun _ u hu => allowed u (hr₂ ▸ List.mem_append_left _ hu)
  constructor
  · -- With the common sequences both are parts of one run.
    have g₁ := goes₁ inbox₁ replies₁
    have g₂ := goes₂ inbox₂ replies₂
    rw [hi₁, hr₁] at g₁
    rw [hi₂, hr₂] at g₂
    rcases g₁.comparable g₂ with ⟨ls, hl, -⟩ | ⟨ls, hl, -⟩
    · exact .inl ⟨ls, hl.symm⟩
    · exact .inr ⟨ls, hl.symm⟩
  · intro same_accepted same_completions idle₁ idle₂
    -- With nothing to come both have got to the end of it.
    have g₁ := goes₁ [] []
    have g₂ := goes₂ [] []
    obtain ⟨ahead₁, stuck₁⟩ := Solo.step_of_idle h₁.reachable.sound idle₁ hx₁ f
      (r₁.of p).entered.getLast?
    obtain ⟨ahead₂, stuck₂⟩ := Solo.step_of_idle h₂.reachable.sound idle₂ hx₂ f
      (r₂.of p).entered.getLast?
    rw [ahead₁, same_accepted, same_completions] at g₁
    rw [ahead₂] at g₂
    obtain ⟨moves, same⟩ := g₁.unique g₂ stuck₁ stuck₂
    refine ⟨moves, by rw [Deeds.outcome?, Deeds.outcome?, moves], ?_⟩
    rw [World.bare_of_get? hx₁, World.bare_of_get? hx₂, (Solo.mk.inj same).1]

/-- What a process does with its message: it asks for its own name. -/
def introduce (_ : Unit) (_ : Value Unit) : Task Unit :=
  .native .this

/-- A process gets a message before its first turn. -/
def early : Machine Unit Unit :=
  let code : Code Unit Unit Unit :=
    (Code.ask (.spawn (.receive (.code ())))).bind fun _ =>
      (Code.ask (.send ⟨1⟩ .unit)).bind fun _ =>
        (Code.ask (.drive .idle)).bind fun _ => .ret ()
  .load (.new .standard ()) (Procedure.ofCode code)

/-- The same process is parked when it gets the message, beside another one, and every turn has one
step. -/
def late : Machine Unit Unit :=
  let code : Code Unit Unit Unit :=
    (Code.ask (.spawn (.receive (.code ())))).bind fun _ =>
      (Code.ask (.spawn (.native .this))).bind fun _ =>
        (Code.ask (.drive .idle)).bind fun _ =>
          (Code.ask (.send ⟨1⟩ .unit)).bind fun _ =>
            (Code.ask (.drive .idle)).bind fun _ => .ret ()
  .load (.new { Config.standard with budget := .ofNat 1 } ()) (Procedure.ofCode code)

/-- What is done to the process in either case. -/
def introduction : Deeds Unit :=
  [.spawned (.receive (.code ())), .sent .unit,
    .moved ⟨.receive (.code ()), some (.code (), .unit)⟩, .returned (.native .this),
    .moved ⟨.native .this, none⟩, .completed (.succeed (.pid ⟨1⟩)),
    .moved ⟨.succeed (.pid ⟨1⟩), none⟩]

theorem early_and_late_agree :
    ((Machine.records (.ofCallbacks introduce) 40 early).of ⟨1⟩).moves =
        ((Machine.records (.ofCallbacks introduce) 50 late).of ⟨1⟩).moves ∧
      (Machine.run (.ofCallbacks introduce) 40 early).world.bare ⟨1⟩ =
        (Machine.run (.ofCallbacks introduce) 50 late).world.bare ⟨1⟩ := by
  have start₁ : History (.ofCallbacks introduce) early [] := .new _ _ _
  have start₂ : History (.ofCallbacks introduce) late [] := .new _ _ _
  have h₁ : History _ _ (Machine.records (.ofCallbacks introduce) 40 early) := start₁.run 40
  have h₂ : History _ _ (Machine.records (.ofCallbacks introduce) 50 late) := start₂.run 50
  have pure : ∀ (c : Callback Unit) (v : Value Unit), c = .code () →
      Yields (.ofCallbacks introduce) (.native .this) (c.run (.ofCallbacks introduce) v) := by
    rintro _ v rfl
    exact Yields.ofCallbacks introduce () v
  have deeds₁ : (Machine.records (.ofCallbacks introduce) 40 early).of ⟨1⟩ = introduction := rfl
  have deeds₂ : (Machine.records (.ofCallbacks introduce) 50 late).of ⟨1⟩ = introduction := rfl
  have spawned : .spawned (.receive (.code ())) ∈ introduction := List.mem_cons_self
  have spared : .killed ∉ introduction := by
    simp only [introduction, List.mem_cons, List.not_mem_nil, reduceCtorEq, or_self,
      not_false_eq_true]
  have allowed : ∀ u ∈ [Task.succeed (.pid ⟨1⟩)],
      u.Over (fun c : Callback Unit => c = .code ()) := by
    intro u hu
    rw [List.mem_singleton.1 hu]
    trivial
  have independent := h₁.schedule_independent pure pure (fun _ _ _ => trivial) h₂
    (show (Task.receive (.code ())).Over _ from rfl) (deeds₁ ▸ spawned) (deeds₂ ▸ spawned)
    (deeds₁ ▸ spared) (deeds₂ ▸ spared)
    ⟨[.unit], by rw [deeds₁]; exact List.prefix_rfl, by rw [deeds₂]; exact List.prefix_rfl⟩
    ⟨[.succeed (.pid ⟨1⟩)], allowed, by rw [deeds₁]; exact List.prefix_rfl,
      by rw [deeds₂]; exact List.prefix_rfl⟩
  obtain ⟨moves, -, bare⟩ := independent.2 (by rw [deeds₁, deeds₂]) (by rw [deeds₁, deeds₂]) rfl rfl
  exact ⟨moves, bare⟩

end Actors
