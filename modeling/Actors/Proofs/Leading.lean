/-
What code leads to.

Code that is run in a world comes to a result or breaks the contract, and it leaves a world behind; a drive
that it has asked for is over by then, with all that the host has run meanwhile. What is below the code on
the stack has no part in this. So two pieces of code that lead to the same in every world may stand for one
another wherever they are run.

* `World.Drives`, `World.Breaks` — how a drive of the host ends;
* `Procedure.LeadsTo` — what code leads to, and `Procedure.LeadsTo.bind_iff`, part after part;
* `Procedure.LeadsTo.endsAs`, `Procedure.LeadsTo.unique` — the machine comes to this, and to nothing else;
* `Procedure.Matches`, `Procedure.Alike` — code that leads to what other code leads to.
-/
import Actors.Proofs.Conduct

namespace Actors

variable {κ σ α β : Type} {b : Behaviour κ σ}

open Procedure

/-! ### Drives -/

/-- A drive of the host comes to its end, and its count goes to what is below it. -/
def World.Drives (b : Behaviour κ σ) (w : World κ σ) (goal : Goal) (w' : World κ σ) (n : Nat) : Prop :=
  ∃ i, ∀ s, Machine.run b i ⟨w, .drive goal 0 :: s, none⟩ = ⟨w', Machine.resumeTop n s, none⟩

/-- A contract is broken in the course of a drive. -/
def World.Breaks (b : Behaviour κ σ) (w : World κ σ) (goal : Goal) (w' : World κ σ) (f : Fault) : Prop :=
  ∃ i, ∀ s, ∃ s', Machine.run b i ⟨w, .drive goal 0 :: s, none⟩ = ⟨w', s', some f⟩

namespace Machine

/-- A run that has come to a machine which is over stays there. -/
theorem run_of_le {m m' : Machine κ σ} {i j : Nat} (h : run b i m = m') (ended : m'.isOver = true)
    (le : i ≤ j) : run b j m = m' := by
  obtain ⟨k, rfl⟩ := Nat.exists_eq_add_of_le le
  rw [run_add, h, run_of_isOver ended]

/-- Two machines that are over, and that a run comes to, are the same. -/
theorem eq_of_runs {m m₁ m₂ : Machine κ σ} {i j : Nat} (h₁ : run b i m = m₁) (h₂ : run b j m = m₂)
    (ended₁ : m₁.isOver = true) (ended₂ : m₂.isOver = true) : m₁ = m₂ := by
  rcases Nat.le_total i j with le | le
  · exact (run_of_le h₁ ended₁ le).symm.trans h₂
  · exact h₁.symm.trans (run_of_le h₂ ended₂ le)

end Machine

namespace World

variable {w w₁ w₂ : World κ σ} {goal : Goal} {n n₁ n₂ : Nat} {f f₁ f₂ : Fault}

theorem Drives.unique (h₁ : w.Drives b goal w₁ n₁) (h₂ : w.Drives b goal w₂ n₂) : w₁ = w₂ ∧ n₁ = n₂ := by
  obtain ⟨i, runs₁⟩ := h₁
  obtain ⟨j, runs₂⟩ := h₂
  -- Below the drive stands code that breaks the contract at once, and tells the count.
  let s : List (Activity κ σ) := [.work (.await fun n => .raise (.notAwaiting n))]
  have ends : ∀ {i n w'}, Machine.run b i ⟨w, .drive goal 0 :: s, none⟩ =
      ⟨w', Machine.resumeTop n s, none⟩ → Machine.run b (i + 1) ⟨w, .drive goal 0 :: s, none⟩ =
        ⟨w', Machine.resumeTop n s, some (.notAwaiting n)⟩ := by
    intro i n w' runs
    rw [Machine.run_add, runs]
    rfl
  have same := Machine.eq_of_runs (ends (runs₁ s)) (ends (runs₂ s)) rfl rfl
  obtain ⟨world, -, fault⟩ := Machine.mk.inj same
  exact ⟨world, Fault.notAwaiting.inj (Option.some.inj fault)⟩

theorem Breaks.unique (h₁ : w.Breaks b goal w₁ f₁) (h₂ : w.Breaks b goal w₂ f₂) : w₁ = w₂ ∧ f₁ = f₂ := by
  obtain ⟨i, runs₁⟩ := h₁
  obtain ⟨j, runs₂⟩ := h₂
  obtain ⟨s₁, runs₁⟩ := runs₁ []
  obtain ⟨s₂, runs₂⟩ := runs₂ []
  obtain ⟨world, -, fault⟩ := Machine.mk.inj (Machine.eq_of_runs runs₁ runs₂ rfl rfl)
  exact ⟨world, Option.some.inj fault⟩

/-- A drive that comes to its end breaks no contract. -/
theorem Drives.not_breaks (h₁ : w.Drives b goal w₁ n) (h₂ : w.Breaks b goal w₂ f) : False := by
  obtain ⟨i, runs₁⟩ := h₁
  obtain ⟨j, runs₂⟩ := h₂
  obtain ⟨s₂, runs₂⟩ := runs₂ []
  obtain ⟨-, -, fault⟩ := Machine.mk.inj (Machine.eq_of_runs (runs₁ []) runs₂ rfl rfl)
  cases fault

end World

/-! ### What code leads to -/

/-- What a piece of code leads to in a world: the world that it leaves, and its result or the fault with
which it breaks the contract. -/
inductive Procedure.LeadsTo (b : Behaviour κ σ) :
    World κ σ → Procedure κ σ α → World κ σ → Except Fault α → Prop where
  | ret (w : World κ σ) (a : α) : LeadsTo b w (.ret a) w (.ok a)
  | raise (w : World κ σ) (f : Fault) : LeadsTo b w (.raise f) w (.error f)
  | next {w w₁ w' : World κ σ} {d : Directive κ σ} {k : d.Reply → Procedure κ σ α}
      {code : Procedure κ σ α} {r : Except Fault α} (h : d.step b w k = .next w₁ code)
      (rest : LeadsTo b w₁ code w' r) : LeadsTo b w (.op d k) w' r
  | fault {w : World κ σ} {d : Directive κ σ} {k : d.Reply → Procedure κ σ α} {f : Fault}
      (h : d.step b w k = .fault f) : LeadsTo b w (.op d k) w (.error f)
  | drive {w w₁ w₂ w' : World κ σ} {d : Directive κ σ} {k : d.Reply → Procedure κ σ α} {goal : Goal}
      {k' : Nat → Procedure κ σ α} {n : Nat} {r : Except Fault α} (h : d.step b w k = .drive w₁ goal k')
      (drives : w₁.Drives b goal w₂ n) (rest : LeadsTo b w₂ (k' n) w' r) : LeadsTo b w (.op d k) w' r
  | broken {w w₁ w' : World κ σ} {d : Directive κ σ} {k : d.Reply → Procedure κ σ α} {goal : Goal}
      {k' : Nat → Procedure κ σ α} {f : Fault} (h : d.step b w k = .drive w₁ goal k')
      (breaks : w₁.Breaks b goal w' f) : LeadsTo b w (.op d k) w' (.error f)

theorem Frame.step_fill (fr : Frame κ σ α) (w : World κ σ) (d : Directive κ σ)
    (k : d.Reply → Procedure κ σ α) (s : List (Activity κ σ)) :
    Machine.step b ⟨w, fr.fill (.run (.op d k)) :: s, none⟩ = Machine.stepCode b w fr.fill s d k := by
  cases fr <;> rfl

theorem Frame.step_raise (fr : Frame κ σ α) (w : World κ σ) (f : Fault) (s : List (Activity κ σ)) :
    Machine.step b ⟨w, fr.fill (.run (.raise f)) :: s, none⟩ =
      ⟨w, fr.fill (.run (.raise f)) :: s, some f⟩ := by
  cases fr <;> rfl

theorem Frame.resumeTop_fill (fr : Frame κ σ α) (n : Nat) (k : Nat → Procedure κ σ α)
    (s : List (Activity κ σ)) : Machine.resumeTop n (fr.fill (.await k) :: s) = fr.fill (.run (k n)) :: s := by
  cases fr <;> rfl

/-- The machine comes to the result of code that it runs inside a frame, or it is stopped by a fault. -/
def Machine.EndsAs (b : Behaviour κ σ) (m : Machine κ σ) (fr : Frame κ σ α) (s : List (Activity κ σ))
    (w : World κ σ) : Except Fault α → Prop
  | .ok a => ∃ i, Machine.run b i m = ⟨w, fr.fill (.run (.ret a)) :: s, none⟩
  | .error f => ∃ i s', Machine.run b i m = ⟨w, s', some f⟩

theorem Machine.EndsAs.later {m : Machine κ σ} {fr : Frame κ σ α} {s : List (Activity κ σ)} {w : World κ σ}
    {r : Except Fault α} (j : Nat) (h : (Machine.run b j m).EndsAs b fr s w r) : m.EndsAs b fr s w r := by
  cases r with
  | ok a =>
    obtain ⟨i, runs⟩ := h
    exact ⟨j + i, (Machine.run_add b j i m).trans runs⟩
  | error f =>
    obtain ⟨i, s', runs⟩ := h
    exact ⟨j + i, s', (Machine.run_add b j i m).trans runs⟩

namespace Procedure.LeadsTo

variable {w w₁ w' w'' : World κ σ} {x y : Procedure κ σ α} {f : α → Procedure κ σ β} {a : α} {e : Fault}
  {r r' : Except Fault α}

/-- Where code is run the machine comes to what the code leads to, whatever is below it. -/
theorem endsAs (h : LeadsTo b w x w' r) (fr : Frame κ σ α) (s : List (Activity κ σ)) :
    (⟨w, fr.fill (.run x) :: s, none⟩ : Machine κ σ).EndsAs b fr s w' r := by
  induction h with
  | ret w a => exact ⟨0, rfl⟩
  | raise w f => exact ⟨1, _, fr.step_raise w f s⟩
  | @next w w₁ w' d k code r hd _ ih =>
    refine .later 1 ?_
    rw [Machine.run, Machine.run, fr.step_fill, Machine.stepCode, hd]
    exact ih
  | @fault w d k f hd =>
    refine ⟨1, fr.fill (.run (.raise f)) :: s, ?_⟩
    rw [Machine.run, Machine.run, fr.step_fill, Machine.stepCode, hd]
  | @drive w w₁ w₂ w' d k goal k' n r hd drives _ ih =>
    obtain ⟨i, runs⟩ := drives
    refine .later 1 (.later i ?_)
    rw [Machine.run, Machine.run, fr.step_fill, Machine.stepCode, hd, runs, fr.resumeTop_fill]
    exact ih
  | @broken w w₁ w' d k goal k' f hd breaks =>
    obtain ⟨i, runs⟩ := breaks
    refine .later 1 ⟨i, ?_⟩
    rw [Machine.run, Machine.run, fr.step_fill, Machine.stepCode, hd]
    exact runs _

/-- Code that has a result comes to it in a number of steps that does not depend on what it is run above. -/
theorem runs (h : LeadsTo b w x w' (.ok a)) : ∃ i, ∀ (fr : Frame κ σ α) (s : List (Activity κ σ)),
    Machine.run b i ⟨w, fr.fill (.run x) :: s, none⟩ = ⟨w', fr.fill (.run (.ret a)) :: s, none⟩ := by
  generalize hr : (Except.ok a : Except Fault α) = r at h
  induction h with
  | ret w a' =>
    obtain rfl := Except.ok.inj hr
    exact ⟨0, fun _ _ => rfl⟩
  | raise => cases hr
  | @next w w₁ w' d k code r hd _ ih =>
    obtain ⟨i, runs⟩ := ih hr
    refine ⟨i + 1, fun fr s => ?_⟩
    rw [Machine.run, fr.step_fill, Machine.stepCode, hd]
    exact runs fr s
  | fault => cases hr
  | @drive w w₁ w₂ w' d k goal k' n r hd drives _ ih =>
    obtain ⟨i, drives⟩ := drives
    obtain ⟨j, runs⟩ := ih hr
    refine ⟨1 + (i + j), fun fr s => ?_⟩
    rw [Machine.run_add, Machine.run_add, Machine.run, Machine.run, fr.step_fill, Machine.stepCode, hd, drives,
      fr.resumeTop_fill]
    exact runs fr s
  | broken => cases hr

/-- Code whose first operation lets it go on leads to what the code that is left leads to. -/
theorem next_iff {d : Directive κ σ} {k : d.Reply → Procedure κ σ α} (h : d.step b w k = .next w₁ x) :
    LeadsTo b w (.op d k) w' r ↔ LeadsTo b w₁ x w' r := by
  refine ⟨fun leads => ?_, .next h⟩
  cases leads with
  | next hd rest =>
    obtain ⟨rfl, rfl⟩ := Progress.next.inj (h.symm.trans hd)
    exact rest
  | fault hd => cases h.symm.trans hd
  | drive hd => cases h.symm.trans hd
  | broken hd => cases h.symm.trans hd

/-- Code whose first operation breaks the contract leads to this fault. -/
theorem of_fault {d : Directive κ σ} {k : d.Reply → Procedure κ σ α} (h : d.step b w k = .fault e)
    (leads : LeadsTo b w (.op d k) w' r) : w' = w ∧ r = .error e := by
  cases leads with
  | next hd => cases h.symm.trans hd
  | fault hd => exact ⟨rfl, congrArg Except.error (Progress.fault.inj (hd.symm.trans h))⟩
  | drive hd => cases h.symm.trans hd
  | broken hd => cases h.symm.trans hd

/-- Code whose first operation makes the host run goes on when the host has done so, unless a contract is broken
meanwhile. -/
theorem of_drive {d : Directive κ σ} {k : d.Reply → Procedure κ σ α} {goal : Goal}
    {k' : Nat → Procedure κ σ α} (h : d.step b w k = .drive w₁ goal k')
    (leads : LeadsTo b w (.op d k) w' r) :
    (∃ w₂ n, w₁.Drives b goal w₂ n ∧ LeadsTo b w₂ (k' n) w' r) ∨
      ∃ e, w₁.Breaks b goal w' e ∧ r = .error e := by
  cases leads with
  | next hd => cases h.symm.trans hd
  | fault hd => cases h.symm.trans hd
  | drive hd drives rest =>
    obtain ⟨rfl, rfl, rfl⟩ := Progress.drive.inj (h.symm.trans hd)
    exact .inl ⟨_, _, drives, rest⟩
  | broken hd breaks =>
    obtain ⟨rfl, rfl, -⟩ := Progress.drive.inj (h.symm.trans hd)
    exact .inr ⟨_, breaks, rfl⟩

/-- Code leads to one thing only. -/
theorem unique (h : LeadsTo b w x w' r) (h' : LeadsTo b w x w'' r') : w'' = w' ∧ r' = r := by
  induction h with
  | ret w a => cases h'; exact ⟨rfl, rfl⟩
  | raise w f => cases h'; exact ⟨rfl, rfl⟩
  | next hd _ ih => exact ih ((next_iff hd).1 h')
  | fault hd => exact h'.of_fault hd
  | drive hd drives _ ih =>
    rcases h'.of_drive hd with ⟨w₂, n, drives', rest⟩ | ⟨e, breaks, -⟩
    · obtain ⟨rfl, rfl⟩ := drives.unique drives'
      exact ih rest
    · exact (drives.not_breaks breaks).elim
  | broken hd breaks =>
    rcases h'.of_drive hd with ⟨w₂, n, drives, -⟩ | ⟨e, breaks', rfl⟩
    · exact (drives.not_breaks breaks).elim
    · obtain ⟨rfl, rfl⟩ := breaks.unique breaks'
      exact ⟨rfl, rfl⟩

/-! #### Part after part -/

theorem bind_ok {r : Except Fault β} (h : LeadsTo b w x w₁ (.ok a)) (h' : LeadsTo b w₁ (f a) w' r) :
    LeadsTo b w (x.bind f) w' r := by
  generalize hr : (Except.ok a : Except Fault α) = r' at h
  induction h with
  | ret w a' =>
    obtain rfl := Except.ok.inj hr
    exact h'
  | raise => cases hr
  | @next w w₂ w₁ d k code r' hd _ ih =>
    exact .next ((Directive.step_bind w d k f).trans (congrArg (·.bind f) hd)) (ih h' hr)
  | fault => cases hr
  | @drive w w₂ w₃ w₁ d k goal k' n r' hd drives _ ih =>
    exact .drive ((Directive.step_bind w d k f).trans (congrArg (·.bind f) hd)) drives (ih h' hr)
  | broken => cases hr

theorem bind_error (h : LeadsTo b w x w' (.error e)) : LeadsTo b w (x.bind f) w' (.error e) := by
  generalize hr : (Except.error e : Except Fault α) = r at h
  induction h with
  | ret => cases hr
  | raise w e' =>
    obtain rfl := Except.error.inj hr
    exact .raise w e
  | @next w w₂ w' d k code r hd _ ih =>
    exact .next ((Directive.step_bind w d k f).trans (congrArg (·.bind f) hd)) (ih hr)
  | @fault w d k e' hd =>
    obtain rfl := Except.error.inj hr
    exact .fault ((Directive.step_bind w d k f).trans (congrArg (·.bind f) hd))
  | @drive w w₂ w₃ w' d k goal k' n r hd drives _ ih =>
    exact .drive ((Directive.step_bind w d k f).trans (congrArg (·.bind f) hd)) drives (ih hr)
  | @broken w w₂ w' d k goal k' e' hd breaks =>
    obtain rfl := Except.error.inj hr
    exact .broken ((Directive.step_bind w d k f).trans (congrArg (·.bind f) hd)) breaks

/-- What two parts of some code lead to, the second part leads to from what the first one does, unless the
first one breaks the contract. -/
theorem of_bind {r : Except Fault β} (h : LeadsTo b w (x.bind f) w' r) :
    (∃ w₁ a, LeadsTo b w x w₁ (.ok a) ∧ LeadsTo b w₁ (f a) w' r) ∨
      ∃ e, r = .error e ∧ LeadsTo b w x w' (.error e) := by
  generalize hy : x.bind f = y at h
  -- Once the first part is only a result, the operation is one of the second part.
  induction h generalizing x with
  | ret w a' =>
    obtain ⟨a, rfl, hr⟩ := Act.of_bind_ret hy
    exact .inl ⟨w, a, .ret w a, hr ▸ .ret w a'⟩
  | raise w e =>
    rcases Act.of_bind_raise hy with ⟨a, rfl, hr⟩ | rfl
    · exact .inl ⟨w, a, .ret w a, hr ▸ .raise w e⟩
    · exact .inr ⟨e, rfl, .raise w e⟩
  | @next w w₁ w' d k code r hd rest ih =>
    rcases Act.of_bind_op hy with ⟨a, rfl, hr⟩ | ⟨k', rfl, rfl⟩
    · exact .inl ⟨w, a, .ret w a, hr ▸ .next hd rest⟩
    · obtain ⟨y, hs, hb⟩ := Progress.of_bind_next ((Directive.step_bind w d k' f).symm.trans hd)
      rcases ih hb with ⟨w₃, a, first, second⟩ | ⟨e, he, first⟩
      · exact .inl ⟨w₃, a, .next hs first, second⟩
      · exact .inr ⟨e, he, .next hs first⟩
  | @fault w d k e hd =>
    rcases Act.of_bind_op hy with ⟨a, rfl, hr⟩ | ⟨k', rfl, rfl⟩
    · exact .inl ⟨w, a, .ret w a, hr ▸ .fault hd⟩
    · have hs := Progress.of_bind_fault ((Directive.step_bind w d k' f).symm.trans hd)
      exact .inr ⟨e, rfl, .fault hs⟩
  | @drive w w₁ w₂ w' d k goal k₁ n r hd drives rest ih =>
    rcases Act.of_bind_op hy with ⟨a, rfl, hr⟩ | ⟨k', rfl, rfl⟩
    · exact .inl ⟨w, a, .ret w a, hr ▸ .drive hd drives rest⟩
    · obtain ⟨k₂, hs, hb⟩ := Progress.of_bind_drive ((Directive.step_bind w d k' f).symm.trans hd)
      rcases ih (hb n) with ⟨w₃, a, first, second⟩ | ⟨e, he, first⟩
      · exact .inl ⟨w₃, a, .drive hs drives first, second⟩
      · exact .inr ⟨e, he, .drive hs drives first⟩
  | @broken w w₁ w' d k goal k₁ e hd breaks =>
    rcases Act.of_bind_op hy with ⟨a, rfl, hr⟩ | ⟨k', rfl, rfl⟩
    · exact .inl ⟨w, a, .ret w a, hr ▸ .broken hd breaks⟩
    · obtain ⟨k₂, hs, -⟩ := Progress.of_bind_drive ((Directive.step_bind w d k' f).symm.trans hd)
      exact .inr ⟨e, rfl, .broken hs breaks⟩

/-- Code in two parts comes to a result part after part, or breaks the contract in one of them. -/
theorem bind_iff {r : Except Fault β} :
    LeadsTo b w (x.bind f) w' r ↔
      (∃ w₁ a, LeadsTo b w x w₁ (.ok a) ∧ LeadsTo b w₁ (f a) w' r) ∨
        ∃ e, r = .error e ∧ LeadsTo b w x w' (.error e) := by
  refine ⟨of_bind, ?_⟩
  rintro (⟨w₁, a, first, second⟩ | ⟨e, rfl, first⟩)
  · exact first.bind_ok second
  · exact first.bind_error

theorem map_ok {g : α → β} (h : LeadsTo b w x w' (.ok a)) : LeadsTo b w (x.map g) w' (.ok (g a)) := by
  rw [Act.map_eq_bind]
  exact h.bind_ok (.ret w' (g a))

/-- A call leads to what the user code that it enters leads to. -/
theorem invoke_iff {c : Call κ} {r : Except Fault c.Result} :
    LeadsTo b w (invoke c) w' r ↔ LeadsTo b w (ofCode (b.code c)) w' r := by
  have entered : Directive.step b w (.invoke c) (Act.ret (S := directives κ σ)) =
      .next w (ofCode (b.code c)) := congrArg (Progress.next w) (Act.bind_ret _)
  exact next_iff entered

/-- User code that has a value converted leads to what the function leads to. -/
theorem convert_iff {c : κ} {v : Value κ} {r : Except Fault (Value κ)} :
    LeadsTo b w (ofCode (Code.ask (.convert c v))) w' r ↔ LeadsTo b w (ofCode (b.convert c v)) w' r := by
  have entered : Directive.step b w (.request (.convert c v)) (Act.ret (S := directives κ σ)) =
      .next w (invoke (.convert c v)) := congrArg (Progress.next w) (Act.bind_ret _)
  exact (next_iff entered).trans invoke_iff

end Procedure.LeadsTo

/-! ### Code in place of other code -/

namespace Procedure

/-- Two results that answer to one another: values in a relation, or the same fault. -/
inductive Answers (R : α → β → Prop) : Except Fault α → Except Fault β → Prop where
  | ok {a : α} {a' : β} (h : R a a') : Answers R (.ok a) (.ok a')
  | error (f : Fault) : Answers R (.error f) (.error f)

/-- Whatever some code leads to, other code leads to as well, and leaves the same world; the two results answer
to one another. -/
def Matches (b : Behaviour κ σ) (R : α → β → Prop) (x : Procedure κ σ α) (y : Procedure κ σ β) : Prop :=
  ∀ w w' r, LeadsTo b w x w' r → ∃ r', LeadsTo b w y w' r' ∧ Answers R r r'

/-- Two pieces of code that lead to the same in every world. -/
def Alike (b : Behaviour κ σ) (x y : Procedure κ σ α) : Prop :=
  ∀ w w' r, LeadsTo b w x w' r ↔ LeadsTo b w y w' r

theorem Answers.eq {r r' : Except Fault α} (h : Answers Eq r r') : r = r' := by
  cases h with
  | ok h => rw [h]
  | error f => rfl

theorem Answers.bind {α' β' : Type} {R : α → α' → Prop} {S : β → β' → Prop} {r : Except Fault α}
    {r' : Except Fault α'} {f : α → Except Fault β} {g : α' → Except Fault β'} (h : Answers R r r')
    (next : ∀ a a', R a a' → Answers S (f a) (g a')) : Answers S (r >>= f) (r' >>= g) := by
  cases h with
  | ok related => exact next _ _ related
  | error e => exact .error e

namespace Matches

variable {α' β' : Type} {R : α → α' → Prop} {S : β → β' → Prop} {x : Procedure κ σ α} {y : Procedure κ σ α'}

theorem ret {a : α} {a' : α'} (h : R a a') : Matches b R (.ret a) (.ret a') := by
  intro w w' r leads
  cases leads
  exact ⟨_, .ret w a', .ok h⟩

theorem raise (f : Fault) : Matches b R (.raise f) (.raise f) := by
  intro w w' r leads
  cases leads
  exact ⟨_, .raise w f, .error f⟩

theorem mono {R' : α → α' → Prop} (h : Matches b R x y) (le : ∀ a a', R a a' → R' a a') : Matches b R' x y := by
  intro w w' r leads
  obtain ⟨r', leads', answers⟩ := h w w' r leads
  refine ⟨r', leads', ?_⟩
  cases answers with
  | ok related => exact .ok (le _ _ related)
  | error f => exact .error f

/-- What is put together of parts that match does so, too. -/
theorem bind {f : α → Procedure κ σ β} {g : α' → Procedure κ σ β'} (h : Matches b R x y)
    (next : ∀ a a', R a a' → Matches b S (f a) (g a')) : Matches b S (x.bind f) (y.bind g) := by
  intro w w' r leads
  rcases leads.of_bind with ⟨w₁, a, first, second⟩ | ⟨e, rfl, first⟩
  · obtain ⟨r₁, first', ok⟩ := h w w₁ _ first
    cases ok with
    | ok related =>
      obtain ⟨r', second', answers⟩ := next a _ related w₁ w' r second
      exact ⟨r', first'.bind_ok second', answers⟩
  · obtain ⟨r₁, first', error⟩ := h w w' _ first
    cases error
    exact ⟨_, first'.bind_error, .error e⟩

theorem map {f : α → β} {g : α' → β'} (h : Matches b R x y) (next : ∀ a a', R a a' → S (f a) (g a')) :
    Matches b S (x.map f) (y.map g) := by
  rw [Act.map_eq_bind, Act.map_eq_bind]
  exact h.bind fun a a' related => .ret (next a a' related)

end Matches

namespace Alike

variable {x y z : Procedure κ σ α} {f g : α → Procedure κ σ β}

theorem refl (x : Procedure κ σ α) : Alike b x x :=
  fun _ _ _ => Iff.rfl

theorem symm (h : Alike b x y) : Alike b y x :=
  fun w w' r => (h w w' r).symm

theorem trans (h : Alike b x y) (h' : Alike b y z) : Alike b x z :=
  fun w w' r => (h w w' r).trans (h' w w' r)

theorem matches_eq (h : Alike b x y) : Matches b Eq x y := by
  intro w w' r leads
  refine ⟨r, (h w w' r).1 leads, ?_⟩
  cases r with
  | ok a => exact .ok rfl
  | error f => exact .error f

theorem trans_matches {β : Type} {R : α → β → Prop} {u : Procedure κ σ β} {v : Procedure κ σ β} (h : Alike b x y)
    (between : Matches b R y u) (h' : Alike b u v) : Matches b R x v := by
  intro w w' r leads
  obtain ⟨r', leads', answers⟩ := between w w' r ((h w w' r).1 leads)
  exact ⟨r', (h' w w' r').1 leads', answers⟩

/-- Code that matches in both directions, with equal results, is alike. -/
theorem of_matches (h : Matches b Eq x y) (h' : Matches b Eq y x) : Alike b x y := by
  intro w w' r
  constructor
  · intro leads
    obtain ⟨r', leads', answers⟩ := h w w' r leads
    rwa [answers.eq]
  · intro leads
    obtain ⟨r', leads', answers⟩ := h' w w' r leads
    rwa [answers.eq]

theorem bind (h : Alike b x y) (f : α → Procedure κ σ β) : Alike b (x.bind f) (y.bind f) := by
  intro w w' r
  rw [LeadsTo.bind_iff, LeadsTo.bind_iff]
  simp only [h w _ _]

/-- The second parts need to be alike only for what the first part leads to. -/
theorem bind_right (next : ∀ {w w₁ a}, LeadsTo b w x w₁ (.ok a) → Alike b (f a) (g a)) :
    Alike b (x.bind f) (x.bind g) := by
  intro w w' r
  rw [LeadsTo.bind_iff, LeadsTo.bind_iff]
  refine or_congr_left (exists_congr fun w₁ => exists_congr fun a => and_congr_right fun first => ?_)
  exact next first w₁ w' r

end Alike

end Procedure

end Actors
