/-
What the runtime's own code gives back.

Code that must not lose the runtime takes a reference to it, and gives the reference back at its end. A
tick holds one as well, as long as it lasts. So nothing that is done by a process is done in a runtime
that is gone. And a binding whose work is the runtime's own comes to a success, or it is still awaited.

* `Discipline.upkeep` — code gives back the references that it has taken, and completes bindings with
  successes only;
* `Reachable.held` — the references are those of the ticks, and those of code;
* `Reachable.reachable_of_tick`, `Reachable.settles` — what follows for a single step.
-/
import Actors.Proofs.Counting
import Actors.Proofs.Usage

namespace Actors

variable {κ σ α : Type} {b : Behaviour κ σ}

open Procedure World Activity

/-! ### References held by code -/

/-- Whether a directive has to do with references, or completes a binding. -/
def Directive.tends : Directive κ σ → Bool
  | .hold => true
  | .unhold => true
  | .settle .. => true
  | _ => false

/-- Code gives back the references that it has taken, and no others. It completes bindings with
successes. -/
def Discipline.upkeep : Discipline κ σ Nat where
  idle := 0
  enter _ _ _ := 0
  launch _ _ := 0
  may n
    | .unhold => 0 < n
    | .settle _ t => ∃ v, t = .succeed v
    | _ => True
  knows _ _ _ := True
  within n _ := n
  next := referencesAfter
  gives n _ := n = 0
  ends n := n = 0

section

variable {n : Nat}

theorem upkeep_neutral {d : Directive κ σ} (h : d.tends = false) : Discipline.upkeep.Neutral n d := by
  cases d <;> first | exact ⟨trivial, fun _ _ => rfl⟩ | cases h

theorem upkeep_calm {x : Procedure κ σ α} (h : x.Uses fun d => d.tends = false) :
    x.Restores Discipline.upkeep n :=
  h.restores fun _ => upkeep_neutral

theorem upkeep_settle (t : Ticket) (v : Value κ) :
    (direct (.settle t (.succeed v))).Restores (σ := σ) Discipline.upkeep n :=
  ⟨⟨v, rfl⟩, fun _ _ => rfl⟩

theorem upkeep_callback (c : Callback κ) (v : Value κ) : (c.run b v).Restores Discipline.upkeep n :=
  upkeep_calm ((c.uses_common v).mono fun _ hd => by cases hd <;> rfl)

/-- A reference that is taken for a while. -/
theorem upkeep_hold {f : Unit → Procedure κ σ α} {Q : Nat → α → Prop}
    (hf : (f ()).Obeys Discipline.upkeep Q (n + 1)) :
    Obeys Discipline.upkeep Q n ((direct .hold).bind f) :=
  obeys_first trivial fun _ _ => hf

theorem upkeep_unhold {f : Unit → Procedure κ σ α} {Q : Nat → α → Prop}
    (hf : (f ()).Obeys Discipline.upkeep Q n) :
    Obeys Discipline.upkeep Q (n + 1) ((direct .unhold).bind f) :=
  obeys_first (Nat.succ_pos n) fun _ _ => hf

theorem upkeep_spawnWith (c : κ) : (Procedure.spawnWith (σ := σ) c).Restores Discipline.upkeep n :=
  upkeep_hold <| obeys_neutral (upkeep_neutral rfl) fun _ _ =>
    obeys_neutral (upkeep_neutral rfl) fun _ _ => obeys_neutral (upkeep_neutral rfl) fun _ _ =>
      upkeep_unhold rfl

theorem upkeep_cyclic {i : ProgramId} {d : RunningProgram κ} {x : Directive κ σ}
    (h : Program.Cyclic i d x) : Discipline.upkeep.Neutral n x :=
  upkeep_neutral (by cases h <;> rfl)

theorem upkeep_start (c : κ) : (Program.start b c).Restores Discipline.upkeep n := by
  have register : ∀ r managers, (Program.register b r managers).Restores Discipline.upkeep n :=
    fun r managers => upkeep_calm (Program.uses_register (fun _ _ => rfl) r managers)
  refine Restores.bind (register _ _) fun r => ?_
  cases r with
  | error f => exact rfl
  | ok registry =>
    refine upkeep_hold ?_
    refine obeys_neutral (upkeep_neutral rfl) fun pid _ => obeys_neutral (upkeep_neutral rfl) fun _ _ => ?_
    have managers : (Program.startManagers (σ := σ) pid registry.entries).Restores
        Discipline.upkeep (n + 1) :=
      upkeep_calm ((Program.uses_startManagers pid _).mono fun _ hd => by cases hd <;> rfl)
    refine Obeys.bind managers fun s' managers hs => ?_
    subst hs
    refine obeys_neutral (upkeep_neutral rfl) fun i _ => obeys_neutral (upkeep_neutral rfl) fun r _ => ?_
    refine Obeys.bind ((Program.uses_conclude i _ r.1 r.2).restores fun _ => upkeep_cyclic) fun s' _ hs => ?_
    subst hs
    refine obeys_neutral (upkeep_neutral rfl) fun _ _ => obeys_neutral (upkeep_neutral rfl) fun _ _ =>
      obeys_neutral (upkeep_neutral rfl) fun _ _ => obeys_neutral (upkeep_neutral rfl) fun _ _ => ?_
    exact upkeep_unhold rfl

theorem upkeep_binding (t : Ticket) (g : Binding κ) : (g.start b t).Restores Discipline.upkeep n := by
  cases g with
  | code c =>
    refine restores_first (upkeep_neutral rfl) fun r _ => ?_
    cases r with
    | none => exact rfl
    | some c => exact ⟨trivial, fun _ _ => rfl⟩
  | spawn task =>
    refine restores_first (upkeep_neutral rfl) fun r _ => ?_
    cases r with
    | none => exact rfl
    | some q => exact upkeep_settle t _
  | kill q => exact restores_first (upkeep_neutral rfl) fun _ _ => upkeep_settle t _
  | send q v => exact restores_first (upkeep_neutral rfl) fun _ _ => upkeep_settle t _
  | this => exact upkeep_settle t _
  | sleep span => exact ⟨trivial, fun _ _ => rfl⟩
  | update i v =>
    refine restores_first (upkeep_neutral rfl) fun _ _ => ?_
    refine Restores.bind ?_ fun _ => upkeep_settle t _
    exact Program.restores_update i v (upkeep_neutral rfl) fun _ _ _ => upkeep_cyclic

end

theorem upkeep_lawful : (Discipline.upkeep (κ := κ) (σ := σ)).Lawful b where
  code _ := upkeep_calm (uses_ofCode (fun _ => rfl) _)
  thunk _ := upkeep_calm (uses_direct rfl)
  callback _ := upkeep_callback
  binding := upkeep_binding
  expands := by
    intro n d y may expands
    have restores : y.Restores Discipline.upkeep n := by
      cases expands with
      | spawnWith c => exact upkeep_spawnWith c
      | start c => exact Restores.bind (upkeep_start c) fun _ => rfl
      | invoke c => exact upkeep_calm (uses_ofCode (fun _ => rfl) _)
      | _ => exact upkeep_calm (uses_direct rfl)
    exact restores.mono fun _ _ hs => ⟨hs, trivial⟩
  drive _ _ _ _ := ⟨trivial, rfl⟩

theorem upkeep_counts : (Discipline.upkeep (κ := κ) (σ := σ)).Counts b id referencesAfter where
  idle := rfl
  enter _ _ _ := rfl
  launch _ _ := rfl
  within _ _ := rfl
  next _ _ _ _ _ := rfl
  expands n d y r h := by cases h <;> rfl
  gives _ _ h := h
  ends _ h := h

/-! ### References held by a machine -/

/-- Throughout a run the references that are held are those of the ticks and those of code. -/
theorem Reachable.held {m : Machine κ σ} (h : Reachable b m) :
    ∃ L, m.Keeps Discipline.upkeep b L ∧ m.Held (L.map id).sum := by
  induction h with
  | new config user code => exact ⟨_, Machine.keeps_load upkeep_lawful _ code, fun _ => rfl⟩
  | @load m code h hs hf ih =>
    obtain ⟨L, keeps, held⟩ := ih
    obtain rfl := keeps.eq_nil hs hf
    refine ⟨_, Machine.keeps_load upkeep_lawful _ code, fun _ => ?_⟩
    exact (held hf).trans (by rw [hs]; rfl)
  | @step m h ih =>
    obtain ⟨L, keeps, held⟩ := ih
    obtain ⟨L', keeps', goes⟩ := keeps.transition upkeep_lawful (Machine.transition b m)
      fun _ _ _ _ _ _ _ _ _ _ _ => trivial
    exact ⟨L', keeps', upkeep_counts.held (fun _ may => may) held goes⟩

/-- As long as a tick is under way the runtime is there. -/
theorem Reachable.reachable_of_tick {m : Machine κ σ} (h : Reachable b m) (going : m.fault = none)
    (tick : 0 < ticksOf m.stack) : m.world.reachable = true := by
  obtain ⟨L, -, held⟩ := h.held
  refine decide_eq_true ?_
  rw [held going]
  omega

/-- The runtime's own code completes bindings with successes only. -/
theorem Reachable.settles {m : Machine κ σ} (h : Reachable b m) {t : Ticket} {task : Task κ}
    (top : m.directive? = some (.settle t task)) : ∃ v, task = .succeed v := by
  obtain ⟨L, keeps, -⟩ := h.held
  obtain ⟨n, T, n', rfl, settled, may⟩ := keeps.may top
  exact may

end Actors
