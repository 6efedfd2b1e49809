/-
Names.

A name is handed out once. Code that has reserved a name installs a process under it once, or never;
until then the name is free, and nobody else has it. So the names that a run hands out are the numbers
in their order, and no process is ever started under a name that is taken.

* `Discipline.naming` — code holds the names that it has reserved and not yet used;
* `World.Named` — the names held by all code together are free, and none is held twice;
* `Machine.reserved?` — the name that the next step hands out;
* `Trail.reserved`, `Reachable.raises_of_duplicatePid` — which names a run hands out, and that none
  of them is used twice.
-/
import Actors.Proofs.Steadiness
import Mathlib.Data.List.Nodup

namespace Actors

variable {κ σ α : Type} {b : Behaviour κ σ}

open Procedure World

/-! ### Names held by code -/

/-- The names that code holds after a reply. -/
def namesAfter (s : List Pid) : (d : Directive κ σ) → d.Reply → List Pid
  | .reserve, p => p :: s
  | .install p _ _, _ => s.erase p
  | _, _ => s

/-- Code holds the names that it has reserved, and installs only processes under such names. -/
def Discipline.naming : Discipline κ σ (List Pid) where
  idle := []
  enter _ _ _ := []
  launch _ _ := []
  may s
    | .install p _ _ => p ∈ s
    | _ => True
  knows _ _ _ := True
  within s _ := s
  next := namesAfter
  gives s _ := s = []
  ends s := s = []

section

variable {s : List Pid}

theorem naming_neutral {d : Directive κ σ} (h : d.establishes = false) : Discipline.naming.Neutral s d := by
  cases d <;> first | exact ⟨trivial, fun _ _ => rfl⟩ | cases h

/-- A name that has just been reserved is used, and what was held before is left. -/
theorem naming_install (s : List Pid) (p : Pid) (label : Option String) (t : Task κ)
    {f : Unit → Procedure κ σ α} (hf : (f ()).Restores Discipline.naming s) :
    Obeys Discipline.naming (fun s' _ => s' = s) (p :: s)
      ((direct (.install p label t)).bind f) := by
  refine obeys_first List.mem_cons_self fun _ _ => ?_
  show (f ()).Obeys Discipline.naming (fun s' _ => s' = s) ((p :: s).erase p)
  rw [List.erase_cons_head]
  exact hf

theorem naming_spawnWith (c : κ) :
    (Procedure.spawnWith (σ := σ) c).Restores Discipline.naming s := by
  refine restores_first ⟨trivial, fun _ _ => rfl⟩ fun _ _ => ?_
  refine obeys_first trivial fun p _ => ?_
  show Obeys Discipline.naming _ (p :: s) _
  refine obeys_first trivial fun t _ => ?_
  refine naming_install s p none t ?_
  exact restores_first ⟨trivial, fun _ _ => rfl⟩ fun _ _ => rfl

theorem naming_startManagers (app : Pid) (managers : List (Home × Hooks κ)) :
    (Program.startManagers (σ := σ) app managers).Restores Discipline.naming s := by
  induction managers with
  | nil => exact rfl
  | cons e rest ih =>
    obtain ⟨home, hooks⟩ := e
    refine obeys_first trivial fun this _ => ?_
    show Obeys Discipline.naming _ (this :: s) _
    have opening : (Manager.opening (σ := σ) ⟨hooks, ⟨app, this⟩⟩).Restores Discipline.naming
        (this :: s) := by
      refine restores_first ⟨trivial, fun _ _ => rfl⟩ fun _ _ => ?_
      exact restores_first ⟨trivial, fun _ _ => rfl⟩ fun _ _ => rfl
    refine Obeys.bind opening fun s' t hs => ?_
    subst hs
    refine naming_install s this (some home.name) t ?_
    exact Restores.bind ih fun _ => rfl

theorem naming_start (c : κ) : (Program.start b c).Restores Discipline.naming s := by
  refine Restores.bind ((Discipline.Steady.registration _ _).restores fun _ => naming_neutral) fun r => ?_
  cases r with
  | error f => exact rfl
  | ok registry =>
    refine restores_first ⟨trivial, fun _ _ => rfl⟩ fun _ _ => ?_
    refine obeys_first trivial fun pid _ => obeys_first trivial fun _ _ => ?_
    -- From here on the code holds the name of the main process, until that is installed.
    show Obeys Discipline.naming _ (pid :: s) _
    refine Obeys.bind (naming_startManagers (s := pid :: s) pid registry.entries) fun s' managers hs => ?_
    subst hs
    refine obeys_first trivial fun i _ => obeys_first trivial fun r _ => ?_
    have conclude : ∀ d model cmds,
        (Program.conclude b i d model cmds).Restores Discipline.naming (pid :: s) :=
      fun d model cmds => (Discipline.Steady.cycle i d model cmds).restores fun _ => naming_neutral
    refine Obeys.bind (conclude _ _ _) fun s' _ hs => ?_
    subst hs
    refine naming_install s pid (some "program") (Program.listen i) ?_
    exact restores_first ⟨trivial, fun _ _ => rfl⟩ fun _ _ =>
      restores_first ⟨trivial, fun _ _ => rfl⟩ fun _ _ =>
        restores_first ⟨trivial, fun _ _ => rfl⟩ fun _ _ =>
          restores_first ⟨trivial, fun _ _ => rfl⟩ fun _ _ => rfl

end

theorem naming_steady : (Discipline.naming (κ := κ) (σ := σ)).Steady b where
  idle := rfl
  enter _ _ _ := rfl
  launch _ _ := rfl
  within _ _ := rfl
  gives _ _ := Iff.rfl
  ends _ := Iff.rfl
  neutral _ _ := naming_neutral
  returns _ _ _ _ := trivial
  knows _ _ _ _ := trivial
  spawnWith _ := naming_spawnWith
  start _ := naming_start

end Actors
