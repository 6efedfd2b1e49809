/-
The directives of the runtime's own code.

What most of the runtime's own code does is of no concern to most disciplines. Here it is said once,
for each piece of it, which directives it performs.

* `Program.Cyclic` — the directives of an update cycle, from its first operation on a known program;
* `Program.Staffing` — those of the start of a program's managers;
* `Callback.Plain`, `Callback.Common` — those of the continuations that are no turn of a manager, and
  those of all continuations;
* `Binding.Working` — those of the work of a binding that is no update cycle.
-/
import Actors.Proofs.Discipline

namespace Actors

variable {κ σ S α : Type} {b : Behaviour κ σ}

open Procedure

/-- The directives of an update cycle of a program. -/
inductive Program.Cyclic (i : ProgramId) (d : RunningProgram κ) : Directive κ σ → Prop where
  | takeModel : Cyclic i d (.takeModel i)
  | update (v model : Value κ) : Cyclic i d (.invoke (.update i d.app v model))
  | countUpdate : Cyclic i d (.countUpdate i)
  | render (model : Value κ) : Cyclic i d (.invoke (.render i d.app model))
  | subscriptions (model : Value κ) : Cyclic i d (.invoke (.subscriptions i d.app model))
  | putModel (model : Value κ) : Cyclic i d (.putModel i model)
  | leaf (m : Hooks κ) (f : Family) (chain : List (Tagger κ)) (v : Value κ) :
      Cyclic i d (.invoke (.mapLeaf m f chain v))
  | isReachable : Cyclic i d (.request .isReachable)
  | dispatched {home : Home} {p : Pid} (mem : (home, p) ∈ d.managers) (n k : Nat) :
      Cyclic i d (.note (.dispatched home p n k))
  | send {home : Home} {p : Pid} (mem : (home, p) ∈ d.managers) (cmds subs : List (Value κ)) :
      Cyclic i d (.request (.send p (.effects cmds subs)))

namespace Shares

variable {P : Directive κ σ → Prop}

theorem uses_addLeaf (h : ∀ m f chain v, P (.invoke (.mapLeaf m f chain v))) (r : Registry κ)
    (f : Family) (chain : List (Tagger κ)) (home : Home) (v : Value κ) (shares : Shares κ) :
    (addLeaf b r f chain home v shares).Uses P := by
  unfold addLeaf
  split
  · trivial
  · split
    · exact (uses_direct (h _ _ _ _)).map _
    · trivial

mutual

theorem uses_addTree (h : ∀ m f chain v, P (.invoke (.mapLeaf m f chain v))) (r : Registry κ)
    (f : Family) (chain : List (Tagger κ)) :
    ∀ (t : EffectTree κ) (shares : Shares κ), (addTree b r f chain t shares).Uses P
  | .leaf home v, shares => by
    rw [addTree]
    exact uses_addLeaf h r f chain home v shares
  | .node children, shares => by
    rw [addTree]
    exact uses_addTrees h r f chain children shares
  | .map tagger inner, shares => by
    rw [addTree]
    exact uses_addTree h r f (tagger :: chain) inner shares

theorem uses_addTrees (h : ∀ m f chain v, P (.invoke (.mapLeaf m f chain v))) (r : Registry κ)
    (f : Family) (chain : List (Tagger κ)) :
    ∀ (ts : List (EffectTree κ)) (shares : Shares κ), (addTrees b r f chain ts shares).Uses P
  | [], shares => by
    rw [addTrees]
    trivial
  | t :: ts, shares => by
    rw [addTrees]
    exact (uses_addTree h r f chain t shares).bind fun _ => uses_addTrees h r f chain ts _

end

theorem uses_ofCycle (h : ∀ m f chain v, P (.invoke (.mapLeaf m f chain v))) (r : Registry κ)
    (cmds subs : EffectTree κ) : (ofCycle b r cmds subs).Uses P :=
  (uses_addTree h r .command [] cmds []).bind fun _ => uses_addTree h r .subscription [] subs _

end Shares

namespace Program

variable (i : ProgramId) (d : RunningProgram κ)

theorem uses_distribute (shares : Shares κ) : ∀ managers, (∀ e ∈ managers, e ∈ d.managers) →
    (distribute (σ := σ) shares managers).Uses (Cyclic i d)
  | [], _ => trivial
  | (home, p) :: rest, h => by
    have mem : (home, p) ∈ d.managers := h _ List.mem_cons_self
    refine uses_first (.dispatched mem _ _) fun _ => uses_first (.send mem _ _) fun _ => ?_
    exact uses_distribute shares rest fun e he => h e (List.mem_cons_of_mem _ he)

theorem uses_conclude (model : Value κ) (cmds : EffectTree κ) :
    (conclude b i d model cmds).Uses (Cyclic i d) := by
  refine uses_first (.render model) fun _ => uses_first (.subscriptions model) fun subs =>
    uses_first (.putModel model) fun _ => ?_
  refine (Shares.uses_ofCycle (fun m f chain v => .leaf m f chain v) _ _ _).bind fun shares => ?_
  refine uses_first .isReachable fun here => ?_
  split
  · exact uses_distribute i d shares d.managers fun _ he => he
  · trivial

/-- An update cycle leaves a state that all of its directives leave. -/
theorem restores_update {D : Discipline κ σ S} {s : S} (v : Value κ)
    (running : D.Neutral s (.running i))
    (cyclic : ∀ d, D.knows s (.running i) (some d) → ∀ x, Cyclic i d x → D.Neutral s x) :
    (update b i v).Restores D s := by
  refine restores_first running fun r known => ?_
  cases r with
  | none => exact rfl
  | some d =>
    refine Uses.restores (P := Cyclic i d) ?_ (cyclic d known)
    dsimp only
    split
    · refine uses_first .takeModel fun model => ?_
      cases model with
      | none => trivial
      | some model =>
        exact uses_first (.update v model) fun r => uses_first .countUpdate fun _ =>
          uses_conclude i d r.1 r.2
    · trivial

theorem uses_register {P : Directive κ σ → Prop} (h : ∀ home k, P (.note (.registered home k))) :
    ∀ (r : Registry κ) (managers : List (Home × Hooks κ)), (register b r managers).Uses P
  | r, [] => trivial
  | r, (home, hooks) :: rest => by
    rw [register]
    split
    · trivial
    · exact uses_first (h _ _) fun _ => uses_register h _ rest

/-- The directives of the start of a program's managers. -/
inductive Staffing : Directive κ σ → Prop where
  | reserve : Staffing .reserve
  | initializing : Staffing (.note .initializing)
  | init (m : Post κ) : Staffing (.invoke (.managerInit m))
  | install (p : Pid) (label : String) (t : Task κ) (m : Post κ) :
      Staffing (.install p (some label) (.andThen t (.managerReady m)))

theorem uses_startManagers (app : Pid) : ∀ managers : List (Home × Hooks κ),
    (startManagers (σ := σ) app managers).Uses Staffing
  | [] => trivial
  | (_, _) :: rest =>
    uses_first .reserve fun _ => uses_first .initializing fun _ => uses_first (.init _) fun _ =>
      uses_first (.install _ _ _ _) fun _ => (uses_startManagers app rest).bind fun _ => trivial

end Program

/-- Whether an entry of the journal says that a manager is sent its share. -/
def Event.isDispatch : Event κ → Bool
  | .dispatched .. => true
  | _ => false

/-- The directives of a continuation that is no turn of a manager. -/
inductive Callback.Plain : Directive κ σ → Prop where
  | note {e : Event κ} (calm : e.isDispatch = false) : Plain (.note e)
  | request (r : Request κ σ) : Plain (.request r)
  | callback (c : κ) (v : Value κ) : Plain (.invoke (.callback c v))
  | convert (c : κ) (v : Value κ) : Plain (.invoke (.convert c v))

theorem Callback.uses_run {c : Callback κ} (h : ∀ m s, c ≠ .managerTurn m s) (v : Value κ) :
    (c.run b v).Uses Callback.Plain := by
  cases c with
  | code c => exact uses_direct (.callback c v)
  | map c => exact (uses_direct (.convert c v)).map _
  | mapError c => exact (uses_direct (.convert c v)).map _
  | attempted c => exact (uses_ofExcept _).bind fun _ => (uses_direct (.convert c v)).map _
  | tag chain => exact (uses_ofCode .request _).map _
  | managerReady m => exact (uses_direct (.note rfl)).map _
  | managerTurn m s => exact absurd rfl (h m s)
  | managerFailed m => exact (uses_direct (.note rfl)).map _
  | _ => trivial

/-- The directives of a continuation. -/
inductive Callback.Common : Directive κ σ → Prop where
  | note {e : Event κ} (calm : e.isDispatch = false) : Common (.note e)
  | request (r : Request κ σ) : Common (.request r)
  | callback (c : κ) (v : Value κ) : Common (.invoke (.callback c v))
  | convert (c : κ) (v : Value κ) : Common (.invoke (.convert c v))
  | effects (m : Post κ) (cmds subs : List (Value κ)) (state : Value κ) :
      Common (.invoke (.managerEffects m cmds subs state))
  | message (m : Post κ) (v state : Value κ) : Common (.invoke (.managerMessage m v state))

theorem Manager.uses_turn (m : Post κ) (state v : Value κ) :
    (turn b m state v).Uses Callback.Common := by
  refine Uses.bind ?_ fun _ => trivial
  unfold handle
  split
  · exact uses_first (.note rfl) fun _ => (uses_ofExcept _).bind fun _ => uses_direct (.effects _ _ _ _)
  · exact uses_first (.note rfl) fun _ => (uses_ofExcept _).bind fun _ => uses_direct (.message _ _ _)
  · trivial

theorem Callback.uses_common (c : Callback κ) (v : Value κ) : (c.run b v).Uses Callback.Common := by
  by_cases h : ∃ m state, c = .managerTurn m state
  · obtain ⟨m, state, rfl⟩ := h
    exact Manager.uses_turn m state v
  · refine (uses_run (fun m state hc => h ⟨m, state, hc⟩) v).mono fun d hd => ?_
    cases hd with
    | note calm => exact .note calm
    | request r => exact .request r
    | callback c v => exact .callback c v
    | convert c v => exact .convert c v

/-- The directives of the work of a binding, update cycles apart. -/
inductive Binding.Working (t : Ticket) : Directive κ σ → Prop where
  | start (c : κ) : Working t (.invoke (.start c t))
  | attach (c : κ) : Working t (.attach t c)
  | request (r : Request κ σ) : Working t (.request r)
  | settle (task : Task κ) : Working t (.settle t task)
  | sleep (span : Nat) : Working t (.sleep span t)

theorem Binding.uses_start (t : Ticket) {g : Binding κ} (h : ∀ i v, g ≠ .update i v) :
    (g.start b t).Uses (Working t) := by
  cases g with
  | code c =>
    refine uses_first (.start c) fun r => ?_
    cases r with
    | none => trivial
    | some c => exact uses_direct (.attach c)
  | spawn task =>
    refine uses_first (.request _) fun r => ?_
    cases r with
    | none => trivial
    | some p => exact uses_direct (.settle _)
  | kill p => exact uses_first (.request _) fun _ => uses_direct (.settle _)
  | send p v => exact uses_first (.request _) fun _ => uses_direct (.settle _)
  | this => exact uses_direct (.settle _)
  | sleep span => exact uses_direct (.sleep span)
  | update i v => exact absurd rfl (h i v)

end Actors
