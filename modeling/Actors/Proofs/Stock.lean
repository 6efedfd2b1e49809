/-
What a runtime keeps beside its processes.

A runtime keeps a list of its programs, the number of references to it that are held by what is under
way, and the tickets that have not been used. Only a few directives change any of that. Of what happens
without a directive, a tick takes a reference and lets it go again, and a binding that is started gets
its ticket.

* `Stock`, `World.stock` — what is kept;
* `Directive.stock` — what a directive makes of it;
* `Transition.rests` — what else changes it.
-/
import Actors.Proofs.Aftermath
import Actors.Proofs.Keeping
import Actors.Proofs.Pump

namespace Actors

variable {κ σ α : Type} {b : Behaviour κ σ}

/-- The programs of a runtime, the references to it that are held by what is under way, and the unused
tickets. -/
structure Stock (κ : Type) where
  programs : List (RunningProgram κ)
  holds : Nat
  tickets : List (Ticket × Holder)

def Surroundings.stock (x : Surroundings κ σ) : Stock κ :=
  ⟨x.programs, x.holds, x.tickets⟩

namespace World

def stock (w : World κ σ) : Stock κ :=
  ⟨w.programs, w.holds, w.tickets⟩

variable {w w' : World κ σ} {t : Ticket}

theorem stock_of_surroundings (h : w'.surroundings = w.surroundings) : w'.stock = w.stock :=
  congrArg Surroundings.stock h

theorem stock_wake (h : w.wake t = .ok w') : w'.stock = w.stock :=
  stock_of_surroundings (surroundings_wake h)

theorem stock_endTick (w : World κ σ) (n k : Nat) :
    (w.endTick n k).stock = { w.stock with holds := w.holds - 1 } := by
  simp only [endTick]
  split <;> rfl

theorem Due.stock {a : Alarm κ} (h : w.Due a w') : w'.stock = w.stock := by
  obtain ⟨limit, host, -, rfl⟩ := h
  rfl

end World

open World

/-! ### Directives -/

/-- The programs once a directive has been performed. -/
def Directive.programsAfter (w : World κ σ) : Directive κ σ → List (RunningProgram κ)
  | .found d => w.programs ++ [d]
  | .takeModel i => (w.modifyProgram i fun d => { d with model := none }).programs
  | .putModel i v => (w.modifyProgram i fun d => { d with model := some v }).programs
  | .countUpdate i => (w.modifyProgram i fun d => { d with updates := d.updates + 1 }).programs
  | _ => w.programs

/-- The references held once a directive has been performed. -/
def Directive.holdsAfter (w : World κ σ) : Directive κ σ → Nat
  | .hold => w.holds + 1
  | .unhold => w.holds - 1
  | _ => w.holds

/-- The tickets left once a directive has been performed. -/
def Directive.ticketsAfter (w : World κ σ) : Directive κ σ → List (Ticket × Holder)
  | .request (.complete t _) => w.tickets.erase (t, .user)
  | .request (.forget t) => w.tickets.erase (t, .user)
  | .settle t _ => w.tickets.erase (t, .runtime)
  | .sleep _ t => w.tickets.erase (t, .runtime)
  | _ => w.tickets

/-- What a directive makes of what a runtime keeps. -/
theorem Directive.stock {w w' : World κ σ} {d : Directive κ σ} {k : d.Reply → Procedure κ σ α}
    {code : Procedure κ σ α} (h : d.step b w k = .next w' code) :
    w'.stock = ⟨d.programsAfter w, d.holdsAfter w, d.ticketsAfter w⟩ := by
  have kept : (d.surroundingsAfter w).stock =
      ⟨d.programsAfter w, d.holdsAfter w, d.ticketsAfter w⟩ := by
    cases d with
    | request r =>
      cases r with
      | kill p =>
        simp only [surroundingsAfter, Request.surroundingsAfter, unsetBy]
        split
        · split <;> rfl
        · rfl
      | _ => rfl
    | _ => rfl
  exact (congrArg Surroundings.stock (Directive.surroundings h)).trans kept

/-! ### Steps without a directive -/

/-- What happens without a directive leaves the programs as they are, takes a reference for a tick and
lets it go at the tick's end, and uses up no ticket. -/
structure Stock.Rests (n n' : Nat) (x x' : Stock κ) : Prop where
  programs : x'.programs = x.programs
  holds : n ≤ x.holds → x'.holds + n = x.holds + n'
  tickets : ∀ e ∈ x.tickets, e ∈ x'.tickets

theorem Stock.Rests.of_eq {n n' : Nat} {x x' : Stock κ} (same : x' = x) (ticks : n' = n) :
    Rests n n' x x' := by
  subst same ticks
  exact ⟨rfl, fun _ => rfl, fun _ => id⟩

open Activity in
theorem Transition.rests {m m' : Machine κ σ} {r : Record κ} (tr : Transition b m r m')
    (still : m.directive? = none) :
    Stock.Rests (ticksOf m.stack) (ticksOf m'.stack) m.world.stock m'.world.stock := by
  -- Programs and holds go along with the ticks on the stack: a tick takes a hold when it begins
  -- and gives it back at its end.
  cases tr with
  | code fr hd => rw [fr.directive?_fill] at still; cases still
  | driving fr hd => rw [fr.directive?_fill] at still; cases still
  | broken agree like cause =>
    refine .of_eq ?_ (ticksOf_like like _)
    rcases cause.world with rfl | ⟨t, due⟩
    · rfl
    · exact due.stock
  | picked budget hd => exact .of_eq (stock_of_surroundings (surroundings_dequeue hd)) rfl
  | skipped budget hd => exact .of_eq (stock_of_surroundings (surroundings_dequeue hd)) rfl
  | @ended w s n k h =>
    rw [stock_endTick, ticksOf_tick]
    refine ⟨rfl, fun held => ?_, fun _ => id⟩
    have held : ticksOf s + 1 ≤ w.holds := held
    show w.holds - 1 + (ticksOf s + 1) = w.holds + ticksOf s
    omega
  | preempted => exact .of_eq (stock_of_surroundings (surroundings_enqueue _ _)) rfl
  | parked budget stuck agree beside => exact .of_eq (stock_of_surroundings beside) rfl
  | pushed budget hx can put root beside => exact .of_eq (stock_of_surroundings beside) rfl
  | entered budget hx can put root hc beside => exact .of_eq (stock_of_surroundings beside) rfl
  | started budget hx can put task beside =>
    have programs := congrArg Surroundings.programs beside
    have holds := congrArg Surroundings.holds beside
    have tickets := congrArg Surroundings.tickets beside
    refine ⟨programs, fun _ => congrArg (· + _) holds, fun e he => ?_⟩
    refine (congrArg (e ∈ ·) tickets).mpr ?_
    exact List.mem_cons_of_mem _ he
  | exited budget hx can put root hr event beside => exact .of_eq (stock_of_surroundings beside) rfl
  | returned hx alive put beside => exact .of_eq (stock_of_surroundings beside) rfl
  | pumped ht here =>
    refine ⟨rfl, fun _ => ?_, fun _ => id⟩
    rw [ticksOf_tick, ticksOf_skip rfl, ticksOf_skip rfl]
    exact Nat.add_right_comm _ 1 _
  | thunk agree cause =>
    refine .of_eq ?_ rfl
    rcases cause with ⟨ts, -, rfl⟩ | due
    · rfl
    · exact due.stock
  | woken op cause =>
    obtain ⟨t, w₁, due, hw, -⟩ := cause
    exact .of_eq ((stock_wake hw).trans due.stock) rfl
  | driven agree clock =>
    refine .of_eq ?_ (ticksOf_resumeTop _ _)
    rcases clock with rfl | ⟨limit, rfl⟩
    · rfl
    · rfl
  | _ => exact .of_eq rfl rfl

end Actors
