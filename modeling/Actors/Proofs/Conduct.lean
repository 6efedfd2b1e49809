/-
How code conducts itself.

Some directives are used at a few places only. A reference to the runtime is taken only where it is
known that the runtime is there; a thunk is entered only by what calls it off, or by the host; the
start function of a binding is entered only when the binding is started; and only then may its
process be put to sleep, or be given what calls the binding off. Everything else is tame code, and
tame code stays tame, whatever it is answered.

* `Procedure.Tame` — code without these directives;
* `Leave` — what code may have leave to do;
* `Procedure.Fit` — tame code that may enter a thunk first, and `Procedure.Fit.next`: what an
  operation leaves of it is of the same sort;
* `Opening` — the code that starts a binding, as long as what calls the binding off may still be
  handed in.
-/
import Actors.Proofs.Transition

namespace Actors

variable {κ σ α β : Type} {b : Behaviour κ σ}

/-! ### Tame code -/

/-- Whether a directive may stand in tame code. It may take a reference to the runtime only where it
is known that the runtime is there. -/
def Directive.Tame (live : Bool) : Directive κ σ → Prop
  | .hold => live = true
  | .sleep .. => False
  | .attach .. => False
  | .invoke (.thunk _) => False
  | .invoke (.start ..) => False
  | _ => True

/-- Whether it is known after a directive that the runtime is there, given whether it is known
before. -/
def Directive.after (live : Bool) : Directive κ σ → Bool
  | .note _ => live
  | .hold => live
  | _ => false

theorem Directive.after_false (d : Directive κ σ) : d.after false = false := by
  cases d <;> rfl

/-- Code all of whose directives are tame. -/
def Procedure.Tame : Bool → Procedure κ σ α → Prop
  | _, .ret _ => True
  | _, .raise _ => True
  | live, .op d k =>
    Directive.Tame live d ∧ ∀ r, Procedure.Tame (Directive.after live d) (k r)

namespace Procedure

theorem Tame.mono {x : Procedure κ σ α} (h : x.Tame false) (live : Bool) : x.Tame live := by
  induction x generalizing live with
  | ret a => trivial
  | raise f => trivial
  | op d k ih =>
    obtain ⟨hd, hk⟩ := h
    refine ⟨?_, fun r => ih r (Directive.after_false d ▸ hk r) _⟩
    cases d with
    | hold => cases hd
    | invoke c => cases c <;> exact hd
    | _ => exact hd

/-- Nothing is known any more of the runtime when the second part of some code begins. -/
theorem Tame.bind {x : Procedure κ σ α} {f : α → Procedure κ σ β} {live : Bool} (h : x.Tame live)
    (hf : ∀ a, (f a).Tame false) : Tame live (x.bind f) := by
  induction x generalizing live with
  | ret a => exact (hf a).mono live
  | raise f => trivial
  | op d k ih => exact ⟨h.1, fun r => ih r (h.2 r)⟩

theorem Tame.map {x : Procedure κ σ α} {live : Bool} (h : x.Tame live) (g : α → β) :
    Tame live (x.map g) := by
  rw [Act.map_eq_bind]
  exact h.bind fun _ => trivial

theorem tame_ofCode (code : Code κ σ α) (live : Bool) : Tame live (ofCode code) := by
  induction code generalizing live with
  | ret a => trivial
  | raise f => trivial
  | op r k ih => exact ⟨trivial, fun x => ih x _⟩

/-- A directive that is tame, and what follows it. -/
theorem tame_first {d : Directive κ σ} {f : d.Reply → Procedure κ σ α} {live : Bool}
    (h : d.Tame live) (hf : ∀ r, (f r).Tame false) : Tame live ((direct d).bind f) :=
  ⟨h, fun r => (hf r).mono _⟩

theorem tame_direct {d : Directive κ σ} {live : Bool} (h : d.Tame live) :
    Tame live (direct d) :=
  ⟨h, fun _ => trivial⟩

theorem tame_ofExcept (r : Except Fault α) (live : Bool) :
    Tame live (Act.ofExcept r : Procedure κ σ α) := by
  cases r <;> trivial

end Procedure

open Procedure

/-! ### The runtime's own code is tame -/

namespace Shares

theorem tame_addLeaf (b : Behaviour κ σ) (r : Registry κ) (f : Family) (chain : List (Tagger κ))
    (home : Home) (v : Value κ) (shares : Shares κ) :
    (addLeaf b r f chain home v shares).Tame false := by
  unfold addLeaf
  split
  · trivial
  · split
    · exact Tame.map (tame_direct (by trivial)) _
    · trivial

mutual

theorem tame_addTree (b : Behaviour κ σ) (r : Registry κ) (f : Family) (chain : List (Tagger κ)) :
    ∀ (t : EffectTree κ) (shares : Shares κ), (addTree b r f chain t shares).Tame false
  | .leaf home v, shares => by
    rw [addTree]
    exact tame_addLeaf b r f chain home v shares
  | .node children, shares => by
    rw [addTree]
    exact tame_addTrees b r f chain children shares
  | .map tagger inner, shares => by
    rw [addTree]
    exact tame_addTree b r f (tagger :: chain) inner shares

theorem tame_addTrees (b : Behaviour κ σ) (r : Registry κ) (f : Family) (chain : List (Tagger κ)) :
    ∀ (ts : List (EffectTree κ)) (shares : Shares κ), (addTrees b r f chain ts shares).Tame false
  | [], shares => by
    rw [addTrees]
    trivial
  | t :: ts, shares => by
    rw [addTrees]
    exact (tame_addTree b r f chain t shares).bind fun _ => tame_addTrees b r f chain ts _

end

theorem tame_ofCycle (b : Behaviour κ σ) (r : Registry κ) (cmds subs : EffectTree κ) :
    (ofCycle b r cmds subs).Tame false :=
  (tame_addTree b r .command [] cmds []).bind fun _ => tame_addTree b r .subscription [] subs _

end Shares

namespace Program

theorem tame_distribute (shares : Shares κ) :
    ∀ managers, (distribute (σ := σ) shares managers).Tame false
  | [] => trivial
  | (_, _) :: rest =>
    tame_first trivial fun _ =>
      tame_first trivial fun _ => tame_distribute shares rest

theorem tame_conclude (b : Behaviour κ σ) (p : ProgramId) (d : RunningProgram κ)
    (model : Value κ) (cmds : EffectTree κ) : (conclude b p d model cmds).Tame false := by
  unfold conclude
  refine tame_first trivial fun _ => tame_first trivial fun subs =>
    tame_first trivial fun _ => (Shares.tame_ofCycle b _ _ _).bind fun shares =>
      tame_first trivial fun here => ?_
  split
  · exact tame_distribute shares d.managers
  · trivial

theorem tame_update (b : Behaviour κ σ) (p : ProgramId) (v : Value κ) :
    (update b p v).Tame false := by
  unfold update
  refine tame_first trivial fun d => ?_
  split
  · trivial
  · split
    · refine tame_first trivial fun model => ?_
      split
      · trivial
      · exact tame_first trivial fun _ => tame_first trivial fun _ =>
          tame_conclude b p _ _ _
    · trivial

/-- Registering managers only writes to the journal, so what is known of the runtime is known
afterwards, too. -/
theorem tame_register (b : Behaviour κ σ) {live : Bool}
    {f : Except Fault (Registry κ) → Procedure κ σ α} (hf : ∀ r, (f r).Tame live) :
    ∀ r managers, Tame live ((register b r managers).bind f)
  | r, [] => hf _
  | r, (home, hooks) :: rest => by
    rw [register]
    split
    · exact hf _
    · exact ⟨trivial, fun _ => tame_register b hf _ rest⟩

theorem tame_startManagers (app : Pid) :
    ∀ managers : List (Home × Hooks κ), (startManagers (σ := σ) app managers).Tame false
  | [] => trivial
  | (_, _) :: rest => by
    refine tame_first trivial fun this => Tame.bind ?_ fun t =>
      tame_first trivial fun _ => (tame_startManagers app rest).bind fun _ => trivial
    exact tame_first trivial fun _ => tame_first trivial fun _ => trivial

/-- A program is started only where it is known that the runtime is there. -/
theorem tame_start (b : Behaviour κ σ) (c : κ) : (start b c).Tame true := by
  unfold start
  refine tame_register b (fun r => ?_) _ _
  cases r with
  | error f => trivial
  | ok registry =>
    refine ⟨rfl, fun _ => Tame.mono ?_ _⟩
    refine tame_first trivial fun pid => tame_first trivial fun _ =>
      (tame_startManagers _ _).bind fun managers => tame_first trivial fun p =>
        tame_first trivial fun r => (tame_conclude b _ _ _ _).bind fun _ => ?_
    exact tame_first trivial fun _ => tame_first trivial fun _ =>
      tame_first trivial fun _ => tame_first trivial fun _ =>
        tame_first trivial fun _ => trivial

end Program

/-- A process whose task needs its name is started only where it is known that the runtime is
there. -/
theorem Procedure.tame_spawnWith (c : κ) : (spawnWith (σ := σ) c).Tame true := by
  refine ⟨rfl, fun _ => Tame.mono ?_ _⟩
  exact tame_first trivial fun p => tame_first trivial fun t =>
    tame_first trivial fun _ => tame_first trivial fun _ => trivial

theorem Manager.tame_turn (b : Behaviour κ σ) (m : Post κ) (state v : Value κ) :
    (turn b m state v).Tame false := by
  refine Tame.bind ?_ fun _ => trivial
  unfold handle
  split
  · exact tame_first trivial fun _ => (tame_ofExcept _ _).bind fun _ =>
      tame_direct trivial
  · exact tame_first trivial fun _ => (tame_ofExcept _ _).bind fun _ =>
      tame_direct trivial
  · trivial

theorem Callback.tame_run (b : Behaviour κ σ) (c : Callback κ) (v : Value κ) :
    (c.run b v).Tame false := by
  cases c with
  | code c => exact tame_direct trivial
  | map c => exact Tame.map (tame_direct (by trivial)) _
  | mapError c => exact Tame.map (tame_direct (by trivial)) _
  | attempted c => exact (tame_ofExcept _ _).bind fun _ => Tame.map (tame_direct (by trivial)) _
  | tag chain => exact Tame.map (tame_ofCode _ _) _
  | managerReady m => exact Tame.map (tame_direct (by trivial)) _
  | managerTurn m state => exact Manager.tame_turn b m state v
  | managerFailed m => exact Tame.map (tame_direct (by trivial)) _
  | _ => trivial

/-! ### One operation -/

namespace Progress

/-- What an operation leads to, with more code behind it. -/
def bind (g : Progress κ σ α) (f : α → Procedure κ σ β) : Progress κ σ β :=
  match g with
  | .next w code => .next w (code.bind f)
  | .drive w goal k => .drive w goal fun n => (k n).bind f
  | .fault e => .fault e

theorem ofExcept_bind (r : Except Fault (World κ σ)) (code : Procedure κ σ α)
    (f : α → Procedure κ σ β) : ofExcept r (code.bind f) = (ofExcept r code).bind f := by
  cases r <;> rfl

theorem callOff_bind (w : World κ σ) (c : Option (Cancel κ)) (code : Procedure κ σ α)
    (f : α → Procedure κ σ β) : callOff w c (code.bind f) = (callOff w c code).bind f := by
  cases c with
  | none => rfl
  | some c => cases c <;> rfl

theorem of_bind_next {g : Progress κ σ α} {f : α → Procedure κ σ β} {w : World κ σ} {y : Procedure κ σ β}
    (h : g.bind f = .next w y) : ∃ x, g = .next w x ∧ x.bind f = y := by
  cases g with
  | next w' x =>
    obtain ⟨rfl, rfl⟩ := Progress.next.inj h
    exact ⟨x, rfl, rfl⟩
  | drive => cases h
  | fault => cases h

theorem of_bind_drive {g : Progress κ σ α} {f : α → Procedure κ σ β} {w : World κ σ} {goal : Goal}
    {k : Nat → Procedure κ σ β} (h : g.bind f = .drive w goal k) :
    ∃ k', g = .drive w goal k' ∧ ∀ n, (k' n).bind f = k n := by
  cases g with
  | next => cases h
  | drive w' goal' k' =>
    obtain ⟨rfl, rfl, rfl⟩ := Progress.drive.inj h
    exact ⟨k', rfl, fun _ => rfl⟩
  | fault => cases h

theorem of_bind_fault {g : Progress κ σ α} {f : α → Procedure κ σ β} {e : Fault}
    (h : g.bind f = .fault e) : g = .fault e := by
  cases g with
  | next => cases h
  | drive => cases h
  | fault e' => exact congrArg Progress.fault (Progress.fault.inj h)

end Progress

/-- What code does next does not depend on the code behind it. -/
theorem Request.step_bind (w : World κ σ) (r : Request κ σ) (k : r.Reply → Procedure κ σ α)
    (f : α → Procedure κ σ β) :
    r.step b w (fun x => (k x).bind f) = (r.step b w k).bind f := by
  -- Only requests that look at the world branch; in each branch the code behind is passed on.
  cases r with
  | build c => rfl
  | convert c v => rfl
  | spawn t =>
    simp only [Request.step]
    split
    · split <;> rfl
    · rfl
  | spawnWith c =>
    simp only [Request.step]
    split
    · exact congrArg (Progress.next w) (Act.bind_assoc _ _ _).symm
    · rfl
  | kill p =>
    simp only [Request.step]
    split
    · exact Progress.callOff_bind _ _ _ f
    · rfl
  | complete t task => exact Progress.ofExcept_bind _ _ f
  | start c =>
    simp only [Request.step]
    split
    · exact congrArg (Progress.next w) (Act.bind_assoc _ _ _).symm
    · rfl
  | model p =>
    simp only [Request.step]
    split
    · rfl
    · split <;> rfl
  | _ => rfl

theorem Directive.step_bind (w : World κ σ) (d : Directive κ σ) (k : d.Reply → Procedure κ σ α)
    (f : α → Procedure κ σ β) :
    d.step b w (fun x => (k x).bind f) = (d.step b w k).bind f := by
  cases d with
  | request r => exact r.step_bind w k f
  | invoke c => exact congrArg (Progress.next w) (Act.bind_assoc _ _ _).symm
  | settle t task => exact Progress.ofExcept_bind _ _ f
  | attach t c => exact Progress.callOff_bind _ _ _ f
  | reserve =>
    simp only [Directive.step]
    split <;> rfl
  | install p label t => exact Progress.ofExcept_bind _ _ f
  | _ => rfl

/-- What code may have leave to do: to hand in what calls a binding off, with the ticket of the
binding; to enter the start of a binding; and to enter a thunk. -/
structure Leave (κ : Type) where
  hand : Ticket → Prop
  start : Ticket → Prop
  call : κ → Prop

/-- Leave to do everything. -/
def Leave.full : Leave κ :=
  ⟨fun _ => True, fun _ => True, fun _ => True⟩

/-- Code that may have leave to enter a thunk first, and is tame after that. -/
inductive Procedure.Fit (L : Leave κ) (live : Bool) : Procedure κ σ α → Prop where
  | tame {x : Procedure κ σ α} (h : x.Tame live) : Fit L live x
  | thunk {c : κ} (leave : L.call c) {k : Unit → Procedure κ σ α} (h : ∀ u, (k u).Tame false) :
      Fit L live (.op (S := directives κ σ) (.invoke (.thunk c)) k)

namespace Procedure

section

variable {L L' : Leave κ}

theorem Fit.of_callOff {w w' : World κ σ} {c : Option (Cancel κ)} {x code : Procedure κ σ α}
    {live : Bool} (h : x.Tame false) (hc : Progress.callOff w c x = .next w' code)
    (leave : ∀ c', c = some (.thunk c') → L.call c') : code.Fit L live := by
  unfold Progress.callOff at hc
  split at hc
  · obtain ⟨-, rfl⟩ := Progress.next.inj hc
    exact .tame (h.mono live)
  · obtain ⟨-, rfl⟩ := Progress.next.inj hc
    exact .tame (h.mono live)
  · obtain ⟨-, rfl⟩ := Progress.next.inj hc
    exact .thunk (leave _ rfl) fun _ => h

theorem Tame.of_ofExcept {r : Except Fault (World κ σ)} {w' : World κ σ} {x code : Procedure κ σ α}
    {live : Bool} (h : x.Tame live) (hr : Progress.ofExcept r x = .next w' code) :
    code.Tame live :=
  (Progress.of_ofExcept hr).2 ▸ h

/-- A request of tame code leaves code that is fit. -/
theorem Fit.of_request {w w' : World κ σ} {r : Request κ σ} {k : r.Reply → Procedure κ σ α}
    {code : Procedure κ σ α} (h : ∀ x, (k x).Tame false) (hr : r.step b w k = .next w' code)
    (leave : ∀ c, Directive.calledOff? w (.request r) = some (.thunk c) → L.call c) :
    code.Fit L w'.reachable := by
  -- The reference a program is run with is there, since the request has found the runtime.
  cases r with
  | build c =>
    obtain ⟨-, rfl⟩ := Progress.next.inj hr
    exact .tame (tame_first trivial h)
  | convert c v =>
    obtain ⟨-, rfl⟩ := Progress.next.inj hr
    exact .tame (tame_first trivial h)
  | spawn t =>
    rcases Directive.of_spawn (b := b) hr with ⟨p, -, -, rfl⟩ | ⟨-, -, rfl⟩ <;> exact .tame ((h _).mono _)
  | spawnWith c =>
    obtain ⟨rfl, ⟨here, rfl⟩ | ⟨-, rfl⟩⟩ := Directive.of_spawnWith (b := b) hr
    · rw [here]
      exact .tame ((tame_spawnWith c).bind h)
    · exact .tame ((h _).mono _)
  | kill p =>
    rcases Directive.of_kill (b := b) hr with ⟨here, off⟩ | ⟨-, -, rfl⟩
    · exact .of_callOff (h ()) off fun c hc => leave c ((if_pos here).trans hc)
    · exact .tame ((h _).mono _)
  | complete t task => exact .tame (((h ()).mono _).of_ofExcept hr)
  | drive e => cases hr
  | start c =>
    obtain ⟨rfl, ⟨here, rfl⟩ | ⟨-, rfl⟩⟩ := Directive.of_start (b := b) hr
    · rw [here]
      exact .tame ((Program.tame_start b c).bind fun r => h (some r))
    · exact .tame ((h _).mono _)
  | model p =>
    obtain ⟨-, v, rfl⟩ := Directive.of_model (b := b) hr
    exact .tame ((h _).mono _)
  | _ =>
    obtain ⟨-, rfl⟩ := Progress.next.inj hr
    exact .tame ((h _).mono _)

/-- An operation of tame code leaves code that is fit. -/
theorem Tame.next {w w' : World κ σ} {d : Directive κ σ} {k : d.Reply → Procedure κ σ α}
    {code : Procedure κ σ α}
    (h : Tame w.reachable (.op (S := directives κ σ) d k)) (hd : d.step b w k = .next w' code)
    (leave : ∀ c, d.calledOff? w = some (.thunk c) → L.call c) : code.Fit L w'.reachable := by
  obtain ⟨tame, hk⟩ := h
  cases d with
  | request r => exact .of_request hk hd leave
  | invoke c =>
    obtain ⟨-, rfl⟩ := Progress.next.inj hd
    exact .tame ((tame_ofCode _ _).bind hk)
  | note e =>
    obtain ⟨rfl, rfl⟩ := Progress.next.inj hd
    exact .tame (hk ())
  | settle t task => exact .tame (((hk ()).mono _).of_ofExcept hd)
  | sleep span t => cases tame
  | attach t c => cases tame
  | reserve =>
    obtain ⟨p, -, rfl⟩ := Directive.of_reserve (b := b) hd
    exact .tame ((hk _).mono _)
  | install p label t => exact .tame (((hk ()).mono _).of_ofExcept hd)
  | hold =>
    obtain ⟨rfl, rfl⟩ := Progress.next.inj hd
    have here : w.reachable = true := tame
    -- Code that takes a hold goes on as code that has one.
    have held : ({ w with holds := w.holds + 1 } : World κ σ).reachable = true := by
      simp only [World.reachable, decide_eq_true_eq]
      omega
    rw [held, ← here]
    exact .tame (hk ())
  | _ =>
    obtain ⟨-, rfl⟩ := Progress.next.inj hd
    exact .tame ((hk _).mono _)

/-- An operation of fit code leaves code that is fit. -/
theorem Fit.next {w w' : World κ σ} {d : Directive κ σ} {k : d.Reply → Procedure κ σ α}
    {code : Procedure κ σ α}
    (h : Fit L w.reachable (.op (S := directives κ σ) d k)) (hd : d.step b w k = .next w' code)
    (leave : ∀ c, d.calledOff? w = some (.thunk c) → L'.call c) : code.Fit L' w'.reachable := by
  cases h with
  | tame h => exact h.next hd leave
  | thunk _ h =>
    obtain ⟨-, rfl⟩ := Progress.next.inj hd
    exact .tame (((tame_ofCode _ _).bind h).mono _)

/-- While code waits for a drive, nothing is known of the runtime. -/
theorem Fit.drive {w w' : World κ σ} {d : Directive κ σ} {k : d.Reply → Procedure κ σ α}
    {goal : Goal} {k' : Nat → Procedure κ σ α} {live : Bool}
    (h : Fit L live (.op (S := directives κ σ) d k)) (hd : d.step b w k = .drive w' goal k')
    (n : Nat) :
    (k' n).Tame false := by
  obtain ⟨e, rfl⟩ := Directive.eq_drive hd
  obtain ⟨-, -, rfl⟩ := Progress.drive.inj hd
  cases h with
  | tame h => exact h.2 n

end

end Procedure

/-- The same of code that runs or waits. -/
def Pending.Fit (L : Leave κ) (live : Bool) : Pending κ σ α → Prop
  | .run code => code.Fit L live
  | .await k => ∀ n, (k n).Tame false

/-- Code that runs or waits, with more code behind it. -/
def Pending.bind (c : Pending κ σ α) (f : α → Procedure κ σ β) : Pending κ σ β :=
  match c with
  | .run code => .run (code.bind f)
  | .await k => .await fun n => (k n).bind f

/-! ### The start of a binding -/

/-- What is done with the result of a start function. -/
def Procedure.handIn (t : Ticket) : Option κ → Procedure κ σ Unit
  | some c => direct (.attach t c)
  | none => .ret ()

/-- The code that starts a binding, as long as what calls the binding off may still be handed in:
the start function is about to be entered, or under way; or the process is about to be put to
sleep. -/
inductive Opening (L : Leave κ) (w : World κ σ) (t : Ticket) : Pending κ σ Unit → Prop where
  | entering (c : κ) (leave : L.start t) :
      Opening L w t (.run (.op (S := directives κ σ) (.invoke (.start c t)) (handIn t)))
  | within {c : Pending κ σ (Option κ)} (h : c.Fit L w.reachable) (leave : L.hand t) :
      Opening L w t (c.bind (handIn t))
  | sleeping (span : Nat) (held : (t, .runtime) ∈ w.tickets) (leave : L.start t) :
      Opening L w t (.run (.op (S := directives κ σ) (.sleep span t) .ret))

theorem Binding.opening_start {L : Leave κ} (w : World κ σ) {t : Ticket} (g : Binding κ)
    (held : (t, g.holder) ∈ w.tickets) (leave : L.start t) :
    Opening L w t (.run (g.start b t)) ∨ Pending.Fit L w.reachable (.run (g.start b t)) := by
  cases g with
  | code c => exact .inl (.entering c leave)
  | sleep span => exact .inl (.sleeping span held leave)
  | spawn task =>
    refine .inr (.tame (tame_first trivial fun p => ?_))
    cases p with
    | none => trivial
    | some p => exact tame_direct trivial
  | kill p => exact .inr (.tame (tame_first trivial fun _ => tame_direct trivial))
  | send p v => exact .inr (.tame (tame_first trivial fun _ => tame_direct trivial))
  | this => exact .inr (.tame (tame_direct trivial))
  | update p v =>
    exact .inr (.tame (tame_first trivial fun _ => (Program.tame_update b p v).bind fun _ =>
      tame_direct trivial))

/-- The code within a start function, taken apart where it begins with an operation: that is either
an operation of the start function itself, or its result is handed in. -/
theorem Pending.bind_eq_op {c : Pending κ σ α} {f : α → Procedure κ σ β} {d : Directive κ σ}
    {k : d.Reply → Procedure κ σ β}
    (h : c.bind f = .run (.op (S := directives κ σ) d k)) :
    (∃ k' : d.Reply → Procedure κ σ α,
      c = .run (.op (S := directives κ σ) d k') ∧ k = fun r => (k' r).bind f) ∨
      ∃ a, c = .run (.ret a) ∧ f a = .op (S := directives κ σ) d k := by
  cases c with
  | await k' => cases h
  | run code =>
    rcases Act.of_bind_op (Pending.run.inj h) with ⟨a, rfl, ha⟩ | ⟨k', rfl, rfl⟩
    · exact .inr ⟨a, rfl, ha⟩
    · exact .inl ⟨k', rfl, rfl⟩

/-- What the code that starts a binding does next. -/
inductive Opening.Step (L : Leave κ) (w : World κ σ) (t : Ticket) :
    (d : Directive κ σ) → (d.Reply → Procedure κ σ Unit) → Prop where
  | enters (c : κ) (leave : L.start t) : Step L w t (.invoke (.start c t)) (handIn t)
  /-- The start function performs an operation of its own. -/
  | performs {d : Directive κ σ} {k : d.Reply → Procedure κ σ (Option κ)}
      (fit : Procedure.Fit L w.reachable (.op (S := directives κ σ) d k)) (leave : L.hand t) :
      Step L w t d fun r => (k r).bind (handIn t)
  /-- The result of the start function is handed in. -/
  | hands (c : κ) (leave : L.hand t) : Step L w t (.attach t c) .ret
  | sleeps (span : Nat) (held : (t, .runtime) ∈ w.tickets) (leave : L.start t) :
      Step L w t (.sleep span t) .ret

section

variable {L L' : Leave κ}

theorem Opening.step {w : World κ σ} {t : Ticket} {d : Directive κ σ}
    {k : d.Reply → Procedure κ σ Unit}
    (h : Opening L w t (.run (.op (S := directives κ σ) d k))) : Opening.Step L w t d k := by
  generalize hc : Pending.run (.op (S := directives κ σ) d k) = c at h
  cases h with
  | entering c leave =>
    cases hc
    exact .enters c leave
  | within fit leave =>
    rcases Pending.bind_eq_op hc.symm with ⟨k', rfl, rfl⟩ | ⟨r, rfl, hr⟩
    · exact .performs fit leave
    · cases r with
      | none => cases hr
      | some c =>
        cases hr
        exact .hands c leave
  | sleeping span held leave =>
    cases hc
    exact .sleeps span held leave

/-- As long as nothing is handed in, it may still be handed in later. -/
theorem Opening.next {w w' : World κ σ} {t : Ticket} {d : Directive κ σ}
    {k : d.Reply → Procedure κ σ Unit} {code : Procedure κ σ Unit}
    (h : Opening L w t (.run (.op (S := directives κ σ) d k)))
    (hd : d.step b w k = .next w' code) (ho : d.offer? w = none)
    (keep : L.hand t ∨ L.start t → L'.hand t)
    (leave : ∀ c, d.calledOff? w = some (.thunk c) → L'.call c) :
    Opening L' w' t (.run code) := by
  cases h.step with
  | enters c new =>
    obtain ⟨rfl, rfl⟩ := Progress.next.inj hd
    exact .within (c := .run (ofCode (b.start c t))) (.tame (tame_ofCode _ _)) (keep (.inr new))
  | @performs _ k' fit known =>
    have hd := (Directive.step_bind w d k' (handIn t)).symm.trans hd
    cases hs : d.step b w k' with
    | next w₁ code₁ =>
      rw [hs] at hd
      obtain ⟨rfl, rfl⟩ := Progress.next.inj hd
      exact .within (c := .run code₁) (fit.next hs leave) (keep (.inl known))
    | drive w₁ goal k₁ => rw [hs] at hd; cases hd
    | fault f => rw [hs] at hd; cases hd
  | hands c known => cases ho
  | sleeps span held new => cases ho

/-- A start function that makes the host run waits until the drive is over. -/
theorem Opening.drive {w w' : World κ σ} {t : Ticket} {d : Directive κ σ}
    {k : d.Reply → Procedure κ σ Unit} {goal : Goal} {k' : Nat → Procedure κ σ Unit}
    (h : Opening L w t (.run (.op (S := directives κ σ) d k)))
    (hd : d.step b w k = .drive w' goal k') (keep : L.hand t → L'.hand t) :
    Opening L' w' t (.await k') := by
  obtain ⟨e, rfl⟩ := Directive.eq_drive hd
  obtain ⟨rfl, -, rfl⟩ := Progress.drive.inj hd
  cases h.step with
  | @performs _ k₁ fit known =>
    have waits : Pending.Fit L' w.reachable (.await k₁) :=
      Fit.drive (b := b) (w := w) (k := k₁) fit rfl
    exact .within waits (keep known)

/-- Nothing is handed in by code that is fit. -/
theorem Procedure.Fit.offer?_eq_none {w : World κ σ} {d : Directive κ σ}
    {k : d.Reply → Procedure κ σ α} {live : Bool}
    (h : Fit L live (.op (S := directives κ σ) d k)) : d.offer? w = none := by
  cases h with
  | thunk _ h => rfl
  | tame h =>
    cases d with
    | sleep span t => cases h.1
    | attach t c => cases h.1
    | _ => rfl

/-- What is handed in is the result of the start function, or the timer of a process that is put to
sleep. The code that is left is fit. -/
theorem Opening.handed {w w' : World κ σ} {t : Ticket} {d : Directive κ σ}
    {k : d.Reply → Procedure κ σ Unit} {code : Procedure κ σ Unit} {o : Ticket × Cancel κ}
    (h : Opening L w t (.run (.op (S := directives κ σ) d k)))
    (hd : d.step b w k = .next w' code) (ho : d.offer? w = some o)
    (leave : ∀ c, d.calledOff? w = some (.thunk c) → L'.call c) :
    o.1 = t ∧ ((∃ c, o.2 = .thunk c ∧ L.hand t ∧
        .op (S := directives κ σ) d k = handIn t (some c)) ∨ L.start t) ∧
      code.Fit L' w'.reachable := by
  cases h.step with
  | enters c new => cases ho
  | performs fit known => cases fit.offer?_eq_none.symm.trans ho
  | hands c known =>
    obtain rfl := Option.some.inj ho
    exact ⟨rfl, .inl ⟨c, rfl, known, rfl⟩, .of_callOff (x := .ret ()) trivial hd leave⟩
  | sleeps span held new =>
    obtain rfl := Option.some.inj ho
    obtain ⟨-, rfl⟩ := Progress.next.inj hd
    exact ⟨rfl, .inr new, .tame trivial⟩

/-- Code that waits does so in whatever world. -/
theorem Opening.await {w : World κ σ} {t : Ticket} {k : Nat → Procedure κ σ Unit}
    (h : Opening L w t (.await k)) (keep : L.hand t → L'.hand t) (w' : World κ σ) :
    Opening L' w' t (.await k) ∧ ∀ n, Opening L' w' t (.run (k n)) := by
  generalize hc : Pending.await k = c at h
  cases h with
  | entering c new => cases hc
  | @within c fit known =>
    cases c with
    | run code => cases hc
    | await k' =>
      cases hc
      have goes : ∀ n, Pending.Fit L' w'.reachable (.run (k' n)) := fun n => .tame ((fit n).mono _)
      exact ⟨.within (c := .await k') fit (keep known),
        fun n => .within (c := .run (k' n)) (goes n) (keep known)⟩
  | sleeping span held new => cases hc

/-- Whether there is leave to enter user code. Only starts and thunks need it. -/
def Leave.Allows (L : Leave κ) : Call κ → Prop
  | .start _ t => L.start t
  | .thunk c => L.call c
  | _ => True

/-- User code is entered only with leave. -/
theorem Procedure.Fit.allows {live : Bool} {x : Call κ} {k : x.Result → Procedure κ σ α}
    (h : Fit L live (.op (S := directives κ σ) (.invoke x) k)) : L.Allows x := by
  cases h with
  | thunk leave h => exact leave
  | tame h =>
    cases x with
    | start c t => exact h.1.elim
    | thunk c => exact h.1.elim
    | _ => trivial

theorem Opening.allows {w : World κ σ} {t : Ticket} {x : Call κ}
    {k : x.Result → Procedure κ σ Unit}
    (h : Opening L w t (.run (.op (S := directives κ σ) (.invoke x) k))) : L.Allows x := by
  cases h.step with
  | enters c leave => exact leave
  | performs fit known => exact fit.allows

end

end Actors
