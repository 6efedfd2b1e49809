/-
Who holds the runtime.

Whatever is done for a runtime is done under a reference to it. A tick holds one from its beginning to
its end, and code that is not part of a tick takes one for as long as it works for the runtime, and gives
it back. Without a reference there is only code that the user has asked for itself. So the references that
are held are exactly those of the ticks and of such code; and once there is none left, nothing is under way
that the runtime would have asked for.

* `Directive.isFree` — what code may do without a reference;
* `Discipline.custody` — code does everything else only while it has one;
* `Machine.Owned` — the references that are held, shared out among what is under way, and
  `Machine.Owned.transition`: every step preserves it;
* `Reachable.free_of_gone` — what code still does when the runtime is gone.
-/
import Actors.Proofs.Upkeep

namespace Actors

variable {κ σ α : Type} {b : Behaviour κ σ}

open Procedure World Activity

/-! ### What code does under a reference -/

/-- Whether code of the user is called for the user only: a piece of code that was put aside, and the building
and the conversion of values. Everything else is called for a process, a manager or a program. -/
def Call.isOutside : Call κ → Bool
  | .thunk _ => true
  | .build _ => true
  | .convert .. => true
  | _ => false

/-- Whether code needs no reference to the runtime for a directive. -/
def Directive.isFree : Directive κ σ → Bool
  | .request _ => true
  | .invoke c => c.isOutside
  | .note _ => true
  | .hold => true
  | _ => false

/-- Whether a directive takes a reference to the runtime or gives one back. -/
def Directive.takes : Directive κ σ → Bool
  | .hold => true
  | .unhold => true
  | _ => false

/-- The state of code is the number of references that it has. The code of a tick begins with the tick's
reference and leaves it to the tick. -/
def Discipline.custody : Discipline κ σ Nat where
  idle := 0
  enter _ _ _ := 1
  launch _ _ := 1
  may n d := d.isFree = true ∨ 0 < n
  knows _ _ _ := True
  within n _ := n
  next := referencesAfter
  gives n _ := n = 1
  ends n := n = 1

section

variable {n : Nat}

theorem custody_neutral {d : Directive κ σ} (h : d.takes = false) (may : d.isFree = true ∨ 0 < n) :
    Discipline.custody.Neutral n d :=
  ⟨may, fun _ _ => by cases d <;> first | rfl | cases h⟩

/-- With a reference code may do everything. -/
theorem custody_busy {x : Procedure κ σ α} (h : x.Uses fun d => d.takes = false) :
    x.Restores Discipline.custody (n + 1) :=
  h.restores fun _ hd => custody_neutral hd (.inr (Nat.succ_pos n))

theorem custody_direct {d : Directive κ σ} (h : d.takes = false) (free : d.isFree = true) :
    (direct d).Restores Discipline.custody n :=
  ⟨.inl free, (custody_neutral h (.inl free)).2⟩

theorem custody_ofCode (x : Code κ σ α) : (ofCode x).Restores Discipline.custody n :=
  (uses_ofCode (P := fun d => d.takes = false ∧ d.isFree = true) (fun _ => ⟨rfl, rfl⟩) x).restores
    fun _ hd => custody_neutral hd.1 (.inl hd.2)

/-- What is done between the taking of a reference and its return. -/
theorem custody_hold {f : Unit → Procedure κ σ α} {Q : Nat → α → Prop}
    (hf : (f ()).Obeys Discipline.custody Q (n + 1)) :
    Obeys Discipline.custody Q n ((direct .hold).bind f) :=
  obeys_first (.inl rfl) fun _ _ => hf

theorem custody_unhold {f : Unit → Procedure κ σ α} {Q : Nat → α → Prop}
    (hf : (f ()).Obeys Discipline.custody Q n) :
    Obeys Discipline.custody Q (n + 1) ((direct .unhold).bind f) :=
  obeys_first (.inr (Nat.succ_pos n)) fun _ _ => hf

/-- One directive under a reference, and what follows it. -/
theorem custody_then {d : Directive κ σ} {f : d.Reply → Procedure κ σ α} {Q : Nat → α → Prop}
    (h : d.takes = false) (hf : ∀ r, (f r).Obeys Discipline.custody Q (n + 1)) :
    Obeys Discipline.custody Q (n + 1) ((direct d).bind f) :=
  obeys_neutral (custody_neutral h (.inr (Nat.succ_pos n))) fun r _ => hf r

theorem custody_spawnWith (c : κ) : (Procedure.spawnWith (σ := σ) c).Restores Discipline.custody n :=
  custody_hold <| custody_then rfl fun _ => custody_then rfl fun _ => custody_then rfl fun _ =>
    custody_unhold rfl

theorem takes_of_cyclic {i : ProgramId} {d : RunningProgram κ} {x : Directive κ σ}
    (h : Program.Cyclic i d x) : x.takes = false := by
  cases h <;> rfl

theorem custody_start (c : κ) : (Program.start b c).Restores Discipline.custody n := by
  -- Managers are registered before there is a reference; this is written to the journal only.
  have register : ∀ r managers, (Program.register (σ := σ) b r managers).Restores Discipline.custody n :=
    fun r managers =>
      (Program.uses_register (P := fun d => d.takes = false ∧ d.isFree = true) (fun _ _ => ⟨rfl, rfl⟩) r
        managers).restores fun _ hd => custody_neutral hd.1 (.inl hd.2)
  refine Restores.bind (register _ _) fun r => ?_
  cases r with
  | error f => exact rfl
  | ok registry =>
    refine custody_hold <| custody_then rfl fun pid => custody_then rfl fun _ => ?_
    have managers : (Program.startManagers (σ := σ) pid registry.entries).Restores Discipline.custody (n + 1) :=
      custody_busy ((Program.uses_startManagers pid _).mono fun _ hd => by cases hd <;> rfl)
    refine Obeys.bind managers fun s' managers hs => ?_
    subst hs
    refine custody_then rfl fun i => custody_then rfl fun r => ?_
    have conclude := (Program.uses_conclude (σ := σ) (b := b) i
      ⟨pid, c, registry, managers, none, 0⟩ r.1 r.2).mono fun _ => takes_of_cyclic
    refine Obeys.bind (custody_busy conclude) fun s' _ hs => ?_
    subst hs
    exact custody_then rfl fun _ => custody_then rfl fun _ => custody_then rfl fun _ =>
      custody_then rfl fun _ => custody_unhold rfl

theorem custody_callback (c : Callback κ) (v : Value κ) : (c.run b v).Restores Discipline.custody (n + 1) :=
  custody_busy ((c.uses_common v).mono fun _ hd => by cases hd <;> rfl)

theorem custody_binding (t : Ticket) (g : Binding κ) : (g.start b t).Restores Discipline.custody (n + 1) := by
  by_cases update : ∃ i v, g = .update i v
  · obtain ⟨i, v, rfl⟩ := update
    refine custody_then rfl fun _ => Restores.bind ?_ fun _ => custody_busy (uses_direct rfl)
    exact Program.restores_update i v (custody_neutral rfl (.inr (Nat.succ_pos n))) fun d _ x hx =>
      custody_neutral (takes_of_cyclic hx) (.inr (Nat.succ_pos n))
  · exact custody_busy
      ((Binding.uses_start t fun i v hg => update ⟨i, v, hg⟩).mono fun _ hd => by cases hd <;> rfl)

/-- What a directive expands into gives back the references that it takes. -/
theorem custody_expands {d : Directive κ σ} {y : Procedure κ σ d.Reply} (expands : d.Expands b y) :
    y.Restores Discipline.custody n := by
  cases expands with
  | invoke c => exact custody_ofCode _
  | build c => exact custody_direct rfl rfl
  | convert c v => exact custody_direct rfl rfl
  | spawnWith c => exact custody_spawnWith c
  | start c => exact Restores.bind (custody_start c) fun _ => rfl
  | kill p c => exact custody_direct rfl rfl
  | attach t c c' => exact custody_direct rfl rfl

/-- Code that has called something goes on with the references that it had before. -/
theorem custody_continue {d : Directive κ σ} {y : Procedure κ σ d.Reply} (expands : d.Expands b y)
    {k : d.Reply → Procedure κ σ α} {Q : Nat → α → Prop}
    (h : ∀ r, (k r).Obeys Discipline.custody Q (referencesAfter n d r)) :
    Obeys Discipline.custody Q n (y.bind k) := by
  refine Obeys.bind (custody_expands expands) fun s r hs => ?_
  rw [hs]
  have same : referencesAfter n d r = n := upkeep_counts.expands n d y r expands
  exact same ▸ h r

end

/-! ### The references of a machine -/

/-- Code has a number of references, with which it obeys the discipline. -/
def Pending.Owns (Q : Nat → α → Prop) (n : Nat) : Pending κ σ α → Prop
  | .run code => code.Obeys Discipline.custody Q n
  | .await k => ∀ r, (k r).Obeys Discipline.custody Q n

/-- What an activity has: the code of a tick has the tick's reference among its own. -/
def Activity.Owns (n : Nat) : Activity κ σ → Prop
  | .work c => c.Owns (fun n' _ => n' = 0) n
  | .tick _ _ (.callback _ c) => c.Owns (fun n' _ => n' = 1) n
  | .tick _ _ (.starting _ c) => c.Owns (fun n' _ => n' = 1) n
  | .tick .. => n = 1
  | .drive .. => n = 0

/-- The references that are held are those that the activities have. -/
def Machine.Owned (m : Machine κ σ) : Prop :=
  m.fault = none → ∃ L, List.Forall₂ Activity.Owns L m.stack ∧ m.world.holds = L.sum

/-- The references that code leaves behind at its end. -/
def Frame.share : Frame κ σ α → Nat
  | .work => 0
  | .callback .. => 1
  | .starting .. => 1

theorem Frame.owns_fill (fr : Frame κ σ α) (c : Pending κ σ α) (n : Nat) :
    (fr.fill c).Owns n ↔ c.Owns (fun n' _ => n' = fr.share) n := by
  cases fr <;> exact Iff.rfl

theorem Activity.Owns.resume {n : Nat} {a : Activity κ σ} (h : a.Owns n) (r : Nat) : (a.resume r).Owns n := by
  unfold Activity.resume
  split
  · exact h r
  · exact h r
  · exact h r
  · exact h

namespace Machine

theorem owned_load (w : World κ σ) (code : Code κ σ Unit) (none : w.holds = 0) :
    (load w (ofCode code)).Owned :=
  fun _ => ⟨[0], .cons (custody_ofCode code) .nil, none⟩

variable {w w' : World κ σ} {a a₁ a' : Activity κ σ} {s : List (Activity κ σ)}

/-- The activity on top has some of the references, and those below have the others. -/
theorem Owned.uncons (h : (⟨w, a :: s, none⟩ : Machine κ σ).Owned) :
    ∃ n L, a.Owns n ∧ List.Forall₂ Activity.Owns L s ∧ w.holds = n + L.sum := by
  obtain ⟨L, owns, total⟩ := h rfl
  cases owns with
  | @cons n _ L _ top rest => exact ⟨n, L, top, rest, total⟩

/-- An activity goes on with what it has. -/
theorem Owned.still (h : (⟨w, a :: s, none⟩ : Machine κ σ).Owned) (same : w'.holds = w.holds)
    (next : ∀ n, a.Owns n → a'.Owns n) : (⟨w', a' :: s, none⟩ : Machine κ σ).Owned := by
  intro _
  obtain ⟨n, L, top, rest, total⟩ := h.uncons
  exact ⟨n :: L, .cons (next n top) rest, same.trans total⟩

/-- Something comes on top that has nothing. -/
theorem Owned.push (h : (⟨w, a :: s, none⟩ : Machine κ σ).Owned) (same : w'.holds = w.holds)
    (first : a₁.Owns 0) (next : ∀ n, a.Owns n → a'.Owns n) :
    (⟨w', a₁ :: a' :: s, none⟩ : Machine κ σ).Owned := by
  intro _
  obtain ⟨n, L, top, rest, total⟩ := h.uncons
  refine ⟨0 :: n :: L, .cons first (.cons (next n top) rest), same.trans (total.trans ?_)⟩
  simp only [List.sum_cons, Nat.zero_add]

/-- What the code on top takes or gives back when it performs a directive is added to what it has. -/
theorem Owned.performs {fr : Frame κ σ α} {d : Directive κ σ} {k : d.Reply → Procedure κ σ α}
    {code : Procedure κ σ α} (h : (⟨w, fr.fill (.run (.op d k)) :: s, none⟩ : Machine κ σ).Owned)
    (hd : d.step b w k = .next w' code) : (⟨w', fr.fill (.run code) :: s, none⟩ : Machine κ σ).Owned := by
  intro _
  obtain ⟨n, L, top, rest, total⟩ := h.uncons
  obtain ⟨may, next⟩ : Procedure.Obeys _ _ n (.op (S := directives κ σ) d k) := (fr.owns_fill _ n).1 top
  have kept : w'.holds = d.holdsAfter w := congrArg Stock.holds (Directive.stock hd)
  rcases Directive.step_cases hd with ⟨r, hw, rfl⟩ | ⟨y, hw, expands, rfl⟩
  · refine ⟨referencesAfter n d r :: L, .cons ((fr.owns_fill _ _).2 (next r trivial)) rest, ?_⟩
    have total : w.holds = L.sum + n := total.trans (Nat.add_comm n L.sum)
    have some : d = .unhold → 0 < n := by
      rintro rfl
      exact may.resolve_left nofun
    rw [kept, Directive.holdsAfter_eq r total some, List.sum_cons, Nat.add_comm]
  · refine ⟨n :: L, .cons ((fr.owns_fill _ _).2 ?_) rest, ?_⟩
    · exact custody_continue expands fun r => next r trivial
    · rw [kept, Directive.holdsAfter_of_expands expands]
      exact total

/-- Every step preserves it. -/
theorem Owned.transition {m m' : Machine κ σ} {r : Record κ} (h : m.Owned) (tr : Transition b m r m') :
    m'.Owned := by
  have holds : ∀ {w w' : World κ σ}, w'.surroundings = w.surroundings → w'.holds = w.holds :=
    fun same => congrArg Surroundings.holds same
  cases tr with
  | rest => exact h
  | code fr hd => exact h.performs hd
  | @driving w s α fr d k goal k' hd =>
    obtain ⟨e, rfl⟩ := Directive.eq_drive hd
    obtain ⟨-, -, rfl⟩ := Progress.drive.inj hd
    refine h.push rfl rfl fun n top => (fr.owns_fill _ n).2 fun r => ?_
    have obeys : Procedure.Obeys _ _ n (.op (S := directives κ σ) (.request (.drive e)) k) :=
      (fr.owns_fill _ n).1 top
    exact obeys.2 r trivial
  | broken => exact nofun
  | finished =>
    intro _
    obtain ⟨n, L, top, rest, total⟩ := h.uncons
    obtain rfl : n = 0 := top
    exact ⟨L, rest, total.trans (Nat.zero_add _)⟩
  | picked budget hd => exact h.still (holds (surroundings_dequeue hd)) fun _ top => top
  | skipped budget hd => exact h.still (holds (surroundings_dequeue hd)) fun _ top => top
  | @ended w s n k late =>
    -- The tick gives back the reference that it has taken at its begin.
    intro _
    obtain ⟨one, L, top, rest, before⟩ := h.uncons
    obtain rfl : one = 1 := top
    refine ⟨L, rest, ?_⟩
    have after : (w.endTick n k).holds = w.holds - 1 := congrArg Stock.holds (stock_endTick w n k)
    show (w.endTick n k).holds = L.sum
    omega
  | preempted => exact h.still (holds (surroundings_enqueue _ _)) fun _ top => top
  | parked budget stuck agree beside => exact h.still (holds beside) fun _ top => top
  | pushed budget hx can put root beside => exact h.still (holds beside) fun _ top => top
  | entered budget hx can put root hc beside =>
    refine h.still (holds beside) fun n top => ?_
    obtain rfl : n = 1 := top
    exact custody_callback _ _
  | started budget hx can put task beside =>
    refine h.still (congrArg Surroundings.holds beside) fun n top => ?_
    obtain rfl : n = 1 := top
    exact custody_binding _ _
  | exited budget hx can put root hr event beside => exact h.still (holds beside) fun _ top => top
  | returned hx alive put beside => exact h.still (holds beside) fun _ top => top
  | ignored => exact h.still rfl fun _ top => top
  | launched => exact h.still rfl fun _ top => top
  | @pumped w s ts goal n n' ht here =>
    intro _
    obtain ⟨own, L, top, rest, before⟩ := h.uncons
    refine ⟨1 :: own :: L, .cons rfl (.cons top rest), ?_⟩
    show w.holds + 1 = 1 + (own + L.sum)
    omega
  | lost => exact h.still rfl fun _ top => top
  | thunk agree cause =>
    refine h.push ?_ (custody_direct rfl rfl) fun _ top => top
    rcases cause with ⟨ts, -, rfl⟩ | due
    · rfl
    · exact congrArg Stock.holds due.stock
  | woken op cause =>
    obtain ⟨t, w₁, due, hw, -⟩ := cause
    exact h.still (congrArg Stock.holds ((stock_wake hw).trans due.stock)) fun _ top => top
  | @driven w w' s goal n agree clock =>
    intro _
    obtain ⟨own, L, top, rest, total⟩ := h.uncons
    obtain rfl : own = 0 := top
    have same : w'.holds = w.holds := by rcases clock with rfl | ⟨limit, rfl⟩ <;> rfl
    refine ⟨L, ?_, same.trans (total.trans (Nat.zero_add _))⟩
    cases rest with
    | nil => exact .nil
    | cons top rest => exact .cons (top.resume n) rest

end Machine

/-- Throughout a run the references that are held belong to what is under way. -/
theorem Reachable.owned {m : Machine κ σ} (h : Reachable b m) : m.Owned := by
  induction h with
  | new config user code => exact Machine.owned_load _ code rfl
  | @step m h ih => exact ih.transition (Machine.transition b m)
  | @load m code h hs hf ih =>
    obtain ⟨L, owns, total⟩ := ih hf
    rw [hs] at owns
    cases owns
    exact Machine.owned_load _ code total

/-! ### A runtime that is gone -/

theorem World.gone_iff {w : World κ σ} : w.reachable = false ↔ w.handles = 0 ∧ w.holds = 0 := by
  rw [World.reachable, decide_eq_false_iff_not]
  omega

/-- When the runtime is gone no tick is under way. -/
theorem Reachable.ticksOf_of_gone {m : Machine κ σ} (h : Reachable b m) (going : m.fault = none)
    (gone : m.world.reachable = false) : ticksOf m.stack = 0 := by
  refine Nat.eq_zero_of_not_pos fun tick => ?_
  cases gone.symm.trans (h.reachable_of_tick going tick)

/-- When the runtime is gone code only does what needs no reference, and takes none. -/
theorem Reachable.free_of_gone {m : Machine κ σ} (h : Reachable b m) (gone : m.world.reachable = false)
    {d : Directive κ σ} (top : m.directive? = some d) : d.isFree = true ∧ d ≠ .hold := by
  have proper := h.proper
  have owned := h.owned
  obtain ⟨α, w, fr, k, s, rfl⟩ := Machine.eq_of_directive? top
  refine ⟨?_, fun hold => ?_⟩
  · obtain ⟨L, owns, total⟩ := owned rfl
    cases owns with
    | @cons n _ L _ top rest =>
      obtain ⟨may, -⟩ : Procedure.Obeys _ _ n (.op (S := directives κ σ) d k) := (fr.owns_fill _ n).1 top
      have none : w.holds = 0 := (gone_iff.1 gone).2
      have total : w.holds = n + L.sum := total
      exact may.resolve_right (by omega)
  · cases gone.symm.trans (fr.reachable_of_hold (proper rfl).1 hold)

end Actors
