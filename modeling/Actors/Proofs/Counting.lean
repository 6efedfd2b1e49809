/-
What code holds, counted.

Code takes references to the runtime and gives them back, and it reserves names and uses them. If the
states of a discipline say how much of either code holds, then what all code holds together is known of
every machine: the references that are held are those of the ticks and those of code, and a name that is
held is held once, and free.

* `Discipline.Counts` — the states of a discipline say how much of something code holds;
* `Discipline.Tallies` — what a step does to what all code holds together;
* `Machine.Held`, `Discipline.Counts.held` — references to the runtime;
* `World.Claimed`, `Discipline.Counts.claimed` — the right to use a name.
-/
import Actors.Proofs.Allocation
import Actors.Proofs.Stock
import Mathlib

namespace Actors

variable {κ σ S α : Type} {b : Behaviour κ σ} {D : Discipline κ σ S}

open World Activity

/-- Each state of a discipline has a weight: how much of something code holds in it. Directives change
the weight in a certain way, but for those that expand into code. -/
structure Discipline.Counts (D : Discipline κ σ S) (b : Behaviour κ σ) (weight : S → Nat)
    (after : Nat → (d : Directive κ σ) → d.Reply → Nat) : Prop where
  idle : weight D.idle = 0
  enter : ∀ p c v, weight (D.enter p c v) = 0
  launch : ∀ t g, weight (D.launch t g) = 0
  within : ∀ s d, weight (D.within s d) = weight s
  next : ∀ s d r, D.may s d → D.knows s d r → weight (D.next s d r) = after (weight s) d r
  expands : ∀ n d y r, d.Expands b y → after n d r = n
  gives : ∀ s t, D.gives s t → weight s = 0
  ends : ∀ s, D.ends s → weight s = 0

namespace Discipline.Counts

variable {weight : S → Nat} {after : Nat → (d : Directive κ σ) → d.Reply → Nat}
  {s s' : S} {L L' : List S}

/-- Code that has been called gives back what it takes. -/
theorem settled (h : D.Counts b weight after) (settled : D.Settled b s s') : weight s' = weight s := by
  induction settled with
  | refl => rfl
  | head first _ ih =>
    rw [ih]
    obtain ⟨may, expands, r, known⟩ := first
    rw [h.next _ _ r may known, h.within, h.expands _ _ _ _ expands]

theorem trims (h : D.Counts b weight after) (trims : D.Trims b L L') :
    (L'.map weight).sum = (L.map weight).sum := by
  induction trims with
  | refl => rfl
  | settle T settled => simp only [List.map_cons, List.sum_cons, h.settled settled]
  | drop T => simp only [List.map_cons, List.sum_cons, h.idle, Nat.zero_add]
  | push T => simp only [List.map_cons, List.sum_cons, h.idle, Nat.zero_add]
  | trans _ _ ih ih' => rw [ih', ih]

end Discipline.Counts

/-- What a step can do to what all code holds together: only a directive changes it, and by as much as
the code holds more or less that performs the directive. -/
inductive Discipline.Tallies (D : Discipline κ σ S) (b : Behaviour κ σ) (weight : S → Nat)
    (m m' : Machine κ σ) : Nat → Nat → Prop where
  | still (none : m.directive? = none) (n : Nat) : Tallies D b weight m m' n n
  | broken {f : Fault} (hf : m'.fault = some f) (world : m'.world = m.world) (n : Nat) :
      Tallies D b weight m m' n n
  | driving {e : Extent} (top : m.directive? = some (.request (.drive e))) (world : m'.world = m.world)
      (n : Nat) : Tallies D b weight m m' n n
  | code {s s' : S} {d : Directive κ σ} (top : m.directive? = some d) (may : D.may s d)
      (moves : D.Moves b m.world s d m'.world s') (rest : Nat) :
      Tallies D b weight m m' (weight s + rest) (weight s' + rest)

/-- What code holds is tallied at every step. Code that is called or returns holds nothing. -/
theorem Discipline.Counts.tallies {weight : S → Nat} {after : Nat → (d : Directive κ σ) → d.Reply → Nat}
    (h : D.Counts b weight after) {m m' : Machine κ σ} {L L' : List S} (goes : D.Goes b m m' L L') :
    D.Tallies b weight m m' (L.map weight).sum (L'.map weight).sum := by
  have same : m.directive? = none → (L'.map weight).sum = (L.map weight).sum →
      D.Tallies b weight m m' (L.map weight).sum (L'.map weight).sum := fun none same =>
    same ▸ .still none _
  cases goes with
  | code top settled may moves =>
    rw [List.map_cons, List.map_cons, List.sum_cons, List.sum_cons, ← h.settled settled]
    exact .code top may moves _
  | driving top settled may world =>
    simp only [List.map_cons, List.sum_cons, h.idle, h.settled settled, Nat.zero_add]
    exact .driving top world _
  | entered none => exact same none (by simp only [List.map_cons, List.sum_cons, h.enter, h.idle])
  | started none => exact same none (by simp only [List.map_cons, List.sum_cons, h.launch, h.idle])
  | returned none top settled gives =>
    have nothing := (h.settled settled).symm.trans (h.gives _ _ gives)
    exact same none (by simp only [List.map_cons, List.sum_cons, h.idle, nothing])
  | launched none silent settled ends =>
    have nothing := (h.settled settled).symm.trans (h.ends _ ends)
    exact same none (by simp only [List.map_cons, List.sum_cons, h.idle, nothing])
  | broken hf still =>
    rcases still with none | world
    · exact .still none _
    · exact .broken hf world _
  | quiet none begins trims => exact same none (h.trims trims)

/-! ### References -/

/-- The references that code holds after a directive. -/
def referencesAfter (n : Nat) : (d : Directive κ σ) → d.Reply → Nat
  | .hold, _ => n + 1
  | .unhold, _ => n - 1
  | _, _ => n

/-- The references to the runtime that are held are those of the ticks and those of code. -/
def Machine.Held (m : Machine κ σ) (n : Nat) : Prop :=
  m.fault = none → m.world.holds = ticksOf m.stack + n

/-- A machine that goes on has not broken a contract before. -/
theorem Machine.going_of_step {m : Machine κ σ} (h : (m.step b).fault = none) : m.fault = none := by
  cases hf : m.fault with
  | none => rfl
  | some f =>
    rw [step_of_isOver (by simp [isOver, hf]), hf] at h
    cases h

/-- A directive has effect on the references as on those of the code that performs it. -/
theorem Directive.holdsAfter_eq {w : World κ σ} {d : Directive κ σ} {n k : Nat} (r : d.Reply)
    (h : w.holds = k + n) (some : d = .unhold → 0 < n) :
    d.holdsAfter w = k + referencesAfter n d r := by
  cases d with
  | hold => exact congrArg (· + 1) h
  | unhold =>
    have some := some rfl
    show w.holds - 1 = k + (n - 1)
    omega
  | _ => exact h

theorem Directive.holdsAfter_of_expands {w : World κ σ} {d : Directive κ σ}
    {y : Procedure κ σ d.Reply} (h : d.Expands b y) : d.holdsAfter w = w.holds := by
  cases h <;> rfl

/-- A directive that leads on leaves the ticks. -/
theorem Machine.of_next {m : Machine κ σ} {d : Directive κ σ} (top : m.directive? = some d)
    {w' : World κ σ} {y : Procedure κ σ d.Reply} (h : d.step b m.world Act.ret = .next w' y) :
    (m.step b).world = w' ∧ ticksOf (m.step b).stack = ticksOf m.stack := by
  obtain ⟨α, w, fr, k, s, rfl⟩ := Machine.eq_of_directive? top
  have h : d.step b w Act.ret = .next w' y := h
  rw [fr.step_op, stepCode, Directive.step_eq_bind, h]
  exact ⟨rfl, ticksOf_like (fr.like _ _) s⟩

theorem Machine.ticksOf_of_drive {m : Machine κ σ} {e : Extent}
    (top : m.directive? = some (.request (.drive e))) :
    ticksOf (m.step b).stack = ticksOf m.stack := by
  obtain ⟨α, w, fr, k, s, rfl⟩ := Machine.eq_of_directive? top
  rw [fr.step_op]
  exact (ticksOf_skip rfl _).trans (ticksOf_like (fr.like _ _) s)

/-- Every step keeps track of the references. -/
theorem Discipline.Counts.held {weight : S → Nat}
    (h : D.Counts b weight referencesAfter) (some : ∀ s, D.may s .unhold → 0 < weight s)
    {m : Machine κ σ} {L L' : List S} (held : m.Held (L.map weight).sum)
    (goes : D.Goes b m (m.step b) L L') : (m.step b).Held (L'.map weight).sum := by
  intro going
  have before := held (Machine.going_of_step going)
  have tallies := h.tallies goes
  generalize (L.map weight).sum = n at before tallies
  generalize (L'.map weight).sum = n' at tallies ⊢
  cases tallies with
  | still none =>
    -- Without a directive only the ticks change the references.
    have stock : m.world.stock.holds = ticksOf m.stack + n := before
    have after := ((Machine.transition b m).rests none).holds (stock ▸ Nat.le_add_right _ _)
    show (m.step b).world.stock.holds = _
    omega
  | broken hf =>
    rw [hf] at going
    cases going
  | driving top world => rw [world, Machine.ticksOf_of_drive top, before]
  | @code s s' d top may moves rest =>
    cases moves with
    | expanded hd expands =>
      have kept : (m.step b).world.holds = d.holdsAfter m.world :=
        congrArg Stock.holds (Directive.stock hd)
      rw [kept, (Machine.of_next top hd).2, Directive.holdsAfter_of_expands expands, h.within, before]
    | answered r hd known =>
      have kept : (m.step b).world.holds = d.holdsAfter m.world :=
        congrArg Stock.holds (Directive.stock hd)
      have after := Directive.holdsAfter_eq (k := ticksOf m.stack + rest) r
        (before.trans (by omega)) fun hd => some s (hd ▸ may)
      rw [kept, (Machine.of_next top hd).2, h.next s d r may known, after]
      omega

/-! ### Names -/

/-- What the name `q` counts for holds on the name `p`. -/
def holdOn (p q : Pid) : Nat :=
  if q = p then 1 else 0

theorem holdOn_self {p q : Pid} (h : q = p) : holdOn p q = 1 :=
  if_pos h

theorem holdOn_other {p q : Pid} (h : q ≠ p) : holdOn p q = 0 :=
  if_neg h

/-- How often code holds the name `p` after a directive. -/
def holdsAfter (p : Pid) (n : Nat) : (d : Directive κ σ) → d.Reply → Nat
  | .reserve, q => n + holdOn p q
  | .install q _ _, _ => n - holdOn p q
  | _, _ => n

/-- A name is held once at most, and it is free as long as it is held. -/
structure World.Claimed (w : World κ σ) (p : Pid) (n : Nat) : Prop where
  single : n ≤ 1
  free : 0 < n → w.procs.isFree p = true

/-- Whether a directive reserves a name or uses one. -/
def Directive.names : Directive κ σ → Bool
  | .reserve => true
  | .install .. => true
  | _ => false

theorem holdsAfter_other {p : Pid} {n : Nat} {d : Directive κ σ} (h : d.names = false)
    (r : d.Reply) : holdsAfter p n d r = n := by
  cases d <;> first | rfl | cases h

/-- A name that has just been handed out is held by nobody. -/
theorem World.Claimed.eq_zero {w w' : World κ σ} {p q : Pid} {n : Nat} (h : w.Claimed p n)
    (hr : w.reserve = .ok (q, w')) (hq : q = p) : n = 0 := by
  subst hq
  refine Nat.eq_zero_of_not_pos fun some => ?_
  have number := (ProcTable.isFree_iff.1 (h.free some)).1
  exact Nat.lt_irrefl _ ((reserve_eq hr).1 ▸ number)

/-- If code has a list of what it holds, there is one entry at most in all lists together. -/
theorem World.Claimed.flatten {w : World κ σ} {p : Pid} {L : List (List α)}
    (h : w.Claimed p (L.map List.length).sum) :
    L.flatten.length ≤ 1 ∧ (L.flatten ≠ [] → w.procs.isFree p = true) := by
  rw [← List.length_flatten] at h
  exact ⟨h.single, fun held => h.free (List.length_pos_iff.2 held)⟩

/-- A name that code holds is held nowhere else. -/
theorem World.Claimed.alone {w : World κ σ} {p : Pid} {x : α} {u : List α} {T : List (List α)}
    (h : w.Claimed p (((x :: u) :: T).map List.length).sum) : u ++ T.flatten = [] := by
  have single : (u ++ T.flatten).length + 1 ≤ 1 := h.flatten.1
  exact List.length_eq_zero_iff.1 (by omega)

/-- A name that code holds has been handed out. -/
theorem World.Claimed.handed {w : World κ σ} {p : Pid} {L : List (List α)}
    (h : w.Claimed p (L.map List.length).sum) (held : L.flatten ≠ []) : p.number < w.names :=
  (ProcTable.isFree_iff.1 (h.flatten.2 held)).1

/-- Nobody holds a name that has just been handed out. -/
theorem World.Claimed.eq_nil {w w' : World κ σ} {p q : Pid} {L : List (List α)}
    (h : w.Claimed p (L.map List.length).sum) (hr : w.reserve = .ok (q, w')) (hq : q = p) : L.flatten = [] := by
  have none := h.eq_zero hr hq
  rw [← List.length_flatten] at none
  exact List.length_eq_zero_iff.1 none

/-- Every step leaves a name that is held free, but for its use. -/
theorem Discipline.Counts.claimed {p : Pid} {weight : S → Nat} (h : D.Counts b weight (holdsAfter p))
    (held : ∀ s label t, D.may s (.install p label t) → 0 < weight s) {m : Machine κ σ} {L L' : List S}
    (sound : m.Sound) (claimed : m.world.Claimed p (L.map weight).sum)
    (goes : D.Goes b m (m.step b) L L') : (m.step b).world.Claimed p (L'.map weight).sum := by
  have tallies := h.tallies goes
  generalize (L.map weight).sum = n at claimed tallies
  generalize (L'.map weight).sum = n' at tallies ⊢
  have stays : (∀ label t, m.directive? ≠ some (.install p label t)) → (m.step b).world.Claimed p n :=
    fun idle => ⟨claimed.single, fun some => Machine.isFree_of_idle sound (claimed.free some) idle⟩
  cases tallies with
  | still none =>
    refine stays fun label t hd => ?_
    rw [none] at hd
    cases hd
  | broken hf world => rwa [world]
  | driving top world => rwa [world]
  | @code s s' d top may moves rest =>
    have idle : (∀ label t, d ≠ .install p label t) → (m.step b).world.Claimed p (weight s + rest) :=
      fun hi => stays fun label t hd => hi label t (Option.some.inj (top.symm.trans hd))
    cases moves with
    | expanded hd expands =>
      rw [h.within]
      refine idle fun label t hi => ?_
      subst hi
      cases expands
    | answered r hd known =>
      rw [h.next s d r may known]
      cases hn : d.names with
      | false =>
        rw [holdsAfter_other hn]
        exact idle fun label t hi => by rw [hi] at hn; cases hn
      | true =>
        cases d with
        | reserve =>
          have hr : m.world.reserve = .ok (r, (m.step b).world) := reserve_of_step hd
          show (m.step b).world.Claimed p (weight s + holdOn p r + rest)
          by_cases hq : r = p
          · have none := claimed.eq_zero hr hq
            rw [holdOn_self hq]
            exact ⟨by omega, fun _ => hq ▸ isFree_of_reserve hr⟩
          · rw [holdOn_other hq]
            exact idle nofun
        | install q label t =>
          show (m.step b).world.Claimed p (weight s - holdOn p q + rest)
          by_cases hq : q = p
          · -- The only hold is used up.
            have some := held s label t (hq ▸ may)
            have single := claimed.single
            rw [holdOn_self hq]
            exact ⟨by omega, fun more => by omega⟩
          · rw [holdOn_other hq]
            exact idle fun label' t' hi => hq (Directive.install.inj hi).1
        | _ => cases hn

end Actors
