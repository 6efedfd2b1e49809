/-
The clock.

The clock of a host moves when a timer fires, to the timer's deadline, and at the end of an advance, to the
goal that was set when the advance was called for. An advance may be called for while another one is under
way, by a tick or by a timer, and it may have a later goal. When the outer one comes to its end after that
the clock goes back to the outer goal; nothing else ever sets it back.

* `Underway` — an advance that is under way, with the machines since its call;
* `Trail.underway` — every goal on the stack belongs to one, and only an inner advance gets beyond it;
* `Trail.clock` — when the clock goes back, and where an advance leaves it.
-/
import Actors.Proofs.History
import Actors.Proofs.Purity
import Actors.Proofs.Timetable

namespace Actors

variable {κ σ : Type} {b : Behaviour κ σ}

/-- An advance of the clock is under way: a machine has called for it, and the goal that was set then has
stayed on the stack, right above the goals of the advances that were under way at the call. -/
structure Underway (ms : List (Machine κ σ)) (m m₁ : Machine κ σ) (span : Nat)
    (during : List (Machine κ σ)) : Prop where
  since : ∃ past, ms = past ++ m₁ :: during
  call : m₁.directive? = some (.request (.drive (.advance span)))
  stays : ∀ m' ∈ during ++ [m],
    Time.later m₁.world.host.now span :: m₁.advances <:+ m'.advances

theorem Underway.next {ms during : List (Machine κ σ)} {m m' m₁ : Machine κ σ} {span : Nat}
    (h : Underway ms m m₁ span during)
    (stays : Time.later m₁.world.host.now span :: m₁.advances <:+ m'.advances) :
    Underway (ms ++ [m]) m' m₁ span (during ++ [m]) where
  since := by
    obtain ⟨past, rfl⟩ := h.since
    exact ⟨past, List.append_assoc past (m₁ :: during) [m]⟩
  call := h.call
  stays m₂ hm := by
    rcases List.mem_append.1 hm with hm | hm
    · exact h.stays m₂ hm
    · rw [List.mem_singleton.1 hm]
      exact stays

/-- Of the advances that are under way one has the clock behind its goal, or an inner one has, or an inner
one with a later goal has come to its end. -/
def Machine.Within (m : Machine κ σ) (inner : List Nat) (limit : Nat) (during : List (Machine κ σ)) :
    Prop :=
  m.world.host.now ≤ limit ∨ (∃ l ∈ inner, m.world.host.now ≤ l) ∨
    ∃ m₂ ∈ during, ∃ l, m₂.arrives? = some l ∧ limit < l

/-- A step by which the clock stays leaves this so, whatever further advances are under way inside. -/
theorem Machine.Within.still {m m' : Machine κ σ} {inner inner' : List Nat} {limit : Nat}
    {during : List (Machine κ σ)} (h : m.Within inner' limit during)
    (now : m'.world.host.now = m.world.host.now) (more : inner' ⊆ inner) :
    m'.Within inner limit (during ++ [m]) := by
  obtain behind | ⟨l, hl, inside⟩ | ⟨m₂, hm, l, arrives, later⟩ := h
  · exact .inl (now ▸ behind)
  · exact .inr (.inl ⟨l, more hl, now ▸ inside⟩)
  · exact .inr (.inr ⟨m₂, List.mem_append_left _ hm, l, arrives, later⟩)

theorem Machine.now_of_timetable {w w' : World κ σ} (h : w'.timetable = w.timetable) :
    w'.host.now = w.host.now :=
  congrArg Timetable.now h

theorem Directive.Sets.now {w : World κ σ} {d : Directive κ σ} {x : Timetable κ} (h : d.Sets w x) :
    x.now = w.host.now := by
  cases h <;> rfl

namespace Trail

variable {m : Machine κ σ} {ms : List (Machine κ σ)}

/-- Every goal on the stack belongs to an advance that is under way. -/
theorem underway (h : Trail b m ms) {inner outer : List Nat} {limit : Nat}
    (goals : m.advances = inner ++ limit :: outer) :
    ∃ m₁ span during, Underway ms m m₁ span during ∧
      limit = Time.later m₁.world.host.now span ∧ outer = m₁.advances ∧
      m.Within inner limit during := by
  induction h generalizing inner outer limit with
  | new config user code => cases inner <;> cases goals
  | load code => cases inner <;> cases goals
  | @step m ms h ih =>
    -- An advance that is under way before and after a step has its call in common.
    have goes : ∀ {inner' : List Nat}, m.advances = inner' ++ limit :: outer →
        (∀ during, m.Within inner' limit during →
          (m.step b).Within inner limit (during ++ [m])) →
        ∃ m₁ span during, Underway (ms ++ [m]) (m.step b) m₁ span during ∧
          limit = Time.later m₁.world.host.now span ∧ outer = m₁.advances ∧
          (m.step b).Within inner limit during := by
      intro inner' before within
      obtain ⟨m₁, span, during, under, rfl, rfl, ahead⟩ := ih before
      exact ⟨m₁, span, during ++ [m], under.next ⟨inner, goals.symm⟩, rfl, rfl, within during ahead⟩
    cases Machine.passes b m with
    | rests timetable same =>
      exact goes (same ▸ goals) fun _ ahead =>
        ahead.still (Machine.now_of_timetable timetable) (List.Subset.refl inner)
    | @performed d top timetable same =>
      have now := (congrArg Timetable.now timetable).trans (d.sets m.world).now
      exact goes (same ▸ goals) fun _ ahead => ahead.still now (List.Subset.refl inner)
    | @called span top timetable within =>
      have now := Machine.now_of_timetable timetable
      rw [within] at goals
      cases inner with
      | nil =>
        obtain ⟨rfl, rfl⟩ := List.cons.inj goals
        refine ⟨m, span, [], ⟨⟨ms, rfl⟩, top, fun m' hm => ?_⟩, rfl, rfl, .inl ?_⟩
        · obtain rfl := List.mem_singleton.1 hm
          exact ⟨[], within.symm⟩
        · rw [now]
          exact Time.le_later h.reachable.timely.timetable.now
      | cons l inner =>
        obtain ⟨-, before⟩ := List.cons.inj goals
        exact goes before fun _ ahead => ahead.still now (List.subset_cons_self l inner)
    | @fired l below u us under timers due record timetable same =>
      have now : (m.step b).world.host.now ≤ l := by
        rw [show (m.step b).world.host.now = u.key.due from congrArg Timetable.now timetable]
        exact due
      refine goes (same ▸ goals) fun during _ => ?_
      rw [same, under] at goals
      cases inner with
      | nil =>
        obtain ⟨rfl, -⟩ := List.cons.inj goals
        exact .inl now
      | cons l' inner =>
        obtain ⟨rfl, -⟩ := List.cons.inj goals
        exact .inr (.inl ⟨l, List.mem_cons_self, now⟩)
    | @arrived l arrives timetable under =>
      have now : (m.step b).world.host.now = l := congrArg Timetable.now timetable
      have before : m.advances = (l :: inner) ++ limit :: outer := under.trans (congrArg (l :: ·) goals)
      refine goes before fun during _ => ?_
      rcases Nat.lt_or_ge limit l with later | behind
      · exact .inr (.inr ⟨m, List.mem_append_right _ (List.mem_singleton.2 rfl), l, arrives, later⟩)
      · exact .inl (now ▸ behind)

/-- The goal of an advance that comes to its end was set by its call. -/
theorem underway_of_arrives (h : Trail b m ms) {limit : Nat} (arrives : m.arrives? = some limit) :
    ∃ m₁ span during, Underway ms m m₁ span during ∧ m.advances = limit :: m₁.advances ∧
      limit = Time.later m₁.world.host.now span ∧ m.Within [] limit during := by
  obtain ⟨-, top⟩ := Machine.step_of_arrives (b := b) arrives
  obtain ⟨m₁, span, during, under, goal, outer, within⟩ := h.underway (show m.advances = [] ++ limit :: _ from top)
  exact ⟨m₁, span, during, under, outer ▸ top, goal, within⟩

/-- Only the end of an advance can set the clock back, after a later end of an inner one. -/
theorem forward (h : Trail b m ms) :
    m.world.host.now ≤ (m.step b).world.host.now ∨
      ∃ limit m₁ span during m₂ later, m.arrives? = some limit ∧ Underway ms m m₁ span during ∧
        m.advances = limit :: m₁.advances ∧ limit = Time.later m₁.world.host.now span ∧
        m₂ ∈ during ∧ m₂.arrives? = some later ∧ limit < later := by
  cases Machine.passes b m with
  | rests timetable same => exact .inl (Nat.le_of_eq (Machine.now_of_timetable timetable).symm)
  | @performed d top timetable same =>
    exact .inl (Nat.le_of_eq
      ((congrArg Timetable.now timetable).trans (d.sets m.world).now).symm)
  | called top timetable within =>
    exact .inl (Nat.le_of_eq (Machine.now_of_timetable timetable).symm)
  | @fired limit below u us under timers due record timetable same =>
    have now : (m.step b).world.host.now = u.key.due := congrArg Timetable.now timetable
    have first : u ∈ m.world.host.timers := timers ▸ List.mem_cons_self
    exact .inl (now ▸ (h.reachable.timely.timetable.ahead u first).1)
  | @arrived limit arrives timetable under =>
    have now : (m.step b).world.host.now = limit := congrArg Timetable.now timetable
    obtain ⟨m₁, span, during, under, goals, goal, within⟩ := h.underway_of_arrives arrives
    rcases within with behind | ⟨l, hl, -⟩ | ⟨m₂, hm, later, arrives', lt⟩
    · exact .inl (now ▸ behind)
    · cases hl
    · exact .inr ⟨limit, m₁, span, during, m₂, later, arrives, under, goals, goal, hm, arrives', lt⟩

/-- As long as no advance is called for inside another one the clock does not go back. -/
theorem steady (h : Trail b m ms) (single : ∀ m' ∈ ms ++ [m], m'.advances.length ≤ 1) :
    ∀ m' ∈ ms, m'.world.host.now ≤ m.world.host.now := by
  induction h with
  | new config user code =>
    intro m' hm
    cases hm
  | @load m ms code h hs hf ih =>
    refine ih fun m' hm => ?_
    rcases List.mem_append.1 hm with hm | hm
    · exact single m' (List.mem_append_left _ hm)
    · rw [List.mem_singleton.1 hm, Machine.advances, hs]
      exact Nat.zero_le 1
  | @step m ms h ih =>
    have before := ih fun m' hm => single m' (List.mem_append_left _ hm)
    have now : m.world.host.now ≤ (m.step b).world.host.now := by
      refine h.forward.resolve_right ?_
      rintro ⟨limit, m₁, span, during, m₂, later, -, under, goals, goal, hm, arrives, lt⟩
      -- Of two advances that are under way together one is the other.
      obtain ⟨past, rfl⟩ := under.since
      have here : m₂ ∈ (past ++ m₁ :: during ++ [m]) ++ [m.step b] := by simp [hm]
      obtain ⟨above, goals₂⟩ := under.stays m₂ (List.mem_append_left _ hm)
      obtain ⟨-, top⟩ := Machine.step_of_arrives (b := b) arrives
      have length := single m₂ here
      rw [← goals₂] at length top
      cases above with
      | nil =>
        have same : limit = later := goal.trans (List.cons.inj top).1
        exact Nat.ne_of_lt lt same
      | cons l above => simp at length
    intro m' hm
    rcases List.mem_append.1 hm with hm | hm
    · exact Nat.le_trans (before m' hm) now
    · rw [List.mem_singleton.1 hm]
      exact now

/-- The clock goes back only at the end of an advance inside which another one has come to its end, later
than the goal of the outer one; every other step leaves the clock where it is or moves it forward. An
advance always ends with the clock where its call has set the goal, which is the time of the call and its
span together, as far as time goes. So as long as no advance is called for inside another one the clock
never goes back. -/
theorem clock (h : Trail b m ms) :
    (m.world.host.now ≤ (m.step b).world.host.now ∨
      ∃ limit m₁ span during m₂ later, m.arrives? = some limit ∧ Underway ms m m₁ span during ∧
        m.advances = limit :: m₁.advances ∧ limit = Time.later m₁.world.host.now span ∧
        m₂ ∈ during ∧ m₂.arrives? = some later ∧ limit < later) ∧
    (∀ limit, m.arrives? = some limit → (m.step b).world.host.now = limit ∧
      ∃ m₁ span during, Underway ms m m₁ span during ∧ m.advances = limit :: m₁.advances ∧
        limit = Time.later m₁.world.host.now span ∧ m₁.world.host.now ≤ limit) ∧
    ((∀ m' ∈ ms ++ [m], m'.advances.length ≤ 1) →
      ∀ m' ∈ ms, m'.world.host.now ≤ m.world.host.now) := by
  refine ⟨h.forward, fun limit arrives => ?_, h.steady⟩
  obtain ⟨m₁, span, during, under, goals, goal, -⟩ := h.underway_of_arrives arrives
  have timetable := (Machine.step_of_arrives (b := b) arrives).1
  refine ⟨congrArg Timetable.now timetable, m₁, span, during, under, goals, goal, ?_⟩
  obtain ⟨past, rfl⟩ := under.since
  have called := h.reachable_of_mem (List.mem_append_right past List.mem_cons_self)
  exact goal ▸ Time.le_later called.timely.timetable.now

end Trail

/-- User code that makes the clock advance whenever it is run by the host. -/
def hurried : Behaviour Unit Unit :=
  { Behaviour.ofCallbacks fun _ v => .succeed v with
    thunk := fun _ => (Code.ask (.drive (.advance 100))).bind fun _ => .ret () }

/-- A timer for such code, and an advance by a shorter span. -/
def overlap : Machine Unit Unit :=
  let code : Code Unit Unit Unit :=
    (Code.ask (.delay 5 ())).bind fun _ =>
      (Code.ask (.drive (.advance 10))).bind fun _ => .ret ()
  .load (.new .standard ()) (Procedure.ofCode code)

/-- The outer one comes to its end with the clock at 105, where the inner one has left it. -/
theorem hurried_overtakes :
    (Machine.run hurried 7 overlap).world.host.now = 105 ∧
      (Machine.run hurried 7 overlap).arrives? = some 10 ∧
      ((Machine.run hurried 7 overlap).step hurried).world.host.now = 10 ∧
      ∃ limit, (Machine.run hurried 7 overlap).arrives? = some limit ∧
        ∃ m₂ ∈ Machine.passed hurried 7 overlap, ∃ later, m₂.arrives? = some later ∧ limit < later := by
  have begin : Trail hurried overlap [] := .new _ _ _
  have clock := (begin.run 7).clock
  have before : (Machine.run hurried 7 overlap).world.host.now = 105 := rfl
  have arrives : (Machine.run hurried 7 overlap).arrives? = some 10 := rfl
  have after := (clock.2.1 10 arrives).1
  refine ⟨before, arrives, after, ?_⟩
  have back : ¬ (Machine.run hurried 7 overlap).world.host.now ≤
      ((Machine.run hurried 7 overlap).step hurried).world.host.now := by
    rw [before, after]
    decide
  obtain ⟨limit, m₁, span, during, m₂, later, here, under, -, -, hm, there, lt⟩ :=
    clock.1.resolve_left back
  obtain ⟨past, since⟩ := under.since
  refine ⟨limit, here, m₂, ?_, later, there, lt⟩
  rw [List.nil_append] at since
  rw [since]
  exact List.mem_append_right past (List.mem_cons_of_mem _ hm)

/-- So the clock goes back. -/
theorem hurried_goes_back :
    (Machine.passed hurried 8 overlap).map (fun m => m.world.host.now) = [0, 0, 0, 5, 5, 5, 105, 105] ∧
      (Machine.run hurried 8 overlap).world.host.now = 10 ∧
      ¬ ∀ (m : Machine Unit Unit) (ms : List (Machine Unit Unit)), Trail hurried m ms →
        ∀ m' ∈ ms, m'.world.host.now ≤ m.world.host.now := by
  have begin : Trail hurried overlap [] := .new _ _ _
  have seen : (Machine.passed hurried 8 overlap).map (fun m => m.world.host.now) =
      [0, 0, 0, 5, 5, 5, 105, 105] := rfl
  have last : (Machine.run hurried 8 overlap).world.host.now = 10 := rfl
  refine ⟨seen, last, fun never => ?_⟩
  have late : 105 ∈ (Machine.passed hurried 8 overlap).map fun m => m.world.host.now := by
    rw [seen]
    decide
  obtain ⟨m', hm, now⟩ := List.mem_map.1 late
  have forward := never _ _ (begin.run 8) m' hm
  rw [now, last] at forward
  exact absurd forward (by decide)

end Actors
