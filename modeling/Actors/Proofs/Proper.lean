/-
How machines conduct themselves.

All code on the stack of a machine is fit, and below the topmost activity everything waits for a
drive to be over. What calls a binding off is handed in by the code that starts this binding and by
no other, at most once. A reference to the runtime is taken only where the runtime is there, so a
runtime that is gone does not come back.

* `Machine.Proper` — the code that a machine can have on its stack, with the leave that it has;
* `Machine.Proper.transition`, `Reachable.proper` — every step preserves it;
* `Machine.Proper.allows` — the start of a binding, and a thunk, are entered only with leave;
* `Transition.reachable` — a runtime that is gone does not come back.
-/
import Actors.Proofs.Conduct
import Actors.Proofs.Wakeup

namespace Actors

variable {κ σ α β : Type} {b : Behaviour κ σ}

open Procedure

/-- The process a binding of which is being started. -/
def Activity.starting? : Activity κ σ → Option Pid
  | .tick _ _ (.starting p _) => some p
  | _ => none

/-- Whether an activity goes on only when a drive above it is over, or is itself a drive. -/
def Activity.isWaiting : Activity κ σ → Bool
  | .work (.await _) => true
  | .tick _ _ (.callback _ (.await _)) => true
  | .tick _ _ (.starting _ (.await _)) => true
  | .drive .. => true
  | _ => false

/-- The code of an activity is fit; while a binding is being started, what calls it off may still be
handed in. -/
def Activity.Fit (L : Leave κ) (w : World κ σ) : Activity κ σ → Prop
  | .work c => c.Fit L w.reachable
  | .tick _ _ (.callback _ c) => c.Fit L w.reachable
  | .tick _ _ (.starting p c) => c.Fit L w.reachable ∨ ∃ n, Opening L w ⟨p, n⟩ c
  | _ => True

/-- The activities below another one wait, and their code is fit. -/
def World.FitBelow (L : Leave κ) (w : World κ σ) (s : List (Activity κ σ)) : Prop :=
  ∀ a ∈ s, a.isWaiting = true ∧ a.Fit L w

/-- The code of a stack is fit, and everything but the topmost activity waits. -/
def World.Fit (L : Leave κ) (w : World κ σ) : List (Activity κ σ) → Prop
  | [] => True
  | a :: s => a.Fit L w ∧ w.FitBelow L s

/-- The same of a machine that has not broken a contract. -/
def Machine.Proper (L : Leave κ) (m : Machine κ σ) : Prop :=
  m.fault = none → m.world.Fit L m.stack

section

variable {L L' : Leave κ} {w w' : World κ σ} {a : Activity κ σ} {s : List (Activity κ σ)}

/-- Code that performs no directive needs no leave. -/
theorem Pending.Fit.still {c : Pending κ σ α} {live : Bool} (h : c.Fit L live)
    (idle : ∀ (d : Directive κ σ) (k : d.Reply → Procedure κ σ α),
      c ≠ .run (.op (S := directives κ σ) d k)) : c.Fit L' live := by
  cases c with
  | await k => exact h
  | run code =>
    cases code with
    | ret a => exact .tame trivial
    | raise f => exact .tame trivial
    | op d k => exact absurd rfl (idle d k)

/-- An activity that does not go on stays fit. -/
theorem Activity.Fit.still (h : a.Fit L w) (idle : a.directive? = none)
    (keep : ∀ t, L.hand t → a.starting? = some t.pid → L'.hand t) : a.Fit L' w := by
  -- Code that waits fits in every world; what has a directive on top is excluded by `idle`.
  cases a with
  | work c =>
    refine Pending.Fit.still h fun d k hc => ?_
    subst hc
    cases idle
  | drive goal n => trivial
  | tick n k phase =>
    cases phase with
    | seek => trivial
    | turn p => trivial
    | callback p c =>
      refine Pending.Fit.still h fun d k hc => ?_
      subst hc
      cases idle
    | starting p c =>
      rcases h with fit | ⟨i, opening⟩
      · refine .inl (fit.still fun d k hc => ?_)
        subst hc
        cases idle
      · refine .inr ⟨i, ?_⟩
        cases opening with
        | entering c leave => cases idle
        | within fit leave =>
          refine .within (fit.still fun d k hc => ?_) (keep _ leave rfl)
          subst hc
          cases idle
        | sleeping span held leave => cases idle

/-- An activity that waits does so in whatever world, and is fit once the drive is over. -/
theorem Activity.Fit.wait (h : a.Fit L w) (ha : a.isWaiting = true)
    (keep : ∀ t, L.hand t → a.starting? = some t.pid → L'.hand t) (w' : World κ σ) :
    a.Fit L' w' ∧ ∀ n, (a.resume n).Fit L' w' := by
  -- Only code at an `await` waits; what it goes on with was fit for every answer.
  cases a with
  | work c =>
    cases c with
    | run code => cases ha
    | await k => exact ⟨h, fun n => .tame ((h n).mono _)⟩
  | drive goal n => exact ⟨trivial, fun _ => trivial⟩
  | tick n k phase =>
    cases phase with
    | callback p c =>
      cases c with
      | run code => cases ha
      | await k => exact ⟨h, fun n => .tame ((h n).mono _)⟩
    | starting p c =>
      cases c with
      | run code => cases ha
      | await k =>
        rcases h with fit | ⟨i, opening⟩
        · exact ⟨.inl fit, fun n => .inl (.tame ((fit n).mono _))⟩
        · obtain ⟨waits, goes⟩ := opening.await (fun leave => keep _ leave rfl) w'
          exact ⟨.inr ⟨i, waits⟩, fun n => .inr ⟨i, goes n⟩⟩
    | _ => cases ha

theorem World.FitBelow.wait (h : w.FitBelow L s)
    (keep : ∀ t, L.hand t → (∃ a ∈ s, a.starting? = some t.pid) → L'.hand t) (w' : World κ σ) :
    w'.FitBelow L' s := by
  intro a ha
  obtain ⟨waiting, fit⟩ := h a ha
  exact ⟨waiting, (fit.wait waiting (fun t leave hs => keep t leave ⟨a, ha, hs⟩) w').1⟩

theorem World.FitBelow.pop (h : w.FitBelow L s) : w.Fit L s := by
  cases s with
  | nil => trivial
  | cons a s => exact ⟨(h a List.mem_cons_self).2, fun a' ha' => h a' (List.mem_cons_of_mem _ ha')⟩

theorem World.FitBelow.push {a : Activity κ σ} (h : w.FitBelow L s) (waiting : a.isWaiting = true)
    (fit : a.Fit L w) : w.FitBelow L (a :: s) :=
  List.forall_mem_cons.2 ⟨⟨waiting, fit⟩, h⟩

theorem World.FitBelow.resumeTop (h : w.FitBelow L s) (n : Nat) :
    w.Fit L (Machine.resumeTop n s) := by
  cases s with
  | nil => trivial
  | cons a s =>
    obtain ⟨waiting, fit⟩ := h a List.mem_cons_self
    have goes : ∀ n, (a.resume n).Fit L w := (fit.wait waiting (fun _ leave _ => leave) w).2
    exact ⟨goes n, fun a' ha' => h a' (List.mem_cons_of_mem _ ha')⟩

end

open Activity

section

variable {L L' : Leave κ} {w w' : World κ σ} {d : Directive κ σ}
  {k : d.Reply → Procedure κ σ α} {code : Procedure κ σ α}

/-- An operation by which nothing is handed in leaves the code that performs it fit. -/
theorem Frame.fit_next (fr : Frame κ σ α) (h : (fr.fill (.run (.op d k))).Fit L w)
    (hd : d.step b w k = .next w' code) (ho : d.offer? w = none)
    (keep : ∀ t, L.hand t ∨ L.start t → (fr.fill (.run (.op d k))).starting? = some t.pid →
      L'.hand t)
    (leave : ∀ c, d.calledOff? w = some (.thunk c) → L'.call c) :
    (fr.fill (.run code)).Fit L' w' := by
  cases fr with
  | work => exact Procedure.Fit.next h hd leave
  | callback n k p => exact Procedure.Fit.next h hd leave
  | starting n k p =>
    rcases h with fit | ⟨i, opening⟩
    · exact .inl (Procedure.Fit.next fit hd leave)
    · exact .inr ⟨i, opening.next hd ho (fun known => keep _ known rfl) leave⟩

/-- Only code that starts a binding hands something in, and it is plain code after that. What it
hands in is the result of the start function, or a timer. -/
theorem Frame.fit_handed {o : Ticket × Cancel κ} (fr : Frame κ σ α)
    (h : (fr.fill (.run (.op d k))).Fit L w) (hd : d.step b w k = .next w' code)
    (ho : d.offer? w = some o) (leave : ∀ c, d.calledOff? w = some (.thunk c) → L'.call c) :
    (fr.fill (.run code)).Fit L' w' ∧
      ∃ n k' c', fr.fill (.run (.op d k)) = .tick n k' (.starting o.1.pid (.run c')) ∧
        ((∃ c, o.2 = .thunk c ∧ L.hand o.1 ∧ c' = handIn o.1 (some c)) ∨ L.start o.1) := by
  cases fr with
  | work => cases (Procedure.Fit.offer?_eq_none h).symm.trans ho
  | callback n k p => cases (Procedure.Fit.offer?_eq_none h).symm.trans ho
  | starting n k' p =>
    rcases h with fit | ⟨i, opening⟩
    · cases (Procedure.Fit.offer?_eq_none fit).symm.trans ho
    · obtain ⟨t, c⟩ := o
      obtain ⟨rfl, how, fit⟩ := opening.handed hd ho leave
      exact ⟨.inl fit, n, k', _, rfl, how⟩

/-- A process is put to sleep only with the ticket that has been issued for this. -/
theorem Frame.held_of_sleep {span : Nat} {t : Ticket} (fr : Frame κ σ α)
    (h : (fr.fill (.run (.op d k))).Fit L w) (hd : d = .sleep span t) :
    (t, .runtime) ∈ w.tickets := by
  have ho : d.offer? w ≠ none := by
    rw [hd]
    exact nofun
  cases fr with
  | work => exact absurd (Procedure.Fit.offer?_eq_none h) ho
  | callback n k p => exact absurd (Procedure.Fit.offer?_eq_none h) ho
  | starting n k' p =>
    rcases h with fit | ⟨i, opening⟩
    · exact absurd (Procedure.Fit.offer?_eq_none fit) ho
    · cases opening.step with
      | enters c leave => cases hd
      | performs fit leave => exact absurd fit.offer?_eq_none ho
      | hands c leave => cases hd
      | sleeps span' held leave =>
        cases hd
        exact held

theorem Frame.fit_drive (fr : Frame κ σ α) {goal : Goal} {k' : Nat → Procedure κ σ α}
    (h : (fr.fill (.run (.op d k))).Fit L w) (hd : d.step b w k = .drive w' goal k')
    (keep : ∀ t, L.hand t → (fr.fill (.run (.op d k))).starting? = some t.pid → L'.hand t) :
    (fr.fill (.await k')).isWaiting = true ∧ (fr.fill (.await k')).Fit L' w' := by
  cases fr with
  | work => exact ⟨rfl, Procedure.Fit.drive h hd⟩
  | callback n k p => exact ⟨rfl, Procedure.Fit.drive h hd⟩
  | starting n k p =>
    rcases h with fit | ⟨i, opening⟩
    · exact ⟨rfl, .inl (Procedure.Fit.drive fit hd)⟩
    · exact ⟨rfl, .inr ⟨i, opening.drive hd fun known => keep _ known rfl⟩⟩

end

/-- While a binding is being started on top of a stack, none is below. -/
theorem Activity.starting?_of_quiet {s : List (Activity κ σ)} (h : ticksOf s = 0) {a : Activity κ σ}
    (ha : a ∈ s) : a.starting? = none := by
  have idle := List.countP_eq_zero.1 h a ha
  cases a with
  | tick n k phase => exact absurd rfl idle
  | _ => rfl

/-- Whether a drive is about to take a piece of user code out of the host. -/
def Machine.Defers (m : Machine κ σ) (c : κ) : Prop :=
  ∃ w goal n s, m = ⟨w, .drive goal n :: s, none⟩ ∧
    ((∃ ts, w.host.ticks = .thunk c :: ts) ∨ ∃ w', w.Due (.thunk c) w')

/-- Code that performs an operation stays fit, and so does what waits below it. Once something is
handed in no binding is being started any more. -/
theorem World.Fit.performs {L L' : Leave κ} {w w' : World κ σ} {s : List (Activity κ σ)} {α : Type}
    {fr : Frame κ σ α} {d : Directive κ σ} {k : d.Reply → Procedure κ σ α} {code : Procedure κ σ α}
    (h : w.Fit L (fr.fill (.run (.op d k)) :: s))
    (sound : w.SoundWith (fr.fill (.run (.op d k)) :: s)) (hd : d.step b w k = .next w' code)
    (keep : d.offer? w = none → ∀ t, L.hand t ∨ L.start t →
      (∃ a ∈ fr.fill (.run (.op d k)) :: s, a.starting? = some t.pid) → L'.hand t)
    (leave : ∀ c, d.calledOff? w = some (.thunk c) → L'.call c) :
    w'.Fit L' (fr.fill (.run code) :: s) := by
  cases ho : d.offer? w with
  | none =>
    exact ⟨fr.fit_next h.1 hd ho (fun t hP hs => keep ho t hP ⟨_, List.mem_cons_self, hs⟩) leave,
      h.2.wait (fun t hP ⟨a, ha, hs⟩ => keep ho t (.inl hP) ⟨a, List.mem_cons_of_mem _ ha, hs⟩) w'⟩
  | some o =>
    obtain ⟨top, n, k', c, hfr, -⟩ := fr.fit_handed h.1 hd ho leave
    rw [hfr] at sound
    have quiet : ticksOf s = 0 := sound.quiet
    refine ⟨top, h.2.wait (fun t hP ⟨a, ha, hs⟩ => ?_) w'⟩
    cases (starting?_of_quiet quiet ha).symm.trans hs

/-- Every step preserves it, with the leave that there is after the step. As long as nothing is
handed in, it may still be handed in later. The start of a binding may be entered once the binding
has been begun. A thunk may be entered once it is run to call something off, or is taken out of the
host. -/
theorem Machine.Proper.transition {L L' : Leave κ} {m m' : Machine κ σ} {r : Record κ}
    (h : m.Proper L) (sound : m.Sound) (tr : Transition b m r m')
    (keep : m.offer? = none → ∀ t, L.hand t ∨ L.start t →
      (∃ a ∈ m.stack, a.starting? = some t.pid) → L'.hand t)
    (start : ∀ p x mv g, m.world.procs.get? p = some x → mv.task = .native g →
      r = [(p, .moved mv)] → L'.start ⟨p, x.binding + 1⟩)
    (call : ∀ c, m.calledOff? = some (.thunk c) ∨ m.Defers c → L'.call c) : m'.Proper L' := by
  intro hf
  -- What is below the top waits on, unless something is handed in.
  have below : ∀ {w w' : World κ σ} {a : Activity κ σ} {s : List (Activity κ σ)},
      m = ⟨w, a :: s, none⟩ → m.offer? = none → w'.FitBelow L' s := by
    rintro w w' a s rfl idle
    exact (h rfl).2.wait (fun t hP ⟨a', ha', hs⟩ =>
      keep idle t (.inl hP) ⟨a', List.mem_cons_of_mem _ ha', hs⟩) w'
  cases tr with
  | rest _ idle =>
    obtain ⟨w, stack, fault⟩ := m
    obtain rfl : fault = none := hf
    have fit : w.Fit L stack := h rfl
    cases stack with
    | nil => trivial
    | cons a s =>
      have nothing : Machine.offer? ⟨w, a :: s, none⟩ = none := by rw [Machine.offer?, idle]; rfl
      exact ⟨fit.1.still idle fun t hP hs => keep nothing t (.inl hP) ⟨a, List.mem_cons_self, hs⟩,
        below rfl nothing⟩
  | @code w w' s α fr d k code hd =>
    have fit : w.Fit L (fr.fill (.run (.op d k)) :: s) := h rfl
    refine fit.performs sound hd (fun ho => keep ((fr.offer?_fill w d k s).trans ho)) fun c hc => ?_
    exact call c (.inl ((fr.calledOff?_fill w d k s).trans hc))
  | @driving w s α fr d k goal k' hd =>
    have nothing : Machine.offer? ⟨w, fr.fill (.run (.op d k)) :: s, none⟩ = none := by
      obtain ⟨e, rfl⟩ := Directive.eq_drive hd
      exact fr.offer?_fill w _ k s
    have hand : ∀ t, L.hand t → (fr.fill (.run (.op d k))).starting? = some t.pid → L'.hand t :=
      fun t hP hs => keep nothing t (.inl hP) ⟨_, List.mem_cons_self, hs⟩
    obtain ⟨waiting, fit⟩ := fr.fit_drive (h rfl).1 hd hand
    exact ⟨trivial, (below rfl nothing).push waiting fit⟩
  | broken => cases hf
  | finished => exact (below rfl rfl).pop
  | picked => exact ⟨trivial, below rfl rfl⟩
  | skipped => exact ⟨trivial, below rfl rfl⟩
  | ended => exact (below rfl rfl).pop
  | preempted => exact ⟨trivial, below rfl rfl⟩
  | parked => exact ⟨trivial, below rfl rfl⟩
  | pushed => exact ⟨trivial, below rfl rfl⟩
  | entered => exact ⟨.tame ((Callback.tame_run b _ _).mono _), below rfl rfl⟩
  | @started w w' s n k p x mv g budget hx can h' task beside =>
    refine ⟨?_, below rfl rfl⟩
    have tickets : w'.tickets = (⟨p, x.binding + 1⟩, g.holder) :: w.tickets :=
      congrArg Surroundings.tickets beside
    have held : (⟨p, x.binding + 1⟩, g.holder) ∈ w'.tickets := tickets ▸ List.mem_cons_self
    exact (Binding.opening_start w' g held (start p x mv g hx task rfl)).symm.imp_right
      fun opening => ⟨x.binding + 1, opening⟩
  | exited => exact ⟨trivial, below rfl rfl⟩
  | returned => exact ⟨trivial, below rfl rfl⟩
  | ignored => exact ⟨trivial, below rfl rfl⟩
  | launched => exact ⟨trivial, below rfl rfl⟩
  | pumped => exact ⟨trivial, (below rfl rfl).push rfl trivial⟩
  | lost => exact ⟨trivial, below rfl rfl⟩
  | @thunk w w' s goal n n' c agree cause =>
    have leave : L'.call c := by
      refine call c (.inr ⟨w, goal, n, s, rfl, ?_⟩)
      rcases cause with ⟨ts, hts, -⟩ | due
      · exact .inl ⟨ts, hts⟩
      · exact .inr ⟨w', due⟩
    exact ⟨.thunk leave fun _ => trivial, (below rfl rfl).push rfl trivial⟩
  | woken => exact ⟨trivial, below rfl rfl⟩
  | driven => exact (below rfl rfl).resumeTop _

theorem Machine.proper_load (L : Leave κ) (w : World κ σ) (code : Code κ σ Unit) :
    (load w (ofCode code)).Proper L :=
  fun _ => ⟨.tame (tame_ofCode _ _), fun _ ha => (List.not_mem_nil ha).elim⟩

/-- Throughout a run all code is fit. -/
theorem Reachable.proper {m : Machine κ σ} (h : Reachable b m) :
    m.Proper .full := by
  induction h with
  | new config user code => exact Machine.proper_load _ _ code
  | @step m h ih =>
    exact ih.transition h.sound (Machine.transition b m) (fun _ _ _ _ => trivial)
      (fun _ _ _ _ _ _ _ => trivial) fun _ _ => trivial
  | load code _ _ _ _ => exact Machine.proper_load _ _ code

/-! ### Calls -/

theorem Pending.eq_of_call? {c : Pending κ σ α} {x : Call κ} (h : c.call? = some x) :
    ∃ k, c = .run (.op (S := directives κ σ) (.invoke x) k) := by
  unfold call? at h
  split at h
  · obtain rfl := Option.some.inj h
    exact ⟨_, rfl⟩
  · cases h

theorem Machine.eq_of_call? {m : Machine κ σ} {x : Call κ} (h : m.call? = some x) :
    ∃ w a s, m = ⟨w, a :: s, none⟩ ∧ a.call? = some x := by
  obtain ⟨w, stack, fault⟩ := m
  cases fault with
  | some f => cases h
  | none =>
    cases stack with
    | nil => cases h
    | cons a s => exact ⟨w, a, s, rfl, h⟩

/-- User code is entered only with leave. -/
theorem Machine.Proper.allows {L : Leave κ} {m : Machine κ σ} (h : m.Proper L) {x : Call κ}
    (hc : m.call? = some x) : L.Allows x := by
  obtain ⟨w, a, s, rfl, ha⟩ := Machine.eq_of_call? hc
  have fit : a.Fit L w := (h rfl).1
  cases a with
  | drive goal n => cases ha
  | work code =>
    obtain ⟨k, rfl⟩ := Pending.eq_of_call? ha
    exact Procedure.Fit.allows fit
  | tick n k phase =>
    cases phase with
    | seek => cases ha
    | turn p => cases ha
    | callback p code =>
      obtain ⟨k, rfl⟩ := Pending.eq_of_call? ha
      exact Procedure.Fit.allows fit
    | starting p code =>
      obtain ⟨k, rfl⟩ := Pending.eq_of_call? ha
      rcases fit with fit | ⟨i, opening⟩
      · exact Procedure.Fit.allows fit
      · exact opening.allows

/-! ### What follows from it -/

/-- Whether the runtime is there can be seen beside the processes. -/
theorem World.reachable_of_surroundings {w w' : World κ σ}
    (h : w'.surroundings = w.surroundings) : w'.reachable = w.reachable := by
  have handles : w'.handles = w.handles := congrArg Surroundings.handles h
  have holds : w'.holds = w.holds := congrArg Surroundings.holds h
  rw [World.reachable, World.reachable, handles, holds]

theorem Progress.reachable_of_callOff {w w' : World κ σ} {c : Option (Cancel κ)}
    {code code' : Procedure κ σ α} (h : callOff w c code = .next w' code') :
    w'.reachable = w.reachable := by
  unfold callOff at h
  split at h
  all_goals
    obtain ⟨rfl, rfl⟩ := Progress.next.inj h
    rfl

theorem World.reachable_of_complete {w w' : World κ σ} {k : Holder} {t : Ticket} {task : Task κ}
    (h : w.complete k t task = .ok w') : w'.reachable = w.reachable := by
  have how := w.completes k t task
  generalize w.completed k t task = r at how
  generalize w.complete k t task = g at h how
  cases how with
  | used held => exact reachable_of_surroundings (w := w.spend t k) (surroundings_resume h)
  | lost held =>
    obtain rfl := Except.ok.inj h
    rfl
  | absent =>
    obtain rfl := Except.ok.inj h
    rfl

theorem World.reachable_sleep (w : World κ σ) (span : Nat) (t : Ticket) :
    (w.sleep span t).reachable = w.reachable :=
  -- The ticket goes into a timer first, which takes no reference.
  reachable_of_surroundings
    (w := { w.spend t .runtime with host := w.host.delay span (.wake t) })
    (surroundings_attach _ _ _)

theorem World.reachable_endTick (w : World κ σ) (n k : Nat) (h : (w.endTick n k).reachable = true) :
    w.reachable = true := by
  have handles : (w.endTick n k).handles = w.handles := by
    unfold endTick
    simp only
    split <;> rfl
  have holds : (w.endTick n k).holds = w.holds - 1 := by
    unfold endTick
    simp only
    split <;> rfl
  have left : 0 < (w.endTick n k).handles + (w.endTick n k).holds := of_decide_eq_true h
  exact decide_eq_true (by omega)

theorem World.reachable_of_wake {w w' : World κ σ} {t : Ticket} (h : w.wake t = .ok w') :
    w'.reachable = w.reachable := by
  unfold wake at h
  split at h
  · exact reachable_of_surroundings (surroundings_resume h)
  · obtain rfl := Except.ok.inj h
    rfl

theorem World.reachable_modifyProgram (w : World κ σ) (i : ProgramId)
    (f : RunningProgram κ → RunningProgram κ) : (w.modifyProgram i f).reachable = w.reachable := by
  unfold modifyProgram
  split <;> rfl

/-- Apart from `hold`, no directive makes a runtime appear. -/
theorem Directive.reachable_of_next {w w' : World κ σ} {d : Directive κ σ}
    {k : d.Reply → Procedure κ σ α} {code : Procedure κ σ α} (h : d.step b w k = .next w' code)
    (hd : d ≠ .hold) (here : w'.reachable = true) : w.reachable = true := by
  cases d with
  | request r =>
    cases r with
    | spawn t =>
      rcases of_spawn h with ⟨p, there, -⟩ | ⟨-, rfl, -⟩
      · exact there
      · exact here
    | spawnWith c =>
      obtain ⟨rfl, -⟩ := of_spawnWith h
      exact here
    | send p v =>
      obtain ⟨rfl, -⟩ := Progress.next.inj h
      split at here
      · next there => exact there
      · exact here
    | kill p =>
      rcases of_kill h with ⟨there, -⟩ | ⟨-, rfl, -⟩
      · exact there
      · exact here
    | complete t task =>
      rwa [← World.reachable_of_complete (Progress.ofExcept_eq_next h)]
    | drive e => cases h
    | start c =>
      obtain ⟨rfl, -⟩ := of_start h
      exact here
    | model p =>
      obtain ⟨rfl, -⟩ := of_model h
      exact here
    | retain =>
      obtain ⟨rfl, -⟩ := Progress.next.inj h
      unfold World.retain at here
      split at here
      · next there => exact there
      · exact here
    | release =>
      -- Giving a handle back leaves less, so one that is left was there before.
      obtain ⟨rfl, -⟩ := Progress.next.inj h
      have left : 0 < w.handles - 1 + w.holds := of_decide_eq_true here
      exact decide_eq_true (by omega)
    | _ =>
      obtain ⟨rfl, -⟩ := Progress.next.inj h
      exact here
  | settle t task => rwa [← World.reachable_of_complete (Progress.ofExcept_eq_next h)]
  | sleep span t =>
    obtain ⟨rfl, -⟩ := Progress.next.inj h
    rwa [World.reachable_sleep] at here
  | attach t c =>
    have attached := World.reachable_of_surroundings (World.surroundings_attach w t (.thunk c))
    exact (attached.symm.trans (Progress.reachable_of_callOff h).symm).trans here
  | reserve =>
    obtain ⟨p, hr, -⟩ := of_reserve h
    rwa [← World.reachable_of_surroundings (World.surroundings_reserve hr)]
  | install p label t =>
    have installed := World.surroundings_install (Progress.ofExcept_eq_next h)
    rwa [← World.reachable_of_surroundings installed]
  | hold => exact absurd rfl hd
  | unhold =>
    obtain ⟨rfl, -⟩ := Progress.next.inj h
    have left : 0 < w.handles + (w.holds - 1) := of_decide_eq_true here
    exact decide_eq_true (by omega)
  | takeModel p =>
    obtain ⟨rfl, -⟩ := Progress.next.inj h
    rwa [World.reachable_modifyProgram] at here
  | putModel p v =>
    obtain ⟨rfl, -⟩ := Progress.next.inj h
    rwa [World.reachable_modifyProgram] at here
  | countUpdate p =>
    obtain ⟨rfl, -⟩ := Progress.next.inj h
    rwa [World.reachable_modifyProgram] at here
  | _ =>
    obtain ⟨rfl, -⟩ := Progress.next.inj h
    exact here

/-- A reference to the runtime is taken only where the runtime is there. -/
theorem Procedure.Fit.reachable_of_hold {d : Directive κ σ} {k : d.Reply → Procedure κ σ α}
    {L : Leave κ} {live : Bool} (h : Procedure.Fit L live (.op (S := directives κ σ) d k))
    (hold : d = .hold) : live = true := by
  cases h with
  | thunk _ h => cases hold
  | tame h =>
    subst hold
    exact h.1

theorem Frame.reachable_of_hold {L : Leave κ} {w : World κ σ} (fr : Frame κ σ α)
    {d : Directive κ σ} {k : d.Reply → Procedure κ σ α} (h : (fr.fill (.run (.op d k))).Fit L w)
    (hold : d = .hold) : w.reachable = true := by
  cases fr with
  | work => exact Procedure.Fit.reachable_of_hold h hold
  | callback n k' p => exact Procedure.Fit.reachable_of_hold h hold
  | starting n k' p =>
    rcases h with fit | ⟨i, opening⟩
    · exact Procedure.Fit.reachable_of_hold fit hold
    · cases opening.step with
      | performs fit known => exact fit.reachable_of_hold hold
      | _ => cases hold

theorem World.Due.reachable {w w' : World κ σ} {a : Alarm κ} (h : w.Due a w') :
    w'.reachable = w.reachable := by
  obtain ⟨limit, host, -, rfl⟩ := h
  rfl

/-- Once a runtime is gone it does not come back. -/
theorem Transition.reachable {m m' : Machine κ σ} {r : Record κ} (tr : Transition b m r m')
    {L : Leave κ} (h : m.Proper L) (here : m'.world.reachable = true) :
    m.world.reachable = true := by
  have beside : ∀ {w w' : World κ σ}, w'.surroundings = w.surroundings → w'.reachable = true →
      w.reachable = true := fun hs hw => World.reachable_of_surroundings hs ▸ hw
  cases tr with
  | rest => exact here
  -- Code that holds the runtime has a reference already, which its leave says; every other
  -- directive only passes on what was there.
  | @code w w' s α fr d k code hd =>
    by_cases hold : d = .hold
    · exact fr.reachable_of_hold (h rfl).1 hold
    · exact Directive.reachable_of_next hd hold here
  | driving => exact here
  | broken h' ha cause =>
    rcases cause.world with rfl | ⟨t, due⟩
    · exact here
    · rwa [← due.reachable]
  | finished => exact here
  | picked budget hd alive => exact beside (World.surroundings_dequeue hd) here
  | skipped budget hd dead => exact beside (World.surroundings_dequeue hd) here
  | ended => exact World.reachable_endTick _ _ _ here
  | preempted budget => exact beside (World.surroundings_enqueue _ _) here
  | parked budget stuck h' hs => exact beside hs here
  | pushed budget hx can h' root hs => exact beside hs here
  | entered budget hx can h' root hc hs => exact beside hs here
  | @started w w' s n k p x mv g budget hx can h' task hs =>
    have handles : w'.handles = w.handles := congrArg Surroundings.handles hs
    have holds : w'.holds = w.holds := congrArg Surroundings.holds hs
    have same : w'.reachable = w.reachable := by
      rw [World.reachable, World.reachable, handles, holds]
    exact same.symm.trans here
  | exited budget hx can h' root hr event hs => exact beside hs here
  | returned hx alive h' hs => exact beside hs here
  | ignored => exact here
  | launched => exact here
  | pumped hts there => exact there
  | lost => exact here
  | thunk h' cause =>
    rcases cause with ⟨ts, -, rfl⟩ | due
    · exact here
    · rwa [← due.reachable]
  | woken op cause =>
    obtain ⟨t, w₁, due, hw, -⟩ := cause
    rwa [← due.reachable, ← World.reachable_of_wake hw]
  | driven h' clock =>
    rcases clock with rfl | ⟨limit, rfl⟩
    · exact here
    · exact here

end Actors
