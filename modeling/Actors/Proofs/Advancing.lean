/-
Advances in parts.

What stands below a drive of the host has no part in what the drive runs: it gets the count when the drive is
over. So a drive towards a point in time can be told without it, as one piece of work after another that the
host hands out, each with all that it runs. The point in time matters only when nothing is left that is due.

An advance that is cut into two parts leaves the clock at the end of the first part. But no tick waits then, so
the second part either takes a timer, which sets the clock to the timer's deadline, or comes to its end, which
sets the clock to the goal. Nobody sees the clock in between, and all that is run is the same.

* `Scene`, `Machine.scene?` — what a step shows;
* `Machine.on`, `Machine.step_on` — more activities below a stack;
* `Machine.Empties`, `World.Towards`, `World.Advances` — drives towards a point in time;
* `Machine.ComesTo`, `Frame.comesTo_iff` — the code that asks for an advance and goes on with its count;
* `World.advances_in_parts` — an advance may be cut into two parts anywhere.
-/
import Actors.Proofs.Leading
import Actors.Proofs.Purity

namespace Actors

variable {κ σ α : Type} {b : Behaviour κ σ}

/-! ### What a run shows -/

/-- What a step of a run shows: the host hands out a tick or a timer, with the clock that the work sees, or a
directive is performed in a world. -/
inductive Scene (κ σ : Type) where
  | tick (t : Tick κ) (now : Nat)
  | alarm (a : Alarm κ) (now : Nat)
  | directive (d : Directive κ σ) (w : World κ σ)

/-- What a drive takes out of the host. -/
def World.handed? (w : World κ σ) (count : Nat) : Goal → Option (Scene κ σ)
  | .ticks limit =>
    if limit.all fun n => count < n then w.host.takeTick.map fun e => .tick e.1 w.host.now else none
  | .time limit =>
    match w.host.takeTick with
    | some e => some (.tick e.1 w.host.now)
    | none => (w.host.takeDue limit).map fun e => .alarm e.1 e.2.now

def Activity.scene? (w : World κ σ) : Activity κ σ → Option (Scene κ σ)
  | .drive goal count => w.handed? count goal
  | a => a.directive?.map (.directive · w)

/-- What the next step shows. -/
def Machine.scene? (m : Machine κ σ) : Option (Scene κ σ) :=
  match m.fault, m.stack with
  | none, a :: _ => a.scene? m.world
  | _, _ => none

/-! ### What is below the stack -/

namespace Machine

/-- A machine with more activities below its stack. -/
def on (base : List (Activity κ σ)) (m : Machine κ σ) : Machine κ σ :=
  { m with stack := m.stack ++ base }

variable {w : World κ σ} {s base : List (Activity κ σ)} {goal : Goal} {n : Nat}

/-- A drive waits for nobody's count. -/
theorem resumeTop_append_drive (i : Nat) (s : List (Activity κ σ)) :
    resumeTop i (s ++ .drive goal n :: base) = resumeTop i s ++ .drive goal n :: base := by
  cases s <;> rfl

theorem beginTick_on (t : Tick κ) : beginTick w (s ++ base) t = (beginTick w s t).on base := by
  cases t with
  | pump =>
    simp only [beginTick]
    split <;> rfl
  | thunk c => rfl

theorem fire_on (a : Alarm κ) : fire w (s ++ base) a = (fire w s a).on base := by
  cases a with
  | wake t =>
    simp only [fire]
    split <;> rfl
  | thunk c => rfl

theorem stepCode_on (frame : Pending κ σ α → Activity κ σ) (d : Directive κ σ)
    (k : d.Reply → Procedure κ σ α) :
    stepCode b w frame (s ++ base) d k = (stepCode b w frame s d k).on base := by
  unfold stepCode
  cases d.step b w k <;> rfl

theorem stepSeek_on (steps stepped : Nat) :
    stepSeek w steps stepped (s ++ base) = (stepSeek w steps stepped s).on base := by
  unfold stepSeek
  split
  · split
    · split <;> rfl
    · rfl
  · rfl

theorem stepOutcome_on (steps stepped : Nat) (p : Pid) (h : Option (Callback κ × List (Handler κ)))
    (r : Except (Value κ) (Value κ)) : stepOutcome b w steps stepped (s ++ base) p h r =
      (stepOutcome b w steps stepped s p h r).on base := by
  unfold stepOutcome
  cases h <;> rfl

theorem stepTask_on (steps stepped : Nat) (p : Pid) (x : Proc κ) (t : Task κ) :
    stepTask b w steps stepped (s ++ base) p x t = (stepTask b w steps stepped s p x t).on base := by
  cases t with
  | succeed v => exact stepOutcome_on _ _ p (Handler.nextSuccess x.stack) (.ok v)
  | fail v => exact stepOutcome_on _ _ p (Handler.nextFailure x.stack) (.error v)
  | receive c =>
    unfold stepTask
    cases x.mailbox <;> rfl
  | _ => rfl

theorem stepTurn_on (steps stepped : Nat) (p : Pid) :
    stepTurn b w steps stepped (s ++ base) p = (stepTurn b w steps stepped s p).on base := by
  unfold stepTurn
  split
  · rfl
  · split
    · rfl
    · split
      · exact stepTask_on ..
      · rfl

theorem stepDrive_on (goal' : Goal) (count : Nat) :
    stepDrive w goal' count (s ++ .drive goal n :: base) =
      (stepDrive w goal' count s).on (.drive goal n :: base) := by
  have ended : ∀ w, (⟨w, resumeTop count (s ++ .drive goal n :: base), none⟩ : Machine κ σ) =
      on (.drive goal n :: base) ⟨w, resumeTop count s, none⟩ := fun w => by
    rw [resumeTop_append_drive]
    rfl
  -- The inner drive begins a piece of work above itself, or gives its count to what is right below it.
  cases goal' with
  | ticks limit =>
    simp only [stepDrive]
    split
    · cases w.host.takeTick with
      | some e => exact beginTick_on (s := .drive (.ticks limit) (count + 1) :: s) e.1
      | none => exact ended w
    · exact ended w
  | time limit =>
    simp only [stepDrive]
    cases w.host.takeTick with
    | some e => exact beginTick_on (s := .drive (.time limit) count :: s) e.1
    | none =>
      cases w.host.takeDue limit with
      | some e => exact fire_on (s := .drive (.time limit) (count + 1) :: s) e.1
      | none => exact ended _

/-- What is below a drive has no part in a step of what is above it. -/
theorem step_on {m : Machine κ σ} (busy : m.stack ≠ []) :
    (m.on (.drive goal n :: base)).step b = (m.step b).on (.drive goal n :: base) := by
  obtain ⟨w, stack, fault⟩ := m
  cases fault with
  | some f => rfl
  | none =>
    obtain ⟨a, s, rfl⟩ := List.exists_cons_of_ne_nil busy
    cases a with
    | work c =>
      cases c with
      | await k => rfl
      | run code =>
        cases code with
        | op d k => exact stepCode_on ..
        | _ => rfl
    | drive goal' count => exact stepDrive_on ..
    | tick steps stepped ph =>
      cases ph with
      | seek => exact stepSeek_on ..
      | turn p => exact stepTurn_on ..
      | callback p c =>
        cases c with
        | await k => rfl
        | run code =>
          cases code with
          | op d k => exact stepCode_on (fun c => .tick steps stepped (.callback p c)) d k
          | raise f => rfl
          | ret t =>
            show endCallback w steps stepped (s ++ _) p t = (endCallback w steps stepped s p t).on _
            unfold endCallback
            split <;> rfl
      | starting p c =>
        cases c with
        | await k => rfl
        | run code =>
          cases code with
          | op d k => exact stepCode_on (fun c => .tick steps stepped (.starting p c)) d k
          | _ => rfl

theorem scene?_on {m : Machine κ σ} (base : List (Activity κ σ)) (busy : m.stack ≠ []) :
    (m.on base).scene? = m.scene? := by
  obtain ⟨w, stack, fault⟩ := m
  obtain ⟨a, s, rfl⟩ := List.exists_cons_of_ne_nil busy
  cases fault <;> rfl

end Machine

/-! ### Drives towards a point in time -/

/-- All the activities of a machine come to their end. -/
inductive Machine.Empties (b : Behaviour κ σ) : Machine κ σ → List (Scene κ σ) → World κ σ → Prop where
  | ended (w : World κ σ) : Empties b ⟨w, [], none⟩ [] w
  | step {m : Machine κ σ} {seen : List (Scene κ σ)} {w : World κ σ} (busy : m.stack ≠ [])
      (rest : Empties b (m.step b) seen w) : Empties b m (m.scene?.toList ++ seen) w

/-- The host is driven towards a point in time: it hands out one piece of work after another, until no tick
waits and no timer is due, and then the clock is set to this point. The timers are counted. -/
inductive World.Towards (b : Behaviour κ σ) (limit : Nat) :
    World κ σ → List (Scene κ σ) → World κ σ → Nat → Prop where
  | tick {w w₁ w' : World κ σ} {t : Tick κ} {h : Host κ} {ran seen : List (Scene κ σ)} {n : Nat}
      (waits : w.host.takeTick = some (t, h))
      (runs : (Machine.beginTick { w with host := h } [] t).Empties b ran w₁)
      (rest : Towards b limit w₁ seen w' n) :
      Towards b limit w (.tick t w.host.now :: ran ++ seen) w' n
  | timer {w w₁ w' : World κ σ} {a : Alarm κ} {h : Host κ} {ran seen : List (Scene κ σ)} {n : Nat}
      (idle : w.host.takeTick = none) (due : w.host.takeDue limit = some (a, h))
      (runs : (Machine.fire { w with host := h } [] a).Empties b ran w₁)
      (rest : Towards b limit w₁ seen w' n) :
      Towards b limit w (.alarm a h.now :: ran ++ seen) w' (n + 1)
  | arrives {w : World κ σ} (idle : w.host.takeTick = none) (late : w.host.takeDue limit = none) :
      Towards b limit w [] { w with host := { w.host with now := limit } } 0

/-- An advance of the clock by a span: what it shows, the world that it leaves, and the number of timers. -/
def World.Advances (b : Behaviour κ σ) (w : World κ σ) (span : Nat) (seen : List (Scene κ σ)) (w' : World κ σ)
    (n : Nat) : Prop :=
  w.Towards b (Time.later w.host.now span) seen w' n

/-- A machine comes to another one, and something stands above `base` until then. -/
inductive Machine.ComesTo (b : Behaviour κ σ) (base : List (Activity κ σ)) :
    Machine κ σ → List (Scene κ σ) → Machine κ σ → Prop where
  | here (m : Machine κ σ) : ComesTo b base m [] m
  | step {m m' : Machine κ σ} {top : List (Activity κ σ)} {seen : List (Scene κ σ)}
      (stack : m.stack = top ++ base) (busy : top ≠ []) (rest : ComesTo b base (m.step b) seen m') :
      ComesTo b base m (m.scene?.toList ++ seen) m'

theorem Frame.fill_injective (fr : Frame κ σ α) {c c' : Pending κ σ α} (h : fr.fill c = fr.fill c') :
    c = c' := by
  cases fr <;> cases h <;> rfl

section

variable {w w' w₁ : World κ σ} {fr : Frame κ σ α} {s base top : List (Activity κ σ)} {limit n : Nat}
  {k : Nat → Procedure κ σ α} {code : Procedure κ σ α} {seen seen' : List (Scene κ σ)} {f : Option Fault}

namespace Machine

variable {m m' : Machine κ σ}

/-- When all that is above a drive has come to its end the drive goes on. -/
theorem Empties.comesTo (h : m.Empties b seen w₁)
    (rest : ComesTo b base ⟨w₁, .drive (.time limit) n :: base, none⟩ seen' m') :
    (m.on (.drive (.time limit) n :: base)).ComesTo b base (seen ++ seen') m' := by
  induction h with
  | ended w => exact rest
  | @step m seen w busy _ ih =>
    have stack : (m.on (.drive (.time limit) n :: base)).stack =
        (m.stack ++ [.drive (.time limit) n]) ++ base := by
      rw [List.append_assoc]
      rfl
    have next := ih rest
    rw [← step_on busy] at next
    rw [List.append_assoc, ← scene?_on (.drive (.time limit) n :: base) busy]
    exact .step stack (List.append_ne_nil_of_right_ne_nil _ (List.cons_ne_nil _ _)) next

/-- Code that goes on does not wait any more. -/
theorem ComesTo.of_resumed (h : ComesTo b (fr.fill (.await k) :: s) ⟨w, fr.fill (.run (k n)) :: s, none⟩ seen
    ⟨w', fr.fill (.run code) :: s, none⟩) : seen = [] ∧ w' = w ∧ code = k n := by
  generalize hm : (⟨w, fr.fill (.run (k n)) :: s, none⟩ : Machine κ σ) = m at h
  generalize hm' : (⟨w', fr.fill (.run code) :: s, none⟩ : Machine κ σ) = m' at h
  cases h with
  | here =>
    obtain ⟨rfl, stack, -⟩ := Machine.mk.inj (hm.trans hm'.symm)
    exact ⟨rfl, rfl, (Pending.run.inj (fr.fill_injective (List.cons.inj stack).1)).symm⟩
  | @step _ _ top _ stack busy =>
    subst hm
    have length := congrArg List.length stack
    have pos := List.length_pos_iff.2 busy
    simp only [List.length_append, List.length_cons] at length
    omega

end Machine

/-! ### Steps of a drive -/

namespace Machine

theorem drive_tick (limit n : Nat) (s : List (Activity κ σ)) {t : Tick κ} {h : Host κ}
    (waits : w.host.takeTick = some (t, h)) :
    step b ⟨w, .drive (.time limit) n :: s, none⟩ = (beginTick { w with host := h } [] t).on
        (.drive (.time limit) n :: s) ∧
      scene? ⟨w, .drive (.time limit) n :: s, none⟩ = some (.tick t w.host.now) := by
  constructor
  · show stepDrive w (.time limit) n s = _
    simp only [stepDrive, waits]
    exact beginTick_on (s := []) t
  · show w.handed? n (.time limit) = _
    simp only [World.handed?, waits]

theorem drive_timer (n : Nat) (s : List (Activity κ σ)) {a : Alarm κ} {h : Host κ} (idle : w.host.takeTick = none)
    (due : w.host.takeDue limit = some (a, h)) :
    step b ⟨w, .drive (.time limit) n :: s, none⟩ = (fire { w with host := h } [] a).on
        (.drive (.time limit) (n + 1) :: s) ∧
      scene? ⟨w, .drive (.time limit) n :: s, none⟩ = some (.alarm a h.now) := by
  constructor
  · show stepDrive w (.time limit) n s = _
    simp only [stepDrive, idle, due]
    exact fire_on (s := []) a
  · show w.handed? n (.time limit) = _
    simp only [World.handed?, idle, due]
    rfl

theorem drive_arrives (n : Nat) (s : List (Activity κ σ)) (idle : w.host.takeTick = none)
    (late : w.host.takeDue limit = none) :
    step b ⟨w, .drive (.time limit) n :: s, none⟩ =
        ⟨{ w with host := { w.host with now := limit } }, resumeTop n s, none⟩ ∧
      scene? ⟨w, .drive (.time limit) n :: s, none⟩ = none := by
  constructor
  · show stepDrive w (.time limit) n s = _
    simp only [stepDrive, idle, late]
  · show w.handed? n (.time limit) = _
    simp only [World.handed?, idle, late]
    rfl

end Machine

open Machine

/-- A drive towards a point in time, on top of the code that waits for its count. -/
theorem World.Towards.comesTo (h : w.Towards b limit seen w' n) (fr : Frame κ σ α) (s : List (Activity κ σ))
    (k : Nat → Procedure κ σ α) (i : Nat) :
    ComesTo b (fr.fill (.await k) :: s) ⟨w, .drive (.time limit) i :: fr.fill (.await k) :: s, none⟩ seen
      ⟨w', fr.fill (.run (k (i + n))) :: s, none⟩ := by
  have first : ∀ {w : World κ σ} {i : Nat} {seen m'},
      ComesTo b (fr.fill (.await k) :: s)
        (step b ⟨w, .drive (.time limit) i :: fr.fill (.await k) :: s, none⟩) seen m' →
      ComesTo b (fr.fill (.await k) :: s) ⟨w, .drive (.time limit) i :: fr.fill (.await k) :: s, none⟩
        ((scene? ⟨w, .drive (.time limit) i :: fr.fill (.await k) :: s, none⟩).toList ++ seen) m' :=
    fun h => .step (List.singleton_append).symm (List.cons_ne_nil _ _) h
  -- Each piece of work runs above the drive, and the rest of the drive follows where it has come to its end.
  induction h generalizing i with
  | @tick w w₁ w' t h ran seen n waits runs rest ih =>
    obtain ⟨next, scene⟩ := drive_tick (b := b) limit i (fr.fill (.await k) :: s) waits
    have := first (next ▸ runs.comesTo (ih i))
    rwa [scene] at this
  | @timer w w₁ w' a h ran seen n idle due runs rest ih =>
    obtain ⟨next, scene⟩ := drive_timer (b := b) i (fr.fill (.await k) :: s) idle due
    have := first (next ▸ runs.comesTo (ih (i + 1)))
    rwa [scene, Nat.add_right_comm] at this
  | @arrives w idle late =>
    obtain ⟨next, scene⟩ := drive_arrives (b := b) i (fr.fill (.await k) :: s) idle late
    rw [fr.resumeTop_fill] at next
    have := first (ComesTo.here (step b ⟨w, .drive (.time limit) i :: fr.fill (.await k) :: s, none⟩))
    rwa [scene, next] at this

/-- Code that goes on with the count of a drive towards a point in time: what is above the drive comes to its
end, and then the host is driven. -/
theorem Machine.ComesTo.towards {m : Machine κ σ} (h : m.ComesTo b (fr.fill (.await k) :: s) seen
      ⟨w', fr.fill (.run code) :: s, none⟩) (m₀ : Machine κ σ)
    (start : m = m₀.on (.drive (.time limit) n :: fr.fill (.await k) :: s)) :
    ∃ ran w₁ rest i, m₀.Empties b ran w₁ ∧ w₁.Towards b limit rest w' i ∧ code = k (n + i) ∧
      seen = ran ++ rest := by
  generalize hm : (⟨w', fr.fill (.run code) :: s, none⟩ : Machine κ σ) = m' at h
  induction h generalizing m₀ n with
  | here m =>
    subst hm
    have length := congrArg (fun m : Machine κ σ => m.stack.length) start
    simp only [Machine.on, List.length_append, List.length_cons] at length
    omega
  | @step m m' _ seen _ _ rest ih =>
    subst start
    obtain ⟨w, top, f⟩ := m₀
    -- The step is one of what is above the drive, or the drive takes its next decision.
    cases top with
    | cons a top =>
      have busy : (⟨w, a :: top, f⟩ : Machine κ σ).stack ≠ [] := List.cons_ne_nil _ _
      rw [step_on busy] at ih
      rw [scene?_on _ busy]
      obtain ⟨ran, w₁, later, i, empties, towards, goes, rfl⟩ := ih _ rfl hm
      exact ⟨_, w₁, later, i, .step busy empties, towards, goes, (List.append_assoc ..).symm⟩
    | nil =>
      cases f with
      | some f =>
        -- A machine that has broken a contract stays where it is.
        obtain ⟨ran, w₁, -, -, empties, -⟩ := ih ⟨w, [], some f⟩ (Machine.step_of_isOver rfl) hm
        cases empties with
        | step busy => exact absurd rfl busy
      | none =>
        change ComesTo b _ (Machine.step b ⟨w, .drive (.time limit) n :: fr.fill (.await k) :: s, none⟩) seen
          m' at rest
        have shows : ∀ {o : Option (Scene κ σ)},
            scene? ⟨w, .drive (.time limit) n :: fr.fill (.await k) :: s, none⟩ = o →
              (scene? ⟨w, .drive (.time limit) n :: fr.fill (.await k) :: s, none⟩).toList ++ seen =
                [] ++ (o.toList ++ seen) := fun h => congrArg (·.toList ++ seen) h
        cases ticks : w.host.takeTick with
        | some e =>
          obtain ⟨next, scene⟩ := drive_tick (b := b) limit n (fr.fill (.await k) :: s) ticks
          obtain ⟨ran, w₁, later, i, runs, towards, goes, rfl⟩ := ih _ next hm
          exact ⟨[], w, _, i, .ended w, .tick ticks runs towards, goes, shows scene⟩
        | none =>
          cases timers : w.host.takeDue limit with
          | some e =>
            obtain ⟨next, scene⟩ := drive_timer (b := b) n (fr.fill (.await k) :: s) ticks timers
            obtain ⟨ran, w₁, later, i, runs, towards, goes, rfl⟩ := ih _ next hm
            rw [Nat.add_assoc, Nat.add_comm 1 i] at goes
            exact ⟨[], w, _, i + 1, .ended w, .timer ticks timers runs towards, goes, shows scene⟩
          | none =>
            obtain ⟨next, scene⟩ := drive_arrives (b := b) n (fr.fill (.await k) :: s) ticks timers
            rw [fr.resumeTop_fill] at next
            rw [next] at rest
            subst hm
            obtain ⟨rfl, rfl, rfl⟩ := rest.of_resumed
            exact ⟨[], w, [], 0, .ended w, .arrives ticks timers, rfl, shows scene⟩

/-- Code that asks for an advance goes on with the count, in the world that the advance leaves; and what is
shown up to then is what the advance shows. -/
theorem Frame.comesTo_iff (fr : Frame κ σ α) (s : List (Activity κ σ)) (w w' : World κ σ) (span : Nat)
    (k : Nat → Procedure κ σ α) (code : Procedure κ σ α) (seen : List (Scene κ σ)) :
    (Machine.step b ⟨w, fr.fill (.run (.op (.request (.drive (.advance span))) k)) :: s, none⟩).ComesTo b
        (fr.fill (.await k) :: s) seen ⟨w', fr.fill (.run code) :: s, none⟩ ↔
      ∃ n, w.Advances b span seen w' n ∧ code = k n := by
  have asks : Machine.step b ⟨w, fr.fill (.run (.op (.request (.drive (.advance span))) k)) :: s, none⟩ =
      ⟨w, .drive (.time (Time.later w.host.now span)) 0 :: fr.fill (.await k) :: s, none⟩ :=
    fr.step_fill w (.request (.drive (.advance span))) k s
  rw [asks]
  constructor
  · intro h
    obtain ⟨ran, w₁, rest, n, empties, towards, rfl, rfl⟩ := h.towards ⟨w, [], none⟩ rfl
    cases empties with
    | ended => exact ⟨n, towards, congrArg k (Nat.zero_add n)⟩
    | step busy => exact absurd rfl busy
  · rintro ⟨n, towards, rfl⟩
    have comes := towards.comesTo fr s k 0
    rwa [Nat.zero_add] at comes

end

/-! ### Advances in parts -/

namespace Machine

/-- The activities of a machine come to their end in one way. -/
theorem Empties.unique {m : Machine κ σ} {seen seen' : List (Scene κ σ)} {w w' : World κ σ}
    (h : m.Empties b seen w) (h' : m.Empties b seen' w') : seen' = seen ∧ w' = w := by
  induction h generalizing seen' with
  | ended w =>
    cases h' with
    | ended => exact ⟨rfl, rfl⟩
    | step busy => exact absurd rfl busy
  | step busy _ ih =>
    cases h' with
    | ended => exact absurd rfl busy
    | step _ rest =>
      obtain ⟨rfl, rfl⟩ := ih rest
      exact ⟨rfl, rfl⟩

end Machine

namespace World

variable {w w₁ w' w'' : World κ σ} {limit n n' i j : Nat} {seen seen₁ seen₂ seen' : List (Scene κ σ)}

namespace Towards

/-- A drive leaves the clock at its goal. -/
theorem now (h : w.Towards b limit seen w' n) : w'.host.now = limit := by
  induction h with
  | tick _ _ _ ih => exact ih
  | timer _ _ _ _ ih => exact ih
  | arrives => rfl

/-- A drive comes to its end in one way. -/
theorem unique (h : w.Towards b limit seen w' n) (h' : w.Towards b limit seen' w'' n') :
    seen' = seen ∧ w'' = w' ∧ n' = n := by
  induction h generalizing seen' n' with
  -- Each moment of a drive allows one of the three constructors only, by what the host has
  -- waiting.
  | tick waits runs _ ih =>
    cases h' with
    | tick waits' runs' rest' =>
      obtain ⟨rfl, rfl⟩ := Prod.mk.inj (Option.some.inj (waits.symm.trans waits'))
      obtain ⟨rfl, rfl⟩ := runs.unique runs'
      obtain ⟨rfl, rfl, rfl⟩ := ih rest'
      exact ⟨rfl, rfl, rfl⟩
    | timer idle => cases idle.symm.trans waits
    | arrives idle => cases idle.symm.trans waits
  | timer idle due runs _ ih =>
    cases h' with
    | tick waits' => cases idle.symm.trans waits'
    | timer _ due' runs' rest' =>
      obtain ⟨rfl, rfl⟩ := Prod.mk.inj (Option.some.inj (due.symm.trans due'))
      obtain ⟨rfl, rfl⟩ := runs.unique runs'
      obtain ⟨rfl, rfl, rfl⟩ := ih rest'
      exact ⟨rfl, rfl, rfl⟩
    | arrives _ late => cases late.symm.trans due
  | arrives idle late =>
    cases h' with
    | tick waits' => cases idle.symm.trans waits'
    | timer _ due' => cases late.symm.trans due'
    | arrives => exact ⟨rfl, rfl, rfl⟩

end Towards

end World

/-- Whether a tick waits does not depend on the clock. -/
theorem Host.takeTick_at {h : Host κ} (idle : h.takeTick = none) (now : Nat) :
    ({ h with now := now } : Host κ).takeTick = none := by
  obtain ⟨ticks, timers, _, serial⟩ := h
  cases ticks with
  | nil => rfl
  | cons => cases idle

theorem Host.takeDue_of_le {h : Host κ} {limit goal : Nat} {e : Alarm κ × Host κ} (le : limit ≤ goal)
    (due : h.takeDue limit = some e) : h.takeDue goal = some e := by
  unfold takeDue at due ⊢
  split at due
  · cases due
  · next t ts =>
    split at due
    · next before => exact (if_pos (Nat.le_trans before le)).trans due
    · cases due

namespace World.Towards

variable {w w₁ w' : World κ σ} {limit goal n i j : Nat} {seen seen₁ seen₂ : List (Scene κ σ)}

/-- A drive comes past every point in time before its goal: when no tick waits and no timer is due until then. -/
theorem cut (h : w.Towards b goal seen w' n) (le : limit ≤ goal) :
    ∃ seen₁ w₁ i seen₂ j, w.Towards b limit seen₁ w₁ i ∧ w₁.Towards b goal seen₂ w' j ∧
      seen = seen₁ ++ seen₂ ∧ n = i + j := by
  induction h with
  | tick waits runs _ ih =>
    obtain ⟨seen₁, w₁, i, seen₂, j, first, second, rfl, rfl⟩ := ih
    exact ⟨_, w₁, i, seen₂, j, .tick waits runs first, second, (List.append_assoc ..).symm, rfl⟩
  | @timer w _ w' a h ran seen n idle due runs rest ih =>
    cases early : w.host.takeDue limit with
    | some e =>
      obtain ⟨seen₁, w₁, i, seen₂, j, first, second, rfl, rfl⟩ := ih
      rw [Host.takeDue_of_le le early] at due
      exact ⟨_, w₁, i + 1, seen₂, j, .timer idle (early.trans due) runs first, second,
        (List.append_assoc ..).symm, Nat.add_right_comm ..⟩
    | none =>
      -- The first timer of the second part sets the clock that the first part has left at its goal.
      exact ⟨[], _, 0, _, n + 1, .arrives idle early,
        .timer (Host.takeTick_at idle limit) due runs rest, rfl, (Nat.zero_add _).symm⟩
  | @arrives w idle late =>
    have early : w.host.takeDue limit = none := by
      cases early : w.host.takeDue limit with
      | none => rfl
      | some e => cases late.symm.trans (Host.takeDue_of_le le early)
    exact ⟨[], _, 0, [], 0, .arrives idle early, .arrives (Host.takeTick_at idle limit) late, rfl, rfl⟩

/-- A drive goes on where one that had an earlier goal has come to its end. -/
theorem join (first : w.Towards b limit seen₁ w₁ i) (second : w₁.Towards b goal seen₂ w' j)
    (le : limit ≤ goal) : w.Towards b goal (seen₁ ++ seen₂) w' (i + j) := by
  induction first with
  | tick waits runs _ ih => exact List.append_assoc .. ▸ .tick waits runs (ih second)
  | timer idle due runs _ ih =>
    rw [Nat.add_right_comm, List.append_assoc]
    exact .timer idle (Host.takeDue_of_le le due) runs (ih second)
  | @arrives w idle late =>
    rw [Nat.zero_add]
    -- The second part begins where the clock has been set; it finds the same timers, and no tick.
    cases second with
    | tick waits => cases (Host.takeTick_at idle limit).symm.trans waits
    | timer _ due runs rest => exact .timer idle due runs rest
    | arrives _ late' => exact .arrives idle late'

end World.Towards

/-- Advancing in parts is advancing at once. An advance by a sum, which saturates, comes to its end if and only
if the advance by the first part does, and in the world that it leaves the advance by the second part. What the
two show, one after the other, is what the advance by the sum shows: the same ticks and timers are handed out in
the same order, at the same points in time, and the same is done in the same worlds meanwhile. The numbers of the
timers add up, and the world is the same in the end, with its host. An advance comes to its end in one way. And
this is what code gets that asks for an advance, wherever it is run: it goes on with the count if and only if the
advance comes to its end. Nothing is assumed of the world; even advances inside advances do no harm. -/
theorem World.advances_in_parts (b : Behaviour κ σ) (w : World κ σ) :
    (∀ first second seen w' n, w.Advances b (Time.later first second) seen w' n ↔
      ∃ seen₁ w₁ i seen₂ j, w.Advances b first seen₁ w₁ i ∧ w₁.Advances b second seen₂ w' j ∧
        seen = seen₁ ++ seen₂ ∧ n = i + j) ∧
    (∀ span seen w' n seen' w'' n', w.Advances b span seen w' n → w.Advances b span seen' w'' n' →
      seen' = seen ∧ w'' = w' ∧ n' = n) ∧
    ∀ (α : Type) (fr : Frame κ σ α) (s : List (Activity κ σ)) (span : Nat) (k : Nat → Procedure κ σ α)
      (seen : List (Scene κ σ)) (w' : World κ σ) (code : Procedure κ σ α),
      (Machine.step b ⟨w, fr.fill (.run (.op (.request (.drive (.advance span))) k)) :: s, none⟩).ComesTo b
          (fr.fill (.await k) :: s) seen ⟨w', fr.fill (.run code) :: s, none⟩ ↔
        ∃ n, w.Advances b span seen w' n ∧ code = k n := by
  refine ⟨fun first second seen w' n => ?_, fun span seen w' n seen' w'' n' h h' => h.unique h',
    fun α fr s span k seen w' code => fr.comesTo_iff s w w' span k code seen⟩
  have goal : Time.later (Time.later w.host.now first) second =
      Time.later w.host.now (Time.later first second) := Time.later_later ..
  have le : Time.later w.host.now first ≤ Time.later w.host.now (Time.later first second) := by
    unfold Time.later
    omega
  constructor
  · intro h
    obtain ⟨seen₁, w₁, i, seen₂, j, first', second', shown, count⟩ := Towards.cut h le
    refine ⟨seen₁, w₁, i, seen₂, j, first', ?_, shown, count⟩
    rwa [Advances, first'.now, goal]
  · rintro ⟨seen₁, w₁, i, seen₂, j, first', second', rfl, rfl⟩
    rw [Advances, first'.now, goal] at second'
    exact first'.join second' le

/-- User code that the host runs: some of it sets another timer. -/
def tolling : Behaviour Bool Unit :=
  { Behaviour.ofCallbacks fun _ v => .succeed v with
    thunk := fun again =>
      if again then (Code.ask (.delay 4 false)).bind fun _ => .ret () else .ret () }

/-- A world in which nothing waits but timers. -/
def belfry (timers : List (Timer Bool)) (now serial : Nat) : World Bool Unit :=
  { World.new .standard () with host := ⟨[], timers, now, serial⟩ }

/-- The timer that fires in the first part sets the one that fires in the second part. -/
theorem belfry_in_parts : ∃ seen₁ seen₂,
    (belfry [⟨⟨3, 0⟩, .thunk true⟩] 0 1).Advances tolling 5 seen₁ (belfry [⟨⟨7, 1⟩, .thunk false⟩] 5 2) 1 ∧
      (belfry [⟨⟨7, 1⟩, .thunk false⟩] 5 2).Advances tolling 5 seen₂ (belfry [] 10 2) 1 ∧
      (belfry [⟨⟨3, 0⟩, .thunk true⟩] 0 1).Advances tolling 10 (seen₁ ++ seen₂) (belfry [] 10 2) 2 := by
  obtain ⟨seen₁, first⟩ : ∃ seen, (belfry [⟨⟨3, 0⟩, .thunk true⟩] 0 1).Advances tolling 5 seen
      (belfry [⟨⟨7, 1⟩, .thunk false⟩] 5 2) 1 :=
    ⟨_, .timer rfl rfl (.step nofun (.step nofun (.step nofun (.ended _)))) (.arrives rfl rfl)⟩
  obtain ⟨seen₂, second⟩ : ∃ seen, (belfry [⟨⟨7, 1⟩, .thunk false⟩] 5 2).Advances tolling 5 seen
      (belfry [] 10 2) 1 :=
    ⟨_, .timer rfl rfl (.step nofun (.step nofun (.ended _))) (.arrives rfl rfl)⟩
  exact ⟨seen₁, seen₂, first, second,
    ((World.advances_in_parts tolling _).1 5 5 _ _ _).2 ⟨seen₁, _, 1, seen₂, 1, first, second, rfl, rfl⟩⟩

end Actors
