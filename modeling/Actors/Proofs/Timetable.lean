/-
The clock and the timers.

Of the host's state only the clock and the timers bear on time. User code sets timers and removes them, a
process that is put to sleep sets one, and killing it removes this one again; everything else is the
business of the advances of the clock, the innermost of which takes the first timer that is due, or comes
to its end when none is left.

* `Timetable`, `World.timetable` — the clock and the timers;
* `Directive.Sets` — what a directive does to them;
* `Machine.arrives?`, `Machine.fires?` — the end of an advance, and the timer that it fires;
* `Machine.Passes`, `Machine.passes` — what a step does to them, and to the advances under way;
* `Timetable.Sound`, `Reachable.timely` — timers wait in order, under different numbers, and none is late.
-/
import Actors.Proofs.Aftermath
import Actors.Proofs.Keeping

namespace Actors

variable {κ σ α : Type} {b : Behaviour κ σ}

/-- The clock of a host, its timers, and how many timers have ever been set. -/
structure Timetable (κ : Type) where
  now : Nat
  serial : Nat
  timers : List (Timer κ)

def Surroundings.timetable (x : Surroundings κ σ) : Timetable κ :=
  ⟨x.now, x.serial, x.timers⟩

namespace World

def timetable (w : World κ σ) : Timetable κ :=
  ⟨w.host.now, w.host.serial, w.host.timers⟩

theorem timetable_of_surroundings {w w' : World κ σ} (h : w'.surroundings = w.surroundings) :
    w'.timetable = w.timetable :=
  congrArg Surroundings.timetable h

theorem timetable_endTick (w : World κ σ) (n k : Nat) : (w.endTick n k).timetable = w.timetable := by
  simp only [endTick]
  split <;> rfl

/-- The deed of a timer that fires, if it is one that wakes a process. -/
def fires (w : World κ σ) : Alarm κ → Record κ
  | .wake t => if w.reachable then w.resumed t (.succeed .unit) else []
  | .thunk _ => []

end World

open World

/-! ### Directives -/

/-- What a directive does to the clock and the timers: it sets a timer, or removes timers. -/
inductive Directive.Sets (w : World κ σ) : Directive κ σ → Timetable κ → Prop where
  | nothing (d : Directive κ σ) : Sets w d w.timetable
  | delay (span : Nat) (c : κ) :
      Sets w (.request (.delay span c)) ⟨w.host.now, w.host.serial + 1,
        Host.insertTimer ⟨w.host.keyAfter span, .thunk c⟩ w.host.timers⟩
  | sleep (span : Nat) (t : Ticket) :
      Sets w (.sleep span t) ⟨w.host.now, w.host.serial + 1,
        Host.insertTimer ⟨w.host.keyAfter span, .wake t⟩ w.host.timers⟩
  | unset (k : TimerKey) :
      Sets w (.request (.unset k))
        ⟨w.host.now, w.host.serial, w.host.timers.filter fun u => !Host.isThunkAt k u⟩
  | kill {p : Pid} {k : TimerKey}
      (off : Directive.calledOff? w (.request (.kill p)) = some (.timer k)) :
      Sets w (.request (.kill p))
        ⟨w.host.now, w.host.serial, w.host.timers.filter fun u => !Host.isWakeAt k u⟩

theorem Directive.sets (w : World κ σ) (d : Directive κ σ) :
    d.Sets w (d.surroundingsAfter w).timetable := by
  cases d with
  | request r =>
    cases r with
    | delay span c => exact .delay span c
    | unset k => exact .unset k
    | kill p =>
      simp only [surroundingsAfter, Request.surroundingsAfter]
      split
      · next here =>
        have off : Directive.calledOff? w (.request (.kill p)) = (w.kill p).2 := if_pos here
        unfold unsetBy
        split
        · next k hk => exact .kill (off.trans hk)
        · exact .nothing _
      · exact .nothing _
    | _ => exact .nothing _
  | sleep span t => exact .sleep span t
  | _ => exact .nothing _

namespace Host

variable {h : Host κ} {limit : Nat}

theorem takeTick_eq_none : h.takeTick = none ↔ h.ticks = [] := by
  unfold takeTick
  cases h.ticks with
  | nil => exact iff_of_true rfl rfl
  | cons => exact iff_of_false nofun nofun

/-- The first timer is handed out when it is due. -/
theorem takeDue_of_due {u : Timer κ} {us : List (Timer κ)} (timers : h.timers = u :: us) (due : u.key.due ≤ limit) :
    h.takeDue limit = some (u.alarm, { h with timers := us, now := u.key.due }) := by
  rw [takeDue, timers]
  exact if_pos due

end Host

/-! ### Steps -/

/-- The goal of an advance of the clock. -/
def Activity.until? : Activity κ σ → Option Nat
  | .drive (.time limit) _ => some limit
  | _ => none

namespace Machine

/-- The goals of the advances that are under way, the innermost first. -/
def advances (m : Machine κ σ) : List Nat :=
  m.stack.filterMap Activity.until?

/-- The point in time at which the next step ends an advance: no tick waits, and no timer is due. -/
def arrives? (m : Machine κ σ) : Option Nat :=
  match m.fault, m.stack with
  | none, .drive (.time limit) _ :: _ =>
    if m.world.host.takeTick.isNone && (m.world.host.takeDue limit).isNone then some limit else none
  | _, _ => none

/-- The timer that the next step fires: an advance is innermost, no tick waits, and the first timer is due. -/
def fires? (m : Machine κ σ) : Option (Timer κ) :=
  match m.fault, m.stack with
  | none, .drive (.time limit) _ :: _ =>
    if m.world.host.takeTick.isNone then m.world.host.timers.head?.filter fun u => u.key.due ≤ limit else none
  | _, _ => none

/-- What a step does to the clock and the timers, and to the advances that are under way. -/
inductive Passes (m m' : Machine κ σ) : Prop where
  | rests (timetable : m'.world.timetable = m.world.timetable) (same : m'.advances = m.advances)
  | performed {d : Directive κ σ} (top : m.directive? = some d)
      (timetable : m'.world.timetable = (d.surroundingsAfter m.world).timetable)
      (same : m'.advances = m.advances)
  | called {span : Nat} (top : m.directive? = some (.request (.drive (.advance span))))
      (timetable : m'.world.timetable = m.world.timetable)
      (within : m'.advances = Time.later m.world.host.now span :: m.advances)
  /-- The innermost advance fires the first timer. -/
  | fired {limit : Nat} {below : List Nat} {u : Timer κ} {us : List (Timer κ)}
      (under : m.advances = limit :: below) (timers : m.world.host.timers = u :: us)
      (due : u.key.due ≤ limit) (record : m.record = m.world.fires u.alarm)
      (timetable : m'.world.timetable = ⟨u.key.due, m.world.host.serial, us⟩)
      (same : m'.advances = m.advances) (fires : m.fires? = some u)
  /-- The innermost advance comes to its end. -/
  | arrived {limit : Nat} (arrives : m.arrives? = some limit)
      (timetable : m'.world.timetable = ⟨limit, m.world.host.serial, m.world.host.timers⟩)
      (under : m.advances = limit :: m'.advances)

end Machine

namespace Activity

variable {a : Activity κ σ}

theorem until?_resume (n : Nat) (a : Activity κ σ) : (a.resume n).until? = a.until? := by
  unfold resume
  split <;> rfl

theorem until?_resumeTop (n : Nat) (s : List (Activity κ σ)) :
    (Machine.resumeTop n s).filterMap until? = s.filterMap until? := by
  cases s with
  | nil => rfl
  | cons a s =>
    show ((a.resume n) :: s).filterMap until? = (a :: s).filterMap until?
    rw [List.filterMap_cons, List.filterMap_cons, until?_resume]

theorem until?_skip (h : a.until? = none) (s : List (Activity κ σ)) :
    (a :: s).filterMap until? = s.filterMap until? :=
  List.filterMap_cons_none h

end Activity

theorem Frame.until?_fill (fr : Frame κ σ α) (c : Pending κ σ α) : (fr.fill c).until? = none := by
  cases fr <;> rfl

namespace Machine

open Activity

variable {w w' : World κ σ} {s : List (Activity κ σ)} {goal : Goal} {n n' : Nat}

/-- A tick that is taken out of the host leaves clock and timers alone. -/
theorem passes_beginTick {t : Tick κ} {h : Host κ} (ht : w.host.takeTick = some (t, h)) :
    Passes ⟨w, .drive goal n :: s, none⟩ (beginTick { w with host := h } (.drive goal n' :: s) t) := by
  unfold Host.takeTick at ht
  split at ht
  · cases ht
  · next t' ts hts =>
    obtain ⟨rfl, rfl⟩ := Prod.mk.inj (Option.some.inj ht)
    cases t' with
    | thunk c => exact .rests rfl (by cases goal <;> rfl)
    | pump =>
      rw [beginTick]
      split <;> exact .rests rfl (by cases goal <;> rfl)

theorem fires?_of_due {u : Timer κ} {us : List (Timer κ)} {limit : Nat} (ticks : w.host.ticks = [])
    (timers : w.host.timers = u :: us) (due : u.key.due ≤ limit) :
    fires? ⟨w, .drive (.time limit) n :: s, none⟩ = some u := by
  show (if w.host.takeTick.isNone then w.host.timers.head?.filter fun u => u.key.due ≤ limit else none) = some u
  rw [Host.takeTick_eq_none.2 ticks, timers]
  simp [due]

theorem passes_fire {u : Timer κ} {us : List (Timer κ)} {limit : Nat}
    (ticks : w.host.ticks = []) (timers : w.host.timers = u :: us) (due : u.key.due ≤ limit) :
    Passes ⟨w, .drive (.time limit) n :: s, none⟩
      (fire { w with host := { w.host with timers := us, now := u.key.due } }
        (.drive (.time limit) n' :: s) u.alarm) := by
  have taken := Host.takeDue_of_due timers due
  have record : Machine.record ⟨w, .drive (.time limit) n :: s, none⟩ = w.fires u.alarm := by
    show w.fired (.time limit) = w.fires u.alarm
    rw [World.fired, ticks, taken]
    cases u.alarm <;> rfl
  have fires : Machine.fires? ⟨w, .drive (.time limit) n :: s, none⟩ = some u := fires?_of_due ticks timers due
  cases ha : u.alarm with
  | thunk c => exact .fired rfl timers due record rfl rfl fires
  | wake t =>
    simp only [fire]
    split
    · next w₂ hw =>
      exact .fired rfl timers due record (timetable_of_surroundings (surroundings_wake hw)) rfl fires
    · exact .fired rfl timers due record rfl rfl fires

theorem passes_stepDrive (w : World κ σ) (goal : Goal) (n : Nat) (s : List (Activity κ σ)) :
    Passes ⟨w, .drive goal n :: s, none⟩ (stepDrive w goal n s) := by
  cases goal with
  | ticks limit =>
    simp only [stepDrive]
    split
    · split
      · next t h ht => exact passes_beginTick ht
      · exact .rests rfl (until?_resumeTop n s)
    · exact .rests rfl (until?_resumeTop n s)
  | time limit =>
    simp only [stepDrive]
    -- A tick that waits goes first; without one the first timer that is due fires, and the drive
    -- ends when there is none.
    cases ht : w.host.takeTick with
    | some e => exact passes_beginTick ht
    | none =>
      cases hd : w.host.takeDue limit with
      | none =>
        refine .arrived ?_ rfl (congrArg (limit :: ·) (until?_resumeTop n s)).symm
        show (if w.host.takeTick.isNone && (w.host.takeDue limit).isNone then some limit else none) =
          some limit
        rw [ht, hd]
        rfl
      | some e =>
        have ticks := Host.takeTick_eq_none.1 ht
        unfold Host.takeDue at hd
        split at hd
        · cases hd
        · next u us timers =>
          split at hd
          · next due =>
            obtain rfl := Option.some.inj hd
            exact passes_fire ticks timers due
          · cases hd

/-- The end of an advance sets the clock to its goal. -/
theorem step_of_arrives {m : Machine κ σ} {limit : Nat} (h : m.arrives? = some limit) :
    (m.step b).world.timetable = ⟨limit, m.world.host.serial, m.world.host.timers⟩ ∧
      m.advances = limit :: (m.step b).advances := by
  obtain ⟨w, stack, fault⟩ := m
  unfold arrives? at h
  split at h
  · next goal n s hf hs =>
    obtain rfl : fault = none := hf
    obtain rfl : stack = _ := hs
    split at h
    · next free =>
      obtain rfl := Option.some.inj h
      obtain ⟨idle, late⟩ := Bool.and_eq_true_iff.1 free
      have ht : w.host.takeTick = none := Option.isNone_iff_eq_none.1 idle
      have hd : w.host.takeDue goal = none := Option.isNone_iff_eq_none.1 late
      simp only [step, stepTop, stepDrive, ht, hd]
      exact ⟨rfl, congrArg (goal :: ·) (until?_resumeTop n s).symm⟩
    · cases h
  · cases h

theorem passes_op (fr : Frame κ σ α) (w : World κ σ) (d : Directive κ σ)
    (k : d.Reply → Procedure κ σ α) (s : List (Activity κ σ)) :
    Passes ⟨w, fr.fill (.run (.op d k)) :: s, none⟩ (stepCode b w fr.fill s d k) := by
  have top := fr.directive?_fill w d k s
  have stack : ∀ c, (fr.fill c :: s).filterMap until? =
      (fr.fill (.run (.op d k)) :: s).filterMap until? := fun c =>
    (until?_skip (fr.until?_fill c) s).trans (until?_skip (fr.until?_fill _) s).symm
  unfold stepCode
  cases hd : d.step b w k with
  | next w' code =>
    exact .performed top (congrArg Surroundings.timetable (Directive.surroundings hd)) (stack _)
  | fault f => exact .rests rfl (stack _)
  | drive w' goal k' =>
    obtain ⟨e, rfl⟩ := Directive.eq_drive hd
    obtain ⟨rfl, rfl, rfl⟩ := Progress.drive.inj hd
    cases e with
    | advance span =>
      exact .called top rfl (congrArg (Time.later w.host.now span :: ·) (stack (.await _)))
    | _ => exact .rests rfl (stack (.await _))

/-- What a step does to the clock and the timers. -/
theorem passes (b : Behaviour κ σ) (m : Machine κ σ) : Passes m (m.step b) := by
  -- Drives, operations and faults are opened here; no other kind of step sees clock or timers.
  by_cases drive : ∃ w goal n s, m = ⟨w, .drive goal n :: s, none⟩
  · obtain ⟨w, goal, n, s, rfl⟩ := drive
    exact passes_stepDrive w goal n s
  by_cases performs : ∃ d, m.directive? = some d
  · obtain ⟨d, hd⟩ := performs
    obtain ⟨α, w, fr, k, s, rfl⟩ := eq_of_directive? hd
    rw [fr.step_op]
    exact passes_op fr w d k s
  by_cases raises : ∃ (α : Type) (fr : Frame κ σ α) (w : World κ σ) (f : Fault)
      (s : List (Activity κ σ)), m = ⟨w, fr.fill (.run (.raise f)) :: s, none⟩
  · obtain ⟨α, fr, w, f, s, rfl⟩ := raises
    cases fr <;> exact .rests rfl rfl
  have tr := transition b m
  revert tr
  generalize m.record = r
  generalize m.step b = m'
  intro tr
  cases tr with
  | code fr hd => exact absurd ⟨_, fr.directive?_fill _ _ _ _⟩ performs
  | driving fr hd => exact absurd ⟨_, fr.directive?_fill _ _ _ _⟩ performs
  | broken agree like cause =>
    cases cause with
    | raised fr f => exact absurd ⟨_, fr, _, _, _, rfl⟩ raises
    | failed fr hd => exact absurd ⟨_, fr.directive?_fill _ _ _ _⟩ performs
    | woken => exact absurd ⟨_, _, _, _, rfl⟩ drive
  | picked budget hd => exact .rests (timetable_of_surroundings (surroundings_dequeue hd)) rfl
  | skipped budget hd => exact .rests (timetable_of_surroundings (surroundings_dequeue hd)) rfl
  | ended => exact .rests (timetable_endTick _ _ _) rfl
  | preempted => exact .rests (timetable_of_surroundings (surroundings_enqueue _ _)) rfl
  | parked budget stuck agree beside => exact .rests (timetable_of_surroundings beside) rfl
  | pushed budget hx can put root beside => exact .rests (timetable_of_surroundings beside) rfl
  | entered budget hx can put root hc beside => exact .rests (timetable_of_surroundings beside) rfl
  | started budget hx can put task beside =>
    exact .rests (congrArg Surroundings.timetable beside) rfl
  | exited budget hx can put root hr event beside =>
    exact .rests (timetable_of_surroundings beside) rfl
  | returned hx alive put beside => exact .rests (timetable_of_surroundings beside) rfl
  | rest => exact .rests rfl rfl
  | finished => exact .rests rfl rfl
  | ignored => exact .rests rfl rfl
  | launched => exact .rests rfl rfl
  | _ => exact absurd ⟨_, _, _, _, rfl⟩ drive

end Machine

/-! ### Timers in order -/

namespace Host

theorem perm_insertTimer (t : Timer κ) (us : List (Timer κ)) :
    (insertTimer t us).Perm (t :: us) := by
  induction us with
  | nil => exact .refl _
  | cons u us ih =>
    simp only [insertTimer]
    split
    · exact (ih.cons u).trans (.swap t u us)
    · exact .refl _

end Host

/-- The timers wait in the order of their deadlines, under different numbers that have been given out,
and none of the deadlines has gone by. -/
structure Timetable.Sound (x : Timetable κ) : Prop where
  now : x.now ≤ Time.longest
  sorted : x.timers.Pairwise fun u v => u.key.due ≤ v.key.due
  ahead : ∀ u ∈ x.timers, x.now ≤ u.key.due ∧ u.key.due ≤ Time.longest
  numbered : ∀ u ∈ x.timers, u.key.serial < x.serial
  distinct : x.timers.Pairwise fun u v => u.key.serial ≠ v.key.serial

namespace Timetable.Sound

variable {x : Timetable κ}

theorem set (h : x.Sound) (span : Nat) (a : Alarm κ) :
    Timetable.Sound ⟨x.now, x.serial + 1,
      Host.insertTimer ⟨⟨Time.later x.now span, x.serial⟩, a⟩ x.timers⟩ where
  now := h.now
  sorted := Host.pairwise_insertTimer h.sorted
  ahead u hu := by
    rcases Host.mem_insertTimer.1 hu with rfl | hu
    · exact ⟨Time.le_later h.now, Time.later_le_longest _ _⟩
    · exact h.ahead u hu
  numbered u hu := by
    rcases Host.mem_insertTimer.1 hu with rfl | hu
    · exact Nat.lt_succ_self _
    · exact Nat.lt_succ_of_lt (h.numbered u hu)
  distinct := by
    refine ((Host.perm_insertTimer _ _).pairwise_iff fun ne => Ne.symm ne).2 ?_
    exact List.pairwise_cons.2 ⟨fun u hu => Nat.ne_of_gt (h.numbered u hu), h.distinct⟩

/-- Timers may be removed. -/
theorem sublist (h : x.Sound) {us : List (Timer κ)} (sub : us.Sublist x.timers) :
    Timetable.Sound ⟨x.now, x.serial, us⟩ where
  now := h.now
  sorted := h.sorted.sublist sub
  ahead u hu := h.ahead u (sub.subset hu)
  numbered u hu := h.numbered u (sub.subset hu)
  distinct := h.distinct.sublist sub

/-- The clock may be set to a point in time that no timer waits for any more. -/
theorem at_now (h : x.Sound) {now : Nat} (bound : now ≤ Time.longest)
    (ahead : ∀ u ∈ x.timers, now ≤ u.key.due) : Timetable.Sound ⟨now, x.serial, x.timers⟩ where
  now := bound
  sorted := h.sorted
  ahead u hu := ⟨ahead u hu, (h.ahead u hu).2⟩
  numbered := h.numbered
  distinct := h.distinct

theorem sets {w : World κ σ} (h : w.timetable.Sound) {d : Directive κ σ} {x : Timetable κ}
    (hd : d.Sets w x) : x.Sound := by
  cases hd with
  | nothing => exact h
  | delay span c => exact h.set span (.thunk c)
  | sleep span t => exact h.set span (.wake t)
  | unset k => exact h.sublist List.filter_sublist
  | kill off => exact h.sublist List.filter_sublist

/-- Two timers with one number are the same. -/
theorem eq_of_serial (h : x.Sound) {u v : Timer κ} (hu : u ∈ x.timers) (hv : v ∈ x.timers)
    (same : u.key.serial = v.key.serial) : u = v := by
  have distinct := List.pairwise_iff_getElem.1 h.distinct
  obtain ⟨i, hi, rfl⟩ := List.getElem_of_mem hu
  obtain ⟨j, hj, rfl⟩ := List.getElem_of_mem hv
  rcases Nat.lt_trichotomy i j with lt | rfl | gt
  · exact absurd same (distinct i j hi hj lt)
  · rfl
  · exact absurd same.symm (distinct j i hj hi gt)

end Timetable.Sound

/-- When no timer is due all of them lie ahead. -/
theorem Host.ahead_of_takeDue {h : Host κ} {limit : Nat}
    (sorted : h.timers.Pairwise fun u v => u.key.due ≤ v.key.due)
    (none : h.takeDue limit = none) : ∀ u ∈ h.timers, limit < u.key.due := by
  unfold takeDue at none
  split at none
  · next timers =>
    rw [timers]
    exact nofun
  · next v vs timers =>
    split at none
    · cases none
    · next late =>
      rw [timers] at sorted ⊢
      intro u hu
      rcases List.mem_cons.1 hu with rfl | hu
      · exact Nat.lt_of_not_le late
      · exact Nat.lt_of_lt_of_le (Nat.lt_of_not_le late) ((List.pairwise_cons.1 sorted).1 u hu)

/-- An advance comes to its end only when no timer is due any more. -/
theorem Machine.takeDue_of_arrives {m : Machine κ σ} {limit : Nat} (h : m.arrives? = some limit) :
    m.world.host.takeDue limit = none := by
  unfold arrives? at h
  split at h
  · split at h
    · next free =>
      obtain rfl := Option.some.inj h
      exact Option.isNone_iff_eq_none.1 (Bool.and_eq_true_iff.1 free).2
    · cases h
  · cases h

/-- The timers of a machine are in order, and no advance goes beyond the end of time. -/
structure Machine.Timely (m : Machine κ σ) : Prop where
  timetable : m.world.timetable.Sound
  goals : ∀ limit ∈ m.advances, limit ≤ Time.longest

theorem Machine.Timely.step {m : Machine κ σ} (h : m.Timely) : (m.step b).Timely := by
  have sound := h.timetable
  cases Machine.passes b m with
  | rests timetable same =>
    rw [← timetable] at sound
    exact ⟨sound, fun limit hl => h.goals limit (same ▸ hl)⟩
  | @performed d top timetable same =>
    have after := sound.sets (d.sets m.world)
    rw [← timetable] at after
    exact ⟨after, fun limit hl => h.goals limit (same ▸ hl)⟩
  | called top timetable within =>
    rw [← timetable] at sound
    refine ⟨sound, fun limit hl => ?_⟩
    rw [within] at hl
    rcases List.mem_cons.1 hl with rfl | hl
    · exact Time.later_le_longest _ _
    · exact h.goals limit hl
  -- The clock goes to the first timer, which the others do not precede, as they are sorted.
  | @fired limit below u us under timers due record timetable same =>
    have first : u ∈ m.world.host.timers := timers ▸ List.mem_cons_self
    have sorted : (u :: us).Pairwise fun u v => u.key.due ≤ v.key.due := timers ▸ sound.sorted
    have rest : Timetable.Sound ⟨m.world.host.now, m.world.host.serial, us⟩ :=
      sound.sublist (timers ▸ List.sublist_cons_self u us : us.Sublist m.world.host.timers)
    have after := rest.at_now (sound.ahead u first).2 (List.pairwise_cons.1 sorted).1
    rw [← timetable] at after
    exact ⟨after, fun limit hl => h.goals limit (same ▸ hl)⟩
  -- No timer up to the goal is left, so the clock may go there.
  | @arrived limit arrives timetable under =>
    have ahead := Host.ahead_of_takeDue sound.sorted (Machine.takeDue_of_arrives arrives)
    have bound : limit ≤ Time.longest := h.goals limit (under ▸ List.mem_cons_self)
    have after : Timetable.Sound ⟨limit, m.world.host.serial, m.world.host.timers⟩ :=
      sound.at_now bound fun u hu => Nat.le_of_lt (ahead u hu)
    rw [← timetable] at after
    exact ⟨after, fun l hl => h.goals l (under ▸ List.mem_cons_of_mem _ hl)⟩

theorem Reachable.timely {m : Machine κ σ} (h : Reachable b m) : m.Timely := by
  induction h with
  | new config user code =>
    exact ⟨⟨Nat.zero_le _, .nil, nofun, nofun, .nil⟩, nofun⟩
  | step _ ih => exact ih.step
  | load code _ _ _ ih => exact ⟨ih.timetable, nofun⟩

end Actors
