/-
Timers that fire.

In an advance inside which no other one is called for, timers fire in the order of their keys, each when the clock
has come to its deadline and no tick waits any more. What is run by the ticks and the timers may set timers and
remove them: a new one has a deadline that has not gone by, and a number above all others, so it comes after
everything that has fired. A timer that waits stays until it fires or is cancelled. So when the advance comes to
its end, those that were due and have not been cancelled have fired, each once.

* `TimerKey.Precedes`, `Reachable.ordered` — the order of the timers, by deadline and then by number;
* `Machine.Cancels`, `Machine.Drops` — a step takes a timer out;
* `Machine.timers_stay`, `Machine.timers_came`, `Trail.dropped` — what becomes of the timers in a step, and for good;
* `Elapsed`, `Trail.elapsed` — what has come of the timers in the course of an advance;
* `Trail.fires_in_order` — timers fire in order, on time, exactly once.
-/
import Actors.Proofs.Advancing
import Actors.Proofs.Clock
import Actors.Proofs.Sleeping

namespace Actors

variable {κ σ α : Type} {b : Behaviour κ σ}

/-! ### The order of the timers -/

/-- A key comes before another one: its deadline is earlier, or the same with a lower number. -/
def TimerKey.Precedes (k l : TimerKey) : Prop :=
  k.due < l.due ∨ k.due = l.due ∧ k.serial < l.serial

instance (k l : TimerKey) : Decidable (k.Precedes l) :=
  inferInstanceAs (Decidable (_ ∨ _))

/-- The timers wait in the order of their keys. -/
def Timetable.Ordered (x : Timetable κ) : Prop :=
  x.timers.Pairwise fun u v => u.key.Precedes v.key

/-- A timer with a new number keeps the order. -/
theorem Host.ordered_insertTimer {t : Timer κ} {us : List (Timer κ)}
    (ordered : us.Pairwise fun u v => u.key.Precedes v.key) (new : ∀ u ∈ us, u.key.serial < t.key.serial) :
    (insertTimer t us).Pairwise fun u v => u.key.Precedes v.key := by
  induction us with
  | nil => exact List.pairwise_singleton _ _
  | cons v us ih =>
    obtain ⟨first, rest⟩ := List.pairwise_cons.1 ordered
    simp only [insertTimer]
    -- The timer goes behind those that are due no later: where the deadline is the same its number is higher.
    split
    · next le =>
      refine List.pairwise_cons.2 ⟨fun u hu => ?_, ih rest fun u hu => new u (List.mem_cons_of_mem _ hu)⟩
      rcases mem_insertTimer.1 hu with rfl | hu
      · rcases Nat.lt_or_eq_of_le le with lt | eq
        · exact .inl lt
        · exact .inr ⟨eq, new v List.mem_cons_self⟩
      · exact first u hu
    · next lt =>
      refine List.pairwise_cons.2 ⟨fun u hu => ?_, ordered⟩
      have behind : t.key.due < v.key.due := Nat.lt_of_not_le lt
      rcases List.mem_cons.1 hu with rfl | hu
      · exact .inl behind
      · rcases first u hu with lt | ⟨eq, -⟩
        · exact .inl (Nat.lt_trans behind lt)
        · exact .inl (eq ▸ behind)

namespace Timetable

variable {x : Timetable κ}

theorem Ordered.sublist (h : x.Ordered) {us : List (Timer κ)} (sub : us.Sublist x.timers) {now serial : Nat} :
    Ordered ⟨now, serial, us⟩ :=
  List.Pairwise.sublist sub h

theorem Ordered.sets {w : World κ σ} (h : w.timetable.Ordered) (sound : w.timetable.Sound) {d : Directive κ σ}
    (hd : d.Sets w x) : x.Ordered := by
  cases hd with
  | nothing => exact h
  | delay span c => exact Host.ordered_insertTimer h sound.numbered
  | sleep span t => exact Host.ordered_insertTimer h sound.numbered
  | unset k => exact h.sublist List.filter_sublist
  | kill off => exact h.sublist List.filter_sublist

end Timetable

theorem Machine.ordered_step {m : Machine κ σ} (timely : m.Timely) (h : m.world.timetable.Ordered) :
    (m.step b).world.timetable.Ordered := by
  cases Machine.passes b m with
  | rests timetable => exact timetable ▸ h
  | called top timetable => exact timetable ▸ h
  | performed top timetable => exact timetable ▸ h.sets timely.timetable (Directive.sets ..)
  | @fired limit below u us under timers due record timetable =>
    rw [timetable]
    exact h.sublist (timers ▸ List.sublist_cons_self u us : us.Sublist m.world.host.timers)
  | arrived arrives timetable => exact timetable ▸ h

/-- Timers wait in the order in which they will fire. -/
theorem Reachable.ordered {m : Machine κ σ} (h : Reachable b m) : m.world.timetable.Ordered := by
  induction h with
  | new config user code => exact .nil
  | step h ih => exact Machine.ordered_step h.timely ih
  | load code _ _ _ ih => exact ih

/-! ### Timers that are taken out -/

/-- The next step cancels a timer that waits: user code removes its own one, or a process that sleeps is killed. -/
inductive Machine.Cancels (m : Machine κ σ) (u : Timer κ) : Prop where
  | unset {c : κ} (waits : u ∈ m.world.host.timers) (alarm : u.alarm = .thunk c)
      (asks : m.directive? = some (.request (.unset u.key)))
  | killed {t : Ticket} {p : Pid} (waits : u ∈ m.world.host.timers) (alarm : u.alarm = .wake t)
      (asks : m.directive? = some (.request (.kill p)))
      (off : Directive.calledOff? m.world (.request (.kill p)) = some (.timer u.key))

/-- The next step takes a timer out: the timer fires, or it is cancelled. -/
def Machine.Drops (m : Machine κ σ) (u : Timer κ) : Prop :=
  m.fires? = some u ∨ m.Cancels u

namespace Machine

variable {m : Machine κ σ} {u v : Timer κ}

theorem Cancels.waits (h : m.Cancels u) : u ∈ m.world.host.timers := by
  cases h <;> assumption

/-- A timer fires when an advance is innermost, no tick waits, and the timer is the first one, and due. -/
theorem of_fires (h : m.fires? = some u) :
    ∃ w limit n s us, m = ⟨w, .drive (.time limit) n :: s, none⟩ ∧ w.host.ticks = [] ∧
      w.host.timers = u :: us ∧ u.key.due ≤ limit := by
  obtain ⟨w, stack, fault⟩ := m
  unfold fires? at h
  split at h
  · next limit n s hf hs =>
    obtain rfl : fault = none := hf
    obtain rfl : stack = _ := hs
    split at h
    · next idle =>
      obtain ⟨first, due⟩ := Option.filter_eq_some_iff.1 h
      obtain ⟨us, timers⟩ := List.head?_eq_some_iff.1 first
      have ticks := Host.takeTick_eq_none.1 (Option.isNone_iff_eq_none.1 idle)
      exact ⟨w, limit, n, s, us, rfl, ticks, timers, of_decide_eq_true due⟩
    · cases h
  · cases h

/-- What a timer that fires does. -/
theorem step_of_fires {w : World κ σ} {limit n : Nat} {s : List (Activity κ σ)} {us : List (Timer κ)}
    (ticks : w.host.ticks = []) (timers : w.host.timers = u :: us) (due : u.key.due ≤ limit) :
    step b ⟨w, .drive (.time limit) n :: s, none⟩ =
      fire { w with host := { w.host with timers := us, now := u.key.due } } (.drive (.time limit) (n + 1) :: s)
        u.alarm := by
  simp only [step, stepTop, stepDrive, Host.takeTick_eq_none.2 ticks, Host.takeDue_of_due timers due]

theorem timetable_fire (w : World κ σ) (s : List (Activity κ σ)) (a : Alarm κ) :
    (fire w s a).world.timetable = w.timetable := by
  cases a with
  | thunk c => rfl
  | wake t =>
    simp only [fire]
    split
    · next w' hw => exact World.timetable_of_surroundings (World.surroundings_wake hw)
    · rfl

theorem timetable_of_fires (h : m.fires? = some u) : ∃ us, m.world.host.timers = u :: us ∧
    (m.step b).world.timetable = ⟨u.key.due, m.world.host.serial, us⟩ := by
  obtain ⟨w, limit, n, s, us, rfl, ticks, timers, due⟩ := of_fires h
  rw [step_of_fires ticks timers due, timetable_fire]
  exact ⟨us, timers, rfl⟩

/-- Where a timer fires no directive is performed. -/
theorem directive?_of_fires (h : m.fires? = some u) : m.directive? = none := by
  obtain ⟨w, limit, n, s, us, rfl, -⟩ := of_fires h
  rfl

theorem timetable_of_unset {key : TimerKey} (top : m.directive? = some (.request (.unset key))) :
    (m.step b).world.timetable = ⟨m.world.host.now, m.world.host.serial,
      m.world.host.timers.filter fun u => !Host.isThunkAt key u⟩ :=
  timetable_of_next top fun k => ⟨{ m.world with host := m.world.host.unset key }, k (), rfl⟩

/-- A timer that is taken out waits until then. -/
theorem Drops.waits (h : m.Drops u) : u ∈ m.world.host.timers := by
  rcases h with fires | cancels
  · obtain ⟨w, limit, n, s, us, rfl, -, timers, -⟩ := of_fires fires
    exact timers ▸ List.mem_cons_self
  · exact cancels.waits

/-- Where a timer fires none is cancelled. -/
theorem not_cancels_of_fires (h : m.fires? = some u) : ¬ m.Cancels v := fun cancels => by
  have none := directive?_of_fires h
  cases cancels with
  | unset _ _ asks => cases none.symm.trans asks
  | killed _ _ asks => cases none.symm.trans asks

/-- A step takes out one timer at most. -/
theorem Drops.unique (sound : m.world.timetable.Sound) (hu : m.Drops u) (hv : m.Drops v) : u = v := by
  rcases hu with fires | cancels <;> rcases hv with fires' | cancels'
  · exact Option.some.inj (fires.symm.trans fires')
  · exact absurd cancels' (not_cancels_of_fires fires)
  · exact absurd cancels (not_cancels_of_fires fires')
  · -- One directive cancels both, and it names one key.
    refine sound.eq_of_serial cancels.waits cancels'.waits (congrArg TimerKey.serial ?_)
    cases cancels with
    | unset _ _ asks =>
      cases cancels' with
      | unset _ _ asks' => exact Request.unset.inj (Directive.request.inj (Option.some.inj (asks.symm.trans asks')))
      | killed _ _ asks' => cases asks.symm.trans asks'
    | killed _ _ asks off =>
      cases cancels' with
      | unset _ _ asks' => cases asks.symm.trans asks'
      | killed _ _ asks' off' =>
        obtain rfl := Request.kill.inj (Directive.request.inj (Option.some.inj (asks.symm.trans asks')))
        exact Cancel.timer.inj (Option.some.inj (off.symm.trans off'))

/-- A timer that is taken out does not wait any more. -/
theorem Drops.gone (sound : m.world.timetable.Sound) (h : m.Drops u) : u ∉ (m.step b).world.host.timers := by
  rcases h with fires | cancels
  · obtain ⟨us, timers, timetable⟩ := timetable_of_fires (b := b) fires
    have distinct : (u :: us).Pairwise fun u v => u.key.serial ≠ v.key.serial := timers ▸ sound.distinct
    rw [show (m.step b).world.host.timers = us from congrArg Timetable.timers timetable]
    exact fun again => (List.pairwise_cons.1 distinct).1 u again rfl
  · cases cancels with
    | unset _ alarm asks =>
      rw [show (m.step b).world.host.timers = _ from congrArg Timetable.timers (timetable_of_unset asks),
        List.mem_filter, Host.isThunkAt, alarm]
      simp
    | killed _ alarm asks off =>
      rw [show (m.step b).world.host.timers = _ from congrArg Timetable.timers (timetable_of_kill asks off),
        List.mem_filter, Host.isWakeAt, alarm]
      simp

/-- A timer that waits stays unless it is taken out. -/
theorem timers_stay (h : u ∈ m.world.host.timers) : u ∈ (m.step b).world.host.timers ∨ m.Drops u := by
  have stays : ∀ {x : Timetable κ}, (m.step b).world.timetable = x → u ∈ x.timers →
      u ∈ (m.step b).world.host.timers := fun hx mem => by
    rw [← hx] at mem
    exact mem
  cases Machine.passes b m with
  | rests timetable => exact .inl (stays timetable h)
  | called top timetable => exact .inl (stays timetable h)
  | arrived arrives timetable => exact .inl (stays timetable h)
  | @fired limit below v us under here due record timetable same fires =>
    rw [here] at h
    rcases List.mem_cons.1 h with rfl | mem
    · exact .inr (.inl fires)
    · exact .inl (stays timetable mem)
  -- Of what code can perform only a cancellation and a kill take timers out, each the one it
  -- names.
  | @performed d top timetable =>
    obtain ⟨x, timetable, sets⟩ : ∃ x, (m.step b).world.timetable = x ∧ d.Sets m.world x :=
      ⟨_, timetable, d.sets m.world⟩
    cases sets with
    | nothing => exact .inl (stays timetable h)
    | delay span c => exact .inl (stays timetable (Host.mem_insertTimer.2 (.inr h)))
    | sleep span t => exact .inl (stays timetable (Host.mem_insertTimer.2 (.inr h)))
    | unset k =>
      cases off : Host.isThunkAt k u with
      | false => exact .inl (stays timetable (List.mem_filter.2 ⟨h, by rw [off]; rfl⟩))
      | true =>
        unfold Host.isThunkAt at off
        split at off
        · next c alarm =>
          obtain rfl := of_decide_eq_true off
          exact .inr (.inr (.unset h alarm top))
        · cases off
    | @kill p k called =>
      cases off : Host.isWakeAt k u with
      | false => exact .inl (stays timetable (List.mem_filter.2 ⟨h, by rw [off]; rfl⟩))
      | true =>
        unfold Host.isWakeAt at off
        split at off
        · cases off
        · next t alarm =>
          obtain rfl := of_decide_eq_true off
          exact .inr (.inr (.killed h alarm top called))

/-- A timer that waits after a step was there before, or has just been set, under a new number. -/
theorem timers_came (h : u ∈ (m.step b).world.host.timers) : u ∈ m.world.host.timers ∨
    u.key.serial = m.world.host.serial ∧ (m.step b).world.host.serial = m.world.host.serial + 1 ∧
      ∃ span, u.key.due = Time.later m.world.host.now span := by
  have timers : ∀ {x : Timetable κ}, (m.step b).world.timetable = x → u ∈ x.timers := fun hx => hx ▸ h
  cases Machine.passes b m with
  | rests timetable => exact .inl (timers timetable)
  | called top timetable => exact .inl (timers timetable)
  | arrived arrives timetable => exact .inl (timers timetable)
  | fired under here due record timetable =>
    rw [here]
    exact .inl (List.mem_cons_of_mem _ (timers timetable))
  | @performed d top timetable =>
    obtain ⟨x, timetable, sets⟩ : ∃ x, (m.step b).world.timetable = x ∧ d.Sets m.world x :=
      ⟨_, timetable, d.sets m.world⟩
    have mem := timers timetable
    have serial := congrArg Timetable.serial timetable
    cases sets with
    | nothing => exact .inl mem
    | delay span c =>
      rcases Host.mem_insertTimer.1 mem with rfl | mem
      · exact .inr ⟨rfl, serial, span, rfl⟩
      · exact .inl mem
    | sleep span t =>
      rcases Host.mem_insertTimer.1 mem with rfl | mem
      · exact .inr ⟨rfl, serial, span, rfl⟩
      · exact .inl mem
    | unset k => exact .inl (List.mem_filter.1 mem).1
    | kill off => exact .inl (List.mem_filter.1 mem).1

/-- Timers are numbered one after another. -/
theorem serial_le (m : Machine κ σ) : m.world.host.serial ≤ (m.step b).world.host.serial := by
  have serial : ∀ {x : Timetable κ}, (m.step b).world.timetable = x → m.world.host.serial ≤ x.serial →
      m.world.host.serial ≤ (m.step b).world.host.serial := fun hx le => by
    rw [← hx] at le
    exact le
  cases Machine.passes b m with
  | rests timetable => exact serial timetable (Nat.le_refl _)
  | called top timetable => exact serial timetable (Nat.le_refl _)
  | arrived arrives timetable => exact serial timetable (Nat.le_refl _)
  | fired under here due record timetable => exact serial timetable (Nat.le_refl _)
  | @performed d top timetable =>
    obtain ⟨x, timetable, sets⟩ : ∃ x, (m.step b).world.timetable = x ∧ d.Sets m.world x :=
      ⟨_, timetable, d.sets m.world⟩
    refine serial timetable ?_
    cases sets with
    | delay => exact Nat.le_succ _
    | sleep => exact Nat.le_succ _
    | _ => exact Nat.le_refl _

end Machine

namespace Trail

variable {m m' : Machine κ σ} {ms : List (Machine κ σ)} {u : Timer κ}

/-- A timer that has been taken out is gone for good, and so is its number. -/
theorem dropped (h : Trail b m ms) (hm : m' ∈ ms) (hu : m'.Drops u) :
    u.key.serial < m.world.host.serial ∧ ∀ v ∈ m.world.host.timers, v.key.serial ≠ u.key.serial := by
  induction h with
  | new config user code => cases hm
  | load code _ _ _ ih => exact ih hm
  | @step m ms h ih =>
    have sound := h.reachable.timely.timetable
    have after : u.key.serial < m.world.host.serial →
        (∀ v ∈ m.world.host.timers, v ∈ (m.step b).world.host.timers → v.key.serial ≠ u.key.serial) →
          u.key.serial < (m.step b).world.host.serial ∧
          ∀ v ∈ (m.step b).world.host.timers, v.key.serial ≠ u.key.serial := fun below others => by
      refine ⟨Nat.lt_of_lt_of_le below (Machine.serial_le m), fun v hv => ?_⟩
      rcases Machine.timers_came hv with before | ⟨new, -⟩
      · exact others v before hv
      · exact fun same => Nat.ne_of_gt below (new.symm.trans same)
    rcases List.mem_append.1 hm with hm | hm
    · obtain ⟨below, others⟩ := ih hm
      exact after below fun v hv _ => others v hv
    · obtain rfl := List.mem_singleton.1 hm
      refine after (sound.numbered u hu.waits) fun v hv stays same => ?_
      obtain rfl := sound.eq_of_serial hv hu.waits same
      exact hu.gone sound stays

end Trail

/-! ### In the course of an advance -/

/-- The timers that have fired in the course of an advance. -/
def fired (during : List (Machine κ σ)) : List (Timer κ) :=
  during.filterMap Machine.fires?

/-- What has come of the timers since a machine has called for an advance towards a goal, on top of `base`, when no
other advance has been called for meanwhile. -/
structure Elapsed (m₁ m : Machine κ σ) (limit : Nat) (base : List (Activity κ σ)) (during : List (Machine κ σ)) :
    Prop where
  goals : m.advances = limit :: m₁.advances
  stack : ∃ top, m.stack = top ++ .drive (.time limit) (fired during).length :: base
  ordered : (fired during).Pairwise fun u v => u.key.Precedes v.key
  due : ∀ u ∈ fired during, u.key.due ≤ limit
  past : ∀ u ∈ fired during, u.key.due ≤ m.world.host.now ∧ u.key.serial < m.world.host.serial
  ahead : ∀ u ∈ fired during, ∀ v ∈ m.world.host.timers, u.key.Precedes v.key
  kept : ∀ u ∈ fired during, ∀ m' ∈ during, ¬ m'.Cancels u
  fate : ∀ m' ∈ m₁ :: during, ∀ u ∈ m'.world.host.timers,
    u ∈ m.world.host.timers ∨ u ∈ fired during ∨ ∃ m'' ∈ during, m''.Cancels u

theorem fired_snoc (during : List (Machine κ σ)) (m : Machine κ σ) :
    fired (during ++ [m]) = fired during ++ m.fires?.toList := by
  unfold fired
  rw [List.filterMap_append]
  cases h : m.fires? <;> simp [h]

namespace Machine

variable {m : Machine κ σ} {top base : List (Activity κ σ)} {limit n : Nat} {below : List Nat}

/-- A step inside an advance that neither calls for another one nor ends this one leaves it on the stack. A timer
that fires is counted. -/
theorem stack_step (stack : m.stack = top ++ .drive (.time limit) n :: base)
    (goals : m.advances = limit :: base.filterMap Activity.until?)
    (goals' : (m.step b).advances = limit :: base.filterMap Activity.until?) :
    ∃ top', (m.step b).stack = top' ++ .drive (.time limit) (n + m.fires?.toList.length) :: base := by
  obtain ⟨w, stack', f⟩ := m
  obtain rfl : stack' = _ := stack
  have inner : top.filterMap Activity.until? = [] := by
    rw [advances, List.filterMap_append] at goals
    exact List.append_left_eq_self.1 goals
  cases top with
  | cons a top =>
    have busy : (⟨w, a :: top, f⟩ : Machine κ σ).stack ≠ [] := List.cons_ne_nil _ _
    have none : fires? ⟨w, a :: top ++ .drive (.time limit) n :: base, f⟩ = none := by
      cases hu : fires? ⟨w, a :: top ++ .drive (.time limit) n :: base, f⟩ with
      | none => rfl
      | some u =>
        obtain ⟨w', l, n', s, us, same, -⟩ := of_fires hu
        obtain ⟨-, same, -⟩ := Machine.mk.inj same
        obtain ⟨rfl, -⟩ := List.cons.inj same
        cases inner
    rw [none]
    exact ⟨(step b ⟨w, a :: top, f⟩).stack, congrArg Machine.stack (step_on busy)⟩
  | nil =>
    -- The drive is on top. It takes a tick or fires a timer: had it come to its end, its goal would be gone.
    have ended : w.host.takeTick = none → w.host.takeDue limit = none → f = none → False := by
      rintro ticks timers rfl
      obtain ⟨next, -⟩ := drive_arrives (b := b) n base ticks timers
      rw [List.nil_append, next, advances, Activity.until?_resumeTop] at goals'
      exact List.cons_ne_self _ _ goals'.symm
    cases f with
    | some f => exact ⟨[], rfl⟩
    | none =>
      cases ticks : w.host.ticks with
      | cons t ts =>
        have waits : w.host.takeTick = some (t, { w.host with ticks := ts }) := by rw [Host.takeTick, ticks]
        obtain ⟨next, -⟩ := drive_tick (b := b) limit n base waits
        have none : fires? ⟨w, .drive (.time limit) n :: base, none⟩ = none := by
          show (if w.host.takeTick.isNone then _ else none) = none
          rw [waits]
          rfl
        rw [List.nil_append, none, next]
        exact ⟨_, rfl⟩
      | nil =>
        have idle := Host.takeTick_eq_none.2 ticks
        cases timers : w.host.timers with
        | nil => exact absurd rfl (ended idle (by rw [Host.takeDue, timers]))
        | cons u us =>
          by_cases due : u.key.due ≤ limit
          · obtain ⟨next, -⟩ := drive_timer (b := b) n base idle (Host.takeDue_of_due timers due)
            rw [List.nil_append, fires?_of_due ticks timers due, next]
            exact ⟨_, rfl⟩
          · exact absurd rfl (ended idle (by rw [Host.takeDue, timers]; exact if_neg due))

/-- A step inside an advance that neither calls for another one nor ends this one does not set the clock back. -/
theorem advances_step (timely : m.Timely) (goals : m.advances = limit :: below)
    (plain : ∀ span, m.directive? ≠ some (.request (.drive (.advance span))))
    (stays : limit :: below <:+ (m.step b).advances) :
    (m.step b).advances = limit :: below ∧ m.world.host.now ≤ (m.step b).world.host.now := by
  cases passes b m with
  | rests timetable same => exact ⟨same.trans goals, Nat.le_of_eq (now_of_timetable timetable).symm⟩
  | @performed d top timetable same =>
    exact ⟨same.trans goals,
      Nat.le_of_eq ((congrArg Timetable.now timetable).trans (d.sets m.world).now).symm⟩
  | called top => exact absurd top (plain _)
  | @fired l outer u us under timers due record timetable same =>
    refine ⟨same.trans goals, ?_⟩
    rw [show (m.step b).world.host.now = u.key.due from congrArg Timetable.now timetable]
    have first : u ∈ m.world.host.timers := timers ▸ List.mem_cons_self
    exact (timely.timetable.ahead u first).1
  | arrived arrives timetable under =>
    obtain ⟨-, outer⟩ := List.cons.inj (goals.symm.trans under)
    have length := (outer ▸ stays).length_le
    exact absurd length (Nat.not_succ_le_self _)

end Machine

theorem mem_fired {during : List (Machine κ σ)} {u : Timer κ} :
    u ∈ fired during ↔ ∃ m ∈ during, m.fires? = some u :=
  List.mem_filterMap

section

variable {m m₁ : Machine κ σ} {ms during : List (Machine κ σ)} {base : List (Activity κ σ)} {limit span : Nat}

theorem mem_fired_snoc {u : Timer κ} : u ∈ fired (during ++ [m]) ↔ u ∈ fired during ∨ m.fires? = some u := by
  rw [fired_snoc, List.mem_append, Option.mem_toList]

namespace Elapsed

variable {u : Timer κ}

/-- A timer that fires in an advance waits until then, is due by the goal, and sets the clock to its deadline. -/
theorem on_time (h : Elapsed m₁ m limit base during) (b : Behaviour κ σ) (fires : m.fires? = some u) :
    u ∈ m.world.host.timers ∧ u.key.due ≤ limit ∧ u.key.due = (m.step b).world.host.now := by
  obtain ⟨us, timers, timetable⟩ := Machine.timetable_of_fires (b := b) fires
  refine ⟨timers ▸ List.mem_cons_self, ?_, (congrArg Timetable.now timetable).symm⟩
  obtain ⟨w, l, n, s, us, rfl, -, -, due⟩ := Machine.of_fires fires
  obtain ⟨rfl, -⟩ := List.cons.inj h.goals
  exact due

theorem past_step (h : Elapsed m₁ m limit base during) (sound : m.world.timetable.Sound)
    (forward : m.world.host.now ≤ (m.step b).world.host.now) (hu : u ∈ fired (during ++ [m])) :
    u.key.due ≤ (m.step b).world.host.now ∧ u.key.serial < (m.step b).world.host.serial := by
  have serial := Machine.serial_le (b := b) m
  rcases mem_fired_snoc.1 hu with before | fires
  · obtain ⟨past, number⟩ := h.past u before
    exact ⟨Nat.le_trans past forward, Nat.lt_of_lt_of_le number serial⟩
  · obtain ⟨waits, -, same⟩ := h.on_time b fires
    exact ⟨Nat.le_of_eq same, Nat.lt_of_lt_of_le (sound.numbered u waits) serial⟩

/-- All that wait after a step come after all that have fired. -/
theorem ahead_step (h : Elapsed m₁ m limit base during) (sound : m.world.timetable.Sound)
    (ordered : m.world.timetable.Ordered) (hu : u ∈ fired (during ++ [m])) {v : Timer κ}
    (hv : v ∈ (m.step b).world.host.timers) : u.key.Precedes v.key := by
  rcases mem_fired_snoc.1 hu with before | fires
  · rcases Machine.timers_came hv with waits | ⟨new, -, span, due⟩
    · exact h.ahead u before v waits
    · -- A timer that has just been set is due later, or has a higher number.
      obtain ⟨past, number⟩ := h.past u before
      have later : u.key.due ≤ v.key.due := due ▸ Nat.le_trans past (Time.le_later sound.now)
      rcases Nat.lt_or_eq_of_le later with lt | eq
      · exact .inl lt
      · exact .inr ⟨eq, new ▸ number⟩
  · obtain ⟨us, timers, timetable⟩ := Machine.timetable_of_fires (b := b) fires
    have ordered : (u :: us).Pairwise fun u v => u.key.Precedes v.key := timers ▸ ordered
    rw [show (m.step b).world.host.timers = us from congrArg Timetable.timers timetable] at hv
    exact (List.pairwise_cons.1 ordered).1 v hv

/-- What has fired has not been cancelled: a timer that has been taken out does not wait any more. -/
theorem kept_step (h : Elapsed m₁ m limit base during)
    (once : ∀ m' ∈ during, ∀ u, m'.Drops u → u ∉ m.world.host.timers) (hu : u ∈ fired (during ++ [m]))
    {m' : Machine κ σ} (hm : m' ∈ during ++ [m]) : ¬ m'.Cancels u := by
  intro cancels
  rcases mem_fired_snoc.1 hu with before | fires <;> rcases List.mem_append.1 hm with hm | hm
  · exact h.kept u before m' hm cancels
  · obtain rfl := List.mem_singleton.1 hm
    obtain ⟨m'', hm, fires⟩ := mem_fired.1 before
    exact once m'' hm u (.inl fires) cancels.waits
  · have waits : u ∈ m.world.host.timers := Machine.Drops.waits (.inl fires)
    exact once m' hm u (.inr cancels) waits
  · obtain rfl := List.mem_singleton.1 hm
    exact Machine.not_cancels_of_fires fires cancels

/-- A timer that waits at any moment of an advance still waits, or has fired, or has been cancelled. -/
theorem fate_step (h : Elapsed m₁ m limit base during) {m' : Machine κ σ} (hm : m' ∈ m₁ :: (during ++ [m]))
    (hu : u ∈ m'.world.host.timers) : u ∈ (m.step b).world.host.timers ∨ u ∈ fired (during ++ [m]) ∨
      ∃ m'' ∈ during ++ [m], m''.Cancels u := by
  have stay : u ∈ m.world.host.timers → u ∈ (m.step b).world.host.timers ∨ u ∈ fired (during ++ [m]) ∨
      ∃ m'' ∈ during ++ [m], m''.Cancels u := fun waits => by
    rcases Machine.timers_stay (b := b) waits with stays | fires | cancels
    · exact .inl stays
    · exact .inr (.inl (mem_fired_snoc.2 (.inr fires)))
    · exact .inr (.inr ⟨m, List.mem_append_right _ (List.mem_singleton.2 rfl), cancels⟩)
  rcases List.mem_append.1 (show m' ∈ (m₁ :: during) ++ [m] from hm) with hm | hm
  · rcases h.fate m' hm u hu with waits | before | ⟨m'', hm, cancels⟩
    · exact stay waits
    · exact .inr (.inl (mem_fired_snoc.2 (.inl before)))
    · exact .inr (.inr ⟨m'', List.mem_append_left _ hm, cancels⟩)
  · obtain rfl := List.mem_singleton.1 hm
    exact stay hu

/-- One more step of an advance. -/
theorem step (h : Elapsed m₁ m limit base during) (trail : Trail b m ms) (since : ∀ m' ∈ during, m' ∈ ms)
    (below : base.filterMap Activity.until? = m₁.advances)
    (plain : ∀ span, m.directive? ≠ some (.request (.drive (.advance span))))
    (stays : limit :: m₁.advances <:+ (m.step b).advances) :
    Elapsed m₁ (m.step b) limit base (during ++ [m]) := by
  have timely := trail.reachable.timely
  obtain ⟨goals, forward⟩ := Machine.advances_step timely h.goals plain stays
  -- A timer that was dropped inside the advance is gone for good, so none waits twice.
  have once : ∀ m' ∈ during, ∀ u, m'.Drops u → u ∉ m.world.host.timers := fun m' hm u drops waits =>
    (trail.dropped (since m' hm) drops).2 u waits rfl
  refine ⟨goals, ?_, ?_, fun u hu => ?_, fun u hu => h.past_step timely.timetable forward hu,
    fun u hu v hv => h.ahead_step timely.timetable trail.reachable.ordered hu hv,
    fun u hu m' hm => h.kept_step once hu hm, fun m' hm u hu => h.fate_step hm hu⟩
  · obtain ⟨top, stack⟩ := h.stack
    rw [fired_snoc, List.length_append]
    exact Machine.stack_step stack (below ▸ h.goals) (below ▸ goals)
  · rw [fired_snoc]
    refine List.pairwise_append.2 ⟨h.ordered, ?_, fun u hu v hv => ?_⟩
    · cases m.fires? with
      | none => exact .nil
      | some u => exact List.pairwise_singleton _ _
    · exact h.ahead u hu v (h.on_time b (Option.mem_toList.1 hv)).1
  · rcases mem_fired_snoc.1 hu with before | fires
    · exact h.due u before
    · exact (h.on_time b fires).2.1

end Elapsed

/-- What has come of the timers in the course of an advance inside which no other one is called for. -/
theorem Trail.elapsed (h : Trail b m ms) (under : Underway ms m m₁ span during)
    (plain : ∀ m' ∈ during, ∀ s, m'.directive? ≠ some (.request (.drive (.advance s))))
    (called : m₁.step b = ⟨m₁.world, .drive (.time (Time.later m₁.world.host.now span)) 0 :: base, none⟩)
    (below : base.filterMap Activity.until? = m₁.advances) :
    Elapsed m₁ m (Time.later m₁.world.host.now span) base during := by
  induction h generalizing during with
  | new config user code =>
    obtain ⟨past, since⟩ := under.since
    cases past <;> cases since
  | load code _ _ _ _ =>
    have stays := under.stays _ (List.mem_append_right _ (List.mem_singleton.2 rfl))
    exact absurd stays.length_le (Nat.not_succ_le_zero _)
  | @step m ms h ih =>
    obtain ⟨past, since⟩ := under.since
    have stays := under.stays _ (List.mem_append_right during (List.mem_singleton.2 rfl))
    -- The advance has been called for by the last machine, or before.
    rcases snoc_eq_append_cons since with ⟨rfl, rfl, rfl⟩ | ⟨during, rfl, before⟩
    · rw [called]
      refine ⟨congrArg (_ :: ·) below, ⟨[], rfl⟩, .nil, nofun, nofun, nofun, nofun, fun m' hm u hu => ?_⟩
      obtain rfl := List.mem_singleton.1 hm
      exact .inl hu
    · have first : Underway ms m m₁ span during :=
        ⟨⟨past, before⟩, under.call, fun m' hm => under.stays m' (List.mem_append_left _ hm)⟩
      have last := List.mem_append_right during (List.mem_singleton.2 (rfl : m = m))
      refine (ih first fun m' hm => plain m' (List.mem_append_left _ hm)).step h (fun m' hm => ?_) below
        (plain m last) stays
      rw [before]
      exact List.mem_append_right past (List.mem_cons_of_mem _ hm)

/-- The machine that calls for an advance, and what its step leads to. -/
theorem Machine.step_of_advance (top : m.directive? = some (.request (.drive (.advance span)))) :
    ∃ (α : Type) (fr : Frame κ σ α) (k : Nat → Procedure κ σ α) (s : List (Activity κ σ)),
      m.stack = fr.fill (.run (.op (.request (.drive (.advance span))) k)) :: s ∧
        m.step b = ⟨m.world, .drive (.time (Time.later m.world.host.now span)) 0 :: fr.fill (.await k) :: s, none⟩ ∧
        (fr.fill (.await k) :: s).filterMap Activity.until? = m.advances := by
  obtain ⟨α, w, fr, k, s, rfl⟩ := Machine.eq_of_directive? top
  refine ⟨α, fr, k, s, rfl, fr.step_fill w (.request (.drive (.advance span))) k s, ?_⟩
  exact (Activity.until?_skip (fr.until?_fill _) s).trans (Activity.until?_skip (fr.until?_fill _) s).symm

/-- The end of an advance inside which no other one has been called for. -/
theorem Elapsed.arrived (h : Elapsed m₁ m limit base during) (below : base.filterMap Activity.until? = m₁.advances)
    {goal : Nat} (arrives : m.arrives? = some goal) :
    goal = limit ∧ m.world.host.ticks = [] ∧ m.world.host.takeDue limit = none ∧
      m.step b = ⟨{ m.world with host := { m.world.host with now := limit } },
        Machine.resumeTop (fired during).length base, none⟩ := by
  obtain ⟨w, stack, f⟩ := m
  unfold Machine.arrives? at arrives
  split at arrives
  · next l n s hf hs =>
    obtain rfl : f = none := hf
    obtain rfl : stack = _ := hs
    split at arrives
    · next free =>
      obtain rfl := Option.some.inj arrives
      obtain ⟨idle, late⟩ := Bool.and_eq_true_iff.1 free
      have ticks : w.host.takeTick = none := Option.isNone_iff_eq_none.1 idle
      have timers : w.host.takeDue l = none := Option.isNone_iff_eq_none.1 late
      obtain ⟨rfl, outer⟩ := List.cons.inj h.goals
      obtain ⟨top, same⟩ := h.stack
      cases top with
      | nil =>
        obtain ⟨drive, rfl⟩ := List.cons.inj same
        obtain ⟨-, rfl⟩ := Activity.drive.inj drive
        exact ⟨rfl, Host.takeTick_eq_none.1 ticks, timers, (Machine.drive_arrives _ s ticks timers).1⟩
      | cons a top =>
        -- An advance above this one would have its goal on the stack.
        obtain ⟨-, rfl⟩ := List.cons.inj same
        have same : (top ++ .drive (.time l) (fired during).length :: base).filterMap Activity.until? =
            base.filterMap Activity.until? := outer.trans below.symm
        have length := congrArg List.length same
        simp only [List.filterMap_append, List.length_append, Activity.until?, List.filterMap_cons,
          List.length_cons] at length
        omega
    · cases arrives
  · cases arrives

end

/-! ### On time, in order, exactly once -/

/-- In an advance inside which no other one is called for, whatever else the ticks and the timers do, timers fire in
the order of their keys: by deadline, and at equal deadlines in the order in which they were set. Each fires when no
tick waits, in a world whose clock is at the deadline. A timer that waits at any moment from the call to the end of
the advance fires in its course if and only if it is due by the goal and is not cancelled. A timer that has fired or
has been cancelled is gone for good, so it does neither again, no timer gets its number, and no other one goes with
it; this holds along every run. When the advance comes to its end the code that has called for it goes on with the
number of timers that have fired; the clock is at the goal, no tick waits, and all timers lie behind the goal. Timers
are counted without a bound here. -/
theorem Trail.fires_in_order {m m₁ : Machine κ σ} {ms during : List (Machine κ σ)} {span limit : Nat}
    (h : Trail b m ms) (under : Underway ms m m₁ span during)
    (plain : ∀ m' ∈ during, ∀ s, m'.directive? ≠ some (.request (.drive (.advance s))))
    (arrives : m.arrives? = some limit) :
    ((fired during).Pairwise fun u v => u.key.Precedes v.key) ∧
    (∀ m' ∈ during, ∀ u, m'.fires? = some u → m'.world.host.ticks = [] ∧ ∃ us s,
      m'.world.host.timers = u :: us ∧ m'.step b =
        .fire { m'.world with host := { m'.world.host with timers := us, now := u.key.due } } s u.alarm) ∧
    (∀ m' ∈ m₁ :: (during ++ [m]), ∀ u ∈ m'.world.host.timers,
      u ∈ fired during ↔ u.key.due ≤ limit ∧ ∀ m'' ∈ during, ¬ m''.Cancels u) ∧
    (∀ past m' later, ms ++ [m] = past ++ m' :: later → ∀ u, m'.Drops u →
      (∀ v ∈ m'.world.host.timers, v ≠ u → v ∈ (m'.step b).world.host.timers) ∧
      ∀ m'' ∈ later, ¬ m''.Drops u ∧ ∀ v ∈ m''.world.host.timers, v.key.serial ≠ u.key.serial) ∧
    (∃ (α : Type) (fr : Frame κ σ α) (k : Nat → Procedure κ σ α) (s : List (Activity κ σ)),
      m₁.stack = fr.fill (.run (.op (.request (.drive (.advance span))) k)) :: s ∧
        (m.step b).stack = fr.fill (.run (k (fired during).length)) :: s ∧ (m.step b).fault = none) ∧
    limit = Time.later m₁.world.host.now span ∧ (m.step b).world.host.now = limit ∧
      (m.step b).world.host.ticks = [] ∧ ∀ u ∈ (m.step b).world.host.timers, limit < u.key.due := by
  obtain ⟨α, fr, k, s, stack, called, below⟩ := Machine.step_of_advance (b := b) under.call
  have elapsed := h.elapsed under plain called below
  obtain ⟨rfl, ticks, timers, ended⟩ := elapsed.arrived (b := b) below arrives
  rw [fr.resumeTop_fill] at ended
  have late := Host.ahead_of_takeDue h.reachable.timely.timetable.sorted timers
  refine ⟨elapsed.ordered, fun m' hm u fires => ?_, fun m' hm u waits => ⟨fun hu => ?_, ?_⟩,
    fun past m' later split u drops => ⟨fun v waits other => ?_, fun m'' hm => ?_⟩, ⟨α, fr, k, s, stack, ?_⟩,
    rfl, ?_⟩
  · obtain ⟨w, l, n, s, us, rfl, ticks, timers, due⟩ := Machine.of_fires fires
    exact ⟨ticks, us, _, timers, Machine.step_of_fires ticks timers due⟩
  · exact ⟨elapsed.due u hu, elapsed.kept u hu⟩
  · rintro ⟨due, kept⟩
    have fate : u ∈ m.world.host.timers ∨ u ∈ fired during ∨ ∃ m'' ∈ during, m''.Cancels u := by
      rcases List.mem_append.1 (show m' ∈ (m₁ :: during) ++ [m] from hm) with hm | hm
      · exact elapsed.fate m' hm u waits
      · exact .inl (List.mem_singleton.1 hm ▸ waits)
    rcases fate with waits | fires | ⟨m'', hm, cancels⟩
    · exact absurd due (Nat.not_le_of_lt (late u waits))
    · exact fires
    · exact absurd cancels (kept m'' hm)
  · have sound := (h.step.past split).reachable.timely.timetable
    exact (Machine.timers_stay waits).resolve_right fun drops' => other (drops'.unique sound drops)
  · obtain ⟨before, after, rfl⟩ := List.append_of_mem hm
    rw [← List.cons_append, ← List.append_assoc] at split
    have gone := (h.step.past split).dropped (List.mem_append_right past List.mem_cons_self) drops
    exact ⟨fun again => gone.2 u again.waits rfl, gone.2⟩
  · rw [ended]
    exact ⟨rfl, rfl⟩
  · rw [ended]
    exact ⟨rfl, ticks, late⟩

/-- User code that the host runs: some of it sets another timer without a delay. -/
def punctual : Behaviour Bool Unit :=
  { Behaviour.ofCallbacks fun _ v => .succeed v with
    thunk := fun again =>
      if again then (Code.ask (.delay 0 false)).bind fun _ => .ret () else .ret () }

/-- Two timers with one deadline, one that is cancelled, and one behind the goal of the advance. -/
def alarms : Machine Bool Unit :=
  let code : Code Bool Unit Unit :=
    (Code.ask (.delay 5 true)).bind fun _ =>
      (Code.ask (.delay 5 false)).bind fun _ =>
        (Code.ask (.delay 7 false)).bind fun key =>
          (Code.ask (.delay 20 false)).bind fun _ =>
            (Code.ask (.unset key)).bind fun _ =>
              (Code.ask (.drive (.advance 10))).bind fun _ => .ret ()
  .load (.new .standard ()) (Procedure.ofCode code)

/-- Of two timers with one deadline the first sets a third one, which fires last; the cancelled timer and the one
behind the goal do not fire. -/
theorem alarms_fire_in_order :
    (Machine.run punctual 16 alarms).arrives? = some 10 ∧
      (fired (Machine.passed punctual 10 (Machine.run punctual 6 alarms))).map Timer.key =
        [⟨5, 0⟩, ⟨5, 1⟩, ⟨5, 4⟩] ∧
      ((fired (Machine.passed punctual 10 (Machine.run punctual 6 alarms))).Pairwise fun u v =>
        u.key.Precedes v.key) ∧
      ∀ u ∈ ((Machine.run punctual 16 alarms).step punctual).world.host.timers, 10 < u.key.due := by
  have begin : Trail punctual alarms [] := .new _ _ _
  have inside : ∀ m ∈ Machine.passed punctual 10 (Machine.run punctual 6 alarms) ++
      [Machine.run punctual 16 alarms], m.advances = [10] := by decide
  have after : ∀ m ∈ Machine.passed punctual 10 (Machine.run punctual 6 alarms),
      (m.step punctual).advances = [10] := by decide
  have under : Underway ([] ++ Machine.passed punctual 16 alarms) (Machine.run punctual 16 alarms)
      (Machine.run punctual 5 alarms) 10 (Machine.passed punctual 10 (Machine.run punctual 6 alarms)) :=
    ⟨⟨Machine.passed punctual 5 alarms, rfl⟩, rfl, fun m hm => ⟨[], (inside m hm).symm⟩⟩
  have arrives : (Machine.run punctual 16 alarms).arrives? = some 10 := rfl
  have inOrder := (begin.run 16).fires_in_order under (fun m hm s top => ?_) arrives
  · exact ⟨arrives, rfl, inOrder.1, inOrder.2.2.2.2.2.2.2.2⟩
  · -- An advance that is called for would be under way after the step.
    obtain ⟨α, fr, k, rest, -, called, below⟩ := Machine.step_of_advance (b := punctual) top
    have deep : (m.step punctual).advances = Time.later m.world.host.now s :: m.advances := by
      rw [called]
      exact congrArg (_ :: ·) below
    rw [after m hm, inside m (List.mem_append_left _ hm)] at deep
    cases (List.cons.inj deep).2

end Actors
