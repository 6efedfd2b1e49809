/-
The lifetime of a process.

A process is alive from its start until it exits or is killed, and never again. Once it has come to its
end its root stays dead and its stack and mailbox stay empty; all that still happens to it is that
messages are dropped. None of its continuations is entered any more, and no binding of it is started.
What is under way at that moment runs to its end, and what it returns is thrown away.

* `Deeds.Ended`, `Deeds.Standing` — what can be read off the deeds of a process;
* `Machine.Starts`, `Machine.Ends` — the steps by which a process begins and ends, and
  `Trail.mem_processes`: the processes are those that have begun and not ended;
* `Transition.under_way` — what of a dead process can be under way;
* `Machine.step_kill` — what a kill changes;
* `Trail.lifetimes` — names, processes and deaths in every run.
-/
import Actors.Proofs.Allocation
import Actors.Proofs.Cancellation

namespace Actors

variable {κ σ α : Type} {b : Behaviour κ σ}

open World

/-! ### The end in the life of a process -/

/-- A process has been killed, or has exited. -/
def Deed.Ends : Deed κ → Prop
  | .killed => True
  | .moved mv => mv.outcome?.isSome = true
  | _ => False

/-- Whether a process has come to its end. -/
def Deeds.Ended (ds : Deeds κ) : Prop :=
  ∃ d ∈ ds, d.Ends

theorem Deeds.ended_snoc {ds : Deeds κ} {d : Deed κ} :
    Deeds.Ended (ds ++ [d]) ↔ ds.Ended ∨ d.Ends := by
  simp [Ended, or_and_right, exists_or]

/-- The state of a process, as far as its deeds tell whether it has come to its end. -/
structure Deeds.Standing (ds : Deeds κ) (o : Option (Proc κ)) : Prop where
  fresh : o = none → ¬ ds.Ended
  dead : ∀ x ∈ o, x.root = .dead ↔ ds.Ended
  empty : ∀ x ∈ o, x.root = .dead → x.stack = [] ∧ x.mailbox = []

/-- A process is dead after a transition exactly if it exits by it, and then nothing is left of it. -/
theorem Proc.Moves.dead_iff {x y : Proc κ} {mv : Move κ} (h : x.Moves mv y) :
    (y.root = .dead ↔ mv.outcome?.isSome = true) ∧
      (y.root = .dead → y.stack = [] ∧ y.mailbox = []) := by
  cases h with
  | outcome o =>
    cases hn : Handler.next o x.stack with
    | none =>
      refine ⟨iff_of_true rfl ?_, fun _ => ⟨rfl, rfl⟩⟩
      cases o <;> rfl
    | some e =>
      refine ⟨iff_of_false nofun ?_, nofun⟩
      cases o <;> exact Bool.false_ne_true
  | push pushes =>
    refine ⟨iff_of_false nofun ?_, nofun⟩
    cases pushes <;> exact Bool.false_ne_true
  | receive c mail => exact ⟨iff_of_false nofun Bool.false_ne_true, nofun⟩
  | native g => exact ⟨iff_of_false nofun Bool.false_ne_true, nofun⟩

namespace Deeds.Standing

variable {ds : Deeds κ} {o o' : Option (Proc κ)} {d : Deed κ}

/-- A process that is alive goes on, or comes to its end. -/
theorem alive {y : Proc κ} (h : ¬ ds.Ended) (dead : y.root = .dead ↔ d.Ends)
    (empty : y.root = .dead → y.stack = [] ∧ y.mailbox = []) :
    Deeds.Standing (ds ++ [d]) (some y) := by
  refine ⟨nofun, fun z hz => ?_, fun z hz => ?_⟩
  · obtain rfl := Option.some.inj hz
    rw [ended_snoc, dead, or_iff_right h]
  · obtain rfl := Option.some.inj hz
    exact empty

/-- Every deed keeps it. -/
theorem leads (h : ds.Standing o) (hd : d.Leads o o') : Deeds.Standing (ds ++ [d]) o' := by
  -- A process that does anything but drop a message is alive before, so it cannot have come to
  -- its end.
  cases hd with
  | spawned t => exact alive (h.fresh rfl) (iff_of_false nofun id) nofun
  | @sent x v alive =>
    have live : x.root ≠ .dead := fun hr => by
      rw [Proc.isDead_iff.2 hr] at alive
      cases alive
    have going : ¬ ds.Ended := fun ended => live ((h.dead x rfl).2 ended)
    exact Standing.alive going (iff_of_false live id) fun hr => absurd hr live
  | dropped v dead =>
    have same : Deeds.Ended (ds ++ [.dropped v]) ↔ ds.Ended := ended_snoc.trans (or_iff_left id)
    refine ⟨fun ho => ?_, fun x hx => ?_, h.empty⟩
    · rw [same]
      exact h.fresh ho
    · rw [same]
      exact h.dead x hx
  | @killed x alive =>
    have going : ¬ ds.Ended := fun ended => by
      rw [Proc.isDead_iff.2 ((h.dead x rfl).2 ended)] at alive
      cases alive
    exact Standing.alive going (iff_of_true rfl trivial) fun _ => ⟨rfl, rfl⟩
  | @completed x n c t awaiting =>
    have going : ¬ ds.Ended := fun ended => by
      rw [(h.dead x rfl).2 ended] at awaiting
      cases awaiting
    exact Standing.alive going (iff_of_false nofun id) nofun
  | @moved x mv can =>
    have going : ¬ ds.Ended := fun ended => by
      have root := Proc.root_of_move? can
      rw [(h.dead x rfl).2 ended] at root
      cases root
    obtain ⟨dead, empty⟩ := (Proc.moves can).dead_iff
    exact Standing.alive going dead empty
  | @returned x t stepping =>
    have going : ¬ ds.Ended := fun ended => by
      rw [(h.dead x rfl).2 ended] at stepping
      cases stepping
    exact Standing.alive going (iff_of_false nofun id) nofun

end Deeds.Standing

theorem Life.standing {ds : Deeds κ} {o : Option (Proc κ)} (l : Life none ds o) :
    ds.Standing o := by
  induction l with
  | refl => exact ⟨fun _ ⟨_, hd, _⟩ => List.not_mem_nil hd, nofun, nofun⟩
  | snoc _ hd ih => exact ih.leads hd

/-- Messages to a process that is dead are dropped, and nothing else is done to it. -/
theorem Life.of_dead {x : Proc κ} {ds : Deeds κ} {o : Option (Proc κ)} (l : Life (some x) ds o)
    (dead : x.root = .dead) : o = some x ∧ ∀ d ∈ ds, ∃ v, d = .dropped v := by
  induction l with
  | refl => exact ⟨rfl, nofun⟩
  | @snoc o₁ o₂ ds d l hd ih =>
    obtain ⟨rfl, dropped⟩ := ih
    have alive : ¬ x.isDead = false := by simp [Proc.isDead_iff.2 dead]
    have last : o₂ = some x ∧ ∃ v, d = .dropped v := by
      cases hd with
      | dropped v => exact ⟨rfl, v, rfl⟩
      | sent v h => exact absurd h alive
      | killed h => exact absurd h alive
      | completed t h => rw [dead] at h; cases h
      | moved h => have root := Proc.root_of_move? h; rw [dead] at root; cases root
      | returned t h => rw [dead] at h; cases h
    refine ⟨last.1, fun d' hd' => ?_⟩
    rcases List.mem_append.1 hd' with hd' | hd'
    · exact dropped d' hd'
    · rw [List.mem_singleton.1 hd']
      exact last.2

/-! ### Runs -/

/-- The next step ends a process: it is killed, or it exits. -/
def Machine.Ends (m : Machine κ σ) (p : Pid) : Prop :=
  ∃ d, (p, d) ∈ m.record ∧ d.Ends

/-- The next step starts a process. -/
def Machine.Starts (m : Machine κ σ) (p : Pid) : Prop :=
  ∃ t, (p, .spawned t) ∈ m.record

namespace Trail

variable {m : Machine κ σ} {ms : List (Machine κ σ)} {p : Pid}

theorem ended_iff : Deeds.Ended (Record.of (ms.flatMap Machine.record) p) ↔ ∃ m ∈ ms, m.Ends p := by
  constructor
  · rintro ⟨d, hd, ends⟩
    obtain ⟨m, hm, hr⟩ := List.mem_flatMap.1 (Record.mem_of.1 hd)
    exact ⟨m, hm, d, hr, ends⟩
  · rintro ⟨m, hm, d, hr, ends⟩
    exact ⟨d, Record.mem_of.2 (List.mem_flatMap.2 ⟨m, hm, hr⟩), ends⟩

/-- A process that has come to its end is dead, and its stack and mailbox are empty. -/
theorem dead (h : Trail b m ms) (ended : ∃ m ∈ ms, m.Ends p) :
    ∃ x, m.world.procs.get? p = some x ∧ x.root = .dead ∧ x.stack = [] ∧ x.mailbox = [] := by
  have standing := (h.history.life p).standing
  have ended := ended_iff.2 ended
  cases hx : m.world.procs.get? p with
  | none =>
    have gone : m.world.bare p = none := by rw [World.bare, hx, Option.map_none]
    exact absurd ended (standing.fresh gone)
  | some x =>
    have there := World.bare_of_get? hx
    have root := (standing.dead _ there).2 ended
    have empty := standing.empty _ there root
    exact ⟨x, rfl, Root.bare_eq_dead.1 root, empty.1, empty.2⟩

theorem isAlive_of_ended (h : Trail b m ms) (ended : ∃ m ∈ ms, m.Ends p) :
    m.world.procs.isAlive p = false := by
  obtain ⟨x, hx, root, -⟩ := h.dead ended
  rw [isAlive_of_get? hx, Proc.isDead_iff.2 root]
  rfl

/-- All that a step still does to it is to drop a message. -/
theorem dropped_of_ended (h : Trail b m ms) (ended : ∃ m ∈ ms, m.Ends p) {d : Deed κ}
    (hd : (p, d) ∈ m.record) : ∃ v, d = .dropped v := by
  obtain ⟨x, hx, root, -⟩ := h.dead ended
  have life := (Machine.transition b m).life h.reachable.sound p
  rw [World.bare_of_get? hx] at life
  exact (life.of_dead (Root.bare_eq_dead.2 root)).2 d (Record.mem_of.2 hd)

/-- The processes are those that have been started, and have not come to their end. -/
theorem mem_processes (h : Trail b m ms) :
    p ∈ m.world.processes ↔ (∃ m ∈ ms, m.Starts p) ∧ ∀ m ∈ ms, ¬ m.Ends p := by
  have life := h.history.life p
  have standing := life.standing
  rw [World.processes, ProcTable.mem_alive]
  constructor
  · intro alive
    -- Alive: a start is found as nothing is there without one, and an end would have left it
    -- dead.
    obtain ⟨x, hx, live⟩ := ProcTable.isAlive_iff.1 alive
    have there := World.bare_of_get? hx
    refine ⟨Classical.byContradiction fun never => ?_, fun m hm ends => ?_⟩
    · have fresh := life.eq_none fun t ht => by
        obtain ⟨m, hm, hr⟩ := List.mem_flatMap.1 (Record.mem_of.1 ht)
        exact never ⟨m, hm, t, hr⟩
      rw [there] at fresh
      cases fresh
    · have dead := h.isAlive_of_ended ⟨m, hm, ends⟩
      rw [alive] at dead
      cases dead
  · rintro ⟨⟨m₁, hm, t, hr⟩, going⟩
    have started : .spawned t ∈ Record.of (ms.flatMap Machine.record) p :=
      Record.mem_of.2 (List.mem_flatMap.2 ⟨m₁, hm, hr⟩)
    cases hx : m.world.procs.get? p with
    | none =>
      have gone : m.world.bare p = none := by rw [World.bare, hx, Option.map_none]
      exact absurd started (life.spawned_unique.1 gone t)
    | some x =>
      -- A dead process has come to its end at some step, by what is read off its deeds.
      refine ProcTable.isAlive_iff.2 ⟨x, hx, Bool.eq_false_iff.2 fun dead => ?_⟩
      have root : x.bare.root = .dead := Root.bare_eq_dead.2 (Proc.isDead_iff.1 dead)
      obtain ⟨m, hm, ends⟩ := ended_iff.1 ((standing.dead _ (World.bare_of_get? hx)).1 root)
      exact going m hm ends

end Trail

/-- The processes are listed in ascending order. -/
theorem World.pairwise_processes (w : World κ σ) :
    w.processes.Pairwise fun p q => p.number < q.number := by
  have numbers : ((List.range w.procs.slots.size).map Pid.mk).Pairwise
      fun p q => p.number < q.number :=
    List.pairwise_map.2 List.pairwise_lt_range
  exact numbers.sublist List.filter_sublist

/-! ### What of a process is under way -/

/-- The process of which a continuation runs, or a binding is being started. -/
def Activity.concerns? : Activity κ σ → Option Pid
  | .tick _ _ (.callback p _) => some p
  | .tick _ _ (.starting p _) => some p
  | _ => none

/-- The code of a process that is under way, on top of a stack, returns. -/
inductive Activity.Returns (p : Pid) : Activity κ σ → Prop where
  | callback (n k : Nat) (t : Task κ) : Returns p (.tick n k (.callback p (.run (.ret t))))
  | starting (n k : Nat) (u : Unit) : Returns p (.tick n k (.starting p (.run (.ret u))))

/-- How many pieces of code of a process are under way. -/
def Activity.under (p : Pid) (s : List (Activity κ σ)) : Nat :=
  s.countP fun a => a.concerns? = some p

namespace Activity

variable {p : Pid} {a a' : Activity κ σ} {s : List (Activity κ σ)}

theorem under_skip (h : a.concerns? ≠ some p) : under p (a :: s) = under p s :=
  List.countP_cons_of_neg fun hp => h (of_decide_eq_true hp)

theorem under_like (h : a'.concerns? = a.concerns?) : under p (a' :: s) = under p (a :: s) := by
  rw [under, under, List.countP_cons, List.countP_cons, h]

theorem concerns?_resume (n : Nat) (a : Activity κ σ) : (a.resume n).concerns? = a.concerns? := by
  unfold resume
  split <;> rfl

theorem under_resumeTop (n : Nat) (s : List (Activity κ σ)) :
    under p (Machine.resumeTop n s) = under p s := by
  cases s with
  | nil => rfl
  | cons a s => exact under_like (concerns?_resume n a)

end Activity

theorem Frame.concerns?_fill (fr : Frame κ σ α) (c c' : Pending κ σ α) :
    (fr.fill c).concerns? = (fr.fill c').concerns? := by
  cases fr <;> rfl

open Activity

/-- Unless a process makes a transition, or its code under way returns, a step leaves what of it is
under way. -/
theorem Transition.under_way {m m' : Machine κ σ} {r : Record κ} (tr : Transition b m r m') {p : Pid}
    (going : m'.fault = none) (idle : ∀ mv, (p, .moved mv) ∉ r) :
    under p m'.stack = under p m.stack ∨ ∃ a s, m.stack = a :: s ∧ a.Returns p := by
  -- Moves of other processes are all that may be recorded, as this one is idle.
  have other : ∀ {q : Pid} {mv : Move κ}, (∀ mv', (p, .moved mv') ∉ [(q, Deed.moved mv)]) →
      some q ≠ some p := by
    rintro q mv none hq
    obtain rfl := Option.some.inj hq
    exact none mv (List.mem_singleton.2 rfl)
  have pop : ∀ {a : Activity κ σ} {s : List (Activity κ σ)}, a.concerns? = none →
      under p s = under p (a :: s) := fun ha => (under_skip (by simp [ha])).symm
  have swap : ∀ {a a' : Activity κ σ} {s : List (Activity κ σ)}, a.concerns? ≠ some p →
      a'.concerns? ≠ some p → under p (a' :: s) = under p (a :: s) := fun ha ha' =>
    (under_skip ha').trans (under_skip ha).symm
  cases tr with
  | rest => exact .inl rfl
  | code fr hd => exact .inl (under_like (fr.concerns?_fill _ _))
  | driving fr hd => exact .inl ((pop rfl).symm.trans (under_like (fr.concerns?_fill _ _)))
  | broken => cases going
  | finished => exact .inl (pop rfl)
  | ended => exact .inl (pop rfl)
  | entered => exact .inl (swap nofun (other idle))
  | started => exact .inl (swap nofun (other idle))
  -- Code under way that returns is the exception asked for if it is this process's own.
  | @returned w w' s n k q x t =>
    by_cases hq : q = p
    · subst hq
      exact .inr ⟨_, s, rfl, .callback n k t⟩
    · exact .inl (swap (fun h => hq (Option.some.inj h)) nofun)
  | @ignored w s n k q t =>
    by_cases hq : q = p
    · subst hq
      exact .inr ⟨_, s, rfl, .callback n k t⟩
    · exact .inl (swap (fun h => hq (Option.some.inj h)) nofun)
  | @launched w s n k q u =>
    by_cases hq : q = p
    · subst hq
      exact .inr ⟨_, s, rfl, .starting n k u⟩
    · exact .inl (swap (fun h => hq (Option.some.inj h)) nofun)
  | pumped => exact .inl ((pop rfl).symm.trans (swap nofun nofun))
  | thunk => exact .inl ((pop rfl).symm.trans (swap nofun nofun))
  | driven => exact .inl ((under_resumeTop _ _).trans (pop rfl))
  | _ => exact .inl (swap nofun nofun)

/-- What the code of a dead process returns is thrown away. -/
theorem Activity.Returns.step_of_dead {w : World κ σ} {a : Activity κ σ} {s : List (Activity κ σ)}
    {p : Pid} (h : a.Returns p) (dead : w.procs.isAlive p = false) :
    ∃ n k, Machine.record ⟨w, a :: s, none⟩ = [] ∧
      Machine.step b ⟨w, a :: s, none⟩ = ⟨w, .tick n k .seek :: s, none⟩ := by
  cases h with
  | callback n k t =>
    refine ⟨chargeTurn n, k, ?_, ?_⟩
    · simp [Machine.record, Activity.record, dead]
    · simp [Machine.step, Machine.stepTop, Machine.endCallback, Machine.endTurn, dead]
  | starting n k u => exact ⟨chargeTurn n, k, rfl, rfl⟩

/-! ### Killing -/

/-- Killing a process changes nothing but the process and the journal. -/
theorem World.kill_spares (w : World κ σ) (p : Pid) :
    ∃ procs journal, (w.kill p).1 = { w with procs := procs, journal := journal } ∧
      procs.nextNumber = w.procs.nextNumber ∧ ∀ q, q ≠ p → procs.get? q = w.procs.get? q := by
  cases ha : w.procs.isAlive p with
  | false =>
    rw [kill_of_dead ha]
    exact ⟨_, _, rfl, rfl, fun _ _ => rfl⟩
  | true =>
    obtain ⟨x, hx, alive⟩ := ProcTable.isAlive_iff.1 ha
    rw [kill_of_alive hx alive]
    refine ⟨w.procs.set p x.killed, _, rfl, ProcTable.nextNumber_set _ _ _, fun q hq => ?_⟩
    rw [ProcTable.get?_set _ (ProcTable.number_lt_of_get? hx), if_neg hq]

/-- To kill a process is to change this process, and to remove the timer that would wake it. What
else calls its binding off is run behind that. -/
theorem Machine.step_kill {m : Machine κ σ} {p : Pid}
    (h : m.directive? = some (.request (.kill p))) :
    ∃ procs host journal, (m.step b).world =
        { m.world with procs := procs, host := host, journal := journal } ∧
      procs.nextNumber = m.world.procs.nextNumber ∧
      (∀ q, q ≠ p → procs.get? q = m.world.procs.get? q) ∧
      (host = m.world.host ∨ ∃ k, m.calledOff? = some (.timer k) ∧
        host = m.world.host.unsetWake k) := by
  obtain ⟨α, w, fr, k, s, rfl⟩ := Machine.eq_of_directive? h
  rw [fr.calledOff?_fill, fr.step_op]
  cases here : w.reachable with
  | false =>
    have hd : Directive.step b w (.request (.kill p)) k = .next w (k ()) :=
      if_neg (Bool.eq_false_iff.1 here)
    rw [Machine.stepCode, hd]
    exact ⟨_, _, _, rfl, rfl, fun _ _ => rfl, .inl rfl⟩
  | true =>
    have hd : Directive.step b w (.request (.kill p)) k =
        Progress.callOff (w.kill p).1 (w.kill p).2 (k ()) := if_pos here
    have off : Directive.calledOff? w (.request (.kill p)) = (w.kill p).2 := if_pos here
    obtain ⟨procs, journal, killed, names, others⟩ := w.kill_spares p
    rw [Machine.stepCode, hd, off, killed]
    -- What is called off besides a timer is run behind the step, so the world has nothing of it
    -- yet.
    cases hc : (w.kill p).2 with
    | none => exact ⟨procs, w.host, journal, rfl, names, others, .inl rfl⟩
    | some c =>
      cases c with
      | thunk c => exact ⟨procs, w.host, journal, rfl, names, others, .inl rfl⟩
      | timer key =>
        exact ⟨procs, w.host.unsetWake key, journal, rfl, names, others, .inr ⟨key, rfl, rfl⟩⟩

/-! ### Runs as a whole -/

/-- What there is, dead or alive, is not started. -/
theorem Life.not_spawned {x : Proc κ} {ds : Deeds κ} {o : Option (Proc κ)} (l : Life (some x) ds o) :
    o ≠ none ∧ ∀ t, .spawned t ∉ ds := by
  induction l with
  | refl => exact ⟨nofun, fun _ => List.not_mem_nil⟩
  | @snoc o₁ o₂ ds d l hd ih =>
    obtain ⟨there, none⟩ := ih
    have last : o₂ ≠ .none ∧ ∀ t, d ≠ .spawned t := by
      cases hd with
      | spawned t => exact absurd rfl there
      | dropped v dead => exact ⟨there, nofun⟩
      | _ => exact ⟨nofun, nofun⟩
    refine ⟨last.1, fun t ht => ?_⟩
    rcases List.mem_append.1 ht with ht | ht
    · exact none t ht
    · exact last.2 t (List.mem_singleton.1 ht).symm

namespace Trail

variable {m : Machine κ σ} {ms : List (Machine κ σ)} {p : Pid}

/-- A process that is started has not been started before. -/
theorem starts_once (h : Trail b m ms) (starts : m.Starts p) : ∀ m₁ ∈ ms, ¬ m₁.Starts p := by
  rintro m₁ hm ⟨t, ht⟩
  obtain ⟨u, hu⟩ := starts
  have there := Record.mem_of.2 (List.mem_flatMap.2 ⟨m₁, hm, ht⟩)
  have life := (Machine.transition b m).life h.reachable.sound p
  cases hx : m.world.bare p with
  | none => exact (h.history.life p).spawned_unique.1 hx t there
  | some x =>
    rw [hx] at life
    exact life.not_spawned.2 u (Record.mem_of.2 hu)

/-- The start function of a binding is entered only as long as its process has not come to its
end. -/
theorem not_ended_of_start (h : Trail b m ms) {c : κ} {t : Ticket}
    (hc : m.call? = some (.start c t)) : ∀ m₁ ∈ ms, ¬ m₁.Ends t.pid := by
  have loaded : ∀ (w : World κ σ) (code : Code κ σ Unit),
      (Machine.load w (Procedure.ofCode code)).call? ≠ some (.start c t) := by
    intro w code hc
    have none := Machine.start?_load w code
    rw [Machine.start?, hc] at none
    cases none
  cases h with
  | new config user code => exact absurd hc (loaded _ code)
  | load code => exact absurd hc (loaded _ code)
  | @step m ms h =>
    -- The binding has been begun by the last step, which a dead process does not make.
    obtain ⟨-, e, record⟩ := h.reachable.begins_of_start hc
    intro m₁ hm ends
    rcases List.mem_append.1 hm with hm | hm
    · obtain ⟨v, hv⟩ := h.dropped_of_ended ⟨m₁, hm, ends⟩ (record ▸ List.mem_singleton.2 rfl)
      cases hv
    · obtain rfl := List.mem_singleton.1 hm
      obtain ⟨d, hd, ends⟩ := ends
      rw [record] at hd
      obtain rfl := (Prod.mk.inj (List.mem_singleton.1 hd)).2
      cases ends

/-- Once a process has come to its end a step does not begin anything of it. What is under way goes
on, and when it returns, then nothing is done. -/
theorem step_of_ended (h : Trail b m ms) (ended : ∃ m₁ ∈ ms, m₁.Ends p)
    (going : (m.step b).fault = none) :
    Activity.under p (m.step b).stack = Activity.under p m.stack ∨
      ∃ a s n k, m.stack = a :: s ∧ a.Returns p ∧ m.record = [] ∧
        m.step b = ⟨m.world, .tick n k .seek :: s, none⟩ := by
  have idle : ∀ mv, (p, .moved mv) ∉ m.record := by
    intro mv hm
    obtain ⟨v, hv⟩ := h.dropped_of_ended ended hm
    cases hv
  have dead := h.isAlive_of_ended ended
  refine ((Machine.transition b m).under_way going idle).imp_right ?_
  rintro ⟨a, s, hs, returns⟩
  obtain ⟨w, stack, fault⟩ := m
  subst hs
  cases fault with
  | some f => cases going
  | none =>
    obtain ⟨n, k, quiet, next⟩ := returns.step_of_dead (b := b) (s := s) dead
    exact ⟨a, s, n, k, rfl, returns, quiet, next⟩

/-- In every run the numbers are handed out in their order, and a process is started once, under a
name that has been handed out. So a run stops because a name is taken only if user code says so by
itself. The processes, in ascending order, are those that have been started and have not come to
their end; one that has come to its end is dead for good, with nothing left of it, and from then on
none of its continuations and of its starts is entered: messages are dropped, what is under way goes
on, and when it returns, then nothing is done. To kill a process is to change this process only, and
to remove the timer that would wake it. -/
theorem lifetimes (h : Trail b m ms) :
    (∃ n, ms.filterMap Machine.reserved? = (List.range' 1 n).map Pid.mk) ∧
    (∀ p, m.Starts p →
      p ∈ (ms ++ [m]).filterMap Machine.reserved? ∧ ∀ m₁ ∈ ms, ¬ m₁.Starts p) ∧
    (∀ p, m.fault = none → (m.step b).fault = some (.duplicatePid p) →
      ∃ (α : Type) (fr : Frame κ σ α) (s : List (Activity κ σ)),
        m.stack = fr.fill (.run (.raise (.duplicatePid p))) :: s) ∧
    m.world.processes.Pairwise (fun p q => p.number < q.number) ∧
    (∀ p, p ∈ m.world.processes ↔ (∃ m₁ ∈ ms, m₁.Starts p) ∧ ∀ m₁ ∈ ms, ¬ m₁.Ends p) ∧
    (∀ p, (∃ m₁ ∈ ms, m₁.Ends p) →
      (∃ x, m.world.procs.get? p = some x ∧ x.root = .dead ∧ x.stack = [] ∧ x.mailbox = []) ∧
      m.world.isAlive p = false ∧
      (∀ d, (p, d) ∈ m.record → ∃ v, d = .dropped v) ∧
      (∀ c t, m.call? = some (.start c t) → t.pid ≠ p) ∧
      ((m.step b).fault = none →
        Activity.under p (m.step b).stack = Activity.under p m.stack ∨
          ∃ a s n k, m.stack = a :: s ∧ a.Returns p ∧ m.record = [] ∧
            m.step b = ⟨m.world, .tick n k .seek :: s, none⟩)) ∧
    (∀ p, m.directive? = some (.request (.kill p)) →
      ∃ procs host journal, (m.step b).world =
          { m.world with procs := procs, host := host, journal := journal } ∧
        procs.nextNumber = m.world.procs.nextNumber ∧
        (∀ q, q ≠ p → procs.get? q = m.world.procs.get? q) ∧
        (host = m.world.host ∨ ∃ k, m.calledOff? = some (.timer k) ∧
          host = m.world.host.unsetWake k)) := by
  refine ⟨⟨_, h.reserved.2⟩, fun p starts => ⟨?_, h.starts_once starts⟩,
    fun p => h.reachable.raises_of_duplicatePid, World.pairwise_processes _,
    fun p => h.mem_processes, fun p ended => ⟨h.dead ended, ?_, fun d => h.dropped_of_ended ended,
      ?_, h.step_of_ended ended⟩, fun p => Machine.step_kill⟩
  · obtain ⟨t, ht⟩ := starts
    exact h.reserved_of_spawned ht
  · rw [World.isAlive, h.isAlive_of_ended ended, Bool.and_false]
  · rintro c t hc rfl
    obtain ⟨m₁, hm, ends⟩ := ended
    exact h.not_ended_of_start hc m₁ hm ends

end Trail

/-- A start function that kills its process, and sends it a message after that. -/
def forlorn : Behaviour Unit Unit :=
  startingWith fun t =>
    (Code.ask (.kill t.pid)).bind fun _ => Code.ask (.send t.pid .unit)

/-- Such a process, and one that waits for a message. -/
def bereft : Machine Unit Unit :=
  let code : Code Unit Unit Unit :=
    (Code.ask (.spawn (.native (.code ())))).bind fun _ =>
      (Code.ask (.spawn (.receive (.code ())))).bind fun _ =>
        (Code.ask (.drive .idle)).bind fun _ => .ret ()
  .load (.new .standard ()) (Procedure.ofCode code)

/-- The first process is killed while its binding is being started, and the second one is left. -/
theorem forlorn_in_step :
    (∃ m₁ ∈ Machine.passed forlorn 30 bereft, m₁.Ends ⟨1⟩) ∧
      (Machine.passed forlorn 30 bereft).filterMap Machine.reserved? = [⟨1⟩, ⟨2⟩] ∧
      (Machine.run forlorn 30 bereft).world.processes = [⟨2⟩] ∧
      ∃ x, (Machine.run forlorn 30 bereft).world.procs.get? ⟨1⟩ = some x ∧ x.root = .dead ∧
        x.stack = [] ∧ x.mailbox = [] := by
  have begin : Trail forlorn bereft [] := .new _ _ _
  have h : Trail forlorn (Machine.run forlorn 30 bereft) (Machine.passed forlorn 30 bereft) :=
    begin.run 30
  obtain ⟨-, -, -, -, present, gone, -⟩ := h.lifetimes
  have deeds : Record.of ((Machine.passed forlorn 30 bereft).flatMap Machine.record) ⟨1⟩ =
      [.spawned (.native (.code ())), .moved ⟨.native (.code ()), none⟩, .killed, .dropped .unit] :=
    rfl
  have ended : ∃ m₁ ∈ Machine.passed forlorn 30 bereft, m₁.Ends ⟨1⟩ :=
    Trail.ended_iff.1 ⟨.killed, by rw [deeds]; simp, trivial⟩
  exact ⟨ended, rfl, rfl, (gone ⟨1⟩ ended).1⟩

end Actors
