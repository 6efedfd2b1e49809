/-
What a step is to the bindings.

Every step of a machine changes the account of every process in one of the ways of an affair, with
the incidents that the step is to the bindings of this process. Most steps change no account at all;
those that do complete a binding, kill a process, hand in what calls a binding off, or let a process
go on in a tick.

* `World.affair_resume`, `World.affair_kill`, `World.affair_attach` — what changes of a world are to
  the bindings;
* `Directive.affair` — what the directives of code are to them;
* `Transition.affair` — every step changes every account in one of the ways of an affair.
-/
import Actors.Proofs.Account
import Actors.Proofs.Proper

namespace Actors

variable {κ σ α : Type} {b : Behaviour κ σ}

open World

/-! ### What a world's changes do to an account -/

namespace World

variable {w w' : World κ σ} {p q : Pid} {x y : Proc κ} {free : Prop}

theorem incidents_one (w : World κ σ) (q : Pid) (d : Deed κ) (p : Pid) :
    w.incidents [(q, d)] none p = if q = p then w.befalls q d else [] := by
  rw [incidents, Record.of_singleton]
  split
  · next hq =>
    subst hq
    simp
  · simp

/-- Most deeds are nothing to any binding. -/
theorem incidents_of_trivial {d : Deed κ} (h : ∀ x : Proc κ, x.incidents d = []) (w : World κ σ)
    (q p : Pid) : w.incidents [(q, d)] none p = [] := by
  rw [incidents_one, befalls]
  split
  · cases w.procs.get? q with
    | none => rfl
    | some x => exact h x
  · rfl

theorem incidents_handed (w : World κ σ) (t : Ticket) (c : Cancel κ) (p : Pid) :
    w.incidents [] (some (t, c)) p = w.handing p (t, c) := by
  simp [incidents]

theorem handing_other (w : World κ σ) {o : Ticket × Cancel κ} (h : o.1.pid ≠ p) :
    w.handing p o = [] := by
  unfold handing
  split
  · exact if_neg h
  · rfl

theorem affair_of_same (h : ∀ q, w'.standing q = w.standing q)
    (lost : ∀ t, w'.unused t ≤ w.unused t) :
    Affair free (w.account p) [] (w'.account p) :=
  .idle (h p) fun _ => lost _

/-- A change beside the processes that leaves tickets and timers alone. -/
theorem affair_of_beside (h : ∀ q, w'.standing q = w.standing q)
    (beside : w'.surroundings = w.surroundings) :
    Affair free (w.account p) [] (w'.account p) :=
  affair_of_same h fun t => Nat.le_of_eq (unused_of_surroundings beside t)

/-- A deed done to one process is an affair of this process only. -/
theorem affair_one {d : Deed κ} (hx : w.procs.get? q = some x)
    (other : ∀ p, p ≠ q → w'.standing p = w.standing p)
    (lost : ∀ t, t.pid ≠ q → w'.unused t ≤ w.unused t)
    (self : Affair free (w.account q) (x.incidents d) (w'.account q)) (p : Pid) :
    Affair free (w.account p) (w.incidents [(q, d)] none p) (w'.account p) := by
  rw [incidents_one]
  split
  · next hq =>
    subst hq
    rw [befalls, hx]
    exact self
  · next hq => exact .idle (other p (Ne.symm hq)) fun n => lost _ (Ne.symm hq)

/-- When a task becomes the root of the process that awaits a binding, this binding is completed. -/
theorem affair_completed {k : Nat} {c : Option (Cancel κ)} {task : Task κ}
    (hx : w.procs.get? q = some x) (awaiting : x.root = .awaiting k c)
    (self : w'.standing q = some (.ready task, x.binding))
    (other : ∀ p, p ≠ q → w'.standing p = w.standing p)
    (used : ∀ t, w'.unused t + (if t = ⟨q, k⟩ then 1 else 0) ≤ w.unused t) (p : Pid) :
    Affair free (w.account p) (w.incidents [(q, .completed task)] none p) (w'.account p) := by
  have before : w.standing q = some (.awaiting k c, x.binding) := by
    rw [standing_of_get? hx, awaiting]
  refine affair_one hx other (fun t _ => ?_) (.completed before self fun i => ?_) p
  · have := used t
    omega
  · have less := used ⟨q, i⟩
    simp only [Ticket.mk.injEq, true_and] at less
    exact less

/-- A ticket is used up by making a task the root of the process that awaits its binding. -/
theorem affair_resume (w₀ : World κ σ) {t : Ticket} {task : Task κ}
    (h : w.resume t task = .ok w') (procs : w.procs = w₀.procs)
    (used : ∀ t', w.unused t' + (if t' = t then 1 else 0) ≤ w₀.unused t') (p : Pid) :
    Affair free (w₀.account p) (w₀.incidents (w.resumed t task) none p) (w'.account p) := by
  have same : ∀ q, w.standing q = w₀.standing q := standing_of_procs procs
  have tickets : ∀ t', w'.unused t' = w.unused t' := unused_of_surroundings (surroundings_resume h)
  have how := w.resumes t task
  rw [h] at how
  generalize w.resumed t task = r at how ⊢
  cases how with
  | completed hx awaiting put beside =>
    refine affair_completed (procs ▸ hx) awaiting ?_ (fun q hq => ?_) (fun t' => ?_) p
    · rw [standing_enqueue, put.standing_self]
    · rw [standing_enqueue, put.standing_other hq, same]
    · rw [tickets]
      exact used t'
  | discarded gone agree beside =>
    refine affair_of_same (fun q => (agree.standing q).trans (same q)) fun t' => ?_
    have := used t'
    rw [tickets]
    omega

theorem affair_complete {k : Holder} {t : Ticket} {task : Task κ}
    (h : w.complete k t task = .ok w') (p : Pid) :
    Affair free (w.account p) (w.incidents (w.completed k t task) none p) (w'.account p) := by
  have how := w.completes k t task
  generalize w.completed k t task = r at how ⊢
  generalize w.complete k t task = g at h how
  cases how with
  | used held =>
    exact affair_resume (w := w.spend t k) w h rfl (fun t' => Nat.le_of_eq (unused_spend held t')) p
  | lost held =>
    obtain rfl := Except.ok.inj h
    exact affair_of_same (fun _ => rfl) (unused_spend_le w t k)
  | absent =>
    obtain rfl := Except.ok.inj h
    exact .refl _

theorem affair_wake {t : Ticket} {w₁ : World κ σ} (due : w.Due (.wake t) w₁)
    (h : w₁.wake t = .ok w') (p : Pid) :
    Affair free (w.account p)
      (w.incidents (if w₁.reachable then w₁.resumed t (.succeed .unit) else []) none p)
      (w'.account p) := by
  have procs : w₁.procs = w.procs := by
    obtain ⟨limit, host, -, rfl⟩ := due
    rfl
  unfold wake at h
  split at h
  · next here =>
    rw [if_pos here]
    exact affair_resume _ h procs (fun t' => Nat.le_of_eq (due.unused_wake t')) p
  · next gone =>
    rw [if_neg gone]
    obtain rfl := Except.ok.inj h
    refine affair_of_same (standing_of_procs procs) fun t' => ?_
    have := due.unused_wake t'
    omega

theorem affair_kill (w : World κ σ) (q p : Pid) :
    Affair free (w.account p)
      (w.incidents (if w.procs.isAlive q then [(q, .killed)] else []) none p)
      ((w.kill q).1.account p) := by
  cases ha : w.procs.isAlive q with
  | false =>
    rw [kill_of_dead ha]
    exact .refl _
  | true =>
    obtain ⟨x, hx, alive⟩ := ProcTable.isAlive_iff.1 ha
    have put := put_kill hx alive
    have same : ∀ t, (w.kill q).1.unused t = w.unused t := by
      rw [kill_of_alive hx alive]
      exact fun _ => rfl
    have live : x.root ≠ .dead := by
      intro hr
      rw [Proc.isDead_iff.2 hr] at alive
      cases alive
    have lost : ∀ t, (w.kill q).1.unused t ≤ w.unused t := fun t => Nat.le_of_eq (same t)
    refine affair_one hx (fun q' hq => put.standing_other hq) (fun t _ => lost t) ?_ p
    exact .killed (standing_of_get? hx) live put.standing_self fun _ => lost _

theorem affair_install {label : Option String} {t : Task κ} (h : w.install q label t = .ok w')
    (p : Pid) : Affair free (w.account p) [] (w'.account p) := by
  have beside := surroundings_install h
  unfold install at h
  split at h
  · cases h
  · next hx =>
    obtain rfl := Except.ok.inj h
    rw [Option.not_isSome_iff_eq_none] at hx
    by_cases hq : q.number < w.procs.nextNumber
    · have put : Put w { w with procs := w.procs.set q (.start label t) } q (.start label t) :=
        put_set (.start label t) hq
      have put := put.agree (agree_note _ (.spawned q label))
      by_cases hp : p = q
      · subst hp
        have after := (standing_enqueue _ p p).trans put.standing_self
        exact .spawned t (standing_eq_none hx) after fun n =>
          Nat.le_of_eq (unused_of_surroundings beside _)
      · refine .idle ?_ fun n => Nat.le_of_eq (unused_of_surroundings beside _)
        exact (standing_enqueue _ q p).trans (put.standing_other hp)
    · -- A name that has not been handed out is out of the table's bounds.
      have same : w.procs.set q (.start label t) = w.procs := by
        have hq : ¬ q.number < w.procs.slots.size := hq
        rw [ProcTable.set, Array.setIfInBounds, dif_neg hq]
      refine affair_of_beside (fun p' => ?_) beside
      rw [standing_enqueue, same]
      rfl

theorem affair_spawn {t : Task κ} (h : w.spawn t = .ok (q, w')) (p : Pid) :
    Affair free (w.account p) [] (w'.account p) := by
  unfold spawn at h
  cases hr : w.reserve with
  | error f => rw [hr] at h; cases h
  | ok e =>
    obtain ⟨q₁, w₁⟩ := e
    simp only [hr, bind, Except.bind] at h
    cases hi : w₁.install q₁ none t with
    | error f => rw [hi] at h; cases h
    | ok w₂ =>
      rw [hi] at h
      obtain ⟨-, rfl⟩ := Prod.mk.inj (Except.ok.inj h)
      have same : w₁.account p = w.account p := by
        rw [account, account, (agree_reserve hr).standing]
        congr 1
        funext n
        exact unused_of_surroundings (surroundings_reserve hr) _
      rw [← same]
      exact affair_install hi p

/-- What calls a binding off is kept as long as the binding is awaited. -/
theorem affair_attach (w₀ : World κ σ) (procs : w.procs = w₀.procs)
    (lost : ∀ t, w.unused t ≤ w₀.unused t) (t : Ticket) (c : Cancel κ) (p : Pid) :
    Affair free (w₀.account p) (w₀.incidents [] (some (t, c)) p) ((w.attach t c).1.account p) := by
  have less : ∀ t', (w.attach t c).1.unused t' ≤ w₀.unused t' := fun t' => by
    rw [unused_of_surroundings (surroundings_attach w t c)]
    exact lost t'
  have same : ∀ q, w.standing q = w₀.standing q := standing_of_procs procs
  -- If the binding is not awaited nothing changes.
  have missed : (w.attach t c).1 = w →
      (∀ x, w.procs.get? t.pid = some x → ∀ c', x.root ≠ .awaiting t.binding c') →
      Affair free (w₀.account p) (w₀.handing p (t, c)) ((w.attach t c).1.account p) := by
    intro kept other
    have still : (w.attach t c).1.standing p = w₀.standing p := by rw [kept, same]
    unfold handing
    split
    · next x hx =>
      split
      · next hp =>
        obtain rfl : t.pid = p := hp
        exact .late c (standing_of_get? hx) still (other x (procs ▸ hx)) fun n => less _
      · exact .idle still fun n => less _
    · exact .idle still fun n => less _
  rw [incidents_handed]
  have how := w.attaches t c
  generalize w.attach t c = e at less missed how ⊢
  cases how with
  | @kept w' x c' hx awaiting put =>
    by_cases hp : t.pid = p
    · subst hp
      have before : w₀.standing t.pid = some (.awaiting t.binding c', x.binding) := by
        rw [← same, standing_of_get? hx, awaiting]
      have alive : x.isDead = false := by rw [Proc.isDead, awaiting]; rfl
      rw [handing, ← procs, hx]
      simp only [if_true, alive]
      exact .kept c before put.standing_self fun n => less _
    · rw [handing_other w₀ hp]
      exact .idle ((put.standing_other (Ne.symm hp)).trans (same p)) fun n => less _
  | late hx dead =>
    refine missed rfl fun x hx' c' awaiting => ?_
    obtain rfl := Option.some.inj (hx.symm.trans hx')
    cases dead.symm.trans awaiting
  | lost other => exact missed rfl fun x hx => (other x hx).2

end World

theorem Progress.account_of_callOff {w w' : World κ σ} {c : Option (Cancel κ)}
    {code code' : Procedure κ σ α} (h : callOff w c code = .next w' code') :
    (∀ q, w'.standing q = w.standing q) ∧ ∀ t, w'.unused t ≤ w.unused t := by
  unfold callOff at h
  split at h
  · obtain ⟨rfl, -⟩ := Progress.next.inj h
    exact ⟨fun _ => rfl, fun _ => Nat.le_refl _⟩
  · obtain ⟨rfl, -⟩ := Progress.next.inj h
    exact ⟨fun _ => rfl, unused_filter_le w _⟩
  · obtain ⟨rfl, -⟩ := Progress.next.inj h
    exact ⟨fun _ => rfl, fun _ => Nat.le_refl _⟩

/-- What a request does to an account is what its deeds are to the bindings. -/
theorem Request.affair {w w' : World κ σ} {r : Request κ σ} {k : r.Reply → Procedure κ σ α}
    {code : Procedure κ σ α} {free : Prop} (h : r.step b w k = .next w' code) (p : Pid) :
    Affair free (w.account p) (w.incidents (r.record w) none p) (w'.account p) := by
  cases r with
  | spawn t =>
    simp only [record]
    rcases Directive.of_spawn (b := b) h with ⟨q, here, hs, -⟩ | ⟨gone, rfl, -⟩
    · obtain ⟨w₁, hr, -⟩ := operation_spawn hs
      rw [if_pos here, hr, incidents_of_trivial fun _ => rfl]
      exact affair_spawn hs p
    · rw [if_neg (ne_true_of_eq_false gone)]
      exact .refl _
  | spawnWith c =>
    obtain ⟨rfl, -⟩ := Directive.of_spawnWith (b := b) h
    exact .refl _
  | send q v =>
    obtain ⟨rfl, -⟩ := Progress.next.inj h
    simp only [record]
    split
    · have trivial : w.incidents [(q, if w.procs.isAlive q then .sent v else .dropped v)] none p =
          [] := by
        refine incidents_of_trivial (fun x => ?_) w q p
        split <;> rfl
      rw [trivial]
      exact affair_of_beside (standing_send w q v) (surroundings_send w q v)
    · exact .refl _
  | kill q =>
    simp only [record]
    rcases Directive.of_kill (b := b) h with ⟨here, off⟩ | ⟨gone, rfl, -⟩
    · rw [here, Bool.true_and]
      obtain ⟨standing, lost⟩ := Progress.account_of_callOff off
      exact (affair_kill w q p).lose (standing p) fun n => lost _
    · rw [gone, Bool.false_and]
      exact .refl _
  | complete t task => exact affair_complete (Progress.ofExcept_eq_next h) p
  | forget t =>
    obtain ⟨rfl, -⟩ := Progress.next.inj h
    exact affair_of_same (fun _ => rfl) (unused_spend_le w t .user)
  | delay span c =>
    obtain ⟨rfl, -⟩ := Progress.next.inj h
    exact affair_of_same (fun _ => rfl) fun t =>
      Nat.le_of_eq (unused_delay w span (.thunk c) t)
  | unset key =>
    obtain ⟨rfl, -⟩ := Progress.next.inj h
    exact affair_of_same (fun _ => rfl) (unused_filter_le w _)
  | drive e => cases h
  | start c =>
    obtain ⟨rfl, -⟩ := Directive.of_start (b := b) h
    exact .refl _
  | model i =>
    obtain ⟨rfl, -⟩ := Directive.of_model (b := b) h
    exact .refl _
  | retain =>
    obtain ⟨rfl, -⟩ := Progress.next.inj h
    unfold World.retain
    split <;> exact .refl _
  | _ =>
    -- What is left changes neither a process nor a ticket.
    obtain ⟨rfl, -⟩ := Progress.next.inj h
    exact .refl _

theorem World.affair_modifyProgram {free : Prop} (w : World κ σ) (i : ProgramId)
    (f : RunningProgram κ → RunningProgram κ) (p : Pid) :
    Affair free (w.account p) [] ((w.modifyProgram i f).account p) := by
  unfold modifyProgram
  split <;> exact .refl _

/-- What a directive does to an account is what its deeds are to the bindings, together with what it
hands in. A process is put to sleep only with a ticket that is there. -/
theorem Directive.affair {w w' : World κ σ} {d : Directive κ σ} {k : d.Reply → Procedure κ σ α}
    {code : Procedure κ σ α} {free : Prop} (h : d.step b w k = .next w' code)
    (held : ∀ span t, d = .sleep span t → (t, .runtime) ∈ w.tickets) (p : Pid) :
    Affair free (w.account p) (w.incidents (d.record w) (d.offer? w) p) (w'.account p) := by
  cases d with
  | request r => exact Request.affair h p
  | settle t task => exact affair_complete (Progress.ofExcept_eq_next h) p
  | sleep span t =>
    obtain ⟨rfl, -⟩ := Progress.next.inj h
    refine affair_attach (w := { w.spend t .runtime with host := w.host.delay span (.wake t) }) w
      rfl (fun t' => ?_) t _ p
    -- The ticket goes from the runtime into a timer.
    have timed := unused_delay (w.spend t .runtime) span (.wake t) t'
    have spent := unused_spend (held span t rfl) t'
    refine Nat.le_of_eq (timed.trans ?_)
    rw [← spent]
    simp only [Timer.wakes, decide_eq_true_eq]
  | attach t c =>
    obtain ⟨standing, lost⟩ := Progress.account_of_callOff h
    exact (affair_attach w rfl (fun _ => Nat.le_refl _) t (.thunk c) p).lose (standing p)
      fun n => lost _
  | reserve =>
    obtain ⟨q, hr, -⟩ := of_reserve h
    exact affair_of_beside (agree_reserve hr).standing (surroundings_reserve hr)
  | install q label t =>
    have installed : Affair free (w.account p) [] (w'.account p) :=
      affair_install (Progress.ofExcept_eq_next h) p
    simp only [record, offer?]
    split
    · rw [incidents_of_trivial fun _ => rfl]
      exact installed
    · exact installed
  | takeModel i =>
    obtain ⟨rfl, -⟩ := Progress.next.inj h
    exact affair_modifyProgram w i _ p
  | putModel i v =>
    obtain ⟨rfl, -⟩ := Progress.next.inj h
    exact affair_modifyProgram w i _ p
  | countUpdate i =>
    obtain ⟨rfl, -⟩ := Progress.next.inj h
    exact affair_modifyProgram w i _ p
  | _ =>
    obtain ⟨rfl, -⟩ := Progress.next.inj h
    exact .refl _

/-! ### Machines -/

theorem World.standing_endTick (w : World κ σ) (n k : Nat) (p : Pid) :
    (w.endTick n k).standing p = w.standing p := by
  unfold endTick
  simp only
  split <;> rfl

theorem World.unused_endTick (w : World κ σ) (n k : Nat) (t : Ticket) :
    (w.endTick n k).unused t = w.unused t := by
  unfold endTick
  simp only
  split <;> rfl

/-- A process changes its root by itself. -/
theorem World.affair_rooted {w w' : World κ σ} {p : Pid} {x y : Proc κ} {free : Prop}
    (own : free) (hx : w.procs.get? p = some x) (h : Put w w' p y)
    (beside : w'.surroundings = w.surroundings) (live : x.root ≠ .dead)
    (before : x.root.isAwaiting = false) (after : y.root.isAwaiting = false)
    (binding : y.binding = x.binding) (q : Pid) : Affair free (w.account q) [] (w'.account q) := by
  have lost : ∀ t, w'.unused t ≤ w.unused t := fun t =>
    Nat.le_of_eq (unused_of_surroundings beside t)
  by_cases hq : q = p
  · subst hq
    have standing := h.standing_self
    rw [binding] at standing
    exact .rooted own (standing_of_get? hx) standing live before after fun n => lost _
  · exact .idle (h.standing_other hq) fun n => lost _

theorem Proc.Moves.binding {x y : Proc κ} {mv : Move κ} (h : x.Moves mv y) :
    y.binding = x.binding ∨ ∃ g, mv.task = .native g := by
  cases h with
  | outcome o => cases Handler.next o x.stack <;> exact .inl rfl
  | native g => exact .inr ⟨g, rfl⟩
  | _ => exact .inl rfl

/-- A transition that starts no binding is nothing to any binding. -/
theorem World.affair_moved {w w' : World κ σ} {p : Pid} {x : Proc κ} {mv : Move κ} {free : Prop}
    (own : free) (hx : w.procs.get? p = some x) (can : x.move? = some mv)
    (h : Put w w' p (x.moved mv.task)) (beside : w'.surroundings = w.surroundings)
    (after : (x.moved mv.task).root.isAwaiting = false) (q : Pid) :
    Affair free (w.account q) (w.incidents [(p, .moved mv)] none q) (w'.account q) := by
  have root : x.root = .ready mv.task := Proc.root_of_move? can
  have plain : ∀ g, mv.task ≠ .native g := by
    intro g hg
    rw [hg] at after
    cases after
  have binding := (Proc.moves can).binding.resolve_right fun ⟨g, hg⟩ => plain g hg
  have none : w.incidents [(p, .moved mv)] none q = [] := by
    refine incidents_of_trivial (fun x' => ?_) w p q
    obtain ⟨t, entered⟩ := mv
    cases t with
    | native g => exact absurd rfl (plain g)
    | _ => rfl
  rw [none]
  exact affair_rooted own hx h beside (by simp [root]) (by rw [root]; rfl) after binding q

/-- A binding is begun with a new ticket. -/
theorem World.affair_started {w w' : World κ σ} {p : Pid} {x : Proc κ} {mv : Move κ}
    {g : Binding κ} {free : Prop} (own : free) (hx : w.procs.get? p = some x)
    (can : x.move? = some mv) (h : Put w w' p (x.moved mv.task)) (task : mv.task = .native g)
    (beside : w'.surroundings = { w.surroundings with
      tickets := (⟨p, x.binding + 1⟩, g.holder) :: w.tickets }) (q : Pid) :
    Affair free (w.account q) (w.incidents [(p, .moved mv)] none q) (w'.account q) := by
  have root : x.root = .ready mv.task := Proc.root_of_move? can
  have tickets : w'.tickets = (⟨p, x.binding + 1⟩, g.holder) :: w.tickets :=
    congrArg Surroundings.tickets beside
  have timers : w'.host.timers = w.host.timers := congrArg Surroundings.timers beside
  -- The new ticket is the only one that the step issues.
  have issued : ∀ t, w'.unused t =
      w.unused t + if (⟨p, x.binding + 1⟩ : Ticket) = t then 1 else 0 := by
    intro t
    rw [unused, unused, tickets, timers, List.countP_cons]
    simp only [decide_eq_true_eq]
    omega
  obtain ⟨t, entered⟩ := mv
  obtain rfl : t = .native g := task
  refine affair_one hx (fun q' hq => h.standing_other hq) (fun t ht => ?_) ?_ q
  · rw [issued, if_neg fun ht' => ht (by rw [← ht'])]
    exact Nat.le_refl _
  · refine .begun own (standing_of_get? hx) (by simp [root]) (by rw [root]; rfl) h.standing_self
      fun k => Nat.le_of_eq ?_
    show w'.unused ⟨p, k⟩ = w.unused ⟨p, k⟩ + _
    rw [issued]
    simp only [Ticket.mk.injEq, true_and, eq_comm]

/-- Every step changes the account of every process in one of the ways of an affair. -/
theorem Transition.affair {m m' : Machine κ σ} {r : Record κ} {L : Leave κ}
    (tr : Transition b m r m') (proper : m.Proper L) (sound : m.Sound) (p : Pid) :
    Affair (∀ a ∈ m.stack, a.starting? = none) (m.world.account p)
      (m.world.incidents r m.offer? p) (m'.world.account p) := by
  have alone : ∀ {w : World κ σ} {n k : Nat} {phase : Phase κ σ} {s : List (Activity κ σ)},
      m = ⟨w, .tick n k phase :: s, none⟩ →
      (Activity.tick n k phase : Activity κ σ).starting? = none →
      ∀ a ∈ m.stack, a.starting? = none := by
    rintro w n k phase s rfl top a ha
    have sound : w.SoundWith (.tick n k phase :: s) := sound
    rcases List.mem_cons.1 ha with rfl | ha
    · exact top
    · exact Activity.starting?_of_quiet sound.quiet ha
  cases tr with
  | rest _ idle =>
    rw [Machine.offer?, idle]
    exact .refl _
  | @code w w' s α fr d k code hd =>
    rw [fr.offer?_fill]
    exact Directive.affair hd (fun span t hs => fr.held_of_sleep (proper rfl).1 hs) p
  | @driving w s α fr d k goal k' hd =>
    obtain ⟨e, rfl⟩ := Directive.eq_drive hd
    rw [fr.offer?_fill]
    exact .refl _
  | @broken w w' a a' s f h ha cause =>
    rw [cause.offer?_eq_none]
    rcases cause.world with rfl | ⟨t, due⟩
    · exact .refl _
    · refine affair_of_same h.standing fun t' => ?_
      have used : w'.unused t' + (if t' = t then 1 else 0) = w.unused t' := due.unused_wake t'
      show w'.unused t' ≤ w.unused t'
      omega
  | finished => exact .refl _
  | picked budget hd alive => exact affair_of_beside (standing_dequeue hd) (surroundings_dequeue hd)
  | skipped budget hd dead => exact affair_of_beside (standing_dequeue hd) (surroundings_dequeue hd)
  | ended hq =>
    exact affair_of_same (standing_endTick _ _ _) fun t => Nat.le_of_eq (unused_endTick _ _ _ t)
  | preempted budget =>
    exact affair_of_beside (standing_enqueue _ _) (surroundings_enqueue _ _)
  | parked budget stuck h beside => exact affair_of_beside h.standing beside
  | pushed budget hx can h root beside =>
    exact affair_moved (alone rfl rfl) hx can h beside (by rw [root]; rfl) p
  | entered budget hx can h root hc beside =>
    exact affair_moved (alone rfl rfl) hx can h beside (by rw [root]; rfl) p
  | @started w w' s n k q x mv g budget hx can h task beside =>
    exact affair_started (alone rfl rfl) hx can h task beside p
  | exited budget hx can h root hr event beside =>
    exact affair_moved (alone rfl rfl) hx can h beside (by rw [root]; rfl) p
  | @returned w w' s n k q x t hx alive h beside =>
    have trivial : w.incidents [(q, .returned t)] none p = [] :=
      incidents_of_trivial (fun _ => rfl) w q p
    have call : w.SoundWith (.tick n k (.callback q (.run (.ret t))) :: s) := sound
    -- As long as the process is alive it is still in the step that entered the continuation.
    have stepping : x.root = .stepping := call.stepping_of_callback hx alive
    show Affair _ _ (w.incidents [(q, .returned t)] none p) _
    rw [trivial]
    exact affair_rooted (alone rfl rfl) hx h beside (by simp [stepping]) (by rw [stepping]; rfl) rfl
      rfl p
  | ignored => exact .refl _
  | launched => exact .refl _
  | pumped => exact .refl _
  | lost => exact .refl _
  | thunk h cause =>
    refine affair_of_same h.standing fun t => ?_
    rcases cause with ⟨ts, -, rfl⟩ | due
    · exact Nat.le_refl _
    · exact Nat.le_of_eq (due.unused_thunk t)
  | woken op cause =>
    obtain ⟨t, w₁, due, hw, rfl⟩ := cause
    exact affair_wake due hw p
  | driven h clock =>
    refine affair_of_same h.standing fun t => ?_
    rcases clock with rfl | ⟨limit, rfl⟩
    · exact Nat.le_refl _
    · exact Nat.le_refl _

end Actors
