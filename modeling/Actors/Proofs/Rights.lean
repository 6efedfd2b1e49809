/-
The rights to complete bindings.

A ticket is the right to complete one binding of one process, once. It is issued when the binding is
begun, and as long as the process is alive the binding is awaited until the ticket is used; so a
live process that awaits a binding has at most the ticket of this binding left, and one that does
not wait has none. Nobody can therefore complete a binding that is not awaited. The numbers of a
process's bindings only grow, so no binding is begun twice; and the start of a binding is entered
right after the binding has been begun, with its new ticket.

* `Account.Entitled` — the tickets left are those that the root of their process allows;
* `Affair.entitled`, `Reachable.entitled` — every step preserves it;
* `Trail.begins`, `Trail.starts` — no binding is begun twice, and no start is entered twice;
* `Trail.single_completion` — what follows for a run.
-/
import Actors.Proofs.Affair
import Actors.Proofs.History
import Actors.Proofs.Purity
import Mathlib.Data.List.Nodup

namespace Actors

variable {κ σ α : Type} {b : Behaviour κ σ}

open World

/-! ### Tickets left -/

/-- Only the ticket of the latest binding may be left. It is used up when the process goes on. -/
structure Account.Entitled (a : Account κ) : Prop where
  fresh : a.standing = none → ∀ k, a.unused k = 0
  latest : ∀ i c n, a.standing = some (.awaiting i c, n) → i = n ∧ 0 < n
  single : ∀ r n, a.standing = some (r, n) → ∀ k, a.unused k ≤ if k = n then 1 else 0
  used : ∀ r n, a.standing = some (r, n) → r.isAwaiting = false → r.isDead = false →
    ∀ k, a.unused k = 0

/-- Losing a ticket does no harm. -/
theorem Account.Entitled.lose {a a' : Account κ} (h : a.Entitled)
    (same : a'.standing = a.standing) (lost : ∀ k, a'.unused k ≤ a.unused k) : a'.Entitled where
  fresh h' k := Nat.le_zero.1 (h.fresh (same ▸ h') k ▸ lost k)
  latest i c n h' := h.latest i c n (same ▸ h')
  single r n h' k := Nat.le_trans (lost k) (h.single r n (same ▸ h') k)
  used r n h' awaiting dead k := Nat.le_zero.1 (h.used r n (same ▸ h') awaiting dead k ▸ lost k)

theorem Account.Entitled.of_standing {a : Account κ} {r : Root κ} {n : Nat}
    (h : a.standing = some (r, n)) (latest : ∀ i c, r = .awaiting i c → i = n ∧ 0 < n)
    (single : ∀ k, a.unused k ≤ if k = n then 1 else 0)
    (used : r.isAwaiting = false → r.isDead = false → ∀ k, a.unused k = 0) : a.Entitled where
  fresh h' := by cases h.symm.trans h'
  latest i c n' h' := by
    obtain ⟨rfl, rfl⟩ := Prod.mk.inj (Option.some.inj (h.symm.trans h'))
    exact latest i c rfl
  single r' n' h' := by
    obtain ⟨rfl, rfl⟩ := Prod.mk.inj (Option.some.inj (h.symm.trans h'))
    exact single
  used r' n' h' := by
    obtain ⟨rfl, rfl⟩ := Prod.mk.inj (Option.some.inj (h.symm.trans h'))
    exact used

/-- Without tickets a process may do anything but wait. -/
theorem Account.Entitled.of_used {a : Account κ} {r : Root κ} {n : Nat}
    (h : a.standing = some (r, n)) (idle : r.isAwaiting = false)
    (none : ∀ k, a.unused k = 0) : a.Entitled := by
  refine .of_standing h (fun i c hr => ?_) (fun k => ?_) fun _ _ => none
  · rw [hr] at idle
    cases idle
  · rw [none k]
    exact Nat.zero_le _

/-- A process that neither waits nor is dead has used its tickets. -/
theorem Account.Entitled.none_left {a : Account κ} (h : a.Entitled) {r : Root κ} {n : Nat}
    (hs : a.standing = some (r, n)) (idle : r.isAwaiting = false) (live : r ≠ .dead) (k : Nat) :
    a.unused k = 0 := by
  refine h.used r n hs idle ?_ k
  cases r with
  | dead => exact absurd rfl live
  | _ => rfl

/-- What happens to a binding leaves only the tickets that it should. -/
theorem Affair.entitled {free : Prop} {a a' : Account κ} {is : List (Nat × Incident κ)}
    (af : Affair free a is a') (h : a.Entitled) : a'.Entitled := by
  -- The number of tickets grows only when a binding is begun, and then none of the process is
  -- left.
  cases af with
  | idle same lost => exact h.lose same lost
  | spawned t fresh after lost =>
    exact .of_used after rfl fun k => Nat.le_zero.1 (h.fresh fresh k ▸ lost k)
  | rooted own before after live idle idle' lost =>
    exact .of_used after idle' fun k => Nat.le_zero.1 (h.none_left before idle live k ▸ lost k)
  | begun own before live idle after issued =>
    refine .of_standing after (fun i c hr => ?_) (fun k => ?_) nofun
    · cases hr
      exact ⟨rfl, Nat.succ_pos _⟩
    · have none := h.none_left before idle live k
      have := issued k
      omega
  | completed before after spent =>
    obtain ⟨rfl, -⟩ := h.latest _ _ _ before
    refine .of_used after rfl fun i => ?_
    have := spent i
    have := h.single _ _ before i
    omega
  | killed before live after lost =>
    exact .of_standing after nofun (fun k => Nat.le_trans (lost k) (h.single _ _ before k)) nofun
  | kept c before after lost =>
    refine .of_standing after (fun i c' hr => ?_)
      (fun k => Nat.le_trans (lost k) (h.single _ _ before k)) nofun
    cases hr
    exact h.latest _ _ _ before
  | late c before same missed lost => exact h.lose same lost

theorem World.entitled_new (config : Config) (user : σ) (p : Pid) :
    ((World.new (κ := κ) config user).account p).Entitled := by
  have none : (World.new (κ := κ) config user).standing p = none :=
    standing_eq_none (get?_new config user p)
  refine ⟨fun _ _ => rfl, fun i c n h => ?_, fun r n h => ?_, fun r n h => ?_⟩
  all_goals cases none.symm.trans h

/-- Throughout a run only the tickets are left that should be. -/
theorem Reachable.entitled {m : Machine κ σ} (h : Reachable b m) (p : Pid) :
    (m.world.account p).Entitled := by
  induction h with
  | new config user code => exact entitled_new config user p
  | @step m h ih => exact ((Machine.transition b m).affair h.proper h.sound p).entitled ih
  | load code _ _ _ ih => exact ih

/-! ### Using a ticket -/

theorem World.unused_pos {w : World κ σ} {t : Ticket} {k : Holder} (h : (t, k) ∈ w.tickets) :
    0 < w.unused t :=
  Nat.add_pos_left (List.countP_pos_iff.2 ⟨_, h, decide_eq_true rfl⟩) _

/-- With a ticket that is left nobody completes a binding that is not awaited. -/
theorem World.resume_ok {w w₀ : World κ σ} {t : Ticket} (h : (w₀.account t.pid).Entitled)
    (procs : w.procs = w₀.procs) (left : 0 < w₀.unused t) (task : Task κ) :
    ∃ w', w.resume t task = .ok w' := by
  have left : 0 < (w₀.account t.pid).unused t.binding := left
  have how := w.resumes t task
  generalize w.resumed t task = r at how
  generalize w.resume t task = g at how ⊢
  cases how with
  | completed => exact ⟨_, rfl⟩
  | discarded => exact ⟨_, rfl⟩
  | @failed x hx live missed =>
    have before : (w₀.account t.pid).standing = some (x.root, x.binding) :=
      standing_of_get? (procs ▸ hx)
    cases hr : x.root.isAwaiting with
    | false =>
      -- An awaiting root whose binding is another one: the ticket that is left is not for that
      -- one.
      have none := h.none_left before hr live t.binding
      omega
    | true =>
      cases hc : x.root with
      | awaiting i c =>
        rw [hc] at before
        have single := h.single _ _ before t.binding
        have other : t.binding ≠ x.binding := by
          rintro same
          obtain ⟨rfl, -⟩ := h.latest _ _ _ before
          exact missed c (same ▸ hc)
        rw [if_neg other] at single
        omega
      | _ => rw [hc] at hr; cases hr

theorem World.complete_ok {w : World κ σ} (h : ∀ p, (w.account p).Entitled) (k : Holder)
    (t : Ticket) (task : Task κ) : ∃ w', w.complete k t task = .ok w' := by
  have how := w.completes k t task
  generalize w.completed k t task = r at how
  generalize w.complete k t task = g at how ⊢
  cases how with
  | used held => exact resume_ok (w := w.spend t k) (h t.pid) rfl (unused_pos held) task
  | lost => exact ⟨_, rfl⟩
  | absent => exact ⟨_, rfl⟩

theorem World.wake_ok {w w' : World κ σ} {t : Ticket} (h : ∀ p, (w.account p).Entitled)
    (due : w.Due (.wake t) w') : ∃ w'', w'.wake t = .ok w'' := by
  have left : 0 < w.unused t := by
    have := due.unused_wake t
    rw [if_pos rfl] at this
    omega
  have procs : w'.procs = w.procs := by
    obtain ⟨limit, host, -, rfl⟩ := due
    rfl
  unfold wake
  split
  · exact resume_ok (h t.pid) procs left _
  · exact ⟨_, rfl⟩

/-- Of the directives only those that use a ticket can complain that a binding is not awaited. -/
theorem Directive.complete_of_notAwaiting {w : World κ σ} {d : Directive κ σ}
    {k : d.Reply → Procedure κ σ α} {i : Nat} (h : d.step b w k = .fault (.notAwaiting i)) :
    ∃ holder t task, w.complete holder t task = .error (.notAwaiting i) := by
  cases Directive.fails h with
  | completed hc => exact ⟨.user, _, _, hc⟩
  | settled hc => exact ⟨.runtime, _, _, hc⟩

/-- A run stops because a binding is not awaited only if code says so by itself. -/
theorem Reachable.raises_of_notAwaiting {m : Machine κ σ} (h : Reachable b m) {i : Nat}
    (going : m.fault = none) (hf : (m.step b).fault = some (.notAwaiting i)) :
    ∃ (α : Type) (fr : Frame κ σ α) (s : List (Activity κ σ)),
      m.stack = fr.fill (.run (.raise (.notAwaiting i))) :: s := by
  have tr := Machine.transition b m
  generalize m.step b = m' at tr hf
  generalize m.record = r at tr
  cases tr with
  | rest => cases going.symm.trans hf
  | broken agree like cause =>
    obtain rfl := Option.some.inj hf
    cases cause with
    | raised fr f => exact ⟨_, fr, _, rfl⟩
    | failed fr hd =>
      obtain ⟨holder, t, task, failed⟩ := Directive.complete_of_notAwaiting hd
      obtain ⟨w', ok⟩ := World.complete_ok h.entitled holder t task
      cases ok.symm.trans failed
    | woken due failed =>
      obtain ⟨w', ok⟩ := World.wake_ok h.entitled due
      cases ok.symm.trans failed
  | _ => cases hf

/-! ### Starts -/

/-- The ticket of the binding that the next step begins. -/
def Machine.begins? (m : Machine κ σ) : Option Ticket :=
  match m.record with
  | [(p, .moved ⟨.native _, _⟩)] => (m.world.procs.get? p).map fun x => ⟨p, x.binding + 1⟩
  | _ => none

/-- The ticket with which the next step enters the start of a binding. -/
def Machine.start? (m : Machine κ σ) : Option Ticket :=
  match m.call? with
  | some (.start _ t) => some t
  | _ => none

theorem Machine.call?_of_start? {m : Machine κ σ} {t : Ticket} (h : m.start? = some t) :
    ∃ c, m.call? = some (.start c t) := by
  unfold start? at h
  split at h
  · next c t' hc =>
    obtain rfl := Option.some.inj h
    exact ⟨c, hc⟩
  · cases h

theorem Machine.begins?_eq_some {m : Machine κ σ} {t : Ticket} : m.begins? = some t ↔
    ∃ x g e, m.record = [(t.pid, .moved ⟨.native g, e⟩)] ∧ m.world.procs.get? t.pid = some x ∧
      t.binding = x.binding + 1 := by
  constructor
  · intro h
    unfold begins? at h
    split at h
    · next p g e hr =>
      obtain ⟨x, hx, rfl⟩ := Option.map_eq_some_iff.1 h
      exact ⟨x, g, e, hr, hx, rfl⟩
    · cases h
  · rintro ⟨x, g, e, hr, hx, ht⟩
    simp only [begins?, hr, hx, Option.map_some, ← ht]

theorem Machine.incident_of_begins {m : Machine κ σ} {t : Ticket} (h : m.begins? = some t) :
    (t.binding, .begun) ∈ m.incidents t.pid := by
  obtain ⟨x, g, e, hr, hx, ht⟩ := Machine.begins?_eq_some.1 h
  refine Machine.mem_incidents.2 ⟨x, hx, .inl ⟨_, hr ▸ List.mem_singleton.2 rfl, ?_⟩⟩
  rw [ht]
  exact List.mem_singleton.2 rfl

/-- When a binding has been begun its start is on top of the stack. -/
theorem Machine.step_of_begins {m : Machine κ σ} {t : Ticket} (h : m.begins? = some t) :
    ∃ g e n k s, m.record = [(t.pid, .moved ⟨.native g, e⟩)] ∧
      (m.step b).stack = .tick n k (.starting t.pid (.run (g.start b t))) :: s := by
  obtain ⟨x, g, e, hr, hx, ht⟩ := Machine.begins?_eq_some.1 h
  obtain ⟨x', n, k, s, hx', -, stack⟩ :=
    Machine.step_of_native (b := b) (hr ▸ List.mem_singleton.2 rfl) rfl
  obtain rfl := Option.some.inj (hx.symm.trans hx')
  rw [← ht] at stack
  exact ⟨g, e, n, k, s, hr, stack⟩

/-- The start of a binding is entered right after the binding has been begun, with its ticket. -/
theorem Reachable.begins_of_start {m : Machine κ σ} (h : Reachable b m) {c : κ} {t : Ticket}
    (hc : (m.step b).call? = some (.start c t)) :
    m.begins? = some t ∧ ∃ e, m.record = [(t.pid, .moved ⟨.native (.code c), e⟩)] := by
  let begun : Leave κ := { Leave.full with start := fun t => m.begins? = some t }
  have proper : (m.step b).Proper begun := by
    refine h.proper.transition h.sound (Machine.transition b m) (fun _ _ _ _ => trivial)
      (fun p x mv g hx task hr => ?_) fun _ _ => trivial
    obtain ⟨u, e⟩ := mv
    obtain rfl : u = .native g := task
    exact Machine.begins?_eq_some.2 ⟨x, g, e, hr, hx, rfl⟩
  have begins : m.begins? = some t := proper.allows hc
  refine ⟨begins, ?_⟩
  -- The step leaves the code of this binding on top, so the start that is entered is its own.
  obtain ⟨g, e, n, k, s, hr, stack⟩ := Machine.step_of_begins (b := b) begins
  obtain ⟨w, a, s', hm, ha⟩ := Machine.eq_of_call? hc
  rw [hm] at stack
  obtain ⟨rfl, rfl⟩ := List.cons.inj stack
  cases g with
  | code c' =>
    obtain ⟨rfl, -⟩ := Call.start.inj (Option.some.inj ha)
    exact ⟨e, hr⟩
  | _ => cases ha

theorem Affair.of_begun {free : Prop} {a a' : Account κ} {is : List (Nat × Incident κ)} {k : Nat}
    (af : Affair free a is a') (h : (k, .begun) ∈ is) :
    a'.standing = some (.awaiting k none, k) := by
  cases af with
  | begun own before live idle after issued =>
    obtain ⟨rfl, -⟩ := Prod.mk.inj (List.mem_singleton.1 h)
    exact after
  | _ => simp at h

/-- Only a binding that has been begun is completed, or pending when its process is killed. -/
theorem Affair.pos {free : Prop} {a a' : Account κ} {is : List (Nat × Incident κ)} {k : Nat}
    (af : Affair free a is a') (h : a.Entitled)
    (his : (k, .completed) ∈ is ∨ ∃ run, (k, .killed true run) ∈ is) : 0 < k := by
  cases af with
  | completed before after used =>
    simp only [List.mem_singleton, Prod.mk.injEq, and_true, reduceCtorEq, and_false, exists_false,
      or_false] at his
    rw [his]
    exact (h.latest _ _ _ before).2
  | @killed _ r n before live after lost =>
    simp only [List.mem_singleton, Prod.mk.injEq, and_false, Incident.killed.injEq,
      false_or, reduceCtorEq] at his
    obtain ⟨run, rfl, waits, -⟩ := his
    cases r with
    | awaiting i c => exact (h.latest _ _ _ before).2
    | _ => cases waits
  | _ => simp at his

/-- The numbers of bindings only grow. -/
theorem Affair.standing_le {free : Prop} {a a' : Account κ} {is : List (Nat × Incident κ)}
    (af : Affair free a is a') {r : Root κ} {n : Nat} (h : a.standing = some (r, n)) :
    ∃ r' n', a'.standing = some (r', n') ∧ n ≤ n' := by
  cases af with
  | idle same lost => exact ⟨r, n, same.trans h, Nat.le_refl n⟩
  | spawned t fresh after lost => cases fresh.symm.trans h
  | late c before same missed lost => exact ⟨r, n, same.trans h, Nat.le_refl n⟩
  | rooted own before after live idle idle' lost =>
    cases before.symm.trans h
    exact ⟨_, _, after, Nat.le_refl _⟩
  | begun own before live idle after issued =>
    cases before.symm.trans h
    exact ⟨_, _, after, Nat.le_succ _⟩
  | completed before after spent =>
    cases before.symm.trans h
    exact ⟨_, _, after, Nat.le_refl _⟩
  | killed before live after lost =>
    cases before.symm.trans h
    exact ⟨_, _, after, Nat.le_refl _⟩
  | kept c before after lost =>
    cases before.symm.trans h
    exact ⟨_, _, after, Nat.le_refl _⟩

/-- Tickets that are all different and have been issued. -/
structure World.Issued (w : World κ σ) (ts : List Ticket) : Prop where
  nodup : ts.Nodup
  known : ∀ t ∈ ts, ∃ r n, w.standing t.pid = some (r, n) ∧ t.binding ≤ n

/-- A ticket with a higher number is a new one. -/
theorem World.Issued.snoc {w w' : World κ σ} {ts : List Ticket} {t : Ticket} {r r' : Root κ}
    {n : Nat} (h : w.Issued ts) (h' : w'.Issued ts) (before : w.standing t.pid = some (r, n))
    (above : n < t.binding) (after : w'.standing t.pid = some (r', t.binding)) :
    w'.Issued (ts ++ [t]) where
  nodup := by
    refine List.nodup_append.2 ⟨h.nodup, List.nodup_singleton t, fun t' ht' t'' ht'' same => ?_⟩
    obtain rfl := List.mem_singleton.1 ht''
    subst same
    obtain ⟨r₁, n₁, hs, le⟩ := h.known t' ht'
    obtain ⟨-, rfl⟩ := Prod.mk.inj (Option.some.inj (before.symm.trans hs))
    omega
  known t' ht' := by
    rcases List.mem_append.1 ht' with ht' | ht'
    · exact h'.known t' ht'
    · obtain rfl := List.mem_singleton.1 ht'
      exact ⟨r', t'.binding, after, Nat.le_refl _⟩

/-- No binding is begun twice: each has a ticket of its own. -/
theorem Trail.begins {m : Machine κ σ} {ms : List (Machine κ σ)} (h : Trail b m ms) :
    m.world.Issued (ms.filterMap Machine.begins?) := by
  induction h with
  | new config user code => exact ⟨List.nodup_nil, nofun⟩
  | @step m ms h ih =>
    have affair := fun p => (Machine.transition b m).affair h.reachable.proper h.reachable.sound p
    have later : (m.step b).world.Issued (ms.filterMap Machine.begins?) := by
      refine ⟨ih.nodup, fun t ht => ?_⟩
      obtain ⟨r, n, hs, le⟩ := ih.known t ht
      obtain ⟨r', n', hs', le'⟩ := (affair t.pid).standing_le hs
      exact ⟨r', n', hs', Nat.le_trans le le'⟩
    rw [List.filterMap_append]
    cases begins : m.begins? with
    | none =>
      rw [List.filterMap_cons_none begins, List.filterMap_nil, List.append_nil]
      exact later
    | some t =>
      rw [List.filterMap_cons_some begins, List.filterMap_nil]
      obtain ⟨x, g, e, hr, hx, ht⟩ := Machine.begins?_eq_some.1 begins
      have begun := (affair t.pid).of_begun (Machine.incident_of_begins begins)
      exact ih.snoc later (standing_of_get? hx) (by omega) begun
  | load code _ _ _ ih => exact ih

/-- Code that has been loaded has no leave to start anything. -/
theorem Machine.start?_load (w : World κ σ) (code : Code κ σ Unit) :
    (load w (Procedure.ofCode code)).start? = none := by
  refine Option.eq_none_iff_forall_ne_some.2 fun t ht => ?_
  obtain ⟨c, hc⟩ := call?_of_start? ht
  exact (proper_load ⟨fun _ => False, fun _ => False, fun _ => False⟩ w code).allows hc

/-- No start is entered twice: each belongs to a binding that has just been begun. -/
theorem Trail.starts {m : Machine κ σ} {ms : List (Machine κ σ)} (h : Trail b m ms) :
    ((ms ++ [m]).filterMap Machine.start?).Sublist (ms.filterMap Machine.begins?) := by
  induction h with
  | new config user code =>
    rw [List.nil_append, List.filterMap_cons_none (Machine.start?_load _ code), List.filterMap_nil]
    exact List.nil_sublist _
  | @step m ms h ih =>
    rw [List.filterMap_append, List.filterMap_append (f := Machine.begins?)]
    refine ih.append ?_
    cases start : (m.step b).start? with
    | none =>
      rw [List.filterMap_cons_none start, List.filterMap_nil]
      exact List.nil_sublist _
    | some t =>
      obtain ⟨c, hc⟩ := Machine.call?_of_start? start
      have begins := (h.reachable.begins_of_start hc).1
      rw [List.filterMap_cons_some start, List.filterMap_cons_some begins]
      exact .refl _
  | @load m ms code h hs hf ih =>
    rw [List.filterMap_append, List.filterMap_cons_none (Machine.start?_load _ code), List.filterMap_nil,
      List.append_nil]
    rw [List.filterMap_append] at ih
    exact (List.sublist_append_left _ _).trans ih

/-- At every moment of a run a process that is alive has at most one ticket left: the one of the
binding that it awaits, which is its latest, or none if it does not wait. So no use of a ticket, by
code or by a timer, finds a binding that is not awaited, and a run stops because of that only if
code says so by itself. No binding is begun twice. When it has been begun its start is on top of the
stack, with a new ticket; and the start functions of user code are entered only then. -/
theorem Trail.single_completion {m : Machine κ σ} {ms : List (Machine κ σ)} (h : Trail b m ms) :
    (∀ p x, m.world.procs.get? p = some x → x.isDead = false →
      (∀ i c, x.root = .awaiting i c →
        i = x.binding ∧ ∀ k, m.world.unused ⟨p, k⟩ ≤ if k = i then 1 else 0) ∧
      (x.root.isAwaiting = false → ∀ k, m.world.unused ⟨p, k⟩ = 0)) ∧
    (∀ holder t task, ∃ w, m.world.complete holder t task = .ok w) ∧
    (∀ t w, m.world.Due (.wake t) w → ∃ w', w.wake t = .ok w') ∧
    (∀ i, m.fault = none → (m.step b).fault = some (.notAwaiting i) →
      ∃ (α : Type) (fr : Frame κ σ α) (s : List (Activity κ σ)),
        m.stack = fr.fill (.run (.raise (.notAwaiting i))) :: s) ∧
    (ms.filterMap Machine.begins?).Nodup ∧
    (∀ t, m.begins? = some t → ∃ g e n k s, m.record = [(t.pid, .moved ⟨.native g, e⟩)] ∧
      (m.step b).stack = .tick n k (.starting t.pid (.run (g.start b t))) :: s) ∧
    (∀ c t, (m.step b).call? = some (.start c t) →
      m.begins? = some t ∧ ∃ e, m.record = [(t.pid, .moved ⟨.native (.code c), e⟩)]) ∧
    ((ms ++ [m]).filterMap Machine.start?).Nodup := by
  have entitled := h.reachable.entitled
  refine ⟨fun p x hx alive => ⟨fun i c hr => ?_, fun idle => ?_⟩, World.complete_ok entitled,
    fun t w => World.wake_ok entitled, fun i => h.reachable.raises_of_notAwaiting, h.begins.nodup,
    fun t => Machine.step_of_begins, fun c t => h.reachable.begins_of_start,
    h.begins.nodup.sublist h.starts⟩
  · have hs : (m.world.account p).standing = some (.awaiting i c, x.binding) :=
      hr ▸ standing_of_get? hx
    obtain ⟨rfl, -⟩ := (entitled p).latest _ _ _ hs
    exact ⟨rfl, (entitled p).single _ _ hs⟩
  · exact (entitled p).used _ _ (standing_of_get? hx) idle alive

/-- A process that goes from binding to binding. -/
def recurring : Behaviour Unit Unit :=
  .ofCallbacks fun _ _ => .native (.code ())

/-- Such a process is woken in vain, completed, and completed again with the same ticket. -/
def recurrence : Machine Unit Unit :=
  let code : Code Unit Unit Unit :=
    (Code.ask (.spawn (.andThen (.native (.code ())) (.code ())))).bind fun _ =>
      (Code.ask (.drive .idle)).bind fun _ =>
        (Code.ask (.send ⟨1⟩ .unit)).bind fun _ =>
          (Code.ask (.drive .idle)).bind fun _ =>
            (Code.ask (.complete ⟨⟨1⟩, 1⟩ (.succeed .unit))).bind fun _ =>
              (Code.ask (.complete ⟨⟨1⟩, 1⟩ (.succeed .unit))).bind fun _ =>
                (Code.ask (.drive .idle)).bind fun _ => .ret ()
  .load (.new .standard ()) (Procedure.ofCode code)

/-- The second use of the first ticket is nothing, and each of the two starts is entered once. -/
theorem recurrence_in_step :
    ∃ x, (Machine.run recurring 30 recurrence).world.procs.get? ⟨1⟩ = some x ∧
      x.isDead = false ∧ x.root = .awaiting 2 none ∧ 2 = x.binding ∧
      (Machine.run recurring 30 recurrence).world.unused ⟨⟨1⟩, 2⟩ = 1 ∧
      (∀ k, (Machine.run recurring 30 recurrence).world.unused ⟨⟨1⟩, k⟩ ≤ if k = 2 then 1 else 0) ∧
      (Machine.passed recurring 30 recurrence).filterMap Machine.start? =
        [⟨⟨1⟩, 1⟩, ⟨⟨1⟩, 2⟩] ∧
      ((Machine.passed recurring 30 recurrence ++
        [Machine.run recurring 30 recurrence]).filterMap Machine.start?).Nodup := by
  have begin : Trail recurring recurrence [] := .new _ _ _
  have h : Trail recurring (Machine.run recurring 30 recurrence)
      (Machine.passed recurring 30 recurrence) := begin.run 30
  obtain ⟨single, -, -, -, -, -, -, nodup⟩ := h.single_completion
  obtain ⟨latest, left⟩ := (single ⟨1⟩ _ rfl rfl).1 2 none rfl
  exact ⟨_, rfl, rfl, rfl, latest, rfl, left, rfl, nodup⟩

end Actors
