/-
The account of a process's bindings.

What matters of a process for its bindings is its root, the number of its latest binding, and how
often each of its tickets may still be used, by user code, by the runtime or by a timer. What
happens to a binding is one of four things: the binding is begun, it is completed, its process is
killed, or its start hands in what calls it off. Together with them an account changes in very few
ways.

* `World.unused` — how often a ticket may still be used;
* `Account`, `World.account` — the account of one process;
* `Incident` — what happens to a binding, and `Machine.incidents`, what the next step is to the
  bindings of a process;
* `Affair` — the ways in which an account changes, each with its incidents.
-/
import Actors.Proofs.Transition

namespace Actors

variable {κ σ α : Type} {b : Behaviour κ σ}

open World

/-! ### Unused tickets -/

/-- Whether a timer wakes the process of a ticket. -/
def Timer.wakes (t : Ticket) (u : Timer κ) : Bool :=
  match u.alarm with
  | .wake t' => decide (t = t')
  | .thunk _ => false

/-- How often a ticket may still be used. -/
def World.unused (w : World κ σ) (t : Ticket) : Nat :=
  w.tickets.countP (fun e => decide (e.1 = t)) + w.host.timers.countP (Timer.wakes t)

theorem Host.countP_insertTimer (q : Timer κ → Bool) (u : Timer κ) (us : List (Timer κ)) :
    (insertTimer u us).countP q = us.countP q + if q u then 1 else 0 := by
  induction us with
  | nil => rw [insertTimer, List.countP_singleton, List.countP_nil, Nat.zero_add]
  | cons v us ih =>
    rw [insertTimer]
    split
    · rw [List.countP_cons, List.countP_cons, ih]
      omega
    · rw [List.countP_cons]

namespace World

variable {w w' : World κ σ} {t : Ticket}

theorem unused_of_surroundings (h : w'.surroundings = w.surroundings) (t : Ticket) :
    w'.unused t = w.unused t := by
  have tickets : w'.tickets = w.tickets := congrArg Surroundings.tickets h
  have timers : w'.host.timers = w.host.timers := congrArg Surroundings.timers h
  rw [unused, unused, tickets, timers]

/-- A ticket that is used up counts once less. -/
theorem unused_spend {k : Holder} (h : (t, k) ∈ w.tickets) (t' : Ticket) :
    (w.spend t k).unused t' + (if t' = t then 1 else 0) = w.unused t' := by
  have erased : (w.tickets.erase (t, k)).countP (fun e => decide (e.1 = t')) +
      (if t' = t then 1 else 0) = w.tickets.countP (fun e => decide (e.1 = t')) := by
    rw [(List.perm_cons_erase h).countP_eq, List.countP_cons]
    by_cases ht : t = t'
    · simp [ht]
    · simp [ht, Ne.symm ht]
  show (w.tickets.erase (t, k)).countP _ + w.host.timers.countP _ + _ = _
  rw [unused]
  omega

theorem unused_spend_le (w : World κ σ) (t : Ticket) (k : Holder) (t' : Ticket) :
    (w.spend t k).unused t' ≤ w.unused t' :=
  Nat.add_le_add_right (List.Sublist.countP_le List.erase_sublist) _

/-- A timer that is due takes its ticket along. -/
theorem Due.unused_wake (h : w.Due (.wake t) w') (t' : Ticket) :
    w'.unused t' + (if t' = t then 1 else 0) = w.unused t' := by
  obtain ⟨limit, host, hd, rfl⟩ := h
  unfold Host.takeDue at hd
  split at hd
  · cases hd
  · next u us hu =>
    split at hd
    · obtain ⟨ha, rfl⟩ := Prod.mk.inj (Option.some.inj hd)
      have wakes : Timer.wakes t' u = decide (t' = t) := by rw [Timer.wakes, ha]
      rw [unused, unused, hu, List.countP_cons, wakes]
      simp only [decide_eq_true_eq]
      omega
    · cases hd

theorem Due.unused_thunk {c : κ} (h : w.Due (.thunk c) w') (t' : Ticket) :
    w'.unused t' = w.unused t' := by
  obtain ⟨limit, host, hd, rfl⟩ := h
  unfold Host.takeDue at hd
  split at hd
  · cases hd
  · next u us hu =>
    split at hd
    · obtain ⟨ha, rfl⟩ := Prod.mk.inj (Option.some.inj hd)
      have wakes : Timer.wakes t' u = false := by rw [Timer.wakes, ha]
      rw [unused, unused, hu, List.countP_cons, wakes]
      rfl
    · cases hd

theorem unused_delay (w : World κ σ) (span : Nat) (a : Alarm κ) (t' : Ticket) :
    ({ w with host := w.host.delay span a } : World κ σ).unused t' =
      w.unused t' + if Timer.wakes t' ⟨w.host.keyAfter span, a⟩ then 1 else 0 := by
  rw [unused, unused, Host.delay, Host.countP_insertTimer]
  exact (Nat.add_assoc _ _ _).symm

theorem unused_filter_le (w : World κ σ) (q : Timer κ → Bool) (t' : Ticket) :
    ({ w with host := { w.host with timers := w.host.timers.filter q } } : World κ σ).unused t' ≤
      w.unused t' :=
  Nat.add_le_add_left (List.Sublist.countP_le List.filter_sublist) _

end World

/-! ### Accounts -/

/-- Whether a binding is awaited. -/
def Root.isAwaiting : Root κ → Bool
  | .awaiting .. => true
  | _ => false

/-- What calls the binding off that is awaited. -/
def Root.cancel? : Root κ → Option (Cancel κ)
  | .awaiting _ c => c
  | _ => none

theorem Proc.cancel?_eq (x : Proc κ) : x.cancel? = x.root.cancel? := by
  rw [Proc.cancel?]
  cases x.root <;> rfl

/-- What matters of a process for its bindings: its root with the number of its latest binding, if
there is a process, and how often each of its tickets may still be used. -/
structure Account (κ : Type) where
  standing : Option (Root κ × Nat)
  unused : Nat → Nat

def World.standing (w : World κ σ) (p : Pid) : Option (Root κ × Nat) :=
  (w.procs.get? p).map fun x => (x.root, x.binding)

def World.account (w : World κ σ) (p : Pid) : Account κ :=
  ⟨w.standing p, fun n => w.unused ⟨p, n⟩⟩

namespace World

variable {w w' : World κ σ} {p : Pid} {x y : Proc κ}

theorem standing_of_get? (hx : w.procs.get? p = some x) :
    w.standing p = some (x.root, x.binding) := by
  rw [standing, hx, Option.map_some]

theorem standing_eq_none (hx : w.procs.get? p = none) : w.standing p = none := by
  rw [standing, hx, Option.map_none]

theorem standing_of_procs (h : w'.procs = w.procs) (q : Pid) : w'.standing q = w.standing q := by
  rw [standing, standing, h]

theorem Agree.standing (h : Agree w w') (q : Pid) : w'.standing q = w.standing q := by
  rw [World.standing, World.standing, h.get?]

theorem Put.standing_self (h : Put w w' p y) : w'.standing p = some (y.root, y.binding) :=
  standing_of_get? h.self

theorem Put.standing_other (h : Put w w' p y) {q : Pid} (hq : q ≠ p) :
    w'.standing q = w.standing q := by
  rw [World.standing, World.standing, h.other hq]

theorem standing_enqueue (w : World κ σ) (p q : Pid) :
    (w.enqueue p).standing q = w.standing q :=
  map_get?_enqueue w p (fun _ => rfl) q

theorem standing_dequeue (h : w.dequeue = some (p, w')) (q : Pid) :
    w'.standing q = w.standing q :=
  map_get?_dequeue h (fun _ => rfl) q

theorem standing_send (w : World κ σ) (p : Pid) (v : Value κ) (q : Pid) :
    (w.send p v).standing q = w.standing q := by
  unfold send
  split
  · rw [standing_enqueue]
    refine map_get?_modify w p (fun x => ?_) q
    rfl
  · rfl

end World

/-! ### Incidents -/

/-- What happens to a binding. -/
inductive Incident (κ : Type) where
  /-- Its start begins. -/
  | begun
  /-- It is completed. -/
  | completed
  /-- Its process is killed, while the binding is pending or after that; what calls the binding off
  is run if it is there. -/
  | killed (pending : Bool) (run : Option (Cancel κ))
  /-- Its start hands in what calls it off, which is run at once if the process is dead. -/
  | handed (c : Cancel κ) (run : Bool)

/-- What a deed done to a process is to one of its bindings, with the number of the binding. -/
def Proc.incidents (x : Proc κ) : Deed κ → List (Nat × Incident κ)
  | .moved ⟨.native _, _⟩ => [(x.binding + 1, .begun)]
  | .completed _ => [(x.binding, .completed)]
  | .killed => [(x.binding, .killed x.root.isAwaiting x.root.cancel?)]
  | _ => []

namespace World

/-- What a deed is to the bindings of the process that it is done to. -/
def befalls (w : World κ σ) (p : Pid) (d : Deed κ) : List (Nat × Incident κ) :=
  match w.procs.get? p with
  | some x => x.incidents d
  | none => []

/-- What it is to a binding that something is handed in for it. -/
def handing (w : World κ σ) (p : Pid) (o : Ticket × Cancel κ) : List (Nat × Incident κ) :=
  match w.procs.get? p with
  | some x => if o.1.pid = p then [(o.1.binding, .handed o.2 x.isDead)] else []
  | none => []

/-- What a step with these deeds is to the bindings of a process. -/
def incidents (w : World κ σ) (r : Record κ) (o : Option (Ticket × Cancel κ)) (p : Pid) :
    List (Nat × Incident κ) :=
  (r.of p).flatMap (w.befalls p) ++ o.toList.flatMap (w.handing p)

end World

/-- What the next step is to the bindings of a process. -/
def Machine.incidents (m : Machine κ σ) (p : Pid) : List (Nat × Incident κ) :=
  m.world.incidents m.record m.offer? p

/-- Something happens to a binding by a deed done to its process, or because it is handed in. -/
theorem Machine.mem_incidents {m : Machine κ σ} {p : Pid} {n : Nat} {i : Incident κ} :
    (n, i) ∈ m.incidents p ↔ ∃ x, m.world.procs.get? p = some x ∧
      ((∃ d, (p, d) ∈ m.record ∧ (n, i) ∈ x.incidents d) ∨
        ∃ c, m.offer? = some (⟨p, n⟩, c) ∧ i = .handed c x.isDead) := by
  constructor
  -- The incidents are collected from two sources, deeds and what is handed in; both ways go
  -- through them one by one.
  · intro h
    rcases List.mem_append.1 h with h | h
    · obtain ⟨d, hd, hi⟩ := List.mem_flatMap.1 h
      unfold befalls at hi
      split at hi
      · next x hx => exact ⟨x, hx, .inl ⟨d, Record.mem_of.1 hd, hi⟩⟩
      · cases hi
    · obtain ⟨⟨⟨q, k⟩, c⟩, ho, hi⟩ := List.mem_flatMap.1 h
      unfold handing at hi
      split at hi
      · next x hx =>
        split at hi
        · next hq =>
          obtain rfl : q = p := hq
          obtain ⟨rfl, rfl⟩ := Prod.mk.inj (List.mem_singleton.1 hi)
          exact ⟨x, hx, .inr ⟨c, Option.mem_toList.1 ho, rfl⟩⟩
        · cases hi
      · cases hi
  · rintro ⟨x, hx, ⟨d, hd, h⟩ | ⟨c, ho, rfl⟩⟩
    · refine List.mem_append_left _ (List.mem_flatMap.2 ⟨d, Record.mem_of.2 hd, ?_⟩)
      rw [befalls, hx]
      exact h
    · refine List.mem_append_right _ (List.mem_flatMap.2 ⟨_, Option.mem_toList.2 ho, ?_⟩)
      simp only [handing, hx, if_true, List.mem_singleton]

/-- The ways in which the account of a process changes in one step. Only when no binding is being
started, which is what `free` stands for, a process acts by itself. -/
inductive Affair (free : Prop) : Account κ → List (Nat × Incident κ) → Account κ → Prop where
  /-- Tickets may get lost. -/
  | idle {a a' : Account κ} (h : a'.standing = a.standing) (lost : ∀ n, a'.unused n ≤ a.unused n) :
      Affair free a [] a'
  | spawned {a a' : Account κ} (t : Task κ) (fresh : a.standing = none)
      (h : a'.standing = some (.ready t, 0)) (lost : ∀ n, a'.unused n ≤ a.unused n) :
      Affair free a [] a'
  /-- The process goes on, or exits. -/
  | rooted {a a' : Account κ} {r r' : Root κ} {n : Nat} (own : free)
      (h : a.standing = some (r, n)) (h' : a'.standing = some (r', n)) (live : r ≠ .dead)
      (before : r.isAwaiting = false) (after : r'.isAwaiting = false)
      (lost : ∀ n, a'.unused n ≤ a.unused n) : Affair free a [] a'
  | begun {a a' : Account κ} {r : Root κ} {n : Nat} (own : free)
      (h : a.standing = some (r, n)) (live : r ≠ .dead) (before : r.isAwaiting = false)
      (h' : a'.standing = some (.awaiting (n + 1) none, n + 1))
      (issued : ∀ k, a'.unused k ≤ a.unused k + if k = n + 1 then 1 else 0) :
      Affair free a [(n + 1, .begun)] a'
  | completed {a a' : Account κ} {n k : Nat} {c : Option (Cancel κ)} {t : Task κ}
      (h : a.standing = some (.awaiting k c, n)) (h' : a'.standing = some (.ready t, n))
      (used : ∀ i, a'.unused i + (if i = k then 1 else 0) ≤ a.unused i) :
      Affair free a [(n, .completed)] a'
  | killed {a a' : Account κ} {r : Root κ} {n : Nat} (h : a.standing = some (r, n))
      (live : r ≠ .dead) (h' : a'.standing = some (.dead, n))
      (lost : ∀ n, a'.unused n ≤ a.unused n) :
      Affair free a [(n, .killed r.isAwaiting r.cancel?)] a'
  /-- What calls the binding off is kept. -/
  | kept {a a' : Account κ} {n k : Nat} {c : Option (Cancel κ)} (c' : Cancel κ)
      (h : a.standing = some (.awaiting k c, n))
      (h' : a'.standing = some (.awaiting k (some c'), n))
      (lost : ∀ n, a'.unused n ≤ a.unused n) : Affair free a [(k, .handed c' false)] a'
  /-- What calls the binding off comes too late, and is run if the process is dead. -/
  | late {a a' : Account κ} {r : Root κ} {n k : Nat} (c' : Cancel κ)
      (h : a.standing = some (r, n)) (h' : a'.standing = a.standing)
      (missed : ∀ c, r ≠ .awaiting k c) (lost : ∀ n, a'.unused n ≤ a.unused n) :
      Affair free a [(k, .handed c' r.isDead)] a'

theorem Affair.refl {free : Prop} (a : Account κ) : Affair free a [] a :=
  .idle rfl fun _ => Nat.le_refl _

/-- Tickets may get lost after an affair as well. -/
theorem Affair.lose {free : Prop} {a a' a'' : Account κ} {is : List (Nat × Incident κ)}
    (h : Affair free a is a') (same : a''.standing = a'.standing)
    (lost : ∀ n, a''.unused n ≤ a'.unused n) : Affair free a is a'' := by
  have less : ∀ {a : Account κ}, (∀ n, a'.unused n ≤ a.unused n) → ∀ n, a''.unused n ≤ a.unused n :=
    fun h n => Nat.le_trans (lost n) (h n)
  cases h with
  | idle h l => exact .idle (same.trans h) (less l)
  | spawned t fresh h l => exact .spawned t fresh (same.trans h) (less l)
  | rooted own h h' live before after l =>
    exact .rooted own h (same.trans h') live before after (less l)
  | begun own h live before h' issued =>
    exact .begun own h live before (same.trans h') fun k => Nat.le_trans (lost k) (issued k)
  | completed h h' used =>
    exact .completed h (same.trans h') fun i =>
      Nat.le_trans (Nat.add_le_add_right (lost i) _) (used i)
  | killed h live h' l => exact .killed h live (same.trans h') (less l)
  | kept c h h' l => exact .kept c h (same.trans h') (less l)
  | late c h h' missed l => exact .late c h (same.trans h') missed (less l)

end Actors
