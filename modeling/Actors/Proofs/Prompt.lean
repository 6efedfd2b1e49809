/-
Bindings whose work is done at once.

To start a process, and to send a message, are bindings of the runtime itself. Their work is to perform one
request, and to complete the binding. Nothing comes between: from the transition that begins such a binding
until the binding is completed its work is on top of the stack. So a process that begins no other bindings
performs its requests in the order in which it begins them, each of them once, and it never waits for a
binding at any other time.

* `Binding.request?` — what the work of a binding performs;
* `Machine.performed?` — the request that the next step performs for a process;
* `Machine.Stands`, `Machine.Stands.step` — where a process stands with its bindings;
* `Stretch.stands` — the requests of a process in a part of a run.
-/
import Actors.Proofs.Doing
import Actors.Proofs.Overtaking
import Actors.Proofs.Staying
import Actors.Proofs.Upkeep

namespace Actors

variable {κ σ : Type} {b : Behaviour κ σ} {p : Pid}

open Procedure World

/-! ### Requests -/

/-- The request that the work of a binding performs, if it performs one and completes the binding at once. -/
def Binding.request? : Binding κ → Option (Request κ σ)
  | .spawn t => some (.spawn t)
  | .send q v => some (.send q v)
  | _ => none

/-- The request of a binding that a transition begins. -/
def Move.request? : Move κ → Option (Request κ σ)
  | ⟨.native g, _⟩ => g.request?
  | _ => none

/-- The requests of the bindings that a process has begun. -/
def Deeds.requests (ds : Deeds κ) : List (Request κ σ) :=
  ds.moves.filterMap Move.request?

theorem Deeds.requests_append (ds es : Deeds κ) :
    requests (ds ++ es) = (requests ds ++ requests es : List (Request κ σ)) := by
  rw [requests, moves, List.filterMap_append, List.filterMap_append]
  rfl

theorem Deeds.requests_acts (ds : Deeds κ) : (requests ds.acts : List (Request κ σ)) = requests ds :=
  congrArg (List.filterMap Move.request?) ds.moves_acts

/-- Transitions that begin no binding bring no request. -/
theorem Deeds.requests_eq_nil {ds : Deeds κ} (plain : ∀ mv g, .moved mv ∈ ds → mv.task ≠ .native g) :
    (requests ds : List (Request κ σ)) = [] := by
  refine List.filterMap_eq_nil_iff.2 fun mv hmv => ?_
  obtain ⟨d, hd, same⟩ := List.mem_filterMap.1 hmv
  cases d with
  | moved mv' =>
    obtain rfl := Option.some.inj same
    obtain ⟨t, e⟩ := mv'
    cases t with
    | native g => exact absurd rfl (plain _ g hd)
    | _ => rfl
  | _ => cases same

theorem Binding.holder_of_request? {g : Binding κ} {r : Request κ σ} (h : g.request? = some r) :
    g.holder = .runtime := by
  cases g with
  | code => cases h
  | _ => rfl

/-- The process whose binding is being worked on, on top of the stack. -/
def Machine.starter? (m : Machine κ σ) : Option Pid :=
  m.stack.head?.bind Activity.starting?

/-- The request that the next step performs as part of the work of a binding. -/
def Machine.performed? (p : Pid) (m : Machine κ σ) : Option (Request κ σ) :=
  if m.starter? = some p then
    match m.directive? with
    | some (.request r) => some r
    | _ => none
  else none

theorem Machine.performed?_of_request {m : Machine κ σ} {r : Request κ σ} (h : m.starter? = some p)
    (top : m.directive? = some (.request r)) : m.performed? p = some r := by
  rw [performed?, if_pos h, top]

theorem Machine.performed?_of_starter? {m : Machine κ σ} (h : m.starter? ≠ some p) : m.performed? p = none :=
  if_neg h

theorem Machine.performed?_eq_none {m : Machine κ σ} (silent : ∀ r, m.directive? ≠ some (.request r)) :
    m.performed? p = none := by
  unfold performed?
  split
  · split
    · next r top => exact absurd top (silent r)
    · rfl
  · rfl

theorem Machine.eq_of_performed? {m : Machine κ σ} {r : Request κ σ} (h : m.performed? p = some r) :
    m.starter? = some p ∧ m.directive? = some (.request r) := by
  unfold performed? at h
  split at h
  · next starter =>
    split at h
    · next r' top => exact ⟨starter, Option.some.inj h ▸ top⟩
    · cases h
  · cases h

/-- The runtime is there while the work of a binding performs a request. -/
theorem Reachable.reachable_of_performed {m : Machine κ σ} (run : Reachable b m) {r : Request κ σ}
    (h : m.performed? p = some r) : m.world.reachable = true := by
  obtain ⟨starter, top⟩ := Machine.eq_of_performed? h
  obtain ⟨a, ha, work⟩ := Option.bind_eq_some_iff.1 starter
  have going : m.fault = none := by
    obtain ⟨α, w, fr, k, s, rfl⟩ := Machine.eq_of_directive? top
    rfl
  refine run.reachable_of_tick going (List.countP_pos_iff.2 ⟨a, List.mem_of_mem_head? ha, ?_⟩)
  cases a with
  | tick => rfl
  | _ => cases work

/-! ### Steps -/

section

variable (w : World κ σ)

theorem World.length_resumed (t : Ticket) (task : Task κ) : (w.resumed t task).length ≤ 1 := by
  unfold resumed
  split
  · split <;> simp
  · simp

theorem World.length_completed (k : Holder) (t : Ticket) (task : Task κ) :
    (w.completed k t task).length ≤ 1 := by
  unfold completed
  split
  · exact w.length_resumed t task
  · simp

theorem Directive.length_record (d : Directive κ σ) : (d.record w).length ≤ 1 := by
  cases d with
  | request r =>
    cases r with
    | spawn t =>
      simp only [record, Request.record]
      split
      · split <;> simp
      · simp
    | send q v =>
      simp only [record, Request.record]
      split <;> simp
    | kill q =>
      simp only [record, Request.record]
      split <;> simp
    | complete t task => exact w.length_completed .user t task
    | _ => simp [record, Request.record]
  | settle t task => exact w.length_completed .runtime t task
  | install q label t =>
    simp only [record]
    split <;> simp
  | _ => simp [record]

theorem Activity.length_record (a : Activity κ σ) : (a.record w).length ≤ 1 := by
  have turned : ∀ n q, (w.turned n q).length ≤ 1 := by
    intro n q
    unfold World.turned
    split
    · simp
    · split <;> simp
  have fired : ∀ goal, (w.fired goal).length ≤ 1 := by
    intro goal
    unfold World.fired
    split
    · split
      · split
        · exact w.length_resumed _ _
        · simp
      · simp
    · simp
  unfold record
  split
  · exact Directive.length_record w _
  · exact Directive.length_record w _
  · split <;> simp
  · exact Directive.length_record w _
  · exact turned _ _
  · exact fired _
  · simp

end

/-- A step does one thing at most. -/
theorem Machine.length_record (m : Machine κ σ) : m.record.length ≤ 1 := by
  obtain ⟨w, stack, fault⟩ := m
  cases fault with
  | some f => exact Nat.zero_le _
  | none =>
    cases stack with
    | nil => exact Nat.zero_le _
    | cons a s => exact a.length_record w

/-- What a step does to one process is nothing, or the only thing that it does. -/
theorem Machine.record_of (m : Machine κ σ) (p : Pid) :
    Record.of m.record p = [] ∨ ∃ d, m.record = [(p, d)] ∧ Record.of m.record p = [d] := by
  rcases Nat.le_one_iff_eq_zero_or_eq_one.1 m.length_record with none | one
  · exact .inl (by rw [List.eq_nil_of_length_eq_zero none]; rfl)
  · obtain ⟨⟨q, d⟩, one⟩ := List.length_eq_one_iff.1 one
    rw [one, Record.of_singleton]
    split
    · next same => exact .inr ⟨d, by rw [same], rfl⟩
    · exact .inl rfl

/-- The work of a binding of a process is taken up only when the process begins the binding. -/
theorem Transition.idle {m m' : Machine κ σ} {r : Record κ} (tr : Transition b m r m')
    (idle : ∀ a ∈ m.stack, a.starting? ≠ some p) (going : m'.fault = none)
    (none : ∀ mv g, (p, .moved mv) ∈ r → mv.task ≠ .native g) : ∀ a ∈ m'.stack, a.starting? ≠ some p := by
  -- Most steps replace the activity on top, or put one above it; neither touches those below.
  have top : ∀ {a a' : Activity κ σ} {s : List (Activity κ σ)}, (∀ x ∈ a :: s, x.starting? ≠ some p) →
      a'.starting? ≠ some p → ∀ x ∈ a' :: s, x.starting? ≠ some p := fun all here =>
    List.forall_mem_cons.2 ⟨here, (List.forall_mem_cons.1 all).2⟩
  have push : ∀ {a : Activity κ σ} {s : List (Activity κ σ)}, (∀ x ∈ s, x.starting? ≠ some p) →
      a.starting? ≠ some p → ∀ x ∈ a :: s, x.starting? ≠ some p := fun all here =>
    List.forall_mem_cons.2 ⟨here, all⟩
  have plain : (Option.none : Option Pid) ≠ some p := fun not => by cases not
  cases tr with
  | rest => exact idle
  | code fr hd => exact top idle ((fr.akin _ _).starting? ▸ (List.forall_mem_cons.1 idle).1)
  | driving fr hd =>
    exact push (top idle ((fr.akin _ _).starting? ▸ (List.forall_mem_cons.1 idle).1)) plain
  | broken => cases going
  | finished => exact (List.forall_mem_cons.1 idle).2
  | ended => exact (List.forall_mem_cons.1 idle).2
  -- The only step that takes up the work of a binding reports the transition to it.
  | @started w w' s n k q x mv g budget hx can h task =>
    refine top idle fun same => none mv g (List.mem_singleton.2 ?_) task
    obtain rfl := Option.some.inj same
    rfl
  | @driven w w' s goal n h clock =>
    have below := (List.forall_mem_cons.1 idle).2
    cases s with
    | nil => exact below
    | cons a s => exact top below ((Activity.akin_resume n a).starting? ▸ (List.forall_mem_cons.1 below).1)
  | pumped | thunk => exact push (top idle plain) plain
  | _ => exact top idle plain

/-! ### Where a process stands -/

/-- A process does not await a binding. -/
def World.Up (w : World κ σ) (p : Pid) : Prop :=
  ∀ x, w.bare p = some x → x.root.isAwaiting = false

/-- A process that awaits the latest binding that it has begun, for which the runtime has the ticket. -/
structure World.Awaits (w : World κ σ) (p : Pid) (n : Nat) : Prop where
  root : ∃ x, w.bare p = some x ∧ x.root = .awaiting n none
  ticket : (⟨p, n⟩, Holder.runtime) ∈ w.tickets

namespace Machine

/-- Where a process stands with its bindings, if it begins only those whose work is done at once, and the
request that is still to be performed. -/
inductive Stands (b : Behaviour κ σ) (p : Pid) : Option (Request κ σ) → Machine κ σ → Prop where
  /-- No binding is being worked on. -/
  | free {m : Machine κ σ} (idle : ∀ a ∈ m.stack, a.starting? ≠ some p) (up : m.world.Up p) :
      Stands b p none m
  /-- The work is about to perform its request. -/
  | begun {w : World κ σ} {s : List (Activity κ σ)} {n k i : Nat} {g : Binding κ} {r : Request κ σ}
      (awaits : w.Awaits p i) (request : g.request? = some r) :
      Stands b p (some r) ⟨w, .tick n k (.starting p (.run (g.start b ⟨p, i⟩))) :: s, none⟩
  /-- The work is about to complete the binding. -/
  | done {w : World κ σ} {s : List (Activity κ σ)} {n k i : Nat} (awaits : w.Awaits p i) (v : Value κ) :
      Stands b p none ⟨w, .tick n k (.starting p (.run (direct (.settle ⟨p, i⟩ (.succeed v))))) :: s, none⟩
  /-- The work is over. -/
  | ended {w : World κ σ} {s : List (Activity κ σ)} {n k : Nat} (up : w.Up p) :
      Stands b p none ⟨w, .tick n k (.starting p (.run (.ret ()))) :: s, none⟩

/-- A process that will do something: it stands in the work queue or has its turn, or a continuation of it runs,
or the work of a binding of it. -/
def Awake (m : Machine κ σ) (p : Pid) : Prop :=
  p ∈ m.world.queue ∨ p ∈ Activity.turningOf m.stack ∨ p ∈ Activity.callingOf m.stack ∨
    ∃ a ∈ m.stack, a.starting? = some p

/-- While the pump is idle, no process does anything. -/
theorem Sound.not_awake {m : Machine κ σ} (sound : m.Sound) (idle : m.world.isIdle = true) : ¬ m.Awake p := by
  have quiet := sound.ticksOf_eq_zero idle
  rintro (queued | turning | calling | ⟨a, ha, work⟩)
  · rw [isIdle, Bool.and_eq_true, List.isEmpty_iff] at idle
    rw [idle.2] at queued
    cases queued
  · obtain ⟨a, ha, turn⟩ := List.mem_filterMap.1 turning
    cases a with
    | tick => exact absurd rfl (List.countP_eq_zero.1 quiet _ ha)
    | _ => cases turn
  · rw [Activity.callingOf_eq_nil quiet] at calling
    cases calling
  · cases (Activity.starting?_of_quiet quiet ha).symm.trans work

/-- A process that can make a transition will make one. -/
theorem Sound.awake {m : Machine κ σ} (sound : m.Sound) {x : Proc κ} (hx : m.world.procs.get? p = some x) {t : Task κ}
    (root : x.root = .ready t) : m.Awake p ∨ ∃ c, t = .receive c ∧ x.mailbox = [] := by
  have here : x.Sound _ _ _ := World.Sound.proc sound p x hx
  cases hm : x.move? with
  | none => exact .inr (Proc.move?_eq_none hm root)
  | some mv => exact .inl ((here.runnable fun none => by cases hm.symm.trans none).imp_right .inl)

namespace Stands

variable {m : Machine κ σ} {o : Option (Request κ σ)}

theorem up (h : m.Stands b p o) (idle : ∀ a ∈ m.stack, a.starting? ≠ some p) : m.world.Up p := by
  cases h with
  | free _ up => exact up
  | _ => exact absurd rfl (idle _ List.mem_cons_self)

theorem eq_none (h : m.Stands b p o) (idle : ∀ a ∈ m.stack, a.starting? ≠ some p) : o = none := by
  cases h with
  | begun => exact absurd rfl (idle _ List.mem_cons_self)
  | _ => rfl

/-- A process that is dead has nothing to perform. -/
theorem eq_none_of_dead (h : m.Stands b p o) {x : Proc κ} (hx : m.world.procs.get? p = some x)
    (dead : x.isDead = true) : o = none := by
  cases h with
  | begun awaits =>
    obtain ⟨y, hy, root⟩ := awaits.root
    rw [World.bare, hx] at hy
    obtain rfl := Option.some.inj hy
    rw [← Proc.isDead_bare, Proc.isDead, root] at dead
    cases dead
  | _ => rfl

/-- A process that begins only such bindings is never held up, but when it waits for a message. -/
theorem awake (h : m.Stands b p o) (sound : m.Sound) {x : Proc κ} (hx : m.world.procs.get? p = some x)
    (alive : x.isDead = false) : m.Awake p ∨ ∃ c, x.root = .ready (.receive c) ∧ x.mailbox = [] := by
  have here : x.Sound _ _ _ := World.Sound.proc sound p x hx
  cases root : x.root with
  | ready t =>
    refine (sound.awake hx root).imp_right fun ⟨c, waits, empty⟩ => ⟨c, ?_, empty⟩
    rw [waits]
  | stepping => exact .inl (.inr (.inr (.inl (here.stepping root))))
  | awaiting n c =>
    refine .inl (.inr (.inr (.inr ?_)))
    by_contra none
    have not := h.up (fun a ha work => none ⟨a, ha, work⟩) x.bare (by rw [World.bare, hx]; rfl)
    rw [Proc.bare_root, root] at not
    cases not
  | dead =>
    rw [Proc.isDead, root] at alive
    cases alive

end Stands

end Machine

/-- The runtime's ticket completes the binding that a process awaits. -/
theorem World.Awaits.completed {w : World κ σ} {n : Nat} (h : w.Awaits p n) (here : w.reachable = true)
    (t : Task κ) : w.completed .runtime ⟨p, n⟩ t = [(p, .completed t)] := by
  obtain ⟨⟨x, hx, root⟩, ticket⟩ := h
  obtain ⟨y, hy, rfl⟩ := Option.map_eq_some_iff.1 hx
  obtain ⟨c, awaiting⟩ : ∃ c, y.root = .awaiting n c := by
    cases hr : y.root with
    | awaiting i c =>
      rw [Proc.bare_root, hr] at root
      exact ⟨c, by rw [(Root.awaiting.inj root).1]⟩
    | _ =>
      rw [Proc.bare_root, hr] at root
      cases root
  rw [World.completed, List.contains_iff_mem.2 ticket, here, Bool.and_self, if_pos rfl, resumed, hy, Option.map_some,
    awaiting]
  exact if_pos rfl

/-- A transition that begins a binding with the runtime's ticket leaves the work of this binding on top of the
stack, and the process awaiting it. -/
theorem Transition.begins {m m' : Machine κ σ} {r : Record κ} (tr : Transition b m r m') {mv : Move κ}
    {g : Binding κ} (moved : (p, .moved mv) ∈ r) (task : mv.task = .native g) (holder : g.holder = .runtime) :
    ∃ w n k i s, m' = ⟨w, .tick n k (.starting p (.run (g.start b ⟨p, i⟩))) :: s, none⟩ ∧ w.Awaits p i := by
  have own : ∀ {q : Pid} {mv' : Move κ}, (p, Deed.moved mv) ∈ [(q, Deed.moved mv')] → p = q ∧ mv = mv' := by
    intro q mv' hm
    obtain ⟨hp, hd⟩ := Prod.mk.inj (List.mem_singleton.1 hm)
    exact ⟨hp, Deed.moved.inj hd⟩
  -- What a step reports names its own process, so the two processes are one.
  have bound : ∀ x : Proc κ, x.moved mv.task = x.moved (.native g) := fun x => by rw [task]
  cases tr with
  | code fr hd => cases (Directive.operation hd).isOwn_eq_false _ moved
  | woken op => cases op.isOwn_eq_false _ moved
  | pushed budget hx can h root =>
    obtain ⟨rfl, rfl⟩ := own moved
    rw [bound] at root
    cases root
  | entered budget hx can h root =>
    obtain ⟨rfl, rfl⟩ := own moved
    rw [bound] at root
    cases root
  | exited budget hx can h root =>
    obtain ⟨rfl, rfl⟩ := own moved
    rw [bound] at root
    cases root
  | @started w w' s n k q x mv' g' budget hx can h task' beside =>
    obtain ⟨rfl, rfl⟩ := own moved
    obtain rfl := Task.native.inj (task.symm.trans task')
    refine ⟨w', n + 1, k, x.binding + 1, s, rfl, ⟨_, h.bare_self, ?_⟩, ?_⟩
    · rw [bound]
      rfl
    · rw [show w'.tickets = _ from congrArg Surroundings.tickets beside, holder]
      exact List.mem_cons_self
  | returned => cases List.mem_singleton.1 moved
  | _ => cases moved

theorem Proc.isAwaiting_moved (x : Proc κ) {t : Task κ} (plain : ∀ g, t ≠ .native g) :
    (x.moved t).root.isAwaiting = false := by
  have handled : ∀ o, (x.handled o).root.isAwaiting = false := fun o => by cases o <;> rfl
  cases t with
  | succeed v => exact handled _
  | fail v => exact handled _
  | native g => exact absurd rfl (plain g)
  | _ => rfl

/-- Only the transition that begins a binding makes a process await something. -/
theorem Deed.Leads.up {d : Deed κ} {o o' : Option (Proc κ)} (h : d.Leads o o')
    (up : ∀ x, o = some x → x.root.isAwaiting = false) (plain : ∀ mv g, d = .moved mv → mv.task ≠ .native g) :
    (∀ x, o' = some x → x.root.isAwaiting = false) ∧ ∀ t, d ≠ .completed t := by
  cases h with
  | @sent x v alive => exact ⟨fun y hy => Option.some.inj hy ▸ up x rfl, fun _ not => by cases not⟩
  | dropped v dead => exact ⟨up, fun _ not => by cases not⟩
  | @completed x n c t awaiting =>
    have not := up x rfl
    rw [awaiting] at not
    cases not
  | @moved x mv can =>
    refine ⟨fun y hy => ?_, fun _ not => by cases not⟩
    obtain rfl := Option.some.inj hy
    exact x.isAwaiting_moved fun g => plain mv g rfl
  | _ => exact ⟨fun x hx => Option.some.inj hx ▸ rfl, fun _ not => by cases not⟩

/-- A process that awaits a binding does so until the binding is completed, or the process is killed. -/
theorem Deed.Leads.awaits {d : Deed κ} {x : Proc κ} {o' : Option (Proc κ)} (h : d.Leads (some x) o') {n : Nat}
    (root : x.root = .awaiting n none) :
    (∃ y, o' = some y ∧ y.root = .awaiting n none) ∨ d = .killed ∨ ∃ t, d = .completed t := by
  cases h with
  | sent v alive => exact .inl ⟨_, rfl, root⟩
  | dropped v dead => exact .inl ⟨_, rfl, root⟩
  | killed alive => exact .inr (.inl rfl)
  | completed t awaiting => exact .inr (.inr ⟨t, rfl⟩)
  | moved can =>
    have ready := Proc.root_of_move? can
    cases root.symm.trans ready
  | returned t stepping => cases root.symm.trans stepping

namespace Machine

variable {m : Machine κ σ}

/-- What the work of a binding does to processes leaves its own process awaiting. -/
theorem awaits_step (sound : m.Sound) {n : Nat} (h : m.world.Awaits p n)
    (tickets : (m.step b).world.tickets = m.world.tickets)
    (spares : (p, .killed) ∉ m.record ∧ ∀ t, (p, .completed t) ∉ m.record) : (m.step b).world.Awaits p n := by
  obtain ⟨⟨x, hx, root⟩, ticket⟩ := h
  refine ⟨?_, tickets ▸ ticket⟩
  have life := (transition b m).life sound p
  rcases m.record_of p with none | ⟨d, one, of⟩
  · exact ⟨x, (life.eq_of_nil none).symm.trans hx, root⟩
  · rw [of, hx] at life
    rw [one] at spares
    rcases life.leads.awaits root with awaits | rfl | ⟨t, rfl⟩
    · exact awaits
    · exact absurd (List.mem_singleton.2 rfl) spares.1
    · exact absurd (List.mem_singleton.2 rfl) (spares.2 t)

/-- The requests of bindings neither kill a process nor complete a binding. -/
theorem request_spares (w : World κ σ) {g : Binding κ} {r : Request κ σ} (h : g.request? = some r) (p : Pid) :
    (p, .killed) ∉ r.record w ∧ ∀ t, (p, .completed t) ∉ r.record w := by
  refine ⟨fun killed => ?_, fun t completed => ?_⟩
  · cases Directive.records (d := .request r) killed
    cases g <;> cases h
  · cases Directive.records (d := .request r) completed
    cases g <;> cases h

variable {w : World κ σ} {s : List (Activity κ σ)} {n k i : Nat} {o : Option (Request κ σ)}

/-- The work of a binding performs its request, and goes on to complete the binding. -/
theorem Stands.of_begun {g : Binding κ} {r : Request κ σ} (awaits : w.Awaits p i) (request : g.request? = some r)
    (run : Reachable b ⟨w, .tick n k (.starting p (.run (g.start b ⟨p, i⟩))) :: s, none⟩)
    (going : (Machine.step b ⟨w, .tick n k (.starting p (.run (g.start b ⟨p, i⟩))) :: s, none⟩).fault = none) :
    Machine.directive? ⟨w, .tick n k (.starting p (.run (g.start b ⟨p, i⟩))) :: s, none⟩ = some (.request r) ∧
      Stands b p none (Machine.step b ⟨w, .tick n k (.starting p (.run (g.start b ⟨p, i⟩))) :: s, none⟩) := by
  have here : w.reachable = true := run.reachable_of_tick rfl (List.countP_pos_iff.2 ⟨_, List.mem_cons_self, rfl⟩)
  have spares := request_spares w request p
  have stays := awaits_step (b := b) run.sound awaits
  -- Only a spawn and a send are done within one step; every other binding has no request.
  cases g with
  | spawn t =>
    obtain rfl := Option.some.inj request
    refine ⟨rfl, ?_⟩
    cases hs : w.spawn t with
    | error f =>
      have broken : (Machine.step b ⟨w, .tick n k (.starting p (.run ((Binding.spawn t).start b ⟨p, i⟩))) :: s, none⟩).fault =
          some f := by
        show (stepCode b w (fun c => .tick n k (.starting p c)) s (.request (.spawn t)) _).fault = _
        simp only [stepCode, Directive.step, Request.step, if_pos here, hs]
      cases going.symm.trans broken
    | ok e =>
      obtain ⟨q, w'⟩ := e
      have next : Machine.step b ⟨w, .tick n k (.starting p (.run ((Binding.spawn t).start b ⟨p, i⟩))) :: s, none⟩ =
          ⟨w', .tick n k (.starting p (.run (direct (.settle ⟨p, i⟩ (.succeed (.pid q)))))) :: s, none⟩ := by
        show stepCode b w (fun c => .tick n k (.starting p c)) s (.request (.spawn t)) _ = _
        simp only [stepCode, Directive.step, Request.step, if_pos here, hs]
        rfl
      rw [next] at stays ⊢
      exact .done (stays (congrArg Surroundings.tickets (World.surroundings_spawn hs)) spares) _
  | send q v =>
    obtain rfl := Option.some.inj request
    refine ⟨rfl, ?_⟩
    have next : Machine.step b ⟨w, .tick n k (.starting p (.run ((Binding.send q v).start b ⟨p, i⟩))) :: s, none⟩ =
        ⟨w.send q v, .tick n k (.starting p (.run (direct (.settle ⟨p, i⟩ (.succeed .unit))))) :: s, none⟩ := by
      show stepCode b w (fun c => .tick n k (.starting p c)) s (.request (.send q v))
        (fun _ => direct (.settle ⟨p, i⟩ (.succeed .unit))) = _
      simp only [stepCode, Directive.step, Request.step, if_pos here]
    rw [next] at stays ⊢
    exact .done (stays (congrArg Surroundings.tickets (World.surroundings_send w q v)) spares) _
  | _ => cases request

/-- The work of a binding completes it. -/
theorem Stands.of_done {v : Value κ} (awaits : w.Awaits p i)
    (run : Reachable b ⟨w, .tick n k (.starting p (.run (direct (.settle ⟨p, i⟩ (.succeed v))))) :: s, none⟩)
    (going : (Machine.step b
      ⟨w, .tick n k (.starting p (.run (direct (.settle ⟨p, i⟩ (.succeed v))))) :: s, none⟩).fault = none) :
    Machine.record ⟨w, .tick n k (.starting p (.run (direct (.settle ⟨p, i⟩ (.succeed v))))) :: s, none⟩ =
        [(p, .completed (.succeed v))] ∧
      Stands b p none
        (Machine.step b ⟨w, .tick n k (.starting p (.run (direct (.settle ⟨p, i⟩ (.succeed v))))) :: s, none⟩) := by
  have here : w.reachable = true := run.reachable_of_tick rfl (List.countP_pos_iff.2 ⟨_, List.mem_cons_self, rfl⟩)
  have record : Machine.record
      ⟨w, .tick n k (.starting p (.run (direct (.settle ⟨p, i⟩ (.succeed v))))) :: s, none⟩ =
        [(p, .completed (.succeed v))] := awaits.completed here (.succeed v)
  refine ⟨record, ?_⟩
  have life := (transition b _).life run.sound p
  rw [record, Record.of_singleton, if_pos rfl] at life
  -- The table may refuse the completion, but then a contract is broken.
  cases hc : w.complete .runtime ⟨p, i⟩ (.succeed v) with
  | error f =>
    have broken : (Machine.step b
        ⟨w, .tick n k (.starting p (.run (direct (.settle ⟨p, i⟩ (.succeed v))))) :: s, none⟩).fault = some f := by
      show (stepCode b w (fun c => .tick n k (.starting p c)) s (.settle ⟨p, i⟩ (.succeed v)) Act.ret).fault = _
      simp only [stepCode, Directive.step, Progress.ofExcept, hc]
    cases going.symm.trans broken
  | ok w' =>
    have next : Machine.step b
        ⟨w, .tick n k (.starting p (.run (direct (.settle ⟨p, i⟩ (.succeed v))))) :: s, none⟩ =
          ⟨w', .tick n k (.starting p (.run (.ret ()))) :: s, none⟩ := by
      show stepCode b w (fun c => .tick n k (.starting p c)) s (.settle ⟨p, i⟩ (.succeed v)) Act.ret = _
      simp only [stepCode, Directive.step, Progress.ofExcept, hc]
      rfl
    rw [next] at life ⊢
    refine .ended fun y hy => ?_
    have leads := life.leads
    generalize w.bare p = o at leads
    generalize w'.bare p = o' at leads hy
    cases leads
    obtain rfl := Option.some.inj hy
    rfl

/-- A process that does not await anything goes on, or it begins a binding whose work is then on top. -/
theorem Stands.of_free (idle : ∀ a ∈ m.stack, a.starting? ≠ some p) (up : m.world.Up p) (run : Reachable b m)
    (going : (m.step b).fault = none)
    (prompt : ∀ mv g, (p, .moved mv) ∈ m.record → mv.task = .native g → g.request? (σ := σ) ≠ none) :
    (∃ o, Stands b p o (m.step b) ∧ o.toList = (Record.of m.record p).requests) ∧
      ∀ t, (p, .completed t) ∉ m.record := by
  have tr := transition b m
  have life := tr.life run.sound p
  -- A transition to a binding is the one thing that gives this process work; all else leaves it
  -- free.
  by_cases begins : ∃ mv g, (p, .moved mv) ∈ m.record ∧ mv.task = .native g
  · obtain ⟨mv, g, moved, task⟩ := begins
    obtain ⟨r, request⟩ := Option.ne_none_iff_exists'.1 (prompt mv g moved task)
    obtain ⟨w, n, k, i, s, next, awaits⟩ := tr.begins moved task (Binding.holder_of_request? request)
    rcases m.record_of p with none | ⟨d, one, of⟩
    · rw [Record.mem_of.symm, none] at moved
      cases moved
    · obtain rfl : d = .moved mv := by
        rw [one] at moved
        exact (Prod.mk.inj (List.mem_singleton.1 moved)).2.symm
      refine ⟨⟨some r, next ▸ .begun awaits request, ?_⟩, fun t ht => ?_⟩
      · rw [of]
        obtain ⟨t, e⟩ := mv
        obtain rfl : t = .native g := task
        have here : Move.request? ⟨.native g, e⟩ = some r := request
        show [r] = [⟨.native g, e⟩].filterMap Move.request?
        rw [List.filterMap_cons_some here]
        rfl
      · rw [one] at ht
        cases List.mem_singleton.1 ht
  · have plain : ∀ mv g, (p, .moved mv) ∈ m.record → mv.task ≠ .native g :=
      fun mv g moved task => begins ⟨mv, g, moved, task⟩
    have none : (Record.of m.record p).requests = ([] : List (Request κ σ)) :=
      Deeds.requests_eq_nil fun mv g hmv => plain mv g (Record.mem_of.1 hmv)
    have after : (m.step b).world.Up p ∧ ∀ t, (p, .completed t) ∉ m.record := by
      rcases m.record_of p with nothing | ⟨d, one, of⟩
      · refine ⟨fun x hx => up x ((life.eq_of_nil nothing).trans hx), fun t ht => ?_⟩
        rw [Record.mem_of.symm, nothing] at ht
        cases ht
      · rw [of] at life
        obtain ⟨stays, open?⟩ := life.leads.up up fun mv g hd => plain mv g (one ▸ hd ▸ List.mem_singleton.2 rfl)
        refine ⟨stays, fun t ht => open? t ?_⟩
        rw [one] at ht
        exact (Prod.mk.inj (List.mem_singleton.1 ht)).2.symm
    exact ⟨⟨.none, .free (tr.idle idle going plain) after.1, none.symm⟩, after.2⟩

/-- Every step keeps to the bindings whose work is done at once. What is performed has been begun before, or is
still to be performed, and bindings are completed with successes. -/
theorem Stands.step (h : Stands b p o m) (run : Reachable b m) (going : (m.step b).fault = none)
    (prompt : ∀ mv g, (p, .moved mv) ∈ m.record → mv.task = .native g → g.request? (σ := σ) ≠ none) :
    ∃ o', Stands b p o' (m.step b) ∧
      (m.performed? p).toList ++ o'.toList = o.toList ++ (Record.of m.record p).requests ∧
      ∀ t, (p, .completed t) ∈ m.record → ∃ v, t = .succeed v := by
  -- One case for each moment of the work: none, before its request, before its completion, after
  -- it.
  cases h with
  | free idle up =>
    obtain ⟨⟨o', stands, same⟩, open?⟩ := of_free idle up run going prompt
    have silent : m.performed? p = none := by
      refine performed?_of_starter? fun starter => ?_
      obtain ⟨a, top, work⟩ := Option.bind_eq_some_iff.1 starter
      exact idle a (List.mem_of_mem_head? top) work
    exact ⟨o', stands, by rw [silent]; exact same, fun t ht => absurd ht (open? t)⟩
  | @begun w s n k i g r awaits request =>
    obtain ⟨top, stands⟩ := of_begun awaits request run going
    have none : (Record.of _ p).requests = ([] : List (Request κ σ)) :=
      Deeds.requests_eq_nil fun mv g hmv _ => by
        cases top.symm.trans ((transition b _).still_of_moved (Record.mem_of.1 hmv))
    refine ⟨_, stands, ?_, fun t ht => ?_⟩
    · rw [performed?_of_request rfl top, none]
      rfl
    · rw [record_of_directive? top] at ht
      exact absurd ht ((request_spares w request p).2 t)
  | @done w s n k i awaits v =>
    obtain ⟨record, stands⟩ := of_done awaits run going
    refine ⟨_, stands, ?_, fun t ht => ?_⟩
    · rw [record, Record.of_singleton, if_pos rfl, performed?_eq_none fun r top => by cases top]
      rfl
    · rw [record] at ht
      exact ⟨v, Deed.completed.inj (Prod.mk.inj (List.mem_singleton.1 ht)).2⟩
  | @ended w s n k up =>
    -- The tick is the only one on the stack, so no other work of this process lies below.
    have quiet : Activity.ticksOf s = 0 := by
      have one := run.queue_and_pump.2.2.1
      have all := Activity.ticksOf_tick n k (.starting p (.run (.ret ()))) s
      dsimp only at one
      omega
    refine ⟨none, .free (List.forall_mem_cons.2 ⟨(fun not => by cases not), fun a ha work => ?_⟩) up, ?_, fun t ht => ?_⟩
    · cases (Activity.starting?_of_quiet quiet ha).symm.trans work
    · rw [performed?_eq_none fun r top => by cases top]
      rfl
    · cases ht

end Machine

/-! ### Parts of runs -/

namespace Stretch

variable {m₀ m : Machine κ σ} {ms : List (Machine κ σ)}

/-- A run goes on with a part of a run. -/
theorem trail (h : Stretch b m₀ ms m) {past : List (Machine κ σ)} (before : Trail b m₀ past) :
    Trail b m (past ++ ms) := by
  induction h with
  | refl => rwa [List.append_nil]
  | step _ ih =>
    rw [← List.append_assoc]
    exact ih.step
  | load code _ hs hf ih => exact ih.load code hs hf

/-- In every part of a run a process performs the requests of the bindings that it begins, in this order, if
their work is done at once. One at most is still to be performed. Its bindings are completed with successes. To
see that it begins no other bindings until some moment one may use that those before have been completed like
this. -/
theorem stands (h : Stretch b m₀ ms m) (run : Reachable b m₀) (idle : ∀ a ∈ m₀.stack, a.starting? ≠ some p)
    (up : m₀.world.Up p) (going : m.fault = none)
    (prompt : ∀ ms' m', ms' <+: ms → Stretch b m₀ ms' m' →
      (∀ t, .completed t ∈ Record.of (ms'.flatMap Machine.record) p → ∃ v, t = .succeed v) →
        ∀ mv g, .moved mv ∈ Record.of (ms'.flatMap Machine.record) p → mv.task = .native g →
          g.request? (σ := σ) ≠ none) :
    (∃ o, m.Stands b p o ∧ ms.filterMap (Machine.performed? p) ++ o.toList =
        (Record.of (ms.flatMap Machine.record) p).requests) ∧
      ∀ t, .completed t ∈ Record.of (ms.flatMap Machine.record) p → ∃ v, t = .succeed v := by
  induction h with
  | refl => exact ⟨⟨none, .free idle up, rfl⟩, fun t ht => by cases ht⟩
  | @step m ms h ih =>
    obtain ⟨⟨o, stands, requests⟩, successes⟩ := ih (Machine.going_of_step going) fun ms' m' first =>
      prompt ms' m' (first.trans (List.prefix_append _ _))
    have split : Record.of ((ms ++ [m]).flatMap Machine.record) p =
        Record.of (ms.flatMap Machine.record) p ++ Record.of m.record p := by
      rw [List.flatMap_append, List.flatMap_singleton, Record.of_append]
    have begins : ∀ mv g, (p, .moved mv) ∈ m.record → mv.task = .native g → g.request? (σ := σ) ≠ none := by
      intro mv g moved
      refine prompt _ _ List.prefix_rfl h.step (fun t ht => ?_) mv g (split ▸ List.mem_append_right _ (Record.mem_of.2 moved))
      rcases List.mem_append.1 (split ▸ ht) with before | now
      · exact successes t before
      · -- A step in which the process makes a transition does nothing else.
        rcases m.record_of p with none | ⟨d, -, of⟩
        · rw [none] at now
          cases now
        · rw [← Record.mem_of, of] at moved
          rw [of, ← List.mem_singleton.1 moved] at now
          cases List.mem_singleton.1 now
    obtain ⟨o', stands', more, completed⟩ := stands.step (h.reachable run) going begins
    refine ⟨⟨o', stands', ?_⟩, fun t ht => ?_⟩
    · rw [split, Deeds.requests_append, ← requests, List.append_assoc, ← more, filterMap_snoc, List.append_assoc]
    · rcases List.mem_append.1 (split ▸ ht) with before | now
      · exact successes t before
      · exact completed t (Record.mem_of.1 now)
  | load code h hs hf ih =>
    obtain ⟨⟨o, stands, requests⟩, successes⟩ := ih hf prompt
    refine ⟨?_, successes⟩
    -- Code is loaded when the stack is empty, and then no work is under way.
    cases stands with
    | free idle up => exact ⟨none, .free (List.forall_mem_singleton.2 fun not => by cases not) up, requests⟩
    | _ => cases hs

end Stretch

namespace Trail

variable {m : Machine κ σ} {ms : List (Machine κ σ)}

/-- The part of a run from a machine on that it passes through. -/
theorem stretch (h : Trail b m ms) {past during : List (Machine κ σ)} {m₁ : Machine κ σ}
    (split : ms = past ++ m₁ :: during) : Stretch b m₁ (m₁ :: during) m := by
  induction h generalizing during with
  | new config user code => cases past <;> cases split
  | load code _ hs hf ih => exact (ih split).load code hs hf
  | @step m ms h ih =>
    rcases snoc_eq_append_cons split with ⟨rfl, rfl, rfl⟩ | ⟨during, rfl, before⟩
    · exact Stretch.refl.step
    · exact (ih before).step

/-- A whole run is one from a new runtime on. -/
theorem whole (h : Trail b m ms) : ∃ config user code,
    Stretch b (.load (.new config user) (Procedure.ofCode code)) ms m := by
  induction h with
  | new config user code => exact ⟨config, user, code, .refl⟩
  | step _ ih =>
    obtain ⟨config, user, code, stretch⟩ := ih
    exact ⟨config, user, code, stretch.step⟩
  | load code' _ hs hf ih =>
    obtain ⟨config, user, code, stretch⟩ := ih
    exact ⟨config, user, code, stretch.load code' hs hf⟩

/-- What a process has done that has made a transition is what the task comes to with which it has been
started. -/
theorem runs_of_moved (h : Trail b m ms) {mv : Move κ}
    (moved : .moved mv ∈ Record.of (ms.flatMap Machine.record) p) : ∃ t d,
      .spawned t ∈ Record.of (ms.flatMap Machine.record) p ∧
        (Doing.task t []).Runs b (Record.of (ms.flatMap Machine.record) p).acts d := by
  obtain ⟨none, some⟩ := (h.history.life p).interpreted (h.history.returns p).1
  cases hx : m.world.bare p with
  | none =>
    have act : .moved mv ∈ (Record.of (ms.flatMap Machine.record) p).acts := List.mem_filter.2 ⟨moved, rfl⟩
    rw [none hx] at act
    cases act
  | some x =>
    obtain ⟨t, d, interpreted⟩ := some x hx
    exact ⟨t, d, interpreted.started, interpreted.runs⟩

/-- A process whose task begins only bindings whose work is done at once performs the requests of these
bindings, in this order, and nothing else as the work of a binding. -/
theorem stands (h : Trail b m ms) (going : m.fault = none) {t : Task κ}
    (spawned : .spawned t ∈ Record.of (ms.flatMap Machine.record) p)
    (prompt : ∀ ds d, (Doing.task t []).Runs b ds d → (∀ t', .completed t' ∈ ds → ∃ v, t' = .succeed v) →
      ∀ mv g, .moved mv ∈ ds → mv.task = .native g → g.request? (σ := σ) ≠ none) :
    (∃ o, m.Stands b p o ∧ ms.filterMap (Machine.performed? p) ++ o.toList =
        (Record.of (ms.flatMap Machine.record) p).requests) ∧
      ∀ t', .completed t' ∈ Record.of (ms.flatMap Machine.record) p → ∃ v, t' = .succeed v := by
  obtain ⟨config, user, code, stretch⟩ := h.whole
  refine stretch.stands (.new config user code) (List.forall_mem_singleton.2 fun not => by cases not)
    (fun x hx => ?_) going fun ms' m' first stretch' successes mv g moved task => ?_
  · have none : (World.new (κ := κ) config user).bare p = none := by rw [World.bare, get?_new, Option.map_none]
    cases none.symm.trans hx
  have before : Trail b m' ms' := stretch'.trail (.new config user code)
  obtain ⟨rest, rfl⟩ := first
  obtain ⟨t', d, started, runs⟩ := before.runs_of_moved moved
  have same : t' = t := by
    refine (h.history.life p).spawned_unique.2 t' t ?_ spawned
    rw [List.flatMap_append, Record.of_append]
    exact List.mem_append_left _ started
  subst same
  exact prompt _ d runs (fun t ht => successes t (List.mem_of_mem_filter ht)) mv g
    (List.mem_filter.2 ⟨moved, rfl⟩) task

/-- The same from a moment on in which the process awaits nothing and no binding of it is being worked on. -/
theorem stands_since (h : Trail b m ms) (going : m.fault = none) {past during : List (Machine κ σ)}
    {m₁ : Machine κ σ} (split : ms = past ++ m₁ :: during) {t : Task κ} {d₁ : Doing κ}
    (spawned : .spawned t ∈ Record.of (past.flatMap Machine.record) p)
    (runs : (Doing.task t []).Runs b (Record.of (past.flatMap Machine.record) p).acts d₁)
    (idle : ∀ a ∈ m₁.stack, a.starting? ≠ some p) (up : m₁.world.Up p)
    (prompt : ∀ ds d, d₁.Runs b ds d → (∀ t', .completed t' ∈ ds → ∃ v, t' = .succeed v) →
      ∀ mv g, .moved mv ∈ ds → mv.task = .native g → g.request? (σ := σ) ≠ none) :
    (∃ o, m.Stands b p o ∧ (m₁ :: during).filterMap (Machine.performed? p) ++ o.toList =
        (Record.of ((m₁ :: during).flatMap Machine.record) p).requests) ∧
      ∀ t', .completed t' ∈ Record.of ((m₁ :: during).flatMap Machine.record) p → ∃ v, t' = .succeed v := by
  have before := h.past split
  refine (h.stretch split).stands before.reachable idle up going fun ms' m' _ stretch' successes mv g moved task => ?_
  have here : Trail b m' (past ++ ms') := stretch'.trail before
  have both : Record.of ((past ++ ms').flatMap Machine.record) p =
      Record.of (past.flatMap Machine.record) p ++ Record.of (ms'.flatMap Machine.record) p := by
    rw [List.flatMap_append, Record.of_append]
  obtain ⟨t', d, started, all⟩ := here.runs_of_moved (both ▸ List.mem_append_right _ moved)
  have same : t' = t :=
    (here.history.life p).spawned_unique.2 t' t started (both ▸ List.mem_append_left _ spawned)
  subst same
  rw [both, Deeds.acts, List.filter_append] at all
  exact prompt _ d (runs.later all) (fun t ht => successes t (List.mem_of_mem_filter ht)) mv g
    (List.mem_filter.2 ⟨moved, rfl⟩) task

end Trail

end Actors
