/-
How a world changes.

To the scheduler a world is its processes, its work queue and its pump. Most functions on worlds
leave all of these alone, and most others change a single process. The functions that act on a
binding decide by the root of its process what they do; this is said once for each of them here, and
nothing else looks into them.

* `World.Agree`, `World.Put` — worlds that agree in what concerns the scheduler, but for one
  process in the second case;
* `World.put_kill`, `World.Attaches`, `World.Resumes`, `World.Completes` — what it is to kill a
  process, to hand something in for a binding, and to complete a binding.
-/
import Actors.Proofs.Life
import Actors.Proofs.Surroundings

namespace Actors

variable {κ σ : Type}

/-- Whether a tick is a turn of the scheduler. -/
def Tick.isPump : Tick κ → Bool
  | .pump => true
  | .thunk _ => false

/-- The number of turns of the scheduler that wait in a host. -/
def Host.pumps (h : Host κ) : Nat :=
  h.ticks.countP Tick.isPump

theorem Host.pumps_defer (h : Host κ) (t : Tick κ) :
    (h.defer t).pumps = h.pumps + if t.isPump then 1 else 0 := by
  simp only [Host.pumps, Host.defer, List.countP_append, List.countP_singleton]

/-- Whether a name has been handed out, and no process has been started under it. -/
def ProcTable.isFree (t : ProcTable κ) (p : Pid) : Bool :=
  decide (p.number < t.nextNumber) && (t.get? p).isNone

namespace World

/-- Two worlds agree in everything that the scheduler reads. -/
structure Agree (w w' : World κ σ) : Prop where
  get? : ∀ q, w'.procs.get? q = w.procs.get? q
  queue : w'.queue = w.queue
  armed : w'.armed = w.armed
  pumps : w'.host.pumps = w.host.pumps
  limit : w'.limit = w.limit

/-- Two worlds agree in everything that the scheduler reads, but for one process of the second. -/
structure Put (w w' : World κ σ) (p : Pid) (y : Proc κ) : Prop where
  get? : ∀ q, w'.procs.get? q = if q = p then some y else w.procs.get? q
  queue : w'.queue = w.queue
  armed : w'.armed = w.armed
  pumps : w'.host.pumps = w.host.pumps
  limit : w'.limit = w.limit

theorem Agree.refl (w : World κ σ) : Agree w w :=
  ⟨fun _ => rfl, rfl, rfl, rfl, rfl⟩

theorem Agree.trans {w w' w'' : World κ σ} (h : Agree w w') (h' : Agree w' w'') : Agree w w'' :=
  ⟨fun q => (h'.get? q).trans (h.get? q), h'.queue.trans h.queue, h'.armed.trans h.armed,
    h'.pumps.trans h.pumps, h'.limit.trans h.limit⟩

theorem Put.agree {w w' w'' : World κ σ} {p : Pid} {y : Proc κ} (h : Put w w' p y)
    (h' : Agree w' w'') : Put w w'' p y :=
  ⟨fun q => (h'.get? q).trans (h.get? q), h'.queue.trans h.queue, h'.armed.trans h.armed,
    h'.pumps.trans h.pumps, h'.limit.trans h.limit⟩

theorem Put.put {w w' w'' : World κ σ} {p : Pid} {y z : Proc κ} (h : Put w w' p y)
    (h' : Put w' w'' p z) : Put w w'' p z := by
  refine ⟨fun q => ?_, h'.queue.trans h.queue, h'.armed.trans h.armed, h'.pumps.trans h.pumps,
    h'.limit.trans h.limit⟩
  rw [h'.get?, h.get?]
  split <;> rfl

theorem Put.same {w w' : World κ σ} {p : Pid} {x : Proc κ} (h : Put w w' p x)
    (hx : w.procs.get? p = some x) : Agree w w' := by
  refine ⟨fun q => ?_, h.queue, h.armed, h.pumps, h.limit⟩
  rw [h.get?]
  split
  · next hq => rw [hq, hx]
  · rfl

theorem Put.self {w w' : World κ σ} {p : Pid} {y : Proc κ} (h : Put w w' p y) :
    w'.procs.get? p = some y := by
  rw [h.get?, if_pos rfl]

theorem Put.other {w w' : World κ σ} {p q : Pid} {y : Proc κ} (h : Put w w' p y) (hq : q ≠ p) :
    w'.procs.get? q = w.procs.get? q := by
  rw [h.get?, if_neg hq]

theorem agree_note (w : World κ σ) (e : Event κ) : Agree w (w.note e) :=
  ⟨fun _ => rfl, rfl, rfl, rfl, rfl⟩

theorem agree_spend (w : World κ σ) (t : Ticket) (h : Holder) : Agree w (w.spend t h) :=
  ⟨fun _ => rfl, rfl, rfl, rfl, rfl⟩

theorem agree_retain (w : World κ σ) : Agree w w.retain := by
  unfold retain
  split <;> exact ⟨fun _ => rfl, rfl, rfl, rfl, rfl⟩

theorem agree_modifyProgram (w : World κ σ) (i : ProgramId)
    (f : RunningProgram κ → RunningProgram κ) : Agree w (w.modifyProgram i f) := by
  unfold modifyProgram
  split <;> exact ⟨fun _ => rfl, rfl, rfl, rfl, rfl⟩

theorem agree_reserve {w w' : World κ σ} {p : Pid} (h : w.reserve = .ok (p, w')) :
    Agree w w' := by
  unfold reserve at h
  split at h
  · obtain ⟨rfl, rfl⟩ := Prod.mk.inj (Except.ok.inj h)
    exact ⟨ProcTable.get?_reserve _, rfl, rfl, rfl, rfl⟩
  · cases h

theorem put_set {w : World κ σ} {p : Pid} (y : Proc κ) (h : p.number < w.procs.nextNumber) :
    Put w { w with procs := w.procs.set p y } p y :=
  ⟨ProcTable.get?_set y h, rfl, rfl, rfl, rfl⟩

theorem put_modify {w : World κ σ} {p : Pid} {x : Proc κ} (hx : w.procs.get? p = some x)
    (f : Proc κ → Proc κ) : Put w (w.modify p f) p (f x) := by
  unfold modify
  rw [hx]
  exact put_set (f x) (ProcTable.number_lt_of_get? hx)

section

variable {β : Type} {f : Proc κ → β}

/-- A change of a process that a function does not see. -/
theorem Put.map_get? {w w' : World κ σ} {p : Pid} {x y : Proc κ} (h : Put w w' p y)
    (hx : w.procs.get? p = some x) (hf : f y = f x) (q : Pid) :
    (w'.procs.get? q).map f = (w.procs.get? q).map f := by
  rw [h.get?]
  split
  · next hq => rw [hq, hx, Option.map_some, Option.map_some, hf]
  · rfl

theorem map_get?_modify (w : World κ σ) (p : Pid) {g : Proc κ → Proc κ}
    (hf : ∀ x, f (g x) = f x) (q : Pid) :
    ((w.modify p g).procs.get? q).map f = (w.procs.get? q).map f := by
  cases hx : w.procs.get? p with
  | none => rw [modify, hx]
  | some x => exact (put_modify hx g).map_get? hx (hf x) q

/-- When a process is put into the queue only its flag changes. -/
theorem map_get?_enqueue (w : World κ σ) (p : Pid) (hf : ∀ x, f { x with queued := true } = f x)
    (q : Pid) : ((w.enqueue p).procs.get? q).map f = (w.procs.get? q).map f := by
  unfold enqueue
  cases hx : w.procs.get? p with
  | none => rfl
  | some x =>
    simp only
    split
    · rfl
    · have put : Put w { w with procs := w.procs.set p { x with queued := true } } p
          { x with queued := true } := put_set _ (ProcTable.number_lt_of_get? hx)
      rw [← put.map_get? hx (hf x) q, arm]
      split <;> rfl

theorem map_get?_dequeue {w w' : World κ σ} {p : Pid} (h : w.dequeue = some (p, w'))
    (hf : ∀ x, f { x with queued := false } = f x) (q : Pid) :
    (w'.procs.get? q).map f = (w.procs.get? q).map f := by
  unfold dequeue at h
  split at h
  · cases h
  · obtain ⟨rfl, rfl⟩ := Prod.mk.inj (Option.some.inj h)
    exact map_get?_modify _ _ hf q

end

theorem isAlive_of_get? {w : World κ σ} {p : Pid} {x : Proc κ} (hx : w.procs.get? p = some x) :
    w.procs.isAlive p = !x.isDead := by
  simp only [ProcTable.isAlive, hx]

/-- The deed of making a task the root of a process, if the process awaits the binding of a
ticket. -/
def resumed (w : World κ σ) (t : Ticket) (task : Task κ) : Record κ :=
  match (w.procs.get? t.pid).map Proc.root with
  | some (.awaiting n _) => if n = t.binding then [(t.pid, .completed task)] else []
  | _ => []

/-- The deed of completing a binding with a ticket that its holder has. -/
def completed (w : World κ σ) (h : Holder) (t : Ticket) (task : Task κ) : Record κ :=
  if w.tickets.contains (t, h) && w.reachable then w.resumed t task else []

section

variable {w w' : World κ σ} {p : Pid} {x : Proc κ} {t : Ticket}

theorem kill_of_dead (h : w.procs.isAlive p = false) : w.kill p = (w, none) := by
  unfold kill
  cases hx : w.procs.get? p with
  | none => rfl
  | some x =>
    rw [isAlive_of_get? hx, Bool.not_eq_false'] at h
    simp only [h, if_true]

theorem kill_of_alive (hx : w.procs.get? p = some x) (alive : x.isDead = false) :
    w.kill p = ({ w with procs := w.procs.set p x.killed }.note (.killed p x.cancel?.isSome),
      x.cancel?) := by
  simp only [kill, hx, alive, Bool.false_eq_true, if_false]

theorem put_kill (hx : w.procs.get? p = some x) (alive : x.isDead = false) :
    Put w (w.kill p).1 p x.killed := by
  rw [kill_of_alive hx alive]
  have put : Put w { w with procs := w.procs.set p x.killed } p x.killed :=
    put_set x.killed (ProcTable.number_lt_of_get? hx)
  exact put.agree (agree_note _ (.killed p x.cancel?.isSome))

/-- What it is to hand something in for a binding: it is kept as long as the binding is awaited, and
handed back if the process is dead. -/
inductive Attaches (w : World κ σ) (t : Ticket) (c : Cancel κ) :
    World κ σ × Option (Cancel κ) → Prop where
  | kept {w' : World κ σ} {x : Proc κ} {c' : Option (Cancel κ)} (hx : w.procs.get? t.pid = some x)
      (awaiting : x.root = .awaiting t.binding c')
      (h : Put w w' t.pid { x with root := .awaiting t.binding (some c) }) :
      Attaches w t c (w', none)
  | late {x : Proc κ} (hx : w.procs.get? t.pid = some x) (dead : x.root = .dead) :
      Attaches w t c (w, some c)
  | lost (missed : ∀ x, w.procs.get? t.pid = some x →
      x.root ≠ .dead ∧ ∀ c', x.root ≠ .awaiting t.binding c') : Attaches w t c (w, none)

theorem attaches (w : World κ σ) (t : Ticket) (c : Cancel κ) : Attaches w t c (w.attach t c) := by
  unfold attach
  cases hx : w.procs.get? t.pid with
  | none => exact .lost fun x hx' => by cases hx.symm.trans hx'
  | some x =>
    -- A process that is alive and does not await this binding is too late for it in the same way
    -- whatever it does.
    have missed : x.root ≠ .dead → (∀ c', x.root ≠ .awaiting t.binding c') →
        ∀ y, w.procs.get? t.pid = some y →
          y.root ≠ .dead ∧ ∀ c', y.root ≠ .awaiting t.binding c' := by
      intro live other y hy
      obtain rfl := Option.some.inj (hx.symm.trans hy)
      exact ⟨live, other⟩
    simp only
    cases hr : x.root with
    | dead => exact .late hx hr
    | awaiting n c' =>
      simp only
      split
      · next hn =>
        subst hn
        exact .kept hx hr (put_set _ (ProcTable.number_lt_of_get? hx))
      · next hn =>
        refine .lost (missed (by simp [hr]) fun c'' h => hn ?_)
        exact (Root.awaiting.inj (hr.symm.trans h)).1
    | ready u => exact .lost (missed (by simp [hr]) (by simp [hr]))
    | stepping => exact .lost (missed (by simp [hr]) (by simp [hr]))

theorem attach_of_dead (hx : w.procs.get? t.pid = some x) (dead : x.root = .dead) (c : Cancel κ) :
    w.attach t c = (w, some c) := by
  simp only [attach, hx, dead]

/-- What it is to make a task the root of a process that awaits a binding, with the deeds: the
binding is completed, the task is of no use any more, or a contract is broken. -/
inductive Resumes (w : World κ σ) (t : Ticket) (task : Task κ) :
    Record κ → Except Fault (World κ σ) → Prop where
  | completed {w' : World κ σ} {x : Proc κ} {c : Option (Cancel κ)}
      (hx : w.procs.get? t.pid = some x) (awaiting : x.root = .awaiting t.binding c)
      (h : Put w w' t.pid { x with root := .ready task })
      (beside : w'.surroundings = w.surroundings) :
      Resumes w t task [(t.pid, .completed task)] (.ok (w'.enqueue t.pid))
  | discarded {w' : World κ σ} (gone : ∀ x, w.procs.get? t.pid = some x → x.root = .dead)
      (h : Agree w w') (beside : w'.surroundings = w.surroundings) : Resumes w t task [] (.ok w')
  | failed {x : Proc κ} (hx : w.procs.get? t.pid = some x) (live : x.root ≠ .dead)
      (missed : ∀ c, x.root ≠ .awaiting t.binding c) :
      Resumes w t task [] (.error (.notAwaiting t.binding))

theorem resumes (w : World κ σ) (t : Ticket) (task : Task κ) :
    Resumes w t task (w.resumed t task) (w.resume t task) := by
  unfold resume resumed
  cases hx : w.procs.get? t.pid with
  | none => exact .discarded (fun x hx' => by cases hx.symm.trans hx') (.refl w) rfl
  | some x =>
    simp only [Option.map_some]
    cases hr : x.root with
    | dead =>
      refine .discarded (fun y hy => ?_) (agree_note _ _) rfl
      rw [← Option.some.inj (hx.symm.trans hy), hr]
    | awaiting n c =>
      simp only
      split
      · next hn =>
        subst hn
        exact .completed hx hr (put_set _ (ProcTable.number_lt_of_get? hx)) rfl
      · next hn =>
        refine .failed hx (by simp [hr]) fun c' h => hn ?_
        exact (Root.awaiting.inj (hr.symm.trans h)).1
    | ready u => exact .failed hx (by simp [hr]) (by simp [hr])
    | stepping => exact .failed hx (by simp [hr]) (by simp [hr])

/-- What it is to complete a binding with a ticket. Without the ticket, or the runtime, nothing is
done to any process. -/
inductive Completes (w : World κ σ) (k : Holder) (t : Ticket) (task : Task κ) :
    Record κ → Except Fault (World κ σ) → Prop where
  | used (held : (t, k) ∈ w.tickets) :
      Completes w k t task (w.resumed t task) ((w.spend t k).resume t task)
  | lost (held : (t, k) ∈ w.tickets) : Completes w k t task [] (.ok (w.spend t k))
  | absent : Completes w k t task [] (.ok w)

theorem completes (w : World κ σ) (k : Holder) (t : Ticket) (task : Task κ) :
    Completes w k t task (w.completed k t task) (w.complete k t task) := by
  unfold complete completed
  by_cases held : w.tickets.contains (t, k) = true
  · have mem := List.contains_iff_mem.1 held
    by_cases here : w.reachable = true
    · rw [if_pos held, if_pos here, if_pos (by rw [held, here]; rfl)]
      exact .used mem
    · rw [if_pos held, if_neg here, if_neg fun h => here (Bool.and_eq_true_iff.1 h).2]
      exact .lost mem
  · rw [if_neg held, if_neg fun h => held (Bool.and_eq_true_iff.1 h).1]
    exact .absent

/-- Making a task the root of a process does nothing else to any process. -/
theorem eq_completed_of_mem_resumed {task : Task κ} {e : Pid × Deed κ}
    (h : e ∈ w.resumed t task) : e = (t.pid, .completed task) := by
  have how := w.resumes t task
  generalize w.resumed t task = r at h how
  generalize w.resume t task = g at how
  cases how with
  | completed => exact List.mem_singleton.1 h
  | _ => cases h

theorem eq_completed_of_mem {k : Holder} {task : Task κ} {e : Pid × Deed κ}
    (h : e ∈ w.completed k t task) : e = (t.pid, .completed task) := by
  have how := w.completes k t task
  generalize w.completed k t task = r at h how
  generalize w.complete k t task = g at how
  cases how with
  | used => exact eq_completed_of_mem_resumed h
  | _ => cases h

end

end World

end Actors
