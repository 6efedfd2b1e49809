/-
What one operation of code does to the processes.

Code acts on a world by directives. There are many of them, but to the scheduler they come to very
few: a message is put into a mailbox, a process is started, killed, or completed, or what calls a
binding off is kept. Everything else leaves the processes, the work queue and the pump alone.

* `Directive.record` — the deeds that a directive does, `Directive.offer?`, what it hands in to call
  a binding off, and `Directive.calledOff?`, what it runs to do so;
* `Operation` — what an operation can do at all, and `Directive.operation`: every directive does
  what its record says.
-/
import Actors.Proofs.Change

namespace Actors

variable {κ σ α : Type}

/-- The deeds of a request. -/
def Request.record (w : World κ σ) : Request κ σ → Record κ
  | .spawn t =>
    if w.reachable then
      match w.reserve with
      | .ok (p, _) => [(p, .spawned t)]
      | .error _ => []
    else []
  | .send p v =>
    if w.reachable then [(p, if w.procs.isAlive p then .sent v else .dropped v)] else []
  | .kill p => if w.reachable && w.procs.isAlive p then [(p, .killed)] else []
  | .complete t task => w.completed .user t task
  | _ => []

/-- The deeds of a directive. -/
def Directive.record (w : World κ σ) : Directive κ σ → Record κ
  | .request r => r.record w
  | .settle t task => w.completed .runtime t task
  | .install p _ t => if w.procs.isFree p then [(p, .spawned t)] else []
  | _ => []

/-- What a directive hands in to call a binding off, with the ticket of the binding. -/
def Directive.offer? (w : World κ σ) : Directive κ σ → Option (Ticket × Cancel κ)
  | .attach t c => some (t, .thunk c)
  | .sleep span t => some (t, .timer (w.host.keyAfter span))
  | _ => none

/-- What a directive runs to call a binding off. -/
def Directive.calledOff? (w : World κ σ) : Directive κ σ → Option (Cancel κ)
  | .request (.kill p) => if w.reachable then (w.kill p).2 else none
  | .attach t c => (w.attach t (.thunk c)).2
  | _ => none

open World

/-- What one operation of code can do: the deeds, and the world that they lead to. -/
inductive Operation : World κ σ → Record κ → World κ σ → Prop where
  | quiet {w w' : World κ σ} (h : Agree w w') : Operation w [] w'
  | dropped {w w' : World κ σ} {p : Pid} (v : Value κ) (dead : w.procs.isAlive p = false)
      (h : Agree w w') : Operation w [(p, .dropped v)] w'
  | sent {w w' : World κ σ} {p : Pid} {x : Proc κ} (v : Value κ) (hx : w.procs.get? p = some x)
      (alive : x.isDead = false) (h : Put w w' p { x with mailbox := x.mailbox ++ [v] }) :
      Operation w [(p, .sent v)] (w'.enqueue p)
  | spawned {w w' : World κ σ} {p : Pid} (label : Option String) (t : Task κ)
      (hx : w.procs.get? p = none) (h : Put w w' p (.start label t)) :
      Operation w [(p, .spawned t)] (w'.enqueue p)
  | killed {w w' : World κ σ} {p : Pid} {x : Proc κ} (hx : w.procs.get? p = some x)
      (alive : x.isDead = false) (h : Put w w' p x.killed) : Operation w [(p, .killed)] w'
  | completed {w w' : World κ σ} {p : Pid} {x : Proc κ} {n : Nat} {c : Option (Cancel κ)}
      (t : Task κ) (hx : w.procs.get? p = some x) (awaiting : x.root = .awaiting n c)
      (h : Put w w' p { x with root := .ready t }) :
      Operation w [(p, .completed t)] (w'.enqueue p)
  | attached {w w' : World κ σ} {p : Pid} {x : Proc κ} {n : Nat} {c c' : Option (Cancel κ)}
      (hx : w.procs.get? p = some x) (awaiting : x.root = .awaiting n c)
      (h : Put w w' p { x with root := .awaiting n c' }) : Operation w [] w'
  | seq {w w' w'' : World κ σ} {r r' : Record κ} (h : Operation w r w')
      (h' : Operation w' r' w'') : Operation w (r ++ r') w''

namespace Operation

theorem after {w w' w'' : World κ σ} {r : Record κ} (h : Agree w w') (h' : Operation w' r w'') :
    Operation w r w'' :=
  (quiet h).seq h'

theorem before {w w' w'' : World κ σ} {r : Record κ} (h : Operation w r w') (h' : Agree w' w'') :
    Operation w r w'' := by
  rw [← List.append_nil r]
  exact h.seq (quiet h')

theorem isOwn_eq_false {w w' : World κ σ} {r : Record κ} (op : Operation w r w') :
    ∀ e ∈ r, e.2.isOwn = false := by
  induction op with
  | seq _ _ ih ih' =>
    intro e he
    exact (List.mem_append.1 he).elim (ih e) (ih' e)
  | quiet => exact nofun
  | attached => exact nofun
  | _ =>
    intro e he
    rw [List.mem_singleton.1 he]
    rfl

end Operation

namespace World

theorem operation_send (w : World κ σ) (p : Pid) (v : Value κ) :
    Operation w [(p, if w.procs.isAlive p then .sent v else .dropped v)] (w.send p v) := by
  unfold send
  split
  · next h =>
    obtain ⟨x, hx, alive⟩ := ProcTable.isAlive_iff.1 h
    exact .sent v hx alive (put_modify hx _)
  · next h => exact .dropped v (Bool.eq_false_iff.2 h) (agree_note _ _)

theorem operation_kill (w : World κ σ) (p : Pid) :
    Operation w (if w.procs.isAlive p then [(p, .killed)] else []) (w.kill p).1 := by
  cases ha : w.procs.isAlive p with
  | true =>
    obtain ⟨x, hx, alive⟩ := ProcTable.isAlive_iff.1 ha
    exact .killed hx alive (put_kill hx alive)
  | false =>
    rw [kill_of_dead ha]
    exact .quiet (.refl w)

/-- Starting a process does something only under a name that is free. -/
theorem operation_install {w w' : World κ σ} {p : Pid} {label : Option String} {t : Task κ}
    (h : w.install p label t = .ok w') :
    Operation w (if w.procs.isFree p then [(p, .spawned t)] else []) w' := by
  unfold install at h
  split at h
  · cases h
  · next hx =>
    obtain rfl := Except.ok.inj h
    rw [Option.not_isSome_iff_eq_none] at hx
    by_cases hp : p.number < w.procs.nextNumber
    · rw [if_pos (by simp [ProcTable.isFree, hp, hx])]
      exact .spawned label t hx ((put_set (.start label t) hp).agree (agree_note _ _))
    · -- A name that has not been handed out is out of the table's bounds.
      rw [if_neg (by simp [ProcTable.isFree, hp])]
      have same : w.procs.set p (.start label t) = w.procs := by
        have hp : ¬ p.number < w.procs.slots.size := hp
        rw [ProcTable.set, Array.setIfInBounds, dif_neg hp]
      rw [same, enqueue, show (note w _).procs.get? p = none from hx]
      exact .quiet (agree_note _ _)

theorem isFree_of_reserve {w w' : World κ σ} {p : Pid} (h : w.reserve = .ok (p, w')) :
    w'.procs.isFree p = true := by
  unfold reserve at h
  split at h
  · obtain ⟨rfl, rfl⟩ := Prod.mk.inj (Except.ok.inj h)
    have hx : w.procs.get? w.procs.reserve.1 = none :=
      ProcTable.get?_eq_none_of_size_le (Nat.le_refl _)
    rw [ProcTable.isFree, ProcTable.get?_reserve, hx]
    simp [ProcTable.nextNumber, ProcTable.reserve]
  · cases h

theorem operation_spawn {w w' : World κ σ} {t : Task κ} {p : Pid} (h : w.spawn t = .ok (p, w')) :
    ∃ w₁, w.reserve = .ok (p, w₁) ∧ Operation w [(p, .spawned t)] w' := by
  -- The name is handed out first, and is free then.
  unfold spawn at h
  cases hr : w.reserve with
  | error f => rw [hr] at h; cases h
  | ok r =>
    obtain ⟨q, w₁⟩ := r
    simp only [hr, bind, Except.bind] at h
    cases hi : w₁.install q none t with
    | error f => rw [hi] at h; cases h
    | ok w₂ =>
      rw [hi] at h
      obtain ⟨rfl, rfl⟩ := Prod.mk.inj (Except.ok.inj h)
      refine ⟨w₁, rfl, ?_⟩
      have free : w₁.procs.isFree q = true := isFree_of_reserve hr
      have op := operation_install hi
      rw [if_pos free] at op
      exact .after (agree_reserve hr) op

theorem spawn_ne_error {w : World κ σ} {t : Task κ} {e : Pid × World κ σ} {f : Fault}
    (h : w.reserve = .ok e) : w.spawn t ≠ .error f := by
  obtain ⟨p, w₁⟩ := e
  have free := isFree_of_reserve h
  rw [ProcTable.isFree, Bool.and_eq_true, Option.isNone_iff_eq_none] at free
  intro hs
  simp only [spawn, h, bind, Except.bind, install, free.2] at hs
  cases hs

theorem operation_resume {w w' : World κ σ} {t : Ticket} {task : Task κ}
    (h : w.resume t task = .ok w') : Operation w (w.resumed t task) w' := by
  have how := w.resumes t task
  rw [h] at how
  generalize w.resumed t task = r at how ⊢
  cases how with
  | completed hx awaiting put beside => exact .completed task hx awaiting put
  | discarded gone agree beside => exact .quiet agree

theorem operation_complete {w w' : World κ σ} {k : Holder} {t : Ticket} {task : Task κ}
    (h : w.complete k t task = .ok w') : Operation w (w.completed k t task) w' := by
  have how := w.completes k t task
  generalize w.completed k t task = r at how ⊢
  generalize w.complete k t task = g at h how
  cases how with
  | used held => exact (operation_resume h).after (agree_spend w t k)
  | lost held =>
    obtain rfl := Except.ok.inj h
    exact .quiet (agree_spend w t k)
  | absent =>
    obtain rfl := Except.ok.inj h
    exact .quiet (.refl w)

theorem operation_attach (w : World κ σ) (t : Ticket) (c : Cancel κ) :
    Operation w [] (w.attach t c).1 := by
  have how := w.attaches t c
  generalize w.attach t c = e at how ⊢
  cases how with
  | kept hx awaiting put => exact .attached hx awaiting put
  | late => exact .quiet (.refl w)
  | lost => exact .quiet (.refl w)

theorem operation_sleep (w : World κ σ) (span : Nat) (t : Ticket) :
    Operation w [] (w.sleep span t) := by
  have agree : Agree w { w.spend t .runtime with host := w.host.delay span (.wake t) } :=
    ⟨fun _ => rfl, rfl, rfl, rfl, rfl⟩
  exact .after agree (operation_attach _ _ _)

end World

theorem Progress.agree_callOff {w w' : World κ σ} {c : Option (Cancel κ)}
    {code code' : Procedure κ σ α} (h : Progress.callOff w c code = .next w' code') :
    Agree w w' := by
  unfold callOff at h
  split at h
  · obtain ⟨rfl, rfl⟩ := Progress.next.inj h
    exact .refl _
  · obtain ⟨rfl, rfl⟩ := Progress.next.inj h
    exact ⟨fun _ => rfl, rfl, rfl, rfl, rfl⟩
  · obtain ⟨rfl, rfl⟩ := Progress.next.inj h
    exact .refl _

theorem Progress.of_ofExcept {r : Except Fault (World κ σ)} {w' : World κ σ}
    {code code' : Procedure κ σ α} (h : Progress.ofExcept r code = .next w' code') :
    r = .ok w' ∧ code' = code := by
  unfold ofExcept at h
  split at h
  · obtain ⟨rfl, rfl⟩ := Progress.next.inj h
    exact ⟨rfl, rfl⟩
  · cases h

theorem Progress.ofExcept_eq_next {r : Except Fault (World κ σ)} {w' : World κ σ}
    {code code' : Procedure κ σ α} (h : Progress.ofExcept r code = .next w' code') :
    r = .ok w' :=
  (of_ofExcept h).1

theorem World.resumed_of_error {w : World κ σ} {t : Ticket} {task : Task κ} {f : Fault}
    (h : w.resume t task = .error f) : w.resumed t task = [] := by
  have how := w.resumes t task
  rw [h] at how
  generalize w.resumed t task = r at how ⊢
  cases how with
  | failed => rfl

theorem World.completed_of_error {w : World κ σ} {k : Holder} {t : Ticket} {task : Task κ}
    {f : Fault} (h : w.complete k t task = .error f) : w.completed k t task = [] := by
  have how := w.completes k t task
  generalize w.completed k t task = r at how ⊢
  generalize w.complete k t task = g at h how
  cases how with
  | used held => exact resumed_of_error (w := w.spend t k) h
  | lost held => cases h
  | absent => cases h

theorem Progress.ofExcept_eq_fault {r : Except Fault (World κ σ)} {f : Fault}
    {code : Procedure κ σ α} (h : Progress.ofExcept r code = .fault f) : r = .error f := by
  unfold ofExcept at h
  split at h
  · cases h
  · obtain rfl := Progress.fault.inj h
    rfl

theorem Progress.callOff_ne_fault {w : World κ σ} {c : Option (Cancel κ)}
    {code : Procedure κ σ α} {f : Fault} : Progress.callOff w c code ≠ .fault f := by
  intro h
  unfold callOff at h
  split at h <;> cases h

theorem Progress.callOff_ne_drive {w w' : World κ σ} {c : Option (Cancel κ)} {goal : Goal}
    {code : Procedure κ σ α} {k : Nat → Procedure κ σ α} :
    Progress.callOff w c code ≠ .drive w' goal k := by
  intro h
  unfold callOff at h
  split at h <;> cases h

theorem Progress.ofExcept_ne_drive {r : Except Fault (World κ σ)} {w' : World κ σ} {goal : Goal}
    {code : Procedure κ σ α} {k : Nat → Procedure κ σ α} :
    Progress.ofExcept r code ≠ .drive w' goal k := by
  intro h
  unfold ofExcept at h
  split at h <;> cases h

/-! ### What comes of operations that may go one way or the other -/

section

variable {b : Behaviour κ σ} {w w' : World κ σ} {code : Procedure κ σ α}

theorem Directive.of_spawn {t : Task κ} {k : Option Pid → Procedure κ σ α}
    (h : Directive.step b w (.request (.spawn t)) k = .next w' code) :
    (∃ p, w.reachable = true ∧ w.spawn t = .ok (p, w') ∧ code = k (some p)) ∨
      w.reachable = false ∧ w' = w ∧ code = k none := by
  simp only [step, Request.step] at h
  split at h
  · next here =>
    split at h
    · next p w₁ hs =>
      obtain ⟨rfl, rfl⟩ := Progress.next.inj h
      exact .inl ⟨p, here, hs, rfl⟩
    · cases h
  · next gone =>
    obtain ⟨rfl, rfl⟩ := Progress.next.inj h
    exact .inr ⟨Bool.eq_false_iff.2 gone, rfl, rfl⟩

theorem Directive.of_spawnWith {c : κ} {k : Option Pid → Procedure κ σ α}
    (h : Directive.step b w (.request (.spawnWith c)) k = .next w' code) :
    w' = w ∧ (w.reachable = true ∧ code = (Procedure.spawnWith c).bind k ∨
      w.reachable = false ∧ code = k none) := by
  simp only [step, Request.step] at h
  split at h
  · next here =>
    obtain ⟨rfl, rfl⟩ := Progress.next.inj h
    exact ⟨rfl, .inl ⟨here, rfl⟩⟩
  · next gone =>
    obtain ⟨rfl, rfl⟩ := Progress.next.inj h
    exact ⟨rfl, .inr ⟨Bool.eq_false_iff.2 gone, rfl⟩⟩

theorem Directive.of_kill {p : Pid} {k : Unit → Procedure κ σ α}
    (h : Directive.step b w (.request (.kill p)) k = .next w' code) :
    w.reachable = true ∧ Progress.callOff (w.kill p).1 (w.kill p).2 (k ()) = .next w' code ∨
      w.reachable = false ∧ w' = w ∧ code = k () := by
  simp only [step, Request.step] at h
  split at h
  · next here => exact .inl ⟨here, h⟩
  · next gone =>
    obtain ⟨rfl, rfl⟩ := Progress.next.inj h
    exact .inr ⟨Bool.eq_false_iff.2 gone, rfl, rfl⟩

theorem Directive.of_start {c : κ} {k : Option (Except Fault ProgramId) → Procedure κ σ α}
    (h : Directive.step b w (.request (.start c)) k = .next w' code) :
    w' = w ∧ (w.reachable = true ∧ code = (Program.start b c).bind (fun r => k (some r)) ∨
      w.reachable = false ∧ code = k none) := by
  simp only [step, Request.step] at h
  split at h
  · next here =>
    obtain ⟨rfl, rfl⟩ := Progress.next.inj h
    exact ⟨rfl, .inl ⟨here, rfl⟩⟩
  · next gone =>
    obtain ⟨rfl, rfl⟩ := Progress.next.inj h
    exact ⟨rfl, .inr ⟨Bool.eq_false_iff.2 gone, rfl⟩⟩

/-- A model that is there is looked at, and nothing is done. -/
theorem Directive.of_model {i : ProgramId} {k : Option (Value κ) → Procedure κ σ α}
    (h : Directive.step b w (.request (.model i)) k = .next w' code) : w' = w ∧ ∃ v, code = k v := by
  simp only [step, Request.step] at h
  split at h
  · obtain ⟨rfl, rfl⟩ := Progress.next.inj h
    exact ⟨rfl, _, rfl⟩
  · split at h
    · obtain ⟨rfl, rfl⟩ := Progress.next.inj h
      exact ⟨rfl, _, rfl⟩
    · cases h

theorem Directive.of_reserve {k : Pid → Procedure κ σ α} (h : Directive.step b w .reserve k = .next w' code) :
    ∃ p, w.reserve = .ok (p, w') ∧ code = k p := by
  simp only [step] at h
  split at h
  · next p w₁ hr =>
    obtain ⟨rfl, rfl⟩ := Progress.next.inj h
    exact ⟨p, hr, rfl⟩
  · cases h

end

theorem World.reserve_error {w : World κ σ} {f : Fault} (h : w.reserve = .error f) :
    f = .pidsExhausted := by
  unfold reserve at h
  split at h
  · cases h
  · exact (Except.error.inj h).symm

theorem World.eq_notAwaiting_of_resume {w : World κ σ} {t : Ticket} {task : Task κ} {f : Fault}
    (h : w.resume t task = .error f) : f = .notAwaiting t.binding := by
  have how := w.resumes t task
  rw [h] at how
  generalize w.resumed t task = r at how
  cases how with
  | failed => rfl

theorem World.eq_notAwaiting_of_complete {w : World κ σ} {k : Holder} {t : Ticket} {task : Task κ}
    {f : Fault} (h : w.complete k t task = .error f) : f = .notAwaiting t.binding := by
  have how := w.completes k t task
  generalize w.completed k t task = r at how
  generalize w.complete k t task = g at h how
  cases how with
  | used held => exact eq_notAwaiting_of_resume h
  | lost held => cases h
  | absent => cases h

/-- How a directive can break a contract. -/
inductive Directive.Fails (w : World κ σ) : Directive κ σ → Fault → Prop where
  | exhausted (h : w.reserve = .error .pidsExhausted) : Fails w .reserve .pidsExhausted
  | crowded (t : Task κ) (h : w.reserve = .error .pidsExhausted) :
      Fails w (.request (.spawn t)) .pidsExhausted
  | taken {p : Pid} (label : Option String) (t : Task κ) (h : (w.procs.get? p).isSome = true) :
      Fails w (.install p label t) (.duplicatePid p)
  | completed {t : Ticket} {task : Task κ}
      (h : w.complete .user t task = .error (.notAwaiting t.binding)) :
      Fails w (.request (.complete t task)) (.notAwaiting t.binding)
  | settled {t : Ticket} {task : Task κ}
      (h : w.complete .runtime t task = .error (.notAwaiting t.binding)) :
      Fails w (.settle t task) (.notAwaiting t.binding)
  | inUse (i : ProgramId) : Fails w (.request (.model i)) .modelInUse

theorem Directive.fails {b : Behaviour κ σ} {w : World κ σ} {d : Directive κ σ}
    {k : d.Reply → Procedure κ σ α} {f : Fault} (h : d.step b w k = .fault f) : d.Fails w f := by
  cases d with
  | request r =>
    cases r with
    | spawn t =>
      simp only [step, Request.step] at h
      split at h
      · split at h
        · cases h
        · next f' hs =>
          obtain rfl := Progress.fault.inj h
          cases hr : w.reserve with
          | ok e =>
            -- A name that has just been handed out is free, so starting a process succeeds.
            exact absurd hs (spawn_ne_error hr)
          | error f' =>
            simp only [World.spawn, hr, bind, Except.bind] at hs
            obtain rfl := Except.error.inj hs
            obtain rfl := World.reserve_error hr
            exact .crowded t hr
      · cases h
    | spawnWith c =>
      simp only [step, Request.step] at h
      split at h <;> cases h
    | kill p =>
      simp only [step, Request.step] at h
      split at h
      · exact absurd h Progress.callOff_ne_fault
      · cases h
    | complete t task =>
      have hc := Progress.ofExcept_eq_fault h
      obtain rfl := World.eq_notAwaiting_of_complete hc
      exact .completed hc
    | start c =>
      simp only [step, Request.step] at h
      split at h <;> cases h
    | model i =>
      simp only [step, Request.step] at h
      split at h
      · cases h
      · split at h
        · cases h
        · obtain rfl := Progress.fault.inj h
          exact .inUse i
    | _ => cases h
  | settle t task =>
    have hc := Progress.ofExcept_eq_fault h
    obtain rfl := World.eq_notAwaiting_of_complete hc
    exact .settled hc
  | attach t c => exact absurd h Progress.callOff_ne_fault
  | reserve =>
    simp only [step] at h
    split at h
    · cases h
    · next f' hr =>
      obtain rfl := Progress.fault.inj h
      obtain rfl := World.reserve_error hr
      exact .exhausted hr
  | install p label t =>
    have hi := Progress.ofExcept_eq_fault h
    unfold World.install at hi
    split at hi
    · next taken =>
      obtain rfl := Except.error.inj hi
      exact .taken label t taken
    · cases hi
  | _ => cases h

/-- A directive that breaks a contract does nothing to any process. -/
theorem Directive.record_of_fault {b : Behaviour κ σ} {w : World κ σ} {d : Directive κ σ}
    {k : d.Reply → Procedure κ σ α} {f : Fault} (h : d.step b w k = .fault f) :
    d.record w = [] := by
  cases Directive.fails h with
  | exhausted => rfl
  | crowded t hr => simp [record, Request.record, hr]
  | taken label t taken =>
    refine if_neg fun hf => ?_
    rw [ProcTable.isFree, Bool.and_eq_true, Option.isNone_iff_eq_none] at hf
    rw [hf.2] at taken
    cases taken
  | completed hc => exact completed_of_error hc
  | settled hc => exact completed_of_error hc
  | inUse => rfl

/-- A directive that breaks a contract hands nothing in. -/
theorem Directive.offer?_of_fault {b : Behaviour κ σ} {w : World κ σ} {d : Directive κ σ}
    {k : d.Reply → Procedure κ σ α} {f : Fault} (h : d.step b w k = .fault f) :
    d.offer? w = none := by
  cases Directive.fails h <;> rfl

/-- Only a request makes the host run. -/
theorem Directive.eq_drive {b : Behaviour κ σ} {w w' : World κ σ} {d : Directive κ σ}
    {k : d.Reply → Procedure κ σ α} {goal : Goal} {k' : Nat → Procedure κ σ α}
    (h : d.step b w k = .drive w' goal k') : ∃ e, d = .request (.drive e) := by
  cases d with
  | request r =>
    cases r with
    | drive e => exact ⟨e, rfl⟩
    | spawn t =>
      simp only [step, Request.step] at h
      split at h
      · split at h <;> cases h
      · cases h
    | spawnWith c =>
      simp only [step, Request.step] at h
      split at h <;> cases h
    | kill p =>
      simp only [step, Request.step] at h
      split at h
      · exact absurd h Progress.callOff_ne_drive
      · cases h
    | complete t task => exact absurd h Progress.ofExcept_ne_drive
    | start c =>
      simp only [step, Request.step] at h
      split at h <;> cases h
    | model p =>
      simp only [step, Request.step] at h
      split at h
      · cases h
      · split at h <;> cases h
    | _ => cases h
  | settle t task => exact absurd h Progress.ofExcept_ne_drive
  | attach t c => exact absurd h Progress.callOff_ne_drive
  | reserve =>
    simp only [step] at h
    split at h <;> cases h
  | install p label t => exact absurd h Progress.ofExcept_ne_drive
  | _ => cases h

/-- A directive that makes the host run changes nothing by itself. -/
theorem Directive.of_drive {b : Behaviour κ σ} {w w' : World κ σ} {d : Directive κ σ}
    {k : d.Reply → Procedure κ σ α} {goal : Goal} {k' : Nat → Procedure κ σ α}
    (h : d.step b w k = .drive w' goal k') : w' = w ∧ d.record w = [] := by
  obtain ⟨e, rfl⟩ := Directive.eq_drive h
  obtain ⟨rfl, -, -⟩ := Progress.drive.inj h
  exact ⟨rfl, rfl⟩

/-- What a directive does to a process: it starts it, under a new name or under one that is free, sends it
a message, kills it or completes its binding. -/
inductive Directive.Records (w : World κ σ) : Directive κ σ → Pid × Deed κ → Prop where
  | spawned {p : Pid} {t : Task κ} {w' : World κ σ} (here : w.reachable = true)
      (name : w.reserve = .ok (p, w')) : Records w (.request (.spawn t)) (p, .spawned t)
  | installed {p : Pid} {label : Option String} {t : Task κ} (free : w.procs.isFree p = true) :
      Records w (.install p label t) (p, .spawned t)
  | sent {p : Pid} {v : Value κ} (here : w.reachable = true) (alive : w.procs.isAlive p = true) :
      Records w (.request (.send p v)) (p, .sent v)
  | dropped {p : Pid} {v : Value κ} (here : w.reachable = true) (dead : w.procs.isAlive p = false) :
      Records w (.request (.send p v)) (p, .dropped v)
  | killed {p : Pid} (here : w.reachable = true) (alive : w.procs.isAlive p = true) :
      Records w (.request (.kill p)) (p, .killed)
  | completed {t : Ticket} {task : Task κ} (mine : (t, Holder.user) ∈ w.tickets) :
      Records w (.request (.complete t task)) (t.pid, .completed task)
  | settled {t : Ticket} {task : Task κ} (mine : (t, Holder.runtime) ∈ w.tickets) :
      Records w (.settle t task) (t.pid, .completed task)

/-- A directive records nothing else. -/
theorem Directive.records {w : World κ σ} {d : Directive κ σ} {e : Pid × Deed κ}
    (h : e ∈ d.record w) : d.Records w e := by
  -- A completion is recorded only for the holder of the ticket.
  have held : ∀ {who : Holder} {t : Ticket} {task : Task κ}, e ∈ w.completed who t task →
      (t, who) ∈ w.tickets := by
    intro who t task h
    unfold World.completed at h
    split at h
    · next used => exact List.contains_iff_mem.1 (Bool.and_eq_true_iff.1 used).1
    · cases h
  cases d with
  | request r =>
    cases r with
    | spawn t =>
      simp only [record, Request.record] at h
      split at h
      · next here =>
        split at h
        · next p w' name =>
          obtain rfl := List.mem_singleton.1 h
          exact .spawned here name
        · cases h
      · cases h
    | send p v =>
      simp only [record, Request.record] at h
      split at h
      · next here =>
        obtain rfl := List.mem_singleton.1 h
        split
        · next alive => exact .sent here alive
        · next dead => exact .dropped here (Bool.eq_false_iff.2 dead)
      · cases h
    | kill p =>
      simp only [record, Request.record] at h
      split at h
      · next both =>
        obtain rfl := List.mem_singleton.1 h
        obtain ⟨here, alive⟩ := Bool.and_eq_true_iff.1 both
        exact .killed here alive
      · cases h
    | complete t task =>
      obtain rfl := eq_completed_of_mem h
      exact .completed (held h)
    | _ => cases h
  | settle t task =>
    obtain rfl := eq_completed_of_mem h
    exact .settled (held h)
  | install p label t =>
    simp only [record] at h
    split at h
    · next free =>
      obtain rfl := List.mem_singleton.1 h
      exact .installed free
    · cases h
  | _ => cases h

/-- Every directive does what its record says. -/
theorem Directive.operation {b : Behaviour κ σ} {w w' : World κ σ} {d : Directive κ σ}
    {k : d.Reply → Procedure κ σ α} {code : Procedure κ σ α}
    (h : d.step b w k = .next w' code) : Operation w (d.record w) w' := by
  cases d with
  | request r =>
    cases r with
    | spawn t =>
      simp only [record, Request.record]
      rcases Directive.of_spawn h with ⟨p, here, hs, -⟩ | ⟨gone, rfl, -⟩
      · obtain ⟨w₁, hr, op⟩ := operation_spawn hs
        rw [if_pos here, hr]
        exact op
      · rw [gone]
        exact .quiet (.refl _)
    | spawnWith c =>
      obtain ⟨rfl, -⟩ := Directive.of_spawnWith h
      exact .quiet (.refl _)
    | send p v =>
      obtain ⟨rfl, -⟩ := Progress.next.inj h
      simp only [record, Request.record]
      split
      · exact operation_send w p v
      · exact .quiet (.refl w)
    | kill p =>
      simp only [record, Request.record]
      rcases Directive.of_kill h with ⟨here, off⟩ | ⟨gone, rfl, -⟩
      · rw [here, Bool.true_and]
        exact (operation_kill w p).before (Progress.agree_callOff off)
      · rw [gone, Bool.false_and]
        exact .quiet (.refl _)
    | complete t task => exact operation_complete (Progress.ofExcept_eq_next h)
    | forget t =>
      obtain ⟨rfl, -⟩ := Progress.next.inj h
      exact .quiet (agree_spend w t .user)
    | defer c =>
      obtain ⟨rfl, -⟩ := Progress.next.inj h
      exact .quiet ⟨fun _ => rfl, rfl, rfl, Host.pumps_defer w.host (.thunk c), rfl⟩
    | drive e => cases h
    | start c =>
      obtain ⟨rfl, -⟩ := Directive.of_start h
      exact .quiet (.refl _)
    | model p =>
      obtain ⟨rfl, -⟩ := Directive.of_model h
      exact .quiet (.refl _)
    | retain =>
      obtain ⟨rfl, -⟩ := Progress.next.inj h
      exact .quiet (agree_retain w)
    | _ =>
      -- What is left reads the world, or changes what only user code and the host read.
      obtain ⟨rfl, -⟩ := Progress.next.inj h
      exact .quiet ⟨fun _ => rfl, rfl, rfl, rfl, rfl⟩
  | settle t task => exact operation_complete (Progress.ofExcept_eq_next h)
  | sleep span t =>
    obtain ⟨rfl, -⟩ := Progress.next.inj h
    exact operation_sleep w span t
  | attach t c => exact (operation_attach w t (.thunk c)).before (Progress.agree_callOff h)
  | reserve =>
    obtain ⟨p, hr, -⟩ := Directive.of_reserve h
    exact .quiet (agree_reserve hr)
  | install p label t => exact operation_install (Progress.ofExcept_eq_next h)
  | takeModel p =>
    obtain ⟨rfl, -⟩ := Progress.next.inj h
    exact .quiet (agree_modifyProgram w p _)
  | putModel p v =>
    obtain ⟨rfl, -⟩ := Progress.next.inj h
    exact .quiet (agree_modifyProgram w p _)
  | countUpdate p =>
    obtain ⟨rfl, -⟩ := Progress.next.inj h
    exact .quiet (agree_modifyProgram w p _)
  | _ =>
    obtain ⟨rfl, -⟩ := Progress.next.inj h
    exact .quiet ⟨fun _ => rfl, rfl, rfl, rfl, rfl⟩

end Actors
