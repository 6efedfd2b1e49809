/-
Names are handed out once.

The number of names that have been handed out grows by one when a name is reserved, for a new process
or by code that will install one, and stays the same otherwise. The names that code holds are free, and
none is held twice. Hence a run hands out the numbers in their order, and a process is only ever
started under a name that nobody has had.

* `World.names` — how many names have been handed out, and what changes that;
* `Machine.reserved?` — the name that the next step hands out, and `Trail.reserved`: a run hands out
  all numbers in their order;
* `World.Named` — the names held by code, and `Trail.named`: the invariant;
* `Reachable.raises_of_duplicatePid` — no name is used twice.
-/
import Actors.Proofs.Naming

namespace Actors

variable {κ σ α : Type} {b : Behaviour κ σ}

open World

/-! ### The number of names -/

@[simp] theorem ProcTable.nextNumber_set (t : ProcTable κ) (p : Pid) (x : Proc κ) :
    (t.set p x).nextNumber = t.nextNumber := by
  simp [ProcTable.nextNumber, ProcTable.set]

namespace World

/-- The number of the name that is handed out next. -/
def names (w : World κ σ) : Nat :=
  w.procs.nextNumber

section

variable (w : World κ σ)

@[simp] theorem names_note (e : Event κ) : (w.note e).names = w.names := rfl

@[simp] theorem names_modify (p : Pid) (f : Proc κ → Proc κ) : (w.modify p f).names = w.names := by
  unfold modify
  split <;> simp [names]

@[simp] theorem names_arm : w.arm.names = w.names := by
  unfold arm
  split <;> rfl

@[simp] theorem names_enqueue (p : Pid) : (w.enqueue p).names = w.names := by
  unfold enqueue
  split
  · rfl
  · split
    · rfl
    · rw [names_arm]
      simp [names]

@[simp] theorem names_send (p : Pid) (v : Value κ) : (w.send p v).names = w.names := by
  unfold send
  split <;> simp

@[simp] theorem names_kill (p : Pid) : (w.kill p).1.names = w.names := by
  unfold kill
  split
  · rfl
  · split
    · rfl
    · simp [names, note]

@[simp] theorem names_exit (p : Pid) (r : Except (Value κ) (Value κ)) :
    (w.exit p r).names = w.names := by
  unfold exit
  split
  · rfl
  · simp [names, note]

@[simp] theorem names_issue (p : Pid) (k : Holder) : (w.issue p k).2.names = w.names := by
  unfold issue
  split
  · rfl
  · simp [names, note]

@[simp] theorem names_attach (t : Ticket) (c : Cancel κ) : (w.attach t c).1.names = w.names := by
  unfold attach
  split
  · rfl
  · split
    · rfl
    · split
      · simp [names]
      · rfl
    · rfl

@[simp] theorem names_sleep (span : Nat) (t : Ticket) : (w.sleep span t).names = w.names :=
  names_attach _ t _

@[simp] theorem names_retain : w.retain.names = w.names := by
  unfold retain
  split <;> rfl

@[simp] theorem names_modifyProgram (i : ProgramId) (f : RunningProgram κ → RunningProgram κ) :
    (w.modifyProgram i f).names = w.names := by
  unfold modifyProgram
  split <;> rfl

@[simp] theorem names_endTick (n k : Nat) : (w.endTick n k).names = w.names := by
  simp only [endTick]
  split <;> rfl

end

variable {w w' : World κ σ} {p : Pid}

theorem names_dequeue (h : w.dequeue = some (p, w')) : w'.names = w.names := by
  unfold dequeue at h
  split at h
  · cases h
  · obtain ⟨rfl, rfl⟩ := Prod.mk.inj (Option.some.inj h)
    rw [names_modify]
    rfl

theorem names_resume {t : Ticket} {task : Task κ} (h : w.resume t task = .ok w') :
    w'.names = w.names := by
  unfold resume at h
  split at h
  · obtain rfl := Except.ok.inj h
    rfl
  · split at h
    · obtain rfl := Except.ok.inj h
      rfl
    · split at h
      · obtain rfl := Except.ok.inj h
        rw [names_enqueue]
        simp [names]
      · cases h
    · cases h

theorem names_complete {k : Holder} {t : Ticket} {task : Task κ} (h : w.complete k t task = .ok w') :
    w'.names = w.names := by
  have how := w.completes k t task
  rw [h] at how
  generalize hg : Except.ok w' = g at how
  generalize w.completed k t task = r at how
  cases how with
  | used held => exact names_resume (w := w.spend t k) hg.symm
  | lost held =>
    obtain rfl := Except.ok.inj hg
    rfl
  | absent =>
    obtain rfl := Except.ok.inj hg
    rfl

theorem names_wake {t : Ticket} (h : w.wake t = .ok w') : w'.names = w.names := by
  unfold wake at h
  split at h
  · exact names_resume h
  · obtain rfl := Except.ok.inj h
    rfl

theorem names_install {label : Option String} {t : Task κ} (h : w.install p label t = .ok w') :
    w'.names = w.names := by
  unfold install at h
  split at h
  · cases h
  · obtain rfl := Except.ok.inj h
    rw [names_enqueue]
    simp [names, note]

/-- A name that is handed out is the next number. -/
theorem reserve_eq (h : w.reserve = .ok (p, w')) : p.number = w.names ∧ w'.names = w.names + 1 := by
  unfold reserve at h
  split at h
  · obtain ⟨rfl, rfl⟩ := Prod.mk.inj (Except.ok.inj h)
    exact ⟨rfl, by simp [names, ProcTable.nextNumber, ProcTable.reserve]⟩
  · cases h

theorem reserve_of_step {r : Pid}
    (h : Directive.step b w .reserve Act.ret = .next w' (.ret r)) : w.reserve = .ok (r, w') := by
  simp only [Directive.step] at h
  split at h
  · next p w₁ hr =>
    obtain ⟨rfl, hp⟩ := Progress.next.inj h
    obtain rfl := Act.ret.inj hp
    exact hr
  · cases h

/-- A process that is started under a new name has the name that was reserved. -/
theorem spawn_eq {t : Task κ} (h : w.spawn t = .ok (p, w')) :
    ∃ w₁, w.reserve = .ok (p, w₁) ∧ w'.names = w.names + 1 := by
  unfold spawn at h
  cases hr : w.reserve with
  | error f => rw [hr] at h; cases h
  | ok e =>
    obtain ⟨q, w₁⟩ := e
    simp only [hr, bind, Except.bind] at h
    cases hi : w₁.install q none t with
    | error f => rw [hi] at h; cases h
    | ok w₂ =>
      rw [hi] at h
      obtain ⟨rfl, rfl⟩ := Prod.mk.inj (Except.ok.inj h)
      exact ⟨w₁, rfl, (names_install hi).trans (reserve_eq hr).2⟩

/-- The name that would be handed out, as long as there is one. -/
def fresh? (w : World κ σ) : Option Pid :=
  match w.reserve with
  | .ok (p, _) => some p
  | .error _ => none

theorem fresh?_of_reserve (h : w.reserve = .ok (p, w')) : w.fresh? = some p := by
  rw [fresh?, h]

end World

theorem Progress.names_callOff {w w' : World κ σ} {c : Option (Cancel κ)}
    {code code' : Procedure κ σ α} (h : Progress.callOff w c code = .next w' code') :
    w'.names = w.names := by
  unfold callOff at h
  split at h
  · obtain ⟨rfl, -⟩ := Progress.next.inj h
    rfl
  · obtain ⟨rfl, -⟩ := Progress.next.inj h
    rfl
  · obtain ⟨rfl, -⟩ := Progress.next.inj h
    rfl

/-- The name that a directive hands out. -/
def Directive.reserved? (w : World κ σ) : Directive κ σ → Option Pid
  | .reserve => w.fresh?
  | .request (.spawn _) => if w.reachable then w.fresh? else none
  | _ => none

/-- The name that the next step of a machine hands out. -/
def Machine.reserved? (m : Machine κ σ) : Option Pid :=
  m.directive?.bind (Directive.reserved? m.world)

/-- A directive hands out the next number, or none. -/
def World.Grows (w w' : World κ σ) (o : Option Pid) : Prop :=
  (o = none ∧ w'.names = w.names) ∨ o = some ⟨w.names⟩ ∧ w'.names = w.names + 1

theorem Directive.grows {w w' : World κ σ} {d : Directive κ σ} {k : d.Reply → Procedure κ σ α}
    {code : Procedure κ σ α} (h : d.step b w k = .next w' code) :
    w.Grows w' (d.reserved? w) := by
  have reserved : ∀ {p : Pid} {w₁ : World κ σ}, w.reserve = .ok (p, w₁) →
      w'.names = w.names + 1 → w.Grows w' w.fresh? := by
    intro p w₁ hr hn
    have number : p = ⟨w.names⟩ := congrArg Pid.mk (reserve_eq hr).1
    exact .inr ⟨by rw [fresh?_of_reserve hr, number], hn⟩
  -- A spawn and a reservation hand a name out; an install uses one that has been handed out before.
  cases d with
  | request r =>
    cases r with
    | spawn t =>
      simp only [reserved?]
      rcases of_spawn h with ⟨p, here, hs, -⟩ | ⟨gone, rfl, -⟩
      · rw [if_pos here]
        obtain ⟨w₁, hr, hn⟩ := spawn_eq hs
        exact reserved hr hn
      · rw [if_neg (ne_true_of_eq_false gone)]
        exact .inl ⟨rfl, rfl⟩
    | spawnWith c =>
      obtain ⟨rfl, -⟩ := of_spawnWith h
      exact .inl ⟨rfl, rfl⟩
    | send p v =>
      obtain ⟨rfl, -⟩ := Progress.next.inj h
      refine .inl ⟨rfl, ?_⟩
      split <;> simp
    | kill p =>
      rcases of_kill h with ⟨-, off⟩ | ⟨-, rfl, -⟩
      · exact .inl ⟨rfl, (Progress.names_callOff off).trans (names_kill w p)⟩
      · exact .inl ⟨rfl, rfl⟩
    | complete t task => exact .inl ⟨rfl, names_complete (Progress.ofExcept_eq_next h)⟩
    | drive e => cases h
    | start c =>
      obtain ⟨rfl, -⟩ := of_start h
      exact .inl ⟨rfl, rfl⟩
    | model p =>
      obtain ⟨rfl, -⟩ := of_model h
      exact .inl ⟨rfl, rfl⟩
    | retain =>
      obtain ⟨rfl, -⟩ := Progress.next.inj h
      exact .inl ⟨rfl, names_retain w⟩
    | _ =>
      obtain ⟨rfl, -⟩ := Progress.next.inj h
      exact .inl ⟨rfl, rfl⟩
  | settle t task => exact .inl ⟨rfl, names_complete (Progress.ofExcept_eq_next h)⟩
  | sleep span t =>
    obtain ⟨rfl, -⟩ := Progress.next.inj h
    exact .inl ⟨rfl, names_sleep w span t⟩
  | attach t c =>
    exact .inl ⟨rfl, (Progress.names_callOff h).trans (names_attach w t (.thunk c))⟩
  | reserve =>
    obtain ⟨p, hr, -⟩ := of_reserve h
    exact reserved hr (reserve_eq hr).2
  | install p label t => exact .inl ⟨rfl, names_install (Progress.ofExcept_eq_next h)⟩
  | takeModel i =>
    obtain ⟨rfl, -⟩ := Progress.next.inj h
    exact .inl ⟨rfl, names_modifyProgram w i _⟩
  | putModel i v =>
    obtain ⟨rfl, -⟩ := Progress.next.inj h
    exact .inl ⟨rfl, names_modifyProgram w i _⟩
  | countUpdate i =>
    obtain ⟨rfl, -⟩ := Progress.next.inj h
    exact .inl ⟨rfl, names_modifyProgram w i _⟩
  | _ =>
    obtain ⟨rfl, -⟩ := Progress.next.inj h
    exact .inl ⟨rfl, rfl⟩

/-- A directive that breaks a contract hands nothing out. -/
theorem Directive.reserved?_of_fault {w : World κ σ} {d : Directive κ σ}
    {k : d.Reply → Procedure κ σ α} {f : Fault} (h : d.step b w k = .fault f) :
    d.reserved? w = none := by
  cases Directive.fails h with
  | exhausted hr => rw [reserved?, fresh?, hr]
  | crowded t hr => simp [reserved?, fresh?, hr]
  | _ => rfl

/-! ### The number of names in a run -/

namespace Machine

variable (w : World κ σ) (n k : Nat) (s : List (Activity κ σ)) (p : Pid)

theorem names_stepSeek : (stepSeek w n k s).world.names = w.names := by
  unfold stepSeek
  split
  · split
    · next hd =>
      split
      · exact names_dequeue hd
      · exact names_dequeue hd
    · exact names_endTick w n k
  · exact names_endTick w n k

theorem names_stepOutcome (o : Option (Callback κ × List (Handler κ)))
    (r : Except (Value κ) (Value κ)) : (stepOutcome b w n k s p o r).world.names = w.names := by
  cases o with
  | none => simp [stepOutcome, endTurn]
  | some e => simp [stepOutcome]

theorem names_stepTask (x : Proc κ) (t : Task κ) :
    (stepTask b w n k s p x t).world.names = w.names := by
  cases t with
  | succeed v => exact names_stepOutcome w n k s p _ _
  | fail v => exact names_stepOutcome w n k s p _ _
  | andThen t c => exact names_modify w p _
  | onError t c => exact names_modify w p _
  | receive c =>
    simp only [stepTask]
    split <;> exact names_modify w p _
  | native g => exact names_issue w p _

theorem names_stepTurn : (stepTurn b w n k s p).world.names = w.names := by
  unfold stepTurn
  split
  · exact names_enqueue w p
  · split
    · rfl
    · split
      · rw [names_stepTask, names_modify]
      · rfl

theorem names_endCallback (t : Task κ) : (endCallback w n k s p t).world.names = w.names := by
  unfold endCallback
  split
  · exact names_modify w p _
  · rfl

theorem names_beginTick (t : Tick κ) : (beginTick w s t).world.names = w.names := by
  cases t with
  | pump =>
    simp only [beginTick]
    split <;> rfl
  | thunk c => rfl

theorem names_fire (a : Alarm κ) : (fire w s a).world.names = w.names := by
  cases a with
  | wake t =>
    simp only [fire]
    split
    · next hw => exact names_wake hw
    · rfl
  | thunk c => rfl

theorem names_stepDrive (goal : Goal) : (stepDrive w goal n s).world.names = w.names := by
  unfold stepDrive
  cases goal with
  | ticks limit =>
    simp only
    split
    · split
      · exact names_beginTick _ _ _
      · rfl
    · rfl
  | time limit =>
    simp only
    split
    · exact names_beginTick _ _ _
    · split
      · exact names_fire _ _ _
      · rfl

/-- Names are handed out by directives only. -/
theorem names_step {m : Machine κ σ} (h : m.directive? = none) :
    (m.step b).world.names = m.world.names := by
  obtain ⟨w, stack, fault⟩ := m
  cases fault with
  | some f => rfl
  | none =>
    cases stack with
    | nil => rfl
    | cons a s =>
      rw [step]
      cases a with
      | work code =>
        cases code with
        | run code =>
          cases code with
          | op d k => cases h
          | _ => rfl
        | await k => rfl
      | tick n k phase =>
        cases phase with
        | seek => exact names_stepSeek w n k s
        | turn p => exact names_stepTurn w n k s p
        | callback p code =>
          cases code with
          | run code =>
            cases code with
            | ret t => exact names_endCallback w n k s p t
            | raise f => rfl
            | op d k' => cases h
          | await k' => rfl
        | starting p code =>
          cases code with
          | run code =>
            cases code with
            | op d k' => cases h
            | _ => rfl
          | await k' => rfl
      | drive goal n => exact names_stepDrive w n s goal

/-- A step hands out the next number, or none. -/
theorem grows (b : Behaviour κ σ) (m : Machine κ σ) :
    m.world.Grows (m.step b).world m.reserved? := by
  cases hd : m.directive? with
  | none => exact .inl ⟨by rw [reserved?, hd]; rfl, names_step hd⟩
  | some d =>
    have asked : m.reserved? = d.reserved? m.world := by rw [reserved?, hd]; rfl
    rw [asked]
    obtain ⟨α, w, fr, k, s, rfl⟩ := Machine.eq_of_directive? hd
    rw [fr.step_op, stepCode]
    show w.Grows _ (d.reserved? w)
    cases hs : d.step b w k with
    | next w' code => exact Directive.grows hs
    | drive w' goal k' =>
      obtain ⟨e, rfl⟩ := Directive.eq_drive hs
      obtain ⟨rfl, -⟩ := Directive.of_drive hs
      exact .inl ⟨rfl, rfl⟩
    | fault f => exact .inl ⟨Directive.reserved?_of_fault hs, rfl⟩

end Machine

/-- A run hands out all numbers in their order, beginning with one. -/
theorem Trail.reserved {m : Machine κ σ} {ms : List (Machine κ σ)} (h : Trail b m ms) :
    0 < m.world.names ∧
      ms.filterMap Machine.reserved? = (List.range' 1 (m.world.names - 1)).map Pid.mk := by
  induction h with
  | new config user code => exact ⟨Nat.one_pos, rfl⟩
  | load code _ _ _ ih => exact ih
  | @step m ms h ih =>
    obtain ⟨pos, ih⟩ := ih
    rw [filterMap_snoc, ih]
    rcases Machine.grows b m with ⟨none, same⟩ | ⟨some, more⟩
    · rw [none, same]
      exact ⟨pos, List.append_nil _⟩
    · rw [some, more]
      refine ⟨Nat.succ_pos _, ?_⟩
      have last : m.world.names + 1 - 1 = (m.world.names - 1) + 1 := by omega
      rw [last, List.range'_concat, List.map_append]
      have number : 1 + 1 * (m.world.names - 1) = m.world.names := by omega
      rw [number]
      rfl

/-! ### Names that are free -/

theorem ProcTable.isFree_iff {t : ProcTable κ} {p : Pid} :
    t.isFree p = true ↔ p.number < t.nextNumber ∧ t.get? p = none := by
  simp [ProcTable.isFree]

/-- As long as no process is started under a name there is none. -/
theorem Life.eq_none {ds : Deeds κ} {o : Option (Proc κ)} (l : Life none ds o)
    (h : ∀ t, .spawned t ∉ ds) : o = none := by
  induction l with
  | refl => rfl
  | @snoc o₁ o₂ ds d l hd ih =>
    obtain rfl := ih fun t ht => h t (List.mem_append_left _ ht)
    cases hd with
    | spawned t => exact absurd (List.mem_append_right _ (List.mem_singleton.2 rfl)) (h t)
    | dropped v dead => rfl

/-- A process is started by a directive that installs it under a name, or under a new one. -/
theorem Directive.of_spawned {w : World κ σ} {d : Directive κ σ} {p : Pid} {t : Task κ}
    (h : (p, .spawned t) ∈ d.record w) :
    (∃ label, d = .install p label t) ∨ d.reserved? w = some p := by
  cases Directive.records h with
  | spawned here name => exact .inr ((if_pos here).trans (fresh?_of_reserve name))
  | @installed _ label => exact .inl ⟨label, rfl⟩

/-- What is done to a process from outside, completions apart, is done by a directive. -/
theorem Transition.directive_of_mem {m m' : Machine κ σ} {r : Record κ} (tr : Transition b m r m')
    {p : Pid} {e : Deed κ} (h : (p, e) ∈ r) (own : e.isOwn = false) (open? : e.completion? = none) :
    ∃ d, m.directive? = some d ∧ (p, e) ∈ d.record m.world := by
  have moved : ∀ {q : Pid} {mv : Move κ}, (p, e) ∈ [(q, Deed.moved mv)] → False := by
    intro q mv hm
    rw [(Prod.mk.inj (List.mem_singleton.1 hm)).2] at own
    cases own
  cases tr with
  | @code w w' s α fr d k code hd => exact ⟨d, by cases fr <;> rfl, h⟩
  | woken op cause =>
    obtain ⟨t, w₁, -, -, rfl⟩ := cause
    split at h
    · rw [(Prod.mk.inj (eq_completed_of_mem_resumed h)).2] at open?
      cases open?
    · cases h
  | pushed => exact (moved h).elim
  | entered => exact (moved h).elim
  | started => exact (moved h).elim
  | exited => exact (moved h).elim
  | returned =>
    rw [(Prod.mk.inj (List.mem_singleton.1 h)).2] at own
    cases own
  | _ => cases h

namespace Machine

variable {m : Machine κ σ} {p : Pid}

theorem names_le (b : Behaviour κ σ) (m : Machine κ σ) : m.world.names ≤ (m.step b).world.names := by
  rcases grows b m with ⟨-, same⟩ | ⟨-, more⟩ <;> omega

/-- There is no process after a step where none was before, unless one is started. -/
theorem get?_step (sound : m.Sound) (none : m.world.procs.get? p = none)
    (h : ∀ t, (p, .spawned t) ∉ m.record) : (m.step b).world.procs.get? p = .none := by
  have life := (transition b m).life sound p
  rw [World.bare, none] at life
  exact Option.map_eq_none_iff.1 (life.eq_none fun t ht => h t (Record.mem_of.1 ht))

/-- A name that is not used stays free. -/
theorem isFree_step (sound : m.Sound) (free : m.world.procs.isFree p = true)
    (h : ∀ t, (p, .spawned t) ∉ m.record) : (m.step b).world.procs.isFree p = true := by
  obtain ⟨number, none⟩ := ProcTable.isFree_iff.1 free
  exact ProcTable.isFree_iff.2 ⟨Nat.lt_of_lt_of_le number (names_le b m), get?_step sound none h⟩

/-- A free name is used only by installing a process under it. -/
theorem isFree_of_idle (sound : m.Sound) (free : m.world.procs.isFree p = true)
    (idle : ∀ label t, m.directive? ≠ some (.install p label t)) :
    (m.step b).world.procs.isFree p = true := by
  refine isFree_step sound free fun t ht => ?_
  obtain ⟨d, hd, hr⟩ := (transition b m).directive_of_mem ht rfl rfl
  rcases Directive.of_spawned hr with ⟨label, rfl⟩ | new
  · exact idle label t hd
  · -- A name that is handed out is a new one.
    have number := (ProcTable.isFree_iff.1 free).1
    have new : m.reserved? = some p := by rw [reserved?, hd, Option.bind_some, new]
    rcases grows b m with ⟨none, -⟩ | ⟨some, -⟩
    · rw [none] at new
      cases new
    · rw [some] at new
      obtain rfl := Option.some.inj new
      exact Nat.lt_irrefl _ number

end Machine

/-! ### Names held by code are free -/

/-- The names that code holds are free, and no name is held twice. -/
structure World.Named (w : World κ σ) (L : List (List Pid)) : Prop where
  nodup : L.flatten.Nodup
  free : ∀ p ∈ L.flatten, w.procs.isFree p = true

namespace World.Named

variable {w : World κ σ} {L L' : List (List Pid)} {m : Machine κ σ}

/-- Every step keeps the names that are held free, but for the one that is used. -/
theorem goes (h : m.world.Named L) (sound : m.Sound)
    (goes : Discipline.naming.Goes b m (m.step b) L L') : (m.step b).world.Named L' := by
  -- A name that is held is used only by installing a process under it.
  have stays : ∀ p ∈ L.flatten, (∀ label t, m.directive? ≠ some (.install p label t)) →
      (m.step b).world.procs.isFree p = true :=
    fun p hp => Machine.isFree_of_idle sound (h.free p hp)
  rcases naming_steady.goes goes with ⟨same, broken⟩ | ⟨s, T, d, r, rfl, rfl, top, establishes, may, -, hd⟩
  · refine ⟨same ▸ h.nodup, fun p hp => ?_⟩
    by_cases install : ∃ label t, m.directive? = some (.install p label t)
    · obtain ⟨label, t, top⟩ := install
      rw [(broken _ top rfl).1]
      exact h.free p (same ▸ hp)
    · exact stays p (same ▸ hp) fun label t top => install ⟨label, t, top⟩
  have idle : (∀ p label t, d ≠ .install p label t) → (m.step b).world.Named (s :: T) := fun hi =>
    ⟨h.nodup, fun p hp => stays p hp fun label t hd => hi p label t (Option.some.inj (top.symm.trans hd))⟩
  cases d with
  | reserve =>
    have hr : m.world.reserve = .ok (r, (m.step b).world) := reserve_of_step hd
    have base : (m.step b).world.Named (s :: T) := idle nofun
    -- The new name is the next number, so nobody holds it.
    have new : r ∉ (s :: T).flatten := by
      intro hm
      have number := (ProcTable.isFree_iff.1 (h.free r hm)).1
      have next := (reserve_eq hr).1
      exact Nat.lt_irrefl _ (next ▸ number)
    show (m.step b).world.Named ((r :: s) :: T)
    refine ⟨List.nodup_cons.2 ⟨new, base.nodup⟩, fun p hp => ?_⟩
    rcases List.mem_cons.1 hp with rfl | hp
    · exact isFree_of_reserve hr
    · exact base.free p hp
  | install p label t =>
    have held : p ∈ s := may
    have left : List.Sublist (s.erase p :: T).flatten (s :: T).flatten :=
      List.Sublist.append_right List.erase_sublist T.flatten
    show (m.step b).world.Named (s.erase p :: T)
    refine ⟨h.nodup.sublist left, fun q hq => stays q (left.subset hq) fun label' t' hd' => ?_⟩
    obtain ⟨rfl, -, -⟩ := Directive.install.inj (Option.some.inj (top.symm.trans hd'))
    -- The name that is used was held once.
    obtain ⟨once, -, apart⟩ := List.nodup_append.1 h.nodup
    rcases List.mem_append.1 hq with hq | hq
    · exact ((List.Nodup.mem_erase_iff once).1 hq).1 rfl
    · exact apart p held p hq rfl
  | found x => exact idle nofun
  | _ => cases establishes

end World.Named

/-- Code comes to hold a name by reserving it. -/
theorem naming_goes {m : Machine κ σ} {L L' : List (List Pid)}
    (h : Discipline.naming.Goes b m (m.step b) L L') {p : Pid} (hp : p ∈ L'.flatten) :
    p ∈ L.flatten ∨ m.reserved? = some p := by
  rcases naming_steady.goes h with ⟨same, -⟩ | ⟨s, T, d, r, rfl, rfl, top, establishes, -, -, hd⟩
  · exact .inl (same ▸ hp)
  cases d with
  | reserve =>
    have hr : m.world.reserve = .ok (r, (m.step b).world) := reserve_of_step hd
    have new : m.reserved? = some r := by
      rw [Machine.reserved?, top]
      exact fresh?_of_reserve hr
    rcases List.mem_cons.1 hp with rfl | hp
    · exact .inr new
    · exact .inl hp
  | install q label t => exact .inl ((List.Sublist.append_right List.erase_sublist T.flatten).subset hp)
  | found x => exact .inl hp
  | _ => cases establishes

/-- Throughout a run the names that code holds have been handed out and are free, and none is held
twice. -/
theorem Trail.named {m : Machine κ σ} {ms : List (Machine κ σ)} (h : Trail b m ms) :
    ∃ L, m.Keeps Discipline.naming b L ∧ m.world.Named L ∧
      ∀ p ∈ L.flatten, p ∈ ms.filterMap Machine.reserved? := by
  have nothing : ∀ w : World κ σ, w.Named [[]] := fun w => ⟨List.nodup_nil, nofun⟩
  induction h with
  | new config user code =>
    exact ⟨_, Machine.keeps_load naming_steady.lawful _ code, nothing _, nofun⟩
  | load code _ _ _ _ =>
    exact ⟨_, Machine.keeps_load naming_steady.lawful _ code, nothing _, nofun⟩
  | @step m ms h ih =>
    obtain ⟨L, keeps, named, known⟩ := ih
    obtain ⟨L', keeps', goes⟩ := keeps.transition naming_steady.lawful (Machine.transition b m)
      fun _ _ _ _ _ _ _ _ _ _ _ => trivial
    refine ⟨L', keeps', named.goes h.reachable.sound goes, fun p hp => ?_⟩
    rw [filterMap_snoc]
    rcases naming_goes goes hp with hp | hp
    · exact List.mem_append_left _ (known p hp)
    · rw [hp]
      exact List.mem_append_right _ (List.mem_singleton.2 rfl)

/-- A process is started under a name that has been handed out. -/
theorem Trail.reserved_of_spawned {m : Machine κ σ} {ms : List (Machine κ σ)} (h : Trail b m ms)
    {p : Pid} {t : Task κ} (ht : (p, .spawned t) ∈ m.record) :
    p ∈ (ms ++ [m]).filterMap Machine.reserved? := by
  obtain ⟨d, hd, hr⟩ := (Machine.transition b m).directive_of_mem ht rfl rfl
  rw [filterMap_snoc]
  rcases Directive.of_spawned hr with ⟨label, rfl⟩ | new
  · obtain ⟨L, keeps, -, known⟩ := h.named
    obtain ⟨held, T, held', rfl, settled, may⟩ := keeps.may hd
    obtain rfl := naming_steady.settled settled
    have may : p ∈ held' := may
    exact List.mem_append_left _ (known p (List.mem_append_left _ may))
  · have new : m.reserved? = some p := by rw [Machine.reserved?, hd, Option.bind_some, new]
    rw [new]
    exact List.mem_append_right _ (List.mem_singleton.2 rfl)

/-- A process is installed only under a name that is free. -/
theorem Trail.free_of_install {m : Machine κ σ} {ms : List (Machine κ σ)} (h : Trail b m ms) {p : Pid}
    {label : Option String} {t : Task κ} (hd : m.directive? = some (.install p label t)) :
    m.world.procs.isFree p = true := by
  obtain ⟨L, keeps, named, -⟩ := h.named
  obtain ⟨held, T, held', rfl, settled, may⟩ := keeps.may hd
  obtain rfl := naming_steady.settled settled
  have may : p ∈ held' := may
  exact named.free p (List.mem_append_left _ may)

/-- A run stops because a name is taken only if user code says so by itself. -/
theorem Reachable.raises_of_duplicatePid {m : Machine κ σ} (h : Reachable b m) {p : Pid}
    (going : m.fault = none) (hf : (m.step b).fault = some (.duplicatePid p)) :
    ∃ (α : Type) (fr : Frame κ σ α) (s : List (Activity κ σ)),
      m.stack = fr.fill (.run (.raise (.duplicatePid p))) :: s := by
  obtain ⟨ms, trail⟩ := h.trail
  have free : ∀ (label : Option String) (t : Task κ), m.directive? = some (.install p label t) →
      m.world.procs.isFree p = true := fun _ _ hd => trail.free_of_install hd
  have tr := Machine.transition b m
  generalize m.step b = m' at tr hf
  generalize m.record = r at tr
  -- Only a broken contract stops a run. The name that is to be installed is still free, so code
  -- has raised this itself.
  cases tr with
  | rest => cases going.symm.trans hf
  | @broken w w' a a' s f agree like cause =>
    obtain rfl := Option.some.inj hf
    cases cause with
    | raised fr f => exact ⟨_, fr, s, rfl⟩
    | failed fr hd =>
      cases Directive.fails hd with
      | taken label t taken =>
        have free := (ProcTable.isFree_iff.1 (free label t (fr.directive?_fill w _ _ s))).2
        rw [show w.procs.get? p = none from free] at taken
        cases taken
    | woken due failed =>
      unfold World.wake at failed
      split at failed
      · cases eq_notAwaiting_of_resume failed
      · cases failed
  | _ => cases hf

end Actors
