/-
A manager serves one message after the other.

In every run the messages of a manager are handled in the order in which they arrive, each with the
state to which the task of the handler before has come. This is so for managers whose tasks take no
messages themselves: what arrives is left for the loop then, and nothing but the loop calls a handler.

* `Manager.Served`, `Manager.Failed` — what is true of a manager at a moment of a run;
* `Trail.handlers_of` — the calls of the handlers of one process;
* `Trail.serves` — managers in every run.
-/
import Actors.Proofs.Mailbox
import Actors.Proofs.Purity
import Actors.Proofs.Turns

namespace Actors

variable {κ σ : Type} {b : Behaviour κ σ}

open Procedure

/-! ### Runs -/

/-- The call of a handler for a process that the next step makes. -/
def Machine.handlerOf? (p : Pid) (m : Machine κ σ) : Option (Call κ) :=
  m.handling?.bind fun e => if e.1 = p then some e.2 else none

/-- The calls of handlers that are due of what is done to one process. -/
theorem Record.handlers_of (r : Record κ) (p : Pid) :
    (r.filterMap (Deed.handler? b)).filterMap (fun e => if e.1 = p then some e.2 else none) =
      (r.of p).acts.filterMap fun d => d.turn?.bind fun e => Manager.handler? b e.1 e.2.1 e.2.2 := by
  rw [Deeds.acts, Record.of, List.filterMap_filter, List.filterMap_map, List.filterMap_filter,
    List.filterMap_filterMap]
  congr 1
  funext e
  obtain ⟨q, d⟩ := e
  rw [Deed.handler?_eq]
  have acts : d.isAct = false → d.turn? = none := fun h => by cases d <;> first | rfl | cases h
  by_cases hq : q = p
  · cases act : d.isAct with
    | false => simp [acts act]
    | true =>
      cases ht : d.turn? with
      | none => simp [hq, act, ht]
      | some e => cases hc : Manager.handler? b e.1 e.2.1 e.2.2 <;> simp [hq, act, ht, hc]
  · cases d.turn? <;> simp [hq]

/-- The process whose turn or whose continuation is on top of the stack. -/
def Machine.acting? (m : Machine κ σ) : Option Pid :=
  m.stack.head?.bind fun a => a.turn?.or a.calling?

/-- What is done to one process leaves the others as they are. -/
theorem Machine.Sound.bare_step {m : Machine κ σ} (h : m.Sound) {p q : Pid}
    (only : ∀ e ∈ m.record, e.1 = p) (hq : q ≠ p) :
    (m.step b).world.bare q = m.world.bare q := by
  have none : m.record.of q = [] := by
    refine List.eq_nil_iff_forall_not_mem.2 fun d hd => hq ?_
    exact only _ (Record.mem_of.1 hd)
  exact (((Machine.transition b m).life h q).eq_of_nil none).symm

namespace Manager

/-- What is left of the code that runs when a handler's task has failed: a line for the journal, and the
failure. -/
theorem reaches_failed {m : Post κ} {e : Value κ} {c : Pending κ σ (Task κ)}
    (h : Procedure.Reaches b ((Callback.managerFailed m).run b e) c) :
    c = .run ((note (.exiting e)).map fun _ => .fail e) ∨ c = .run (.ret (.fail e)) := by
  induction h with
  | start => exact .inl rfl
  | next _ hs ih =>
    rcases ih with same | same
    · obtain ⟨rfl, hk⟩ := Act.op.inj (Pending.run.inj same)
      obtain rfl := eq_of_heq hk
      obtain ⟨-, rfl⟩ := Progress.next.inj hs
      exact .inr rfl
    · cases Pending.run.inj same
  | drive _ hs ih =>
    rcases ih with same | same
    · obtain ⟨rfl, hk⟩ := Act.op.inj (Pending.run.inj same)
      cases hs
    · cases Pending.run.inj same
  | resume _ n ih => rcases ih with same | same <;> cases same

/-- The turn of a process, and what runs when a handler's task has failed, do nothing to others. -/
theorem record_of_acting {m : Machine κ σ} {p : Pid} {call : Option (Callback κ × Value κ)}
    {m₀ : Post κ} {e : Value κ} (acting : m.acting? = some p) (carries : m.Carries b p call)
    (failing : call = none ∨ call = some (.managerFailed m₀, e)) : ∀ x ∈ m.record, x.1 = p := by
  obtain ⟨w, stack, fault⟩ := m
  cases fault with
  | some f => exact nofun
  | none =>
    cases stack with
    | nil => cases acting
    | cons a s =>
      have acting : a.turn?.or a.calling? = some p := acting
      cases a with
      | work code => cases acting
      | drive goal n => cases acting
      | tick n k phase =>
        cases phase with
        | seek => cases acting
        | starting q code => cases acting
        | turn q =>
          obtain rfl := Option.some.inj acting
          show ∀ x ∈ w.turned n q, x.1 = q
          unfold World.turned
          split
          · exact nofun
          · split
            · exact List.forall_mem_singleton.2 rfl
            · exact nofun
        -- Of continuations only the one for a failed handler can be under way here, and it just
        -- returns the failure.
        | callback q code =>
          obtain rfl := Option.some.inj acting
          obtain ⟨e', he, reaches⟩ := (List.forall_mem_cons.1 (carries rfl)).1 n k code rfl
          rcases failing with none | some
          · cases he.symm.trans none
          · obtain rfl := Option.some.inj (he.symm.trans some)
            rcases reaches_failed reaches with rfl | rfl
            · exact nofun
            · show ∀ x ∈ if w.procs.isAlive q then [(q, Deed.returned (.fail e))] else [], x.1 = q
              split
              · exact List.forall_mem_singleton.2 rfl
              · exact nofun

/-- What is true of a manager that has failed: none of its handlers is called, it exits with its failure
and is no process any more, and what it still does leaves the other processes as they are. -/
structure Failed (b : Behaviour κ σ) (p : Pid) (e : Value κ) (m : Machine κ σ)
    (ms : List (Machine κ σ)) : Prop where
  uncalled : ∀ c, m.handling? ≠ some (p, c)
  outcome : ∀ o, (Record.of (ms.flatMap Machine.record) p).outcome? = some o →
    o = .error e ∧ p ∉ m.world.processes
  exits : m.world.isIdle = true → p ∉ m.world.processes ∧
    (.killed ∈ Record.of (ms.flatMap Machine.record) p ∨
      (Record.of (ms.flatMap Machine.record) p).outcome? = some (.error e))
  spares : m.acting? = some p → ∀ q, q ≠ p → (m.step b).world.bare q = m.world.bare q

/-- What is true of a manager at a moment of a run: `turns` are the turns that it has begun, each with
the state and the message, `failure` is how it has failed, if it has, and `d` is what it is doing. -/
structure Served (b : Behaviour κ σ) (m₀ : Post κ) (t₀ : Task κ) (p : Pid) (m : Machine κ σ)
    (ms : List (Machine κ σ)) (turns : List (Value κ × Value κ)) (failure : Option (Value κ))
    (d : Doing κ) : Prop where
  /-- What has been done is one turn after the other, each with the whole task of its handler. -/
  course : Course b m₀ t₀ turns failure (Record.of (ms.flatMap Machine.record) p).acts d
  fits : ∃ x, m.world.procs.get? p = some x ∧ (x.isDead = false → d.Fits x ∧
    turns.map Prod.snd ++ x.mailbox = (Record.of (ms.flatMap Machine.record) p).accepted)
  /-- The messages of the turns are those that have arrived, in the same order. -/
  messages : turns.map Prod.snd = (Record.of (ms.flatMap Machine.record) p).consumed ∧
    turns.map Prod.snd <+: (Record.of (ms.flatMap Machine.record) p).accepted
  /-- The handlers are called once for each turn. Only the call of the last turn may still be due, and
  then this turn has been begun just now. -/
  calls : ∃ due : Option (Call κ),
    ms.filterMap (Machine.handlerOf? p) ++ due.toList =
        turns.filterMap (fun a => Manager.handler? b m₀ a.1 a.2) ∧
      (∀ c, due = some c → ∃ s v, turns.getLast? = some (s, v) ∧
        d = .call (.managerTurn m₀ s) v [] ∧ Manager.handler? b m₀ s v = some c) ∧
      ∀ c, m.handling? = some (p, c) → due = some c
  first : ∀ a, turns.head? = some a → ∃ work, t₀.Results b work (.ok a.1)
  states : turns.IsChain (Follows b m₀)
  /-- A manager does not wait while there are messages. -/
  idle : m.world.isIdle = true → m.world.procs.isAlive p = true → ∀ s, d = .task (polling m₀ s) [] →
    turns.map Prod.snd = (Record.of (ms.flatMap Machine.record) p).accepted
  going : failure = none → (Record.of (ms.flatMap Machine.record) p).outcome? = none
  failed : ∀ e, failure = some e → ∀ m' ms', Trail b m' (ms ++ ms') → Failed b p e m' (ms ++ ms')

end Manager

namespace Trail

variable {m : Machine κ σ} {ms : List (Machine κ σ)} {p : Pid}

/-- The calls of handlers for one process are those of the turns that it has begun. Only the call of the
last turn may still be due, and then this turn has been begun just now. -/
theorem handlers_of (h : Trail b m ms) (p : Pid) : ∃ due : Option (Call κ),
    ms.filterMap (Machine.handlerOf? p) ++ due.toList =
        (Record.of (ms.flatMap Machine.record) p).acts.filterMap
          (fun d => d.turn?.bind fun e => Manager.handler? b e.1 e.2.1 e.2.2) ∧
      (∀ c, due = some c → ∃ m₀ s v,
        (Record.of (ms.flatMap Machine.record) p).call? = some (.managerTurn m₀ s, v) ∧
          Manager.handler? b m₀ s v = some c) ∧
      ∀ c, m.handling? = some (p, c) → due = some c := by
  obtain ⟨due, same, recent, owes⟩ := h.handlers
  refine ⟨due.bind fun e => if e.1 = p then some e.2 else none, ?_, fun c hc => ?_, fun c hc => ?_⟩
  · have mine := congrArg (List.filterMap fun e => if e.1 = p then some e.2 else none) same
    rw [Record.handlers_of, List.filterMap_append, List.filterMap_filterMap] at mine
    rw [← mine]
    congr 1
    cases due with
    | none => rfl
    | some e => by_cases he : e.1 = p <;> simp [he]
  · obtain ⟨⟨q, c'⟩, rfl, hq⟩ := Option.bind_eq_some_iff.1 hc
    split at hq
    · next same =>
      obtain rfl : q = p := same
      obtain rfl := Option.some.inj hq
      -- The turn has been begun by the last deed of all.
      obtain ⟨r, ⟨q', d⟩, last, he⟩ := recent _ rfl
      rw [Deed.handler?_eq] at he
      obtain ⟨⟨m₀, s, v⟩, turn, he⟩ := Option.bind_eq_some_iff.1 he
      obtain ⟨c, handler, same⟩ := Option.map_eq_some_iff.1 he
      obtain ⟨rfl, rfl⟩ := Prod.mk.inj same
      have entered := Deed.entered_of_turn? turn
      have act : d.isAct = true := by cases d <;> first | rfl | cases entered
      refine ⟨m₀, s, v, ?_, handler⟩
      rw [last, Record.of_append, Record.of_singleton, if_pos rfl, Deeds.call?_of_act act, entered]
    · cases hq
  · have going : m.fault = none := by
      obtain ⟨w, stack, fault⟩ := m
      cases fault with
      | none => rfl
      | some f => cases hc
    rw [(owes going).of_handling hc]
    exact if_pos rfl

/-- A manager that has failed is at its end, and stays so. -/
theorem failed_of_failing (h : Trail b m ms) {t : Task κ} {x : Proc κ} {d : Doing κ} {m₀ : Post κ}
    {e : Value κ} (hx : m.world.procs.get? p = some x)
    (interpreted : (Record.of (ms.flatMap Machine.record) p).Interpreted b x.bare t d)
    (failing : Manager.Failing m₀ e d) : Manager.Failed b p e m ms := by
  have sound := h.reachable.sound
  have outcome : (Record.of (ms.flatMap Machine.record) p).outcome? = d.outcome? := by
    rw [← interpreted.runs.outcome?, Deeds.outcome?, Deeds.outcome?, Deeds.moves_acts]
  have gone : x.root = .dead → p ∉ m.world.processes := by
    intro root there
    rw [World.processes, ProcTable.mem_alive, World.isAlive_of_get? hx, Proc.isDead_iff.2 root] at there
    cases there
  -- As long as it is alive a process fits what is interpreted, and nothing fits an exit.
  have dead : d.outcome? ≠ none → x.root = .dead := by
    intro ended
    refine Classical.byContradiction fun live => ?_
    have fits := interpreted.fits (mt Root.bare_eq_dead.1 live)
    cases d with
    | exited o => exact fits
    | _ => exact ended rfl
  refine ⟨fun c hc => ?_, fun o ho => ⟨?_, ?_⟩, fun idle => ?_, fun acting q hq => ?_⟩
  · -- The call under way is not that of a turn.
    obtain ⟨due, -, begun, called⟩ := h.handlers_of p
    obtain ⟨m', s, v, call, -⟩ := begun c (called c hc)
    rw [interpreted.call?] at call
    rcases failing.call? with none | some
    · cases call.symm.trans none
    · cases call.symm.trans some
  · rw [outcome] at ho
    exact failing.outcome? ho
  · rw [outcome] at ho
    exact gone (dead (by rw [ho]; exact Option.some_ne_none o))
  -- Once idle, a process is not inside a continuation and has no task to go on with, so it has
  -- exited.
  · have root : x.root = .dead := by
      refine Classical.byContradiction fun live => ?_
      have fits := Doing.fits_bare (interpreted.fits (mt Root.bare_eq_dead.1 live))
      have stuck := sound.stuck_of_idle idle hx
      cases failing with
      | entered => exact sound.not_stepping (sound.ticksOf_eq_zero idle) hx fits.1
      | returned =>
        rw [Proc.move?, fits.1] at stuck
        cases stuck
      | exited => exact fits
    refine ⟨gone root, (interpreted.dead (Root.bare_eq_dead.2 root)).imp_right ?_⟩
    rintro ⟨o, rfl⟩
    rw [outcome, ← failing.outcome? rfl]
    rfl
  · have carries := (h.history.returns p).2
    rw [interpreted.call?] at carries
    exact sound.bare_step (Manager.record_of_acting acting carries failing.call?) hq

/-- In every run a manager is a state machine that takes one message after the other. Each message that
it takes is given to a handler, in the order in which the messages have arrived. The first handler gets
the state to which the manager's own start has come, and each other one the state to which the task of
the handler before has come; before that it is not called, whatever is done meanwhile. If the first
task or the task of a handler fails, then no handler is called any more, and the manager exits with this
failure, which leaves all other processes as they are. -/
theorem serves (h : Trail b m ms) {m₀ : Post κ} {T : Task κ → Prop} (deaf : Manager.Deaf b m₀ T)
    {t₀ : Task κ} (init : (b.code (.managerInit m₀)).Returns t₀)
    (spawned : .spawned (.andThen t₀ (.managerReady m₀)) ∈
      Record.of (ms.flatMap Machine.record) p)
    (completed : ∀ t, .completed t ∈ Record.of (ms.flatMap Machine.record) p → T t) :
    ∃ turns failure d, Manager.Served b m₀ t₀ p m ms turns failure d := by
  obtain ⟨x, d, hx, interpreted⟩ := h.history.interpreted spawned
  obtain ⟨turns, failure, course⟩ := Manager.course_of_runs interpreted.runs
  have ht₀ : T t₀ := deaf.init t₀ init
  have within : ∀ t, .completed t ∈ (Record.of (ms.flatMap Machine.record) p).acts → T t :=
    fun t ht => completed t (List.mem_filter.1 ht).1
  have consumed : turns.map Prod.snd = (Record.of (ms.flatMap Machine.record) p).consumed := by
    have same := course.reads (g := fun d => d.move?.bind Move.consumed?) (f := Prod.snd)
      (fun _ _ => rfl) (fun _ quiet => quiet.consumed) deaf ht₀ within
    rw [← same, Deeds.consumed, ← Deeds.moves_acts, Deeds.moves, List.filterMap_filterMap]
  have started := course.reads (g := Deed.turn?) (f := fun a => (m₀, a.1, a.2))
    (fun _ _ => rfl) (fun _ quiet => quiet.turn) deaf ht₀ within
  have fifo := (h.history.life p).fifo
  have there : x.isDead = false → d.Fits x ∧
      turns.map Prod.snd ++ x.mailbox = (Record.of (ms.flatMap Machine.record) p).accepted := by
    intro alive
    refine ⟨Doing.fits_bare (interpreted.fits fun root => ?_), ?_⟩
    · rw [Proc.isDead_iff.2 (Root.bare_eq_dead.1 root)] at alive
      cases alive
    · rw [consumed]
      exact fifo.alive x.bare (World.bare_of_get? hx) (by rw [Proc.isDead_bare, alive])
  obtain ⟨first, states⟩ := course.chain
  obtain ⟨due, calls, begun, called⟩ := h.handlers_of p
  refine ⟨turns, failure, d, course, ⟨x, hx, there⟩, ⟨consumed, ?_⟩,
    ⟨due, ?_, fun c hc => ?_, called⟩, first, states, fun idle alive s hd => ?_, fun none => ?_, ?_⟩
  · rw [consumed]
    exact fifo.ordered
  · -- The turns are those that the deeds begin.
    rw [calls, ← List.filterMap_filterMap, started, List.filterMap_map]
    rfl
  · obtain ⟨m', s, v, call, handler⟩ := begun c hc
    rw [interpreted.call?] at call
    obtain ⟨rfl, doing, turn, -⟩ := course.beginning deaf ht₀ within call
    exact ⟨s, v, turn, doing, handler⟩
  · -- What waits in an idle runtime has nothing in its mailbox.
    rw [World.isAlive_of_get? hx, Bool.not_eq_true'] at alive
    obtain ⟨fits, all⟩ := there alive
    obtain rfl := hd
    obtain ⟨c, -, empty⟩ :=
      Proc.move?_eq_none (h.reachable.sound.stuck_of_idle idle hx) fits.1
    rw [← all, empty, List.append_nil]
  · obtain rfl := none
    rw [Deeds.outcome?, ← Deeds.moves_acts, ← Deeds.outcome?, interpreted.runs.outcome?]
    exact course.going
  · rintro e rfl m' ms' h'
    have split : Record.of ((ms ++ ms').flatMap Machine.record) p =
        Record.of (ms.flatMap Machine.record) p ++ Record.of (ms'.flatMap Machine.record) p := by
      rw [List.flatMap_append, Record.of_append]
    obtain ⟨x', d', hx', interpreted'⟩ := h'.history.interpreted (split ▸ List.mem_append_left _ spawned)
    have runs := interpreted'.runs
    rw [split, Deeds.acts, List.filter_append] at runs
    exact h'.failed_of_failing hx' interpreted' (course.failing.runs (interpreted.runs.later runs))

end Trail

/-- A manager that does a little for every set of effects, and fails with every message to itself; and
a program with this manager. -/
def brittle : Behaviour Unit Unit :=
  { Behaviour.ofCallbacks (fun _ _ => .succeed .unit) with
    manager := fun _ =>
      { kind := .both
        state := .unit
        init := .ret (.succeed .unit)
        onEffects := fun _ _ _ s => .ret (.andThen (.native .this) (.replace s))
        onMessage := fun _ v _ => .ret (.fail v)
        mapCommand := fun _ v => .ret v
        mapSubscription := fun _ v => .ret v }
    application := fun _ =>
      { message := .unit
        managers := [(.tasks, .custom ())]
        init := .ret (.unit, .node [])
        update := fun _ model => .ret (model, .node [])
        subscriptions := fun _ => .ret (.node [])
        render := fun _ => .ret () } }

/-- The program is started, and its manager is sent a message to itself. -/
def strained : Machine Unit Unit :=
  let code : Code Unit Unit Unit :=
    (Code.ask (.start ())).bind fun _ =>
      (Code.ask (.send ⟨2⟩ (.internal (.bool true)))).bind fun _ =>
        (Code.ask (.drive .idle)).bind fun _ => .ret ()
  .load (.new .standard ()) (Procedure.ofCode code)

/-- The tasks of this manager. -/
inductive Brief : Task Unit → Prop where
  | succeed (v : Value Unit) : Brief (.succeed v)
  | fail (v : Value Unit) : Brief (.fail v)
  | native (g : Binding Unit) : Brief (.native g)
  | replaced (g : Binding Unit) (v : Value Unit) : Brief (.andThen (.native g) (.replace v))

theorem brittle_deaf (r : Router) : Manager.Deaf brittle ⟨.custom (), r⟩ Brief where
  silent := nofun
  pushes := by
    intro u t h pushes brief
    cases brief with
    | replaced g v =>
      cases pushes
      refine ⟨.native g, nofun, fun v' t ht => ?_⟩
      obtain rfl := Procedure.Brings.of_ret ht
      exact .succeed v
    | _ => cases pushes
  init t returns := by
    obtain rfl := Code.returns_ret returns
    exact .succeed _
  effects cmds subs s t returns := by
    obtain rfl := Code.returns_ret returns
    exact .replaced _ _
  message v s t returns := by
    obtain rfl := Code.returns_ret returns
    exact .fail _

/-- The manager handles its first message, and fails with its second one. -/
theorem brittle_serves : ∃ turns d,
    Manager.Served brittle ⟨.custom (), ⟨⟨1⟩, ⟨2⟩⟩⟩ (.succeed .unit) ⟨2⟩
        (Machine.run brittle 60 strained) (Machine.passed brittle 60 strained) turns
        (some (.bool true)) d ∧
      turns.map Prod.snd = [.effects [] [], .internal (.bool true)] := by
  have begin : Trail brittle strained [] := .new _ _ _
  have h : Trail brittle (Machine.run brittle 60 strained) (Machine.passed brittle 60 strained) :=
    begin.run 60
  have head : (Record.of ((Machine.passed brittle 60 strained).flatMap Machine.record) ⟨2⟩).head? =
      some (.spawned (.andThen (.succeed .unit) (.managerReady ⟨.custom (), ⟨⟨1⟩, ⟨2⟩⟩⟩))) := rfl
  have completions : (Record.of ((Machine.passed brittle 60 strained).flatMap Machine.record)
      ⟨2⟩).completions = [.succeed (.pid ⟨2⟩)] := rfl
  have outcome : (Record.of ((Machine.passed brittle 60 strained).flatMap Machine.record)
      ⟨2⟩).outcome? = some (.error (.bool true)) := rfl
  obtain ⟨turns, failure, d, served⟩ := h.serves (brittle_deaf ⟨⟨1⟩, ⟨2⟩⟩)
    (Code.Returns.ret _) (List.mem_of_mem_head? head) fun t ht => by
      have ht : t ∈ [.succeed (.pid ⟨2⟩)] := completions ▸ List.mem_filterMap.2 ⟨_, ht, rfl⟩
      rw [List.mem_singleton.1 ht]
      exact .succeed _
  have messages := served.messages.1
  cases failure with
  | none => cases outcome.symm.trans (served.going rfl)
  | some e =>
    have failed := served.failed e rfl (Machine.run brittle 60 strained) []
    rw [List.append_nil] at failed
    obtain ⟨same, -⟩ := (failed h).outcome _ outcome
    obtain rfl := Except.error.inj same
    exact ⟨turns, d, served, messages⟩

end Actors
