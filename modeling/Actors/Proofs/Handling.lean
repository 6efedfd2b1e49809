/-
The calls of the managers' handlers.

A handler of a manager is called at one place only: by the turn of the manager's loop, when a message
has been taken. It is called at once, before anything else happens but for a line in the journal. So
the handlers are called in the order in which turns are begun, once for each, and at most the call of
the last turn is still to come.

* `Callback.handler?` — the call of a handler that a continuation begins with;
* `Discipline.handling` — code calls a handler only if it is due;
* `Trail.handlers` — the calls of handlers in a run.
-/
import Actors.Proofs.Keeping
import Actors.Proofs.Usage

namespace Actors

variable {κ σ α : Type} {b : Behaviour κ σ}

open Procedure

/-! ### Calls of handlers -/

/-- Whether a call enters a handler of a manager. -/
def Call.isHandler : Call κ → Bool
  | .managerEffects .. => true
  | .managerMessage .. => true
  | _ => false

/-- Whether a directive calls a handler of a manager. -/
def Directive.handles : Directive κ σ → Bool
  | .invoke c => c.isHandler
  | _ => false

/-- The call of the handler that a message is given to, in a state of the right type. -/
def Manager.handler? (b : Behaviour κ σ) (m : Post κ) (state : Value κ) :
    Value κ → Option (Call κ)
  | .effects cmds subs =>
    (state.coerce (m.hooks.manager b).state).toOption.map (.managerEffects m cmds subs)
  | .internal v =>
    (state.coerce (m.hooks.manager b).state).toOption.map (.managerMessage m v)
  | _ => none

/-- The call of a handler with which a continuation begins. -/
def Callback.handler? (b : Behaviour κ σ) : Callback κ → Value κ → Option (Call κ)
  | .managerTurn m state, v => Manager.handler? b m state v
  | _, _ => none

/-- The process of which a continuation calls a handler in the next step, with the call. -/
def Machine.handling? (m : Machine κ σ) : Option (Pid × Call κ) :=
  match m.fault, m.stack with
  | none, .tick _ _ (.callback p (.run (.op (.invoke c) _))) :: _ =>
    if c.isHandler then some (p, c) else none
  | _, _ => none

/-- The call of a handler that is due when a deed has been done. -/
def Deed.handler? (b : Behaviour κ σ) (e : Pid × Deed κ) : Option (Pid × Call κ) :=
  (e.2.move?.bind Move.entered).bind fun x => (x.1.handler? b x.2).map (e.1, ·)

/-! ### Code that calls no handler -/

/-- Nothing but the turn of a manager calls a handler. -/
theorem Callback.calm_run {c : Callback κ} (h : ∀ m s, c ≠ .managerTurn m s) (v : Value κ) :
    (c.run b v).Uses fun d => d.handles = false :=
  (Callback.uses_run h v).mono fun _ hd => by cases hd <;> rfl

theorem Program.calm_conclude (i : ProgramId) (d : RunningProgram κ) (model : Value κ)
    (cmds : EffectTree κ) : (conclude b i d model cmds).Uses fun d => d.handles = false :=
  (uses_conclude i d model cmds).mono fun _ hd => by cases hd <;> rfl

theorem Program.calm_startManagers (app : Pid) : ∀ managers : List (Home × Hooks κ),
    (startManagers (σ := σ) app managers).Uses fun d => d.handles = false
  | [] => trivial
  | (_, _) :: rest => by
    refine uses_first rfl fun this => Uses.bind ?_ fun t => uses_first rfl fun _ => ?_
    · exact uses_first rfl fun _ => uses_first rfl fun _ => trivial
    · exact (calm_startManagers app rest).bind fun _ => trivial

theorem Program.calm_start (c : κ) : (start b c).Uses fun d => d.handles = false := by
  refine (uses_register (fun _ _ => rfl) _ _).bind fun r => ?_
  cases r with
  | error f => trivial
  | ok registry =>
    refine uses_first rfl fun _ => uses_first rfl fun pid => uses_first rfl fun _ => ?_
    refine (calm_startManagers pid _).bind fun managers => ?_
    refine uses_first rfl fun i => uses_first rfl fun r => ?_
    refine (calm_conclude i _ _ _).bind fun _ => ?_
    exact uses_first rfl fun _ => uses_first rfl fun _ => uses_first rfl fun _ =>
      uses_first rfl fun _ => uses_first rfl fun _ => trivial

theorem Program.calm_update (i : ProgramId) (v : Value κ) :
    (update b i v).Uses fun d => d.handles = false := by
  refine uses_first rfl fun r => ?_
  cases r with
  | none => trivial
  | some d =>
    dsimp only
    split
    · refine uses_first rfl fun model => ?_
      cases model with
      | none => trivial
      | some model =>
        exact uses_first rfl fun r => uses_first rfl fun _ => calm_conclude i d r.1 r.2
    · trivial

theorem Binding.calm_start (t : Ticket) (g : Binding κ) :
    (g.start b t).Uses fun d => d.handles = false := by
  have settle : ∀ task : Task κ,
      (direct (σ := σ) (.settle t task)).Uses fun d => d.handles = false :=
    fun _ => uses_direct rfl
  cases g with
  | code c =>
    refine uses_first rfl fun r => ?_
    cases r with
    | none => trivial
    | some c => exact uses_direct rfl
  | spawn task =>
    refine uses_first rfl fun r => ?_
    cases r with
    | none => trivial
    | some p => exact settle _
  | kill p => exact uses_first rfl fun _ => settle _
  | send p v => exact uses_first rfl fun _ => settle _
  | this => exact settle _
  | sleep span => exact uses_direct rfl
  | update i v =>
    exact uses_first rfl fun _ => (Program.calm_update i v).bind fun _ => settle _

theorem Directive.Expands.calm {d : Directive κ σ} {y : Procedure κ σ d.Reply}
    (h : d.Expands b y) : y.Uses fun d => d.handles = false := by
  cases h with
  | invoke c => exact uses_ofCode (fun _ => rfl) _
  | build c => exact uses_direct rfl
  | convert c v => exact uses_direct rfl
  | spawnWith c =>
    exact uses_first rfl fun _ => uses_first rfl fun p => uses_first rfl fun t =>
      uses_first rfl fun _ => uses_first rfl fun _ => trivial
  | start c => exact (Program.calm_start c).bind fun _ => trivial
  | kill p c => exact uses_direct rfl
  | attach t c c' => exact uses_direct rfl

/-! ### The call that is due -/

/-- When a turn of a manager has begun, the call of its handler is due. Code calls a handler only if
it is due, and does nothing else before, but for adding lines to the journal. -/
def Discipline.handling (b : Behaviour κ σ) : Discipline κ σ (Option (Pid × Call κ)) where
  idle := none
  enter p c v := (c.handler? b v).map (p, ·)
  launch _ _ := none
  may s d :=
    match s with
    | none => d.handles = false
    | some (_, c) => (∃ e, d = .note e) ∨ d = .invoke c
  knows _ _ _ := True
  within _ _ := none
  next s d _ :=
    match d with
    | .note _ => s
    | _ => none
  gives s _ := s = none
  ends s := s = none

theorem handling_neutral {d : Directive κ σ} (h : d.handles = false) :
    (Discipline.handling b).Neutral none d := by
  refine ⟨h, fun _ _ => ?_⟩
  cases d <;> rfl

theorem handling_calm {x : Procedure κ σ α} (h : x.Uses fun d => d.handles = false) :
    x.Restores (Discipline.handling b) none :=
  h.restores fun _ => handling_neutral

/-- A turn of a manager calls the handler that is due, and no other. -/
theorem handling_turn (p : Pid) (m : Post κ) (state v : Value κ) :
    (Manager.turn b m state v).Obeys (Discipline.handling b) (fun s _ => s = none)
      ((Manager.handler? b m state v).map (p, ·)) := by
  refine Obeys.bind (Q := fun s _ => s = none) ?_ fun s _ hs => hs
  cases v with
  | effects cmds subs =>
    simp only [Manager.handle, Manager.handler?]
    cases state.coerce (m.hooks.manager b).state with
    | ok s => exact ⟨.inl ⟨_, rfl⟩, fun _ _ => ⟨.inr rfl, fun _ _ => rfl⟩⟩
    | error f => exact ⟨rfl, fun _ _ => trivial⟩
  | internal v =>
    simp only [Manager.handle, Manager.handler?]
    cases state.coerce (m.hooks.manager b).state with
    | ok s => exact ⟨.inl ⟨_, rfl⟩, fun _ _ => ⟨.inr rfl, fun _ _ => rfl⟩⟩
    | error f => exact ⟨rfl, fun _ _ => trivial⟩
  | _ => trivial

theorem handling_callback (p : Pid) (c : Callback κ) (v : Value κ) :
    (c.run b v).Obeys (Discipline.handling b) (Discipline.handling b).gives
      ((Discipline.handling b).enter p c v) := by
  by_cases h : ∃ m state, c = .managerTurn m state
  · obtain ⟨m, state, rfl⟩ := h
    exact handling_turn p m state v
  · have none : (Discipline.handling b).enter p c v = none := by
      cases c with
      | managerTurn m state => exact absurd ⟨m, state, rfl⟩ h
      | _ => rfl
    rw [none]
    exact handling_calm (Callback.calm_run (fun m state hc => h ⟨m, state, hc⟩) v)

theorem handling_lawful : (Discipline.handling b).Lawful b where
  code x := handling_calm (uses_ofCode (fun _ => rfl) x)
  thunk c := handling_calm (uses_direct rfl)
  callback := handling_callback
  binding t g := handling_calm (Binding.calm_start t g)
  expands _ _ _ _ expands := (handling_calm expands.calm).mono fun _ _ hs => ⟨hs, trivial⟩
  drive := by
    intro s e n may
    refine ⟨trivial, ?_⟩
    cases s with
    | none => rfl
    | some due => rcases may with ⟨_, he⟩ | he <;> cases he

theorem handling_settled {s s' : Option (Pid × Call κ)} (h : (Discipline.handling b).Settled b s s') :
    s' = s := by
  refine h.eq fun s s' hs => ?_
  obtain ⟨may, expands, r, known⟩ := hs
  cases expands <;> rfl

theorem handling_trims {L L' : List (Option (Pid × Call κ))}
    (h : (Discipline.handling b).Trims b L L') (idle : ∀ s ∈ L, s = none) : ∀ s ∈ L', s = none := by
  induction h with
  | refl => exact idle
  | settle T settled => rwa [handling_settled settled]
  | drop T => exact fun s hs => idle s (List.mem_cons_of_mem _ hs)
  | push T => exact List.forall_mem_cons.2 ⟨rfl, idle⟩
  | trans _ _ ih ih' => exact ih' (ih idle)

/-! ### Runs -/

theorem Machine.directive?_of_handling {m : Machine κ σ} {p : Pid} {c : Call κ}
    (h : m.handling? = some (p, c)) : m.directive? = some (.invoke c) ∧ c.isHandler = true ∧
      ∃ n k code s, m.stack = .tick n k (.callback p code) :: s := by
  obtain ⟨w, stack, fault⟩ := m
  unfold handling? at h
  split at h
  · next n k q c' k' s hf hs =>
    obtain rfl : fault = none := hf
    obtain rfl := hs
    split at h
    · next handler =>
      obtain ⟨rfl, rfl⟩ := Prod.mk.inj (Option.some.inj h)
      exact ⟨rfl, handler, n, k, _, s, rfl⟩
    · cases h
  · cases h

/-- No handler is called by what is no call of a handler. -/
theorem Machine.handling?_eq_none {m : Machine κ σ}
    (h : ∀ d, m.directive? = some d → d.handles = false) : m.handling? = none := by
  refine Option.eq_none_iff_forall_ne_some.2 fun ⟨p, c⟩ hc => ?_
  obtain ⟨top, handler, -⟩ := Machine.directive?_of_handling hc
  rw [show c.isHandler = false from h _ top] at handler
  cases handler

/-- What code does to processes they do not do themselves. -/
theorem Transition.not_own {m m' : Machine κ σ} {r : Record κ} (tr : Transition b m r m')
    {d : Directive κ σ} (top : m.directive? = some d) : ∀ e ∈ r, e.2.isOwn = false := by
  cases tr with
  | rest m idle => rw [idle] at top; cases top
  | code fr hd => exact (Directive.operation hd).isOwn_eq_false
  | driving => exact nofun
  | broken => exact nofun
  | _ => cases top

theorem Deed.handler?_of_not_own {r : Record κ} (h : ∀ e ∈ r, e.2.isOwn = false) :
    r.filterMap (Deed.handler? b) = [] := by
  refine List.filterMap_eq_nil_iff.2 fun ⟨p, d⟩ hd => ?_
  have own := h _ hd
  cases d <;> first | rfl | cases own

theorem Callback.isHandler_of_handler? {c : Callback κ} {v : Value κ} {call : Call κ}
    (h : c.handler? b v = some call) : call.isHandler = true := by
  cases c with
  | managerTurn m state =>
    cases v with
    | effects cmds subs =>
      obtain ⟨s, -, rfl⟩ := Option.map_eq_some_iff.1 h
      rfl
    | internal v =>
      obtain ⟨s, -, rfl⟩ := Option.map_eq_some_iff.1 h
      rfl
    | _ => cases h
  | _ => cases h

/-- A step that breaks a contract does nothing to processes, and is no call. -/
theorem Transition.of_fault {m m' : Machine κ σ} {r : Record κ} (tr : Transition b m r m') {f : Fault}
    (going : m.fault = none) (hf : m'.fault = some f) :
    r = [] ∧ ∀ c, m.directive? ≠ some (.invoke c) := by
  cases tr with
  | rest => cases going.symm.trans hf
  | @broken w w' a a' s f' agree like cause =>
    refine ⟨rfl, fun c top => ?_⟩
    cases cause with
    | raised fr f => cases fr <;> cases top
    | failed fr hd =>
      rw [fr.directive?_fill] at top
      obtain rfl := Option.some.inj top
      cases hd
    | woken => cases top
  | _ => cases hf

/-- What is due in a machine that has not broken a contract: the code of a process on top of the stack
is about to call a handler, or nothing is due. -/
structure Machine.Due (b : Behaviour κ σ) (m : Machine κ σ) (due : Option (Pid × Call κ)) : Prop where
  going : m.fault = none
  keeps : ∃ L, m.Keeps (Discipline.handling b) b L ∧ L.head?.join = due ∧ ∀ s ∈ L.tail, s = none
  top : ∀ p c, due = some (p, c) → c.isHandler = true ∧
    ∃ n k code s, m.stack = .tick n k (.callback p (.run code)) :: s

namespace Machine.Due

variable {m : Machine κ σ} {due : Option (Pid × Call κ)}

theorem of_none {L : List (Option (Pid × Call κ))} (going : m.fault = none)
    (keeps : m.Keeps (Discipline.handling b) b L) (none : ∀ s ∈ L, s = none) : m.Due b .none where
  going := going
  keeps := by
    refine ⟨L, keeps, ?_, fun s hs => none s (List.mem_of_mem_tail hs)⟩
    cases L with
    | nil => rfl
    | cons s T => exact none s List.mem_cons_self
  top := nofun

/-- Handlers are called by directives only. -/
theorem handling?_of_still (still : m.directive? = none) : m.handling? = none :=
  Machine.handling?_eq_none fun d hd => by
    rw [still] at hd
    cases hd

end Machine.Due

/-- What is due before a step and after it. Handlers are called in the order in which turns begin, and what is
due after the step either was so before, and nothing has been done, or it belongs to the turn that has just
begun. -/
structure Machine.Dues (b : Behaviour κ σ) (m : Machine κ σ) (due due' : Option (Pid × Call κ)) : Prop where
  order : m.handling?.toList ++ due'.toList = due.toList ++ m.record.filterMap (Deed.handler? b)
  recent : ∀ x, due' = some x →
    m.record = [] ∧ due = some x ∨ ∃ e, m.record = [e] ∧ Deed.handler? b e = some x
  next : (m.step b).fault = none → (m.step b).Due b due'

namespace Machine.Due

variable {m : Machine κ σ} {due s : Option (Pid × Call κ)} {L T : List (Option (Pid × Call κ))} {p : Pid}
  {c : Call κ}

/-- Nothing is due before a step that begins no turn, and nothing is due after it. -/
theorem dues_none (quiet : m.handling? = none) (record : m.record.filterMap (Deed.handler? b) = [])
    (keeps : (m.step b).Keeps (Discipline.handling b) b L) (idle : ∀ s ∈ L, s = none) :
    m.Dues b none none where
  order := by
    rw [quiet, record]
    rfl
  recent := nofun
  next going := .of_none going keeps idle

/-- What is due stays due when nothing is done and the code of the turn is still on top. -/
theorem dues_same (quiet : m.handling? = none) (record : m.record = [])
    (next : (m.step b).fault = none → (m.step b).Due b due) : m.Dues b due due where
  order := by
    rw [quiet, record]
    exact (List.append_nil _).symm
  recent x hx := .inl ⟨record, hx⟩
  next := next

/-- While a call is due the code on top adds a line to the journal, and the call is still due, or makes the
call. -/
theorem performs (h : m.Due b (some (p, c))) {d : Directive κ σ} (top : m.directive? = some d)
    (may : (Discipline.handling b).may (some (p, c)) d)
    (moves : (Discipline.handling b).Moves b m.world (some (p, c)) d (m.step b).world s)
    (keeps : (m.step b).Keeps (Discipline.handling b) b (s :: T)) (below : ∀ s ∈ T, s = none) :
    ∃ due', m.Dues b (some (p, c)) due' := by
  obtain ⟨handler, n, k, code, st, stack⟩ := h.top p c rfl
  have record := Deed.handler?_of_not_own (b := b) ((Machine.transition b m).not_own top)
  obtain ⟨w, stack', fault⟩ := m
  obtain rfl : fault = none := h.going
  obtain rfl : stack' = _ := stack
  obtain ⟨k', rfl⟩ : ∃ k', code = .op (S := directives κ σ) d k' := by
    cases code with
    | ret t => cases top
    | raise f => cases top
    | op d' k' =>
      obtain rfl := Option.some.inj top
      exact ⟨k', rfl⟩
  -- The journal line comes first; then the directive on top is the call that is due.
  rcases may with ⟨e, rfl⟩ | rfl
  · refine ⟨some (p, c), dues_same rfl rfl fun going => ⟨going, ?_, fun q c' hq => ?_⟩⟩
    · cases moves with
      | answered r hd known => exact ⟨_, keeps, rfl, below⟩
      | expanded hd expands => cases expands
    · obtain ⟨rfl, rfl⟩ := Prod.mk.inj (Option.some.inj hq)
      exact ⟨handler, n, k, k' (), st, rfl⟩
  · have called : Machine.handling? (κ := κ) (σ := σ)
        ⟨w, .tick n k (.callback p (.run (.op (.invoke c) k'))) :: st, none⟩ = some (p, c) := if_pos handler
    have idle : s = none := by cases moves <;> rfl
    refine ⟨none, ?_, nofun, fun going => .of_none going keeps (List.forall_mem_cons.2 ⟨idle, below⟩)⟩
    rw [called, record]
    rfl

/-- When a turn begins its call is due. -/
theorem dues_entered {mv : Move κ} {c : Callback κ} {v : Value κ} (still : m.directive? = none)
    (record : m.record = [(p, .moved mv)]) (hc : mv.entered = some (c, v))
    (keeps : (m.step b).Keeps (Discipline.handling b) b ((c.handler? b v).map (p, ·) :: T))
    (below : ∀ s ∈ T, s = none) : m.Dues b none ((c.handler? b v).map (p, ·)) := by
  have begun : Deed.handler? b (p, .moved mv) = (c.handler? b v).map (p, ·) := by
    show mv.entered.bind _ = _
    rw [hc]
    rfl
  refine ⟨?_, fun x hx => .inr ⟨_, record, begun.trans hx⟩,
    fun going => ⟨going, ⟨_, keeps, rfl, below⟩, fun q call hq => ?_⟩⟩
  · rw [handling?_of_still still, record, List.filterMap_cons, begun]
    cases c.handler? b v <;> rfl
  · obtain ⟨call', hcall, same⟩ := Option.map_eq_some_iff.1 hq
    obtain ⟨rfl, rfl⟩ := Prod.mk.inj same
    obtain ⟨n, k, s, stack⟩ := Machine.step_of_entered (b := b) (record ▸ List.mem_singleton.2 rfl) hc
    exact ⟨Callback.isHandler_of_handler? hcall, n, k, _, s, stack⟩

/-- While a call is due, the code on top is not at its end. If it performs nothing it breaks a contract. -/
theorem fault_of_still (h : m.Due b (some (p, c))) (still : m.directive? = none) :
    m.record = [] ∧ (m.step b).fault ≠ none := by
  obtain ⟨L, keeps, owed, below⟩ := h.keeps
  obtain ⟨handler, n, k, code, st, stack⟩ := h.top p c rfl
  obtain ⟨w, stack', fault⟩ := m
  obtain rfl : fault = none := h.going
  obtain rfl : stack' = _ := stack
  cases code with
  | op d k' => cases still
  | raise f => exact ⟨rfl, nofun⟩
  | ret t =>
    exfalso
    cases keeps rfl with
    | @cons s _ T _ hs rest =>
      have runs : Procedure.Runs (Discipline.handling b) b (Discipline.handling b).gives s (.ret t) := hs
      obtain ⟨s', settled, gives⟩ := runs.ret_cases rfl
      obtain rfl := handling_settled settled
      obtain rfl : s' = none := gives
      cases owed

/-- What is due stays due until the handler is called, and when a turn begins, its call is due. -/
theorem step (h : m.Due b due) : ∃ due', m.Dues b due due' := by
  have tr := Machine.transition b m
  obtain ⟨L, keeps, rfl, below⟩ := h.keeps
  obtain ⟨L', keeps', goes⟩ := keeps.transition handling_lawful tr
    fun _ _ _ _ _ _ _ _ _ _ _ => trivial
  -- While a call is due the code that owes it is on top, so the steps of other code find nothing
  -- due.
  cases goes with
  | @code s s₁ s' T d top settled may moves =>
    obtain rfl := handling_settled settled
    cases s₁ with
    | some owed => exact h.performs top may moves keeps' below
    | none =>
      have idle : s' = none := by cases moves <;> first | rfl | (cases d <;> rfl)
      refine ⟨none, dues_none (Machine.handling?_eq_none fun d' hd => ?_)
        (Deed.handler?_of_not_own (tr.not_own top)) keeps' (List.forall_mem_cons.2 ⟨idle, below⟩)⟩
      obtain rfl := Option.some.inj (top.symm.trans hd)
      exact may
  | @driving s s₁ T e top settled may same =>
    obtain rfl := handling_settled settled
    cases s₁ with
    | some due => rcases may with ⟨e, he⟩ | he <;> cases he
    | none =>
      have idle : ∀ s ∈ none :: none :: T, s = none :=
        List.forall_mem_cons.2 ⟨rfl, List.forall_mem_cons.2 ⟨rfl, below⟩⟩
      refine ⟨none, dues_none (Machine.handling?_eq_none fun d' hd => ?_)
        (Deed.handler?_of_not_own (tr.not_own top)) keeps' idle⟩
      obtain rfl := Option.some.inj (top.symm.trans hd)
      rfl
  | @entered T p mv c v still record hc => exact ⟨_, dues_entered still record hc keeps' below⟩
  | @started T p x mv g still record hx task =>
    obtain ⟨x', n, k, s, -, can, -⟩ :=
      Machine.step_of_native (b := b) (record ▸ List.mem_singleton.2 rfl) task
    have silent : Deed.handler? b (p, .moved mv) = none := by
      show mv.entered.bind _ = _
      rw [(Proc.moves can).entered_of_native task]
      rfl
    refine ⟨none, dues_none (handling?_of_still still) ?_ keeps' (List.forall_mem_cons.2 ⟨rfl, below⟩)⟩
    rw [record, List.filterMap_cons_none silent, List.filterMap_nil]
  | @returned s s₁ T n k p t st still top settled gives =>
    obtain rfl := handling_settled settled
    obtain rfl : s₁ = none := gives
    refine ⟨none, dues_none (handling?_of_still still) ?_ keeps' (List.forall_mem_cons.2 ⟨rfl, below⟩)⟩
    obtain ⟨w, stack, fault⟩ := m
    obtain rfl : fault = none := h.going
    obtain rfl : stack = _ := top
    show List.filterMap _ (if w.procs.isAlive p then [(p, Deed.returned t)] else []) = []
    split <;> rfl
  | @launched s s₁ T still silent settled ends =>
    obtain rfl := handling_settled settled
    obtain rfl : s₁ = none := ends
    exact ⟨none, dues_none (handling?_of_still still) (by rw [silent]; rfl) keeps'
      (List.forall_mem_cons.2 ⟨rfl, below⟩)⟩
  | broken hf still =>
    obtain ⟨record, uncalled⟩ := tr.of_fault h.going hf
    refine ⟨_, dues_same (Machine.handling?_eq_none fun d hd => ?_) record fun going => ?_⟩
    · cases d with
      | invoke c => exact absurd hd (uncalled c)
      | _ => rfl
    · rw [hf] at going
      cases going
  | quiet still begins trims =>
    cases owed : L.head?.join with
    | some e =>
      obtain ⟨record, breaks⟩ := (owed ▸ h).fault_of_still still
      exact ⟨_, dues_same (handling?_of_still still) record fun going => absurd going breaks⟩
    | none =>
      have idle : ∀ s ∈ L, s = none := by
        cases L with
        | nil => exact nofun
        | cons s T => exact List.forall_mem_cons.2 ⟨owed, below⟩
      refine ⟨none, dues_none (handling?_of_still still) ?_ keeps' (handling_trims trims idle)⟩
      refine List.filterMap_eq_nil_iff.2 fun ⟨p, d⟩ hd => ?_
      cases d with
      | moved mv =>
        show mv.entered.bind _ = _
        rw [(begins p mv hd).1]
        rfl
      | _ => rfl

end Machine.Due

/-- A handler that is called is due. -/
theorem Machine.Due.of_handling {m : Machine κ σ} {due : Option (Pid × Call κ)} (h : m.Due b due)
    {x : Pid × Call κ} (hx : m.handling? = some x) : due = some x := by
  obtain ⟨p, c⟩ := x
  obtain ⟨due', dues⟩ := h.step
  have same := dues.order
  rw [hx, Deed.handler?_of_not_own ((Machine.transition b m).not_own
    (Machine.directive?_of_handling hx).1), List.append_nil] at same
  cases due with
  | none => cases same
  | some y =>
    obtain ⟨rfl, -⟩ := List.cons.inj same
    rfl

/-- In every run the handlers of managers are called in the order in which turns are begun, once for
each turn whose message and state are as they should be. At most the call of the last turn is still to
come, and then this turn has been begun just now, and its code is on top of the stack. -/
theorem Trail.handlers {m : Machine κ σ} {ms : List (Machine κ σ)} (h : Trail b m ms) :
    ∃ due : Option (Pid × Call κ),
      ms.filterMap Machine.handling? ++ due.toList =
          (ms.flatMap Machine.record).filterMap (Deed.handler? b) ∧
        (∀ x, due = some x →
          ∃ r e, ms.flatMap Machine.record = r ++ [e] ∧ Deed.handler? b e = some x) ∧
        (m.fault = none → m.Due b due) := by
  have loaded : ∀ (w : World κ σ) (code : Code κ σ Unit), (Machine.load w (ofCode code)).Due b none :=
    fun w code => .of_none rfl (Machine.keeps_load handling_lawful w code)
      fun s hs => List.mem_singleton.1 hs
  induction h with
  | new config user code =>
    exact ⟨none, rfl, fun _ hx => absurd hx.symm (Option.some_ne_none _), fun _ => loaded _ code⟩
  | @load m ms code h hs hf ih =>
    obtain ⟨due, same, -, owes⟩ := ih
    have nothing : due = none := by
      cases hd : due with
      | none => rfl
      | some e =>
        obtain ⟨-, n, k, code, s, stack⟩ := (owes hf).top e.1 e.2 hd
        rw [hs] at stack
        cases stack
    obtain rfl := nothing
    exact ⟨none, same, fun _ hx => absurd hx.symm (Option.some_ne_none _), fun _ => loaded _ code⟩
  | @step m ms h ih =>
    obtain ⟨due, same, recent, owes⟩ := ih
    rw [filterMap_snoc, List.flatMap_append, List.flatMap_singleton, List.filterMap_append]
    cases hf : m.fault with
    | some f =>
      -- Nothing is done any more.
      have still : m.step b = m := Machine.step_of_isOver (by simp [Machine.isOver, hf])
      have idle : m.handling? = none ∧ m.record = [] := by
        obtain ⟨w, stack, fault⟩ := m
        obtain rfl : fault = some f := hf
        exact ⟨rfl, rfl⟩
      rw [idle.1, idle.2, still, hf, List.append_nil]
      exact ⟨due, by simpa using same, recent, fun going => absurd going (Option.some_ne_none f)⟩
    | none =>
      obtain ⟨due', dues⟩ := (owes hf).step
      refine ⟨due', ?_, fun x hx => ?_, dues.next⟩
      · rw [List.append_assoc, dues.order, ← List.append_assoc, same]
      · rcases dues.recent x hx with ⟨idle, hd⟩ | ⟨e, record, he⟩
        · rw [idle, List.append_nil]
          exact recent x hd
        · exact ⟨_, e, by rw [record], he⟩

end Actors
