/-
Main processes do not end.

The main process of a program takes one message after the other, and waits for the update cycle of each.
An update cycle is the runtime's own work, so nobody else has the ticket for it, and it is completed
with a success. Hence a main process never comes to an end by itself: it is there until it is killed.

* `Listening` — what a main process can be doing;
* `World.Backed`, `History.backed` — a ticket belongs to the one that the work of its binding says;
* `History.listens` — a main process is alive until it is killed.
-/
import Actors.Proofs.Doing
import Actors.Proofs.Upkeep

namespace Actors

variable {κ σ α : Type} {b : Behaviour κ σ}

open World

/-! ### The loop of a main process -/

/-- The situations of a main process: it waits for a message, or it is on its way through the update
cycle of one. -/
inductive Listening (i : ProgramId) : Doing κ → Prop where
  | waits : Listening i (.task (Program.listen i) [])
  | takes (v : Value κ) : Listening i (.call (.programTurn i) v [])
  | turns (v : Value κ) :
      Listening i (.task (.andThen (.native (.update i v)) (.programNext i)) [])
  | begins (v : Value κ) :
      Listening i (.task (.native (.update i v)) [.onSuccess (.programNext i)])
  | updating (v : Value κ) : Listening i (.binding (.update i v) [.onSuccess (.programNext i)])
  | updated (v : Value κ) : Listening i (.task (.succeed v) [.onSuccess (.programNext i)])
  | goesOn (v : Value κ) : Listening i (.call (.programNext i) v [])

/-- What a main process may find: its bindings are completed with successes. -/
def Deed.Favours (e : Deed κ) : Prop :=
  ∀ t, e = .completed t → ∃ v, t = .succeed v

/-- Whether a deed begins no binding but an update cycle. -/
def Deed.Domestic (i : ProgramId) (e : Deed κ) : Prop :=
  ∀ mv g, e = .moved mv → mv.task = .native g → ∃ v, g = .update i v

/-- The message whose update cycle a transition begins. -/
def Move.begun? (i : ProgramId) : Move κ → Option (Value κ)
  | ⟨.native (.update j v), _⟩ => if j = i then some v else none
  | _ => none

/-- The messages whose update cycles a process has begun. -/
def Deeds.begun (i : ProgramId) (ds : Deeds κ) : List (Value κ) :=
  ds.moves.filterMap (Move.begun? i)

/-- The message that a main process has taken, and whose update cycle it is about to begin. -/
def Doing.pending? : Doing κ → Option (Value κ)
  | .call (.programTurn _) v _ => some v
  | .task (.andThen (.native (.update _ v)) _) _ => some v
  | .task (.native (.update _ v)) _ => some v
  | _ => none

namespace Listening

variable {i : ProgramId} {d d' : Doing κ} {e : Deed κ}

/-- A main process goes on with its loop, and begins no bindings but update cycles. -/
theorem does (h : Listening i d) (does : d.Does b e d') (favours : e.Favours) :
    Listening i d' ∧ e.Domestic i := by
  -- The loop has a place for each deed; a deed of another kind is not made there.
  cases h with
  | waits =>
    obtain ⟨v, rfl, rfl⟩ := does.of_receive
    exact ⟨.takes v, fun mv g hm hg => by cases hm; cases hg⟩
  | takes v =>
    obtain ⟨t, brings, rfl, rfl⟩ := does.of_call
    obtain rfl := Procedure.Brings.of_ret brings
    exact ⟨.turns v, nofun⟩
  | turns v =>
    obtain ⟨rfl, rfl⟩ := does.of_pushes (.andThen _ _)
    exact ⟨.begins v, fun mv g hm hg => by cases hm; cases hg⟩
  | begins v =>
    obtain ⟨rfl, rfl⟩ := does.of_native
    exact ⟨.updating v, fun mv g hm hg => by cases hm; cases hg; exact ⟨v, rfl⟩⟩
  | updating v =>
    cases does with
    | completed _ t =>
      obtain ⟨w, rfl⟩ := favours t rfl
      exact ⟨.updated w, nofun⟩
  | updated v =>
    have does : Doing.Does b (.task (.ofResult (.ok v)) [.onSuccess (.programNext i)]) e d' := does
    obtain ⟨rfl, rfl⟩ := does.of_next rfl
    exact ⟨.goesOn v, fun mv g hm hg => by cases hm; cases hg⟩
  | goesOn v =>
    obtain ⟨t, brings, rfl, rfl⟩ := does.of_call
    obtain rfl := Procedure.Brings.of_ret brings
    exact ⟨.waits, nofun⟩

theorem runs {ds : Deeds κ} (h : Listening i d) (runs : d.Runs b ds d')
    (favours : ∀ e ∈ ds, e.Favours) : Listening i d' ∧ ∀ e ∈ ds, e.Domestic i := by
  induction runs with
  | refl => exact ⟨h, nofun⟩
  | snoc _ last ih =>
    obtain ⟨going, domestic⟩ := ih fun e he => favours e (List.mem_append_left _ he)
    obtain ⟨going', domestic'⟩ := going.does last
      (favours _ (List.mem_append_right _ (List.mem_singleton.2 rfl)))
    exact ⟨going', List.forall_mem_append.2 ⟨domestic, List.forall_mem_singleton.2 domestic'⟩⟩

theorem not_exited {o : Except (Value κ) (Value κ)} : ¬Listening i (.exited o : Doing κ) :=
  nofun

/-- A message that is taken is the next one whose update cycle is begun. -/
theorem pending (h : Listening i d) (does : d.Does b e d') (favours : e.Favours) :
    d.pending?.toList ++ (e.move?.bind Move.consumed?).toList =
      (e.move?.bind (Move.begun? i)).toList ++ d'.pending?.toList := by
  -- A message is pending from the deed that takes it to the one that begins its cycle, four
  -- places on.
  cases h with
  | waits =>
    obtain ⟨v, rfl, rfl⟩ := does.of_receive
    rfl
  | takes v =>
    obtain ⟨t, brings, rfl, rfl⟩ := does.of_call
    obtain rfl := Procedure.Brings.of_ret brings
    rfl
  | turns v =>
    obtain ⟨rfl, rfl⟩ := does.of_pushes (.andThen _ _)
    rfl
  | begins v =>
    obtain ⟨rfl, rfl⟩ := does.of_native
    show [v] = (if i = i then some v else none).toList ++ []
    rw [if_pos rfl]
    rfl
  | updating v =>
    cases does with
    | completed _ t =>
      obtain ⟨w, rfl⟩ := favours t rfl
      rfl
  | updated v =>
    have does : Doing.Does b (.task (.ofResult (.ok v)) [.onSuccess (.programNext i)]) e d' := does
    obtain ⟨rfl, rfl⟩ := does.of_next rfl
    rfl
  | goesOn v =>
    obtain ⟨t, brings, rfl, rfl⟩ := does.of_call
    obtain rfl := Procedure.Brings.of_ret brings
    rfl

/-- The messages that a main process has taken are those whose update cycles it has begun, but for one
whose cycle it is about to begin. -/
theorem consumed {ds : Deeds κ} (h : Listening i d) (runs : d.Runs b ds d')
    (favours : ∀ e ∈ ds, e.Favours) :
    d.pending?.toList ++ ds.consumed = ds.begun i ++ d'.pending?.toList := by
  induction runs with
  | refl => exact List.append_nil _
  | @snoc ds e d₁ d₂ runs last ih =>
    have before : ∀ e ∈ ds, e.Favours := fun e he => favours e (List.mem_append_left _ he)
    have step := (h.runs runs before).1.pending last
      (favours _ (List.mem_append_right _ (List.mem_singleton.2 rfl)))
    rw [Deeds.consumed, Deeds.read_snoc, Deeds.begun, Deeds.read_snoc, ← List.append_assoc]
    rw [show d.pending?.toList ++ ds.moves.filterMap Move.consumed? =
      ds.moves.filterMap (Move.begun? i) ++ d₁.pending?.toList from ih before, List.append_assoc, step,
      List.append_assoc]

end Listening

/-! ### Whose a ticket is -/

/-- A directive issues no tickets. -/
theorem Directive.mem_ticketsAfter {w : World κ σ} {d : Directive κ σ} {e : Ticket × Holder}
    (h : e ∈ d.ticketsAfter w) : e ∈ w.tickets := by
  cases d with
  | request r => cases r <;> first | exact h | exact List.mem_of_mem_erase h
  | settle => exact List.mem_of_mem_erase h
  | sleep => exact List.mem_of_mem_erase h
  | _ => exact h

/-- A ticket is issued when a binding is begun, to the one that the work of the binding says. -/
theorem Transition.of_ticket {m m' : Machine κ σ} {r : Record κ} (tr : Transition b m r m')
    {e : Ticket × Holder} (h : e ∈ m'.world.tickets) : e ∈ m.world.tickets ∨
      ∃ mv g, (e.1.pid, .moved mv) ∈ r ∧ mv.task = .native g ∧ g.holder = e.2 := by
  have beside : m'.world.stock = m.world.stock → e ∈ m.world.tickets := fun same =>
    (congrArg (e ∈ Stock.tickets ·) same).mp h
  -- All but a start and a directive leave what is beside the processes alone.
  cases tr with
  | code fr hd =>
    exact .inl (Directive.mem_ticketsAfter ((congrArg (e ∈ Stock.tickets ·) (Directive.stock hd)).mp h))
  | @started w w' s n k p x mv g budget hx can put task same =>
    have tickets : w'.tickets = (⟨p, x.binding + 1⟩, g.holder) :: w.tickets :=
      congrArg Surroundings.tickets same
    rcases List.mem_cons.1 (tickets ▸ h) with rfl | h
    · exact .inr ⟨mv, g, List.mem_singleton.2 rfl, task, rfl⟩
    · exact .inl h
  | broken agree like cause =>
    refine .inl (beside ?_)
    rcases cause.world with rfl | ⟨t, due⟩
    · rfl
    · exact due.stock
  | picked budget hd => exact .inl (beside (stock_of_surroundings (surroundings_dequeue hd)))
  | skipped budget hd => exact .inl (beside (stock_of_surroundings (surroundings_dequeue hd)))
  | @ended w s n k =>
    exact .inl ((congrArg (e ∈ Stock.tickets ·) (stock_endTick w n k)).mp h)
  | preempted => exact .inl (beside (stock_of_surroundings (surroundings_enqueue _ _)))
  | parked budget stuck agree same => exact .inl (beside (stock_of_surroundings same))
  | pushed budget hx can put root same => exact .inl (beside (stock_of_surroundings same))
  | entered budget hx can put root hc same => exact .inl (beside (stock_of_surroundings same))
  | exited budget hx can put root hr event same => exact .inl (beside (stock_of_surroundings same))
  | returned hx alive put same => exact .inl (beside (stock_of_surroundings same))
  | thunk agree cause =>
    refine .inl (beside ?_)
    rcases cause with ⟨ts, -, rfl⟩ | due
    · rfl
    · exact due.stock
  | woken op cause =>
    obtain ⟨t, w₁, due, hw, -⟩ := cause
    exact .inl (beside ((stock_wake hw).trans due.stock))
  | driven agree clock =>
    refine .inl (beside ?_)
    rcases clock with rfl | ⟨limit, rfl⟩ <;> rfl
  | _ => exact .inl h

/-- Every ticket belongs to the one that the work of its binding says. -/
def World.Backed (w : World κ σ) (r : Record κ) : Prop :=
  ∀ e ∈ w.tickets, ∃ mv g, Deed.moved mv ∈ r.of e.1.pid ∧ mv.task = .native g ∧ g.holder = e.2

theorem History.backed {m : Machine κ σ} {r : Record κ} (h : History b m r) : m.world.Backed r := by
  induction h with
  | new config user code => exact nofun
  | load code _ _ _ ih => exact ih
  | @step m r h ih =>
    intro e he
    rw [Record.of_append]
    rcases (Machine.transition b m).of_ticket he with old | ⟨mv, g, new, task, holder⟩
    · obtain ⟨mv, g, hm, task, holder⟩ := ih e old
      exact ⟨mv, g, List.mem_append_left _ hm, task, holder⟩
    · exact ⟨mv, g, List.mem_append_right _ (Record.mem_of.2 new), task, holder⟩

/-! ### Runs -/

/-- Code completes a binding as the runtime's own work, or with a ticket of the user. -/
theorem Directive.of_completed {w : World κ σ} {d : Directive κ σ} {p : Pid} {t : Task κ}
    (done : (p, .completed t) ∈ d.record w) :
    (∃ k, d = .settle ⟨p, k⟩ t) ∨ ∃ k, (⟨p, k⟩, Holder.user) ∈ w.tickets := by
  cases Directive.records done with
  | @completed ticket _ mine => exact .inr ⟨ticket.binding, mine⟩
  | @settled ticket => exact .inl ⟨ticket.binding, rfl⟩

/-- A task that completes a binding comes from the runtime's own work, from the user, who has the ticket
then, or from a timer. -/
theorem Transition.of_completed {m m' : Machine κ σ} {r : Record κ} (tr : Transition b m r m') {p : Pid}
    {t : Task κ} (done : (p, .completed t) ∈ r) :
    (∃ k, m.directive? = some (.settle ⟨p, k⟩ t)) ∨ (∃ k, (⟨p, k⟩, Holder.user) ∈ m.world.tickets) ∨
      t = .succeed .unit ∧ ∃ key k, ⟨key, .wake ⟨p, k⟩⟩ ∈ m.world.host.timers := by
  cases tr with
  | code fr hd =>
    rcases Directive.of_completed done with ⟨k, rfl⟩ | held
    · exact .inl ⟨k, fr.directive?_fill _ _ _ _⟩
    · exact .inr (.inl held)
  | woken op cause =>
    obtain ⟨t', w₁, due, -, rfl⟩ := cause
    split at done
    · obtain ⟨rfl, same⟩ := Prod.mk.inj (eq_completed_of_mem_resumed done)
      obtain ⟨key, timer⟩ := due.mem
      exact .inr (.inr ⟨Deed.completed.inj same, key, t'.binding, timer⟩)
    · cases done
  | pushed => cases List.mem_singleton.1 done
  | entered => cases List.mem_singleton.1 done
  | started => cases List.mem_singleton.1 done
  | exited => cases List.mem_singleton.1 done
  | returned => cases List.mem_singleton.1 done
  | _ => cases done

/-- What does not come from the user is a success. -/
theorem Reachable.of_completed {m : Machine κ σ} (h : Reachable b m) {p : Pid} {t : Task κ}
    (done : (p, .completed t) ∈ m.record) :
    (∃ v, t = .succeed v) ∨ ∃ k, (⟨p, k⟩, Holder.user) ∈ m.world.tickets := by
  rcases (Machine.transition b m).of_completed done with ⟨k, top⟩ | held | ⟨rfl, -⟩
  · exact .inl (h.settles top)
  · exact .inr held
  · exact .inl ⟨.unit, rfl⟩

/-- A main process begins no bindings but update cycles, as long as what it awaits comes to a success. -/
theorem History.domestic_of_favours {m : Machine κ σ} {r : Record κ} (h : History b m r) {p : Pid}
    {i : ProgramId} (main : ∀ t, .spawned t ∈ r.of p → t = Program.listen i)
    (favours : ∀ e ∈ r.of p, e.Favours) : ∀ e ∈ (r.of p).acts, e.Domestic i := by
  have life := h.life p
  generalize m.world.bare p = x at life
  obtain ⟨fresh, there⟩ := life.interpreted (h.returns p).1
  cases x with
  | none =>
    rw [fresh rfl]
    exact nofun
  | some x =>
    obtain ⟨t, d, interpreted⟩ := there x rfl
    obtain rfl := main t interpreted.started
    exact (Listening.waits.runs interpreted.runs fun e he => favours e (List.mem_filter.1 he).1).2

/-- The deeds of a main process are those of its loop: what it awaits comes to a success, as nobody else
has a ticket for it. -/
theorem History.favours {m : Machine κ σ} {r : Record κ} (h : History b m r) {p : Pid}
    {i : ProgramId} (main : ∀ t, .spawned t ∈ r.of p → t = Program.listen i) :
    ∀ e ∈ r.of p, e.Favours := by
  induction h with
  | new config user code => exact nofun
  | load code _ _ _ ih => exact ih main
  | @step m r h ih =>
    rw [Record.of_append] at main ⊢
    have main : ∀ t, .spawned t ∈ r.of p → t = Program.listen i :=
      fun t ht => main t (List.mem_append_left _ ht)
    have before := ih main
    refine List.forall_mem_append.2 ⟨before, fun e he t ht => ?_⟩
    subst ht
    rcases h.reachable.of_completed (Record.mem_of.1 he) with success | ⟨k, held⟩
    · exact success
    -- All bindings that the process has begun are update cycles, so the user has no ticket.
    obtain ⟨mv, g, hm, task, holder⟩ := h.backed _ held
    obtain ⟨v, rfl⟩ := h.domestic_of_favours main before _ (List.mem_filter.2 ⟨hm, rfl⟩) mv g rfl task
    cases holder

/-- A main process begins no bindings but update cycles. -/
theorem History.domestic {m : Machine κ σ} {r : Record κ} (h : History b m r) {p : Pid}
    {i : ProgramId} (main : ∀ t, .spawned t ∈ r.of p → t = Program.listen i) {mv : Move κ} {g : Binding κ}
    (moved : .moved mv ∈ r.of p) (task : mv.task = .native g) : ∃ v, g = .update i v :=
  h.domestic_of_favours main (h.favours main) _ (List.mem_filter.2 ⟨moved, rfl⟩) mv g rfl task

/-- What a main process is doing is a situation of its loop. -/
theorem History.listening {m : Machine κ σ} {r : Record κ} (h : History b m r) {p : Pid} {i : ProgramId}
    (started : .spawned (Program.listen i) ∈ r.of p) :
    ∃ x d, m.world.procs.get? p = some x ∧ (r.of p).Interpreted b x.bare (Program.listen i) d ∧
      Listening i d := by
  obtain ⟨fresh, unique⟩ := (h.life p).spawned_unique
  obtain ⟨x, d, hx, interpreted⟩ := h.interpreted started
  have favours := h.favours fun t ht => unique t _ ht started
  exact ⟨x, d, hx, interpreted, (Listening.waits.runs interpreted.runs fun e he =>
    favours e (List.mem_filter.1 he).1).1⟩

/-- A main process is alive until it is killed. -/
theorem History.listens {m : Machine κ σ} {r : Record κ} (h : History b m r) {p : Pid}
    {i : ProgramId} (started : .spawned (Program.listen i) ∈ r.of p) (spared : .killed ∉ r.of p) :
    m.world.procs.isAlive p = true := by
  obtain ⟨x, d, hx, interpreted, listening⟩ := h.listening started
  rw [isAlive_of_get? hx, Bool.not_eq_true']
  refine Bool.eq_false_iff.2 fun dead => ?_
  rcases interpreted.dead (Root.bare_eq_dead.2 (Proc.isDead_iff.1 dead)) with killed | ⟨o, rfl⟩
  · exact spared killed
  · exact listening.not_exited

end Actors
