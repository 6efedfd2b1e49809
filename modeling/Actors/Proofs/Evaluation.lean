/-
Stepping agrees with evaluation.

A task without messages and bindings can be evaluated by a recursion over its construction: the
second part of a sequence runs on a success of the first, a handler runs on a failure. A process
consumes such a task one constructor at a time, keeps what is to be done with its outcome on a
stack, and may be interrupted at any point. It comes to the same outcome, by the same calls in the
same order.

* `Built` — tasks built from successes, failures, sequences and handlers, with pure continuations;
* `Built.eval`, `Built.size` — the evaluator, and the number of transitions it stands for;
* `Built.exits` — the run of such a task on its own;
* `History.evaluates` — the process that runs the task, in any run.
-/
import Actors.Proofs.Independence

namespace Actors

open Activity

variable {κ σ : Type} {b : Behaviour κ σ} {f : Callback κ → Value κ → Task κ}

/-- How a task is built from successes, failures, sequences and handlers. Its continuations are
pure, and return tasks that are built in the same way: `f` gives what they return. -/
inductive Built (b : Behaviour κ σ) (f : Callback κ → Value κ → Task κ) : Task κ → Type where
  | succeed (v : Value κ) : Built b f (.succeed v)
  | fail (v : Value κ) : Built b f (.fail v)
  | andThen {t : Task κ} {c : Callback κ} (first : Built b f t)
      (pure : ∀ v, Yields b (f c v) (c.run b v)) (next : ∀ v, Built b f (f c v)) :
      Built b f (.andThen t c)
  | onError {t : Task κ} {c : Callback κ} (first : Built b f t)
      (pure : ∀ v, Yields b (f c v) (c.run b v)) (next : ∀ v, Built b f (f c v)) :
      Built b f (.onError t c)

namespace Built

/-- The outcome of a task, and the calls of continuations that lead to it. -/
def eval {t : Task κ} : Built b f t → Except (Value κ) (Value κ) × List (Callback κ × Value κ)
  | succeed v => (.ok v, [])
  | fail v => (.error v, [])
  | @andThen _ _ _ _ _ c first _ next =>
    match first.eval with
    | (.ok v, calls) => ((next v).eval.1, calls ++ (c, v) :: (next v).eval.2)
    | (.error v, calls) => (.error v, calls)
  | @onError _ _ _ _ _ c first _ next =>
    match first.eval with
    | (.ok v, calls) => (.ok v, calls)
    | (.error v, calls) => ((next v).eval.1, calls ++ (c, v) :: (next v).eval.2)

/-- The number of transitions from a task to its outcome. -/
def size {t : Task κ} : Built b f t → Nat
  | succeed _ => 0
  | fail _ => 0
  | andThen first _ next =>
    match first.eval.1 with
    | .ok v => first.size + (next v).size + 2
    | .error _ => first.size + 1
  | onError first _ next =>
    match first.eval.1 with
    | .ok _ => first.size + 1
    | .error v => first.size + (next v).size + 2

end Built

/-! ### From a task to its outcome -/

namespace Solo

variable {x : Proc κ} {o : Except (Value κ) (Value κ)}

theorem step_push {u t : Task κ} {h : Handler κ} (pushes : Pushes u t h)
    (root : x.root = .ready u) (replies : List (Task κ)) : step f ⟨x, replies⟩ =
      some (some ⟨u, none⟩, ⟨{ x with root := .ready t, stack := h :: x.stack }, replies⟩) := by
  rw [step, Proc.move?_of_pushes pushes root]
  simp only [Proc.moved_of_pushes pushes, Proc.settle]

theorem step_enter {c : Callback κ} {s : List (Handler κ)} (root : x.root = .ready (.ofResult o))
    (next : Handler.next o x.stack = some (c, s)) (replies : List (Task κ)) :
    step f ⟨x, replies⟩ = some (some ⟨.ofResult o, some (c, passed o)⟩,
      ⟨{ x with root := .ready (f c (passed o)), stack := s }, replies⟩) := by
  rw [step, Proc.move?_of_outcome root]
  simp only [Proc.moved_of_outcome, next, Option.map_some]
  rfl

theorem step_exit (root : x.root = .ready (.ofResult o)) (next : Handler.next o x.stack = none)
    (replies : List (Task κ)) :
    step f ⟨x, replies⟩ = some (some ⟨.ofResult o, none⟩, ⟨x.killed, replies⟩) := by
  rw [step, Proc.move?_of_outcome root]
  simp only [Proc.moved_of_outcome, next, Option.map_none]
  rfl

theorem step_of_dead {s : Solo κ} (h : s.proc.root = .dead) : s.step f = none := by
  rw [step, Proc.move?, h]

end Solo

theorem Pushes.outcome?_eq_none {u t : Task κ} {h : Handler κ} (pushes : Pushes u t h) :
    Move.outcome? ⟨u, none⟩ = none := by
  cases pushes <;> rfl

/-- On its own, and on top of any stack, a process comes from a task to an outcome by some calls and
some number of transitions. It may leave handlers on the stack that the outcome goes past. -/
def Comes (f : Callback κ → Value κ → Task κ) (t : Task κ) (o : Except (Value κ) (Value κ))
    (calls : List (Callback κ × Value κ)) (n : Nat) : Prop :=
  ∀ (y : Proc κ) (replies : List (Task κ)), y.root = .ready t → ∃ ms skipped,
    Goes f ⟨y, replies⟩ ms
      ⟨{ y with root := .ready (Task.ofResult o), stack := skipped ++ y.stack }, replies⟩ ∧
    (∀ s, Handler.next o (skipped ++ s) = Handler.next o s) ∧
    ms.filterMap Move.entered = calls ∧ ms.length = n ∧ ms.findSome? Move.outcome? = none

namespace Comes

variable {u t : Task κ} {h : Handler κ} {c : Callback κ} {o o' : Except (Value κ) (Value κ)}
  {calls calls' : List (Callback κ × Value κ)} {n n' : Nat}

/-- A success or a failure is its own outcome. -/
theorem outcome (o : Except (Value κ) (Value κ)) : Comes f (Task.ofResult o) o [] 0 := by
  intro y replies hy
  refine ⟨[], [], ?_, fun _ => rfl, rfl, rfl, rfl⟩
  have same :
      ({ y with root := .ready (Task.ofResult o), stack := [] ++ y.stack } : Proc κ) = y := by
    rw [← hy, List.nil_append]
  rw [same]
  exact .refl

/-- The outcome goes past the handler that has been put on the stack. -/
theorem pass (hp : Pushes u t h) (ht : Comes f t o calls n)
    (skip : ∀ s, Handler.next o (h :: s) = Handler.next o s) : Comes f u o calls (n + 1) := by
  intro y replies hy
  obtain ⟨ms, skipped, goes, past, entered, length, quiet⟩ :=
    ht { y with root := .ready t, stack := h :: y.stack } replies rfl
  refine ⟨⟨u, none⟩ :: ms, skipped ++ [h], ?_, fun s => ?_, ?_, ?_, ?_⟩
  · have all := (Goes.one (Solo.step_push hp hy replies)).trans goes
    rw [List.append_assoc]
    exact all
  · rw [List.append_assoc, past]
    exact skip s
  · exact entered
  · rw [List.length_cons, length]
  · rw [List.findSome?_cons, hp.outcome?_eq_none]
    exact quiet

/-- The outcome goes to the handler that has been put on the stack. -/
theorem enter (hp : Pushes u t h) (ht : Comes f t o calls n)
    (wants : ∀ s, Handler.next o (h :: s) = some (c, s))
    (hk : Comes f (f c (passed o)) o' calls' n') :
    Comes f u o' (calls ++ (c, passed o) :: calls') (n + n' + 2) := by
  intro y replies hy
  obtain ⟨ms, skipped, goes, past, entered, length, quiet⟩ :=
    ht { y with root := .ready t, stack := h :: y.stack } replies rfl
  obtain ⟨ks, skipped', goes', past', entered', length', quiet'⟩ :=
    hk { y with root := .ready (f c (passed o)) } replies rfl
  -- The transition in between enters the continuation.
  have next : Handler.next o (skipped ++ h :: y.stack) = some (c, y.stack) := by
    rw [past, wants]
  have step := Goes.one (Solo.step_enter (f := f)
    (x := { y with root := .ready (.ofResult o), stack := skipped ++ h :: y.stack }) rfl next replies)
  refine ⟨⟨u, none⟩ :: ms ++ ⟨Task.ofResult o, some (c, passed o)⟩ :: ks, skipped', ?_, past', ?_,
    ?_, ?_⟩
  · have before := (Goes.one (Solo.step_push hp hy replies)).trans goes
    exact before.trans (step.trans goes')
  · rw [List.cons_append, List.filterMap_cons_none rfl, List.filterMap_append, entered]
    show calls ++ (c, passed o) :: ks.filterMap Move.entered = _
    rw [entered']
  · rw [List.length_append, List.length_cons, List.length_cons, length, length']
    omega
  · have silent : Move.outcome? ⟨Task.ofResult o, some (c, passed o)⟩ = none := by cases o <;> rfl
    rw [List.cons_append, List.findSome?_cons, hp.outcome?_eq_none, List.findSome?_append, quiet,
      List.findSome?_cons, silent]
    exact quiet'

end Comes

theorem Built.comes {t : Task κ} (built : Built b f t) :
    Comes f t built.eval.1 built.eval.2 built.size := by
  -- By recursion over the construction, as the evaluator. What the first part comes to decides
  -- whether its outcome meets the handler or goes past it.
  induction built with
  | succeed v => exact Comes.outcome (.ok v)
  | fail v => exact Comes.outcome (.error v)
  | @andThen t c first pure next ih ihk =>
    rw [eval, size]
    cases he : first.eval with
    | mk o calls =>
      rw [he] at ih
      cases o with
      | ok v => exact ih.enter (.andThen t c) (fun _ => rfl) (ihk v)
      | error v => exact ih.pass (.andThen t c) fun _ => rfl
  | @onError t c first pure next ih ihk =>
    rw [eval, size]
    cases he : first.eval with
    | mk o calls =>
      rw [he] at ih
      cases o with
      | ok v => exact ih.pass (.onError t c) fun _ => rfl
      | error v => exact ih.enter (.onError t c) (fun _ => rfl) (ihk v)

/-- The run of a task on its own, up to the exit of the process. -/
theorem Built.exits {t : Task κ} (built : Built b f t) (inbox : List (Value κ))
    (replies : List (Task κ)) : ∃ ms z, Goes f (.start t inbox replies) ms z ∧ z.proc.root = .dead ∧
      ms.filterMap Move.entered = built.eval.2 ∧ ms.length = built.size + 1 ∧
      ms.findSome? Move.outcome? = some built.eval.1 := by
  obtain ⟨ms, skipped, goes, past, entered, length, quiet⟩ := built.comes _ replies
    (show ({ Proc.start none t with mailbox := inbox } : Proc κ).root = .ready t from rfl)
  generalize built.eval.1 = o at goes past ⊢
  have next : Handler.next o (skipped ++ []) = none := by
    rw [past]
    cases o <;> rfl
  have ends : Move.outcome? ⟨Task.ofResult o, none⟩ = some o := by cases o <;> rfl
  have all : Goes f (.start t inbox replies) (ms ++ [⟨Task.ofResult o, none⟩]) _ :=
    goes.snoc (Solo.step_exit rfl next replies)
  refine ⟨_, _, all, rfl, ?_, ?_, ?_⟩
  · rw [List.filterMap_append, entered, List.filterMap_cons_none rfl, List.filterMap_nil,
      List.append_nil]
  · rw [List.length_append, List.length_singleton, length]
  · rw [List.findSome?_append, quiet, Option.none_or, List.findSome?_cons, ends]

/-- A run of such a task on its own goes on until the process exits. -/
theorem Built.goes_on {t : Task κ} (built : Built b f t) {inbox : List (Value κ)}
    {replies : List (Task κ)} {ms : List (Move κ)} {s : Solo κ}
    (goes : Goes f (.start t inbox replies) ms s) : ∃ ls z, Goes f s ls z ∧ z.proc.root = .dead ∧
      (ms ++ ls).filterMap Move.entered = built.eval.2 ∧ ms.length + ls.length = built.size + 1 ∧
      (ms ++ ls).findSome? Move.outcome? = some built.eval.1 := by
  obtain ⟨ks, z, exits, dead, entered, length, outcome⟩ := built.exits inbox replies
  rcases goes.comparable exits with ⟨ls, rfl, rest⟩ | ⟨ls, rfl, after⟩
  · rw [List.length_append] at length
    exact ⟨ls, z, rest, dead, entered, length, outcome⟩
  · -- The process can do nothing after its exit.
    obtain ⟨rfl, rfl⟩ := after.eq_of_stuck (Solo.step_of_dead dead)
    refine ⟨[], s, .refl, dead, ?_, ?_, ?_⟩
    · rw [List.append_nil, List.append_nil, entered]
    · rw [List.append_nil, List.length_nil, length]
    · rw [List.append_nil, List.append_nil, outcome]

/-! ### Every continuation once -/

/-- A transition enters a continuation of the stack, which is not there any more, or one that it has
been offered. -/
theorem Proc.Moves.once {x y : Proc κ} {mv : Move κ} (h : x.Moves mv y) (q : Callback κ → Bool) :
    (mv.entered.map Prod.fst).toList.countP q + y.stack.countP (q ∘ Handler.callback) ≤
      x.stack.countP (q ∘ Handler.callback) + mv.offered?.toList.countP q := by
  cases h with
  | outcome o =>
    rw [Option.map_map]
    refine Nat.le_trans ?_ (Nat.le_add_right _ _)
    cases hn : Handler.next o x.stack with
    | none => exact Nat.zero_le _
    | some e =>
      -- The handler is not on the stack any more.
      obtain ⟨g, hg, sub⟩ := Handler.sublist_of_next hn
      have fewer := sub.countP_le (p := q ∘ Handler.callback)
      rw [List.countP_cons, Function.comp, hg] at fewer
      show [e.1].countP q + e.2.countP (q ∘ Handler.callback) ≤ _
      rw [List.countP_singleton, Nat.add_comm]
      exact fewer
  | @push u t h pushes =>
    have offered : Move.offered? ⟨u, none⟩ = some h.callback := by cases pushes <;> rfl
    refine Nat.le_of_eq ?_
    show 0 + (h :: x.stack).countP (q ∘ Handler.callback) = _
    rw [offered, Option.toList_some, List.countP_cons, List.countP_singleton, Function.comp,
      Nat.zero_add]
  | receive c mail => exact Nat.le_of_eq (Nat.add_comm _ _)
  | native g => exact Nat.le_of_eq (Nat.add_comm _ _)

/-- The stack of a process, if there is one. -/
def stackOf (o : Option (Proc κ)) : List (Handler κ) :=
  (o.map Proc.stack).getD []

/-- In any life, continuations are entered at most as often as they are offered. -/
theorem Life.once {ds : Deeds κ} {o : Option (Proc κ)} (l : Life none ds o)
    (q : Callback κ → Bool) :
    (ds.entered.map Prod.fst).countP q + (stackOf o).countP (q ∘ Handler.callback) ≤
      ds.offered.countP q := by
  induction l with
  | refl => exact Nat.le_refl 0
  | @snoc o₁ o₂ ds d l hd ih =>
    rw [Deeds.entered_snoc, Deeds.offered_snoc, List.map_append, List.countP_append,
      List.countP_append]
    -- Only a transition enters or is offered anything; of the others a kill empties the stack.
    cases hd with
    | @moved x mv can =>
      have once := (Proc.moves can).once q
      have ih : _ + x.stack.countP (q ∘ Handler.callback) ≤ _ := ih
      show _ + (mv.entered.toList.map Prod.fst).countP q +
        (x.moved mv.task).stack.countP (q ∘ Handler.callback) ≤ _ + mv.offered?.toList.countP q
      rw [← Option.toList_map]
      omega
    | killed alive => exact Nat.le_trans (Nat.le_add_right _ _) ih
    | spawned t => exact ih
    | sent v alive => exact ih
    | dropped v dead => exact ih
    | completed t awaiting => exact ih
    | returned t stepping => exact ih

/-! ### The process that runs a task -/

/-- A process that runs a task that is built, in the middle of a run: it agrees with what the task
evaluates to. -/
structure Refines {t : Task κ} (built : Built b f t) (m : Machine κ σ) (ds : Deeds κ) (p : Pid)
    (x : Proc κ) : Prop where
  /-- Once the process has exited, its outcome and its calls are those of the evaluation. -/
  outcome : x.isDead = true → ds.outcome? = some built.eval.1 ∧ ds.entered = built.eval.2
  /-- Until then, the calls are the first ones of the evaluation. -/
  calls : ds.entered <+: built.eval.2
  /-- No continuation is called more often than it has been put on the stack. -/
  once : ∀ q : Callback κ → Bool, (ds.entered.map Prod.fst).countP q ≤ ds.offered.countP q
  /-- The process exits by a certain transition, and makes no further one. -/
  bounded : ds.moves.length ≤ built.size + 1
  exits : x.isDead = true ↔ ds.moves.length = built.size + 1
  /-- Until then, it is never blocked: it stands in the work queue, or has its turn, or one of its
  continuations runs. -/
  runnable : x.isDead = false →
    x.move? ≠ none ∧ (p ∈ m.world.queue ∨ p ∈ turningOf m.stack) ∨ p ∈ callingOf m.stack
  idle : m.world.isIdle = true → x.isDead = true

/-- The tasks that are built, with their continuations, are not left by a process. -/
theorem Built.pureOn : PureOn b f (fun t => Nonempty (Built b f t))
    (fun c => (∀ v, Yields b (f c v) (c.run b v)) ∧ ∀ v, Nonempty (Built b f (f c v))) where
  andThen := by
    rintro t c ⟨built⟩
    cases built with
    | andThen first pure next => exact ⟨⟨first⟩, pure, fun v => ⟨next v⟩⟩
  onError := by
    rintro t c ⟨built⟩
    cases built with
    | onError first pure next => exact ⟨⟨first⟩, pure, fun v => ⟨next v⟩⟩
  receive := by
    rintro c ⟨built⟩
    cases built
  returns := fun c v h => h.2 v
  yields := fun c v h => h.1 v

/-- Only a process that awaits a binding goes on without a transition. -/
theorem Solo.awaiting_of_silent {s s' : Solo κ} (h : s.step f = some (none, s')) :
    ∃ n c, s.proc.root = .awaiting n c := by
  unfold step at h
  split at h
  · cases h
  · split at h
    · next n c t ts hr _ => exact ⟨n, c, hr⟩
    · cases h

/-- A process that can do something and has not exited does so when it is left on its own. -/
theorem Goes.ne_nil_of_alive {s z : Solo κ} {ls : List (Move κ)} (h : Goes f s ls z)
    (hz : z.proc.root = .dead) (alive : s.proc.root ≠ .dead)
    (awaiting : ∀ n c, s.proc.root ≠ .awaiting n c) : ls ≠ [] := by
  rintro rfl
  rcases h.head with ⟨rfl, -⟩ | ⟨o, s₁, ks, hs, hnil, -⟩
  · exact alive hz
  · cases o with
    | some mv => cases hnil
    | none =>
      obtain ⟨n, c, hr⟩ := Solo.awaiting_of_silent hs
      exact awaiting n c hr

theorem Root.ahead_eq_dead {call : Option (Callback κ × Value κ)} {r : Root κ}
    (h : r.ahead f call = .dead) : r = .dead := by
  cases r with
  | stepping => cases call <;> cases h
  | dead => rfl
  | _ => cases h

theorem Root.ahead_eq_awaiting {call : Option (Callback κ × Value κ)} {r : Root κ} {n : Nat}
    {c : Option (Cancel κ)} (h : r.ahead f call = .awaiting n c) : r = .awaiting n c := by
  cases r with
  | stepping => cases call <;> cases h
  | awaiting => exact h
  | _ => cases h

/-- A process that runs a task that is built, and is alive, has a transition to make, or a
continuation of it runs. -/
theorem Built.runnable {x : Proc κ}
    (within : x.bare.Within (fun t => Nonempty (Built b f t)) fun _ => True)
    (alive : x.isDead = false) : x.move? ≠ none ∨ x.root = .stepping := by
  cases hr : x.root with
  | ready t =>
    left
    intro hm
    obtain ⟨c, rfl, -⟩ := Proc.move?_eq_none hm hr
    obtain ⟨⟨⟩⟩ := within.root (.receive c) (by rw [Proc.bare_root, hr]; rfl)
  | stepping => exact .inr rfl
  | awaiting n c =>
    obtain ⟨g, ⟨⟨⟩⟩⟩ := within.awaiting n none (by rw [Proc.bare_root, hr]; rfl)
  | dead =>
    rw [Proc.isDead_iff.2 hr] at alive
    cases alive

/-- Stepping refines evaluation. A process runs a task that is built from successes, failures,
sequences and handlers with pure continuations, and nobody kills it. Then, in every run, it has made
a part of the calls of the evaluation, in their order and with their values. It exits after a
certain number of its own transitions, with the outcome of the evaluation and all of its calls, and
is never blocked before. The calls are those that the machine runs, and the outcome is the one that
is written to the journal. In particular, a failure goes past a continuation for successes to the
handler. -/
theorem History.evaluates {m : Machine κ σ} {r : Record κ} (h : History b m r) {p : Pid}
    {t : Task κ} (built : Built b f t) (spawned : .spawned t ∈ r.of p)
    (spared : .killed ∉ r.of p) :
    (∃ x, m.world.procs.get? p = some x ∧ Refines built m (r.of p) p x) ∧
    (∀ mv c v, (p, .moved mv) ∈ m.record → mv.entered = some (c, v) →
      ∃ n k s, (m.step b).stack = .tick n k (.callback p (.run (c.run b v))) :: s) ∧
    (∀ mv o, (p, .moved mv) ∈ m.record → mv.outcome? = some o →
      ∃ label, (m.step b).world.journal.head?.map Entry.event = some (.ended p label o)) ∧
    (∀ e c d, t = .onError (.andThen (.fail e) c) d → ∃ rest : Built b f (f d e),
      built.eval = (rest.eval.1, (d, e) :: rest.eval.2)) := by
  refine ⟨?_, fun mv c v => Machine.step_of_entered, fun mv o => Machine.event_of_outcome, ?_⟩
  · -- The process has made a part of its run on its own, and `ls` are the transitions left to it.
    obtain ⟨x, hx, within, goes⟩ := h.goes Built.pureOn ⟨built⟩ spawned spared (by
      rintro ⟨g, ⟨native⟩⟩
      cases native)
    have life : Life none (r.of p) (m.world.bare p) := h.life p
    have sound : m.world.SoundWith m.stack := h.reachable.sound
    obtain ⟨ls, z, left, dead, entered, total, outcome⟩ := built.goes_on (goes [] [])
    have all : x.isDead = true → ls = [] := by
      intro hd
      have root : x.bare.root = .dead := by rw [← Proc.isDead_iff, Proc.isDead_bare, hd]
      rw [Proc.ahead_of_dead root] at left
      exact (left.eq_of_stuck (Solo.step_of_dead root)).2
    have more : x.isDead = false → ls ≠ [] := by
      intro alive
      refine left.ne_nil_of_alive dead (fun hr => ?_) fun n c hr => ?_
      · have root : x.bare.root = .dead := Root.ahead_eq_dead hr
        rw [← Proc.isDead_iff, Proc.isDead_bare, alive] at root
        cases root
      · obtain ⟨g, ⟨⟨⟩⟩⟩ := within.awaiting n c (Root.ahead_eq_awaiting hr)
    -- Who can make a transition is in the queue or has its turn, as no wakeup is lost.
    have runnable : x.isDead = false → x.move? ≠ none ∨ x.root = .stepping :=
      Built.runnable ⟨within.root, fun _ _ => trivial, within.awaiting⟩
    have proc := sound.proc p x hx
    refine ⟨x, hx, fun hd => ?_, ?_, fun q => ?_, by omega, ⟨fun hd => ?_, fun hl => ?_⟩,
      fun alive => ?_, fun idle => ?_⟩
    · rw [all hd, List.append_nil] at outcome entered
      exact ⟨outcome, entered⟩
    · rw [← entered, List.filterMap_append]
      exact List.prefix_append _ _
    · exact Nat.le_trans (Nat.le_add_right _ _) (life.once q)
    · rw [all hd] at total
      exact total
    · cases hd : x.isDead with
      | true => rfl
      | false => exact absurd (List.eq_nil_of_length_eq_zero (by omega)) (more hd)
    · exact (runnable alive).imp (fun hm => ⟨hm, proc.runnable hm⟩) proc.stepping
    · cases hd : x.isDead with
      | true => rfl
      | false =>
        have quiet : ticksOf m.stack = 0 := h.reachable.sound.ticksOf_eq_zero idle
        rcases runnable hd with hm | hs
        · exact absurd (h.reachable.sound.stuck_of_idle idle hx) hm
        · exact absurd hs (h.reachable.sound.not_stepping quiet hx)
  · rintro e c d rfl
    cases built with
    | onError first pure next =>
      refine ⟨next e, ?_⟩
      cases first with
      | andThen first' pure' next' =>
        cases first'
        rfl

/-- A failure that goes past the continuation for successes to the one for failures. -/
def failing : Task Bool :=
  .onError (.andThen (.fail (.int 7)) (.code false)) (.code true)

/-- What the two continuations return. -/
def repair (c : Bool) (v : Value Bool) : Task Bool :=
  .succeed (if c then .err v else .ok v)

/-- The task runs beside another process, and every turn has one step. -/
def rescue : Machine Bool Unit :=
  let code : Code Bool Unit Unit :=
    (Code.ask (.spawn failing)).bind fun _ =>
      (Code.ask (.spawn (.receive (.code false)))).bind fun _ =>
        (Code.ask (.drive .idle)).bind fun _ => .ret ()
  .load (.new { Config.standard with budget := .ofNat 1 } ()) (Procedure.ofCode code)

theorem rescue_evaluates :
    ((Machine.records (.ofCallbacks repair) 30 rescue).of ⟨1⟩).outcome? =
        some (.ok (.err (.int 7))) ∧
      ((Machine.records (.ofCallbacks repair) 30 rescue).of ⟨1⟩).entered =
        [(.code true, .int 7)] := by
  let f : Callback Bool → Value Bool → Task Bool
    | .code c, v => repair c v
    | _, v => .succeed v
  let built : Built (.ofCallbacks repair) f failing :=
    .onError (.andThen (.fail (.int 7)) (Yields.ofCallbacks repair false) fun v => .succeed (.ok v))
      (Yields.ofCallbacks repair true) fun v => .succeed (.err v)
  have start : History (.ofCallbacks repair) rescue [] := .new _ _ _
  have h : History _ _ (Machine.records (.ofCallbacks repair) 30 rescue) := start.run 30
  have deeds : (Machine.records (.ofCallbacks repair) 30 rescue).of ⟨1⟩ =
      [.spawned failing, .moved ⟨failing, none⟩,
        .moved ⟨.andThen (.fail (.int 7)) (.code false), none⟩,
        .moved ⟨.fail (.int 7), some (.code true, .int 7)⟩,
        .returned (.succeed (.err (.int 7))), .moved ⟨.succeed (.err (.int 7)), none⟩] := rfl
  have spawned : .spawned failing ∈ (Machine.records (.ofCallbacks repair) 30 rescue).of ⟨1⟩ := by
    rw [deeds]
    exact List.mem_cons_self
  have spared : .killed ∉ (Machine.records (.ofCallbacks repair) 30 rescue).of ⟨1⟩ := by
    rw [deeds]
    simp only [List.mem_cons, List.not_mem_nil, reduceCtorEq, or_self, not_false_eq_true]
  obtain ⟨⟨x, hx, refines⟩, -⟩ := h.evaluates built spawned spared
  exact refines.outcome (refines.idle rfl)

end Actors
