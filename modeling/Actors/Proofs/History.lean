/-
Runs, with what they do to the processes.

A history is a run together with its record. What the record says about one process is a life of
this process, from before its start to the state in which the run leaves it: whatever is under way,
however turns are cut and whoever acts on the process, it changes by its deeds only.

* `History` — runs with their records, and `Machine.records`, the record of a number of steps;
* `History.life` — the part of a record that concerns one process is a life;
* `Trail` — runs with the machines that they pass through.
-/
import Actors.Proofs.Wakeup

namespace Actors

variable {κ σ : Type} {b : Behaviour κ σ}

/-- A process as its life describes it. -/
def World.bare (w : World κ σ) (p : Pid) : Option (Proc κ) :=
  (w.procs.get? p).map Proc.bare

namespace World

variable {w w' : World κ σ} {p q : Pid} {x y : Proc κ}

theorem bare_of_get? (hx : w.procs.get? p = some x) : w.bare p = some x.bare := by
  rw [bare, hx, Option.map_some]

theorem Agree.bare (h : Agree w w') (q : Pid) : w'.bare q = w.bare q := by
  rw [World.bare, World.bare, h.get?]

theorem Put.bare_self (h : Put w w' p y) : w'.bare p = some y.bare :=
  bare_of_get? h.self

theorem Put.bare_other (h : Put w w' p y) (hq : q ≠ p) : w'.bare q = w.bare q := by
  rw [World.bare, World.bare, h.other hq]

/-- A change of the noted things only is no deed. -/
theorem Put.bare_same (h : Put w w' p y) (hx : w.procs.get? p = some x) (hy : y.bare = x.bare)
    (q : Pid) : w'.bare q = w.bare q :=
  h.map_get? hx hy q

theorem bare_enqueue (w : World κ σ) (p q : Pid) : (w.enqueue p).bare q = w.bare q :=
  map_get?_enqueue w p (fun _ => rfl) q

theorem bare_dequeue (h : w.dequeue = some (p, w')) (q : Pid) : w'.bare q = w.bare q :=
  map_get?_dequeue h (fun _ => rfl) q

end World

open World

namespace Life

theorem of_put {w w' : World κ σ} {p : Pid} {y : Proc κ} {d : Deed κ} (h : Put w w' p y)
    (hd : d.Leads (w.bare p) (some y.bare)) (q : Pid) :
    Life (w.bare q) (Record.of [(p, d)] q) (w'.bare q) := by
  rw [Record.of_singleton]
  split
  · next hq =>
    rw [← hq, h.bare_self]
    exact .one hd
  · next hq =>
    rw [h.bare_other (Ne.symm hq)]
    exact .refl _

theorem of_eq {o o' : Option (Proc κ)} (h : o' = o) (p : Pid) :
    Life o (Record.of ([] : Record κ) p) o' := by
  rw [h, Record.of_nil]
  exact .refl o

end Life

/-- What an operation of code does to a process is part of a life. -/
theorem Operation.life {w w' : World κ σ} {r : Record κ} (op : Operation w r w') (q : Pid) :
    Life (w.bare q) (r.of q) (w'.bare q) := by
  induction op with
  | quiet h => exact .of_eq (h.bare q) q
  | @dropped w w' p v dead h =>
    rw [h.bare, Record.of_singleton]
    split
    · next hq =>
      refine .one (.dropped v fun y hy => ?_)
      obtain ⟨x, hx, rfl⟩ := Option.map_eq_some_iff.1 hy
      rw [← hq] at hx
      rw [isAlive_of_get? hx, Bool.not_eq_false'] at dead
      rw [Proc.isDead_bare, dead]
    · exact .refl _
  | @sent w w' p x v hx alive h =>
    rw [bare_enqueue]
    refine .of_put h ?_ q
    rw [bare_of_get? hx]
    exact .sent v (by rw [Proc.isDead_bare, alive])
  | @spawned w w' p label t hx h =>
    rw [bare_enqueue]
    refine .of_put h ?_ q
    rw [World.bare, hx]
    exact .spawned t
  | @killed w w' p x hx alive h =>
    refine .of_put h ?_ q
    rw [bare_of_get? hx]
    exact .killed (by rw [Proc.isDead_bare, alive])
  | @completed w w' p x n c t hx awaiting h =>
    rw [bare_enqueue]
    refine .of_put h ?_ q
    rw [bare_of_get? hx]
    exact .completed (n := n) (c := none) t (by rw [Proc.bare_root, awaiting]; rfl)
  | @attached w w' p x n c c' hx awaiting h =>
    -- What calls a binding off is noted from outside.
    refine .of_eq (h.bare_same hx ?_ q) q
    rw [Proc.bare, Proc.bare, awaiting]
    rfl
  | seq _ _ ih ih' =>
    rw [Record.of_append]
    exact ih.trans ih'

theorem Life.of_move {w w' : World κ σ} {p : Pid} {x : Proc κ} {mv : Move κ}
    (hx : w.procs.get? p = some x) (can : x.move? = some mv) (h : Put w w' p (x.moved mv.task))
    (q : Pid) : Life (w.bare q) (Record.of [(p, .moved mv)] q) (w'.bare q) := by
  refine .of_put h ?_ q
  rw [bare_of_get? hx, Proc.bare_moved]
  exact .moved (by rw [Proc.move?_bare, can])

/-- What a step of a machine does to a process is part of a life. -/
theorem Transition.life {m m' : Machine κ σ} {r : Record κ} (tr : Transition b m r m')
    (sound : m.Sound) (q : Pid) : Life (m.world.bare q) (r.of q) (m'.world.bare q) := by
  -- A step of code or of a timer is an operation; in a tick only the four kinds of transition and
  -- the return of a continuation change a process.
  cases tr with
  | code fr hd => exact (Directive.operation hd).life q
  | broken h ha => exact .of_eq (h.bare q) q
  | picked budget hd alive => exact .of_eq (bare_dequeue hd q) q
  | skipped budget hd dead => exact .of_eq (bare_dequeue hd q) q
  | preempted budget => exact .of_eq (bare_enqueue _ _ q) q
  | parked budget stuck h => exact .of_eq (h.bare q) q
  | pushed budget hx can h root => exact .of_move hx can h q
  | entered budget hx can h root hc => exact .of_move hx can h q
  | started budget hx can h task => exact .of_move hx can h q
  | exited budget hx can h root hr event => exact .of_move hx can h q
  | @returned w w' s n k p x t hx alive h =>
    refine .of_put h ?_ q
    rw [bare_of_get? hx]
    have call : w.SoundWith (.tick n k (.callback p (.run (.ret t))) :: s) := sound
    -- As long as the process is alive it is still in the step that entered the continuation.
    have stepping : x.root = .stepping := call.stepping_of_callback hx alive
    exact .returned t (by rw [Proc.bare_root, stepping]; rfl)
  | ended hq =>
    refine .of_eq ?_ q
    simp only [endTick]
    split <;> rfl
  | thunk h => exact .of_eq (h.bare q) q
  | woken op => exact op.life q
  | driven h => exact .of_eq (h.bare q) q
  | _ => exact .of_eq rfl q

/-! ### Histories -/

/-- Runs, each with its record. -/
inductive History (b : Behaviour κ σ) : Machine κ σ → Record κ → Prop where
  | new (config : Config) (user : σ) (code : Code κ σ Unit) :
      History b (.load (.new config user) (Procedure.ofCode code)) []
  | step {m : Machine κ σ} {r : Record κ} :
      History b m r → History b (m.step b) (r ++ m.record)
  | load {m : Machine κ σ} {r : Record κ} (code : Code κ σ Unit) :
      History b m r → m.stack = [] → m.fault = none →
        History b (.load m.world (Procedure.ofCode code)) r

/-- The record of a number of steps. -/
def Machine.records (b : Behaviour κ σ) : Nat → Machine κ σ → Record κ
  | 0, _ => []
  | n + 1, m => m.record ++ records b n (m.step b)

theorem Reachable.history {m : Machine κ σ} (h : Reachable b m) : ∃ r, History b m r := by
  induction h with
  | new config user code => exact ⟨[], .new config user code⟩
  | step _ ih =>
    obtain ⟨r, hr⟩ := ih
    exact ⟨_, hr.step⟩
  | load code _ hs hf ih =>
    obtain ⟨r, hr⟩ := ih
    exact ⟨r, hr.load code hs hf⟩

namespace History

variable {m : Machine κ σ} {r : Record κ}

theorem reachable (h : History b m r) : Reachable b m := by
  induction h with
  | new config user code => exact .new config user code
  | step _ ih => exact ih.step
  | load code _ hs hf ih => exact ih.load code hs hf

theorem run (h : History b m r) (n : Nat) :
    History b (Machine.run b n m) (r ++ Machine.records b n m) := by
  induction n generalizing m r with
  | zero =>
    rw [Machine.records, List.append_nil]
    exact h
  | succ n ih =>
    rw [Machine.records, ← List.append_assoc]
    exact ih h.step

/-- What is done to one process in a run is a life of this process. -/
theorem life (h : History b m r) (p : Pid) : Life none (r.of p) (m.world.bare p) := by
  induction h with
  | new config user code =>
    refine .of_eq ?_ p
    show ((World.new config user).procs.get? p).map Proc.bare = none
    rw [get?_new, Option.map_none]
  | @step m r h ih =>
    rw [Record.of_append]
    exact ih.trans ((Machine.transition b m).life h.reachable.sound p)
  | load code _ hs hf ih => exact ih

end History

/-- A place in a list with one more entry is the last one, or a place in the list. -/
theorem snoc_eq_append_cons {α : Type} {l past during : List α} {a x : α}
    (h : l ++ [a] = past ++ x :: during) :
    (past = l ∧ x = a ∧ during = []) ∨ ∃ during', during = during' ++ [a] ∧ l = past ++ x :: during' := by
  rcases List.eq_nil_or_concat during with rfl | ⟨during, a', rfl⟩
  · obtain ⟨same, last⟩ := List.append_inj' h rfl
    exact .inl ⟨same.symm, (List.singleton_inj.1 last).symm, rfl⟩
  · have h : l ++ [a] = (past ++ x :: during) ++ [a'] := by simpa using h
    obtain ⟨same, last⟩ := List.append_inj' h rfl
    obtain rfl := List.singleton_inj.1 last
    exact .inr ⟨during, List.concat_eq_append, same⟩

/-- Runs, each with the machines that it has gone on from. -/
inductive Trail (b : Behaviour κ σ) : Machine κ σ → List (Machine κ σ) → Prop where
  | new (config : Config) (user : σ) (code : Code κ σ Unit) :
      Trail b (.load (.new config user) (Procedure.ofCode code)) []
  | step {m : Machine κ σ} {ms : List (Machine κ σ)} : Trail b m ms → Trail b (m.step b) (ms ++ [m])
  | load {m : Machine κ σ} {ms : List (Machine κ σ)} (code : Code κ σ Unit) :
      Trail b m ms → m.stack = [] → m.fault = none →
        Trail b (.load m.world (Procedure.ofCode code)) ms

theorem Reachable.trail {m : Machine κ σ} (h : Reachable b m) : ∃ ms, Trail b m ms := by
  induction h with
  | new config user code => exact ⟨[], .new config user code⟩
  | step _ ih =>
    obtain ⟨ms, hms⟩ := ih
    exact ⟨_, hms.step⟩
  | load code _ hs hf ih =>
    obtain ⟨ms, hms⟩ := ih
    exact ⟨ms, hms.load code hs hf⟩

/-- The machines that a number of steps go on from. -/
def Machine.passed (b : Behaviour κ σ) : Nat → Machine κ σ → List (Machine κ σ)
  | 0, _ => []
  | n + 1, m => m :: passed b n (m.step b)

namespace Trail

variable {m : Machine κ σ} {ms : List (Machine κ σ)}

theorem reachable (h : Trail b m ms) : Reachable b m := by
  induction h with
  | new config user code => exact .new config user code
  | step _ ih => exact ih.step
  | load code _ hs hf ih => exact ih.load code hs hf

/-- The machines that a run passes through are those that runs lead to. -/
theorem reachable_of_mem (h : Trail b m ms) {m' : Machine κ σ} (hm : m' ∈ ms) : Reachable b m' := by
  induction h with
  | new config user code => cases hm
  | step h ih =>
    rcases List.mem_append.1 hm with hm | hm
    · exact ih hm
    · rw [List.mem_singleton.1 hm]
      exact h.reachable
  | load code _ hs hf ih => exact ih hm

/-- The run until a machine that it passes through. -/
theorem past (h : Trail b m ms) {past during : List (Machine κ σ)} {m₁ : Machine κ σ}
    (split : ms = past ++ m₁ :: during) : Trail b m₁ past := by
  induction h generalizing during with
  | new config user code => cases past <;> cases split
  | load code _ _ _ ih => exact ih split
  | @step m ms h ih =>
    rcases snoc_eq_append_cons split with ⟨rfl, rfl, -⟩ | ⟨during, -, before⟩
    · exact h
    · exact ih before

/-- What has been done to the processes until now. -/
theorem history (h : Trail b m ms) :
    History b m (ms.flatMap Machine.record) := by
  induction h with
  | new config user code => exact .new config user code
  | @step m ms h ih =>
    rw [List.flatMap_append, List.flatMap_singleton]
    exact ih.step
  | load code _ hs hf ih => exact ih.load code hs hf

theorem run (h : Trail b m ms) (n : Nat) :
    Trail b (Machine.run b n m) (ms ++ Machine.passed b n m) := by
  induction n generalizing m ms with
  | zero =>
    rw [Machine.passed, List.append_nil]
    exact h
  | succ n ih =>
    rw [Machine.passed, List.append_cons]
    exact ih h.step

end Trail

end Actors
