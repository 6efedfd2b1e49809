/-
Draining the work queue.

A drive of the host that goes on until the host is idle runs ticks as long as processes stand in the
work queue. Of what the processes are left with nothing comes back: a transition and an operation of code
replace a residue by parts of it. The steps between them, the turns of processes that cannot go on, the
turns that are cut short and the beginnings and ends of ticks, leave the residues as they are and lower
a count of what the scheduler has yet to do. Neither can go on for ever if the residues are founded.

* `Spelled` — the residues of code that runs, which has what it calls off in front of it, and
  `Spelled.step`: an operation of code consumes one of them;
* `Proc.Moves.consumes` — so does a transition;
* `World.backlog`, `Phase.weight` — what the scheduler has yet to do;
* `Draining` — a drive until the host is idle, and `Draining.step`: each of its steps consumes residues
  or lowers the count;
* `Reachable.drains` — the drive comes to its end, and leaves no process that could go on.
-/
import Actors.Proofs.Allocation
import Actors.Proofs.Allowance
import Actors.Proofs.Residue
import Actors.Proofs.Rights
import Mathlib.Tactic.Abel

namespace Actors

variable {κ σ α : Type} {b : Behaviour κ σ}

open World Activity Procedure

/-! ### The residues of code that runs -/

/-- A residue is replaced by parts of it, among others that may be dropped. -/
theorem Consumes.of_parts {a : Residue κ σ} {S S' T U : Multiset (Residue κ σ)} (le : a ::ₘ U ≤ S)
    (parts : ∀ a' ∈ T, Part b a' a) (le' : S' ≤ T + U) : Consumes b S' S := by
  obtain ⟨V, rfl⟩ := Multiset.le_iff_exists_add.1 le
  exact ⟨a, T, U + V, Multiset.cons_add a U V, parts,
    le'.trans (add_le_add_right (Multiset.le_add_right U V) T)⟩

theorem Consumes.mono {S S' S'' : Multiset (Residue κ σ)} (h : Consumes b S'' S') (le : S' ≤ S) :
    Consumes b S'' S := by
  obtain ⟨a, T, U, rfl, parts, less⟩ := h
  exact .of_parts le parts less

theorem Consumes.add_right {S S' : Multiset (Residue κ σ)} (h : Consumes b S' S)
    (R : Multiset (Residue κ σ)) : Consumes b (S' + R) (S + R) := by
  obtain ⟨a, T, U, rfl, parts, less⟩ := h
  refine ⟨a, T, U + R, Multiset.cons_add a U R, parts, ?_⟩
  rw [← add_assoc]
  exact add_le_add_left less R

/-- Code that runs, and its residues: it may have code in front of it that calls bindings off. -/
inductive Spelled (fr : Frame κ σ α) : Procedure κ σ α → Multiset (Residue κ σ) → Prop where
  | last (x : Procedure κ σ α) : Spelled fr x {fr.residue x}
  | thunk (z : Procedure κ σ Unit) {y : Procedure κ σ α} {S : Multiset (Residue κ σ)}
      (rest : Spelled fr y S) : Spelled fr (z.bind fun _ => y) (.work z ::ₘ S)

namespace Spelled

variable {fr : Frame κ σ α} {x : Procedure κ σ α} {S : Multiset (Residue κ σ)}

/-- The directive that code performs next belongs to one of its residues, and the code goes on where
this residue does. -/
theorem of_op (h : Spelled fr x S) {d : Directive κ σ} {k : d.Reply → Procedure κ σ α}
    (hx : x = .op d k) :
    ∃ (β : Type) (fr' : Frame κ σ β) (k' : d.Reply → Procedure κ σ β) (U : Multiset (Residue κ σ)),
      fr'.residue (.op d k') ::ₘ U ≤ S ∧
        ∀ y : Procedure κ σ d.Reply, Spelled fr (y.bind k) (fr'.residue (y.bind k') ::ₘ U) := by
  induction h with
  | last x =>
    subst hx
    exact ⟨α, fr, k, 0, le_refl _, fun y => .last (y.bind k)⟩
  | @thunk z y S rest ih =>
    cases z with
    | ret u =>
      obtain ⟨β, fr', k', U, le, goes⟩ := ih hx
      exact ⟨β, fr', k', U, le.trans (Multiset.le_cons_self S _), goes⟩
    | raise f => cases hx
    | op d' k' =>
      cases hx
      refine ⟨Unit, .work, k', S, le_refl _, fun z => ?_⟩
      have goes : Spelled fr ((z.bind k').bind fun _ => y) (.work (z.bind k') ::ₘ S) :=
        .thunk (z.bind k') rest
      exact Act.bind_assoc z k' (fun _ => y) ▸ goes

theorem of_ret (h : Spelled fr x S) {a : α} (hx : x = .ret a) : fr.residue (.ret a) ∈ S := by
  induction h with
  | last x => exact hx ▸ Multiset.mem_singleton_self _
  | @thunk z y S rest ih =>
    cases z with
    | ret u => exact Multiset.mem_cons_of_mem (ih hx)
    | raise f => cases hx
    | op d k => cases hx

/-- Code with founded residues breaks no contract by itself. -/
theorem not_raise (h : Spelled fr x S) (founded : ∀ a ∈ S, Founded b a) (f : Fault) : x ≠ .raise f := by
  induction h with
  | last x =>
    intro hx
    subst hx
    exact Founded.not_raise fr f (founded _ (Multiset.mem_singleton_self _))
  | @thunk z y S rest ih =>
    intro hx
    cases z with
    | ret u => exact ih (fun a ha => founded a (Multiset.mem_cons_of_mem ha)) hx
    | raise f' => exact Founded.not_raise .work f' (founded _ (Multiset.mem_cons_self _ S))
    | op d k => cases hx

theorem mild (h : Spelled fr x S) (founded : ∀ a ∈ S, Founded b a) {d : Directive κ σ}
    {k : d.Reply → Procedure κ σ α} (hx : x = .op d k) : d.isMild = true := by
  obtain ⟨β, fr', k', U, le, -⟩ := h.of_op hx
  exact ((Founded.iff_op fr').1 (founded _ (Multiset.mem_of_le le (Multiset.mem_cons_self _ U)))).1

end Spelled

namespace Part

variable {d : Directive κ σ} {k : d.Reply → Procedure κ σ α}

theorem answered (fr : Frame κ σ α) (r : d.Reply) (plain : d.isCall = false) :
    Part b (fr.residue (k r)) (fr.residue (.op d k)) := by
  cases fr with
  | callback n k' p => exact .bodyAnswered r plain
  | _ => exact .workAnswered r plain

theorem called (fr : Frame κ σ α) {y : Procedure κ σ d.Reply} (h : d.expansion? b = some y) :
    Part b (fr.residue (y.bind k)) (fr.residue (.op d k)) := by
  cases fr with
  | callback n k' p => exact .bodyCalled h
  | _ => exact .workCalled h

theorem brings (fr : Frame κ σ α) {a : Residue κ σ} (h : a ∈ d.brings) :
    Part b a (fr.residue (.op d k)) := by
  cases fr with
  | callback n k' p => exact .bodyBrings h
  | _ => exact .workBrings h

end Part

/-- An operation of code consumes a residue of it. -/
theorem Spelled.step {fr : Frame κ σ α} {d : Directive κ σ} {k : d.Reply → Procedure κ σ α}
    {S : Multiset (Residue κ σ)} {w w' : World κ σ} {code : Procedure κ σ α}
    (h : Spelled fr (.op d k) S) (founded : ∀ a ∈ S, Founded b a)
    (hd : d.step b w k = .next w' code) :
    (w.OnlyPumps → w'.OnlyPumps) ∧
      ∃ S', Spelled fr code S' ∧ Consumes b (w'.residues + S') (w.residues + S) := by
  have mild : d.isMild = true := h.mild founded rfl
  obtain ⟨β, fr', k', U, le, goes⟩ := h.of_op rfl
  have le : fr'.residue (.op d k') ::ₘ (w.residues + U) ≤ w.residues + S := by
    rw [← Multiset.add_cons]
    exact add_le_add_right le w.residues
  rw [Directive.step_eq_bind] at hd
  cases hs : d.step b w Act.ret with
  | drive w₁ goal k₁ => rw [hs] at hd; cases hd
  | fault f => rw [hs] at hd; cases hd
  | next w₁ y =>
    rw [hs] at hd
    obtain ⟨rfl, rfl⟩ := Progress.next.inj hd
    have withReply : ∀ (r : d.Reply), d.isCall = false →
        ∀ a ∈ d.brings + {fr'.residue (k' r)}, Part b a (fr'.residue (.op d k')) := by
      intro r plain a ha
      rcases Multiset.mem_add.1 ha with brought | self
      · exact .brings fr' brought
      · exact Multiset.mem_singleton.1 self ▸ .answered fr' r plain
    have spends := Directive.spends mild hs
    refine ⟨spends.pumps, ?_⟩
    cases spends with
    | answered r plain leaves =>
      refine ⟨_, goes (.ret r), .of_parts le (withReply r plain) ?_⟩
      calc w₁.residues + fr'.residue (k' r) ::ₘ U
          ≤ w.residues + d.brings + fr'.residue (k' r) ::ₘ U := add_le_add_left leaves.residues _
        _ = d.brings + {fr'.residue (k' r)} + (w.residues + U) := by
          rw [← Multiset.singleton_add]
          abel
    | expands expands leaves =>
      have same : w₁.residues ≤ w.residues := leaves.residues.trans (add_zero w.residues).le
      refine ⟨_, goes y, .of_parts (T := {fr'.residue (y.bind k')}) le ?_ ?_⟩
      · exact fun a ha => Multiset.mem_singleton.1 ha ▸ .called fr' expands
      · rw [Multiset.add_cons, Multiset.singleton_add]
        exact Multiset.cons_le_cons _ (add_le_add_left same U)
    | ran c r plain pumps more =>
      -- The thunk that is run has been left to a process, or is brought by the directive.
      have code : Act.bind ((Procedure.invoke (.thunk c)).bind fun _ => .ret r) k =
          (Procedure.invoke (.thunk c)).bind fun _ => k r := Act.bind_assoc _ _ _
      rw [code]
      refine ⟨_, .thunk (Procedure.invoke (.thunk c)) (goes (.ret r)),
        .of_parts le (withReply r plain) ?_⟩
      calc w₁.residues + .work (Procedure.invoke (.thunk c)) ::ₘ fr'.residue (k' r) ::ₘ U
          = w₁.residues + {.work (Procedure.invoke (.thunk c))} + fr'.residue (k' r) ::ₘ U := by
            rw [← Multiset.singleton_add, add_assoc]
        _ ≤ w.residues + d.brings + fr'.residue (k' r) ::ₘ U := add_le_add_left more _
        _ = d.brings + {fr'.residue (k' r)} + (w.residues + U) := by
          rw [← Multiset.singleton_add]
          abel

/-! ### The residues of a process that makes a transition -/

/-- The code that a transition begins, as residues; `t` is the ticket of a binding that is started. -/
def Move.begins (b : Behaviour κ σ) (t : Ticket) (mv : Move κ) : Multiset (Residue κ σ) :=
  match mv.entered, mv.task with
  | some (c, v), _ => {.body (c.run b v)}
  | none, .native g => {.work (g.start b t)}
  | none, _ => 0

theorem Handler.residues_next {o : Except (Value κ) (Value κ)} {s : List (Handler κ)}
    {e : Callback κ × List (Handler κ)} (he : Handler.next o s = some e) :
    (.handler e.1 ::ₘ Multiset.ofList (e.2.map fun h => .handler h.callback) :
      Multiset (Residue κ σ)) ≤ Multiset.ofList (s.map fun h => .handler h.callback) := by
  obtain ⟨h, same, sub⟩ := Handler.sublist_of_next he
  rw [← same, Multiset.cons_coe]
  exact Multiset.coe_le.2 (sub.map fun h : Handler κ => Residue.handler h.callback).subperm

/-- A transition consumes the task that is up, or the handler that it enters. -/
theorem Proc.Moves.consumes {x y : Proc κ} {mv : Move κ} (h : x.Moves mv y)
    (root : x.root = .ready mv.task) (t : Ticket) :
    Consumes b (y.residues + mv.begins b t) x.residues := by
  have residues : (x.residues : Multiset (Residue κ σ)) =
      .task mv.task ::ₘ Multiset.ofList (x.stack.map fun h => .handler h.callback) := by
    rw [Proc.residues, root]
    rfl
  -- The task that is up stands apart from the handlers, since every move takes one of the two.
  rw [residues]
  cases h with
  | outcome o =>
    cases he : Handler.next o x.stack with
    | none =>
      refine .of_parts (T := 0) (le_refl _) (fun a ha => absurd ha (Multiset.notMem_zero a)) ?_
      cases o <;> exact Multiset.zero_le _
    | some e =>
      -- Entering a handler also drops the ones that were skipped; only the body of the one
      -- entered is new.
      have le := (Handler.residues_next (σ := σ) he).trans (Multiset.le_cons_self _ (.task (.ofResult o)))
      refine .of_parts (T := {.body (e.1.run b (passed o))}) le
        (fun a ha => Multiset.mem_singleton.1 ha ▸ .entered e.1 (passed o)) ?_
      have begins : Move.begins b t ⟨.ofResult o, (some e).map fun e => (e.1, passed o)⟩ =
          {.body (e.1.run b (passed o))} := by cases o <;> rfl
      have left : ((x.handled (some e)).residues : Multiset (Residue κ σ)) =
          Multiset.ofList (e.2.map fun h => .handler h.callback) := zero_add _
      rw [begins, left, add_comm]
  | @push u t' h pushes =>
    refine .of_parts (T := {.task t', .handler h.callback}) (le_refl _) (fun a ha => ?_) ?_
    · rcases Multiset.mem_cons.1 ha with rfl | ha
      · exact .first pushes
      · exact Multiset.mem_singleton.1 ha ▸ .pushed pushes
    · have begins : Move.begins b t ⟨u, none⟩ = 0 := by cases pushes <;> rfl
      rw [begins, add_zero]
      exact le_refl _
  | @receive c v vs mail =>
    refine .of_parts (T := {.body (c.run b v)}) (le_refl _)
      (fun a ha => Multiset.mem_singleton.1 ha ▸ .received c v) ?_
    rw [add_comm, show Move.begins b t ⟨.receive c, some (c, v)⟩ = {.body (c.run b v)} from rfl]
    exact add_le_add_right (zero_add _).le _
  | native g =>
    refine .of_parts (T := {.work (g.start b t)}) (le_refl _)
      (fun a ha => Multiset.mem_singleton.1 ha ▸ .started g t) ?_
    rw [add_comm, show Move.begins b t ⟨.native g, none⟩ = {.work (g.start b t)} from rfl]
    exact add_le_add_right (zero_add _).le _

namespace World

variable {w w' : World κ σ} {p : Pid} {x y : Proc κ}

theorem residuesOf_le (hx : w.procs.get? p = some x) : x.residues ≤ w.residues := by
  rw [← residuesOf_of_get? hx]
  exact Finset.single_le_sum (f := fun n => w.residuesOf ⟨n⟩) (fun _ _ => Multiset.zero_le _)
    (Finset.mem_range.2 (ProcTable.number_lt_of_get? hx))

/-- What a process consumes is consumed of what all processes are left with. -/
theorem Put.consumes {E : Multiset (Residue κ σ)} (h : Put w w' p y) (hx : w.procs.get? p = some x)
    (own : Consumes b (y.residues + E) x.residues) : Consumes b (w'.residues + E) w.residues := by
  obtain ⟨R, hR⟩ := Multiset.le_iff_exists_add.1 (residuesOf_le hx)
  have now : w'.residues = y.residues + R := by
    refine add_right_cancel (b := (x.residues : Multiset (Residue κ σ))) ?_
    rw [← residuesOf_of_get? hx, h.residues, residuesOf_of_get? hx, hR]
    abel
  rw [now, hR, add_right_comm]
  exact own.add_right R

end World

/-! ### What the scheduler has yet to do -/

namespace World

variable {w w' : World κ σ} {p : Pid}

/-- What the scheduler has to do for the processes in the work queue and for the ticks that wait. A
turn weighs more than the tick that it may arm. -/
def backlog (w : World κ σ) : Nat :=
  10 * w.queue.length + 2 * w.host.ticks.length

theorem backlog_enqueue (w : World κ σ) (p : Pid) : (w.enqueue p).backlog ≤ w.backlog + 12 := by
  unfold enqueue
  split
  · exact Nat.le_add_right _ _
  · split
    · exact Nat.le_add_right _ _
    · unfold arm backlog
      split
      · simp only [List.length_append, List.length_singleton]
        omega
      · simp only [Host.defer, List.length_append, List.length_singleton]
        omega

theorem ticks_dequeue (h : w.dequeue = some (p, w')) : w'.host.ticks = w.host.ticks := by
  unfold dequeue modify at h
  split at h
  · cases h
  · obtain ⟨-, rfl⟩ := Prod.mk.inj (Option.some.inj h)
    split <;> rfl

theorem backlog_dequeue (h : w.dequeue = some (p, w')) : w.backlog = w'.backlog + 10 := by
  rw [backlog, backlog, ticks_dequeue h, queue_dequeue h, List.length_cons]
  omega

theorem ticks_endTick (w : World κ σ) (n k : Nat) :
    (w.endTick n k).host.ticks = w.host.ticks ++ if w.queue.isEmpty then [] else [.pump] := by
  unfold endTick
  cases w.queue.isEmpty with
  | true => exact (List.append_nil _).symm
  | false => rfl

theorem OnlyPumps.endTick (h : w.OnlyPumps) (n k : Nat) : (w.endTick n k).OnlyPumps := by
  intro t ht
  rw [ticks_endTick] at ht
  rcases List.mem_append.1 ht with ht | ht
  · exact h t ht
  · split at ht
    · cases ht
    · exact List.mem_singleton.1 ht

theorem residues_endTick (w : World κ σ) (n k : Nat) : (w.endTick n k).residues = w.residues := by
  refine residues_congr fun q => ?_
  rw [residuesOf, residuesOf]
  unfold World.endTick
  cases w.queue.isEmpty <;> rfl

theorem backlog_endTick (w : World κ σ) (n k : Nat) :
    (w.endTick n k).backlog = w.backlog + if w.queue.isEmpty then 0 else 2 := by
  rw [backlog, backlog, queue_endTick, ticks_endTick]
  cases w.queue.isEmpty with
  | true => rw [if_pos rfl, if_pos rfl, List.append_nil]; rfl
  | false => simp only [Bool.false_eq_true, if_false, List.length_append, List.length_singleton]; omega

end World

namespace Machine

theorem host_modify (w : World κ σ) (p : Pid) (f : Proc κ → Proc κ) : (w.modify p f).host = w.host := by
  unfold World.modify
  split <;> rfl

/-- A turn with budget left does nothing to the host. -/
theorem host_stepTurn (b : Behaviour κ σ) (w : World κ σ) (n k : Nat) (s : List (Activity κ σ))
    (p : Pid) (budget : n < w.limit) : (stepTurn b w n k s p).world.host = w.host := by
  -- A turn changes the process table, and an exit the journal too; the host is apart from both.
  have outcome : ∀ (w₁ : World κ σ) (handler : Option (Callback κ × List (Handler κ)))
      (r : Except (Value κ) (Value κ)),
      (stepOutcome b w₁ (n + 1) k s p handler r).world.host = w₁.host := by
    intro w₁ handler r
    cases handler with
    | some e => exact host_modify w₁ p _
    | none =>
      show ((w₁.modify p _).exit p r).host = _
      unfold World.exit
      split
      · exact host_modify w₁ p _
      · exact host_modify w₁ p _
  unfold stepTurn
  rw [if_neg (Nat.not_le.2 budget)]
  split
  · rfl
  · next x hx =>
    split
    · next t ht =>
      have taken := host_modify w p fun x => { x with root := .stepping }
      cases t with
      | succeed v => exact (outcome _ _ _).trans taken
      | fail v => exact (outcome _ _ _).trans taken
      | andThen t c => exact (host_modify _ p _).trans taken
      | onError t c => exact (host_modify _ p _).trans taken
      | receive c =>
        simp only [stepTask]
        split
        · exact (host_modify _ p _).trans taken
        · exact (host_modify _ p _).trans taken
      | native g =>
        simp only [stepTask, issue]
        split <;> exact taken
    · rfl

end Machine

/-! ### A drive until the host is idle -/

/-- A drive that goes on until the host is idle, above a stack `s`: what processes and code are left
with, and what the scheduler has yet to do. A turn that is cut short puts its process back into the
queue, and may end its tick, so it weighs most. -/
inductive Draining (s : List (Activity κ σ)) :
    Machine κ σ → Multiset (Residue κ σ) → Nat → Prop where
  | drive (w : World κ σ) (c : Nat) :
      Draining s ⟨w, .drive (.ticks none) c :: s, none⟩ w.residues w.backlog
  | seek (w : World κ σ) (n k c : Nat) :
      Draining s ⟨w, .tick n k .seek :: .drive (.ticks none) c :: s, none⟩ w.residues
        (w.backlog + if n < w.limit then 1 else 3)
  | turn (w : World κ σ) (n k : Nat) (p : Pid) (c : Nat) :
      Draining s ⟨w, .tick n k (.turn p) :: .drive (.ticks none) c :: s, none⟩ w.residues
        (w.backlog + if n < w.limit then 8 else 20)
  | code (w : World κ σ) {α : Type} (fr : Frame κ σ α) {x : Procedure κ σ α}
      {S : Multiset (Residue κ σ)} (spelled : Spelled fr x S)
      (within : (fr.fill (.run x)).isTick = true) (c : Nat) :
      Draining s ⟨w, fr.fill (.run x) :: .drive (.ticks none) c :: s, none⟩ (w.residues + S) w.backlog

/-- The drive goes on: residues have been consumed, or none has been added and the scheduler has less
to do. -/
def Onward (b : Behaviour κ σ) (s : List (Activity κ σ)) (S : Multiset (Residue κ σ)) (n : Nat)
    (m : Machine κ σ) : Prop :=
  m.world.OnlyPumps ∧ ∃ S' n', Draining s m S' n' ∧ (Consumes b S' S ∨ S' ≤ S ∧ n' < n)

namespace Draining

variable {s : List (Activity κ σ)} {w : World κ σ} {n k c : Nat} {p : Pid}

/-- Between two turns. -/
theorem onward_seek {S : Multiset (Residue κ σ)} {l : Nat} (only : w.OnlyPumps)
    (less : w.residues ≤ S ∧ w.backlog + 3 < l ∨ Consumes b w.residues S) :
    Onward b s S l ⟨w, .tick n k .seek :: .drive (.ticks none) c :: s, none⟩ := by
  refine ⟨only, _, _, .seek w n k c, ?_⟩
  rcases less with ⟨same, less⟩ | consumed
  · refine .inr ⟨same, ?_⟩
    split <;> omega
  · exact .inl consumed

/-- The drive begins a tick, or loses it; or it is over. -/
theorem step_drive (only : w.OnlyPumps) :
    (w.host.ticks = [] ∧ Machine.step b ⟨w, .drive (.ticks none) c :: s, none⟩ =
        ⟨w, Machine.resumeTop c s, none⟩) ∨
      Onward b s w.residues w.backlog (Machine.step b ⟨w, .drive (.ticks none) c :: s, none⟩) := by
  show (_ ∧ Machine.stepDrive w (.ticks none) c s = _) ∨
    Onward b s _ _ (Machine.stepDrive w (.ticks none) c s)
  simp only [Machine.stepDrive, Option.all_none, if_true, Host.takeTick]
  cases hts : w.host.ticks with
  | nil => exact .inl ⟨rfl, rfl⟩
  | cons t ts =>
    right
    -- Nothing but ticks is queued, which is why no other kind of task can come up here.
    obtain rfl : t = .pump := only t (hts ▸ List.mem_cons_self)
    have only' : ∀ t ∈ ts, t = .pump := fun t ht => only t (hts ▸ List.mem_cons_of_mem _ ht)
    have fewer : w.backlog = 10 * w.queue.length + 2 * (ts.length + 1) := by
      rw [backlog, hts, List.length_cons]
    simp only [Machine.beginTick]
    split
    · refine ⟨only', _, _, .seek _ 0 0 (c + 1), .inr ⟨(residues_congr fun _ => rfl).le, ?_⟩⟩
      have some : 0 < w.limit := w.config.budget.property.1
      rw [fewer]
      show 10 * w.queue.length + 2 * ts.length + (if 0 < w.limit then 1 else 3) < _
      rw [if_pos some]
      omega
    · refine ⟨only', _, _, .drive _ (c + 1), .inr ⟨(residues_congr fun _ => rfl).le, ?_⟩⟩
      rw [fewer]
      show 10 * w.queue.length + 2 * ts.length < _
      omega

/-- A tick between two turns takes a process out of the queue, or is over. -/
theorem step_seek (only : w.OnlyPumps) :
    Onward b s w.residues (w.backlog + if n < w.limit then 1 else 3)
      (Machine.step b ⟨w, .tick n k .seek :: .drive (.ticks none) c :: s, none⟩) := by
  -- Ending a tick may arm the next one; the weights make that cost less than the seek it
  -- replaces.
  have ended : Onward b s w.residues (w.backlog + if w.queue.isEmpty then 1 else 3)
      ⟨w.endTick n k, .drive (.ticks none) c :: s, none⟩ := by
    refine ⟨only.endTick n k, _, _, .drive _ c, .inr ⟨(residues_endTick w n k).le, ?_⟩⟩
    rw [backlog_endTick]
    split <;> omega
  show Onward b s _ _ (Machine.stepSeek w n k _)
  unfold Machine.stepSeek
  by_cases budget : n < w.limit
  · rw [if_pos budget, if_pos budget]
    cases hq : w.queue with
    | nil =>
      rw [hq] at ended
      rw [dequeue, hq]
      exact ended
    | cons p rest =>
      obtain ⟨w', hd, -, limit⟩ := dequeue_of_cons hq
      have fewer := backlog_dequeue hd
      have same := (residues_dequeue hd).le
      rw [hd]
      simp only
      split
      · refine ⟨only.same (ticks_dequeue hd), _, _, .turn w' n _ p c, .inr ⟨same, ?_⟩⟩
        rw [if_pos (limit ▸ budget)]
        omega
      · exact onward_seek (only.same (ticks_dequeue hd)) (.inl ⟨same, by omega⟩)
  · rw [if_neg budget, if_neg budget]
    obtain ⟨pumps, S', n', goes, less⟩ := ended
    refine ⟨pumps, S', n', goes, less.imp_right fun h => ⟨h.1, h.2.trans_le ?_⟩⟩
    split <;> omega

/-- A process that has its turn makes a transition, or its turn is over. -/
theorem step_turn (only : w.OnlyPumps) :
    Onward b s w.residues (w.backlog + if n < w.limit then 8 else 20)
      (Machine.step b ⟨w, .tick n k (.turn p) :: .drive (.ticks none) c :: s, none⟩) := by
  by_cases budget : n < w.limit
  · rw [if_pos budget]
    have host := Machine.host_stepTurn b w n k (.drive (.ticks none) c :: s) p budget
    obtain ⟨w₁, n₁, phase, moves, more, -, -⟩ :=
      Machine.step_turn b w n k p (.drive (.ticks none) c :: s) budget
    have tr := Machine.transition b ⟨w, .tick n k (.turn p) :: .drive (.ticks none) c :: s, none⟩
    have host : (Machine.step b ⟨w, .tick n k (.turn p) :: .drive (.ticks none) c :: s,
      none⟩).world.host.ticks = w.host.ticks := congrArg Host.ticks host
    generalize Machine.step b ⟨w, .tick n k (.turn p) :: .drive (.ticks none) c :: s, none⟩ = m'
      at tr host moves
    generalize Machine.record ⟨w, .tick n k (.turn p) :: .drive (.ticks none) c :: s, none⟩ = r at tr
    generalize ha : (Activity.tick n k (.turn p) : Activity κ σ) = a at tr
    have only' : m'.world.OnlyPumps := only.same host
    -- The process gives up its task or handler for what it begins, and the rest of the table
    -- stays.
    have consumes : ∀ {w' : World κ σ} {x : Proc κ} {mv : Move κ}, w.procs.get? p = some x →
        x.move? = some mv → Put w w' p (x.moved mv.task) → ∀ t,
        Consumes b (w'.residues + mv.begins b t) w.residues := fun hx can h t =>
      h.consumes hx ((Proc.moves can).consumes (Proc.root_of_move? can) t)
    have drops : ∀ {w' : World κ σ} {x : Proc κ} {mv : Move κ}, w.procs.get? p = some x →
        x.move? = some mv → Put w w' p (x.moved mv.task) → Consumes b w'.residues w.residues :=
      fun hx can h => (consumes hx can h ⟨p, 0⟩).of_le (Multiset.le_add_right _ _)
    cases tr with
    | rest =>
      subst ha
      cases moves
      omega
    | @parked _ w' _ _ _ _ _ budget stuck agree =>
      cases ha
      have same : w'.backlog = w.backlog := by
        rw [backlog, backlog, agree.queue, show w'.host.ticks = w.host.ticks from host]
      exact onward_seek only' (.inl ⟨agree.residues.le, by omega⟩)
    | pushed budget hx can h root =>
      cases ha
      exact ⟨only', _, _, .turn _ _ k p c, .inl (drops hx can h)⟩
    | @entered _ w' _ _ _ _ x mv e v budget hx can h root hc =>
      cases ha
      have begins : mv.begins b ⟨p, 0⟩ = {.body (e.run b v)} := by rw [Move.begins, hc]
      exact ⟨only', _, _, .code w' (.callback (n + 1) k p) (.last _) rfl c,
        .inl (begins ▸ consumes hx can h ⟨p, 0⟩)⟩
    | @started _ w' _ _ _ _ x mv g budget hx can h task =>
      cases ha
      have begins : mv.begins b ⟨p, x.binding + 1⟩ = {.work (g.start b ⟨p, x.binding + 1⟩)} := by
        rw [Move.begins, (Proc.moves can).entered_of_native task, task]
      exact ⟨only', _, _, .code w' (.starting (n + 1) k p) (.last _) rfl c,
        .inl (begins ▸ consumes hx can h ⟨p, x.binding + 1⟩)⟩
    | exited budget hx can h =>
      cases ha
      exact onward_seek only' (.inr (drops hx can h))
    | preempted cut =>
      cases ha
      exact absurd budget (Nat.not_lt.2 cut)
    | code fr => cases fr <;> cases ha
    | driving fr => cases fr <;> cases ha
    | broken agree like cause =>
      cases ha
      cases moves
    | _ => cases ha
  -- A turn that finds its budget used up puts its process back, and the weight of a turn pays for
  -- that.
  · have step : Machine.step b ⟨w, .tick n k (.turn p) :: .drive (.ticks none) c :: s, none⟩ =
        ⟨w.enqueue p, .tick n k .seek :: .drive (.ticks none) c :: s, none⟩ :=
      if_pos (Nat.not_lt.1 budget)
    rw [if_neg budget, step]
    have more := backlog_enqueue w p
    exact onward_seek (only.enqueue p) (.inl ⟨(residues_enqueue w p).le, by omega⟩)

/-- A continuation has returned, or the start of a binding is over. -/
theorem step_ret (only : w.OnlyPumps) {fr : Frame κ σ α} {r : α} {S : Multiset (Residue κ σ)} {l : Nat}
    (spelled : Spelled fr (.ret r) S) (within : (fr.fill (.run (.ret r))).isTick = true) :
    Onward b s (w.residues + S) l
      (Machine.step b ⟨w, fr.fill (.run (.ret r)) :: .drive (.ticks none) c :: s, none⟩) := by
  -- The code that has returned is the residue spent in all three cases; they differ in what
  -- replaces it.
  have le : fr.residue (.ret r) ::ₘ w.residues ≤ w.residues + S := by
    rw [← Multiset.singleton_add, add_comm]
    exact add_le_add_right (Multiset.singleton_le.2 (spelled.of_ret rfl)) w.residues
  have drops : Consumes b w.residues (w.residues + S) :=
    .of_parts (T := 0) le (fun a ha => absurd ha (Multiset.notMem_zero a)) (zero_add _).ge
  cases fr with
  | work => cases within
  | starting n k p => exact onward_seek only (.inr drops)
  | callback n k p =>
    by_cases alive : w.procs.isAlive p = true
    · have step : Machine.step b ⟨w, (Frame.callback n k p).fill (.run (.ret r)) ::
            .drive (.ticks none) c :: s, none⟩ =
          ⟨w.modify p fun x => { x with root := .ready r },
            .tick n k (.turn p) :: .drive (.ticks none) c :: s, none⟩ := if_pos alive
      obtain ⟨x, hx, -⟩ := ProcTable.isAlive_iff.1 alive
      have more : w.Leaves (w.modify p fun x => { x with root := .ready r }) {.task r} := by
        refine .put (put_modify hx _) ?_ (congrArg Host.ticks (Machine.host_modify w p _))
        rw [residuesOf_of_get? hx, Proc.residues, Proc.residues, add_comm, add_comm x.root.residue,
          add_assoc]
        exact add_le_add_right (le_add_left (le_refl _)) _
      rw [step]
      refine ⟨more.pumps only, _, _, .turn _ n k p c, .inl ?_⟩
      refine .of_parts (T := {.task r}) le
        (fun a ha => Multiset.mem_singleton.1 ha ▸ .returned r) ?_
      rw [add_comm]
      exact more.residues
    · have step : Machine.step b ⟨w, (Frame.callback n k p).fill (.run (.ret r)) ::
            .drive (.ticks none) c :: s, none⟩ =
          ⟨w, .tick (chargeTurn n) k .seek :: .drive (.ticks none) c :: s, none⟩ := if_neg alive
      rw [step]
      exact onward_seek only (.inr drops)

/-- Every step of a drive until the host is idle consumes residues, or lowers the count of what the
scheduler has yet to do; but for the last one, and for one that finds no name left for a process. -/
theorem step {m : Machine κ σ} {S : Multiset (Residue κ σ)} {l : Nat} (h : Draining s m S l)
    (reach : Reachable b m) (founded : ∀ a ∈ S, Founded b a) (only : m.world.OnlyPumps) :
    (m.step b).fault = some .pidsExhausted ∨
      (m.world.host.ticks = [] ∧ ∃ c, m.step b = ⟨m.world, Machine.resumeTop c s, none⟩) ∨
      Onward b s S l (m.step b) := by
  cases h with
  | drive w c => exact (step_drive only).elim (fun past => .inr (.inl ⟨past.1, c, past.2⟩)) (.inr ∘ .inr)
  | seek w n k c => exact .inr (.inr (step_seek only))
  | turn w n k p c => exact .inr (.inr (step_turn only))
  | @code w α fr x S spelled within c =>
    have own : ∀ a ∈ S, Founded b a := fun a ha => founded a (Multiset.mem_add.2 (.inr ha))
    cases x with
    | ret r => exact .inr (.inr (step_ret only spelled within))
    | raise f => exact absurd rfl (spelled.not_raise own f)
    -- A fault of the code itself shows where code raises one, and here an operation is on top.
    | op d k =>
      have here : ∀ {f : Fault} {β : Type} {fr' : Frame κ σ β} {s' : List (Activity κ σ)},
          fr.fill (.run (.op d k)) :: .drive (.ticks none) c :: s ≠ fr'.fill (.run (.raise f)) :: s' := by
        intro f β fr' s' same
        cases fr <;> cases fr' <;> cases same
      have op := fr.step_op (b := b) w d k (.drive (.ticks none) c :: s)
      unfold Machine.stepCode at op
      cases hd : d.step b w k with
      | next w' code =>
        obtain ⟨pumps, S', spelled', consumed⟩ := spelled.step own hd
        rw [hd] at op
        rw [op]
        have within' : (fr.fill (.run code)).isTick = true := (fr.like _ _).isTick.trans within
        exact .inr (.inr ⟨pumps only, _, _, .code w' fr spelled' within' c, .inl consumed⟩)
      | drive w' goal k' =>
        obtain ⟨e, rfl⟩ := Directive.eq_drive hd
        cases spelled.mild own rfl
      | fault f =>
        have broken : (Machine.step b ⟨w, fr.fill (.run (.op d k)) :: .drive (.ticks none) c :: s,
            none⟩).fault = some f := by
          rw [op, hd]
        -- Names that run out are the one fault that is left; the others need code that reachable
        -- machines do not have.
        left
        cases Directive.fails hd with
        | exhausted => exact broken
        | crowded => exact broken
        | taken =>
          obtain ⟨β, fr', s', same⟩ := reach.raises_of_duplicatePid rfl broken
          exact absurd same here
        | completed =>
          obtain ⟨β, fr', s', same⟩ := reach.raises_of_notAwaiting rfl broken
          exact absurd same here
        | settled =>
          obtain ⟨β, fr', s', same⟩ := reach.raises_of_notAwaiting rfl broken
          exact absurd same here
        | inUse i => cases spelled.mild own rfl

end Draining

/-- A drive until the host is idle comes to its end, or runs out of names. -/
theorem Draining.ends {s : List (Activity κ σ)} {S : Multiset (Residue κ σ)}
    (founded : ∀ a ∈ S, Founded b a) : ∀ {m : Machine κ σ} {T : Multiset (Residue κ σ)} {l : Nat},
    Draining s m T l → T ≤ S → Reachable b m → m.world.OnlyPumps →
    ∃ i, (Machine.run b i m).fault = some .pidsExhausted ∨
      (Machine.run b i m).world.host.ticks = [] ∧
        ∃ c, Machine.run b i m = ⟨(Machine.run b i m).world, Machine.resumeTop c s, none⟩ := by
  -- The outer induction is on what is left to be done, the inner one on what the scheduler has to do.
  induction Founded.acc founded with
  | intro S _ ih =>
    intro m T l h le reach only
    induction l using Nat.strong_induction_on generalizing m T with
    | _ l ih' =>
      rcases h.step reach (fun a ha => founded a (Multiset.mem_of_le le ha)) only with
        broken | ⟨idle, c, past⟩ | ⟨only', S', l', h', less⟩
      · exact ⟨1, .inl broken⟩
      · refine ⟨1, .inr ?_⟩
        show (m.step b).world.host.ticks = [] ∧ ∃ c, m.step b = ⟨(m.step b).world, _, none⟩
        rw [past]
        exact ⟨idle, c, rfl⟩
      · have rest : ∃ i, (Machine.run b i (m.step b)).fault = some .pidsExhausted ∨
            (Machine.run b i (m.step b)).world.host.ticks = [] ∧
              ∃ c, Machine.run b i (m.step b) =
                ⟨(Machine.run b i (m.step b)).world, Machine.resumeTop c s, none⟩ := by
          rcases less with consumed | ⟨same, fewer⟩
          · have consumed := consumed.mono le
            exact ih S' consumed (consumed.founded founded) h' (le_refl S') reach.step only'
          · exact ih' l' fewer h' (same.trans le) reach.step only'
        obtain ⟨i, done⟩ := rest
        exact ⟨i + 1, done⟩

/-- What the processes of a world are left with is founded if it is for each of them. -/
theorem World.founded_residues {w : World κ σ}
    (h : ∀ p x, w.procs.get? p = some x → ∀ a ∈ x.residues, Founded b a) :
    ∀ a ∈ w.residues, Founded b a := by
  intro a ha
  obtain ⟨n, -, ha⟩ := Multiset.mem_sum.1 ha
  rw [residuesOf] at ha
  cases hx : w.procs.get? ⟨n⟩ with
  | none => rw [hx] at ha; exact absurd ha (Multiset.notMem_zero a)
  | some x => rw [hx] at ha; exact h ⟨n⟩ x hx a ha

/-- While no tick waits or runs, a process that is alive awaits a binding, or waits for a message while
its mailbox is empty. -/
theorem Reachable.parked_of_drained {m : Machine κ σ} (h : Reachable b m)
    (quiet : ticksOf m.stack = 0) (idle : m.world.host.ticks = []) {p : Pid}
    (alive : m.world.isAlive p = true) :
    ∃ x, m.world.procs.get? p = some x ∧
      ((∃ n c, x.root = .awaiting n c) ∨ ∃ c, x.root = .ready (.receive c) ∧ x.mailbox = []) := by
  obtain ⟨here, alive⟩ := Bool.and_eq_true_iff.1 alive
  obtain ⟨x, hx, alive⟩ := ProcTable.isAlive_iff.1 alive
  have none : m.world.host.pumps = 0 := by rw [Host.pumps, idle]; rfl
  have unarmed : m.world.armed ≠ true := fun armed => by
    have some := h.pumped.ticking here armed
    omega
  -- A queue with work in it has armed a tick, and there is none; so no process can make a
  -- transition.
  have empty : m.world.queue = [] := Classical.byContradiction fun work => unarmed (h.pumped.stocked work)
  have stuck : x.move? = Option.none := Classical.byContradiction fun can =>
    List.not_mem_nil (empty ▸ h.sound.runnable_queued quiet hx can)
  refine ⟨x, hx, ?_⟩
  cases hr : x.root with
  | ready t =>
    obtain ⟨c, rfl, mail⟩ := Proc.move?_eq_none stuck hr
    exact .inr ⟨c, rfl, mail⟩
  | stepping => exact absurd hr (h.sound.not_stepping quiet hx)
  | awaiting n c => exact .inl ⟨n, c, rfl⟩
  | dead =>
    rw [Proc.isDead_iff.2 hr] at alive
    cases alive

/-- A drive until the host is idle comes to its end if everything is founded that the processes are left
with, and only the scheduler waits in the host: whatever the budget of a tick is, it runs finitely many
ticks, unless no name is left for a process. When it returns, every process that is alive awaits a
binding, or waits for a message while its mailbox is empty. -/
theorem Reachable.drains {m : Machine κ σ} (h : Reachable b m) (going : m.fault = none) {c : Nat}
    {s : List (Activity κ σ)} (stack : m.stack = .drive (.ticks none) c :: s) (quiet : ticksOf s = 0)
    (only : m.world.OnlyPumps)
    (founded : ∀ p x, m.world.procs.get? p = some x → ∀ a ∈ x.residues, Founded b a) :
    ∃ i, (Machine.run b i m).fault = some .pidsExhausted ∨
      ∃ w c', Machine.run b i m = ⟨w, Machine.resumeTop c' s, none⟩ ∧ w.host.ticks = [] ∧
        ∀ p, w.isAlive p = true → ∃ x, w.procs.get? p = some x ∧
          ((∃ n c, x.root = .awaiting n c) ∨ ∃ c, x.root = .ready (.receive c) ∧ x.mailbox = []) := by
  obtain ⟨w, _, _⟩ := m
  subst going stack
  obtain ⟨i, done⟩ := Draining.ends (World.founded_residues founded) (Draining.drive (s := s) w c)
    (le_refl _) h only
  refine ⟨i, done.imp_right fun ⟨idle, c', past⟩ => ⟨_, c', past, idle, fun p alive => ?_⟩⟩
  refine (h.run i).parked_of_drained ?_ idle alive
  rw [past]
  exact (ticksOf_resumeTop c' s).trans quiet

/-- Bindings that bring a further process into the world and complete at once. -/
def fruitful : Behaviour Unit Unit :=
  { Behaviour.ofCallbacks fun _ v => .succeed v with
    start := fun _ t =>
      (Code.ask (.spawn (.receive (.code ())))).bind fun _ =>
        (Code.ask (.complete t (.succeed .unit))).bind fun _ => .ret none }

/-- One process with such a binding, which the host is about to run. -/
def parental : Machine Unit Unit :=
  let code : Code Unit Unit Unit :=
    (Code.ask (.spawn (.andThen (.native (.code ())) (.code ())))).bind fun _ =>
      (Code.ask (.drive .idle)).bind fun _ => .ret ()
  .run fruitful 2 (.load (.new .standard ()) (Procedure.ofCode code))

/-- The callback of these bindings succeeds with what it is given. -/
theorem fruitful_callback (v : Value Unit) :
    Founded fruitful (.body (Callback.run fruitful (.code ()) v)) :=
  (Founded.iff_call (.callback 0 0 ⟨0⟩)).2 (Founded.iff_ret.2 (Founded.iff_succeed.2 trivial))

theorem fruitful_native : Founded fruitful (.task (.native (.code ()))) := by
  refine Founded.iff_native.2 fun t => (Founded.iff_call .work).2 ?_
  refine (Founded.iff_answer .work rfl rfl rfl).2 ⟨fun a ha => ?_, fun _ => ?_⟩
  · exact Multiset.mem_singleton.1 ha ▸ Founded.iff_receive.2 fruitful_callback
  · refine (Founded.iff_answer .work rfl rfl rfl).2 ⟨fun a ha => ?_, fun _ => ?_⟩
    · exact Multiset.mem_singleton.1 ha ▸ Founded.iff_succeed.2 trivial
    · exact Founded.iff_over.2 trivial

/-- The process exits, and the one that it has brought into the world waits for a message. -/
theorem parental_drains :
    (∀ p x, parental.world.procs.get? p = some x → ∀ a ∈ x.residues, Founded fruitful a) ∧
    ∃ i, (Machine.run fruitful i parental).fault = some .pidsExhausted ∨
      ∃ w c, Machine.run fruitful i parental = ⟨w, Machine.resumeTop c parental.stack.tail, none⟩ ∧
        w.host.ticks = [] ∧ ∀ p, w.isAlive p = true → ∃ x, w.procs.get? p = some x ∧
          ((∃ n c, x.root = .awaiting n c) ∨ ∃ c, x.root = .ready (.receive c) ∧ x.mailbox = []) := by
  have founded : ∀ p x, parental.world.procs.get? p = some x → ∀ a ∈ x.residues, Founded fruitful a := by
    intro p x hx a ha
    obtain ⟨n⟩ := p
    have low : n < 2 := ProcTable.number_lt_of_get? hx
    match n, low with
    | 0, _ => cases hx
    | 1, _ =>
      cases hx
      obtain rfl := Multiset.mem_singleton.1 ha
      exact Founded.iff_andThen.2 ⟨fruitful_native, Founded.iff_handler.2 fruitful_callback⟩
  refine ⟨founded, ?_⟩
  have h : Reachable fruitful parental := (Reachable.new _ _ _).run 2
  exact h.drains rfl rfl rfl (fun t ht => List.mem_singleton.1 ht) founded

end Actors
