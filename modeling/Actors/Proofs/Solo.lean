/-
A process on its own.

A process whose continuations are pure can be run without a scheduler, without other processes and
without a clock: it is given all its messages and the tasks that complete its bindings in advance,
and every continuation returns at once. There is no choice in this, so two such runs from one state
differ in their lengths only.

A life in which the continuations return what is expected is a part of the run of the process on its
own, whatever comes later. What a schedule decides is how far this run has got, and nothing else.

* `Solo`, `Solo.step`, `Goes` — a process on its own, and its runs;
* `Goes.comparable` — of two runs one goes on where the other ends;
* `Life.tracks` — a life follows the run of the process on its own.
-/
import Actors.Proofs.Purity

namespace Actors

variable {κ : Type}

/-- A process on its own: all its messages are in its mailbox, and the tasks that will complete its
bindings are at hand. -/
structure Solo (κ : Type) where
  proc : Proc κ
  replies : List (Task κ)

/-- A process with a call of a continuation that returns at once. -/
def Proc.settle (f : Callback κ → Value κ → Task κ) (x : Proc κ) :
    Option (Callback κ × Value κ) → Proc κ
  | some e => { x with root := .ready (f e.1 e.2) }
  | none => x

/-- One step of a process on its own: a transition, or the completion of the binding that it
awaits. -/
def Solo.step (f : Callback κ → Value κ → Task κ) (s : Solo κ) :
    Option (Option (Move κ) × Solo κ) :=
  match s.proc.move? with
  | some mv => some (some mv, ⟨(s.proc.moved mv.task).settle f mv.entered, s.replies⟩)
  | none =>
    match s.proc.root, s.replies with
    | .awaiting _ _, t :: ts => some (none, ⟨{ s.proc with root := .ready t }, ts⟩)
    | _, _ => none

/-- The runs of a process on its own, each with its transitions. -/
inductive Goes (f : Callback κ → Value κ → Task κ) (s : Solo κ) :
    List (Move κ) → Solo κ → Prop where
  | refl : Goes f s [] s
  | snoc {ms : List (Move κ)} {s' s'' : Solo κ} {o : Option (Move κ)} (h : Goes f s ms s')
      (hs : s'.step f = some (o, s'')) : Goes f s (ms ++ o.toList) s''

namespace Goes

variable {f : Callback κ → Value κ → Task κ} {s s' s'' s₁ s₂ : Solo κ} {ms ks : List (Move κ)}

theorem one {o : Option (Move κ)} (hs : s.step f = some (o, s')) : Goes f s o.toList s' :=
  Goes.refl.snoc hs

theorem trans (h : Goes f s ms s') (h' : Goes f s' ks s'') : Goes f s (ms ++ ks) s'' := by
  induction h' with
  | refl =>
    rw [List.append_nil]
    exact h
  | snoc _ hs ih =>
    rw [← List.append_assoc]
    exact ih.snoc hs

theorem head (h : Goes f s ms s') : (s' = s ∧ ms = []) ∨
    ∃ o s₁ ks, s.step f = some (o, s₁) ∧ ms = o.toList ++ ks ∧ Goes f s₁ ks s' := by
  induction h with
  | refl => exact .inl ⟨rfl, rfl⟩
  | @snoc ms s' s'' o h hs ih =>
    right
    rcases ih with ⟨rfl, rfl⟩ | ⟨o', s₁, ks, hs₁, rfl, hk⟩
    · exact ⟨o, s'', [], hs, List.append_nil _ ▸ rfl, .refl⟩
    · exact ⟨o', s₁, ks ++ o.toList, hs₁, List.append_assoc .., hk.snoc hs⟩

theorem eq_of_stuck (h : Goes f s ms s') (stuck : s.step f = none) : s' = s ∧ ms = [] := by
  rcases h.head with h | ⟨o, s₁, ks, hs, -, -⟩
  · exact h
  · rw [stuck] at hs
    cases hs

/-- Of two runs one goes on where the other ends. -/
theorem comparable (h : Goes f s ms s₁) (h' : Goes f s ks s₂) :
    (∃ ls, ks = ms ++ ls ∧ Goes f s₁ ls s₂) ∨ ∃ ls, ms = ks ++ ls ∧ Goes f s₂ ls s₁ := by
  -- The induction shortens the first run. If the second one goes on where it ends, its next step
  -- is the same, as there is only one.
  induction h with
  | refl => exact .inl ⟨ks, rfl, h'⟩
  | @snoc ms s' s'' o h hs ih =>
    rcases ih with ⟨ls, rfl, hl⟩ | ⟨ls, rfl, hl⟩
    · rcases hl.head with ⟨rfl, rfl⟩ | ⟨o', s₁, ls, hs₁, rfl, hl⟩
      · right
        exact ⟨o.toList, by rw [List.append_nil], .one hs⟩
      · left
        obtain ⟨rfl, rfl⟩ := Prod.mk.inj (Option.some.inj (hs.symm.trans hs₁))
        exact ⟨ls, (List.append_assoc ..).symm, hl⟩
    · right
      exact ⟨ls ++ o.toList, List.append_assoc .., hl.snoc hs⟩

theorem unique (h : Goes f s ms s₁) (h' : Goes f s ks s₂) (stuck₁ : s₁.step f = none)
    (stuck₂ : s₂.step f = none) : ms = ks ∧ s₁ = s₂ := by
  rcases h.comparable h' with ⟨ls, rfl, hl⟩ | ⟨ls, rfl, hl⟩
  · obtain ⟨rfl, rfl⟩ := hl.eq_of_stuck stuck₁
    exact ⟨(List.append_nil _).symm, rfl⟩
  · obtain ⟨rfl, rfl⟩ := hl.eq_of_stuck stuck₂
    exact ⟨List.append_nil _, rfl⟩

end Goes

/-! ### Lives and runs of a process on its own -/

section

variable (f : Callback κ → Value κ → Task κ)

/-- The root of a process once the call that it has entered has returned. -/
def Root.ahead (call : Option (Callback κ × Value κ)) : Root κ → Root κ
  | .stepping => match call with
    | some e => .ready (f e.1 e.2)
    | none => .stepping
  | r => r

/-- A process once the call that it has entered has returned, with the messages to come already in
its mailbox. -/
def Proc.ahead (call : Option (Callback κ × Value κ)) (inbox : List (Value κ)) (x : Proc κ) :
    Proc κ :=
  { x with
    root := x.root.ahead f call
    mailbox := if x.isDead then x.mailbox else x.mailbox ++ inbox }

/-- A process on its own before it is started. -/
def Solo.start (t : Task κ) (inbox : List (Value κ)) (replies : List (Task κ)) : Solo κ :=
  ⟨{ Proc.start none t with mailbox := inbox }, replies⟩

/-- The deeds of a process follow the run of the process on its own, whatever messages and
completions are still to come. -/
structure Tracks (ds : Deeds κ) (o : Option (Proc κ)) : Prop where
  fresh : o = none →
    ds.moves = [] ∧ ds.accepted = [] ∧ ds.completions = [] ∧ ∀ t, .spawned t ∉ ds
  goes : ∀ x t, o = some x → .spawned t ∈ ds → ∀ inbox replies,
    Goes f (.start t (ds.accepted ++ inbox) (ds.completions ++ replies)) ds.moves
      ⟨x.ahead f ds.entered.getLast? inbox, replies⟩

end

namespace Proc

variable {f : Callback κ → Value κ → Task κ} {x : Proc κ} {mv : Move κ}
  {call : Option (Callback κ × Value κ)} {inbox : List (Value κ)}

theorem ahead_of_alive (h : x.isDead = false) :
    x.ahead f call inbox =
      { x with root := x.root.ahead f call, mailbox := x.mailbox ++ inbox } := by
  rw [ahead, if_neg (by rw [h]; exact Bool.false_ne_true)]

theorem ahead_of_ready {t : Task κ} (h : x.root = .ready t) :
    x.ahead f call inbox = { x with mailbox := x.mailbox ++ inbox } := by
  rw [ahead, isDead, h]
  rfl

theorem ahead_of_dead (h : x.root = .dead) : x.ahead f call inbox = x := by
  obtain ⟨label, root, stack, mailbox, binding, queued⟩ := x
  obtain rfl : root = .dead := h
  rfl

/-- The transition that a process makes, it also makes when more messages are in its mailbox. -/
theorem move?_ahead (can : x.move? = some mv) : (x.ahead f call inbox).move? = some mv := by
  have root : x.root = .ready mv.task := root_of_move? can
  rw [ahead_of_ready root]
  rw [move?, root] at can
  rw [move?, root]
  obtain ⟨t, entered⟩ := mv
  cases t with
  | receive c =>
    obtain ⟨v, hv, hmv⟩ := Option.map_eq_some_iff.1 can
    obtain ⟨vs, hvs⟩ := List.head?_eq_some_iff.1 hv
    show (x.mailbox ++ inbox).head?.map _ = _
    rw [hvs, List.cons_append, List.head?_cons, Option.map_some, hmv]
  | _ => exact can

/-- A transition leads to the same with more messages in the mailbox, and if the call that it enters
returns at once. -/
theorem Moves.ahead {y : Proc κ} (h : x.Moves mv y) (root : x.root = .ready mv.task) :
    ((x.ahead f call inbox).moved mv.task).settle f mv.entered =
      y.ahead f (mv.entered.or call) inbox := by
  rw [ahead_of_ready root]
  cases h with
  | outcome o =>
    rw [moved_of_outcome]
    show (handled _ (Handler.next o x.stack)).settle f _ = _
    cases Handler.next o x.stack <;> rfl
  | push pushes =>
    rw [moved_of_pushes pushes]
    rfl
  | receive c mail =>
    rw [moved, mail, List.cons_append, List.tail_cons]
    rfl
  | native g => rfl

/-- A message that arrives was the first one of those to come. -/
theorem ahead_sent (alive : x.isDead = false) {v : Value κ} :
    ({ x with mailbox := x.mailbox ++ [v] } : Proc κ).ahead f call inbox =
      x.ahead f call (v :: inbox) := by
  have alive' : ({ x with mailbox := x.mailbox ++ [v] } : Proc κ).isDead = false := alive
  rw [ahead_of_alive alive, ahead_of_alive alive', List.append_assoc]
  rfl

/-- The return of a continuation has been looked ahead to. -/
theorem ahead_returned (stepping : x.root = .stepping) {e : Callback κ × Value κ} :
    ({ x with root := .ready (f e.1 e.2) } : Proc κ).ahead f (some e) inbox =
      x.ahead f (some e) inbox := by
  obtain ⟨label, root, stack, mailbox, binding, queued⟩ := x
  obtain rfl : root = .stepping := stepping
  rfl

end Proc

namespace Solo

variable {f : Callback κ → Value κ → Task κ} {x : Proc κ} {call : Option (Callback κ × Value κ)}
  {inbox : List (Value κ)} {replies : List (Task κ)}

theorem step_completed {n : Nat} {c : Option (Cancel κ)} {t : Task κ}
    (awaiting : x.root = .awaiting n c) : step f ⟨x.ahead f call inbox, t :: replies⟩ =
      some (none, ⟨({ x with root := .ready t } : Proc κ).ahead f call inbox, replies⟩) := by
  obtain ⟨label, root, stack, mailbox, binding, queued⟩ := x
  obtain rfl : root = .awaiting n c := awaiting
  rfl

theorem step_moved {mv : Move κ} (can : x.move? = some mv) :
    step f ⟨x.ahead f call inbox, replies⟩ =
      some (some mv, ⟨(x.moved mv.task).ahead f (mv.entered.or call) inbox, replies⟩) := by
  rw [step, Proc.move?_ahead can, ← (Proc.moves can).ahead (Proc.root_of_move? can)]

end Solo

namespace Tracks

variable {f : Callback κ → Value κ → Task κ} {ds : Deeds κ} {o o' : Option (Proc κ)} {d : Deed κ}

/-- A transition is a step of the process on its own, and so is the completion of a binding. All
other deeds are prepared for. -/
theorem leads (h : Tracks f ds o) (hd : d.Leads o o') (spared : d ≠ .killed)
    (returned : ∀ t, d = .returned t → ∃ e, ds.entered.getLast? = some e ∧ t = f e.1 e.2) :
    Tracks f (ds ++ [d]) o' := by
  have before : (∀ t, d ≠ .spawned t) → ∀ t, .spawned t ∈ ds ++ [d] → .spawned t ∈ ds := by
    intro other t ht
    exact (List.mem_append.1 ht).resolve_right fun ht => other t (List.mem_singleton.1 ht).symm
  refine ⟨fun ho => ?_, fun y t hy ht inbox replies => ?_⟩
  · -- Only a dropped message leaves a name without a process.
    rw [Deeds.moves_snoc, Deeds.accepted_snoc, Deeds.completions_snoc]
    cases hd with
    | dropped v dead =>
      obtain ⟨hm, ha, hc, hs⟩ := h.fresh ho
      rw [hm, ha, hc]
      exact ⟨rfl, rfl, rfl, fun t ht => hs t (before nofun t ht)⟩
    | _ => cases ho
  · rw [Deeds.moves_snoc, Deeds.accepted_snoc, Deeds.completions_snoc, Deeds.lastCall_snoc]
    -- A message or a completion that arrives was among those to come, so the run on its own, which
    -- is for any of these, need not be changed.
    cases hd with
    | spawned u =>
      obtain ⟨hm, ha, hc, hs⟩ := h.fresh rfl
      obtain rfl := Option.some.inj hy
      have same : Deed.spawned t = .spawned u :=
        List.mem_singleton.1 ((List.mem_append.1 ht).resolve_left (hs t))
      obtain rfl := Deed.spawned.inj same
      rw [hm, ha, hc]
      exact .refl
    | @sent x v alive =>
      obtain rfl := Option.some.inj hy
      rw [Proc.ahead_sent alive]
      have goes := h.goes x t rfl (before nofun t ht) (v :: inbox) replies
      simpa [Deed.move?, Deed.message?, Deed.completion?] using goes
    | dropped v dead =>
      have goes := h.goes y t hy (before nofun t ht) inbox replies
      simpa [Deed.move?, Deed.message?, Deed.completion?] using goes
    | killed alive => exact absurd rfl spared
    | @completed x n c u awaiting =>
      obtain rfl := Option.some.inj hy
      have goes := h.goes x t rfl (before nofun t ht) inbox (u :: replies)
      have goes := goes.snoc (Solo.step_completed awaiting)
      simpa [Deed.move?, Deed.message?, Deed.completion?] using goes
    | @moved x mv can =>
      obtain rfl := Option.some.inj hy
      have goes := h.goes x t rfl (before nofun t ht) inbox replies
      have goes := goes.snoc (Solo.step_moved can)
      simpa [Deed.move?, Deed.message?, Deed.completion?] using goes
    | @returned x u stepping =>
      obtain rfl := Option.some.inj hy
      obtain ⟨e, he, rfl⟩ := returned u rfl
      have goes := h.goes x t rfl (before nofun t ht) inbox replies
      rw [he, ← Proc.ahead_returned stepping] at goes
      simpa [Deed.move?, Deed.message?, Deed.completion?, he] using goes

end Tracks

/-- A life in which the continuations return what is expected follows the run of the process on its
own. -/
theorem Life.tracks {f : Callback κ → Value κ → Task κ} {ds : Deeds κ} {o : Option (Proc κ)}
    (l : Life none ds o) (faithful : ds.Faithful f) (spared : .killed ∉ ds) : Tracks f ds o := by
  induction l with
  | refl => exact ⟨fun _ => ⟨rfl, rfl, rfl, fun _ => List.not_mem_nil⟩, nofun⟩
  | @snoc o₁ o₂ ds d l hd ih =>
    have tracks := ih (fun es t h => faithful es t (h.trans (List.prefix_append _ _)))
      fun h => spared (List.mem_append_left _ h)
    refine tracks.leads hd (fun h => spared ?_) fun t ht => ?_
    · rw [h]
      exact List.mem_append_right _ (List.mem_singleton.2 rfl)
    · rw [ht] at faithful
      exact faithful ds t List.prefix_rfl

variable {σ : Type} {b : Behaviour κ σ}

/-- In every run a process with pure continuations follows its run on its own, with the messages
that it gets and the completions of its bindings. -/
theorem History.goes {f : Callback κ → Value κ → Task κ} {T : Task κ → Prop}
    {P : Callback κ → Prop} {m : Machine κ σ} {r : Record κ} (h : History b m r)
    (pure : PureOn b f T P) {p : Pid} {t : Task κ} (ht : T t) (spawned : .spawned t ∈ r.of p)
    (spared : .killed ∉ r.of p)
    (completed : (∃ g, T (.native g)) → ∀ u ∈ (r.of p).completions, T u) :
    ∃ x, m.world.procs.get? p = some x ∧ x.bare.Within T P ∧ ∀ inbox replies,
      Goes f (.start t ((r.of p).accepted ++ inbox) ((r.of p).completions ++ replies))
        (r.of p).moves ⟨x.bare.ahead f (r.of p).entered.getLast? inbox, replies⟩ := by
  have life : Life none (r.of p) (m.world.bare p) := h.life p
  obtain ⟨fresh, unique⟩ := life.spawned_unique
  -- As the process is started once, the task that is known is the only one it is started with.
  have conforms := h.pure pure p (fun u hu => unique t u spawned hu ▸ ht) fun hg u hu =>
    completed hg u (List.mem_filterMap.2 ⟨_, hu, rfl⟩)
  have tracks := life.tracks conforms.faithful spared
  cases hx : m.world.procs.get? p with
  | none =>
    have none : m.world.bare p = none := by rw [World.bare, hx, Option.map_none]
    exact absurd spawned (fresh none t)
  | some x =>
    have bare : m.world.bare p = some x.bare := World.bare_of_get? hx
    exact ⟨x, rfl, conforms.within x.bare bare, tracks.goes x.bare t bare spawned⟩

end Actors
