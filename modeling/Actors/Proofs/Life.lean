/-
The life of one process.

What a run does to one process is a list of deeds: the process is started, messages reach its
mailbox, it makes transitions, a continuation that it has entered returns, a binding that it waits
for is completed, it is killed. Each deed is possible in some states of the process only, and it
leads to exactly one further state. Nothing here knows of the work queue, of the step budget or of
other processes.

* `Proc.move?` and `Proc.moved` — the transition that a process can make, and what it becomes;
* `Proc.Moves` — the kinds of transition, over which everything about single transitions is proved;
* `Proc.bare` — a process without what is noted about it from outside;
* `Deed`, `Deed.Leads` — what can be done to a process, when, and with what effect;
* `Life` — sequences of deeds, and `Deeds.moves` and so on, what is read off them.
-/
import Actors.Run

namespace Actors

variable {κ : Type}

/-- A transition of a process: the task that it consumes, and the continuation that it enters with
the value that is passed on, if it enters one. -/
structure Move (κ : Type) where
  task : Task κ
  entered : Option (Callback κ × Value κ)

/-- The outcome with which a process exits by a transition: a success or a failure that no handler
is left for. -/
def Move.outcome? : Move κ → Option (Except (Value κ) (Value κ))
  | ⟨.succeed v, none⟩ => some (.ok v)
  | ⟨.fail v, none⟩ => some (.error v)
  | _ => none

/-- The continuation that a transition puts on the stack, or takes from the root because its message
is there. -/
def Move.offered? : Move κ → Option (Callback κ)
  | ⟨.andThen _ c, _⟩ => some c
  | ⟨.onError _ c, _⟩ => some c
  | ⟨.receive c, _⟩ => some c
  | _ => none

/-- The message that a transition takes out of the mailbox. -/
def Move.consumed? : Move κ → Option (Value κ)
  | ⟨.receive _, some (_, v)⟩ => some v
  | _ => none

namespace Proc

/-- The transition that a process can make. A process that waits for a message makes none while
its mailbox is empty, and neither does one that awaits a binding. -/
def move? (x : Proc κ) : Option (Move κ) :=
  match x.root with
  | .ready (.succeed v) =>
    some ⟨.succeed v, (Handler.nextSuccess x.stack).map fun e => (e.1, v)⟩
  | .ready (.fail v) => some ⟨.fail v, (Handler.nextFailure x.stack).map fun e => (e.1, v)⟩
  | .ready (.andThen t c) => some ⟨.andThen t c, none⟩
  | .ready (.onError t c) => some ⟨.onError t c, none⟩
  | .ready (.receive c) => x.mailbox.head?.map fun v => ⟨.receive c, some (c, v)⟩
  | .ready (.native n) => some ⟨.native n, none⟩
  | _ => none

/-- The process once its outcome has gone to a handler, or has found none. -/
def handled (x : Proc κ) : Option (Callback κ × List (Handler κ)) → Proc κ
  | some e => { x with root := .stepping, stack := e.2 }
  | none => x.killed

/-- The process after a transition that consumes a task. -/
def moved (x : Proc κ) : Task κ → Proc κ
  | .succeed _ => x.handled (Handler.nextSuccess x.stack)
  | .fail _ => x.handled (Handler.nextFailure x.stack)
  | .andThen t c => { x with root := .ready t, stack := .onSuccess c :: x.stack }
  | .onError t c => { x with root := .ready t, stack := .onFailure c :: x.stack }
  | .receive _ => { x with root := .stepping, mailbox := x.mailbox.tail }
  | .native _ => { x with root := .awaiting (x.binding + 1) none, binding := x.binding + 1 }

theorem root_of_move? {x : Proc κ} {mv : Move κ} (h : x.move? = some mv) :
    x.root = .ready mv.task := by
  obtain ⟨label, root, stack, mailbox, binding, queued⟩ := x
  cases root with
  | ready t =>
    cases t with
    | receive c =>
      obtain ⟨v, -, rfl⟩ := Option.map_eq_some_iff.1 h
      rfl
    | _ =>
      obtain rfl := Option.some.inj h
      rfl
  | _ => cases h

/-- A process that makes no transition has no task up next, or waits for a message and has none. -/
theorem move?_eq_none {x : Proc κ} (h : x.move? = none) {t : Task κ} (ht : x.root = .ready t) :
    ∃ c, t = .receive c ∧ x.mailbox = [] := by
  unfold move? at h
  rw [ht] at h
  cases t <;> simp_all

end Proc

/-! ### The kinds of transition -/

namespace Handler

def callback : Handler κ → Callback κ
  | .onSuccess c => c
  | .onFailure c => c

/-- The handler that an outcome goes to, and the stack below it. -/
def next :
    Except (Value κ) (Value κ) → List (Handler κ) → Option (Callback κ × List (Handler κ))
  | .ok _, s => nextSuccess s
  | .error _, s => nextFailure s

/-- The handler of an outcome, and the stack below it, are part of the stack. -/
theorem sublist_of_next {o : Except (Value κ) (Value κ)} {s : List (Handler κ)}
    {e : Callback κ × List (Handler κ)} (he : next o s = some e) :
    ∃ h : Handler κ, h.callback = e.1 ∧ List.Sublist (h :: e.2) s := by
  obtain ⟨c, rest⟩ := e
  cases o with
  | ok v =>
    obtain ⟨skipped, rfl⟩ := nextSuccess_eq_some.1 he
    exact ⟨.onSuccess c, rfl, List.sublist_append_right _ _⟩
  | error v =>
    obtain ⟨skipped, rfl⟩ := nextFailure_eq_some.1 he
    exact ⟨.onFailure c, rfl, List.sublist_append_right _ _⟩

end Handler

/-- The value that an outcome passes on. -/
def passed : Except (Value κ) (Value κ) → Value κ
  | .ok v => v
  | .error v => v

/-- A task that puts a handler on the stack, with the task that comes first. -/
inductive Pushes : Task κ → Task κ → Handler κ → Prop where
  | andThen (t : Task κ) (c : Callback κ) : Pushes (.andThen t c) t (.onSuccess c)
  | onError (t : Task κ) (c : Callback κ) : Pushes (.onError t c) t (.onFailure c)

/-- The kinds of transition, each with the process that it leads to. The two outcomes are alike, and
so are the two tasks with a handler. -/
inductive Proc.Moves (x : Proc κ) : Move κ → Proc κ → Prop where
  | outcome (o : Except (Value κ) (Value κ)) :
      Moves x ⟨.ofResult o, (Handler.next o x.stack).map fun e => (e.1, passed o)⟩
        (x.handled (Handler.next o x.stack))
  | push {u t : Task κ} {h : Handler κ} (pushes : Pushes u t h) :
      Moves x ⟨u, none⟩ { x with root := .ready t, stack := h :: x.stack }
  | receive (c : Callback κ) {v : Value κ} {vs : List (Value κ)} (mail : x.mailbox = v :: vs) :
      Moves x ⟨.receive c, some (c, v)⟩ { x with root := .stepping, mailbox := vs }
  | native (g : Binding κ) :
      Moves x ⟨.native g, none⟩
        { x with root := .awaiting (x.binding + 1) none, binding := x.binding + 1 }

namespace Proc

variable {x y : Proc κ} {mv : Move κ}

/-- Every transition is of one of the kinds. -/
theorem moves (can : x.move? = some mv) : x.Moves mv (x.moved mv.task) := by
  have root : x.root = .ready mv.task := root_of_move? can
  rw [move?, root] at can
  obtain ⟨t, entered⟩ := mv
  -- The task that is up decides the kind; only to receive something is more needed, a message.
  cases t with
  | succeed v =>
    obtain ⟨-, rfl⟩ := Move.mk.inj (Option.some.inj can)
    exact .outcome (.ok v)
  | fail v =>
    obtain ⟨-, rfl⟩ := Move.mk.inj (Option.some.inj can)
    exact .outcome (.error v)
  | andThen t c =>
    obtain ⟨-, rfl⟩ := Move.mk.inj (Option.some.inj can)
    exact .push (.andThen t c)
  | onError t c =>
    obtain ⟨-, rfl⟩ := Move.mk.inj (Option.some.inj can)
    exact .push (.onError t c)
  | receive c =>
    obtain ⟨v, hv, hmv⟩ := Option.map_eq_some_iff.1 can
    obtain ⟨-, rfl⟩ := Move.mk.inj hmv
    obtain ⟨vs, hvs⟩ := List.head?_eq_some_iff.1 hv
    rw [moved, hvs, List.tail_cons]
    exact .receive c hvs
  | native g =>
    obtain ⟨-, rfl⟩ := Move.mk.inj (Option.some.inj can)
    exact .native g

theorem move?_of_outcome {o : Except (Value κ) (Value κ)} (h : x.root = .ready (.ofResult o)) :
    x.move? =
      some ⟨.ofResult o, (Handler.next o x.stack).map fun e => (e.1, passed o)⟩ := by
  rw [move?, h]
  cases o <;> rfl

theorem moved_of_outcome {o : Except (Value κ) (Value κ)} :
    x.moved (.ofResult o) = x.handled (Handler.next o x.stack) := by
  cases o <;> rfl

theorem move?_of_pushes {u t : Task κ} {h : Handler κ} (pushes : Pushes u t h)
    (root : x.root = .ready u) : x.move? = some ⟨u, none⟩ := by
  rw [move?, root]
  cases pushes <;> rfl

theorem moved_of_pushes {u t : Task κ} {h : Handler κ} (pushes : Pushes u t h) :
    x.moved u = { x with root := .ready t, stack := h :: x.stack } := by
  cases pushes <;> rfl

namespace Moves

/-- A process that enters a continuation is in a step until the continuation returns. -/
theorem root_of_entered (h : x.Moves mv y) {e : Callback κ × Value κ}
    (he : mv.entered = some e) : y.root = .stepping := by
  cases h with
  | outcome o =>
    obtain ⟨e', hn, -⟩ := Option.map_eq_some_iff.1 he
    rw [hn, handled]
  | push pushes => cases he
  | receive c mail => rfl
  | native g => cases he

theorem root_of_outcome (h : x.Moves mv y) {r : Except (Value κ) (Value κ)}
    (hr : mv.outcome? = some r) : y.root = .dead := by
  cases h with
  | outcome o =>
    cases hn : Handler.next o x.stack with
    | none => rfl
    | some e =>
      rw [hn] at hr
      cases o <;> cases hr
  | push pushes => cases pushes <;> cases hr
  | receive c mail => cases hr
  | native g => cases hr

/-- A process that starts a binding enters no continuation. -/
theorem entered_of_native (h : x.Moves mv y) {g : Binding κ} (hg : mv.task = .native g) :
    mv.entered = none := by
  cases h with
  | outcome o => cases o <;> cases hg
  | receive c mail => cases hg
  | _ => rfl

/-- A transition does not move a process into the work queue, or out of it. -/
theorem queued (h : x.Moves mv y) : y.queued = x.queued := by
  cases h with
  | outcome o => cases Handler.next o x.stack <;> rfl
  | _ => rfl

end Moves

end Proc

/-! ### What is noted about a process from outside -/

/-- A root without what calls its binding off. -/
def Root.bare : Root κ → Root κ
  | .awaiting n _ => .awaiting n none
  | r => r

theorem Root.isDead_iff {r : Root κ} : r.isDead = true ↔ r = .dead := by
  cases r <;> simp [Root.isDead]

theorem Root.bare_eq_dead {r : Root κ} : r.bare = .dead ↔ r = .dead := by
  cases r <;> simp [Root.bare]

theorem Root.bare_eq_stepping {r : Root κ} : r.bare = .stepping ↔ r = .stepping := by
  cases r <;> simp [Root.bare]

namespace Proc

/-- A process without its label, its place in the work queue and what calls its binding off: what
is left decides by itself which transitions the process makes. -/
def bare (x : Proc κ) : Proc κ :=
  { x with label := none, root := x.root.bare, queued := false }

@[simp] theorem bare_root (x : Proc κ) : x.bare.root = x.root.bare := rfl

@[simp] theorem bare_stack (x : Proc κ) : x.bare.stack = x.stack := rfl

theorem isDead_iff {x : Proc κ} : x.isDead = true ↔ x.root = .dead :=
  Root.isDead_iff

theorem isDead_of_ready {x : Proc κ} {t : Task κ} (root : x.root = .ready t) : x.isDead = false :=
  congrArg Root.isDead root

@[simp] theorem isDead_bare (x : Proc κ) : x.bare.isDead = x.isDead := by
  rw [Bool.eq_iff_iff, isDead_iff, isDead_iff, bare_root, Root.bare_eq_dead]

@[simp] theorem move?_bare (x : Proc κ) : x.bare.move? = x.move? := by
  obtain ⟨label, root, stack, mailbox, binding, queued⟩ := x
  cases root <;> rfl

@[simp] theorem bare_moved (x : Proc κ) (t : Task κ) : (x.moved t).bare = x.bare.moved t := by
  cases t with
  | succeed v => cases h : Handler.nextSuccess x.stack <;> simp [moved, handled, h] <;> rfl
  | fail v => cases h : Handler.nextFailure x.stack <;> simp [moved, handled, h] <;> rfl
  | andThen t c => rfl
  | onError t c => rfl
  | receive c => rfl
  | native n => rfl

end Proc

/-! ### Deeds -/

/-- What can be done to a process. -/
inductive Deed (κ : Type) where
  /-- The process is started with a task. -/
  | spawned (t : Task κ)
  /-- A message is sent to the process, which is alive. -/
  | sent (v : Value κ)
  /-- A message is sent to a process that is not alive. -/
  | dropped (v : Value κ)
  | killed
  /-- The binding that the process awaits is completed with a task. -/
  | completed (t : Task κ)
  | moved (mv : Move κ)
  /-- The continuation that the process has entered returns the next task. -/
  | returned (t : Task κ)

/-- What has been done to one process, in order. -/
abbrev Deeds (κ : Type) := List (Deed κ)

/-- When a deed can be done to a process, and what the process is afterwards. There is no process
before it is started; it is described without what is noted about it from outside. -/
inductive Deed.Leads : Deed κ → Option (Proc κ) → Option (Proc κ) → Prop where
  | spawned (t : Task κ) : Leads (.spawned t) none (some (.start none t))
  | sent {x : Proc κ} (v : Value κ) (alive : x.isDead = false) :
      Leads (.sent v) (some x) (some { x with mailbox := x.mailbox ++ [v] })
  | dropped {o : Option (Proc κ)} (v : Value κ) (dead : ∀ x ∈ o, x.isDead = true) :
      Leads (.dropped v) o o
  | killed {x : Proc κ} (alive : x.isDead = false) : Leads .killed (some x) (some x.killed)
  | completed {x : Proc κ} {n : Nat} {c : Option (Cancel κ)} (t : Task κ)
      (awaiting : x.root = .awaiting n c) :
      Leads (.completed t) (some x) (some { x with root := .ready t })
  | moved {x : Proc κ} {mv : Move κ} (can : x.move? = some mv) :
      Leads (.moved mv) (some x) (some (x.moved mv.task))
  | returned {x : Proc κ} (t : Task κ) (stepping : x.root = .stepping) :
      Leads (.returned t) (some x) (some { x with root := .ready t })

/-- The deeds that lead from one state of a process to another. -/
inductive Life : Option (Proc κ) → Deeds κ → Option (Proc κ) → Prop where
  | refl (o : Option (Proc κ)) : Life o [] o
  | snoc {o o' o'' : Option (Proc κ)} {ds : Deeds κ} {d : Deed κ} (l : Life o ds o')
      (h : d.Leads o' o'') : Life o (ds ++ [d]) o''

theorem Life.one {o o' : Option (Proc κ)} {d : Deed κ} (h : d.Leads o o') : Life o [d] o' :=
  .snoc (.refl o) h

theorem Life.trans {o o' o'' : Option (Proc κ)} {ds es : Deeds κ} (h : Life o ds o')
    (h' : Life o' es o'') : Life o (ds ++ es) o'' := by
  induction h' with
  | refl => rwa [List.append_nil]
  | snoc _ hd ih =>
    rw [← List.append_assoc]
    exact .snoc ih hd

theorem Life.eq_of_nil {o o' : Option (Proc κ)} {ds : Deeds κ} (l : Life o ds o')
    (h : ds = []) : o = o' := by
  cases l with
  | refl => rfl
  | snoc l hd => cases (List.append_eq_nil_iff.1 h).2

theorem Life.leads {o o' : Option (Proc κ)} {d : Deed κ} (l : Life o [d] o') : d.Leads o o' := by
  -- A life is taken apart at its last deed, so the list must be a variable first.
  generalize hds : [d] = ds at l
  cases l with
  | refl => cases hds
  | @snoc o₁ _ es e l hd =>
    obtain ⟨hes, he⟩ := List.append_inj' (show [] ++ [d] = es ++ [e] from hds) rfl
    obtain rfl := List.singleton_inj.1 he
    rwa [l.eq_of_nil hes.symm]

/-- A process is started once. -/
theorem Life.spawned_unique {ds : Deeds κ} {o : Option (Proc κ)} (l : Life none ds o) :
    (o = none → ∀ t, .spawned t ∉ ds) ∧
      ∀ t u, .spawned t ∈ ds → .spawned u ∈ ds → t = u := by
  -- That there is no process before its start is what rules out a second start.
  induction l with
  | refl => exact ⟨fun _ _ => List.not_mem_nil, nofun⟩
  | @snoc o₁ o₂ ds d l hd ih =>
    obtain ⟨fresh, unique⟩ := ih
    have split : ∀ t, .spawned t ∈ ds ++ [d] → .spawned t ∈ ds ∨ d = .spawned t := fun t ht =>
      (List.mem_append.1 ht).imp_right fun ht => (List.mem_singleton.1 ht).symm
    by_cases hs : ∃ t, d = .spawned t
    · obtain ⟨t, rfl⟩ := hs
      cases hd
      refine ⟨nofun, fun u v hu hv => ?_⟩
      have hu := Deed.spawned.inj ((split u hu).resolve_left (fresh rfl u))
      have hv := Deed.spawned.inj ((split v hv).resolve_left (fresh rfl v))
      exact hu.symm.trans hv
    · have before : ∀ t, .spawned t ∈ ds ++ [d] → .spawned t ∈ ds := fun t ht =>
        (split t ht).resolve_right fun h => hs ⟨t, h⟩
      refine ⟨fun ho t ht => ?_, fun t u ht hu => unique t u (before t ht) (before u hu)⟩
      cases hd with
      | dropped v dead => exact fresh ho t (before t ht)
      | _ => cases ho

namespace Deed

def move? : Deed κ → Option (Move κ)
  | moved mv => some mv
  | _ => none

/-- Whether the process itself does it, and not somebody else. -/
def isOwn : Deed κ → Bool
  | moved _ => true
  | returned _ => true
  | _ => false

def message? : Deed κ → Option (Value κ)
  | sent v => some v
  | _ => none

def completion? : Deed κ → Option (Task κ)
  | completed t => some t
  | _ => none

end Deed

theorem filterMap_snoc {α β : Type} (g : α → Option β) (l : List α) (a : α) :
    (l ++ [a]).filterMap g = l.filterMap g ++ (g a).toList := by
  rw [List.filterMap_append]
  cases h : g a with
  | none => rw [List.filterMap_cons_none h]; rfl
  | some x => rw [List.filterMap_cons_some h]; rfl

namespace Deeds

/-- The transitions that a process has made. -/
def moves (ds : Deeds κ) : List (Move κ) :=
  ds.filterMap Deed.move?

/-- The messages sent to a process while it was alive. -/
def accepted (ds : Deeds κ) : List (Value κ) :=
  ds.filterMap Deed.message?

/-- The messages that a process has taken out of its mailbox. -/
def consumed (ds : Deeds κ) : List (Value κ) :=
  ds.moves.filterMap Move.consumed?

/-- The tasks that have completed the bindings of a process. -/
def completions (ds : Deeds κ) : List (Task κ) :=
  ds.filterMap Deed.completion?

/-- The continuations that a process has entered, each with the value it was given. -/
def entered (ds : Deeds κ) : List (Callback κ × Value κ) :=
  ds.moves.filterMap Move.entered

/-- The continuations that a process has put on its stack, and those that it has taken from its root
when their messages were there. -/
def offered (ds : Deeds κ) : List (Callback κ) :=
  ds.moves.filterMap Move.offered?

/-- The outcome with which a process has exited. -/
def outcome? (ds : Deeds κ) : Option (Except (Value κ) (Value κ)) :=
  ds.moves.findSome? Move.outcome?

variable (ds : Deeds κ) (d : Deed κ)

-- What is read off a life is read off its deeds one after the other.

theorem moves_snoc : moves (ds ++ [d]) = ds.moves ++ d.move?.toList :=
  filterMap_snoc Deed.move? ds d

theorem accepted_snoc : accepted (ds ++ [d]) = ds.accepted ++ d.message?.toList :=
  filterMap_snoc Deed.message? ds d

theorem completions_snoc : completions (ds ++ [d]) = ds.completions ++ d.completion?.toList :=
  filterMap_snoc Deed.completion? ds d

theorem read_snoc {α : Type} (g : Move κ → Option α) :
    (moves (ds ++ [d])).filterMap g = ds.moves.filterMap g ++ (d.move?.bind g).toList := by
  rw [moves_snoc, List.filterMap_append]
  cases d.move? with
  | none => rfl
  | some mv => rw [Option.toList_some, ← List.nil_append [mv], filterMap_snoc]; rfl

theorem consumed_snoc :
    consumed (ds ++ [d]) = ds.consumed ++ (d.move?.bind Move.consumed?).toList :=
  ds.read_snoc d Move.consumed?

theorem entered_snoc : entered (ds ++ [d]) = ds.entered ++ (d.move?.bind Move.entered).toList :=
  ds.read_snoc d Move.entered

theorem offered_snoc : offered (ds ++ [d]) = ds.offered ++ (d.move?.bind Move.offered?).toList :=
  ds.read_snoc d Move.offered?

theorem lastCall_snoc :
    (entered (ds ++ [d])).getLast? = (d.move?.bind Move.entered).or ds.entered.getLast? := by
  rw [entered_snoc, List.getLast?_append]
  cases d.move?.bind Move.entered <;> rfl

end Deeds

/-- What has been done to processes, in order, each deed with the process it was done to. -/
abbrev Record (κ : Type) := List (Pid × Deed κ)

/-- What has been done to one of the processes. -/
def Record.of (r : Record κ) (p : Pid) : Deeds κ :=
  (r.filter fun e => e.1 = p).map Prod.snd

namespace Record

@[simp] theorem of_nil (p : Pid) : Record.of ([] : Record κ) p = [] := rfl

theorem of_append (r s : Record κ) (p : Pid) : Record.of (r ++ s) p = r.of p ++ s.of p := by
  simp only [Record.of, List.filter_append, List.map_append]

theorem of_singleton (q : Pid) (d : Deed κ) (p : Pid) :
    Record.of [(q, d)] p = if q = p then [d] else [] := by
  by_cases h : q = p <;> simp [Record.of, h]

theorem mem_of {r : Record κ} {p : Pid} {d : Deed κ} : d ∈ r.of p ↔ (p, d) ∈ r := by
  rw [Record.of, List.mem_map]
  constructor
  · rintro ⟨⟨q, e⟩, he, rfl⟩
    obtain ⟨he, hq⟩ := List.mem_filter.1 he
    rwa [← of_decide_eq_true hq]
  · intro h
    exact ⟨(p, d), List.mem_filter.2 ⟨h, decide_eq_true rfl⟩, rfl⟩

end Record

end Actors
