/-
What is left to be done.

A process consumes its task one constructor at a time. What is left of the task at any moment is its
root, the continuations on its stack, the code that runs for it, and what would call its binding off.
Each of these residues turns into others that are parts of it: a continuation into the code that it
runs, code into the rest of it and the tasks that it brings into the world. A residue is founded if it
turns into parts for ever on no path; a task that is a well-founded tree is. Over the multisets of
founded residues the order that replaces one of them by parts of it is well-founded, however many parts
there are.

* `Residue`, `Part` — what can be left, and what it turns into;
* `Founded` — residues that come to an end, with `Founded.iff_andThen` and its like for each constructor;
* `Consumes` — one residue of a multiset is replaced by parts of it, and `Founded.acc`: that comes to an
  end;
* `World.residues` — what the processes of a world are left with;
* `Directive.spends` — what a directive of code adds to that.
-/
import Actors.Proofs.Stock
import Mathlib.Algebra.BigOperators.Group.Finset.Basic
import Mathlib.Algebra.Order.BigOperators.Group.Finset
import Mathlib.Data.Multiset.AddSub
import Mathlib.Logic.Hydra

namespace Actors

variable {κ σ α : Type} {b : Behaviour κ σ}

open Procedure

/-! ### Residues and their parts -/

/-- Something that is left to be done. -/
inductive Residue (κ σ : Type) where
  | task (t : Task κ)
  | handler (c : Callback κ)
  /-- The code of a continuation. -/
  | body (code : Procedure κ σ (Task κ))
  /-- The start of a binding, or what calls one off. -/
  | work (code : Procedure κ σ Unit)

/-- Code that is part of something, as a residue. -/
def Frame.residue : Frame κ σ α → Procedure κ σ α → Residue κ σ
  | .work, x => .work x
  | .callback .., x => .body x
  | .starting .., x => .work x

namespace Directive

/-- Whether a directive neither lets the host run nor defers code to it, and breaks no contract. -/
def isMild : Directive κ σ → Bool
  | .request (.drive _) => false
  | .request (.defer _) => false
  | .request (.model _) => false
  | _ => true

/-- Whether a directive is answered by user code alone. -/
def isCall : Directive κ σ → Bool
  | .invoke _ => true
  | .request (.build _) => true
  | .request (.convert ..) => true
  | _ => false

/-- The code that a directive expands into by itself. -/
def expansion? (b : Behaviour κ σ) : (d : Directive κ σ) → Option (Procedure κ σ d.Reply)
  | .invoke c => some (ofCode (b.code c))
  | .request (.build c) => some (Procedure.invoke (.build c))
  | .request (.convert c v) => some (Procedure.invoke (.convert c v))
  | .request (.spawnWith c) => some (Procedure.spawnWith c)
  | .request (.start c) => some ((Program.start b c).bind fun r => .ret (some r))
  | _ => none

/-- What a directive brings into the world. -/
def brings : Directive κ σ → Multiset (Residue κ σ)
  | .request (.spawn t) => {.task t}
  | .request (.complete _ t) => {.task t}
  | .settle _ t => {.task t}
  | .install _ _ t => {.task t}
  | .attach _ c => {.work (Procedure.invoke (.thunk c))}
  | _ => 0

end Directive

/-- Code breaks no contract by itself, and performs only mild directives. -/
def Residue.IsMild : Residue κ σ → Prop
  | .body (.op d _) => Directive.isMild d = true
  | .work (.op d _) => Directive.isMild d = true
  | .body (.raise _) => False
  | .work (.raise _) => False
  | _ => True

/-- What a residue turns into. -/
inductive Part (b : Behaviour κ σ) : Residue κ σ → Residue κ σ → Prop where
  | first {u t : Task κ} {h : Handler κ} (pushes : Pushes u t h) : Part b (.task t) (.task u)
  | pushed {u t : Task κ} {h : Handler κ} (pushes : Pushes u t h) :
      Part b (.handler h.callback) (.task u)
  | received (c : Callback κ) (v : Value κ) : Part b (.body (c.run b v)) (.task (.receive c))
  | started (g : Binding κ) (t : Ticket) : Part b (.work (g.start b t)) (.task (.native g))
  | entered (c : Callback κ) (v : Value κ) : Part b (.body (c.run b v)) (.handler c)
  | returned (t : Task κ) : Part b (.task t) (.body (.ret t))
  | bodyAnswered {d : Directive κ σ} {k : d.Reply → Procedure κ σ (Task κ)} (r : d.Reply)
      (plain : d.isCall = false) : Part b (.body (k r)) (.body (.op d k))
  | bodyCalled {d : Directive κ σ} {k : d.Reply → Procedure κ σ (Task κ)}
      {y : Procedure κ σ d.Reply} (h : d.expansion? b = some y) :
      Part b (.body (y.bind k)) (.body (.op d k))
  | bodyBrings {d : Directive κ σ} {k : d.Reply → Procedure κ σ (Task κ)} {a : Residue κ σ}
      (h : a ∈ d.brings) : Part b a (.body (.op d k))
  | workAnswered {d : Directive κ σ} {k : d.Reply → Procedure κ σ Unit} (r : d.Reply)
      (plain : d.isCall = false) : Part b (.work (k r)) (.work (.op d k))
  | workCalled {d : Directive κ σ} {k : d.Reply → Procedure κ σ Unit}
      {y : Procedure κ σ d.Reply} (h : d.expansion? b = some y) :
      Part b (.work (y.bind k)) (.work (.op d k))
  | workBrings {d : Directive κ σ} {k : d.Reply → Procedure κ σ Unit} {a : Residue κ σ}
      (h : a ∈ d.brings) : Part b a (.work (.op d k))

/-- A residue that comes to an end, whatever is replied to its code and whatever values it is given: it
is mild, and so are its parts, the parts of these, and so on for finitely many times. -/
inductive Founded (b : Behaviour κ σ) : Residue κ σ → Prop where
  | intro (a : Residue κ σ) (mild : a.IsMild) (parts : ∀ a', Part b a' a → Founded b a') : Founded b a

namespace Founded

variable {a a' : Residue κ σ}

theorem mild (h : Founded b a) : a.IsMild := by
  cases h with
  | intro _ mild _ => exact mild

theorem part (h : Founded b a) (p : Part b a' a) : Founded b a' := by
  cases h with
  | intro _ _ parts => exact parts a' p

/-! A founded task is a tree of finite depth: founded tasks and continuations below each other, code at
its continuations. -/

theorem iff_succeed {v : Value κ} : Founded b (.task (.succeed v)) ↔ True :=
  iff_true_intro (.intro _ trivial fun _ p => by cases p with
    | first pushes => cases pushes
    | pushed pushes => cases pushes)

theorem iff_fail {v : Value κ} : Founded b (.task (.fail v)) ↔ True :=
  iff_true_intro (.intro _ trivial fun _ p => by cases p with
    | first pushes => cases pushes
    | pushed pushes => cases pushes)

theorem iff_andThen {t : Task κ} {c : Callback κ} :
    Founded b (.task (.andThen t c)) ↔ Founded b (.task t) ∧ Founded b (.handler c) := by
  refine ⟨fun h => ⟨h.part (.first (.andThen t c)), h.part (.pushed (.andThen t c))⟩, fun h =>
    .intro _ trivial fun _ p => ?_⟩
  cases p with
  | first pushes => cases pushes; exact h.1
  | pushed pushes => cases pushes; exact h.2

theorem iff_onError {t : Task κ} {c : Callback κ} :
    Founded b (.task (.onError t c)) ↔ Founded b (.task t) ∧ Founded b (.handler c) := by
  refine ⟨fun h => ⟨h.part (.first (.onError t c)), h.part (.pushed (.onError t c))⟩, fun h =>
    .intro _ trivial fun _ p => ?_⟩
  cases p with
  | first pushes => cases pushes; exact h.1
  | pushed pushes => cases pushes; exact h.2

theorem iff_receive {c : Callback κ} :
    Founded b (.task (.receive c)) ↔ ∀ v, Founded b (.body (c.run b v)) := by
  refine ⟨fun h v => h.part (.received c v), fun h => .intro _ trivial fun _ p => ?_⟩
  cases p with
  | first pushes => cases pushes
  | pushed pushes => cases pushes
  | received _ v => exact h v

theorem iff_native {g : Binding κ} :
    Founded b (.task (.native g)) ↔ ∀ t, Founded b (.work (g.start b t)) := by
  refine ⟨fun h t => h.part (.started g t), fun h => .intro _ trivial fun _ p => ?_⟩
  cases p with
  | first pushes => cases pushes
  | pushed pushes => cases pushes
  | started _ t => exact h t

theorem iff_handler {c : Callback κ} :
    Founded b (.handler c) ↔ ∀ v, Founded b (.body (c.run b v)) := by
  refine ⟨fun h v => h.part (.entered c v), fun h => .intro _ trivial fun _ p => ?_⟩
  cases p with
  | entered _ v => exact h v

theorem iff_ret {t : Task κ} : Founded b (.body (.ret t)) ↔ Founded b (.task t) := by
  refine ⟨fun h => h.part (.returned t), fun h => .intro _ trivial fun _ p => ?_⟩
  cases p
  exact h

theorem iff_over {u : Unit} : Founded b (.work (.ret u)) ↔ True :=
  iff_true_intro (.intro _ trivial fun _ p => by cases p)

/-- Code that performs a directive is founded if the directive is mild, what it brings into the world is
founded, and what follows it is. -/
theorem iff_op (fr : Frame κ σ α) {d : Directive κ σ} {k : d.Reply → Procedure κ σ α} :
    Founded b (fr.residue (.op d k)) ↔ d.isMild = true ∧ (∀ a ∈ d.brings, Founded b a) ∧
      (d.isCall = false → ∀ r, Founded b (fr.residue (k r))) ∧
      ∀ y, d.expansion? b = some y → Founded b (fr.residue (y.bind k)) := by
  -- The parts of code are the same in all frames, but the two kinds of code have constructors of
  -- their own.
  have body : ∀ {k : d.Reply → Procedure κ σ (Task κ)}, Founded b (.body (.op d k)) ↔
      d.isMild = true ∧ (∀ a ∈ d.brings, Founded b a) ∧
        (d.isCall = false → ∀ r, Founded b (.body (k r))) ∧
        ∀ y, d.expansion? b = some y → Founded b (.body (y.bind k)) := by
    refine fun {k} => ⟨fun h => ⟨h.mild, fun a ha => h.part (.bodyBrings ha),
      fun plain r => h.part (.bodyAnswered r plain), fun y hy => h.part (.bodyCalled hy)⟩,
      fun ⟨mild, brings, answered, called⟩ => .intro _ mild fun _ p => ?_⟩
    cases p with
    | bodyAnswered r plain => exact answered plain r
    | bodyCalled hy => exact called _ hy
    | bodyBrings ha => exact brings _ ha
  have work : ∀ {k : d.Reply → Procedure κ σ Unit}, Founded b (.work (.op d k)) ↔
      d.isMild = true ∧ (∀ a ∈ d.brings, Founded b a) ∧
        (d.isCall = false → ∀ r, Founded b (.work (k r))) ∧
        ∀ y, d.expansion? b = some y → Founded b (.work (y.bind k)) := by
    refine fun {k} => ⟨fun h => ⟨h.mild, fun a ha => h.part (.workBrings ha),
      fun plain r => h.part (.workAnswered r plain), fun y hy => h.part (.workCalled hy)⟩,
      fun ⟨mild, brings, answered, called⟩ => .intro _ mild fun _ p => ?_⟩
    cases p with
    | workAnswered r plain => exact answered plain r
    | workCalled hy => exact called _ hy
    | workBrings ha => exact brings _ ha
  cases fr with
  | work => exact work
  | callback n k p => exact body
  | starting n k p => exact work

/-- Code that enters user code is founded if it is with the user code in its place. -/
theorem iff_call (fr : Frame κ σ α) {c : Call κ} {k : c.Result → Procedure κ σ α} :
    Founded b (fr.residue (.op (.invoke c) k)) ↔
      Founded b (fr.residue ((ofCode (b.code c)).bind k)) := by
  refine (iff_op fr).trans ⟨fun h => h.2.2.2 _ rfl, fun h => ?_⟩
  exact ⟨rfl, fun _ ha => absurd ha (Multiset.notMem_zero _), fun plain => (by cases plain),
    fun y hy => Option.some.inj hy ▸ h⟩

/-- Code that a directive answers by itself is founded if what the directive brings into the world is,
and what follows it, whatever the answer. -/
theorem iff_answer (fr : Frame κ σ α) {d : Directive κ σ} {k : d.Reply → Procedure κ σ α}
    (mild : d.isMild = true) (plain : d.isCall = false) (none : d.expansion? b = none) :
    Founded b (fr.residue (.op d k)) ↔
      (∀ a ∈ d.brings, Founded b a) ∧ ∀ r, Founded b (fr.residue (k r)) := by
  refine (iff_op fr).trans ⟨fun h => ⟨h.2.1, h.2.2.1 plain⟩, fun h => ?_⟩
  exact ⟨mild, h.1, fun _ => h.2, fun y hy => by cases none.symm.trans hy⟩

theorem not_raise (fr : Frame κ σ α) (f : Fault) : ¬ Founded b (fr.residue (.raise f)) := by
  cases fr <;> exact fun h => h.mild

end Founded

/-! ### Multisets of residues -/

/-- One residue of a multiset is replaced by parts of it; others may be dropped. -/
def Consumes (b : Behaviour κ σ) (S' S : Multiset (Residue κ σ)) : Prop :=
  ∃ a T U, S = a ::ₘ U ∧ (∀ a' ∈ T, Part b a' a) ∧ S' ≤ T + U

namespace Consumes

variable {S S' U : Multiset (Residue κ σ)}

theorem of_le (h : Consumes b S' S) {S'' : Multiset (Residue κ σ)} (le : S'' ≤ S') :
    Consumes b S'' S := by
  obtain ⟨a, T, U, rfl, parts, less⟩ := h
  exact ⟨a, T, U, rfl, parts, le.trans less⟩

theorem founded (h : Consumes b S' S) (all : ∀ a ∈ S, Founded b a) : ∀ a ∈ S', Founded b a := by
  obtain ⟨a, T, U, rfl, parts, less⟩ := h
  intro a' ha'
  rcases Multiset.mem_add.1 (Multiset.mem_of_le less ha') with part | rest
  · exact (all a (Multiset.mem_cons_self a U)).part (parts a' part)
  · exact all a' (Multiset.mem_cons_of_mem rest)

end Consumes

/-- Parts of founded residues. -/
def FoundedPart (b : Behaviour κ σ) (a' a : Residue κ σ) : Prop :=
  Part b a' a ∧ Founded b a

theorem Founded.acc_part {a : Residue κ σ} (h : Founded b a) : Acc (FoundedPart b) a := by
  induction h with
  | intro a mild parts ih => exact .intro a fun a' p => ih a' p.1

theorem Founded.not_part_self {a : Residue κ σ} (h : Founded b a) : ¬ Part b a a := by
  induction h with
  | intro a mild parts ih => exact fun p => ih a p p

instance : Std.Irrefl (FoundedPart b) := ⟨fun _ p => p.2.not_part_self p.1⟩

/-- Fewer residues come to an end with more. -/
theorem Consumes.acc_of_le {S S' : Multiset (Residue κ σ)} (h : Acc (Consumes b) S) (le : S' ≤ S) :
    Acc (Consumes b) S' := by
  refine .intro S' fun S'' consumed => h.inv ?_
  obtain ⟨a, T, U, rfl, parts, less⟩ := consumed
  obtain ⟨V, rfl⟩ := Multiset.le_iff_exists_add.1 le
  exact ⟨a, T, U + V, Multiset.cons_add a U V, parts,
    less.trans (add_le_add_right (Multiset.le_add_right U V) T)⟩

/-- There are no infinite sequences of multisets of founded residues each of which is consumed. -/
theorem Founded.acc {S : Multiset (Residue κ σ)} (all : ∀ a ∈ S, Founded b a) :
    Acc (Consumes b) S := by
  have cut : Acc (Relation.CutExpand (FoundedPart b)) S :=
    Relation.acc_of_singleton fun a ha => (all a ha).acc_part.cutExpand
  induction cut with
  | intro S _ ih =>
    refine .intro S fun S' consumed => ?_
    obtain ⟨a, T, U, rfl, parts, less⟩ := consumed
    have here : Founded b a := all a (Multiset.mem_cons_self a U)
    -- With nothing dropped this is a step of the well-founded order.
    have step : Relation.CutExpand (FoundedPart b) (T + U) (a ::ₘ U) :=
      ⟨T, a, fun a' ha' => ⟨parts a' ha', here⟩, by
        rw [add_comm (T + U) {a}, Multiset.singleton_add, Multiset.cons_add, add_comm T U]⟩
    refine Consumes.acc_of_le (ih _ step fun a' ha' => ?_) less
    rcases Multiset.mem_add.1 ha' with part | rest
    · exact here.part (parts a' part)
    · exact all a' (Multiset.mem_cons_of_mem rest)

/-! ### What the processes of a world are left with -/

/-- What would call a binding off, as a residue. -/
def Cancel.residue : Cancel κ → Multiset (Residue κ σ)
  | .thunk c => {.work (Procedure.invoke (.thunk c))}
  | .timer _ => 0

def Root.residue : Root κ → Multiset (Residue κ σ)
  | .ready t => {.task t}
  | .awaiting _ (some c) => c.residue
  | _ => 0

def Proc.residues (x : Proc κ) : Multiset (Residue κ σ) :=
  x.root.residue + Multiset.ofList (x.stack.map fun h => .handler h.callback)

/-- Of a process that is killed only what calls its binding off is left. -/
theorem Proc.residues_killed (x : Proc κ) :
    (x.killed.residues : Multiset (Residue κ σ)) + (x.cancel?.map Cancel.residue).getD 0 ≤ x.residues := by
  have none : (x.killed.residues : Multiset (Residue κ σ)) = 0 := rfl
  rw [none, zero_add, Proc.residues]
  refine le_add_right ?_
  unfold Proc.cancel?
  split
  · next n c hr =>
    rw [hr]
    cases c with
    | none => exact Multiset.zero_le _
    | some c => exact le_refl _
  · exact Multiset.zero_le _

namespace World

/-- What a process is left with, if there is one of a given name. -/
def residuesOf (w : World κ σ) (p : Pid) : Multiset (Residue κ σ) :=
  ((w.procs.get? p).map Proc.residues).getD 0

/-- What all processes are left with. -/
def residues (w : World κ σ) : Multiset (Residue κ σ) :=
  ∑ n ∈ Finset.range w.procs.nextNumber, w.residuesOf ⟨n⟩

variable {w w' : World κ σ} {p : Pid} {x y : Proc κ}

theorem residuesOf_of_get? (hx : w.procs.get? p = some x) : w.residuesOf p = x.residues := by
  rw [residuesOf, hx]
  rfl

/-- Numbers that have not been handed out add nothing. -/
theorem residues_eq_sum {n : Nat} (h : w.procs.nextNumber ≤ n) :
    w.residues = ∑ i ∈ Finset.range n, w.residuesOf ⟨i⟩ := by
  refine Finset.sum_subset (Finset.range_mono h) fun i _ hi => ?_
  have out : w.procs.nextNumber ≤ i := Nat.not_lt.1 fun lt => hi (Finset.mem_range.2 lt)
  rw [residuesOf, ProcTable.get?_eq_none_of_size_le out]
  rfl

theorem residues_congr (h : ∀ q, w'.residuesOf q = w.residuesOf q) : w'.residues = w.residues := by
  rw [residues_eq_sum (Nat.le_max_left w'.procs.nextNumber w.procs.nextNumber),
    residues_eq_sum (Nat.le_max_right w'.procs.nextNumber w.procs.nextNumber)]
  exact Finset.sum_congr rfl fun i _ => h ⟨i⟩

/-- A change of one process. -/
theorem residues_change (h : ∀ q, q ≠ p → w'.residuesOf q = w.residuesOf q) :
    w'.residues + w.residuesOf p = w.residues + w'.residuesOf p := by
  obtain ⟨n, most, least, here⟩ : ∃ n, w'.procs.nextNumber ≤ n ∧ w.procs.nextNumber ≤ n ∧
      p.number ∈ Finset.range n :=
    ⟨w'.procs.nextNumber + w.procs.nextNumber + p.number + 1, by omega, by omega,
      Finset.mem_range.2 (by omega)⟩
  rw [residues_eq_sum most, residues_eq_sum least,
    ← Finset.add_sum_erase _ (fun i => w'.residuesOf ⟨i⟩) here,
    ← Finset.add_sum_erase _ (fun i => w.residuesOf ⟨i⟩) here]
  have rest : ∑ i ∈ (Finset.range n).erase p.number, w'.residuesOf ⟨i⟩ =
      ∑ i ∈ (Finset.range n).erase p.number, w.residuesOf ⟨i⟩ :=
    Finset.sum_congr rfl fun i hi => h ⟨i⟩ fun same =>
      (Finset.mem_erase.1 hi).1 (congrArg Pid.number same)
  rw [rest, add_right_comm, add_right_comm (w.residuesOf ⟨p.number⟩),
    add_comm (w'.residuesOf ⟨p.number⟩)]

theorem Put.residues (h : Put w w' p y) :
    w'.residues + w.residuesOf p = w.residues + y.residues := by
  rw [← residuesOf_of_get? h.self]
  exact residues_change fun q hq => by rw [residuesOf, residuesOf, h.other hq]

theorem Agree.residues (h : Agree w w') : w'.residues = w.residues :=
  residues_congr fun q => by rw [residuesOf, residuesOf, h.get?]

theorem residues_enqueue (w : World κ σ) (p : Pid) : (w.enqueue p).residues = w.residues :=
  residues_congr fun q => by rw [residuesOf, residuesOf, map_get?_enqueue w p fun _ => rfl]

theorem residues_dequeue (h : w.dequeue = some (p, w')) : w'.residues = w.residues :=
  residues_congr fun q => by rw [residuesOf, residuesOf, map_get?_dequeue h fun _ => rfl]

/-- Only turns of the scheduler wait in the host. -/
def OnlyPumps (w : World κ σ) : Prop :=
  ∀ t ∈ w.host.ticks, t = .pump

theorem OnlyPumps.same (h : w.OnlyPumps) (ticks : w'.host.ticks = w.host.ticks) : w'.OnlyPumps :=
  fun t ht => h t (ticks ▸ ht)

theorem OnlyPumps.enqueue (h : w.OnlyPumps) (p : Pid) : (w.enqueue p).OnlyPumps := by
  unfold World.enqueue
  split
  · exact h
  · split
    · exact h
    · unfold arm
      split
      · exact h
      · intro t ht
        rcases List.mem_append.1 ht with ht | ht
        · exact h t ht
        · exact List.mem_singleton.1 ht

/-- A world is left with no more than another one and some residues, and still only turns of the
scheduler wait in its host. -/
structure Leaves (w w' : World κ σ) (S : Multiset (Residue κ σ)) : Prop where
  residues : w'.residues ≤ w.residues + S
  pumps : w.OnlyPumps → w'.OnlyPumps

namespace Leaves

variable {w'' : World κ σ} {S T : Multiset (Residue κ σ)}

theorem same (procs : w'.procs = w.procs) (ticks : w'.host.ticks = w.host.ticks) : Leaves w w' S where
  residues := by
    have eq : w'.residues = w.residues := residues_congr fun q => by rw [residuesOf, residuesOf, procs]
    rw [eq]
    exact Multiset.le_add_right _ _
  pumps := fun h => h.same ticks

theorem trans (h : Leaves w w' S) (h' : Leaves w' w'' T) : Leaves w w'' (S + T) where
  residues := by
    rw [← add_assoc]
    exact h'.residues.trans (add_le_add_left h.residues T)
  pumps := fun only => h'.pumps (h.pumps only)

theorem put (h : Put w w' p y) (more : y.residues ≤ w.residuesOf p + S)
    (ticks : w'.host.ticks = w.host.ticks) : Leaves w w' S where
  residues := by
    refine (add_le_add_iff_right (w.residuesOf p)).1 ?_
    rw [h.residues, add_assoc, add_comm S]
    exact add_le_add_right more _
  pumps := fun only => only.same ticks

theorem enqueue (h : Leaves w w' S) (p : Pid) : Leaves w (w'.enqueue p) S where
  residues := (residues_enqueue w' p).symm ▸ h.residues
  pumps := fun only => (h.pumps only).enqueue p

end Leaves

theorem leaves_send (w : World κ σ) (p : Pid) (v : Value κ) : Leaves w (w.send p v) 0 := by
  unfold send
  split
  · next h =>
    obtain ⟨x, hx, -⟩ := ProcTable.isAlive_iff.1 h
    refine (Leaves.put (put_modify hx _) ?_ ?_).enqueue p
    · rw [add_zero, residuesOf_of_get? hx]
      exact le_refl x.residues
    · unfold modify
      split <;> rfl
  · exact .same rfl rfl

theorem leaves_install {label : Option String} {t : Task κ} (h : w.install p label t = .ok w') :
    Leaves w w' {.task t} := by
  unfold install at h
  split at h
  · cases h
  · obtain rfl := Except.ok.inj h
    refine Leaves.enqueue ?_ p
    by_cases hp : p.number < w.procs.nextNumber
    · refine Leaves.put ((put_set (.start label t) hp).agree (agree_note _ _)) ?_ rfl
      exact le_add_left (le_refl _)
    · -- A name that has not been handed out is out of the table's bounds.
      refine .same ?_ rfl
      have hp : ¬ p.number < w.procs.slots.size := hp
      show w.procs.set p (.start label t) = w.procs
      rw [ProcTable.set, Array.setIfInBounds, dif_neg hp]

theorem leaves_reserve (h : w.reserve = .ok (p, w')) : Leaves w w' 0 where
  residues := by
    rw [add_zero, (agree_reserve h).residues]
  pumps := fun only => by
    unfold reserve at h
    split at h
    · obtain ⟨-, rfl⟩ := Prod.mk.inj (Except.ok.inj h)
      exact only
    · cases h

theorem leaves_spawn {t : Task κ} (h : w.spawn t = .ok (p, w')) : Leaves w w' {.task t} := by
  unfold spawn at h
  cases hr : w.reserve with
  | error f => rw [hr] at h; cases h
  | ok r =>
    obtain ⟨q, w₁⟩ := r
    simp only [hr, bind, Except.bind] at h
    cases hi : w₁.install q none t with
    | error f => rw [hi] at h; cases h
    | ok w₂ =>
      rw [hi] at h
      obtain ⟨rfl, rfl⟩ := Prod.mk.inj (Except.ok.inj h)
      rw [← zero_add ({.task t} : Multiset (Residue κ σ))]
      exact (leaves_reserve hr).trans (leaves_install hi)

theorem leaves_resume {t : Ticket} {task : Task κ} (h : w.resume t task = .ok w') :
    Leaves w w' {.task task} := by
  unfold resume at h
  split at h
  · obtain rfl := Except.ok.inj h
    exact .same rfl rfl
  · next x hx =>
    split at h
    · obtain rfl := Except.ok.inj h
      exact .same rfl rfl
    · split at h
      · obtain rfl := Except.ok.inj h
        refine Leaves.enqueue (Leaves.put (put_set _ (ProcTable.number_lt_of_get? hx)) ?_ rfl) t.pid
        rw [residuesOf_of_get? hx, Proc.residues, Proc.residues, add_comm, add_comm x.root.residue,
          add_assoc]
        exact add_le_add_right (le_add_left (le_refl _)) _
      · cases h
    · cases h

theorem leaves_complete {k : Holder} {t : Ticket} {task : Task κ} (h : w.complete k t task = .ok w') :
    Leaves w w' {.task task} := by
  unfold complete at h
  split at h
  · split at h
    · have spent : Leaves w (w.spend t k) 0 := .same rfl rfl
      rw [← zero_add ({.task task} : Multiset (Residue κ σ))]
      exact spent.trans (leaves_resume h)
    · obtain rfl := Except.ok.inj h
      exact .same rfl rfl
  · obtain rfl := Except.ok.inj h
    exact .same rfl rfl

/-- What is handed in for a binding is kept or lost, or handed back. -/
theorem leaves_attach (w : World κ σ) (t : Ticket) (c : Cancel κ) :
    (∃ w', w.attach t c = (w', none) ∧ Leaves w w' c.residue) ∨ w.attach t c = (w, some c) := by
  unfold attach
  cases hx : w.procs.get? t.pid with
  | none => exact .inl ⟨w, rfl, .same rfl rfl⟩
  | some x =>
    simp only
    cases hr : x.root with
    | dead => exact .inr rfl
    | awaiting n c' =>
      simp only
      split
      · refine .inl ⟨_, rfl, Leaves.put (put_set _ (ProcTable.number_lt_of_get? hx)) ?_ rfl⟩
        rw [residuesOf_of_get? hx, Proc.residues, Proc.residues, add_comm, add_comm x.root.residue,
          add_assoc]
        exact add_le_add_right (le_add_left (le_refl _)) _
      · exact .inl ⟨w, rfl, .same rfl rfl⟩
    | ready u => exact .inl ⟨w, rfl, .same rfl rfl⟩
    | stepping => exact .inl ⟨w, rfl, .same rfl rfl⟩

theorem leaves_sleep (w : World κ σ) (span : Nat) (t : Ticket) : Leaves w (w.sleep span t) 0 := by
  have set : Leaves w { w.spend t .runtime with host := w.host.delay span (.wake t) } 0 :=
    .same rfl rfl
  rw [← add_zero (0 : Multiset (Residue κ σ))]
  refine set.trans ?_
  rcases leaves_attach { w.spend t .runtime with host := w.host.delay span (.wake t) } t
    (.timer (w.host.keyAfter span)) with ⟨w', same, grows⟩ | same
  · rw [sleep, same]
    exact grows
  · rw [sleep, same]
    exact .same rfl rfl

theorem leaves_retain (w : World κ σ) : Leaves w w.retain 0 := by
  unfold retain
  split <;> exact .same rfl rfl

theorem leaves_modifyProgram (w : World κ σ) (i : ProgramId)
    (f : RunningProgram κ → RunningProgram κ) : Leaves w (w.modifyProgram i f) 0 := by
  unfold modifyProgram
  split <;> exact .same rfl rfl

/-- Of a process that is killed only what calls its binding off is left, which is handed back. -/
theorem residues_kill (w : World κ σ) (p : Pid) :
    (w.kill p).1.residues + ((w.kill p).2.map Cancel.residue).getD 0 ≤ w.residues ∧
      (w.OnlyPumps → (w.kill p).1.OnlyPumps) := by
  cases alive : w.procs.isAlive p with
  | false =>
    rw [kill_of_dead alive]
    exact ⟨(add_zero w.residues).le, id⟩
  | true =>
    obtain ⟨x, hx, alive⟩ := ProcTable.isAlive_iff.1 alive
    have put := (put_kill hx alive).residues
    rw [kill_of_alive hx alive] at put ⊢
    refine ⟨(add_le_add_iff_right (w.residuesOf p)).1 ?_, fun only => only.same rfl⟩
    rw [add_right_comm, put, residuesOf_of_get? hx, add_assoc]
    exact add_le_add_right x.residues_killed _

end World

/-! ### Directives -/

/-- What a mild directive does to what is left. -/
inductive Directive.Spends (b : Behaviour κ σ) (w w' : World κ σ) (d : Directive κ σ) :
    Procedure κ σ d.Reply → Prop where
  /-- It is answered, and has added what it brings into the world. -/
  | answered (r : d.Reply) (plain : d.isCall = false) (leaves : w.Leaves w' d.brings) : Spends b w w' d (.ret r)
  /-- It expands. -/
  | expands {y : Procedure κ σ d.Reply} (h : d.expansion? b = some y) (leaves : w.Leaves w' 0) : Spends b w w' d y
  /-- It has run a thunk, which was left to a process or is brought by the directive itself. -/
  | ran (c : κ) (r : d.Reply) (plain : d.isCall = false) (pumps : w.OnlyPumps → w'.OnlyPumps)
      (residues : w'.residues + {.work (Procedure.invoke (.thunk c))} ≤ w.residues + d.brings) :
      Spends b w w' d ((Procedure.invoke (.thunk c)).bind fun _ => .ret r)

theorem Directive.Spends.pumps {w w' : World κ σ} {d : Directive κ σ} {y : Procedure κ σ d.Reply}
    (h : d.Spends b w w' y) : w.OnlyPumps → w'.OnlyPumps := by
  cases h with
  | answered r plain leaves => exact leaves.pumps
  | expands h leaves => exact leaves.pumps
  | ran c r plain pumps => exact pumps

/-- A process that is killed leaves what would call its binding off: a timer is removed, and a thunk is run. -/
theorem Directive.spends_kill {w w' : World κ σ} {p : Pid} {y : Procedure κ σ Unit}
    (h : Progress.callOff (w.kill p).1 (w.kill p).2 (Act.ret ()) = .next w' y) :
    Directive.Spends b w w' (.request (.kill p)) y := by
  obtain ⟨less, pumps⟩ := World.residues_kill w p
  generalize w.kill p = e at h less pumps
  obtain ⟨w₁, c⟩ := e
  have fewer : w₁.residues ≤ w.residues + (0 : Multiset (Residue κ σ)) :=
    (Multiset.le_add_right _ _).trans (less.trans (Multiset.le_add_right _ _))
  cases c with
  | none =>
    obtain ⟨rfl, rfl⟩ := Progress.next.inj h
    exact .answered _ rfl ⟨fewer, pumps⟩
  | some c =>
    cases c with
    | timer k =>
      obtain ⟨rfl, rfl⟩ := Progress.next.inj h
      exact .answered _ rfl ⟨fewer, fun only => (pumps only).same rfl⟩
    | thunk c =>
      obtain ⟨rfl, rfl⟩ := Progress.next.inj h
      exact .ran c _ rfl pumps (less.trans (Multiset.le_add_right _ _))

/-- What is handed in too late to call a binding off is run at once if it is a thunk. -/
theorem Directive.spends_attach {w w' : World κ σ} {t : Ticket} {c : κ} {y : Procedure κ σ Unit}
    (h : Directive.step b w (.attach t c) Act.ret = .next w' y) : Directive.Spends b w w' (.attach t c) y := by
  simp only [step] at h
  rcases World.leaves_attach w t (.thunk c) with ⟨w₁, same, leaves⟩ | same
  · rw [same] at h
    obtain ⟨rfl, rfl⟩ := Progress.next.inj h
    exact .answered _ rfl leaves
  · rw [same] at h
    obtain ⟨rfl, rfl⟩ := Progress.next.inj h
    exact .ran c _ rfl id (le_refl _)

theorem Directive.spends {w w' : World κ σ} {d : Directive κ σ} {y : Procedure κ σ d.Reply}
    (mild : d.isMild = true) (h : d.step b w Act.ret = .next w' y) : d.Spends b w w' y := by
  -- A mild directive is answered or expands; it spends what it puts into the world, and these are
  -- the few that do.
  cases d with
  | request r =>
    cases r with
    | build c =>
      obtain ⟨rfl, rfl⟩ := Progress.next.inj h
      exact .expands rfl (.same rfl rfl)
    | convert c v =>
      obtain ⟨rfl, rfl⟩ := Progress.next.inj h
      exact .expands rfl (.same rfl rfl)
    | spawn t =>
      rcases of_spawn h with ⟨p, -, hs, rfl⟩ | ⟨-, rfl, rfl⟩
      · exact .answered _ rfl (World.leaves_spawn hs)
      · exact .answered _ rfl (.same rfl rfl)
    | spawnWith c =>
      obtain ⟨rfl, ⟨-, rfl⟩ | ⟨-, rfl⟩⟩ := of_spawnWith h
      · exact .expands (congrArg some (Act.bind_ret _).symm) (.same rfl rfl)
      · exact .answered _ rfl (.same rfl rfl)
    | send p v =>
      obtain ⟨rfl, rfl⟩ := Progress.next.inj h
      refine .answered _ rfl ?_
      split
      · exact World.leaves_send w p v
      · exact .same rfl rfl
    | kill p =>
      rcases of_kill h with ⟨-, off⟩ | ⟨-, rfl, rfl⟩
      · exact spends_kill off
      · exact .answered _ rfl (.same rfl rfl)
    | complete t task =>
      obtain ⟨hc, rfl⟩ := Progress.of_ofExcept h
      exact .answered _ rfl (World.leaves_complete hc)
    | drive e => cases mild
    | defer c => cases mild
    | model p => cases mild
    | start c =>
      obtain ⟨rfl, ⟨-, rfl⟩ | ⟨-, rfl⟩⟩ := of_start h
      · exact .expands rfl (.same rfl rfl)
      · exact .answered _ rfl (.same rfl rfl)
    | retain =>
      obtain ⟨rfl, rfl⟩ := Progress.next.inj h
      exact .answered _ rfl (World.leaves_retain w)
    | _ =>
      obtain ⟨rfl, rfl⟩ := Progress.next.inj h
      exact .answered _ rfl (.same rfl rfl)
  | invoke c =>
    obtain ⟨rfl, rfl⟩ := Progress.next.inj h
    exact .expands (congrArg some (Act.bind_ret _).symm) (.same rfl rfl)
  | settle t task =>
    obtain ⟨hc, rfl⟩ := Progress.of_ofExcept h
    exact .answered _ rfl (World.leaves_complete hc)
  | sleep span t =>
    obtain ⟨rfl, rfl⟩ := Progress.next.inj h
    exact .answered _ rfl (World.leaves_sleep w span t)
  | attach t c => exact spends_attach h
  | reserve =>
    obtain ⟨p, hr, rfl⟩ := of_reserve h
    exact .answered _ rfl (World.leaves_reserve hr)
  | install p label t =>
    obtain ⟨hi, rfl⟩ := Progress.of_ofExcept h
    exact .answered _ rfl (World.leaves_install hi)
  | takeModel i =>
    obtain ⟨rfl, rfl⟩ := Progress.next.inj h
    exact .answered _ rfl (World.leaves_modifyProgram w i _)
  | putModel i v =>
    obtain ⟨rfl, rfl⟩ := Progress.next.inj h
    exact .answered _ rfl (World.leaves_modifyProgram w i _)
  | countUpdate i =>
    obtain ⟨rfl, rfl⟩ := Progress.next.inj h
    exact .answered _ rfl (World.leaves_modifyProgram w i _)
  | _ =>
    obtain ⟨rfl, rfl⟩ := Progress.next.inj h
    exact .answered _ rfl (.same rfl rfl)

end Actors
