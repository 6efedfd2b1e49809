/-
Commands for the built-in manager.

A command is a leaf with a task. On its way from the tree to the manager the task gets the taggers above the
leaf as one continuation, the innermost tagger first; the manager then adds the delivery to the program. So
which tasks the manager's workers run can be read off the tree.

* `EffectTree.orders` — the commands in a tree, each with its taggers, from left to right;
* `EffectTree.Maps.orders` — the manager's share is made of these;
* `Tagged` — what a chain of taggers makes of a value;
* `Errand`, `Errand.Reports` — the two kinds of command, and what the program is to hear of one.
-/
import Actors.Proofs.Gathering
import Actors.Proofs.Returning

namespace Actors

variable {κ σ : Type} {b : Behaviour κ σ}

open Procedure

/-! ### The commands in a tree -/

/-- A command: its task, and the taggers above its leaf, the innermost first. -/
structure Order (κ : Type) where
  task : Task κ
  chain : List (Tagger κ)

namespace Order

/-- The task of a command, with its taggers behind it. -/
def tagged (o : Order κ) : Task κ :=
  .andThen o.task (.tag o.chain)

/-- The value that reaches the manager. -/
def command (o : Order κ) : Value κ :=
  .command o.tagged

/-- The task of the worker that runs a command for a program. -/
def worker (app : Pid) (o : Order κ) : Task κ :=
  Manager.worker app o.tagged

end Order

/-- The command in a leaf. -/
def Value.order? (chain : List (Tagger κ)) : Value κ → Option (Order κ)
  | .command t => some ⟨t, chain⟩
  | _ => none

mutual

/-- The commands for the built-in manager in a tree, from left to right, with the chain of taggers above it. -/
def EffectTree.orders : List (Tagger κ) → EffectTree κ → List (Order κ)
  | chain, .leaf home v => if home = .tasks then (v.order? chain).toList else []
  | chain, .node children => ordersAll chain children
  | chain, .map tagger inner => inner.orders (tagger :: chain)

/-- The commands in several trees. -/
def EffectTree.ordersAll : List (Tagger κ) → List (EffectTree κ) → List (Order κ)
  | _, [] => []
  | chain, t :: ts => t.orders chain ++ ordersAll chain ts

end

/-- The built-in manager maps commands only. -/
theorem Manager.returns_mapCommand {chain : List (Tagger κ)} {v w : Value κ}
    (h : ((Manager.tasks (σ := σ)).mapCommand chain v).Returns w) :
    (v.order? chain).map Order.command = some w := by
  cases v with
  | command t =>
    obtain rfl := Code.returns_ret h
    rfl
  | _ => cases h

/-- If the built-in manager stands under its home, its share of the commands is what the tree says. -/
theorem EffectTree.Maps.orders {r : Registry κ} (builtIn : r.find? .tasks = some .tasks)
    {chain : List (Tagger κ)} {t : EffectTree κ} {ws : List (Home × Value κ)}
    (h : Maps b r .command chain t ws) : valuesFor .tasks ws = (t.orders chain).map Order.command := by
  induction h with
  | @leaf chain home v w m find accepts returns =>
    rw [EffectTree.orders]
    split
    · next same =>
      subst same
      obtain rfl := Option.some.inj (find.symm.trans builtIn)
      obtain ⟨o, ho, rfl⟩ := Option.map_eq_some_iff.1 (Manager.returns_mapCommand returns)
      rw [ho]
      rfl
    · next other => exact List.filterMap_cons_none (if_neg other)
  | nil => rfl
  | @cons chain t ts ws ws' h h' ih ih' =>
    rw [EffectTree.orders] at ih'
    rw [valuesFor_append, ih, ih', EffectTree.orders, EffectTree.ordersAll, List.map_append]
  | map h ih => rw [ih, EffectTree.orders]

/-! ### Taggers -/

/-- The function of a tagger. -/
def Tagger.code : Tagger κ → κ
  | raw c => c
  | typed _ c => c

/-- What a chain of taggers makes of a value, its head first. A typed one takes values of its type only. -/
inductive Tagged (b : Behaviour κ σ) : List (Tagger κ) → Value κ → Value κ → Prop where
  | nil (v : Value κ) : Tagged b [] v v
  | raw {c : κ} {chain : List (Tagger κ)} {v w u : Value κ} (returns : (b.convert c v).Returns w)
      (rest : Tagged b chain w u) : Tagged b (.raw c :: chain) v u
  | typed {source : ValueType} {c : κ} {chain : List (Tagger κ)} {v w u : Value κ}
      (fits : v.hasType source = true) (returns : (b.convert c v).Returns w) (rest : Tagged b chain w u) :
      Tagged b (.typed source c :: chain) v u

/-- A function that code asks for comes to what it may return. -/
theorem Procedure.Brings.of_convert {c : κ} {v w : Value κ}
    (h : (ofCode (Code.ask (.convert c v))).Brings b w) : (b.convert c v).Returns w := by
  cases h with
  | next hs brings =>
    obtain ⟨-, rfl⟩ := Progress.next.inj hs
    obtain ⟨w', first, second⟩ := brings.of_bind
    obtain rfl := second.of_ret
    exact first.of_invoke
  | drive hs => cases hs

theorem Tagged.of_brings {chain : List (Tagger κ)} {v u : Value κ}
    (h : (ofCode (Tagger.applyAll chain v)).Brings b u) : Tagged b chain v u := by
  induction chain generalizing v with
  | nil =>
    obtain rfl := h.of_ret
    exact .nil _
  | cons t chain ih =>
    rw [Tagger.applyAll, ofCode_bind] at h
    obtain ⟨w, first, second⟩ := h.of_bind
    cases t with
    | raw c => exact .raw first.of_convert (ih second)
    | typed source c =>
      rw [Tagger.apply, Value.coerce] at first
      split at first
      · next fits => exact .typed fits first.of_convert (ih second)
      · cases first

/-- If taggers are functions, a chain of them composes these, the innermost first. -/
theorem Tagged.eq_foldl {chain : List (Tagger κ)} {v u : Value κ} (h : Tagged b chain v u)
    {f : κ → Value κ → Value κ} (pure : ∀ c v w, (b.convert c v).Returns w → w = f c v) :
    u = chain.foldl (fun v t => f t.code v) v := by
  induction h with
  | nil => rfl
  | raw returns _ ih => rw [ih, pure _ _ _ returns]; rfl
  | typed _ returns _ ih => rw [ih, pure _ _ _ returns]; rfl

/-! ### Errands -/

/-- A command of one of the two kinds: the program hears of its task only if this succeeds, or in either
case. -/
structure Errand (κ : Type) where
  /-- Whether the program hears of failures, too. -/
  attempted : Bool
  task : Task κ
  /-- The function that makes a message of what comes of the task. -/
  code : κ
  chain : List (Tagger κ)

namespace Errand

/-- The command. -/
def order (e : Errand κ) : Order κ :=
  ⟨if e.attempted then e.task.attempt e.code else e.task.perform e.code, e.chain⟩

/-- What the function of a command is given when the task has come to an outcome. -/
def argument? (e : Errand κ) : Except (Value κ) (Value κ) → Option (Value κ)
  | .ok v => some (if e.attempted then .ok v else v)
  | .error v => if e.attempted then some (.err v) else none

/-- The message of which the program hears that the task has come to an outcome. -/
def Reports (b : Behaviour κ σ) (e : Errand κ) (o : Except (Value κ) (Value κ)) (u : Value κ) : Prop :=
  ∃ a w, e.argument? o = some a ∧ (b.convert e.code a).Returns w ∧ Tagged b e.chain w u

/-- If user code computes functions, there is one message at most. -/
theorem Reports.eq_foldl {e : Errand κ} {o : Except (Value κ) (Value κ)} {u : Value κ} (h : e.Reports b o u)
    {f : κ → Value κ → Value κ} (pure : ∀ c v w, (b.convert c v).Returns w → w = f c v) :
    (e.argument? o).map (fun a => e.chain.foldl (fun v t => f t.code v) (f e.code a)) = some u := by
  obtain ⟨a, w, ha, returns, tagged⟩ := h
  rw [ha, tagged.eq_foldl pure, pure _ _ _ returns]
  rfl

end Errand

end Actors
