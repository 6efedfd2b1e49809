/-
Effect trees.

The commands and the subscriptions of one update cycle are each a tree. A leaf is addressed to a
manager by its home, a node batches trees, and a tagger over a tree changes the messages that its
leaves give rise to.

* `EffectTree.leaves` — how many leaves there are;
* `EffectTree.text` — the written text of a tree.
-/
import Actors.Value

namespace Actors

/-- A tree of effects. -/
inductive EffectTree (κ : Type) where
  | leaf (home : Home) (v : Value κ)
  | node (children : List (EffectTree κ))
  | map (tagger : Tagger κ) (inner : EffectTree κ)

namespace EffectTree

variable {κ : Type}

/-- The tree without leaves. -/
def none : EffectTree κ := node []

/-- A command that runs a task; it is addressed to the built-in manager. -/
def ofTask (t : Task κ) : EffectTree κ :=
  leaf .tasks (.command t)

mutual

/-- The number of leaves. -/
def leaves : EffectTree κ → Nat
  | leaf .. => 1
  | node children => leavesAll children
  | map _ inner => inner.leaves

/-- The number of leaves of several trees. -/
def leavesAll : List (EffectTree κ) → Nat
  | [] => 0
  | b :: bs => b.leaves + leavesAll bs

end

theorem leavesAll_append (as bs : List (EffectTree κ)) :
    leavesAll (as ++ bs) = leavesAll as + leavesAll bs := by
  induction as with
  | nil => simp [leavesAll]
  | cons a as ih => simp [leavesAll, ih, Nat.add_assoc]

mutual

/-- The text of a tree. -/
def text : EffectTree κ → String
  | leaf home v => "Leaf \x7b home: " ++ home.text ++ ", value: " ++ v.text ++ " \x7d"
  | node children => "Node([" ++ listText children ++ "])"
  | map _ inner => "Map(" ++ inner.text ++ ", ..)"

/-- The texts of trees with commas between them. -/
def listText : List (EffectTree κ) → String
  | [] => ""
  | [b] => b.text
  | b :: bs => b.text ++ ", " ++ listText bs

end

end EffectTree

end Actors
