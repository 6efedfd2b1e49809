/-
The effects of a cycle.

Once per update cycle the two effect trees of a program are walked from left to right. Each leaf is
mapped by the manager it is addressed to, with the chain of taggers above it, and becomes part of
that manager's share.

* `Shares.ofCycle` — the shares of one cycle, for each home that has any.
-/
import Actors.Call
import Actors.Directive
import Actors.Effect.Share

namespace Actors.Shares

variable {κ σ : Type}

/-- Maps one leaf. The home has to be registered, and its manager has to accept the family. -/
def addLeaf (b : Behaviour κ σ) (r : Registry κ) (f : Family) (chain : List (Tagger κ))
    (home : Home) (v : Value κ) (shares : Shares κ) : Procedure κ σ (Shares κ) :=
  match r.find? home with
  | none => .raise (.unregistered home)
  | some m =>
    if (m.manager b).kind.accepts f then
      (Procedure.invoke (.mapLeaf m f chain v)).map fun w => shares.add f home w
    else
      .raise (.refused home f)

mutual

/-- Walks a tree, with the chain of taggers above it. -/
def addTree (b : Behaviour κ σ) (r : Registry κ) (f : Family) :
    List (Tagger κ) → EffectTree κ → Shares κ → Procedure κ σ (Shares κ)
  | chain, .leaf home v, shares => addLeaf b r f chain home v shares
  | chain, .node children, shares => addTrees b r f chain children shares
  | chain, .map tagger inner, shares => addTree b r f (tagger :: chain) inner shares

/-- Walks trees from left to right. -/
def addTrees (b : Behaviour κ σ) (r : Registry κ) (f : Family) :
    List (Tagger κ) → List (EffectTree κ) → Shares κ → Procedure κ σ (Shares κ)
  | _, [], shares => .ret shares
  | chain, t :: ts, shares => (addTree b r f chain t shares).bind (addTrees b r f chain ts)

end

/-- The shares of one cycle: first all commands, then all subscriptions. -/
def ofCycle (b : Behaviour κ σ) (r : Registry κ) (cmds subs : EffectTree κ) :
    Procedure κ σ (Shares κ) :=
  (addTree b r .command [] cmds []).bind (addTree b r .subscription [] subs)

end Actors.Shares
