/-
Taggers.

A tagger turns what a manager has to tell into a message of the program. A chain of taggers is a
list whose head was put on last and is applied first, because the walk through an effect tree meets
the outermost tagger first.

* `Tagger.apply`, `Tagger.applyAll` — a tagger, and a chain of them.
-/
import Actors.Behaviour

namespace Actors.Tagger

variable {κ σ : Type}

/-- Applies one function of a chain. A typed one refuses a value that is not of its type. -/
def apply : Tagger κ → Value κ → Code κ σ (Value κ)
  | raw c, v => Code.ask (.convert c v)
  | typed source c, v => (Act.ofExcept (v.coerce source)).bind fun w => Code.ask (.convert c w)

/-- Applies a chain, its head first. -/
def applyAll : List (Tagger κ) → Value κ → Code κ σ (Value κ)
  | [], v => .ret v
  | t :: ts, v => (t.apply v).bind (applyAll ts)

end Actors.Tagger
