/-
Shares.

What the managers of a program are to do in one update cycle, grouped by home. A home without
effects has no entry.

* `Share` — commands and subscriptions for one manager, `Shares` — those for all of them;
* `Shares.add`, `Shares.find` — adds a value for a home, and finds what there is for one.
-/
import Actors.Value

namespace Actors

variable {κ : Type}

/-- What one manager is told to do: commands and subscriptions, each in order. -/
structure Share (κ : Type) where
  cmds : List (Value κ)
  subs : List (Value κ)

namespace Share

/-- Nothing to do. -/
def none : Share κ := ⟨[], []⟩

def isEmpty (e : Share κ) : Bool :=
  e.cmds.isEmpty && e.subs.isEmpty

/-- Adds a value to one of the two lists. -/
def add (e : Share κ) : Family → Value κ → Share κ
  | .command, v => { e with cmds := e.cmds ++ [v] }
  | .subscription, v => { e with subs := e.subs ++ [v] }

def text (e : Share κ) : String :=
  "Effects \x7b cmds: [" ++ Value.listText e.cmds ++ "], subs: [" ++ Value.listText e.subs ++
    "] \x7d"

end Share

/-- Shares by home. -/
abbrev Shares (κ : Type) := List (Home × Share κ)

namespace Shares

/-- The share of a home. -/
def find (g : Shares κ) (home : Home) : Share κ :=
  ((g.find? fun e => e.1 = home).map Prod.snd).getD .none

/-- Adds a value to the entry of a home, making the entry if there is none. -/
def add (f : Family) (home : Home) (v : Value κ) : Shares κ → Shares κ
  | [] => [(home, Share.none.add f v)]
  | e :: es => if e.1 = home then (home, e.2.add f v) :: es else e :: add f home v es

/-- Adding a value for a home changes what there is for that home only. -/
theorem find_add (f : Family) (home : Home) (v : Value κ) (g : Shares κ) (other : Home) :
    (g.add f home v).find other =
      if other = home then (g.find home).add f v else g.find other := by
  induction g with
  | nil =>
    by_cases h : other = home
    · subst h; simp [add, find]
    · simp [add, find, h, Ne.symm h]
  | cons e es ih =>
    unfold find at ih ⊢
    simp only [add]
    by_cases he : e.1 = home
    · by_cases h : other = home
      · subst h; simp [he]
      · simp [he, h, Ne.symm h]
    · by_cases h : e.1 = other
      · subst h; simp [he]
      · simp [he, h, ih]

end Shares

end Actors
