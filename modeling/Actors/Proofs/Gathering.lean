/-
The shares of a cycle.

The leaves of the two effect trees are mapped one after the other, from left to right. What a manager
gets is what the leaves under its home have come to, in this order: commands and subscriptions apart,
and nothing if there are none. No leaf is lost, and none is handed out twice.

* `EffectTree.Maps` — what the leaves of a tree come to;
* `Share.gathered` — the share of a home;
* `Shares.obeys_ofCycle` — the code that walks the two trees comes to these shares;
* `EffectTree.Maps.length_eq`, `Share.sum_gathered` — the shares together have as many values as the
  trees have leaves.
-/
import Actors.Proofs.Usage
import Mathlib

namespace Actors

variable {κ σ S α : Type} {b : Behaviour κ σ}

open Procedure

/-! ### Mapped leaves -/

/-- What the leaves of a tree come to, with the chain of taggers above it: each leaf is mapped by the
manager under its home, which accepts leaves of this family. -/
inductive EffectTree.Maps (b : Behaviour κ σ) (r : Registry κ) (f : Family) :
    List (Tagger κ) → EffectTree κ → List (Home × Value κ) → Prop where
  | leaf {chain : List (Tagger κ)} {home : Home} {v w : Value κ} {m : Hooks κ}
      (find : r.find? home = some m) (accepts : (m.manager b).kind.accepts f = true)
      (returns : ((m.manager b).mapLeaf f chain v).Returns w) :
      Maps b r f chain (.leaf home v) [(home, w)]
  | nil {chain : List (Tagger κ)} : Maps b r f chain (.node []) []
  | cons {chain : List (Tagger κ)} {t : EffectTree κ} {ts : List (EffectTree κ)}
      {ws ws' : List (Home × Value κ)} (h : Maps b r f chain t ws)
      (h' : Maps b r f chain (.node ts) ws') : Maps b r f chain (.node (t :: ts)) (ws ++ ws')
  | map {chain : List (Tagger κ)} {tagger : Tagger κ} {inner : EffectTree κ}
      {ws : List (Home × Value κ)} (h : Maps b r f (tagger :: chain) inner ws) :
      Maps b r f chain (.map tagger inner) ws

namespace EffectTree.Maps

variable {r : Registry κ} {f : Family} {chain : List (Tagger κ)} {t : EffectTree κ}
  {ws : List (Home × Value κ)}

/-- No leaf is lost, and none is mapped twice. -/
theorem length_eq (h : Maps b r f chain t ws) : ws.length = t.leaves := by
  induction h with
  | leaf => rfl
  | nil => rfl
  | @cons chain t ts ws ws' _ _ ih ih' =>
    have ih' : ws'.length = leavesAll ts := ih'
    show (ws ++ ws').length = t.leaves + leavesAll ts
    rw [List.length_append, ih, ih']
  | map _ ih => exact ih

/-- Every leaf is addressed to a registered manager. -/
theorem registered (h : Maps b r f chain t ws) : ∀ e ∈ ws, e.1 ∈ r.homes := by
  induction h with
  | leaf find =>
    refine List.forall_mem_singleton.2 (Registry.contains_iff.1 ?_)
    rw [← Registry.find?_isSome, find]
    rfl
  | nil => exact fun _ he => absurd he List.not_mem_nil
  | cons _ _ ih ih' => exact List.forall_mem_append.2 ⟨ih, ih'⟩
  | map _ ih => exact ih

end EffectTree.Maps

/-! ### Shares -/

/-- The values for one home, in order. -/
def valuesFor (home : Home) (ws : List (Home × Value κ)) : List (Value κ) :=
  ws.filterMap fun e => if e.1 = home then some e.2 else none

theorem valuesFor_append (home : Home) (ws ws' : List (Home × Value κ)) :
    valuesFor home (ws ++ ws') = valuesFor home ws ++ valuesFor home ws' :=
  List.filterMap_append

/-- The share of a home in what the commands and the subscriptions have come to. -/
def Share.gathered (cs ss : List (Home × Value κ)) (home : Home) : Share κ :=
  ⟨valuesFor home cs, valuesFor home ss⟩

/-- A share with further values of one family behind the others. -/
def Share.addAll (e : Share κ) : Family → List (Value κ) → Share κ
  | .command, vs => { e with cmds := e.cmds ++ vs }
  | .subscription, vs => { e with subs := e.subs ++ vs }

theorem Share.addAll_nil (e : Share κ) (f : Family) : e.addAll f [] = e := by
  cases f <;> simp [addAll]

theorem Share.addAll_addAll (e : Share κ) (f : Family) (vs vs' : List (Value κ)) :
    (e.addAll f vs).addAll f vs' = e.addAll f (vs ++ vs') := by
  cases f <;> simp [addAll]

namespace Shares

/-- Shares to which values have been added, each for its home. -/
def Adds (f : Family) (ws : List (Home × Value κ)) (g g' : Shares κ) : Prop :=
  ∀ home, g'.find home = (g.find home).addAll f (valuesFor home ws)

theorem Adds.nil (f : Family) (g : Shares κ) : Adds f [] g g :=
  fun _ => (Share.addAll_nil _ f).symm

theorem Adds.one (f : Family) (home : Home) (v : Value κ) (g : Shares κ) :
    Adds f [(home, v)] g (g.add f home v) := by
  intro other
  rw [find_add]
  by_cases h : other = home
  · subst h
    cases f <;> simp [Share.add, Share.addAll, valuesFor]
  · simp [h, Ne.symm h, valuesFor, Share.addAll_nil]

theorem Adds.append {f : Family} {ws ws' : List (Home × Value κ)} {g g' g'' : Shares κ}
    (h : Adds f ws g g') (h' : Adds f ws' g' g'') : Adds f (ws ++ ws') g g'' := by
  intro home
  rw [h' home, h home, Share.addAll_addAll, valuesFor_append]

/-- With all commands and then all subscriptions added, every home has its share. -/
theorem Adds.gathered {cs ss : List (Home × Value κ)} {g g' : Shares κ}
    (h : Adds .command cs [] g) (h' : Adds .subscription ss g g') (home : Home) :
    g'.find home = Share.gathered cs ss home := by
  rw [h' home, h home]
  rfl

/-! ### The walk -/

variable {D : Discipline κ σ S} {s : S}

/-- Whether leaves may be mapped in a state, which leaves it. -/
def Walks (b : Behaviour κ σ) (D : Discipline κ σ S) (s : S) : Prop :=
  ∀ m f chain v, D.Neutral s (.invoke (.mapLeaf m f chain v)) ∧
    ∀ w, D.knows s (.invoke (.mapLeaf m f chain v)) w →
      ((m.manager b).mapLeaf f chain v).Returns w

theorem obeys_addLeaf (walks : Walks b D s) (r : Registry κ) (f : Family) (chain : List (Tagger κ))
    (home : Home) (v : Value κ) (g : Shares κ) :
    (addLeaf b r f chain home v g).Obeys D
      (fun s' g' => s' = s ∧ ∃ ws, EffectTree.Maps b r f chain (.leaf home v) ws ∧ Adds f ws g g')
      s := by
  unfold addLeaf
  split
  · trivial
  · next m find =>
    split
    · next accepts =>
      obtain ⟨⟨may, same⟩, returns⟩ := walks m f chain v
      refine Obeys.map ⟨may, fun w known => ⟨same w known, _, ?_, .one f home w g⟩⟩
      exact .leaf find accepts (returns w known)
    · trivial

mutual

theorem obeys_addTree (walks : Walks b D s) (r : Registry κ) (f : Family) :
    ∀ (t : EffectTree κ) (chain : List (Tagger κ)) (g : Shares κ),
      (addTree b r f chain t g).Obeys D
        (fun s' g' => s' = s ∧ ∃ ws, EffectTree.Maps b r f chain t ws ∧ Adds f ws g g') s
  | .leaf home v, chain, g => by
    rw [addTree]
    exact obeys_addLeaf walks r f chain home v g
  | .node children, chain, g => by
    rw [addTree]
    exact obeys_addTrees walks r f children chain g
  | .map tagger inner, chain, g => by
    rw [addTree]
    refine (obeys_addTree walks r f inner (tagger :: chain) g).mono ?_
    rintro s' g' ⟨same, ws, maps, adds⟩
    exact ⟨same, ws, .map maps, adds⟩

theorem obeys_addTrees (walks : Walks b D s) (r : Registry κ) (f : Family) :
    ∀ (ts : List (EffectTree κ)) (chain : List (Tagger κ)) (g : Shares κ),
      (addTrees b r f chain ts g).Obeys D
        (fun s' g' => s' = s ∧ ∃ ws, EffectTree.Maps b r f chain (.node ts) ws ∧ Adds f ws g g') s
  | [], chain, g => by
    rw [addTrees]
    exact ⟨rfl, [], .nil, .nil f g⟩
  | t :: ts, chain, g => by
    rw [addTrees]
    refine (obeys_addTree walks r f t chain g).bind ?_
    rintro s' g' ⟨same, ws, maps, adds⟩
    rw [same]
    refine (obeys_addTrees walks r f ts chain g').mono ?_
    rintro s'' g'' ⟨same, ws', maps', adds'⟩
    exact ⟨same, _, .cons maps maps', adds.append adds'⟩

end

/-- The walk over the trees of a cycle comes to what the leaves come to. -/
theorem obeys_ofCycle (walks : Walks b D s) (r : Registry κ) (cmds subs : EffectTree κ) :
    (ofCycle b r cmds subs).Obeys D
      (fun s' g => s' = s ∧ ∃ cs ss, EffectTree.Maps b r .command [] cmds cs ∧
        EffectTree.Maps b r .subscription [] subs ss ∧
        ∀ home, g.find home = Share.gathered cs ss home) s := by
  refine (obeys_addTree walks r .command cmds [] []).bind ?_
  rintro s' g ⟨rfl, cs, maps, adds⟩
  refine (obeys_addTree walks r .subscription subs [] g).mono ?_
  rintro s'' g' ⟨same, ss, maps', adds'⟩
  exact ⟨same, cs, ss, maps, maps', adds.gathered adds'⟩

end Shares

/-! ### Counting -/

theorem length_valuesFor_cons (e : Home × Value κ) (ws : List (Home × Value κ)) (home : Home) :
    (valuesFor home (e :: ws)).length =
      (if e.1 = home then 1 else 0) + (valuesFor home ws).length := by
  unfold valuesFor
  rw [List.filterMap_cons]
  by_cases h : e.1 = home
  · rw [if_pos h, if_pos h, List.length_cons, Nat.add_comm]
  · rw [if_neg h, if_neg h, Nat.zero_add]

/-- Every value is for one home of a list without repetitions. -/
theorem sum_indicator {homes : List Home} (nodup : homes.Nodup) {home : Home} (mem : home ∈ homes) :
    (homes.map fun h => if home = h then 1 else 0).sum = 1 := by
  have count : ∀ l : List Home, (l.map fun h => if home = h then 1 else 0).sum = l.count home := by
    intro l
    induction l with
    | nil => rfl
    | cons h l ih =>
      rw [List.map_cons, List.sum_cons, ih, List.count_cons, Nat.add_comm]
      by_cases hh : home = h
      · simp [hh]
      · simp [hh, Ne.symm hh]
  rw [count, List.count_eq_one_of_mem nodup mem]

/-- The values for all homes together are all values. -/
theorem sum_valuesFor {homes : List Home} (nodup : homes.Nodup) (ws : List (Home × Value κ))
    (mem : ∀ e ∈ ws, e.1 ∈ homes) :
    (homes.map fun home => (valuesFor home ws).length).sum = ws.length := by
  induction ws with
  | nil =>
    simp only [valuesFor, List.filterMap_nil, List.length_nil]
    exact List.sum_eq_zero fun n hn => by
      obtain ⟨-, -, rfl⟩ := List.mem_map.1 hn
      rfl
  | cons e ws ih =>
    simp only [length_valuesFor_cons]
    rw [List.sum_map_add, sum_indicator nodup (mem e List.mem_cons_self),
      ih fun e' he' => mem e' (List.mem_cons_of_mem _ he'), List.length_cons, Nat.add_comm]

/-- The shares of the managers have together as many commands and as many subscriptions as the trees
have leaves. -/
theorem Share.sum_gathered {r : Registry κ} (nodup : r.homes.Nodup) {cmds subs : EffectTree κ}
    {cs ss : List (Home × Value κ)} (hc : EffectTree.Maps b r .command [] cmds cs)
    (hs : EffectTree.Maps b r .subscription [] subs ss) :
    (r.homes.map fun home => (gathered cs ss home).cmds.length).sum = cmds.leaves ∧
      (r.homes.map fun home => (gathered cs ss home).subs.length).sum = subs.leaves :=
  ⟨(sum_valuesFor nodup cs hc.registered).trans hc.length_eq,
    (sum_valuesFor nodup ss hs.registered).trans hs.length_eq⟩

end Actors
