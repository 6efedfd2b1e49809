/-
The leaves of the effect trees.

The walk over the trees of a cycle is a walk over a list: all leaves from left to right, those of the
commands first, each with the taggers on its path, the innermost first. The first leaf that no manager
takes breaks the contract. If there is none, every leaf is mapped by the manager under its home, one
after the other, and the shares have an entry for every home that owns a leaf, and for no other.

* `Leaf`, `EffectTree.list`, `EffectTree.cycle` — the list of leaves;
* `Shares.ofCycle_eq` — the walk over the trees is the walk over this list;
* `Leaf.refusal?` — why a leaf is not taken; `Leaf.Become` — what leaves come to;
* `Shares.gathers` — what the walk leads to.
-/
import Actors.Proofs.Gathering
import Actors.Proofs.Leading
import Actors.Proofs.Purity

namespace Actors

variable {κ σ : Type} {b : Behaviour κ σ} {r : Registry κ}

open Procedure

/-! ### Leaves as a list -/

/-- A leaf as the walk meets it, with the taggers on its path, the innermost first. -/
structure Leaf (κ : Type) where
  family : Family
  home : Home
  value : Value κ
  chain : List (Tagger κ)

/-- The leaf when there are further taggers outside. -/
def Leaf.within (outer : List (Tagger κ)) (l : Leaf κ) : Leaf κ :=
  { l with chain := l.chain ++ outer }

theorem Leaf.within_nil : Leaf.within (κ := κ) [] = id := by
  funext l
  exact congrArg (Leaf.mk l.family l.home l.value) (List.append_nil _)

theorem Leaf.within_within (inner outer : List (Tagger κ)) (l : Leaf κ) :
    (l.within inner).within outer = l.within (inner ++ outer) :=
  congrArg (Leaf.mk l.family l.home l.value) (List.append_assoc _ _ _)

namespace EffectTree

mutual

/-- The leaves of a tree, from left to right. -/
def list (f : Family) : EffectTree κ → List (Leaf κ)
  | leaf home v => [⟨f, home, v, []⟩]
  | node children => listAll f children
  | map tagger inner => (inner.list f).map (Leaf.within [tagger])

/-- The leaves of several trees. -/
def listAll (f : Family) : List (EffectTree κ) → List (Leaf κ)
  | [] => []
  | t :: ts => t.list f ++ listAll f ts

end

/-- The leaves of a cycle: first those of the commands, then those of the subscriptions. -/
def cycle (cmds subs : EffectTree κ) : List (Leaf κ) :=
  cmds.list .command ++ subs.list .subscription

end EffectTree

namespace Shares

/-- Maps leaves one after the other. -/
def addLeaves (b : Behaviour κ σ) (r : Registry κ) : List (Leaf κ) → Shares κ → Procedure κ σ (Shares κ)
  | [], g => .ret g
  | l :: ls, g => (addLeaf b r l.family l.chain l.home l.value g).bind (addLeaves b r ls)

theorem addLeaves_append (ls ls' : List (Leaf κ)) (g : Shares κ) :
    addLeaves b r (ls ++ ls') g = (addLeaves b r ls g).bind (addLeaves b r ls') := by
  induction ls generalizing g with
  | nil => rfl
  | cons l ls ih =>
    show (addLeaf b r l.family l.chain l.home l.value g).bind (addLeaves b r (ls ++ ls')) = _
    rw [addLeaves, Act.bind_assoc]
    exact congrArg _ (funext ih)

mutual

/-- The walk over a tree is the walk over its leaves, each with the chain above the tree outside its
own. -/
theorem addTree_eq (b : Behaviour κ σ) (r : Registry κ) (f : Family) :
    ∀ (t : EffectTree κ) (chain : List (Tagger κ)) (g : Shares κ),
      addTree b r f chain t g = addLeaves b r ((t.list f).map (Leaf.within chain)) g
  | .leaf home v, chain, g => by
    rw [addTree]
    exact (Act.bind_ret _).symm
  | .node children, chain, g => by
    rw [addTree, EffectTree.list]
    exact addTrees_eq b r f children chain g
  | .map tagger inner, chain, g => by
    rw [addTree, addTree_eq b r f inner (tagger :: chain) g, EffectTree.list, List.map_map]
    refine congrArg (addLeaves b r · g) (List.map_congr_left fun l _ => ?_)
    exact (l.within_within [tagger] chain).symm

theorem addTrees_eq (b : Behaviour κ σ) (r : Registry κ) (f : Family) :
    ∀ (ts : List (EffectTree κ)) (chain : List (Tagger κ)) (g : Shares κ),
      addTrees b r f chain ts g =
        addLeaves b r ((EffectTree.listAll f ts).map (Leaf.within chain)) g
  | [], chain, g => by
    rw [addTrees, EffectTree.listAll]
    rfl
  | t :: ts, chain, g => by
    rw [addTrees, EffectTree.listAll, List.map_append, addLeaves_append, addTree_eq b r f t chain g]
    exact congrArg _ (funext fun g' => addTrees_eq b r f ts chain g')

end

/-- The walk over the trees of a cycle is the walk over the list of their leaves. -/
theorem ofCycle_eq (b : Behaviour κ σ) (r : Registry κ) (cmds subs : EffectTree κ) :
    ofCycle b r cmds subs = addLeaves b r (EffectTree.cycle cmds subs) [] := by
  have alone : ∀ ls : List (Leaf κ), ls.map (Leaf.within []) = ls := fun ls => by
    rw [Leaf.within_nil, List.map_id]
  rw [ofCycle, EffectTree.cycle, addLeaves_append, addTree_eq, alone]
  refine congrArg _ (funext fun g => ?_)
  rw [addTree_eq, alone]

end Shares

/-! ### Leaves that are taken, and leaves that are not -/

namespace Leaf

/-- Why a leaf is not taken, if it is not: there is no manager under its home, or that manager does not
accept leaves of this family. -/
def refusal? (b : Behaviour κ σ) (r : Registry κ) (l : Leaf κ) : Option Fault :=
  match r.find? l.home with
  | none => some (.unregistered l.home)
  | some m => if (m.manager b).kind.accepts l.family then none else some (.refused l.home l.family)

/-- In a world, the manager under the home of a leaf turns its value into another one. -/
def Becomes (b : Behaviour κ σ) (r : Registry κ) (w : World κ σ) (l : Leaf κ) (w' : World κ σ)
    (v : Value κ) : Prop :=
  ∃ m, r.find? l.home = some m ∧
    LeadsTo b w (ofCode ((m.manager b).mapLeaf l.family l.chain l.value)) w' (.ok v)

/-- What leaves come to, mapped one after the other. -/
inductive Become (b : Behaviour κ σ) (r : Registry κ) :
    World κ σ → List (Leaf κ) → World κ σ → List (Value κ) → Prop where
  | nil (w : World κ σ) : Become b r w [] w []
  | cons {w w₁ w' : World κ σ} {l : Leaf κ} {v : Value κ} {ls : List (Leaf κ)} {vs : List (Value κ)}
      (h : l.Becomes b r w w₁ v) (rest : Become b r w₁ ls w' vs) : Become b r w (l :: ls) w' (v :: vs)

/-- The values for one home, of one family, in what leaves have come to. -/
def valuesOf (f : Family) (home : Home) (ls : List (Leaf κ)) (vs : List (Value κ)) : List (Value κ) :=
  ((ls.zip vs).filter fun x => x.1.family = f ∧ x.1.home = home).map Prod.snd

/-- A manager that takes a leaf maps it without breaking the contract, in every world. -/
def Mapped (b : Behaviour κ σ) (r : Registry κ) (l : Leaf κ) : Prop :=
  l.refusal? b r = none → ∀ w, ∃ w' v, l.Becomes b r w w' v

variable {w w' : World κ σ} {l : Leaf κ} {e : Fault} {v : Value κ} {g : Shares κ}

theorem refusal?_eq_none :
    l.refusal? b r = none ↔ ∃ m, r.find? l.home = some m ∧ (m.manager b).kind.accepts l.family = true := by
  unfold refusal?
  cases r.find? l.home with
  | none => simp
  | some m => simp

/-- A refusal breaks an invariant, and says what is wrong with the leaf. -/
theorem group_of_refusal (h : l.refusal? b r = some e) :
    e.group = .invariant ∧
      (r.find? l.home = none → e.text = "effect for unregistered manager " ++ l.home.text) ∧
      (r.find? l.home ≠ none →
        e.text = "manager " ++ l.home.text ++ " does not accept " ++ (ManagerKind.only l.family).text) := by
  unfold refusal? at h
  split at h
  · next find =>
    obtain rfl := Option.some.inj h
    exact ⟨rfl, fun _ => rfl, fun known => absurd find known⟩
  · next m find =>
    split at h
    · cases h
    · obtain rfl := Option.some.inj h
      refine ⟨rfl, fun unknown => ?_, fun _ => rfl⟩
      cases find.symm.trans unknown

/-- A leaf that is taken is mapped by its manager. -/
theorem addLeaf_of_accepts {m : Hooks κ} (find : r.find? l.home = some m)
    (accepts : (m.manager b).kind.accepts l.family = true) :
    Shares.addLeaf b r l.family l.chain l.home l.value g =
      (invoke (.mapLeaf m l.family l.chain l.value)).map fun v => g.add l.family l.home v := by
  rw [Shares.addLeaf, find]
  exact if_pos accepts

/-- A leaf that is taken is added with what it comes to. -/
theorem Becomes.leadsTo_addLeaf (h : l.Becomes b r w w' v) (taken : l.refusal? b r = none) :
    LeadsTo b w (Shares.addLeaf b r l.family l.chain l.home l.value g) w'
      (.ok (g.add l.family l.home v)) := by
  obtain ⟨m, find, leads⟩ := h
  obtain ⟨m', find', accepts⟩ := refusal?_eq_none.1 taken
  obtain rfl := Option.some.inj (find.symm.trans find')
  rw [addLeaf_of_accepts find accepts]
  exact LeadsTo.map_ok (LeadsTo.invoke_iff.2 leads)

/-- A leaf that is not taken breaks the contract. -/
theorem addLeaf_of_refusal (h : l.refusal? b r = some e) :
    Shares.addLeaf b r l.family l.chain l.home l.value g = .raise e := by
  unfold refusal? at h
  unfold Shares.addLeaf
  cases find : r.find? l.home with
  | none =>
    rw [find] at h
    exact congrArg _ (Option.some.inj h)
  | some m =>
    rw [find] at h
    by_cases accepts : (m.manager b).kind.accepts l.family = true
    · cases (if_pos accepts).symm.trans h
    · have refuses := (if_neg accepts).symm.trans h
      exact (if_neg accepts).trans (congrArg _ (Option.some.inj refuses))

theorem Become.length_eq {ls : List (Leaf κ)} {vs : List (Value κ)} (h : Become b r w ls w' vs) :
    vs.length = ls.length := by
  induction h with
  | nil => rfl
  | cons _ _ ih => exact congrArg Nat.succ ih

/-- Leaves come to one thing only. -/
theorem Become.unique {w'' : World κ σ} {ls : List (Leaf κ)} {vs vs' : List (Value κ)}
    (h : Become b r w ls w' vs) (h' : Become b r w ls w'' vs') : vs' = vs := by
  induction h generalizing vs' with
  | nil =>
    cases h'
    rfl
  | cons first _ ih =>
    cases h' with
    | cons first' rest' =>
      obtain ⟨m, find, leads⟩ := first
      obtain ⟨m', find', leads'⟩ := first'
      obtain rfl := Option.some.inj (find.symm.trans find')
      obtain ⟨rfl, same⟩ := leads.unique leads'
      exact congrArg₂ _ (Except.ok.inj same) (ih rest')

/-- Leaves that are all taken come to something. -/
theorem become_of_taken {ls : List (Leaf κ)} (taken : ∀ l ∈ ls, l.refusal? b r = none)
    (mapped : ∀ l ∈ ls, l.Mapped b r) (w : World κ σ) : ∃ w' vs, Become b r w ls w' vs := by
  induction ls generalizing w with
  | nil => exact ⟨w, [], .nil w⟩
  | cons l ls ih =>
    obtain ⟨w₁, v, becomes⟩ := mapped l List.mem_cons_self (taken l List.mem_cons_self) w
    obtain ⟨w', vs, become⟩ := ih (fun l' h => taken l' (List.mem_cons_of_mem l h))
      (fun l' h => mapped l' (List.mem_cons_of_mem l h)) w₁
    exact ⟨w', v :: vs, .cons becomes become⟩

end Leaf

/-! ### Shares with the values of leaves -/

namespace Shares

/-- The homes that have an entry. -/
def homes (g : Shares κ) : List Home :=
  g.map Prod.fst

/-- Adds what leaves have come to, each for its home. -/
def addEach (ls : List (Leaf κ)) (vs : List (Value κ)) (g : Shares κ) : Shares κ :=
  (ls.zip vs).foldl (fun g x => g.add x.1.family x.1.home x.2) g

theorem addEach_cons (l : Leaf κ) (v : Value κ) (ls : List (Leaf κ)) (vs : List (Value κ)) (g : Shares κ) :
    addEach (l :: ls) (v :: vs) g = addEach ls vs (g.add l.family l.home v) :=
  rfl

/-- A home has an entry once something has been added for it. -/
theorem mem_homes_add {f : Family} {home other : Home} {v : Value κ} {g : Shares κ} :
    other ∈ (g.add f home v).homes ↔ other = home ∨ other ∈ g.homes := by
  induction g with
  | nil => simp [homes, add]
  | cons e es ih =>
    unfold homes at ih ⊢
    by_cases he : e.1 = home
    · simp [add, he]
    · simp [add, he, ih, or_left_comm]

theorem nodup_homes_add {f : Family} {home : Home} {v : Value κ} {g : Shares κ} (h : g.homes.Nodup) :
    (g.add f home v).homes.Nodup := by
  induction g with
  | nil => simp [homes, add]
  | cons e es ih =>
    obtain ⟨fresh, nodup⟩ := List.nodup_cons.1 h
    by_cases he : e.1 = home
    · subst he
      simpa [homes, add] using h
    · have cons : (add f home v (e :: es)).homes = e.1 :: (add f home v es).homes := by
        simp [homes, add, he]
      rw [cons]
      refine List.nodup_cons.2 ⟨fun mem => ?_, ih nodup⟩
      exact (mem_homes_add.1 mem).elim he fresh

/-- Of homes without repetition, an entry is the share of its home. -/
theorem find_of_mem {g : Shares κ} (nodup : g.homes.Nodup) {home : Home} {e : Share κ}
    (h : (home, e) ∈ g) : g.find home = e := by
  induction g with
  | nil => cases h
  | cons x xs ih =>
    obtain ⟨fresh, nodup⟩ := List.nodup_cons.1 nodup
    rcases List.mem_cons.1 h with rfl | later
    · simp [find]
    · have ne : x.1 ≠ home := fun same => fresh (same ▸ List.mem_map_of_mem later)
      rw [← ih nodup later]
      simp [find, ne]

variable {ls : List (Leaf κ)} {vs : List (Value κ)} {g : Shares κ}

theorem nodup_homes_addEach (h : g.homes.Nodup) : (addEach ls vs g).homes.Nodup := by
  induction ls generalizing vs g with
  | nil => exact h
  | cons l ls ih =>
    cases vs with
    | nil => exact h
    | cons v vs => exact ih (nodup_homes_add h)

/-- The homes of the leaves have an entry, beside those that had one. -/
theorem mem_homes_addEach (len : vs.length = ls.length) {home : Home} :
    home ∈ (addEach ls vs g).homes ↔ (∃ l ∈ ls, l.home = home) ∨ home ∈ g.homes := by
  induction ls generalizing vs g with
  | nil => simp [addEach]
  | cons l ls ih =>
    cases vs with
    | nil => cases len
    | cons v vs =>
      rw [addEach_cons, ih (Nat.succ.inj len), mem_homes_add, List.exists_mem_cons_iff, or_assoc,
        or_left_comm, eq_comm]

/-- Every home gets the values of its leaves, in order, behind what it had. -/
theorem find_addEach (home : Home) :
    (addEach ls vs g).find home =
      ⟨(g.find home).cmds ++ Leaf.valuesOf .command home ls vs,
        (g.find home).subs ++ Leaf.valuesOf .subscription home ls vs⟩ := by
  induction ls generalizing vs g with
  | nil => simp [addEach, Leaf.valuesOf]
  | cons l ls ih =>
    cases vs with
    | nil => simp [addEach, Leaf.valuesOf]
    | cons v vs =>
      rw [addEach_cons, ih, find_add]
      by_cases h : home = l.home
      · subst h
        cases hf : l.family <;> simp [Leaf.valuesOf, Share.add, hf]
      · simp [Leaf.valuesOf, h, Ne.symm h]

/-- Leaves that are all taken are added with what they come to. -/
theorem leadsTo_addLeaves {w w' : World κ σ} (h : Leaf.Become b r w ls w' vs)
    (taken : ∀ l ∈ ls, l.refusal? b r = none) :
    LeadsTo b w (addLeaves b r ls g) w' (.ok (addEach ls vs g)) := by
  induction h generalizing g with
  | nil w => exact .ret w g
  | @cons w w₁ w' l v ls vs becomes _ ih =>
    refine (becomes.leadsTo_addLeaf (taken l List.mem_cons_self)).bind_ok ?_
    exact ih fun l' h => taken l' (List.mem_cons_of_mem l h)

end Shares

/-! ### The whole walk -/

/-- A chain of taggers is applied from the inside to the outside, the head first. -/
theorem Tagger.applyAll_eq_foldl (chain : List (Tagger κ)) (v : Value κ) :
    (Tagger.applyAll chain v : Code κ σ (Value κ)) = chain.foldl (fun x t => x.bind t.apply) (.ret v) := by
  have ahead : ∀ (chain : List (Tagger κ)) (x : Code κ σ (Value κ)),
      chain.foldl (fun x t => x.bind t.apply) x = x.bind (Tagger.applyAll chain) := by
    intro chain
    induction chain with
    | nil => exact fun x => (Act.bind_ret x).symm
    | cons t ts ih => exact fun x => (ih _).trans (Act.bind_assoc x _ _)
  exact (ahead chain (.ret v)).symm

/-- The walk over the trees of a cycle. If every leaf is taken, the leaves are mapped one after the other
and the shares are a map of the homes that own a leaf, each with the values of its commands and of its
subscriptions in order. If not, the first leaf that is not taken breaks an invariant. A chain of taggers
that is applied to a value runs from the innermost tagger to the outermost one. -/
theorem Shares.gathers (b : Behaviour κ σ) (r : Registry κ) (cmds subs : EffectTree κ) (w : World κ σ)
    (mapped : ∀ l ∈ EffectTree.cycle cmds subs, l.Mapped b r) :
    ((EffectTree.cycle cmds subs).find? (fun l => (l.refusal? b r).isSome) = none →
      ∃ w' vs g, Leaf.Become b r w (EffectTree.cycle cmds subs) w' vs ∧
        LeadsTo b w (ofCycle b r cmds subs) w' (.ok g) ∧ g.homes.Nodup ∧
        (∀ home, home ∈ g.homes ↔ ∃ l ∈ EffectTree.cycle cmds subs, l.home = home) ∧
        ∀ home e, (home, e) ∈ g →
          e.cmds = Leaf.valuesOf .command home (EffectTree.cycle cmds subs) vs ∧
          e.subs = Leaf.valuesOf .subscription home (EffectTree.cycle cmds subs) vs) ∧
    (∀ l, (EffectTree.cycle cmds subs).find? (fun l => (l.refusal? b r).isSome) = some l →
      ∃ w' e, LeadsTo b w (ofCycle b r cmds subs) w' (.error e) ∧ e.group = .invariant ∧
        (r.find? l.home = none → e.text = "effect for unregistered manager " ++ l.home.text) ∧
        (r.find? l.home ≠ none →
          e.text = "manager " ++ l.home.text ++ " does not accept " ++
            (ManagerKind.only l.family).text)) ∧
    ∀ (chain : List (Tagger κ)) (v : Value κ),
      (Tagger.applyAll chain v : Code κ σ (Value κ)) =
        chain.foldl (fun x t => x.bind t.apply) (.ret v) := by
  rw [ofCycle_eq]
  refine ⟨fun none => ?_, fun l first => ?_, Tagger.applyAll_eq_foldl⟩
  · have taken : ∀ l ∈ EffectTree.cycle cmds subs, l.refusal? b r = .none := fun l mem =>
      Option.not_isSome_iff_eq_none.1 (List.find?_eq_none.1 none l mem)
    obtain ⟨w', vs, become⟩ := Leaf.become_of_taken taken mapped w
    have nodup : (addEach (EffectTree.cycle cmds subs) vs []).homes.Nodup :=
      nodup_homes_addEach List.nodup_nil
    refine ⟨w', vs, _, become, leadsTo_addLeaves become taken, nodup, fun home => ?_, fun home e mem => ?_⟩
    · rw [mem_homes_addEach become.length_eq]
      exact or_iff_left List.not_mem_nil
    · obtain rfl := find_of_mem nodup mem
      rw [find_addEach]
      exact ⟨rfl, rfl⟩
  · obtain ⟨offends, before, after, split, taken⟩ := List.find?_eq_some_iff_append.1 first
    obtain ⟨e, refusal⟩ := Option.isSome_iff_exists.1 offends
    have taken : ∀ l ∈ before, l.refusal? b r = none := fun l mem => by
      simpa using taken l mem
    have mapped : ∀ l ∈ before, l.Mapped b r := fun l mem =>
      mapped l (split ▸ List.mem_append_left _ mem)
    obtain ⟨w', vs, become⟩ := Leaf.become_of_taken taken mapped w
    refine ⟨w', e, ?_, Leaf.group_of_refusal refusal⟩
    rw [split, addLeaves_append]
    refine (leadsTo_addLeaves become taken).bind_ok ?_
    rw [addLeaves, Leaf.addLeaf_of_refusal refusal]
    exact .raise w' e

/-- Two managers that map a leaf by the taggers on its path, and two taggers, which make a value a good
result and a bad one. -/
def wrapping : Behaviour Bool Unit :=
  { Behaviour.ofCallbacks fun _ v => .succeed v with
    convert := fun good v => .ret (if good then .ok v else .err v)
    manager := fun _ =>
      { kind := .both
        state := .unit
        init := .ret (.succeed .unit)
        onEffects := fun _ _ _ s => .ret (.succeed s)
        onMessage := fun _ _ s => .ret (.succeed s)
        mapCommand := Tagger.applyAll
        mapSubscription := Tagger.applyAll } }

/-- The two managers. -/
def wrappers : Registry Bool :=
  (Registry.empty.add ⟨"a"⟩ (.custom true) rfl).add ⟨"b"⟩ (.custom true) rfl

/-- Commands for both managers, all of them made good results in the end. -/
def wrapped : EffectTree Bool :=
  .map (.raw true) (.node [.leaf ⟨"a"⟩ (.int 1), .map (.raw false) (.leaf ⟨"b"⟩ (.int 2))])

/-- The leaves of the commands, and of a subscription for the second manager. -/
def wraps : List (Leaf Bool) :=
  [⟨.command, ⟨"a"⟩, .int 1, [.raw true]⟩, ⟨.command, ⟨"b"⟩, .int 2, [.raw false, .raw true]⟩,
    ⟨.subscription, ⟨"b"⟩, .int 4, []⟩]

theorem wrapping_convert (w : World Bool Unit) (good : Bool) (v : Value Bool) :
    LeadsTo wrapping w (ofCode (Tagger.apply (.raw good) v)) w (.ok (if good then .ok v else .err v)) :=
  LeadsTo.convert_iff.2 (.ret w _)

theorem wrapping_once (w : World Bool Unit) (v : Value Bool) :
    LeadsTo wrapping w (ofCode (Tagger.applyAll [.raw true] v)) w (.ok (.ok v)) := by
  rw [Tagger.applyAll, ofCode_bind]
  exact (wrapping_convert w true v).bind_ok (.ret w _)

theorem wrapping_twice (w : World Bool Unit) (v : Value Bool) :
    LeadsTo wrapping w (ofCode (Tagger.applyAll [.raw false, .raw true] v)) w (.ok (.ok (.err v))) := by
  rw [Tagger.applyAll, ofCode_bind]
  exact (wrapping_convert w false v).bind_ok (wrapping_once w (.err v))

theorem wraps_become (w : World Bool Unit) :
    Leaf.Become wrapping wrappers w wraps w [.ok (.int 1), .ok (.err (.int 2)), .int 4] :=
  .cons ⟨.custom true, rfl, wrapping_once w _⟩ (.cons ⟨.custom true, rfl, wrapping_twice w _⟩
    (.cons ⟨.custom true, rfl, .ret w _⟩ (.nil w)))

/-- The second manager gets a command, a bad result before it was made a good one, and a subscription. -/
theorem wrapped_gathers :
    (∀ l ∈ EffectTree.cycle wrapped (.leaf ⟨"b"⟩ (.int 4)), l.Mapped wrapping wrappers) ∧
      ∃ w' g, LeadsTo wrapping (.new .standard ())
          (Shares.ofCycle wrapping wrappers wrapped (.leaf ⟨"b"⟩ (.int 4))) w' (.ok g) ∧
        g.homes.Nodup ∧ (∀ home, home ∈ g.homes ↔ home = ⟨"a"⟩ ∨ home = ⟨"b"⟩) ∧
        ∀ e, (⟨"b"⟩, e) ∈ g → e = ⟨[.ok (.err (.int 2))], [.int 4]⟩ := by
  have leaves : EffectTree.cycle wrapped (.leaf ⟨"b"⟩ (.int 4)) = wraps := rfl
  have mapped : ∀ l ∈ wraps, l.Mapped wrapping wrappers := by
    have all : ∀ w, wraps.Forall fun l => ∃ w' v, l.Becomes wrapping wrappers w w' v := fun w =>
      ⟨⟨w, _, .custom true, rfl, wrapping_once w _⟩, ⟨w, _, .custom true, rfl, wrapping_twice w _⟩,
        w, .int 4, .custom true, rfl, .ret w _⟩
    exact fun l mem _ w => List.forall_iff_forall_mem.1 (all w) l mem
  have taken : wraps.Forall fun l => l.refusal? wrapping wrappers = none :=
    ⟨Leaf.refusal?_eq_none.2 ⟨.custom true, rfl, rfl⟩, Leaf.refusal?_eq_none.2 ⟨.custom true, rfl, rfl⟩,
      Leaf.refusal?_eq_none.2 ⟨.custom true, rfl, rfl⟩⟩
  have gathers := Shares.gathers wrapping wrappers wrapped (.leaf ⟨"b"⟩ (.int 4)) (.new .standard ())
    (leaves ▸ mapped)
  obtain ⟨w', vs, g, become, leads, nodup, homes, entries⟩ := gathers.1 <|
    List.find?_eq_none.2 fun l mem => by
      rw [List.forall_iff_forall_mem.1 taken l (leaves ▸ mem)]
      exact Bool.false_ne_true
  rw [leaves] at become homes entries
  refine ⟨leaves ▸ mapped, w', g, leads, nodup, fun home => ?_, fun e mem => ?_⟩
  · rw [homes]
    simp [wraps, eq_comm]
  · obtain rfl := (wraps_become _).unique become
    obtain ⟨cmds, subs⟩ := entries _ e mem
    exact congrArg₂ Share.mk cmds subs

end Actors
