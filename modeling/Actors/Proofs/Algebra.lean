/-
The algebra of effect trees.

Trees may be rearranged without any effect: batches may be spliced into one another, and taggers may be moved
into a batch. All that counts is the list of leaves, each with the taggers on its path. If in addition leaves
are mapped by their taggers alone, one tagger may be put for two, and an identity may be left out. The same is
true of the commands for the built-in manager, in so far as their workers send the same messages: what such a
command is turned into does hold the taggers, which the worker applies at last.

* `EffectTree.Same` — trees that are equal by these laws, applied in any place;
* `EffectTree.Same.leaves` — their leaves differ only by chains of taggers that do the same;
* `Shares.matches_addLeaves` — the walk over leaves that match;
* `EffectTree.ofCycle_lawful` — the laws, and that the walk over the trees of a cycle leads to the same.
-/
import Actors.Proofs.Chains

namespace Actors

variable {κ σ : Type} {b : Behaviour κ σ} {r : Registry κ} {H : Family → Home → Prop} {f : Family}

open Procedure

/-! ### Where taggers matter -/

namespace Registry

/-- The leaves of a family under a home are mapped by their taggers alone. -/
def Plain (b : Behaviour κ σ) (r : Registry κ) (f : Family) (home : Home) : Prop :=
  ∀ m, r.find? home = some m → ∀ chain v, (m.manager b).mapLeaf f chain v = Tagger.applyAll chain v

/-- The leaves of a family under a home are commands for the built-in manager. -/
def Commands (r : Registry κ) (f : Family) (home : Home) : Prop :=
  r.find? home = some .tasks ∧ f = .command

/-- A value that the taggers of a leaf are applied to: that of the leaf itself, or one that comes of its task if
it is a command for the built-in manager. -/
def Feeds (b : Behaviour κ σ) (r : Registry κ) (f : Family) (home : Home) (v x : Value κ) : Prop :=
  r.Plain b f home ∧ x = v ∨
    r.Commands f home ∧ ∃ t work, v = .command t ∧ t.Results b work (.ok x)

end Registry

/-- Leaves that differ by their chains of taggers at most, and these do the same with all that they are applied
to. They differ under the homes of a set only. -/
inductive Leaf.Like (b : Behaviour κ σ) (r : Registry κ) (H : Family → Home → Prop) : Leaf κ → Leaf κ → Prop where
  | refl (l : Leaf κ) : Like b r H l l
  | chain {f : Family} {home : Home} {v : Value κ} {c c' : List (Tagger κ)} (own : H f home)
      (alike : ∀ x, r.Feeds b f home v x → Tagger.Alike b c c' x) : Like b r H ⟨f, home, v, c⟩ ⟨f, home, v, c'⟩

namespace Leaf.Like

variable {l l' l'' : Leaf κ}

theorem symm (h : Like b r H l l') : Like b r H l' l := by
  cases h with
  | refl => exact .refl _
  | chain own alike => exact .chain own fun x feeds => (alike x feeds).symm

theorem trans (h : Like b r H l l') (h' : Like b r H l' l'') : Like b r H l l'' := by
  cases h with
  | refl => exact h'
  | chain own alike =>
    cases h' with
    | refl => exact .chain own alike
    | chain _ alike' => exact .chain own fun x feeds => (alike x feeds).trans (alike' x feeds)

theorem within (h : Like b r H l l') (outer : List (Tagger κ)) : Like b r H (l.within outer) (l'.within outer) := by
  cases h with
  | refl => exact .refl _
  | chain own alike => exact .chain own fun x feeds => (alike x feeds).outside outer

theorem trans_all {ls ls' ls'' : List (Leaf κ)} (h : List.Forall₂ (Like b r H) ls ls')
    (h' : List.Forall₂ (Like b r H) ls' ls'') : List.Forall₂ (Like b r H) ls ls'' := by
  induction h generalizing ls'' with
  | nil => exact h'
  | cons first _ ih =>
    cases h' with
    | cons first' rest' => exact .cons (first.trans first') (ih rest')

end Leaf.Like

/-! ### Trees that are equal by the laws -/

namespace EffectTree

/-- A value that may come to the taggers above a tree, from one of its leaves. -/
def Emits (b : Behaviour κ σ) (r : Registry κ) (f : Family) (t : EffectTree κ) (x : Value κ) : Prop :=
  ∃ l ∈ t.list f, ∃ v, r.Feeds b f l.home l.value v ∧ (ofCode (Tagger.applyAll l.chain v)).Brings b x

/-- Above a tree, two chains of taggers do the same. -/
def Unites (b : Behaviour κ σ) (r : Registry κ) (f : Family) (t : EffectTree κ) (c c' : List (Tagger κ)) : Prop :=
  ∀ x, t.Emits b r f x → Tagger.Alike b c c' x

/-- Trees of one family that are equal by the laws, applied in any place and any number of times. The last two
laws are applied to trees whose leaves are all under homes of a set. -/
inductive Same (b : Behaviour κ σ) (r : Registry κ) (H : Family → Home → Prop) (f : Family) :
    EffectTree κ → EffectTree κ → Prop where
  | refl (t : EffectTree κ) : Same b r H f t t
  | symm {t u : EffectTree κ} (h : Same b r H f t u) : Same b r H f u t
  | trans {t u v : EffectTree κ} (h : Same b r H f t u) (h' : Same b r H f u v) : Same b r H f t v
  /-- In a batch. -/
  | node {t u : EffectTree κ} (before after : List (EffectTree κ)) (h : Same b r H f t u) :
      Same b r H f (.node (before ++ t :: after)) (.node (before ++ u :: after))
  /-- Below a tagger. -/
  | map {t u : EffectTree κ} (tagger : Tagger κ) (h : Same b r H f t u) :
      Same b r H f (.map tagger t) (.map tagger u)
  /-- A batch in a batch may be spliced in. -/
  | flatten (before inner after : List (EffectTree κ)) :
      Same b r H f (.node (before ++ .node inner :: after)) (.node (before ++ inner ++ after))
  /-- A batch of one tree is this tree. -/
  | single (t : EffectTree κ) : Same b r H f (.node [t]) t
  /-- A tagger goes to all trees of a batch. -/
  | distribute (tagger : Tagger κ) (ts : List (EffectTree κ)) :
      Same b r H f (.map tagger (.node ts)) (.node (ts.map (.map tagger)))
  /-- One tagger may be put for two. -/
  | compose {outer inner both : Tagger κ} {t : EffectTree κ} (homes : ∀ l ∈ t.list f, H f l.home)
      (after : t.Unites b r f [inner, outer] [both]) : Same b r H f (.map outer (.map inner t)) (.map both t)
  /-- An identity may be left out. -/
  | identity {i : Tagger κ} {t : EffectTree κ} (homes : ∀ l ∈ t.list f, H f l.home)
      (same : t.Unites b r f [i] []) : Same b r H f (.map i t) t

theorem listAll_append (f : Family) (ts us : List (EffectTree κ)) :
    listAll f (ts ++ us) = listAll f ts ++ listAll f us := by
  induction ts with
  | nil => rw [List.nil_append, listAll, List.nil_append]
  | cons t ts ih => rw [List.cons_append, listAll, listAll, ih, List.append_assoc]

theorem listAll_map (f : Family) (tagger : Tagger κ) (ts : List (EffectTree κ)) :
    listAll f (ts.map (.map tagger)) = (listAll f ts).map (Leaf.within [tagger]) := by
  induction ts with
  | nil => rw [List.map_nil, listAll, List.map_nil]
  | cons t ts ih => rw [List.map_cons, listAll, listAll, list, ih, List.map_append]

mutual

/-- The leaves of a tree are of its family. -/
theorem family_of_mem (f : Family) : ∀ (t : EffectTree κ), ∀ l ∈ t.list f, l.family = f
  | .leaf home v, l, mem => by
    rw [list] at mem
    obtain rfl := List.mem_singleton.1 mem
    rfl
  | .node children, l, mem => by
    rw [list] at mem
    exact family_of_mem_all f children l mem
  | .map tagger inner, l, mem => by
    rw [list] at mem
    obtain ⟨l', mem', rfl⟩ := List.mem_map.1 mem
    exact family_of_mem f inner l' mem'

theorem family_of_mem_all (f : Family) : ∀ (ts : List (EffectTree κ)), ∀ l ∈ listAll f ts, l.family = f
  | [], l, mem => by
    rw [listAll] at mem
    exact absurd mem List.not_mem_nil
  | t :: ts, l, mem => by
    rw [listAll] at mem
    exact (List.mem_append.1 mem).elim (family_of_mem f t l) (family_of_mem_all f ts l)

end

/-- Leaves of one tree that are put below two chains of taggers. -/
theorem Unites.leaves {t : EffectTree κ} {c c' : List (Tagger κ)} (homes : ∀ l ∈ t.list f, H f l.home)
    (h : t.Unites b r f c c') :
    List.Forall₂ (Leaf.Like b r H) ((t.list f).map (Leaf.within c)) ((t.list f).map (Leaf.within c')) := by
  rw [List.forall₂_map_left_iff, List.forall₂_map_right_iff, List.forall₂_same]
  intro l mem
  obtain rfl := family_of_mem f t l mem
  exact .chain (homes l mem) fun v feeds => .inside fun x brings => h x ⟨l, mem, v, feeds, brings⟩

/-- The leaves of trees that are equal by the laws. -/
theorem Same.leaves {t u : EffectTree κ} (h : Same b r H f t u) :
    List.Forall₂ (Leaf.Like b r H) (t.list f) (u.list f) := by
  have refl : ∀ ls : List (Leaf κ), List.Forall₂ (Leaf.Like b r H) ls ls := fun ls =>
    List.forall₂_same.2 fun l _ => .refl l
  have of_eq : ∀ {ls ls' : List (Leaf κ)}, ls = ls' → List.Forall₂ (Leaf.Like b r H) ls ls' := fun same =>
    same ▸ refl _
  -- Most laws leave the list of leaves as it is; a tagger in place of others, or none, is where
  -- the leaves change.
  induction h with
  | refl t => exact refl _
  | symm _ ih => exact (ih.imp fun _ _ => Leaf.Like.symm).flip
  | trans _ _ ih ih' => exact Leaf.Like.trans_all ih ih'
  | node before after _ ih =>
    rw [list, list, listAll_append, listAll_append, listAll, listAll]
    exact List.rel_append (refl _) (List.rel_append ih (refl _))
  | map tagger _ ih =>
    rw [list, list]
    exact List.rel_map (fun _ _ like => like.within [tagger]) ih
  | flatten before inner after =>
    refine of_eq ?_
    rw [list, list, listAll_append, listAll_append, listAll_append, listAll, list, List.append_assoc]
  | single t =>
    refine of_eq ?_
    rw [list, listAll, listAll, List.append_nil]
  | distribute tagger ts =>
    refine of_eq ?_
    rw [list, list, list, listAll_map]
  | @compose outer inner both t homes after =>
    have below : ((t.list f).map (Leaf.within [inner])).map (Leaf.within [outer]) =
        (t.list f).map (Leaf.within [inner, outer]) := by
      rw [List.map_map]
      exact List.map_congr_left fun l _ => l.within_within [inner] [outer]
    rw [list, list, list, below]
    exact after.leaves homes
  | @identity i t homes same =>
    have alone := same.leaves homes
    rw [Leaf.within_nil, List.map_id] at alone
    rw [list]
    exact alone

end EffectTree

/-! ### The walk over leaves that match -/

/-- Lists of commands and of subscriptions with values in a relation, one by one. -/
structure Share.Like (R : Value κ → Value κ → Prop) (e e' : Share κ) : Prop where
  cmds : List.Forall₂ R e.cmds e'.cmds
  subs : List.Forall₂ R e.subs e'.subs

/-- Shares with the same entries in the same order, up to a relation between the values for a home. -/
def Shares.Like (S : Home → Value κ → Value κ → Prop) : Shares κ → Shares κ → Prop :=
  List.Forall₂ fun e e' => e.1 = e'.1 ∧ e.2.Like (S e.1) e'.2

/-- Leaves of one family for one home, whose values come to values in a relation. -/
structure Leaf.Matches (b : Behaviour κ σ) (r : Registry κ) (S : Home → Value κ → Value κ → Prop)
    (l l' : Leaf κ) : Prop where
  family : l.family = l'.family
  home : l.home = l'.home
  values : ∀ m, r.find? l.home = some m →
    Procedure.Matches b (S l.home) (ofCode ((m.manager b).mapLeaf l.family l.chain l.value))
      (ofCode ((m.manager b).mapLeaf l'.family l'.chain l'.value))

section

variable {S : Home → Value κ → Value κ → Prop} {R : Value κ → Value κ → Prop} {e e' : Share κ}
  {g g' : Shares κ} {home : Home} {v v' : Value κ} {l l' : Leaf κ} {ls ls' : List (Leaf κ)}

theorem Share.Like.add (h : e.Like R e') (f : Family) (related : R v v') : (e.add f v).Like R (e'.add f v') := by
  have last : List.Forall₂ R [v] [v'] := .cons related .nil
  cases f with
  | command => exact ⟨List.rel_append h.cmds last, h.subs⟩
  | subscription => exact ⟨h.cmds, List.rel_append h.subs last⟩

theorem Shares.Like.add (h : g.Like S g') (f : Family) (related : S home v v') :
    Like S (g.add f home v) (g'.add f home v') := by
  induction h with
  | nil => exact .cons ⟨rfl, Share.Like.add ⟨.nil, .nil⟩ f related⟩ .nil
  | @cons x y g g' first rest ih =>
    by_cases same : x.1 = home
    · have same' : y.1 = home := first.1.symm.trans same
      rw [Shares.add, Shares.add, if_pos same, if_pos same']
      exact .cons ⟨rfl, Share.Like.add (same ▸ first.2) f related⟩ rest
    · have other : y.1 ≠ home := first.1 ▸ same
      rw [Shares.add, Shares.add, if_neg same, if_neg other]
      exact .cons first ih

/-- Shares that differ in nothing are the same. -/
theorem Shares.Like.eq (h : g.Like (fun _ v v' => v = v') g') : g = g' := by
  refine List.forall₂_eq_eq_eq ▸ h.imp fun x y related => ?_
  obtain ⟨same, cmds, subs⟩ := related
  rw [List.forall₂_eq_eq_eq] at cmds subs
  exact Prod.ext same (congrArg₂ Share.mk cmds subs)

theorem Leaf.Matches.addLeaf (h : l.Matches b r S l') (like : g.Like S g') :
    Procedure.Matches b (Shares.Like S) (Shares.addLeaf b r l.family l.chain l.home l.value g)
      (Shares.addLeaf b r l'.family l'.chain l'.home l'.value g') := by
  obtain ⟨family, home, v, chain⟩ := l
  obtain ⟨family', home', v', chain'⟩ := l'
  obtain ⟨rfl, rfl, values⟩ := h
  have refusal : Leaf.refusal? b r ⟨family, home, v', chain'⟩ = Leaf.refusal? b r ⟨family, home, v, chain⟩ := rfl
  cases reason : Leaf.refusal? b r ⟨family, home, v, chain⟩ with
  | some e =>
    rw [Leaf.addLeaf_of_refusal reason, Leaf.addLeaf_of_refusal (refusal.trans reason)]
    exact .raise e
  | none =>
    obtain ⟨m, find, accepts⟩ := Leaf.refusal?_eq_none.1 reason
    have invoked : ∀ chain v, Procedure.Alike b (invoke (.mapLeaf m family chain v))
        (ofCode ((m.manager b).mapLeaf family chain v)) := fun chain v _ _ _ => LeadsTo.invoke_iff
    have mapped := (invoked chain v).trans_matches (values m find) (invoked chain' v').symm
    rw [Leaf.addLeaf_of_accepts find accepts, Leaf.addLeaf_of_accepts (l := ⟨family, home, v', chain'⟩) find accepts]
    exact mapped.map fun u u' related => like.add family related

/-- The walk over leaves that match one by one leads to shares that do so, or to the same fault. -/
theorem Shares.matches_addLeaves (h : List.Forall₂ (Leaf.Matches b r S) ls ls') (like : g.Like S g') :
    Procedure.Matches b (Like S) (addLeaves b r ls g) (addLeaves b r ls' g') := by
  induction h generalizing g g' with
  | nil => exact .ret like
  | cons first _ ih => exact (first.addLeaf like).bind fun _ _ like' => ih like'

/-- The walk over the trees of a cycle, whose leaves match one by one. -/
theorem Shares.matches_ofCycle {cmds cmds' subs subs' : EffectTree κ}
    (hc : List.Forall₂ (Leaf.Matches b r S) (cmds.list .command) (cmds'.list .command))
    (hs : List.Forall₂ (Leaf.Matches b r S) (subs.list .subscription) (subs'.list .subscription)) :
    Procedure.Matches b (Like S) (ofCycle b r cmds subs) (ofCycle b r cmds' subs') := by
  rw [ofCycle_eq, ofCycle_eq]
  exact matches_addLeaves (List.rel_append hc hs) .nil

end

/-! ### What the laws keep -/

/-- Values for a home that differ by chains of taggers at most, and do so in commands for the built-in manager
only. -/
inductive Value.Alike (b : Behaviour κ σ) (r : Registry κ) (home : Home) : Value κ → Value κ → Prop where
  | refl (v : Value κ) : Alike b r home v v
  | order {o o' : Order κ} (builtIn : r.find? home = some .tasks) (alike : o.Alike b o') :
      Alike b r home o.command o'.command

/-- The built-in manager takes such values for the same tasks, or refuses the same one of them. Their workers
cannot be told apart. -/
theorem Manager.answers_tasksOf {home : Home} {vs vs' : List (Value κ)}
    (h : List.Forall₂ (Value.Alike b r home) vs vs') :
    Procedure.Answers (List.Forall₂ fun t t' => ∀ app, (worker app t).Equal b (worker app t'))
      (tasksOf vs) (tasksOf vs') := by
  have taken : ∀ {v v' : Value κ}, v.Alike b r home v' →
      Procedure.Answers (fun t t' => ∀ app, (worker app t).Equal b (worker app t')) v.toCommand v'.toCommand := by
    intro v v' alike
    cases alike with
    | refl =>
      cases v.toCommand with
      | ok t => exact .ok fun app => .refl _
      | error e => exact .error e
    | order _ alike => exact .ok fun app => alike.worker app
  induction h with
  | nil => exact .ok .nil
  | @cons v v' vs vs' first _ ih =>
    rw [tasksOf, tasksOf]
    exact (taken first).bind fun t t' equal => ih.bind fun ts ts' equals => .ok (.cons equal equals)

namespace Leaf.Like

variable {l l' : Leaf κ}

theorem eq (h : Like b r (fun _ _ => False) l l') : l = l' := by
  cases h with
  | refl => rfl
  | chain own => exact own.elim

theorem matches_refl {S : Home → Value κ → Value κ → Prop} (same : ∀ home v, S home v v) (l : Leaf κ) :
    l.Matches b r S l :=
  ⟨rfl, rfl, fun _ _ => (Procedure.Alike.refl _).matches_eq.mono fun v _ eq => eq ▸ same _ v⟩

theorem values_plain {f : Family} {home : Home} {v : Value κ} {c c' : List (Tagger κ)} (plain : r.Plain b f home)
    (alike : ∀ x, r.Feeds b f home v x → Tagger.Alike b c c' x) (m : Hooks κ) (find : r.find? home = some m) :
    Procedure.Matches b Eq (ofCode ((m.manager b).mapLeaf f c v)) (ofCode ((m.manager b).mapLeaf f c' v)) := by
  rw [plain m find, plain m find]
  exact (alike v (.inl ⟨plain, rfl⟩)).leads.matches_eq

/-- Where leaves are mapped by their taggers alone, they come to the same. -/
theorem matches_eq (h : Like b r (r.Plain b) l l') : l.Matches b r (fun _ v v' => v = v') l' := by
  cases h with
  | refl => exact matches_refl (fun _ _ => rfl) l
  | chain plain alike => exact ⟨rfl, rfl, values_plain plain alike⟩

/-- A command for the built-in manager keeps the taggers for its worker. -/
theorem matches_alike (h : Like b r (fun f home => r.Plain b f home ∨ r.Commands f home) l l') :
    l.Matches b r (Value.Alike b r) l' := by
  cases h with
  | refl => exact matches_refl (fun _ v => .refl v) l
  | @chain f home v c c' own alike =>
    refine ⟨rfl, rfl, fun m find => ?_⟩
    rcases own with plain | commands
    · exact (values_plain plain alike m find).mono fun u _ eq => eq ▸ .refl u
    · obtain ⟨builtIn, rfl⟩ := commands
      obtain rfl := Option.some.inj (find.symm.trans builtIn)
      cases v with
      | command t =>
        have same : Order.Alike b ⟨t, c⟩ ⟨t, c'⟩ :=
          ⟨rfl, fun work x results => alike x (.inr ⟨⟨builtIn, rfl⟩, t, work, rfl, results⟩)⟩
        exact .ret (.order builtIn same)
      | _ => exact .raise _

end Leaf.Like

namespace EffectTree

variable {cmds cmds' subs subs' t u x y z : EffectTree κ}

namespace Same

/-- It does not matter how batches are grouped. -/
theorem assoc (x y z : EffectTree κ) : Same b r H f (.node [.node [x, y], z]) (.node [x, .node [y, z]]) :=
  (flatten [] [x, y] [z]).trans (flatten [x] [y, z] []).symm

/-- The empty batch may be left out. -/
theorem none_left (t : EffectTree κ) : Same b r H f (.node [.node [], t]) t :=
  (flatten [] [] [t]).trans (single t)

theorem none_right (t : EffectTree κ) : Same b r H f (.node [t, .node []]) t :=
  (flatten [t] [] []).trans (single t)

/-- Trees that are equal by the laws of batches are walked in the same way. -/
theorem ofCycle_eq (hc : Same b r (fun _ _ => False) .command cmds cmds')
    (hs : Same b r (fun _ _ => False) .subscription subs subs') :
    Shares.ofCycle b r cmds subs = Shares.ofCycle b r cmds' subs' := by
  have same : ∀ {f} {t u : EffectTree κ}, Same b r (fun _ _ => False) f t u → t.list f = u.list f := fun h =>
    List.forall₂_eq_eq_eq ▸ h.leaves.imp fun _ _ => Leaf.Like.eq
  rw [Shares.ofCycle_eq, Shares.ofCycle_eq, cycle, cycle, same hc, same hs]

/-- Where leaves are mapped by their taggers alone, the walk leads to the same. -/
theorem alike_ofCycle (hc : Same b r (r.Plain b) .command cmds cmds')
    (hs : Same b r (r.Plain b) .subscription subs subs') :
    Procedure.Alike b (Shares.ofCycle b r cmds subs) (Shares.ofCycle b r cmds' subs') := by
  have walk : ∀ {cmds cmds' subs subs' : EffectTree κ}, Same b r (r.Plain b) .command cmds cmds' →
      Same b r (r.Plain b) .subscription subs subs' →
      Procedure.Matches b Eq (Shares.ofCycle b r cmds subs) (Shares.ofCycle b r cmds' subs') := fun hc hs =>
    (Shares.matches_ofCycle (hc.leaves.imp fun _ _ => Leaf.Like.matches_eq)
      (hs.leaves.imp fun _ _ => Leaf.Like.matches_eq)).mono fun _ _ => Shares.Like.eq
  exact .of_matches (walk hc hs) (walk hc.symm hs.symm)

/-- With leaves for the built-in manager, the walk leads to shares whose commands differ by taggers that do the
same. -/
theorem matches_ofCycle (hc : Same b r (fun f home => r.Plain b f home ∨ r.Commands f home) .command cmds cmds')
    (hs : Same b r (fun f home => r.Plain b f home ∨ r.Commands f home) .subscription subs subs') :
    Procedure.Matches b (Shares.Like (Value.Alike b r)) (Shares.ofCycle b r cmds subs)
      (Shares.ofCycle b r cmds' subs') :=
  Shares.matches_ofCycle (hc.leaves.imp fun _ _ => Leaf.Like.matches_alike)
    (hs.leaves.imp fun _ _ => Leaf.Like.matches_alike)

end Same

/-- The laws of effect trees. It does not matter how batches are grouped, and the empty batch may be left out. Over
leaves of managers that are chosen, one tagger may be put for two if it does what these do one after the other,
and a tagger may be left out if it gives back what comes to it. By laws of batches alone, applied in any place,
the walk over the trees of a cycle stays what it is, whatever the managers do. By all laws it leads to the same
if the chosen managers apply the taggers, and nothing else, to their leaves. If there are commands for the
built-in manager, too, it leads to the same but for the taggers in these commands, which do the same with what
comes of the task; the manager takes them for tasks whose workers cannot be told apart. -/
theorem ofCycle_lawful (b : Behaviour κ σ) (r : Registry κ) (w : World κ σ) :
    (∀ H f, ∀ x y z : EffectTree κ,
      Same b r H f (.node [.node [x, y], z]) (.node [x, .node [y, z]]) ∧
        Same b r H f (.node [.node [], x]) x ∧ Same b r H f (.node [x, .node []]) x) ∧
    (∀ H f outer inner both, ∀ t : EffectTree κ, (∀ l ∈ t.list f, H f l.home) →
      (∀ v, both.work b v = (inner.work b v).bind (outer.work b)) →
        Same b r H f (.map outer (.map inner t)) (.map both t)) ∧
    (∀ H f i, ∀ t : EffectTree κ, (∀ l ∈ t.list f, H f l.home) →
      (∀ x, t.Emits b r f x → i.work b x = .ret x) → Same b r H f (.map i t) t) ∧
    (∀ cmds cmds' subs subs' : EffectTree κ,
      (Same b r (fun _ _ => False) .command cmds cmds' → Same b r (fun _ _ => False) .subscription subs subs' →
        Shares.ofCycle b r cmds subs = Shares.ofCycle b r cmds' subs') ∧
      (Same b r (r.Plain b) .command cmds cmds' → Same b r (r.Plain b) .subscription subs subs' →
        Procedure.Alike b (Shares.ofCycle b r cmds subs) (Shares.ofCycle b r cmds' subs')) ∧
      (Same b r (fun f home => r.Plain b f home ∨ r.Commands f home) .command cmds cmds' →
        Same b r (fun f home => r.Plain b f home ∨ r.Commands f home) .subscription subs subs' →
        Procedure.Matches b (Shares.Like (Value.Alike b r)) (Shares.ofCycle b r cmds subs)
          (Shares.ofCycle b r cmds' subs'))) ∧
    ∀ home vs vs', List.Forall₂ (Value.Alike b r home) vs vs' →
      Procedure.Answers
        (List.Forall₂ fun t t' => ∀ app, (Manager.worker app t).Equal b (Manager.worker app t'))
        (Manager.tasksOf vs) (Manager.tasksOf vs') := by
  refine ⟨fun H f x y z => ⟨.assoc x y z, .none_left x, .none_right x⟩,
    fun H f outer inner both t homes after => ?_, fun H f i t homes same => ?_,
    fun cmds cmds' subs subs' => ⟨Same.ofCycle_eq, Same.alike_ofCycle, Same.matches_ofCycle⟩,
    fun home vs vs' => Manager.answers_tasksOf⟩
  · exact .compose homes fun x _ => Tagger.alike_after w after x
  · exact .identity homes fun x emits => Tagger.alike_identity w (same x emits)

end EffectTree

/-- Taggers that add to a number. The managers map leaves by their taggers alone. -/
def adding : Behaviour Int64 Unit :=
  { Behaviour.ofCallbacks fun _ v => .succeed v with
    convert := fun n v => .ret (match v with
      | .int i => .int (i + n)
      | _ => v)
    manager := fun c =>
      { (Behaviour.ofCallbacks fun _ v => .succeed v).manager c with
        mapCommand := Tagger.applyAll
        mapSubscription := Tagger.applyAll } }

/-- Such a manager, and the built-in one. -/
def adders : Registry Int64 :=
  (Registry.empty.add ⟨"a"⟩ (.custom 0) rfl).add .tasks .tasks rfl

/-- A number for the one. -/
def number : EffectTree Int64 := .leaf ⟨"a"⟩ (.int 5)

/-- A number for the one, and a task that comes to a number for the other one. -/
def numbers : EffectTree Int64 := .node [number, .leaf .tasks (.command (.succeed (.int 7)))]

theorem adding_int (n : Int64) (v : Value Int64) (own : v.hasType .int = true) :
    ∃ i, v = .int i ∧ adding.convert n v = .ret (.int (i + n)) := by
  cases v with
  | int i => exact ⟨i, rfl, rfl⟩
  | _ => cases own

theorem adding_after (v : Value Int64) :
    (Tagger.typed .int 3).work adding v =
      ((Tagger.typed .int 1).work adding v).bind ((Tagger.typed .int 2).work adding) := by
  refine Tagger.work_typed (fun v own => ?_) (fun v x own returns => ?_) v
  · obtain ⟨i, rfl, -⟩ := adding_int 0 v own
    exact congrArg (fun n => Act.ret (Value.int n)) (Int64.add_assoc i 1 2).symm
  · obtain ⟨i, rfl, adds⟩ := adding_int 1 v own
    rw [adds] at returns
    obtain rfl := Code.returns_ret returns
    rfl

theorem adding_zero (v : Value Int64) : (Tagger.raw 0).work adding v = .ret v := by
  cases v with
  | int i => exact congrArg (fun n => Act.ret (Value.int n)) (Int64.add_zero i)
  | _ => rfl

theorem number_becomes (w : World Int64 Unit) :
    Leaf.Becomes adding adders w ⟨.command, ⟨"a"⟩, .int 5, [.typed .int 3]⟩ w (.int 8) := by
  refine ⟨.custom 0, rfl, ?_⟩
  show LeadsTo adding w (ofCode (Tagger.applyAll [.typed .int 3] (.int 5))) w (.ok (.int 8))
  rw [Tagger.applyAll_singleton]
  exact (Tagger.apply_leads (.typed .int 3) (.int 5) w w _).2 (.ret w _)

theorem number_taken : Leaf.refusal? adding adders ⟨.command, ⟨"a"⟩, .int 5, [.typed .int 3]⟩ = none :=
  Leaf.refusal?_eq_none.2 ⟨.custom 0, rfl, rfl⟩

theorem number_leads (w : World Int64 Unit) :
    LeadsTo adding w (Shares.ofCycle adding adders (.map (.typed .int 3) number) (.node [])) w
      (.ok [(⟨"a"⟩, ⟨[.int 8], []⟩)]) := by
  rw [Shares.ofCycle_eq]
  exact Shares.leadsTo_addLeaves (.cons (number_becomes w) (.nil w)) (List.forall_mem_singleton.2 number_taken)

theorem numbers_lead (w : World Int64 Unit) :
    LeadsTo adding w (Shares.ofCycle adding adders (.map (.typed .int 3) numbers) (.node [])) w
      (.ok [(⟨"a"⟩, ⟨[.int 8], []⟩), (.tasks, ⟨[Order.command ⟨.succeed (.int 7), [.typed .int 3]⟩], []⟩)]) := by
  rw [Shares.ofCycle_eq]
  refine Shares.leadsTo_addLeaves (.cons (number_becomes w) (.cons ⟨.tasks, rfl, .ret w _⟩ (.nil w))) ?_
  exact List.forall_mem_cons.2
    ⟨number_taken, List.forall_mem_singleton.2 (Leaf.refusal?_eq_none.2 ⟨.tasks, rfl, rfl⟩)⟩

theorem number_plain : adders.Plain adding .command ⟨"a"⟩ := by
  intro m find chain v
  obtain rfl : Hooks.custom 0 = m := Option.some.inj (by rw [← find]; rfl)
  rfl

/-- Nothing but this number comes from the first leaf. -/
theorem number_emits {x : Value Int64} (h : number.Emits adding adders .command x) : x = .int 5 := by
  obtain ⟨l, mem, v, feeds, brings⟩ := h
  obtain rfl := List.mem_singleton.1 mem
  obtain rfl := brings.of_ret
  rcases feeds with ⟨-, same⟩ | ⟨⟨builtIn, -⟩, -⟩
  · exact same
  · cases builtIn

/-- One tagger is put for two, and an identity is left out. -/
theorem sums_lawful :
    Shares.ofCycle adding adders (.node [.node [numbers, number], numbers]) (.node []) =
        Shares.ofCycle adding adders (.node [numbers, .node [number, numbers]]) (.node []) ∧
      (∀ w, LeadsTo adding w (Shares.ofCycle adding adders
        (.map (.typed .int 2) (.map (.typed .int 1) (.map (.typed .int 0) number))) (.node [])) w
          (.ok [(⟨"a"⟩, ⟨[.int 8], []⟩)])) ∧
      ∀ w, ∃ w' e e' t, LeadsTo adding w (Shares.ofCycle adding adders
        (.map (.typed .int 2) (.map (.typed .int 1) (.map (.raw 0) numbers))) (.node [])) w'
          (.ok [(⟨"a"⟩, e), (.tasks, e')]) ∧ e.cmds = [.int 8] ∧ Manager.tasksOf e'.cmds = .ok [t] ∧
        ∀ app, (Order.worker app ⟨.succeed (.int 7), [.typed .int 3]⟩).Equal adding (Manager.worker app t) := by
  obtain ⟨batches, compose, identity, cycles, workers⟩ := EffectTree.ofCycle_lawful adding adders (.new .standard ())
  have number_home : ∀ l ∈ number.list .command, adders.Plain adding .command l.home :=
    List.forall_mem_singleton.2 number_plain
  have numbers_homes : ∀ l ∈ numbers.list .command,
      adders.Plain adding .command l.home ∨ adders.Commands .command l.home :=
    List.forall_mem_cons.2 ⟨.inl number_plain, List.forall_mem_singleton.2 (.inr ⟨rfl, rfl⟩)⟩
  refine ⟨?_, fun w => ?_, fun w => ?_⟩
  · exact (cycles _ _ _ _).1 (batches _ _ _ _ _).1 (.refl _)
  · have left_out := identity (adders.Plain adding) .command (.typed .int 0) number number_home fun x emits => by
      obtain rfl := number_emits emits
      exact Tagger.work_typed_identity rfl rfl
    have twice := compose (adders.Plain adding) .command _ _ _ number number_home adding_after
    have same := ((left_out.map (.typed .int 1)).map (.typed .int 2)).trans twice
    exact ((cycles _ _ _ _).2.1 same (.refl _) w w _).2 (number_leads w)
  · have left_out := identity (fun f home => adders.Plain adding f home ∨ adders.Commands f home) .command _ numbers
      numbers_homes fun x _ => adding_zero x
    have twice := compose (fun f home => adders.Plain adding f home ∨ adders.Commands f home) .command _ _ _
      numbers numbers_homes adding_after
    have same := ((left_out.map (.typed .int 1)).map (.typed .int 2)).trans twice
    obtain ⟨_, leads, answers⟩ := (cycles _ _ _ _).2.2 same.symm (.refl (.node [])) w w _ (numbers_lead w)
    -- There is an entry for each of the two managers.
    obtain ⟨like⟩ := answers
    obtain ⟨⟩ | @⟨_, ⟨_, cmds, subs⟩, _, _, ⟨rfl, first⟩, others⟩ := like
    obtain ⟨⟩ | @⟨_, ⟨_, cmds', subs'⟩, _, _, ⟨rfl, second⟩, ⟨⟩⟩ := others
    have sum : cmds = [.int 8] := by
      obtain ⟨⟩ | ⟨⟨⟩, ⟨⟩⟩ := first.cmds
      rfl
    have taken := workers .tasks _ _ second.cmds
    generalize tasks : Manager.tasksOf cmds' = ts at taken
    obtain ⟨⟨⟩ | ⟨equal, ⟨⟩⟩⟩ := taken
    exact ⟨w, _, _, _, leads, sum, tasks, equal⟩

end Actors
