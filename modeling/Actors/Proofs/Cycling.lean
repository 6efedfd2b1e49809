/-
The code of an update cycle.

A program runs one cycle when it is started, and one for each message. In each cycle its functions are
called in the same order, the model is away while `update` has it, and every manager is sent its share
once. This is said here as a discipline for one program among others: the code that runs a cycle goes
through its stages, and no other code does anything of that.

* `Round` — what happens in one cycle; `Station` — where the code of a cycle stands;
* `Station.May`, `Station.next` — what this code does in a stage, and where that leads;
* `Directive.Foreign` — what other code does;
* `Discipline.cycling`, `cycling_lawful` — all code keeps to it.
-/
import Actors.Proofs.Founding
import Actors.Proofs.Gathering

namespace Actors

variable {κ σ α : Type} {b : Behaviour κ σ}

open Procedure

/-! ### Rounds and their stages -/

/-- What the function that makes a model has come to: for the first cycle from nothing, for the others
from a message and the model before. -/
structure Draft (κ : Type) where
  cause : Option (Value κ × Value κ)
  model : Value κ
  cmds : EffectTree κ

/-- A cycle: the new model with its commands, its subscriptions, and what has been sent to the managers,
in order. -/
structure Round (κ : Type) extends Draft κ where
  subs : EffectTree κ
  posts : List ((Home × Pid) × Share κ)

/-- The shares of the managers that come first: each has what the leaves under its home have come to. -/
def Round.Fair (b : Behaviour κ σ) (D : RunningProgram κ) (r : Round κ)
    (posts : List ((Home × Pid) × Share κ)) : Prop :=
  ∃ cs ss, EffectTree.Maps b D.registry .command [] r.cmds cs ∧
    EffectTree.Maps b D.registry .subscription [] r.subs ss ∧
    posts = (D.managers.take posts.length).map fun e => (e, Share.gathered cs ss e.1)

/-- Every manager has been sent its share. -/
def Round.Complete (b : Behaviour κ σ) (D : RunningProgram κ) (r : Round κ) : Prop :=
  r.Fair b D r.posts ∧ r.posts.length = D.managers.length

/-- Where the code of a cycle stands. -/
inductive Station (κ : Type) where
  /-- The cycle of a message has begun. -/
  | begun (v : Value κ)
  /-- The new model is to be made. -/
  | ready (cause : Option (Value κ × Value κ))
  /-- The update is to be counted. -/
  | made (x : Draft κ)
  | drafted (x : Draft κ)
  | rendered (x : Draft κ)
  /-- The subscriptions are known; the model is to be put in its place. -/
  | computed (r : Round κ)
  /-- The model is in its place; shares are sent. -/
  | placed (r : Round κ)
  /-- It has been noted that a manager is sent its share. -/
  | posting (r : Round κ) (m : Home × Pid)

/-- What code has to do with the cycles of a program. -/
inductive Stance (κ : Type) where
  /-- Nothing. -/
  | free
  /-- The code runs a cycle. -/
  | own (st : Station κ)
  /-- The code has been called by a cycle. -/
  | inside (st : Station κ)
  /-- The code is none that a runtime runs. -/
  | wild

/-- Whether a stage belongs to the cycle that starts the program. -/
def Station.isStart : Station κ → Bool
  | begun _ => false
  | ready cause => cause.isNone
  | made x => x.cause.isNone
  | drafted x => x.cause.isNone
  | rendered x => x.cause.isNone
  | computed r => r.cause.isNone
  | placed r => r.cause.isNone
  | posting r _ => r.cause.isNone

/-- What the code of a cycle does in each stage. -/
inductive Station.May (b : Behaviour κ σ) (i : ProgramId) (D : RunningProgram κ) :
    Station κ → Directive κ σ → Prop where
  | updating (v : Value κ) : May b i D (.begun v) (.note .updating)
  | running (v : Value κ) : May b i D (.begun v) (.running i)
  | take {v : Value κ} (typed : v.hasType (b.application D.app).message = true) :
      May b i D (.begun v) (.takeModel i)
  | init : May b i D (.ready none) (.invoke (.init i D.app))
  | update (v old : Value κ) : May b i D (.ready (some (v, old))) (.invoke (.update i D.app v old))
  | count (x : Draft κ) : May b i D (.made x) (.countUpdate i)
  | render (x : Draft κ) : May b i D (.drafted x) (.invoke (.render i D.app x.model))
  | subscriptions (x : Draft κ) :
      May b i D (.rendered x) (.invoke (.subscriptions i D.app x.model))
  | put (r : Round κ) : May b i D (.computed r) (.putModel i r.model)
  | leaf (r : Round κ) (m : Hooks κ) (f : Family) (chain : List (Tagger κ)) (v : Value κ) :
      May b i D (.placed r) (.invoke (.mapLeaf m f chain v))
  | isReachable (r : Round κ) : May b i D (.placed r) (.request .isReachable)
  | dispatched {r : Round κ} {home : Home} {p : Pid} (n k : Nat)
      (next : D.managers[r.posts.length]? = some (home, p)) :
      May b i D (.placed r) (.note (.dispatched home p n k))
  | send {r : Round κ} {m : Home × Pid} {e : Share κ} (fair : r.Fair b D (r.posts ++ [(m, e)])) :
      May b i D (.posting r m) (.request (.send m.2 (.effects e.cmds e.subs)))
  | settle {r : Round κ} {t : Ticket} (mine : t.pid = D.pid) (caused : r.cause ≠ none)
      (complete : r.Complete b D) : May b i D (.placed r) (.settle t (.succeed .unit))
  | install {r : Round κ} (first : r.cause = none) (complete : r.Complete b D) :
      May b i D (.placed r) (.install D.pid (some "program") (Program.listen i))

/-- Where a reply leads. -/
def Station.next : Station κ → (d : Directive κ σ) → d.Reply → Stance κ
  | .begun v, .takeModel _, r =>
    match (r : Option (Value κ)) with
    | some old => .own (.ready (some (v, old)))
    | none => .wild
  | .ready _, .invoke (.init ..), r => .own (.drafted ⟨none, r.1, r.2⟩)
  | .ready cause, .invoke (.update ..), r => .own (.made ⟨cause, r.1, r.2⟩)
  | .made x, .countUpdate _, _ => .own (.drafted x)
  | .drafted x, .invoke (.render ..), _ => .own (.rendered x)
  | .rendered x, .invoke (.subscriptions ..), r => .own (.computed ⟨x, r, []⟩)
  | .computed r, .putModel .., _ => .own (.placed r)
  | .placed r, .note (.dispatched home p _ _), _ => .own (.posting r (home, p))
  | .placed _, .settle .., _ => .free
  | .placed _, .install .., _ => .free
  | .posting r m, .request (.send _ (.effects cmds subs)), _ =>
    .own (.placed { r with posts := r.posts ++ [(m, ⟨cmds, subs⟩)] })
  | st, _, _ => .own st

/-- What code does that does not run a cycle of the program. -/
def Directive.Foreign (i : ProgramId) (D : RunningProgram κ) : Directive κ σ → Prop
  | .invoke (.init j _) => j ≠ i
  | .invoke (.update j ..) => j ≠ i
  | .invoke (.render j ..) => j ≠ i
  | .invoke (.subscriptions j ..) => j ≠ i
  | .note (.dispatched _ p _ _) => p ∉ D.staff
  | .settle t _ => t.pid ≠ D.pid
  | .sleep _ t => t.pid ≠ D.pid
  | .install _ label t => label = none ∨ t ≠ Program.listen i
  | .takeModel j => j ≠ i
  | .putModel j _ => j ≠ i
  | .countUpdate j => j ≠ i
  | .found x => x = x.fixed
  | _ => True

/-- What code may do, given what it has to do with the cycles. -/
def Stance.May (b : Behaviour κ σ) (i : ProgramId) (D : RunningProgram κ) (d : Directive κ σ) :
    Stance κ → Prop
  | free => d.Foreign i D
  | own st => st.May b i D d
  | inside _ => d.Foreign i D
  | wild => True

/-- Where code stands: how many references to the runtime it holds, and what it has to do with the
cycles. The reference that the start of the program holds is part of its stance. -/
structure Position (κ : Type) where
  holds : Nat
  stance : Stance κ

namespace Position

/-- The references that the code holds. -/
def total (s : Position κ) : Nat :=
  s.holds + match s.stance with
    | .own st => if st.isStart then 1 else 0
    | .inside st => if st.isStart then 1 else 0
    | _ => 0

/-- Where the code stands that has founded a program. -/
def founded (i : ProgramId) (s : Position κ) (j : ProgramId) : Position κ :=
  match s.stance with
  | .free => if j = i then ⟨s.holds - 1, .own (.ready none)⟩ else s
  | _ => s

/-- Where a reply leads. -/
def next (i : ProgramId) (s : Position κ) : (d : Directive κ σ) → d.Reply → Position κ
  | .hold, _ => ⟨s.holds + 1, s.stance⟩
  | .unhold, _ => ⟨s.holds - 1, s.stance⟩
  | .found _, j => s.founded i j
  | .install .., _ =>
    match s.stance with
    | .own _ => ⟨s.holds + 1, .free⟩
    | _ => s
  | d, r =>
    match s.stance with
    | .own st => ⟨s.holds, st.next d r⟩
    | _ => s

/-- Where the code stands that has been called. -/
def within (s : Position κ) : Position κ :=
  match s.stance with
  | .own st => ⟨s.holds, .inside st⟩
  | _ => s

/-- What is known of a reply. -/
def Knows (b : Behaviour κ σ) (i : ProgramId) (D : RunningProgram κ) (s : Position κ) :
    (d : Directive κ σ) → d.Reply → Prop
  | .invoke c, r => (b.code c).Returns r
  | .found x, j => (j = i → x.fixed = D.fixed) ∧ (j ≠ i → ∀ p ∈ x.staff, p ∉ D.staff) ∧
      (s.stance ≠ .free → j ≠ i)
  | .running j, r => (∀ d, r = some d →
      (j = i → d.fixed = D.fixed) ∧ (j ≠ i → ∀ p ∈ d.staff, p ∉ D.staff)) ∧
        ((∃ st, s.stance = .own st) → r ≠ none)
  | .takeModel _, r => (∃ st, s.stance = .own st) → r ≠ none
  | .request .isReachable, r => (∃ st, s.stance = .own st) → r = true
  | _, _ => True

end Position

/-- Whether a directive changes what references the code holds. -/
def Directive.counts : Directive κ σ → Bool
  | .hold => true
  | .unhold => true
  | .found _ => true
  | _ => false

/-- All code keeps to what it has to do with the cycles of one program. Update cycles are begun by the
main process only, and this process begins nothing else. -/
def Discipline.cycling (b : Behaviour κ σ) (i : ProgramId) (D : RunningProgram κ) :
    Discipline κ σ (Position κ) where
  idle := ⟨0, .free⟩
  enter _ _ _ := ⟨0, .free⟩
  launch t g :=
    if t.pid = D.pid then
      match g with
      | .update j v => if j = i then ⟨0, .own (.begun v)⟩ else ⟨0, .wild⟩
      | _ => ⟨0, .wild⟩
    else
      match g with
      | .update j _ => if j = i then ⟨0, .wild⟩ else ⟨0, .free⟩
      | _ => ⟨0, .free⟩
  may s d := (d = .unhold ∨ (∃ x, d = .found x) → 0 < s.holds) ∧ s.stance.May b i D d
  knows := Position.Knows b i D
  within s _ := s.within
  next := Position.next i
  gives s _ := s = ⟨0, .free⟩
  ends s := s = ⟨0, .free⟩ ∨ s = ⟨0, .wild⟩

/-! ### Code that runs no cycle -/

section

variable {i : ProgramId} {D : RunningProgram κ} {s : Position κ}

theorem Directive.foreign_note {e : Event κ} (h : e.isDispatch = false) :
    (Directive.note (σ := σ) e).Foreign i D := by
  cases e <;> trivial

/-- Whether code stands outside of the cycles, or has been called by one. -/
def Position.Outside (s : Position κ) : Prop :=
  ∀ st, s.stance ≠ .own st

/-- What code may do outside of the cycles. -/
def Position.Tolerates (i : ProgramId) (D : RunningProgram κ) (s : Position κ) (d : Directive κ σ) :
    Prop :=
  s.stance = .wild ∨ d.Foreign i D

theorem Position.outside_free (n : Nat) : (⟨n, .free⟩ : Position κ).Outside :=
  fun _ h => by cases h

theorem Position.outside_wild (n : Nat) : (⟨n, .wild⟩ : Position κ).Outside :=
  fun _ h => by cases h

theorem Position.outside_within (s : Position κ) : s.within.Outside := by
  obtain ⟨n, stance⟩ := s
  cases stance <;> exact fun _ h => by cases h

/-- The program is founded once. -/
theorem Position.founded_here (free : s.stance = .free) :
    s.founded i i = ⟨s.holds - 1, .own (.ready none)⟩ := by
  simp [founded, free]

theorem Position.founded_other {j : ProgramId} (h : ¬(s.stance = .free ∧ j = i)) :
    s.founded i j = s := by
  unfold founded
  split
  · next free => rw [if_neg fun hj => h ⟨free, hj⟩]
  · rfl

theorem Position.Outside.next (out : s.Outside) (i : ProgramId) {d : Directive κ σ} (plain : d.counts = false)
    (r : d.Reply) : s.next i d r = s := by
  obtain ⟨n, stance⟩ := s
  cases stance with
  | own st => exact absurd rfl (out st)
  | _ => cases d <;> first | rfl | cases plain

theorem cycling_neutral (out : s.Outside) {d : Directive κ σ} (plain : d.counts = false)
    (ok : s.Tolerates i D d) : (Discipline.cycling b i D).Neutral s d := by
  refine ⟨⟨?_, ?_⟩, fun r _ => out.next i plain r⟩
  · rintro (rfl | ⟨x, rfl⟩) <;> cases plain
  · obtain ⟨n, stance⟩ := s
    cases stance with
    | own st => exact absurd rfl (out st)
    | wild => trivial
    | _ =>
      rcases ok with wild | foreign
      · cases wild
      · exact foreign

theorem cycling_code (out : s.Outside) (code : Code κ σ α) :
    (ofCode code).Restores (Discipline.cycling b i D) s :=
  (uses_ofCode (P := fun d => ∃ r, d = .request r) (fun r => ⟨r, rfl⟩) code).restores
    fun _ ⟨_, hr⟩ => hr ▸ cycling_neutral out rfl (.inr trivial)

theorem cycling_callback (out : s.Outside) (c : Callback κ) (v : Value κ) :
    (c.run b v).Restores (Discipline.cycling b i D) s :=
  (c.uses_common v).restores fun d hd => by
    cases hd with
    | note calm => exact cycling_neutral out rfl (.inr (Directive.foreign_note calm))
    | _ => exact cycling_neutral out rfl (.inr trivial)

/-- The update cycle of another program. -/
theorem cycling_cyclic (out : s.Outside) {j : ProgramId} {d : RunningProgram κ}
    (apart : s.stance = .wild ∨ j ≠ i ∧ ∀ p ∈ d.staff, p ∉ D.staff) {x : Directive κ σ}
    (h : Program.Cyclic j d x) : (Discipline.cycling b i D).Neutral s x := by
  have plain : x.counts = false := by cases h <;> rfl
  refine cycling_neutral out plain ?_
  rcases apart with wild | ⟨other, apart⟩
  · exact .inl wild
  · right
    cases h with
    | @dispatched home p mem n k => exact apart p (List.mem_map.2 ⟨_, mem, rfl⟩)
    | leaf => trivial
    | isReachable => trivial
    | send => trivial
    | _ => exact other

theorem cycling_update (out : s.Outside) {j : ProgramId} (v : Value κ)
    (other : s.stance = .wild ∨ j ≠ i) :
    (Program.update b j v).Restores (Discipline.cycling b i D) s := by
  refine Program.restores_update j v (cycling_neutral out rfl (.inr trivial)) fun d known x hx => ?_
  refine cycling_cyclic out ?_ hx
  rcases other with wild | other
  · exact .inl wild
  · exact .inr ⟨other, (known.1 d rfl).2 other⟩

/-- The work of a binding of another process. -/
theorem cycling_binding (out : s.Outside) (t : Ticket) (g : Binding κ)
    (other : s.stance = .wild ∨ t.pid ≠ D.pid ∧ ∀ v, g ≠ .update i v) :
    (g.start b t).Restores (Discipline.cycling b i D) s := by
  have settle : ∀ task, (Discipline.cycling b i D).Neutral s (.settle t task) :=
    fun _ => cycling_neutral out rfl (other.imp_right And.left)
  by_cases h : ∃ j v, g = .update j v
  · obtain ⟨j, v, rfl⟩ := h
    refine restores_first (cycling_neutral out rfl (.inr trivial)) fun _ _ => ?_
    refine Restores.bind (cycling_update out v (other.imp_right fun h hj => ?_)) fun _ => ?_
    · exact h.2 v (by rw [hj])
    · exact ⟨(settle _).1, fun r known => (settle _).2 r known⟩
  · refine (Binding.uses_start t fun j v hg => h ⟨j, v, hg⟩).restores fun d hd => ?_
    cases hd with
    | settle task => exact settle task
    | sleep span => exact cycling_neutral out rfl (other.imp_right And.left)
    | _ => exact cycling_neutral out rfl (.inr trivial)

theorem Position.Outside.more (out : s.Outside) :
    (⟨s.holds + 1, s.stance⟩ : Position κ).Outside :=
  out

/-- A reference that is taken for a while. -/
theorem cycling_hold (out : s.Outside) {f : Unit → Procedure κ σ α} {Q : Position κ → α → Prop}
    (hf : (f ()).Obeys (Discipline.cycling b i D) Q ⟨s.holds + 1, s.stance⟩) :
    Obeys (Discipline.cycling b i D) Q s ((direct .hold).bind f) := by
  refine obeys_first ⟨?_, ?_⟩ fun _ _ => hf
  · rintro (h | ⟨x, h⟩) <;> cases h
  · obtain ⟨n, stance⟩ := s
    cases stance with
    | own st => exact absurd rfl (out st)
    | _ => trivial

theorem cycling_unhold (out : s.Outside) {f : Unit → Procedure κ σ α} {Q : Position κ → α → Prop}
    (hf : (f ()).Obeys (Discipline.cycling b i D) Q s) :
    Obeys (Discipline.cycling b i D) Q ⟨s.holds + 1, s.stance⟩ ((direct .unhold).bind f) := by
  refine obeys_first ⟨fun _ => Nat.succ_pos _, ?_⟩ fun _ _ => hf
  obtain ⟨n, stance⟩ := s
  cases stance with
  | own st => exact absurd rfl (out st)
  | _ => trivial

theorem cycling_spawnWith (out : s.Outside) (c : κ) :
    (Procedure.spawnWith (σ := σ) c).Restores (Discipline.cycling b i D) s := by
  have inner : ∀ d : Directive κ σ, d.counts = false → d.Foreign i D →
      (Discipline.cycling b i D).Neutral ⟨s.holds + 1, s.stance⟩ d :=
    fun d plain foreign => cycling_neutral out.more plain (.inr foreign)
  refine cycling_hold out ?_
  refine obeys_neutral (inner .reserve rfl trivial) fun p _ => ?_
  refine obeys_neutral (inner (.invoke (.buildFor c p)) rfl trivial) fun t _ => ?_
  refine obeys_neutral (inner (.install p none t) rfl (.inl rfl)) fun _ _ => ?_
  exact cycling_unhold out rfl

/-! ### The code of a cycle -/

/-- What the code of a cycle does in a stage, and what follows it. -/
theorem cycling_stage {n : Nat} {st : Station κ} {d : Directive κ σ} {f : d.Reply → Procedure κ σ α}
    {Q : Position κ → α → Prop} (may : st.May b i D d)
    (hf : ∀ r, Position.Knows b i D ⟨n, .own st⟩ d r →
      (f r).Obeys (Discipline.cycling b i D) Q (Position.next i ⟨n, .own st⟩ d r)) :
    Obeys (Discipline.cycling b i D) Q ⟨n, .own st⟩ ((direct d).bind f) := by
  refine obeys_first ⟨?_, may⟩ hf
  rintro (rfl | ⟨x, rfl⟩) <;> cases may

/-- Shares are sent to the managers that are left. -/
theorem cycling_distribute {cs ss : List (Home × Value κ)} {g : Shares κ} {n : Nat} {x : Draft κ}
    {subs : EffectTree κ} (hc : EffectTree.Maps b D.registry .command [] x.cmds cs)
    (hs : EffectTree.Maps b D.registry .subscription [] subs ss)
    (hg : ∀ home, g.find home = Share.gathered cs ss home) :
    ∀ (rest done : List (Home × Pid)) (r : Round κ), D.managers = done ++ rest →
      r.toDraft = x → r.subs = subs → r.posts = done.map (fun e => (e, Share.gathered cs ss e.1)) →
      (Program.distribute (σ := σ) g rest).Obeys (Discipline.cycling b i D)
        (fun s' _ => ∃ r' : Round κ, s' = ⟨n, .own (.placed r')⟩ ∧ r'.toDraft = x ∧
          r'.Complete b D) ⟨n, .own (.placed r)⟩
  -- The induction is on the managers that are left, with those that have been served kept in
  -- front.
  | [], done, r, all, hx, hr, posts => by
    have managers : D.managers = done := by rw [all, List.append_nil]
    have sent : r.posts.length = done.length := by rw [posts, List.length_map]
    refine ⟨r, rfl, hx, ⟨cs, ss, hx ▸ hc, hr ▸ hs, ?_⟩, by rw [sent, managers]⟩
    rw [sent, managers, List.take_length, posts]
  | (home, p) :: rest, done, r, all, hx, hr, posts => by
    have sent : r.posts.length = done.length := by rw [posts, List.length_map]
    have next : D.managers[r.posts.length]? = some (home, p) := by
      rw [sent, all, List.getElem?_append_right (Nat.le_refl _), Nat.sub_self]
      rfl
    have share : g.find home = Share.gathered cs ss home := hg home
    have more : r.posts ++ [((home, p), g.find home)] =
        (done ++ [(home, p)]).map fun e => (e, Share.gathered cs ss e.1) := by
      rw [posts, share, List.map_append]
      rfl
    have all' : D.managers = (done ++ [(home, p)]) ++ rest := by
      rw [all, List.append_assoc]
      rfl
    rw [Program.distribute]
    refine cycling_stage (.dispatched _ _ next) fun _ _ => ?_
    show Obeys (Discipline.cycling b i D) _ ⟨n, .own (.posting r (home, p))⟩ _
    refine cycling_stage (.send (m := (home, p)) (e := g.find home) ?_) fun _ _ => ?_
    · refine ⟨cs, ss, hx ▸ hc, hr ▸ hs, ?_⟩
      rw [more, List.length_map, all', List.take_left']
      rfl
    · exact cycling_distribute hc hs hg rest (done ++ [(home, p)])
        { r with posts := r.posts ++ [((home, p), g.find home)] } all' hx hr more

/-- The second half of a cycle comes to a complete round. -/
theorem cycling_conclude {d : RunningProgram κ} (hd : d.fixed = D.fixed) (n : Nat) (x : Draft κ) :
    (Program.conclude b i d x.model x.cmds).Obeys (Discipline.cycling b i D)
      (fun s' _ => ∃ r : Round κ, s' = ⟨n, .own (.placed r)⟩ ∧ r.toDraft = x ∧ r.Complete b D)
      ⟨n, .own (.drafted x)⟩ := by
  obtain ⟨-, app, registry, managers⟩ := RunningProgram.of_fixed hd
  rw [Program.conclude, app, registry, managers]
  refine cycling_stage (.render x) fun _ _ => ?_
  show Obeys (Discipline.cycling b i D) _ ⟨n, .own (.rendered x)⟩ _
  refine cycling_stage (.subscriptions x) fun subs _ => ?_
  show Obeys (Discipline.cycling b i D) _ ⟨n, .own (.computed ⟨x, subs, []⟩)⟩ _
  refine cycling_stage (.put _) fun _ _ => ?_
  show Obeys (Discipline.cycling b i D) _ ⟨n, .own (.placed ⟨x, subs, []⟩)⟩ _
  have walks : Shares.Walks b (Discipline.cycling b i D) ⟨n, .own (.placed ⟨x, subs, []⟩)⟩ := by
    intro m f chain v
    refine ⟨⟨⟨?_, .leaf _ m f chain v⟩, fun _ _ => rfl⟩, fun w known => known⟩
    rintro (h | ⟨x, h⟩) <;> cases h
  refine (Shares.obeys_ofCycle walks D.registry x.cmds subs).bind ?_
  rintro s' g ⟨rfl, cs, ss, hc, hs, hg⟩
  refine cycling_stage (.isReachable _) fun here known => ?_
  obtain rfl : here = true := known ⟨_, rfl⟩
  exact cycling_distribute hc hs hg D.managers [] ⟨x, subs, []⟩ rfl rfl rfl rfl

/-- The cycle of a message. -/
theorem cycling_begun {t : Ticket} (mine : t.pid = D.pid) (v : Value κ) :
    ((Binding.update i v).start b t).Obeys (Discipline.cycling b i D) (fun s' _ => s' = ⟨0, .free⟩)
      ⟨0, .own (.begun v)⟩ := by
  refine cycling_stage (.updating v) fun _ _ => ?_
  show Obeys (Discipline.cycling b i D) _ ⟨0, .own (.begun v)⟩ _
  refine Obeys.bind (Q := fun s' _ => ∃ r : Round κ, s' = ⟨0, .own (.placed r)⟩ ∧ r.cause ≠ none ∧
    r.Complete b D) ?_ ?_
  -- The station goes along with the code: a program is found at `running`, its model at `take`.
  · refine cycling_stage (.running v) fun d known => ?_
    show Obeys (Discipline.cycling b i D) _ ⟨0, .own (.begun v)⟩ _
    cases d with
    | none => exact absurd rfl (known.2 ⟨_, rfl⟩)
    | some d =>
      have hd : d.fixed = D.fixed := (known.1 d rfl).1 rfl
      obtain ⟨-, app, -⟩ := RunningProgram.of_fixed hd
      dsimp only
      split
      · next typed =>
        refine cycling_stage (.take (app ▸ typed)) fun old known => ?_
        cases old with
        | none => exact absurd rfl (known ⟨_, rfl⟩)
        | some old =>
          show Obeys (Discipline.cycling b i D) _ ⟨0, .own (.ready (some (v, old)))⟩ _
          rw [app]
          refine cycling_stage (.update v old) fun x _ => ?_
          show Obeys (Discipline.cycling b i D) _ ⟨0, .own (.made ⟨some (v, old), x.1, x.2⟩)⟩ _
          refine cycling_stage (.count _) fun _ _ => ?_
          refine (cycling_conclude hd 0 ⟨some (v, old), x.1, x.2⟩).mono ?_
          rintro s' _ ⟨r, rfl, hr, complete⟩
          refine ⟨r, rfl, ?_, complete⟩
          rw [hr]
          exact Option.some_ne_none _
      · trivial
  · rintro s' _ ⟨r, rfl, caused, complete⟩
    refine ⟨⟨?_, .settle mine caused complete⟩, fun _ _ => rfl⟩
    rintro (h | ⟨x, h⟩) <;> cases h

/-! ### The start of a program -/

theorem cycling_register (out : s.Outside) (managers : List (Home × Hooks κ)) (r : Registry κ) :
    (Program.register b r managers).Restores (Discipline.cycling b i D) s :=
  (Program.uses_register (P := fun d => ∃ e : Event κ, d = .note e ∧ e.isDispatch = false)
    (fun _ _ => ⟨_, rfl, rfl⟩) r managers).restores fun _ ⟨_, he, calm⟩ =>
      he ▸ cycling_neutral out rfl (.inr (Directive.foreign_note calm))

theorem cycling_startManagers (out : s.Outside) (app : Pid) (managers : List (Home × Hooks κ)) :
    (Program.startManagers (σ := σ) app managers).Restores (Discipline.cycling b i D) s :=
  (Program.uses_startManagers app managers).restores fun d hd => by
    cases hd with
    | install p label t m => exact cycling_neutral out rfl (.inr (.inr nofun))
    | _ => exact cycling_neutral out rfl (.inr trivial)

/-- The end of the start of a program. -/
theorem cycling_started (out : s.Outside) (pid : Pid) (n : Nat) (j : ProgramId) :
    (do
      note (.programStarted pid n)
      direct .leave
      ask .retain
      direct .unhold
      return .ok j : Procedure κ σ (Except Fault ProgramId)).Obeys (Discipline.cycling b i D)
        (fun s' _ => s' = s) ⟨s.holds + 1, s.stance⟩ := by
  have inner : ∀ d : Directive κ σ, d.counts = false → d.Foreign i D →
      (Discipline.cycling b i D).Neutral ⟨s.holds + 1, s.stance⟩ d :=
    fun d plain foreign => cycling_neutral out.more plain (.inr foreign)
  refine obeys_neutral (inner _ rfl trivial) fun _ _ => ?_
  refine obeys_neutral (inner _ rfl trivial) fun _ _ => ?_
  refine obeys_neutral (inner _ rfl trivial) fun _ _ => ?_
  exact cycling_unhold out rfl

theorem cycling_start (out : s.Outside) (c : κ) :
    (Program.start b c).Restores (Discipline.cycling b i D) s := by
  refine Restores.bind (cycling_register out _ _) fun r => ?_
  cases r with
  | error f => exact rfl
  | ok registry =>
    refine cycling_hold out ?_
    refine obeys_neutral (cycling_neutral out.more rfl (.inr trivial)) fun pid _ => ?_
    refine obeys_neutral (cycling_neutral out.more rfl (.inr trivial)) fun _ _ => ?_
    refine Obeys.bind (cycling_startManagers out.more pid registry.entries) fun s' managers hs => ?_
    subst hs
    -- In the station of a cycle no program is started; anywhere else the founding is free.
    refine obeys_first ⟨fun _ => Nat.succ_pos _, ?_⟩ fun j known => ?_
    · cases hs : s.stance with
      | own st => exact absurd hs (out st)
      | wild => trivial
      | _ => exact rfl
    show Obeys (Discipline.cycling b i D) _ (Position.founded i ⟨s.holds + 1, s.stance⟩ j) _
    by_cases h : s.stance = .free ∧ j = i
    · -- The program that has been founded is this one: here is its first cycle.
      obtain ⟨free, rfl⟩ := h
      have fixed := known.1 rfl
      obtain ⟨hp, hc, -⟩ := RunningProgram.of_fixed fixed
      have hp : pid = D.pid := hp
      have hc : c = D.app := hc
      subst hp hc
      have position : Position.founded j ⟨s.holds + 1, s.stance⟩ j = ⟨s.holds, .own (.ready none)⟩ :=
        Position.founded_here free
      rw [position]
      refine cycling_stage .init fun r _ => ?_
      refine (cycling_conclude fixed s.holds ⟨none, r.1, r.2⟩).bind ?_
      rintro s' _ ⟨r', rfl, hr, complete⟩
      refine cycling_stage (.install (by rw [hr]) complete) fun _ _ => ?_
      show Obeys (Discipline.cycling b j D) _ ⟨s.holds + 1, .free⟩ _
      rw [← free]
      exact cycling_started out D.pid managers.length j
    · have position : Position.founded i ⟨s.holds + 1, s.stance⟩ j = ⟨s.holds + 1, s.stance⟩ :=
        Position.founded_other h
      have other : s.stance = .wild ∨ j ≠ i := by
        cases hs : s.stance with
        | free => exact .inr fun hj => h ⟨hs, hj⟩
        | own st => exact absurd hs (out st)
        | inside st =>
          refine .inr (known.2.2 ?_)
          show s.stance ≠ .free
          rw [hs]
          exact nofun
        | wild => exact .inl rfl
      rw [position]
      refine obeys_neutral (cycling_neutral out.more rfl other) fun r _ => ?_
      refine Obeys.bind ((Program.uses_conclude j _ r.1 r.2).restores fun x hx => ?_) fun s' _ hs => ?_
      · exact cycling_cyclic out.more (other.imp_right fun hj => ⟨hj, known.2.1 hj⟩) hx
      subst hs
      refine obeys_neutral (cycling_neutral out.more rfl (other.imp_right fun hj => ?_)) fun _ _ => ?_
      · refine .inr fun same => hj ?_
        exact Callback.programTurn.inj (Task.receive.inj same)
      exact cycling_started out pid managers.length j

end

/-- Only calls of user code are expanded in a cycle. -/
theorem Position.next_eq_of_request {i : ProgramId} {D : RunningProgram κ} {s : Position κ}
    {r : Request κ σ} (plain : ∀ p v, r ≠ .send p v) (may : s.stance.May b i D (.request r))
    (x : r.Reply) : s.next i (.request r) x = s := by
  obtain ⟨n, stance⟩ := s
  cases stance with
  | own st =>
    cases may with
    | isReachable => rfl
    | send => exact absurd rfl (plain _ _)
  | _ => rfl

theorem launch_mine {i : ProgramId} {D : RunningProgram κ} {t : Ticket} (mine : t.pid = D.pid)
    (v : Value κ) :
    (Discipline.cycling b i D).launch t (.update i v) = ⟨0, .own (.begun v)⟩ := by
  simp [Discipline.cycling, mine]

/-- A binding that is begun by another process, and is no cycle of the program. -/
theorem launch_other {i : ProgramId} {D : RunningProgram κ} {t : Ticket} {g : Binding κ}
    (other : t.pid ≠ D.pid) (hg : ∀ v, g ≠ .update i v) :
    (Discipline.cycling b i D).launch t g = ⟨0, .free⟩ := by
  simp only [Discipline.cycling, if_neg other]
  split
  · next j v => rw [if_neg fun hj => hg v (by rw [hj])]
  · rfl

theorem launch_wild {i : ProgramId} {D : RunningProgram κ} {t : Ticket} {g : Binding κ}
    (strange : t.pid = D.pid ↔ ∀ v, g ≠ .update i v) :
    (Discipline.cycling b i D).launch t g = ⟨0, .wild⟩ := by
  simp only [Discipline.cycling]
  split
  · next mine =>
    split
    · next j v => rw [if_neg fun hj => strange.1 mine v (by rw [hj])]
    · rfl
  · next other =>
    split
    · next j v =>
      rw [if_pos]
      refine Classical.byContradiction fun hj => other (strange.2 fun v' same => hj ?_)
      exact (Binding.update.inj same).1
    · next hg => exact absurd (strange.2 fun v same => hg i v same) other

theorem cycling_launch {i : ProgramId} {D : RunningProgram κ} (t : Ticket) (g : Binding κ) :
    (g.start b t).Obeys (Discipline.cycling b i D) (fun s _ => s = ⟨0, .free⟩ ∨ s = ⟨0, .wild⟩)
      ((Discipline.cycling b i D).launch t g) := by
  by_cases strange : t.pid = D.pid ↔ ∀ v, g ≠ .update i v
  · rw [launch_wild strange]
    exact (cycling_binding (Position.outside_wild 0) t g (.inl rfl)).mono fun _ _ => .inr
  by_cases mine : t.pid = D.pid
  · obtain ⟨v, hg⟩ := Classical.not_forall.1 fun hg => strange ⟨fun _ => hg, fun _ => mine⟩
    obtain rfl := not_not.1 hg
    rw [launch_mine mine]
    exact (cycling_begun mine v).mono fun _ _ => .inl
  · have hg : ∀ v, g ≠ .update i v := by
      refine Classical.byContradiction fun hg => strange ⟨fun h => absurd h mine, fun h => absurd h hg⟩
    rw [launch_other mine hg]
    exact (cycling_binding (Position.outside_free 0) t g (.inr ⟨mine, hg⟩)).mono fun _ _ => .inl

theorem cycling_lawful {i : ProgramId} {D : RunningProgram κ} :
    (Discipline.cycling b i D).Lawful b where
  code := cycling_code (Position.outside_free 0)
  thunk _ := cycling_neutral (Position.outside_free 0) rfl (.inr trivial)
  callback _ := cycling_callback (Position.outside_free 0)
  binding := cycling_launch
  -- Inside what a directive expands to nothing belongs to the cycle.
  expands := by
    intro s d y may expands
    have out := s.outside_within
    have call : ∀ c : Call κ, (Directive.invoke (σ := σ) c).Foreign i D →
        (Procedure.invoke c).Restores (Discipline.cycling b i D) s.within :=
      fun c foreign => cycling_neutral out rfl (.inr foreign)
    have free : ∀ r : Request κ σ, (Discipline.cycling b i D).Neutral s.within (.request r) :=
      fun r => cycling_neutral out rfl (.inr trivial)
    show y.Obeys (Discipline.cycling b i D) (fun s' r => s' = s.within ∧ Position.Knows b i D s d r) s.within
    cases expands with
    | invoke c => exact obeys_ofCode (fun r => ⟨(free r).1, out.next i rfl⟩) _
    | build c => exact (call (.build c) trivial).mono fun _ _ hs => ⟨hs, trivial⟩
    | convert c v => exact (call (.convert c v) trivial).mono fun _ _ hs => ⟨hs, trivial⟩
    | spawnWith c => exact (cycling_spawnWith out c).mono fun _ _ hs => ⟨hs, trivial⟩
    | start c =>
      refine Obeys.bind (cycling_start out c) fun s' r hs => ?_
      exact ⟨hs, trivial⟩
    | kill p c => exact (call (.thunk c) trivial).mono fun _ _ hs => ⟨hs, trivial⟩
    | attach t c c' => exact (call (.thunk c') trivial).mono fun _ _ hs => ⟨hs, trivial⟩
  drive _ _ _ may := ⟨trivial, Position.next_eq_of_request (fun _ _ h => by cases h) may.2 _⟩

end Actors
