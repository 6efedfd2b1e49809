/-
The cycle that is under way.

Of all that is under way one piece of code at most runs a cycle of a program. It is on top, or it has
called something, and waits for that below. What a step does to its cycle is one of few things: nothing,
as the step is done by other code; a cycle begins, when the program is founded or when its main process
begins an update; or the code that runs the cycle does what it does in this stage.

* `Stance.Returns` — what a cycle has called returns;
* `Cast` — which code runs a cycle, and where in the cycle it stands;
* `Stance.Goes` — what a step does to the cycle;
* `Cast.Comes`, `Cast.goes` — every step keeps to one cycle.
-/
import Actors.Proofs.Beats
import Actors.Proofs.Listening
import Actors.Proofs.Staying

namespace Actors

variable {κ σ α : Type} {b : Behaviour κ σ} {i : ProgramId} {D : RunningProgram κ}

open Relation

/-! ### Calls that return -/

theorem Stance.inside_ne_own (st st' : Station κ) : Stance.inside st ≠ .own st' :=
  fun h => by cases h

/-- What a cycle has called returns. -/
inductive Stance.Returns (b : Behaviour κ σ) (i : ProgramId) (D : RunningProgram κ) :
    Stance κ → Stance κ → Prop where
  | intro {st : Station κ} {c : Call κ} {r : c.Result} (may : st.May b i D (.invoke c))
      (returns : (b.code c).Returns r) : Returns b i D (.inside st) (st.next (.invoke (σ := σ) c) r)

/-- A stage that a call leads to from another. -/
structure Station.Called (st st' : Station κ) : Prop where
  beats : st'.beats = st.beats ++ st.called
  posts : st'.posts = st.posts
  message? : st'.message? = st.message?

/-- A call leads to the next stage of the same cycle. -/
theorem Station.May.called {st : Station κ} {c : Call κ} (may : st.May b i D (.invoke c)) (r : c.Result) :
    ∃ st', st.next (.invoke (σ := σ) c) r = .own st' ∧ st.Called st' := by
  cases may with
  | leaf x m f chain v => exact ⟨_, rfl, (List.append_nil _).symm, rfl, rfl⟩
  | _ => exact ⟨_, rfl, rfl, rfl, rfl⟩

/-- Calls are seen when they are made. -/
theorem Station.May.shown {st : Station κ} {c : Call κ} (may : st.May b i D (.invoke c)) :
    (c.beat? i).toList = st.called := by
  cases may <;> simp [Call.beat?, Station.called]

/-- Code that has something to do with a cycle. -/
def Position.Busy (s : Position κ) : Prop :=
  s.stance.station? ≠ none

theorem Stance.Returns.busy {c c' : Stance κ} (h : Stance.Returns b i D c c') :
    c.station? ≠ none ∧ c'.station? ≠ none := by
  obtain ⟨may, returns⟩ := h
  obtain ⟨st', next, -⟩ := may.called _
  rw [next]
  exact ⟨nofun, nofun⟩

theorem Stance.eq_of_returns {c c' : Stance κ} (h : ReflTransGen (Stance.Returns b i D) c c')
    (idle : c.station? = none) : c' = c := by
  induction h with
  | refl => rfl
  | tail _ last ih =>
    subst ih
    exact absurd idle last.busy.1

/-- The code of a cycle calls functions, and everything else is answered at once. -/
theorem Station.May.expands {st : Station κ} {d : Directive κ σ} {y : Procedure κ σ d.Reply}
    (may : st.May b i D d) (h : d.Expands b y) : ∃ c, d = .invoke c := by
  cases may <;> first | exact ⟨_, rfl⟩ | cases h

theorem cycling_settles {s s' : Position κ} (h : (Discipline.cycling b i D).Settles b s s') :
    s' = s ∨ s'.holds = s.holds ∧ Stance.Returns b i D s.stance s'.stance := by
  obtain ⟨may, expands, r, known⟩ := h
  rename_i s d y
  obtain ⟨n, stance⟩ := s
  cases stance with
  | own st =>
    obtain ⟨c, rfl⟩ := Station.May.expands may.2 expands
    exact .inr ⟨rfl, .intro may.2 known⟩
  | _ => cases expands <;> exact .inl rfl

theorem cycling_settled {s s' : Position κ} (h : (Discipline.cycling b i D).Settled b s s') :
    ReflTransGen (Stance.Returns b i D) s.stance s'.stance := by
  induction h with
  | refl => exact .refl
  | head first _ ih =>
    rcases cycling_settles first with rfl | ⟨-, returns⟩
    · exact ih
    · exact .head returns ih

theorem cycling_stays : (Discipline.cycling b i D).Stays b Position.Busy where
  idle h := h rfl
  within s d h := by
    obtain ⟨n, stance⟩ := s
    cases stance <;> exact h
  settles s s' h hs := by
    rcases cycling_settles hs with rfl | ⟨-, returns⟩
    · exact h
    · exact returns.busy.2
  gives s t h gives := by
    obtain rfl : s = ⟨0, .free⟩ := gives
    exact h rfl
  ends s h ends := by
    rcases ends with rfl | rfl <;> exact h rfl

/-! ### References held for a start -/

/-- The code of a cycle leads to another stage of it, or to its end. -/
theorem Station.May.total {n : Nat} {st : Station κ} {d : Directive κ σ} {r : d.Reply}
    (may : st.May b i D d) : (Position.next i ⟨n, .own st⟩ d r).total = Position.total ⟨n, .own st⟩ := by
  cases may with
  | @take v typed =>
    cases r <;> rfl
  | @settle _ t mine caused complete =>
    have later : Draft.cause _ ≠ none := caused
    simp [Position.next, Station.next, Position.total, Station.isStart, Option.isNone_iff_eq_none, later]
  | install first complete =>
    simp [Position.next, Position.total, Station.isStart, first]
  | _ => rfl

theorem Position.total_founded (i j : ProgramId) {s : Position κ} (held : 0 < s.holds) :
    (s.founded i j).total = s.total := by
  obtain ⟨n, stance⟩ := s
  have again : n - 1 + 1 = n := Nat.sub_add_cancel held
  cases stance with
  | free =>
    simp only [Position.founded]
    split
    · exact again
    · rfl
  | _ => rfl

theorem cycling_counts :
    (Discipline.cycling b i D).Counts b Position.total referencesAfter where
  idle := rfl
  enter _ _ _ := rfl
  launch t g := by
    unfold Discipline.cycling
    dsimp only
    split <;> (split <;> first | rfl | (split <;> rfl))
  within s d := by
    obtain ⟨n, stance⟩ := s
    cases stance <;> rfl
  next s d r may known := by
    obtain ⟨n, stance⟩ := s
    cases d with
    | hold => exact Nat.add_right_comm n 1 _
    | unhold =>
      have held : 1 ≤ n := may.1 (.inl rfl)
      exact (Nat.sub_add_comm held).symm
    -- The total is split between the number and the stance, and a step of a station moves it from
    -- one to the other.
    | found x => exact Position.total_founded i r (may.1 (.inr ⟨x, rfl⟩))
    | _ =>
      cases stance with
      | own st => exact Station.May.total may.2
      | _ => rfl
  expands n d y r h := by cases h <;> rfl
  gives s t h := by
    obtain rfl : s = ⟨0, .free⟩ := h
    rfl
  ends s h := by rcases h with rfl | rfl <;> rfl

/-! ### Who runs the cycle -/

/-- Of all that is under way one piece of code at most has to do with a cycle: the one on top, or one that
waits for what its cycle has called. With the stance of this code goes how many activities are below it. -/
inductive Cast : List (Position κ) → Stance κ → Nat → Prop where
  | nobody {L : List (Position κ)} (free : ∀ s ∈ L, s.stance = .free) : Cast L .free 0
  | top {s : Position κ} {T : List (Position κ)} (busy : s.Busy) (free : ∀ t ∈ T, t.stance = .free) :
      Cast (s :: T) s.stance T.length
  | waits {s : Position κ} {T : List (Position κ)} {st : Station κ} {n : Nat} (free : s.stance = .free)
      (h : Cast T (.inside st) n) : Cast (s :: T) (.inside st) n

namespace Cast

variable {L L' T : List (Position κ)} {s s' : Position κ} {c : Stance κ} {n : Nat}

theorem of_top (hs : s.stance = c) (busy : c.station? ≠ none) (free : ∀ t ∈ T, t.stance = .free) :
    Cast (s :: T) c T.length := by
  subst hs
  exact .top busy free

/-- The code on top has to do with the cycle, or none of what runs does. -/
theorem cases_top (h : Cast (s :: T) c n) : (s.stance = .free ∧ ∀ st, c ≠ .own st) ∨
    s.Busy ∧ s.stance = c ∧ n = T.length ∧ ∀ t ∈ T, t.stance = .free := by
  cases h with
  | nobody free => exact .inl ⟨(List.forall_mem_cons.1 free).1, nofun⟩
  | top busy free => exact .inr ⟨busy, rfl, rfl, free⟩
  | waits free h => exact .inl ⟨free, nofun⟩

/-- Code that has nothing to do with the cycle may go on as it likes. -/
theorem renew (h : Cast (s :: T) c n) (hs : s.stance = .free) (hs' : s'.stance = .free) :
    Cast (s' :: T) c n := by
  cases h with
  | nobody free => exact .nobody (List.forall_mem_cons.2 ⟨hs', (List.forall_mem_cons.1 free).2⟩)
  | top busy => exact absurd (by rw [hs]; rfl) busy
  | waits free h => exact .waits hs' h

/-- Other code comes on top as long as the cycle waits. -/
theorem under (h : Cast L c n) (out : ∀ st, c ≠ .own st) (hs : s.stance = .free) : Cast (s :: L) c n := by
  cases h with
  | nobody free => exact .nobody (List.forall_mem_cons.2 ⟨hs, free⟩)
  | @top s₁ T busy free =>
    generalize hc : s₁.stance = c at out ⊢
    cases c with
    | inside st => exact .waits hs (hc ▸ .top busy free)
    | own st => exact absurd rfl (out st)
    | free => exact absurd (by rw [hc]; rfl) busy
    | wild => exact absurd (by rw [hc]; rfl) busy
  | waits free h => exact .waits hs (.waits free h)

/-- If no cycle is under way, there is none below. -/
theorem free_tail (h : Cast (s :: T) .free n) : ∀ t ∈ T, t.stance = .free := by
  generalize hc : Stance.free = c at h
  cases h with
  | nobody free => exact (List.forall_mem_cons.1 free).2
  | top busy => exact absurd (by rw [← hc]; rfl) busy
  | waits => cases hc

theorem marked (h : Cast L c n) (busy : c.station? ≠ none) : Marked Position.Busy n L := by
  induction h with
  | nobody => exact absurd rfl busy
  | top busy => exact .head busy rfl
  | waits _ _ ih => exact (ih busy).cons _

/-- The start of a program holds a reference. -/
theorem held (h : Cast L c n) {st : Station κ} (hc : c.station? = some st) (start : st.isStart = true) :
    0 < (L.map Position.total).sum := by
  induction h with
  | nobody => cases hc
  | @top s T busy free =>
    obtain ⟨n, stance⟩ := s
    have some : 0 < Position.total ⟨n, stance⟩ := by
      cases stance <;> cases hc <;> simp [Position.total, start]
    exact Nat.lt_of_lt_of_le some (Nat.le_add_right _ _)
  | waits _ _ ih => exact Nat.lt_of_lt_of_le (ih hc) (Nat.le_add_left _ _)

theorem settle (h : Cast (s :: T) c n) (settled : (Discipline.cycling b i D).Settled b s s') :
    ∃ c', ReflTransGen (Stance.Returns b i D) c c' ∧ Cast (s' :: T) c' n := by
  have returns := cycling_settled settled
  rcases h.cases_top with ⟨hs, -⟩ | ⟨busy, rfl, rfl, free⟩
  · refine ⟨c, .refl, h.renew hs ?_⟩
    rw [hs] at returns
    exact Stance.eq_of_returns returns rfl
  · exact ⟨s'.stance, returns, .top (cycling_stays.settled busy settled) free⟩

theorem trims (h : Cast L c n) (trims : (Discipline.cycling b i D).Trims b L L') :
    ∃ c', ReflTransGen (Stance.Returns b i D) c c' ∧ Cast L' c' n := by
  induction trims generalizing c with
  | refl => exact ⟨c, .refl, h⟩
  | settle T settled => exact h.settle settled
  | drop T =>
    refine ⟨c, .refl, ?_⟩
    cases h with
    | nobody free => exact .nobody (List.forall_mem_cons.1 free).2
    | top busy => exact absurd rfl busy
    | waits _ h => exact h
  | push T =>
    refine ⟨c, .refl, ?_⟩
    cases h with
    | nobody free => exact .nobody (List.forall_mem_cons.2 ⟨rfl, free⟩)
    | top busy => exact absurd rfl busy
    | waits free h => exact .waits rfl (.waits free h)
  | trans _ _ ih ih' =>
    obtain ⟨c₁, returns, h₁⟩ := ih h
    obtain ⟨c₂, returns', h₂⟩ := ih' h₁
    exact ⟨c₂, returns.trans returns', h₂⟩

end Cast

/-! ### Steps of a cycle -/

theorem Move.begun?_eq_none {mv : Move κ} (h : ∀ v, mv.task ≠ .native (.update i v)) :
    mv.begun? i = none := by
  obtain ⟨task, entered⟩ := mv
  unfold begun?
  split
  · next j v _ heq =>
    obtain ⟨rfl, -⟩ := Move.mk.inj heq
    exact if_neg fun hj => h v (by rw [hj])
  · rfl

/-- What a step does to the cycle that is under way. -/
inductive Stance.Goes (b : Behaviour κ σ) (i : ProgramId) (D : RunningProgram κ) (m : Machine κ σ) :
    Stance κ → Stance κ → Prop where
  /-- No code goes on, and no update is begun. -/
  | rests {c : Stance κ} (still : m.directive? = none)
      (calm : ∀ mv, (D.pid, .moved mv) ∈ m.record → mv.begun? i = none) : Goes b i D m c c
  /-- Other code goes on. -/
  | aside {c : Stance κ} {d : Directive κ σ} (top : m.directive? = some d) (foreign : d.Foreign i D)
      (other : ∀ x, d = .found x → m.world.programs.length ≠ i) (out : ∀ st, c ≠ .own st) : Goes b i D m c c
  | founds (top : m.directive? = some (.found D.fixed)) (here : m.world.programs.length = i) :
      Goes b i D m .free (.own (.ready none))
  | begins {mv : Move κ} {v : Value κ} (still : m.directive? = none)
      (record : m.record = [(D.pid, .moved mv)]) (task : mv.task = .native (.update i v)) :
      Goes b i D m .free (.own (.begun v))
  | calls {st : Station κ} {c : Call κ} (top : m.directive? = some (.invoke c))
      (may : st.May b i D (.invoke c)) : Goes b i D m (.own st) (.inside st)
  | performs {st : Station κ} {d : Directive κ σ} {r : d.Reply} {n : Nat} (top : m.directive? = some d)
      (may : st.May b i D d) (hd : d.step b m.world Act.ret = .next (m.step b).world (.ret r))
      (known : Position.Knows b i D ⟨n, .own st⟩ d r) : Goes b i D m (.own st) (st.next d r)

/-- Of the transitions of processes, a main process begins the updates, and nothing else; and it begins none
while a cycle is under way. -/
structure Machine.Orderly (i : ProgramId) (D : RunningProgram κ) (c : Stance κ) (m : Machine κ σ) : Prop where
  own : ∀ p mv v, (p, .moved mv) ∈ m.record → mv.task = .native (.update i v) → p = D.pid
  main : ∀ mv g, (D.pid, .moved mv) ∈ m.record → mv.task = .native g → ∃ v, g = .update i v
  calm : c ≠ .free → ∀ mv g, (D.pid, .moved mv) ∈ m.record → mv.task ≠ .native g
  founded : c ≠ .free → m.world.programs.length ≠ i

/-- A program is founded behind those that are there. -/
theorem Position.reply_found {w w' : World κ σ} {x : RunningProgram κ} {r : ProgramId}
    (hd : (Directive.found x).step b w Act.ret = .next w' (.ret r)) : r = w.programs.length :=
  (Act.ret.inj (Progress.next.inj hd).2).symm

/-- Code that has nothing to do with a cycle goes on like that, unless it founds the program. -/
theorem Position.next_free {s : Position κ} (free : s.stance = .free) {w w' : World κ σ} {d : Directive κ σ}
    {r : d.Reply} (hd : d.step b w Act.ret = .next w' (.ret r))
    (other : ∀ x, d = .found x → w.programs.length ≠ i) : (s.next i d r).stance = .free := by
  obtain ⟨n, stance⟩ := s
  obtain rfl : stance = .free := free
  cases d with
  | found x =>
    obtain rfl := reply_found hd
    show (Position.founded i ⟨n, .free⟩ w.programs.length).stance = .free
    rw [Position.founded_other fun h => other x rfl h.2]
  | _ => rfl

theorem Position.next_inside {s : Position κ} {st : Station κ} (hs : s.stance = .inside st)
    (d : Directive κ σ) (r : d.Reply) : (s.next i d r).stance = .inside st := by
  obtain ⟨n, stance⟩ := s
  obtain rfl : stance = .inside st := hs
  cases d <;> rfl

theorem Position.next_own {n : Nat} {st : Station κ} {d : Directive κ σ} (may : st.May b i D d)
    (r : d.Reply) : (Position.next i ⟨n, .own st⟩ d r).stance = st.next d r := by
  cases may <;> rfl

/-- The code of a cycle goes on with it, or is done. -/
theorem Station.May.next {n : Nat} {st : Station κ} {d : Directive κ σ} {r : d.Reply} (may : st.May b i D d)
    (known : Position.Knows b i D ⟨n, .own st⟩ d r) : st.next d r = .free ∨ ∃ st', st.next d r = .own st' := by
  cases may with
  | take typed =>
    obtain ⟨old, rfl⟩ := Option.ne_none_iff_exists'.1 (known ⟨_, rfl⟩)
    exact .inr ⟨_, rfl⟩
  | settle => exact .inl rfl
  | install => exact .inl rfl
  | _ => exact .inr ⟨_, rfl⟩

namespace Cast

/-- A step with one cycle at most under way: what the cycle has called may return before the step and after it.
While the cycle is under way its code stays in its place, and when it begins it is on top. -/
def Comes (b : Behaviour κ σ) (i : ProgramId) (D : RunningProgram κ) (m : Machine κ σ) (c : Stance κ) (n : Nat)
    (L : List (Position κ)) : Prop :=
  ∃ c₁ c₂ c₃ n', ReflTransGen (Stance.Returns b i D) c c₁ ∧ Stance.Goes b i D m c₁ c₂ ∧
    ReflTransGen (Stance.Returns b i D) c₂ c₃ ∧ Cast L c₃ n' ∧ (c₁ ≠ .free → c₂ ≠ .free → n' = n) ∧
    (c₁ = .free → c₂ ≠ .free → n' + 1 = L.length)

variable {L L' T : List (Position κ)} {s s' : Position κ} {c c₁ : Stance κ} {n : Nat} {m : Machine κ σ}
  {d : Directive κ σ}

/-- A step that is nothing to the cycle. -/
theorem comes_stays (returns : ReflTransGen (Stance.Returns b i D) c c₁) (goes : Stance.Goes b i D m c₁ c₁)
    (cast : Cast L c₁ n) : Comes b i D m c n L :=
  ⟨c₁, c₁, c₁, n, returns, goes, .refl, cast, fun _ _ => rfl, fun free busy => absurd free busy⟩

/-- The work of a binding begins. In the main process this is an update, and its cycle. -/
theorem comes_started {p : Pid} {mv : Move κ} {g : Binding κ} {k : Nat} (h : Cast (⟨0, .free⟩ :: T) c n)
    (orderly : m.Orderly i D c) (still : m.directive? = none) (record : m.record = [(p, .moved mv)])
    (task : mv.task = .native g) :
    Comes b i D m c n ((Discipline.cycling b i D).launch ⟨p, k⟩ g :: T) := by
  have hm : (p, .moved mv) ∈ m.record := record ▸ List.mem_singleton.2 rfl
  by_cases mine : p = D.pid
  · subst mine
    obtain ⟨v, rfl⟩ := orderly.main mv g hm task
    obtain rfl : c = .free := by
      by_contra busy
      exact orderly.calm busy mv _ hm task
    rw [launch_mine rfl]
    exact ⟨.free, _, _, T.length, .refl, .begins still record task, .refl,
      .top (Option.some_ne_none _) h.free_tail, fun busy => absurd rfl busy, fun _ _ => rfl⟩
  · have other : ∀ v, g ≠ .update i v := fun v hg => mine (orderly.own p mv v hm (hg ▸ task))
    refine comes_stays .refl (.rests still fun mv' hm' => ?_) (h.renew rfl (by rw [launch_other mine other]))
    rw [record] at hm'
    exact absurd (Prod.mk.inj (List.mem_singleton.1 hm')).1.symm mine

/-- Code that has nothing to do with the cycle goes on. It may found the program; then the first cycle begins. -/
theorem comes_aside (cast : Cast (s :: T) c₁ n) (orderly : m.Orderly i D c)
    (returns : ReflTransGen (Stance.Returns b i D) c c₁) (free : s.stance = .free) (out : ∀ st, c₁ ≠ .own st)
    (top : m.directive? = some d) (may : (Discipline.cycling b i D).may s d)
    (moves : (Discipline.cycling b i D).Moves b m.world s d (m.step b).world s') :
    Comes b i D m c n (s' :: T) := by
  obtain ⟨k, stance⟩ := s
  obtain rfl : stance = .free := free
  have foreign : d.Foreign i D := may.2
  cases moves with
  | expanded hd expands =>
    exact comes_stays returns (.aside top foreign (by rintro x rfl; cases expands) out) (cast.renew rfl rfl)
  | answered r hd known =>
    -- Either the program at hand is founded in this step, and its first cycle begins, or the
    -- stance stays free.
    by_cases other : ∀ x, d = .found x → m.world.programs.length ≠ i
    · exact comes_stays returns (.aside top foreign other out) (cast.renew rfl (Position.next_free rfl hd other))
    push Not at other
    obtain ⟨x, rfl, here⟩ := other
    obtain rfl : r = i := (Position.reply_found hd).trans here
    obtain rfl : x = D.fixed := foreign.trans (known.1 rfl)
    obtain rfl : c = .free := by
      by_contra busy
      exact orderly.founded busy here
    obtain rfl := Stance.eq_of_returns returns rfl
    have position : (Position.next r ⟨k, .free⟩ (.found (σ := σ) D.fixed) r).stance = .own (.ready none) :=
      congrArg Position.stance (Position.founded_here (s := ⟨k, .free⟩) rfl)
    exact ⟨.free, .own (.ready none), _, T.length, .refl, .founds top here, .refl,
      .of_top position (Option.some_ne_none _) cast.free_tail, fun busy => absurd rfl busy, fun _ _ => rfl⟩

/-- Code goes on that the cycle has called. -/
theorem comes_inside {st : Station κ} (returns : ReflTransGen (Stance.Returns b i D) c (.inside st))
    (hs : s.stance = .inside st) (free : ∀ t ∈ T, t.stance = .free) (top : m.directive? = some d)
    (may : (Discipline.cycling b i D).may s d)
    (moves : (Discipline.cycling b i D).Moves b m.world s d (m.step b).world s') :
    Comes b i D m c T.length (s' :: T) := by
  obtain ⟨k, stance⟩ := s
  obtain rfl : stance = .inside st := hs
  have foreign : d.Foreign i D := may.2
  cases moves with
  | expanded hd expands =>
    refine comes_stays returns (.aside top foreign ?_ (Stance.inside_ne_own st)) ?_
    · rintro x rfl
      cases expands
    · exact .of_top rfl (Option.some_ne_none _) free
  | answered r hd known =>
    refine comes_stays returns (.aside top foreign ?_ (Stance.inside_ne_own st)) ?_
    · rintro x rfl
      exact Position.reply_found hd ▸ known.2.2 (fun hs => by cases hs)
    · exact .of_top (Position.next_inside (s := ⟨k, .inside st⟩) rfl d r) (Option.some_ne_none _) free

/-- The code that runs the cycle goes on: it calls something, or does what comes next in this stage. -/
theorem comes_own {st : Station κ} (returns : ReflTransGen (Stance.Returns b i D) c (.own st))
    (hs : s.stance = .own st) (free : ∀ t ∈ T, t.stance = .free) (top : m.directive? = some d)
    (may : (Discipline.cycling b i D).may s d)
    (moves : (Discipline.cycling b i D).Moves b m.world s d (m.step b).world s') :
    Comes b i D m c T.length (s' :: T) := by
  obtain ⟨k, stance⟩ := s
  obtain rfl : stance = .own st := hs
  have may : st.May b i D d := may.2
  cases moves with
  | expanded hd expands =>
    obtain ⟨c, rfl⟩ := Station.May.expands may expands
    exact ⟨_, .inside st, _, T.length, returns, .calls top may, .refl, .top (Option.some_ne_none _) free,
      fun _ _ => rfl, fun idle => by cases idle⟩
  | answered r hd known =>
    have next := Position.next_own (i := i) (n := k) may r
    obtain ⟨n', cast, place⟩ : ∃ n', Cast (Position.next i ⟨k, .own st⟩ d r :: T) (st.next d r) n' ∧
        (st.next d r ≠ .free → n' = T.length) := by
      rcases Station.May.next may known with done | ⟨st', more⟩
      · rw [done] at next ⊢
        exact ⟨0, .nobody (List.forall_mem_cons.2 ⟨next, free⟩), fun busy => absurd rfl busy⟩
      · rw [more] at next ⊢
        exact ⟨T.length, .of_top next (Option.some_ne_none _) free, fun _ => rfl⟩
    exact ⟨_, st.next d r, _, n', returns, .performs top may hd known, .refl, cast, fun _ => place,
      fun idle => by cases idle⟩

/-- Every step keeps to one cycle at most. -/
theorem goes (h : Cast L c n) (orderly : m.Orderly i D c) (going : (m.step b).fault = none)
    (goes : (Discipline.cycling b i D).Goes b m (m.step b) L L') : Comes b i D m c n L' := by
  cases goes with
  | quiet still begins trims =>
    obtain ⟨c₃, returns, cast⟩ := h.trims trims
    refine ⟨c, c, c₃, n, .refl, .rests still fun mv hm => ?_, returns, cast, fun _ _ => rfl,
      fun free busy => absurd free busy⟩
    exact Move.begun?_eq_none fun v => (begins _ mv hm).2 _
  | broken hf =>
    rw [hf] at going
    cases going
  | @driving s s₁ T e top settled may =>
    obtain ⟨c₁, returns, cast⟩ := h.settle settled
    -- A drive waits on the stack below what it runs, so the code that calls for it is not that of
    -- the cycle.
    have out : ∀ st, c₁ ≠ .own st := by
      rcases cast.cases_top with ⟨-, out⟩ | ⟨-, rfl, -, -⟩
      · exact out
      · intro st hs
        have may := may.2
        rw [hs] at may
        cases may
    exact comes_stays returns (.aside top trivial (fun _ hd => by cases hd) out) (cast.under out rfl)
  | @entered T p mv e v still record hc =>
    -- A transition that enters a continuation does not begin a binding: the two leave different
    -- phases behind.
    refine comes_stays .refl (.rests still fun mv' hm => Move.begun?_eq_none fun v' task => ?_) (h.renew rfl rfl)
    have hm' : (p, .moved mv) ∈ m.record := record ▸ List.mem_singleton.2 rfl
    rw [record] at hm
    obtain ⟨rfl, same⟩ := Prod.mk.inj (List.mem_singleton.1 hm)
    obtain rfl := Deed.moved.inj same
    obtain ⟨n₁, k₁, st₁, called⟩ := Machine.step_of_entered (b := b) hm' hc
    obtain ⟨x, n₂, k₂, st₂, -, -, begun⟩ := Machine.step_of_native (b := b) hm' task
    cases called.symm.trans begun
  | started still record hx task => exact comes_started h orderly still record task
  | @returned s s₁ T n k p t st still top settled gives =>
    obtain rfl : s₁ = ⟨0, .free⟩ := gives
    obtain ⟨c₁, returns, cast⟩ := h.settle settled
    refine comes_stays returns (.rests still fun mv hm => ?_) (cast.renew rfl rfl)
    rw [Machine.record, Machine.going_of_step going, top] at hm
    have hm : (D.pid, Deed.moved mv) ∈ if m.world.procs.isAlive p then [(p, .returned t)] else [] := hm
    split at hm
    · cases List.mem_singleton.1 hm
    · cases hm
  | @launched s s₁ T still silent settled ends =>
    obtain ⟨c₁, returns, cast⟩ := h.settle settled
    have idle : s₁.stance = .free := by
      rcases cast.cases_top with ⟨hs, -⟩ | ⟨busy, -⟩
      · exact hs
      · exact absurd ends (cycling_stays.ends s₁ busy)
    refine comes_stays returns (.rests still fun mv hm => ?_) (cast.renew idle rfl)
    rw [silent] at hm
    cases hm
  | @code s s₁ s' T d top settled may moves =>
    obtain ⟨c₁, returns, cast⟩ := h.settle settled
    -- Code that has nothing to do with the cycle is told from code that runs it by its place on
    -- the stack.
    rcases cast.cases_top with ⟨hs, out⟩ | ⟨busy, rfl, rfl, free⟩
    · exact comes_aside cast orderly returns hs out top may moves
    · cases hs : s₁.stance with
      | free => exact absurd (by rw [hs]; rfl) busy
      | wild => exact absurd (by rw [hs]; rfl) busy
      | inside st => exact comes_inside (hs ▸ returns) hs free top may moves
      | own st => exact comes_own (hs ▸ returns) hs free top may moves

end Cast

end Actors
