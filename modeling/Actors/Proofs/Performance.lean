/-
Whole runs of a program.

A program is founded, its first cycle runs, and then its main process begins one cycle after the other. The
code of an update is the work of a binding that the main process awaits, so the process makes no transition
before the cycle is over; and there is no such process before the first cycle is over. So the cycles of a
program follow each other, in every run.

* `Stance.start?` — which kind of cycle is under way;
* `Stance.Hosted` — what becomes of the main process meanwhile;
* `Private` — nobody but the main process begins update cycles of the program;
* `Trail.plays` — every run agrees with a score.
-/
import Actors.Proofs.Cycles

namespace Actors

variable {κ σ : Type} {b : Behaviour κ σ} {i : ProgramId} {D : RunningProgram κ}

open Relation World

/-! ### The kind of cycle that is under way -/

/-- Whether the cycle that is under way starts the program. -/
def Stance.start? (c : Stance κ) : Option Bool :=
  c.station?.map Station.isStart

namespace Stance

variable {c c' : Stance κ} {m : Machine κ σ}

theorem start?_of_idle (h : c.station? = none) : c.start? = none := by
  rw [start?, h]
  rfl

theorem busy_of_start? {x : Bool} (h : c.start? = some x) : c.station? ≠ none := fun none => by
  rw [start?_of_idle none] at h
  cases h

theorem Returns.start? (h : Returns b i D c c') : c'.start? = c.start? := by
  obtain ⟨may, returns⟩ := h
  obtain ⟨st', next, called⟩ := may.called _
  rw [next]
  show some st'.isStart = some _
  rw [Station.isStart_eq, Station.isStart_eq, called.message?]

theorem start?_of_returns (h : ReflTransGen (Returns b i D) c c') : c'.start? = c.start? := by
  induction h with
  | refl => rfl
  | tail _ last ih => rw [last.start?, ih]

theorem busy_before (h : ReflTransGen (Returns b i D) c c') (busy : c'.station? ≠ none) : c.station? ≠ none :=
  fun idle => busy (by rw [eq_of_returns h idle, idle])

/-- The code of a cycle ends it, or goes on with it. -/
theorem start?_of_next {st : Station κ} {d : Directive κ σ} {r : d.Reply} {n : Nat} (may : st.May b i D d)
    (known : Position.Knows b i D ⟨n, .own st⟩ d r) :
    st.next d r = .free ∨ (st.next d r).start? = some st.isStart := by
  cases may with
  | take typed =>
    obtain ⟨old, rfl⟩ := Option.ne_none_iff_exists'.1 (known ⟨_, rfl⟩)
    exact .inr rfl
  | settle => exact .inl rfl
  | install => exact .inl rfl
  | _ => exact .inr rfl

/-- A step begins a cycle, ends it, or goes on with it. -/
theorem Goes.start? (h : Goes b i D m c c') : c' = .free ∨ c'.start? = c.start? ∨
    c = .free ∧ c'.start? = some true ∧ m.directive? = some (.found D.fixed) ∨
    c = .free ∧ c'.start? = some false ∧
      ∃ mv v, m.record = [(D.pid, .moved mv)] ∧ mv.task = .native (.update i v) := by
  cases h with
  | rests => exact .inr (.inl rfl)
  | aside => exact .inr (.inl rfl)
  | founds top => exact .inr (.inr (.inl ⟨rfl, rfl, top⟩))
  | begins still record task => exact .inr (.inr (.inr ⟨rfl, rfl, _, _, record, task⟩))
  | calls => exact .inr (.inl rfl)
  | performs top may hd known => exact (start?_of_next may known).imp_right .inl

/-- The binding of a main process is completed when its cycle is over. -/
theorem Goes.settles (h : Goes b i D m c c') {t : Ticket} {task : Task κ} (mine : t.pid = D.pid)
    (top : m.directive? = some (.settle t task)) : c' = .free := by
  cases h with
  | rests still => cases still.symm.trans top
  | aside top' foreign =>
    obtain rfl := Option.some.inj (top'.symm.trans top)
    exact absurd mine foreign
  | founds top' => cases top'.symm.trans top
  | begins still => cases still.symm.trans top
  | calls top' => cases top'.symm.trans top
  | performs top' may =>
    obtain rfl := Option.some.inj (top'.symm.trans top)
    cases may
    rfl

/-- A main process is installed when the first cycle is over. -/
theorem Goes.installs (h : Goes b i D m c c')
    (top : m.directive? = some (.install D.pid (some "program") (Program.listen i))) :
    (∃ st, c = .own st) ∧ c' = .free := by
  cases h with
  | rests still => cases still.symm.trans top
  | aside top' foreign =>
    obtain rfl := Option.some.inj (top'.symm.trans top)
    rcases foreign with unlabelled | other
    · cases unlabelled
    · exact absurd rfl other
  | founds top' => cases top'.symm.trans top
  | begins still => cases still.symm.trans top
  | calls top' => cases top'.symm.trans top
  | performs top' may =>
    obtain rfl := Option.some.inj (top'.symm.trans top)
    cases may
    exact ⟨⟨_, rfl⟩, rfl⟩

end Stance

/-! ### The main process meanwhile -/

/-- What is known of a main process while a cycle is under way. -/
structure Stance.Hosted (i : ProgramId) (D : RunningProgram κ) (m : Machine κ σ) (c : Stance κ) (n : Nat) :
    Prop where
  /-- It is not there before the program has been started. -/
  absent : c.start? = some true → m.world.procs.get? D.pid = none
  /-- It cannot go on before an update is over. -/
  pauses : c.start? = some false → m.world.Pauses D.pid
  /-- The code of an update is the work of its binding. -/
  place : c.start? = some false → ∃ below a, below.length = n ∧ a.starting? = some D.pid ∧ m.Appoints below a
  founded : (m.world.procs.get? D.pid).isSome = true → m.world.programs[i]? ≠ none

/-- What a step may do to a main process: it is installed at the end of the start of its program, and what it
awaits is completed at the end of an update. -/
structure Machine.Attends (i : ProgramId) (D : RunningProgram κ) (m : Machine κ σ) : Prop where
  sound : m.Sound
  opens : ∀ t, (D.pid, .spawned t) ∈ m.record →
    m.directive? = some (.install D.pid (some "program") (Program.listen i))
  settled : ∀ t, (D.pid, .completed t) ∈ m.record → ∃ k, m.directive? = some (.settle ⟨D.pid, k⟩ t)
  fresh : m.directive? = some (.found D.fixed) → m.world.procs.get? D.pid = none

/-- Programs stay where they are. -/
theorem Machine.programs_ne_none (b : Behaviour κ σ) {m : Machine κ σ} (there : m.world.programs[i]? ≠ none) :
    (m.step b).world.programs[i]? ≠ none := by
  have more := (founded_step b m).length_le
  rw [World.founded, World.founded, List.length_map, List.length_map] at more
  rw [ne_eq, List.getElem?_eq_none_iff] at there ⊢
  omega

namespace Stance

variable {m : Machine κ σ} {c c' : Stance κ} {n n' : Nat}

/-- Between two cycles nothing is known. -/
theorem hosted_free (founded : (m.world.procs.get? D.pid).isSome = true → m.world.programs[i]? ≠ none) :
    Hosted i D m .free n where
  absent h := by cases h
  pauses h := by cases h
  place h := by cases h
  founded := founded

/-- It does not matter for the main process what a cycle has called. -/
theorem Hosted.returns (h : Hosted i D m c n) (returns : ReflTransGen (Returns b i D) c c') :
    Hosted i D m c' n := by
  have same := start?_of_returns returns
  exact ⟨fun hc => h.absent (same ▸ hc), fun hc => h.pauses (same ▸ hc), fun hc => h.place (same ▸ hc),
    h.founded⟩

/-- Every step keeps to what is known of the main process. -/
theorem Goes.hosted (goes : Goes b i D m c c') (h : Hosted i D m c n) (attends : m.Attends i D)
    (entry : ∀ st, c = .own st → m.world.programs[i]? ≠ none)
    (stays : ∀ below a, c.start? = some false → c'.start? = some false → below.length = n →
      m.Appoints below a → (m.step b).Appoints below a)
    (same : c ≠ .free → c' ≠ .free → n' = n)
    (top : c = .free → c' ≠ .free → n' + 1 = (m.step b).stack.length) : Hosted i D (m.step b) c' n' := by
  have starts : ∀ t, (D.pid, .spawned t) ∈ m.record → (∃ st, c = .own st) ∧ c' = .free :=
    fun t ht => goes.installs (attends.opens t ht)
  have fresh : m.world.procs.get? D.pid = none → c' ≠ .free → (m.step b).world.procs.get? D.pid = none :=
    fun none more => Machine.get?_step attends.sound none fun t ht => more (starts t ht).2
  have goesOn : ∀ {x : Bool}, c'.start? = some x → c' ≠ .free := by
    rintro x hx rfl
    cases hx
  -- Each of the four facts holds of the cycle before, or the step has just begun one in the way
  -- that the fact asks for.
  refine ⟨fun hc => ?_, fun hc => ?_, fun hc => ?_, fun there => ?_⟩
  · rcases goes.start? with rfl | on | ⟨rfl, -, found⟩ | ⟨-, update, -⟩
    · cases hc
    · exact fresh (h.absent (on ▸ hc)) (goesOn hc)
    · exact fresh (attends.fresh found) (goesOn hc)
    · cases hc.symm.trans update
  · rcases goes.start? with rfl | on | ⟨-, start, -⟩ | ⟨-, -, mv, v, record, task⟩
    · cases hc
    · refine Machine.pauses_step attends.sound (h.pauses (on ▸ hc)) fun t ht => ?_
      obtain ⟨k, settles⟩ := attends.settled t ht
      exact goesOn hc (goes.settles rfl settles)
    · cases hc.symm.trans start
    · exact Machine.pauses_of_native attends.sound (record ▸ List.mem_singleton.2 rfl) task
  · rcases goes.start? with rfl | on | ⟨-, start, -⟩ | ⟨rfl, -, mv, v, record, task⟩
    · cases hc
    · obtain ⟨below, a, length, work, appoints⟩ := h.place (on ▸ hc)
      have busy : c ≠ .free := by
        rintro rfl
        cases on.symm.trans hc
      exact ⟨below, a, length.trans (same busy (goesOn hc)).symm, work,
        stays below a (on ▸ hc) hc length appoints⟩
    · cases hc.symm.trans start
    · have moved : (D.pid, .moved mv) ∈ m.record := record ▸ List.mem_singleton.2 rfl
      obtain ⟨x, k, l, s, -, -, stack⟩ := Machine.step_of_native (b := b) moved task
      have length := top rfl (goesOn hc)
      rw [stack, List.length_cons] at length
      exact ⟨s, _, (Nat.succ.inj length).symm, rfl, [], _, stack, .refl _⟩
  -- The process is there: it was before the step, or the code of the cycle has installed it.
  · refine Machine.programs_ne_none b ?_
    by_cases before : (m.world.procs.get? D.pid).isSome = true
    · exact h.founded before
    by_contra none
    have silent : ∀ t, (D.pid, .spawned t) ∉ m.record := fun t ht => by
      obtain ⟨⟨st, own⟩, -⟩ := starts t ht
      exact entry st own none
    rw [Machine.get?_step attends.sound (by simpa using before) silent] at there
    cases there

end Stance

/-! ### Functions that are under way -/

/-- Whether one of the program's functions has been entered after a directive, given that before it. The
functions are over when the cycle goes on to count the update, or with the model. -/
def Directive.inside (i : ProgramId) (before : Bool) : Directive κ σ → Bool
  | .invoke c => (c.beat? i).isSome || before
  | .takeModel j => if j = i then false else before
  | .putModel j _ => if j = i then false else before
  | .countUpdate j => if j = i then false else before
  | _ => before

/-- Whether one of the program's functions has been entered last in a run, and not come to its end. -/
def insideAfter (i : ProgramId) (ms : List (Machine κ σ)) : Bool :=
  (ms.filterMap Machine.directive?).foldl (Directive.inside i) false

theorem insideAfter_of_still {ms : List (Machine κ σ)} {m : Machine κ σ} (still : m.directive? = none) :
    insideAfter i (ms ++ [m]) = insideAfter i ms := by
  rw [insideAfter, List.filterMap_append, List.filterMap_cons_none still, List.filterMap_nil, List.append_nil]
  rfl

theorem insideAfter_of_directive? {ms : List (Machine κ σ)} {m : Machine κ σ} {d : Directive κ σ}
    (top : m.directive? = some d) : insideAfter i (ms ++ [m]) = d.inside i (insideAfter i ms) := by
  rw [insideAfter, List.filterMap_append, List.filterMap_cons_some top, List.filterMap_nil, List.foldl_append]
  rfl

/-- Other code does not enter the program's functions, and it does not bring them to their end. -/
theorem Directive.Foreign.inside {d : Directive κ σ} (h : d.Foreign i D) (before : Bool) :
    d.inside i before = before := by
  cases d with
  | invoke c =>
    have outside : c.beat? i = none := h.beat? fun _ _ => Option.some_ne_none _ ∘ Eq.symm
    rw [Directive.inside, outside]
    rfl
  | takeModel j => exact if_neg h
  | putModel j v => exact if_neg h
  | countUpdate j => exact if_neg h
  | _ => rfl

namespace Stance

variable {c c' : Stance κ} {m : Machine κ σ}

/-- What a cycle calls comes back to its own code. -/
theorem eq_inside_of_returns {st : Station κ} (h : ReflTransGen (Returns b i D) c (.inside st)) :
    c = .inside st := by
  rcases h.cases_tail with same | ⟨c₁, -, last⟩
  · exact same.symm
  · generalize hc : Stance.inside st = c' at last
    obtain ⟨may, returns⟩ := last
    obtain ⟨st', next, -⟩ := may.called _
    cases hc.trans next

/-- While a cycle waits for something that it has called, this is a function of the program, unless the model
is in its place. -/
theorem Goes.inside (h : Goes b i D m c c') {ms : List (Machine κ σ)}
    (before : ∀ st, c = .inside st → insideAfter i ms = true ∨ ∃ r, st = .placed r) {st : Station κ}
    (now : c' = .inside st) : insideAfter i (ms ++ [m]) = true ∨ ∃ r, st = .placed r := by
  cases h with
  | rests still =>
    rw [insideAfter_of_still still]
    exact before st now
  | aside top foreign =>
    rw [insideAfter_of_directive? top, foreign.inside]
    exact before st now
  | founds => cases now
  | begins => cases now
  | @calls st' call top may =>
    obtain rfl := Stance.inside.inj now
    rw [insideAfter_of_directive? top]
    cases may with
    | leaf r => exact .inr ⟨r, rfl⟩
    | _ => exact .inl (by simp [Directive.inside, Call.beat?])
  | performs top may hd known =>
    rcases may.next known with done | ⟨st', own⟩
    · cases done.symm.trans now
    · cases own.symm.trans now

end Stance

/-! ### Runs -/

/-- Of all processes only a program's main process begins its update cycles. These are bindings that the
runtime makes for it; user code has no part in them, unless it makes up a task that contains one. -/
def Private (i : ProgramId) (D : RunningProgram κ) (ms : List (Machine κ σ)) : Prop :=
  ∀ m ∈ ms, ∀ e ∈ m.record, (e.2.move?.bind (Move.begun? i)).isSome = true → e.1 = D.pid

instance (ms : List (Machine κ σ)) : Decidable (Private i D ms) :=
  inferInstanceAs (Decidable (∀ m ∈ ms, ∀ e ∈ m.record, _ → _))

theorem Private.own {ms : List (Machine κ σ)} (h : Private i D ms) {m : Machine κ σ} (hm : m ∈ ms) {p : Pid}
    {mv : Move κ} {v : Value κ} (moved : (p, .moved mv) ∈ m.record) (task : mv.task = .native (.update i v)) :
    p = D.pid := by
  refine h m hm _ moved ?_
  obtain ⟨t, entered⟩ := mv
  obtain rfl : t = .native (.update i v) := task
  simp [Deed.move?, Move.begun?]

/-- What is known of a run in which a program is founded, or will be. -/
structure Machine.Readies (i : ProgramId) (D : RunningProgram κ) (m : Machine κ σ) (ms : List (Machine κ σ)) :
    Prop where
  expects : m.world.Expects i D
  opens : ∀ m' ∈ ms, ∀ t, (D.pid, .spawned t) ∈ m'.record →
    m'.directive? = some (.install D.pid (some "program") (Program.listen i))
  own : Private i D ms

/-- The cycles of a program in a run, with the code that runs the one that is under way. -/
structure Machine.Plays (b : Behaviour κ σ) (i : ProgramId) (D : RunningProgram κ) (m : Machine κ σ)
    (ms : List (Machine κ σ)) (s : Score κ) (L : List (Position κ)) (n : Nat) : Prop where
  keeps : m.Keeps (Discipline.cycling b i D) b L
  held : m.Held (L.map Position.total).sum
  cast : Cast L s.now n
  agrees : s.Agrees b i D m ms
  hosted : Stance.Hosted i D m s.now n
  inside : ∀ st, s.now = .inside st → insideAfter i ms = true ∨ ∃ r, st = .placed r

/-- The name of a program that is founded is free. -/
theorem Trail.fresh_of_found {m : Machine κ σ} {ms : List (Machine κ σ)} (h : Trail b m ms)
    {d : RunningProgram κ} (top : m.directive? = some (.found d)) : m.world.procs.get? d.pid = none := by
  obtain ⟨L, keeps, claimed⟩ := h.routed d.pid
  obtain ⟨s, T, s', rfl, settled, may⟩ := keeps.may top
  obtain rfl := routing_steady.settled settled
  obtain ⟨c, u, rfl, -⟩ := may rfl
  exact (ProcTable.isFree_iff.1 (claimed.flatten.2 (by simp))).2

namespace Machine.Readies

variable {m : Machine κ σ} {ms : List (Machine κ σ)}

theorem before (h : (m.step b).Readies i D (ms ++ [m])) : m.Readies i D ms where
  expects := h.expects.of_prefix (founded_step b m)
  opens m' hm := h.opens m' (List.mem_append_left _ hm)
  own m' hm := h.own m' (List.mem_append_left _ hm)

/-- Under its name nothing but the main process is started. -/
theorem main (h : m.Readies i D ms) {u : Task κ}
    (hu : .spawned u ∈ Record.of (ms.flatMap Machine.record) D.pid) : u = Program.listen i := by
  obtain ⟨m', hm, there⟩ := List.mem_flatMap.1 (Record.mem_of.1 hu)
  have top := h.opens m' hm u there
  rw [Machine.record_of_directive? top] at there
  rcases Directive.of_spawned there with ⟨label, same⟩ | none
  · exact (Directive.install.inj same).2.2.symm
  · cases none

theorem attends (h : (m.step b).Readies i D (ms ++ [m])) (trail : Trail b m ms) : m.Attends i D where
  sound := trail.reachable.sound
  opens := h.opens m (List.mem_append_right _ (List.mem_singleton.2 rfl))
  settled _ done := trail.settled (fun _ hu => h.before.main hu) done
  fresh := trail.fresh_of_found (d := D.fixed)

end Machine.Readies

/-- While a cycle is under way the program is there. -/
theorem Score.Agrees.there {m : Machine κ σ} {ms : List (Machine κ σ)} {s : Score κ} (h : s.Agrees b i D m ms)
    (busy : s.now.station? ≠ none) : m.world.programs[i]? ≠ none := by
  obtain ⟨st, hst⟩ := Option.ne_none_iff_exists'.1 busy
  rw [h.entry, Score.entry, hst]
  exact Option.some_ne_none _

theorem Cast.busy {L : List (Position κ)} {c : Stance κ} {n : Nat} (h : Cast L c n) (hc : c ≠ .free) :
    c.station? ≠ none := by
  induction h with
  | nobody => exact absurd rfl hc
  | top busy => exact busy
  | waits _ _ ih => exact ih hc

/-- A stance with something to do with a cycle. -/
theorem Stance.start?_cases {c : Stance κ} (busy : c.station? ≠ none) :
    c.start? = some true ∨ c.start? = some false := by
  obtain ⟨st, hst⟩ := Option.ne_none_iff_exists'.1 busy
  rw [start?, hst]
  cases h : st.isStart with
  | true => exact .inl (congrArg some h)
  | false => exact .inr (congrArg some h)

/-- The work of a binding is begun in a tick. -/
theorem Activity.isTick_of_starting? {a : Activity κ σ} {p : Pid} (h : a.starting? = some p) :
    a.isTick = true := by
  cases a with
  | tick => rfl
  | _ => cases h

namespace Machine.Plays

variable {m : Machine κ σ} {ms : List (Machine κ σ)} {s : Score κ} {L : List (Position κ)} {n : Nat}

/-- While a program is updated its main process begins a binding. -/
theorem starts (h : m.Plays b i D ms s L n) (update : s.now.start? = some false) :
    ∃ a ∈ m.stack, a.starting? = some D.pid := by
  obtain ⟨below, a, -, work, above, a', stack, akin⟩ := h.hosted.place update
  exact ⟨a', stack ▸ List.mem_append_right _ List.mem_cons_self, akin.starting?.trans work⟩

/-- As long as a cycle is under way the runtime is there. -/
theorem reachable (h : m.Plays b i D ms s L n) (run : Reachable b m) (going : m.fault = none)
    (busy : s.now.station? ≠ none) : m.world.reachable = true := by
  rcases Stance.start?_cases busy with start | update
  · obtain ⟨st, hst, first⟩ := Option.map_eq_some_iff.1 start
    have some := h.cast.held hst first
    have held := h.held going
    simp only [World.reachable, decide_eq_true_eq]
    omega
  · obtain ⟨a, mem, work⟩ := h.starts update
    exact run.reachable_of_tick going (List.countP_pos_iff.2 ⟨a, mem, Activity.isTick_of_starting? work⟩)

/-- When what a cycle has called returns the score is the same. -/
theorem settle {p p' : Position κ} {T : List (Position κ)} (h : m.Plays b i D ms s (p :: T) n)
    (settled : (Discipline.cycling b i D).Settled b p p') :
    ∃ c', ReflTransGen (Stance.Returns b i D) s.now c' ∧ Cast (p' :: T) c' n ∧
      Score.Agrees b i D m ms ⟨s.rounds, c'⟩ := by
  obtain ⟨c', returns, cast⟩ := h.cast.settle settled
  exact ⟨c', returns, cast, h.agrees.returns returns⟩

/-- What comes back to code is what is known of it. -/
theorem answers (h : m.Plays b i D ms s L n) (run : Reachable b m) (expects : (m.step b).world.Expects i D)
    {p p' : Position κ} {T : List (Position κ)} {d : Directive κ σ} {r : d.Reply} {w' : World κ σ}
    (hL : L = p :: T) (settled : (Discipline.cycling b i D).Settled b p p')
    (may : (Discipline.cycling b i D).may p' d) (top : m.directive? = some d)
    (hd : d.step b m.world Act.ret = .next w' (.ret r)) : (Discipline.cycling b i D).knows p' d r := by
  -- The position of the code on top and the stance of the whole stack agree about where the cycle
  -- is.
  subst hL
  obtain ⟨c, returns, cast, agrees⟩ := h.settle settled
  have own : ∀ st, p'.stance = .own st → c = .own st := by
    intro st hst
    rcases cast.cases_top with ⟨free, -⟩ | ⟨-, same, -⟩
    · cases hst.symm.trans free
    · exact same.symm.trans hst
  cases d with
  | invoke call =>
    have code : Procedure.ofCode (b.code call) = .ret r :=
      (Act.bind_ret _).symm.trans (Progress.next.inj hd).2
    have brings : (Procedure.ofCode (b.code call)).Brings b r := by
      rw [code]
      exact .ret r
    exact brings.returns
  | found x =>
    obtain rfl := Position.reply_found hd
    have founded : (m.step b).world.founded[m.world.programs.length]? = some x.fixed := by
      rw [World.founded, Machine.programs_of_next top hd]
      simp [Directive.programsAfter]
    obtain ⟨mine, others⟩ := expects _ _ founded
    refine ⟨mine, others, fun stance here => ?_⟩
    have under : c.station? ≠ none := by
      rcases cast.cases_top with ⟨free, -⟩ | ⟨busy, rfl, -⟩
      · exact absurd free stance
      · exact busy
    exact agrees.there under (List.getElem?_eq_none (Nat.le_of_eq here))
  | running j =>
    obtain ⟨-, hr⟩ := Progress.next.inj hd
    obtain rfl := Act.ret.inj hr
    refine ⟨fun d hd => (expects.of_prefix (founded_step b m)).running hd, ?_⟩
    rintro ⟨st, hst⟩
    have may := may.2
    rw [hst] at may
    obtain rfl := own st hst
    cases may with
    | running v => exact agrees.there (Option.some_ne_none _)
  | takeModel j =>
    rintro ⟨st, hst⟩
    have may := may.2
    rw [hst] at may
    obtain rfl := own st hst
    cases may with
    | @take v typed =>
      obtain ⟨-, hr⟩ := Progress.next.inj hd
      rw [← Act.ret.inj hr, agrees.entry]
      have first : s.rounds ≠ [] := agrees.fits.now _ rfl
      show lastModel s.rounds ≠ none
      rw [lastModel, ne_eq, Option.map_eq_none_iff, List.getLast?_eq_none_iff]
      exact first
  | request q =>
    cases q with
    | isReachable =>
      rintro ⟨st, hst⟩
      obtain rfl := own st hst
      obtain ⟨-, hr⟩ := Progress.next.inj hd
      rw [← Act.ret.inj hr]
      exact h.reachable run (Machine.going_of_directive? top) (Stance.busy_before returns (Option.some_ne_none _))
    | _ => trivial
  | _ => trivial

/-- The main process begins updates only, and none while a cycle is under way. -/
theorem orderly (h : m.Plays b i D ms s L n) (trail : Trail b m ms)
    (readies : (m.step b).Readies i D (ms ++ [m])) : m.Orderly i D s.now where
  own _ _ _ moved task := readies.own.own (List.mem_append_right _ (List.mem_singleton.2 rfl)) moved task
  main mv g moved task := by
    refine trail.step.history.domestic (p := D.pid) (fun u hu => readies.main hu) ?_ task
    exact Record.mem_of.2 (List.mem_flatMap.2 ⟨m, List.mem_append_right _ (List.mem_singleton.2 rfl), moved⟩)
  calm busy mv g moved _ := by
    rcases Stance.start?_cases (h.cast.busy busy) with start | update
    · obtain ⟨x, hx, -⟩ := (Machine.transition b m).of_moved moved
      cases hx.symm.trans (h.hosted.absent start)
    · exact Machine.not_moved b (h.hosted.pauses update) mv moved
  founded busy here := h.agrees.there (h.cast.busy busy) (List.getElem?_eq_none (Nat.le_of_eq here))

/-- Every step goes on with the cycles of a program. -/
theorem goes (h : m.Plays b i D ms s L n) (trail : Trail b m ms) (readies : (m.step b).Readies i D (ms ++ [m]))
    (going : (m.step b).fault = none) : ∃ c₁ c₂ rs' c₃ L' n',
      ReflTransGen (Stance.Returns b i D) s.now c₁ ∧ Stance.Goes b i D m c₁ c₂ ∧
      ReflTransGen (Stance.Returns b i D) c₂ c₃ ∧ s.rounds <+: rs' ∧
      (m.step b).Plays b i D (ms ++ [m]) ⟨rs', c₃⟩ L' n' := by
  obtain ⟨rs, c⟩ := s
  have run := trail.reachable
  have orderly := h.orderly trail readies
  obtain ⟨L', keeps, goes⟩ := h.keeps.transition cycling_lawful (Machine.transition b m)
    fun _ _ _ _ _ _ hL settled may top hd => h.answers run readies.expects hL settled may top hd
  obtain ⟨c₁, c₂, c₃, n', before, step, after, cast, same, top⟩ := h.cast.goes orderly going goes
  -- The cast is where the step is understood; the score and what is known of the main process
  -- follow it.
  have agrees := h.agrees.returns before
  have hosted := h.hosted.returns before
  have busy : c₁.station? ≠ none → c.station? ≠ none := Stance.busy_before before
  have entry : ∀ st, c₁ = .own st → m.world.programs[i]? ≠ none :=
    fun st hst => agrees.there (by rw [hst]; exact Option.some_ne_none _)
  obtain ⟨rs', more, continues⟩ := step.continues agrees fun mv moved => by
    obtain ⟨x, hx, -⟩ := (Machine.transition b m).of_moved moved
    exact hosted.founded (by rw [hx]; rfl)
  have arrives := fun p mem => step.arrives (p := p) agrees mem fun st hst => by
    obtain ⟨d, hd⟩ := Option.ne_none_iff_exists'.1 (entry st hst)
    have manages := trail.manages hd
    have staff : d.staff = D.staff :=
      congrArg (List.map Prod.snd) (RunningProgram.of_fixed ((readies.before.expects.running hd).1 rfl)).2.2.2
    exact ⟨h.reachable run (Machine.going_of_step going) (busy (by rw [hst]; exact Option.some_ne_none _)),
      manages.there p (staff ▸ mem)⟩
  refine ⟨c₁, c₂, rs', c₃, L', n', before, step, after, more, keeps, ?_, cast, ?_, ?_, fun st hst => ?_⟩
  · exact cycling_counts.held (fun p may => by
      have some := may.1 (.inl rfl)
      unfold Position.total
      omega) h.held goes
  · exact (continues.agrees agrees run.sound arrives).returns after
  · refine Stance.Hosted.returns ?_ after
    refine step.hosted hosted (readies.attends trail) entry (fun below a update _ length appoints => ?_) same
      fun free more => ?_
    · have working : c.station? ≠ none := busy (Stance.busy_of_start? update)
      exact appoints.step h.keeps cycling_stays (length ▸ h.cast.marked working) going
    · rw [top free more, (keeps going).length_eq]
  · obtain rfl : c₃ = .inside st := hst
    refine step.inside (fun st hst => h.inside st ?_) (Stance.eq_inside_of_returns after)
    subst hst
    exact Stance.eq_inside_of_returns before

end Machine.Plays

/-- When nothing is under way any more no cycle is. -/
theorem Cast.eq_free {c : Stance κ} {n : Nat} (h : Cast [] c n) : c = .free := by
  cases h
  rfl

/-- In every run the cycles of a program follow each other. -/
theorem Trail.plays {m : Machine κ σ} {ms : List (Machine κ σ)} (h : Trail b m ms) (going : m.fault = none)
    (readies : m.Readies i D ms) : ∃ s L n, m.Plays b i D ms s L n := by
  induction h with
  | new config user code =>
    refine ⟨⟨[], .free⟩, _, 0, Machine.keeps_load cycling_lawful _ code, fun _ => rfl,
      .nobody (List.forall_mem_singleton.2 rfl), ?_, Stance.hosted_free ?_, fun st hst => by cases hst⟩
    · exact ⟨⟨.nil, fun st hst => by cases hst⟩, rfl, rfl, rfl, fun e _ => Iff.rfl, fun p _ => .inl rfl⟩
    · intro there
      rw [show (Machine.load (World.new config user) _).world = World.new config user from rfl, get?_new] at there
      cases there
  | @load m ms code h hs hf ih =>
    obtain ⟨⟨rs, c⟩, L, n, keeps, held, cast, agrees, hosted, -⟩ :=
      ih hf ⟨readies.expects, readies.opens, readies.own⟩
    obtain rfl := keeps.eq_nil hs hf
    obtain rfl : c = .free := cast.eq_free
    have holds : m.world.holds = 0 := by rw [held hf, hs]; rfl
    refine ⟨⟨rs, .free⟩, _, 0, Machine.keeps_load cycling_lawful _ code, fun _ => holds,
      .nobody (List.forall_mem_singleton.2 rfl), ?_, Stance.hosted_free hosted.founded, fun st hst => by cases hst⟩
    exact ⟨agrees.fits, agrees.entry, agrees.messages, agrees.beats, agrees.addressee, agrees.arrived⟩
  | @step m ms h ih =>
    obtain ⟨s, L, n, plays⟩ := ih (Machine.going_of_step going) readies.before
    obtain ⟨c₁, c₂, rs', c₃, L', n', -, -, -, -, plays'⟩ := plays.goes h readies going
    exact ⟨_, L', n', plays'⟩

/-- A run with a program in it. -/
theorem Trail.readies {m : Machine κ σ} {ms : List (Machine κ σ)} (h : Trail b m ms) (going : m.fault = none)
    (hD : m.world.programs[i]? = some D) (own : Private i D ms) : m.Readies i D ms where
  expects := (h.manages hD).expects
  opens := h.opens going hD
  own := own

end Actors
