/-
The programs of a runtime.

A runtime's programs are listed in the order in which they have been founded. What a program is made of
never changes: its application, its main process, and its managers with their processes. The processes
of the managers are started by the code that founds the program, so each of them belongs to one program
only, and to one manager of it.

* `World.founded` — what the programs are made of, and `Machine.founded_step`: this only grows;
* `Discipline.staffing` — code founds a program with the managers that it has started;
* `World.Staffed`, `Trail.staffed` — no process is a manager twice;
* `World.Expects`, `Trail.manages` — one program among the others.
-/
import Actors.Proofs.Allocation
import Actors.Proofs.Registration
import Actors.Proofs.Stock

namespace Actors

variable {κ σ α : Type} {b : Behaviour κ σ}

open Procedure World List

/-! ### What programs are made of -/

/-- What a program is made of: everything but its model and the number of its updates. -/
def RunningProgram.fixed (d : RunningProgram κ) : RunningProgram κ :=
  { d with model := none, updates := 0 }

theorem RunningProgram.of_fixed {d d' : RunningProgram κ} (h : d.fixed = d'.fixed) :
    d.pid = d'.pid ∧ d.app = d'.app ∧ d.registry = d'.registry ∧ d.managers = d'.managers :=
  ⟨congrArg (fun x => x.pid) h, congrArg (fun x => x.app) h, congrArg (fun x => x.registry) h,
    congrArg (fun x => x.managers) h⟩

/-- The processes of a program's managers. -/
def RunningProgram.staff (d : RunningProgram κ) : List Pid :=
  d.managers.map Prod.snd

/-- What the programs are made of. -/
def World.founded (w : World κ σ) : List (RunningProgram κ) :=
  w.programs.map RunningProgram.fixed

theorem World.founded_of_stock {w w' : World κ σ} (h : w'.stock.programs = w.stock.programs) :
    w'.founded = w.founded :=
  congrArg (List.map RunningProgram.fixed) h

theorem World.founded_modifyProgram (w : World κ σ) (i : ProgramId)
    (f : RunningProgram κ → RunningProgram κ) (hf : ∀ d, (f d).fixed = d.fixed) :
    (w.modifyProgram i f).programs.map RunningProgram.fixed = w.founded := by
  unfold modifyProgram
  split
  · next d hd =>
    show (w.programs.set i (f d)).map RunningProgram.fixed = _
    rw [List.map_set, hf, founded]
    have hd : (w.programs.map RunningProgram.fixed)[i]? = some d.fixed := by
      rw [List.getElem?_map, hd]
      rfl
    obtain ⟨hi, he⟩ := List.getElem?_eq_some_iff.1 hd
    rw [← he, List.set_getElem_self]
  · rfl

/-- A directive founds a program, or leaves what the programs are made of. -/
theorem Directive.founded {w w' : World κ σ} {d : Directive κ σ} {k : d.Reply → Procedure κ σ α}
    {code : Procedure κ σ α} (h : d.step b w k = .next w' code) :
    (∃ x, d = .found x ∧ w'.founded = w.founded ++ [x.fixed]) ∨ w'.founded = w.founded := by
  have after : w'.programs = d.programsAfter w := congrArg Stock.programs (Directive.stock h)
  rw [World.founded, after]
  cases d with
  | found x => exact .inl ⟨x, rfl, by simp [programsAfter, World.founded]⟩
  | takeModel i => exact .inr (founded_modifyProgram w i _ fun _ => rfl)
  | putModel i v => exact .inr (founded_modifyProgram w i _ fun _ => rfl)
  | countUpdate i => exact .inr (founded_modifyProgram w i _ fun _ => rfl)
  | _ => exact .inr rfl

/-- A step founds a program, or leaves what the programs are made of. -/
theorem Machine.founded_cases (b : Behaviour κ σ) (m : Machine κ σ) :
    (∃ x, m.directive? = some (.found x) ∧ (m.step b).world.founded = m.world.founded ++ [x.fixed]) ∨
      (m.step b).world.founded = m.world.founded := by
  cases hd : m.directive? with
  | none => exact .inr (founded_of_stock ((Machine.transition b m).rests hd).programs)
  | some d =>
    obtain ⟨α, w, fr, k, s, rfl⟩ := Machine.eq_of_directive? hd
    rw [fr.step_op, stepCode]
    cases hs : d.step b w k with
    | next w' code =>
      rcases Directive.founded hs with ⟨x, rfl, more⟩ | same
      · exact .inl ⟨x, rfl, more⟩
      · exact .inr same
    | drive w' goal k' =>
      obtain ⟨e, rfl⟩ := Directive.eq_drive hs
      obtain ⟨rfl, -⟩ := Directive.of_drive hs
      exact .inr rfl
    | fault f => exact .inr rfl

theorem Machine.founded_of_directive? {m : Machine κ σ} {d : Directive κ σ} (top : m.directive? = some d)
    (other : ∀ x, d ≠ .found x) : (m.step b).world.founded = m.world.founded :=
  (founded_cases b m).resolve_left fun ⟨x, found, _⟩ => other x (Option.some.inj (top.symm.trans found))

theorem World.founded_of_found {w w' : World κ σ} {d : RunningProgram κ} {i : ProgramId}
    (h : Directive.step b w (.found d) Act.ret = .next w' (.ret i)) : w'.founded = w.founded ++ [d.fixed] := by
  rw [← (Progress.next.inj h).1, founded, founded]
  exact List.map_append

/-- What the programs are made of stays if a directive that would found one is broken off. -/
theorem Machine.founded_of_broken {m : Machine κ σ}
    (broken : ∀ x, m.directive? = some (.found x) → (m.step b).world = m.world) :
    (m.step b).world.founded = m.world.founded := by
  rcases founded_cases b m with ⟨x, top, -⟩ | same
  · rw [broken x top]
  · exact same

/-- What the programs are made of is only added to. -/
theorem Machine.founded_step (b : Behaviour κ σ) (m : Machine κ σ) :
    m.world.founded <+: (m.step b).world.founded := by
  rcases Machine.founded_cases b m with ⟨x, -, more⟩ | same
  · exact ⟨[x.fixed], more.symm⟩
  · exact same ▸ List.prefix_refl _

/-! ### Managers and their programs -/

/-- What is true of the managers of every program: they stand under the homes of the registry, and no
home is taken twice. -/
structure RunningProgram.Manned (d : RunningProgram κ) : Prop where
  homes : d.managers.map Prod.fst = d.registry.homes
  nodup : d.registry.homes.Nodup

/-- The managers' processes that code has started for a program which is not founded yet. -/
def staffAfter (s : List Pid) : (d : Directive κ σ) → d.Reply → List Pid
  | .install p (some _) (.andThen _ (.managerReady _)), _ => p :: s
  | .found d, _ => s.drop d.managers.length
  | _, _ => s

/-- Code starts the managers of a program, and then founds the program with them. -/
def Discipline.staffing : Discipline κ σ (List Pid) where
  idle := []
  enter _ _ _ := []
  launch _ _ := []
  may s
    | .found d => d.staff.reverse <+: s ∧ d.Manned
    | _ => True
  knows _ _ _ := True
  within s _ := s
  next := staffAfter
  gives s _ := s = []
  ends s := s = []

section

variable {s : List Pid}

theorem staffing_neutral {d : Directive κ σ} (h : d.establishes = false) : Discipline.staffing.Neutral s d := by
  cases d <;> first | exact ⟨trivial, fun _ _ => rfl⟩ | cases h

theorem staffing_spawnWith (c : κ) :
    (Procedure.spawnWith (σ := σ) c).Restores Discipline.staffing s :=
  restores_first ⟨trivial, fun _ _ => rfl⟩ fun _ _ =>
    restores_first ⟨trivial, fun _ _ => rfl⟩ fun _ _ =>
      restores_first ⟨trivial, fun _ _ => rfl⟩ fun _ _ =>
        restores_first ⟨trivial, fun _ _ => rfl⟩ fun _ _ =>
          restores_first ⟨trivial, fun _ _ => rfl⟩ fun _ _ => rfl

/-- Every manager gets a process of its own. -/
theorem staffing_startManagers (app : Pid) : ∀ (managers : List (Home × Hooks κ)) (s : List Pid),
    (Program.startManagers (σ := σ) app managers).Obeys Discipline.staffing
      (fun s' x => s' = (x.map Prod.snd).reverse ++ s ∧ x.map Prod.fst = managers.map Prod.fst) s
  | [], s => ⟨rfl, rfl⟩
  | (home, hooks) :: rest, s => by
    refine obeys_first trivial fun this _ => obeys_first trivial fun _ _ => obeys_first trivial fun t _ =>
      obeys_first trivial fun _ _ => ?_
    refine (staffing_startManagers app rest (this :: s)).bind fun s' others h => ?_
    obtain ⟨rfl, homes⟩ := h
    refine ⟨?_, congrArg (home :: ·) homes⟩
    rw [List.map_cons, List.reverse_cons, List.append_assoc]
    rfl

theorem staffing_start (c : κ) : (Program.start b c).Restores Discipline.staffing s := by
  refine Restores.bind ((Discipline.Steady.registration _ _).restores fun _ => staffing_neutral) fun r => ?_
  cases r with
  | error f => exact rfl
  | ok registry =>
    refine obeys_first trivial fun _ _ => obeys_first trivial fun pid _ =>
      obeys_first trivial fun _ _ => ?_
    refine (staffing_startManagers pid registry.entries s).bind fun s₁ managers h => ?_
    obtain ⟨rfl, homes⟩ := h
    refine obeys_first ⟨List.prefix_append _ _, homes, registry.homes_nodup⟩ fun i _ => ?_
    show Obeys Discipline.staffing _ (List.drop managers.length (_ ++ s)) _
    rw [List.drop_left' (by simp)]
    refine obeys_first trivial fun r _ => ?_
    refine Obeys.bind ((Discipline.Steady.cycle i _ r.1 r.2).restores fun _ => staffing_neutral) fun s₁ _ hs => ?_
    subst hs
    exact restores_first ⟨trivial, fun _ _ => rfl⟩ fun _ _ =>
      restores_first ⟨trivial, fun _ _ => rfl⟩ fun _ _ =>
        restores_first ⟨trivial, fun _ _ => rfl⟩ fun _ _ =>
          restores_first ⟨trivial, fun _ _ => rfl⟩ fun _ _ =>
            restores_first ⟨trivial, fun _ _ => rfl⟩ fun _ _ => rfl

end

theorem staffing_steady : (Discipline.staffing (κ := κ) (σ := σ)).Steady b where
  idle := rfl
  enter _ _ _ := rfl
  launch _ _ := rfl
  within _ _ := rfl
  gives _ _ := Iff.rfl
  ends _ := Iff.rfl
  neutral _ _ := staffing_neutral
  returns _ _ _ _ := trivial
  knows _ _ _ _ := trivial
  spawnWith _ := staffing_spawnWith
  start _ := staffing_start

/-! ### No process is a manager twice -/

theorem Deed.Leads.isSome {d : Deed κ} {o o' : Option (Proc κ)} (h : d.Leads o o')
    (there : o.isSome = true) : o'.isSome = true := by
  cases h <;> first | rfl | exact there

theorem Life.isSome {o o' : Option (Proc κ)} {ds : Deeds κ} (l : Life o ds o')
    (there : o.isSome = true) : o'.isSome = true := by
  induction l with
  | refl => exact there
  | snoc l hd ih => exact hd.isSome ih

/-- A process that has been started stays in the table, dead or alive. -/
theorem Machine.isSome_step {m : Machine κ σ} (sound : m.Sound) {p : Pid}
    (there : (m.world.procs.get? p).isSome = true) :
    ((m.step b).world.procs.get? p).isSome = true := by
  have life := ((Machine.transition b m).life sound p).isSome
  rw [World.bare, World.bare, Option.isSome_map, Option.isSome_map] at life
  exact life there

theorem World.isSome_of_install {w w' : World κ σ} {p : Pid} {label : Option String} {t : Task κ}
    (h : w.install p label t = .ok w') (free : w.procs.isFree p = true) :
    (w'.procs.get? p).isSome = true := by
  have life := (operation_install h).life p
  rw [if_pos free, Record.of_singleton, if_pos rfl, World.bare, (ProcTable.isFree_iff.1 free).2] at life
  have leads := life.leads
  generalize ho : w'.bare p = o at leads
  cases leads
  rw [← Option.isSome_map (f := Proc.bare), show (w'.procs.get? p).map Proc.bare = _ from ho]
  rfl

/-- The processes of the managers of all programs. -/
def World.staff (w : World κ σ) : List Pid :=
  w.founded.flatMap RunningProgram.staff

/-- The managers that code has started for programs to come, and those of all programs, are processes,
and none of them is a manager twice. -/
structure World.Staffed (w : World κ σ) (L : List (List Pid)) : Prop where
  nodup : (L.flatten ++ w.staff).Nodup
  there : ∀ p ∈ L.flatten ++ w.staff, (w.procs.get? p).isSome = true
  manned : ∀ d ∈ w.founded, d.Manned

namespace World.Staffed

variable {w : World κ σ} {L L' : List (List Pid)} {m : Machine κ σ}

/-- A step that founds no program keeps what is known of managers. -/
theorem keeps (h : m.world.Staffed L) (sound : m.Sound) (same : (m.step b).world.founded = m.world.founded)
    (flat : L'.flatten = L.flatten) : (m.step b).world.Staffed L' := by
  have staff : (m.step b).world.staff = m.world.staff := by rw [staff, staff, same]
  refine ⟨?_, fun p hp => Machine.isSome_step sound (h.there p ?_), same ▸ h.manned⟩
  · rw [flat, staff]
    exact h.nodup
  · rwa [← flat, ← staff]

/-- Every step keeps the managers apart. -/
theorem goes (h : m.world.Staffed L) (sound : m.Sound)
    (free : ∀ p label t, m.directive? = some (.install p label t) → m.world.procs.isFree p = true)
    (goes : Discipline.staffing.Goes b m (m.step b) L L') : (m.step b).world.Staffed L' := by
  rcases staffing_steady.goes goes with ⟨flat, broken⟩ | ⟨s, T, d, r, rfl, rfl, top, establishes, may, -, hd⟩
  · exact h.keeps sound (Machine.founded_of_broken fun x top => (broken _ top rfl).1) flat
  have same : (∀ x, d ≠ .found x) → (m.step b).world.founded = m.world.founded := Machine.founded_of_directive? top
  cases d with
  | reserve => exact h.keeps sound (same nofun) rfl
  | found x =>
    -- The managers of the new program are those that the code has started.
    obtain ⟨⟨rest, rfl⟩, manned⟩ := may
    have more : (m.step b).world.founded = m.world.founded ++ [x.fixed] := founded_of_found hd
    have left : Discipline.staffing.next (x.staff.reverse ++ rest) (.found x) r = rest :=
      List.drop_left' (by simp [RunningProgram.staff])
    have perm : (rest :: T).flatten ++ (m.step b).world.staff ~
        ((x.staff.reverse ++ rest) :: T).flatten ++ m.world.staff := by
      rw [staff, more, flatMap_append, flatMap_singleton, ← append_assoc, flatten_cons,
        flatten_cons, append_assoc x.staff.reverse, append_assoc x.staff.reverse]
      exact perm_append_comm.trans ((reverse_perm x.staff).symm.append_right _)
    rw [left]
    refine ⟨perm.nodup_iff.2 h.nodup, fun p hp => ?_, ?_⟩
    · exact Machine.isSome_step sound (h.there p (perm.mem_iff.1 hp))
    · rw [more]
      exact List.forall_mem_append.2 ⟨h.manned, List.forall_mem_singleton.2 ⟨manned.homes, manned.nodup⟩⟩
  | install p label t =>
    have base := h.keeps sound (same nofun) rfl
    by_cases hi : ∃ l t' m₀, label = some l ∧ t = .andThen t' (.managerReady m₀)
    · -- The new process has a name that was free, so it is none of the others.
      obtain ⟨l, t', m₀, rfl, rfl⟩ := hi
      have free := ProcTable.isFree_iff.1 (free _ _ _ top)
      have new : p ∉ (s :: T).flatten ++ (m.step b).world.staff := by
        intro hp
        have there := h.there p (by rwa [staff, ← same nofun])
        rw [free.2] at there
        cases there
      have started : ((m.step b).world.procs.get? p).isSome = true :=
        isSome_of_install (Progress.ofExcept_eq_next hd) (ProcTable.isFree_iff.2 free)
      refine ⟨List.nodup_cons.2 ⟨new, base.nodup⟩, fun q hq => ?_, base.manned⟩
      rcases List.mem_cons.1 hq with rfl | hq
      · exact started
      · exact base.there q hq
    · have left : Discipline.staffing.next s (.install p label t : Directive κ σ) r = s := by
        show staffAfter s (.install p label t : Directive κ σ) r = s
        unfold staffAfter
        split
        · next eq =>
          obtain ⟨-, rfl, rfl⟩ := Directive.install.inj eq
          exact absurd ⟨_, _, _, rfl, rfl⟩ hi
        · next eq _ => cases eq
        · rfl
      rw [left]
      exact base
  | _ => cases establishes

end World.Staffed

/-- Throughout a run no process is a manager twice, in one program or in two of them. -/
theorem Trail.staffed {m : Machine κ σ} {ms : List (Machine κ σ)} (h : Trail b m ms) :
    ∃ L, m.Keeps Discipline.staffing b L ∧ m.world.Staffed L := by
  induction h with
  | new config user code =>
    exact ⟨_, Machine.keeps_load staffing_steady.lawful _ code, List.nodup_nil, nofun, nofun⟩
  | load code _ hs hf ih =>
    obtain ⟨L, keeps, staffed⟩ := ih
    obtain rfl := keeps.eq_nil hs hf
    exact ⟨_, Machine.keeps_load staffing_steady.lawful _ code, staffed.nodup, staffed.there, staffed.manned⟩
  | @step m ms h ih =>
    obtain ⟨L, keeps, staffed⟩ := ih
    obtain ⟨L', keeps', goes⟩ := keeps.transition staffing_steady.lawful (Machine.transition b m)
      fun _ _ _ _ _ _ _ _ _ _ _ => trivial
    exact ⟨L', keeps', staffed.goes h.reachable.sound (fun _ _ _ hd => h.free_of_install hd) goes⟩

/-! ### A program among the others -/

/-- A program is the one at a position, or will be: whatever stands at this position is made as it is,
and what stands elsewhere shares no manager with it. -/
def World.Expects (w : World κ σ) (i : ProgramId) (D : RunningProgram κ) : Prop :=
  ∀ j d, w.founded[j]? = some d →
    (j = i → d = D.fixed) ∧ (j ≠ i → ∀ p ∈ d.staff, p ∉ D.staff)

namespace World

variable {w w' : World κ σ} {i : ProgramId} {D : RunningProgram κ}

theorem founded_getElem? {j : ProgramId} {d : RunningProgram κ} (h : w.programs[j]? = some d) :
    w.founded[j]? = some d.fixed := by
  rw [founded, List.getElem?_map, h]
  rfl

/-- What is to come has to go with what is there. -/
theorem Expects.of_prefix (h : w'.Expects i D) (more : w.founded <+: w'.founded) :
    w.Expects i D := by
  obtain ⟨rest, hr⟩ := more
  intro j d hd
  refine h j d ?_
  rw [← hr, List.getElem?_append_left (List.getElem?_eq_some_iff.1 hd).1, hd]

theorem Expects.running (h : w.Expects i D) {j : ProgramId} {d : RunningProgram κ}
    (hd : w.programs[j]? = some d) :
    (j = i → d.fixed = D.fixed) ∧ (j ≠ i → ∀ p ∈ d.staff, p ∉ D.staff) :=
  h j d.fixed (founded_getElem? hd)

/-- The programs of a runtime share no managers. -/
theorem Staffed.expects {L : List (List Pid)} (h : w.Staffed L) (hD : w.programs[i]? = some D) :
    w.Expects i D := by
  have nodup : (w.founded.flatMap RunningProgram.staff).Nodup := (List.nodup_append.1 h.nodup).2.1
  obtain ⟨-, apart⟩ := List.nodup_flatMap.1 nodup
  obtain ⟨hi, hD⟩ := List.getElem?_eq_some_iff.1 (founded_getElem? hD)
  intro j d hd
  obtain ⟨hj, hd⟩ := List.getElem?_eq_some_iff.1 hd
  refine ⟨fun same => ?_, fun other p hp hp' => ?_⟩
  · subst same
    exact hd.symm.trans hD
  · have disjoint : List.Disjoint d.staff D.staff := by
      have pairs := List.pairwise_iff_getElem.1 apart
      rcases Nat.lt_or_gt_of_ne other with less | more
      · have := pairs j i hj hi less
        rw [hd, hD] at this
        exact this
      · have := pairs i j hi hj more
        rw [hd, hD] at this
        exact fun q hq hq' => this hq' hq
    exact disjoint hp hp'

end World

/-- What is known of a program's managers: they stand under the homes of its registry, they are
processes, and they are its own. -/
structure World.Manages (w : World κ σ) (i : ProgramId) (D : RunningProgram κ) : Prop where
  manned : D.Manned
  nodup : D.staff.Nodup
  there : ∀ p ∈ D.staff, (w.procs.get? p).isSome = true
  expects : w.Expects i D

theorem Trail.manages {m : Machine κ σ} {ms : List (Machine κ σ)} (h : Trail b m ms) {i : ProgramId}
    {D : RunningProgram κ} (hD : m.world.programs[i]? = some D) : m.world.Manages i D := by
  obtain ⟨L, -, staffed⟩ := h.staffed
  have mem : D.fixed ∈ m.world.founded := List.mem_of_getElem? (founded_getElem? hD)
  have nodup : m.world.staff.Nodup := (List.nodup_append.1 staffed.nodup).2.1
  have once : D.fixed.staff.Nodup := (List.nodup_flatMap.1 nodup).1 _ mem
  refine ⟨?_, once, fun p hp => ?_, staffed.expects hD⟩
  · obtain ⟨homes, distinct⟩ := staffed.manned _ mem
    exact ⟨homes, distinct⟩
  · exact staffed.there p (List.mem_append_right _ (List.mem_flatMap.2 ⟨_, mem, hp⟩))

end Actors
