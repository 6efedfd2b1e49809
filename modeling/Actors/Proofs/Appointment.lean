/-
The managers of a program at work.

When a program is founded, each of its managers has a process that has been started with the manager's own
task, for this manager and with the addresses of this program. So what the processes of a program's managers
do is told by the program's registry.

* `RunningProgram.appointed` — the managers of a program, with their addresses;
* `Discipline.appointing` — code starts a manager's process with the task of this manager;
* `Trail.appointed` — how the managers of a program have been started.
-/
import Actors.Proofs.Cancellation
import Actors.Proofs.Founding
import Actors.Proofs.Steadiness

namespace Actors

variable {κ σ : Type} {b : Behaviour κ σ}

open Procedure World

/-- The managers under an address for the messages of a program, with their processes. -/
def appoint (app : Pid) (entries : List (Home × Hooks κ)) (managers : List (Home × Pid)) : List (Post κ) :=
  List.zipWith (fun e x => ⟨e.2, ⟨app, x.2⟩⟩) entries managers

/-- The managers of a program. -/
def RunningProgram.appointed (d : RunningProgram κ) : List (Post κ) :=
  appoint d.pid d.registry.entries d.managers

/-- The manager that is found under a home has a process. -/
theorem RunningProgram.Manned.appoints {d : RunningProgram κ} (h : d.Manned) {home : Home} {hooks : Hooks κ}
    (find : d.registry.find? home = some hooks) :
    ∃ p, (home, p) ∈ d.managers ∧ ⟨hooks, ⟨d.pid, p⟩⟩ ∈ d.appointed := by
  rw [Registry.find?_eq] at find
  obtain ⟨e, he, rfl⟩ := Option.map_eq_some_iff.1 find
  have same : e.1 = home := by simpa using List.find?_some he
  obtain ⟨k, hk⟩ := List.mem_iff_getElem?.1 (List.mem_of_find?_eq_some he)
  have there : (d.managers.map Prod.fst)[k]? = some home := by
    rw [h.homes, Registry.homes, List.getElem?_map, hk, ← same]
    rfl
  obtain ⟨⟨home', p⟩, hp, rfl⟩ := Option.map_eq_some_iff.1 (List.getElem?_map.symm.trans there)
  refine ⟨p, List.mem_of_getElem? hp, List.mem_of_getElem? (i := k) ?_⟩
  rw [RunningProgram.appointed, appoint, List.getElem?_zipWith, hk, hp]

/-! ### What code starts -/

/-- The managers whose processes code has started for a program that is not founded yet. -/
def appointedAfter (s : List (Post κ)) : (d : Directive κ σ) → d.Reply → List (Post κ)
  | .install _ (some _) (.andThen _ (.managerReady o)), _ => o :: s
  | .found d, _ => s.drop d.appointed.length
  | _, _ => s

/-- Code starts the process of a manager with what the manager's own start returns, and it founds a program
with the managers that it has started for it. -/
def Discipline.appointing (b : Behaviour κ σ) : Discipline κ σ (List (Post κ)) where
  idle := []
  enter _ _ _ := []
  launch _ _ := []
  may s
    | .install p (some _) (.andThen t (.managerReady o)) =>
      o.router.this = p ∧ (b.code (.managerInit o)).Returns t
    | .found d => d.appointed.reverse <+: s
    | _ => True
  knows
    | _, .invoke c, r => (b.code c).Returns r
    | _, _, _ => True
  within s _ := s
  next := appointedAfter
  gives s _ := s = []
  ends s := s = []

section

variable {s : List (Post κ)}

theorem appointing_neutral {d : Directive κ σ} (h : d.establishes = false) :
    (Discipline.appointing b).Neutral s d := by
  cases d with
  | reserve => cases h
  | install => cases h
  | found => cases h
  | _ => exact ⟨trivial, fun _ _ => rfl⟩

theorem appointing_spawnWith (c : κ) : (Procedure.spawnWith c).Restores (Discipline.appointing b) s :=
  obeys_first trivial fun _ _ => obeys_first trivial fun _ _ => obeys_first trivial fun _ _ =>
    obeys_first trivial fun _ _ => obeys_first trivial fun _ _ => rfl

/-- The process of every manager is started. -/
theorem appointing_startManagers (app : Pid) : ∀ (managers : List (Home × Hooks κ)) (s : List (Post κ)),
    (Program.startManagers app managers).Obeys (Discipline.appointing b)
      (fun s' x => s' = (appoint app managers x).reverse ++ s) s
  | [], s => rfl
  | (home, hooks) :: rest, s => by
    refine obeys_first trivial fun this _ => obeys_first trivial fun _ _ => obeys_first trivial fun t returns => ?_
    refine obeys_first ⟨rfl, returns⟩ fun _ _ => ?_
    refine (appointing_startManagers app rest (⟨hooks, ⟨app, this⟩⟩ :: s)).bind fun s' others h => ?_
    show s' = (⟨hooks, ⟨app, this⟩⟩ :: appoint app rest others).reverse ++ s
    rw [h, List.reverse_cons, List.append_assoc]
    rfl

theorem appointing_start (c : κ) : (Program.start b c).Restores (Discipline.appointing b) s := by
  refine Restores.bind ((Discipline.Steady.registration _ _).restores fun _ => appointing_neutral) fun r => ?_
  cases r with
  | error f => exact rfl
  | ok registry =>
    refine obeys_first trivial fun _ _ => obeys_first trivial fun pid _ => obeys_first trivial fun _ _ => ?_
    refine (appointing_startManagers pid registry.entries s).bind fun s₁ managers h => ?_
    subst h
    refine obeys_first (List.prefix_append _ _) fun i _ => ?_
    show Obeys (Discipline.appointing b) _ (List.drop (appoint pid registry.entries managers).length (_ ++ s)) _
    rw [List.drop_left' List.length_reverse]
    refine obeys_first trivial fun r _ => ?_
    refine Restores.bind ?_ fun _ => ?_
    · exact (Discipline.Steady.cycle i _ r.1 r.2).restores fun _ => appointing_neutral
    · exact obeys_first trivial fun _ _ => obeys_first trivial fun _ _ => obeys_first trivial fun _ _ =>
        obeys_first trivial fun _ _ => obeys_first trivial fun _ _ => rfl

end

theorem appointing_steady : (Discipline.appointing (σ := σ) b).Steady b where
  idle := rfl
  enter _ _ _ := rfl
  launch _ _ := rfl
  within _ _ := rfl
  gives _ _ := Iff.rfl
  ends _ := Iff.rfl
  neutral _ _ := appointing_neutral
  returns _ _ _ h := h
  knows s d r other := by
    cases d with
    | invoke c => exact absurd rfl (other c)
    | _ => trivial
  spawnWith _ := appointing_spawnWith
  start _ := appointing_start

/-- Code has started a manager when it has installed its process. -/
theorem appointing_next {s : List (Post κ)} {d : Directive κ σ} {r : d.Reply}
    (may : (Discipline.appointing b).may s d) {o : Post κ} (ho : o ∈ (Discipline.appointing b).next s d r) :
    o ∈ s ∨ ∃ p label t, d = .install p label (.andThen t (.managerReady o)) ∧
      o.router.this = p ∧ (b.code (.managerInit o)).Returns t := by
  change o ∈ appointedAfter s d r at ho
  unfold appointedAfter at ho
  split at ho
  · next p label t o' r =>
    rcases List.mem_cons.1 ho with rfl | ho
    · exact .inr ⟨p, some label, t, rfl, may⟩
    · exact .inl ho
  · exact .inl (List.mem_of_mem_drop ho)
  · exact .inl ho

/-- A call that is answered at once is answered with what it may return. -/
theorem appointing_knows {s : List (Post κ)} {w w' : World κ σ} {d : Directive κ σ} {r : d.Reply}
    (hd : d.step b w Act.ret = .next w' (.ret r)) : (Discipline.appointing b).knows s d r := by
  cases d with
  | invoke c =>
    have code : Procedure.ofCode (b.code c) = .ret r := (Act.bind_ret _).symm.trans (Progress.next.inj hd).2
    have brings : (Procedure.ofCode (b.code c)).Brings b r := by
      rw [code]
      exact .ret r
    exact brings.returns
  | _ => trivial

/-! ### Runs -/

/-- A manager has been started: its process began with a task that the manager's own start returned. -/
def Post.Began (b : Behaviour κ σ) (ms : List (Machine κ σ)) (o : Post κ) : Prop :=
  ∃ t, (b.code (.managerInit o)).Returns t ∧
    .spawned (.andThen t (.managerReady o)) ∈ Record.of (ms.flatMap Machine.record) o.router.this

theorem Post.Began.later {ms : List (Machine κ σ)} {o : Post κ} (h : o.Began b ms) (m : Machine κ σ) :
    o.Began b (ms ++ [m]) := by
  obtain ⟨t, returns, spawned⟩ := h
  refine ⟨t, returns, ?_⟩
  rw [List.flatMap_append, Record.of_append]
  exact List.mem_append_left _ spawned

/-- A manager is started when its process is installed under a free name. -/
theorem Post.Began.of_install {m : Machine κ σ} {ms : List (Machine κ σ)} {o : Post κ} {p : Pid}
    {label : Option String} {t : Task κ}
    (top : m.directive? = some (.install p label (.andThen t (.managerReady o))))
    (free : m.world.procs.isFree p = true) (this : o.router.this = p) (returns : (b.code (.managerInit o)).Returns t) :
    o.Began b (ms ++ [m]) := by
  refine ⟨t, returns, ?_⟩
  rw [List.flatMap_append, Record.of_append, List.flatMap_singleton, Machine.record_of_directive? top,
    Directive.record, if_pos free, Record.of_singleton, if_pos this.symm]
  exact List.mem_append_right _ List.mem_cons_self

/-- All managers that code has started, for programs that are founded and for those to come, have been started
as such. -/
theorem Trail.began {m : Machine κ σ} {ms : List (Machine κ σ)} (h : Trail b m ms) :
    ∃ L, m.Keeps (Discipline.appointing b) b L ∧ (∀ o ∈ L.flatten, o.Began b ms) ∧
      ∀ d ∈ m.world.founded, ∀ o ∈ d.appointed, o.Began b ms := by
  induction h with
  | new config user code =>
    exact ⟨_, Machine.keeps_load appointing_steady.lawful _ code, (fun o ho => by cases ho), fun d hd => by cases hd⟩
  | load code _ hs hf ih =>
    obtain ⟨L, -, -, founded⟩ := ih
    exact ⟨_, Machine.keeps_load appointing_steady.lawful _ code, (fun o ho => by cases ho), founded⟩
  | @step m ms h ih =>
    obtain ⟨L, keeps, owed, founded⟩ := ih
    obtain ⟨L', keeps', goes⟩ := keeps.transition appointing_steady.lawful (Machine.transition b m)
      fun _ _ _ _ _ _ _ _ _ _ hd => appointing_knows hd
    -- A program that is founded takes over what the code on top owes, which has been started as
    -- the invariant says.
    have found : ∀ x, m.directive? = some (.found x) → ∀ o ∈ x.appointed, o.Began b (ms ++ [m]) := by
      intro x top o ho
      obtain ⟨s, T, s', rfl, settled, may⟩ := keeps.may top
      obtain rfl := appointing_steady.settled settled
      exact (owed o (List.mem_append_left _ (may.subset (List.mem_reverse.2 ho)))).later m
    refine ⟨L', keeps', fun o ho => ?_, fun d hd => ?_⟩
    · rcases appointing_steady.goes goes with ⟨same, -⟩ | ⟨s, T, d, r, rfl, rfl, top, establishes, may, -, -⟩
      · exact (owed o (same ▸ ho)).later m
      · rcases List.mem_append.1 ho with ho | ho
        · rcases appointing_next may ho with before | ⟨p, label, t, rfl, this, returns⟩
          · exact (owed o (List.mem_append_left _ before)).later m
          · exact .of_install top (h.free_of_install top) this returns
        · exact (owed o (List.mem_append_right _ ho)).later m
    · rcases Machine.founded_cases b m with ⟨x, top, more⟩ | same
      · rcases List.mem_append.1 (more ▸ hd) with hd | hd
        · exact fun o ho => (founded d hd o ho).later m
        · obtain rfl := List.mem_singleton.1 hd
          exact found x top
      · exact fun o ho => (founded d (same ▸ hd) o ho).later m

/-- The managers of a program have been started as such. -/
theorem Trail.appointed {m : Machine κ σ} {ms : List (Machine κ σ)} (h : Trail b m ms) {i : ProgramId}
    {D : RunningProgram κ} (hD : m.world.programs[i]? = some D) : ∀ o ∈ D.appointed, o.Began b ms := by
  obtain ⟨L, -, -, founded⟩ := h.began
  exact founded D.fixed (List.mem_of_getElem? (founded_getElem? hD))

end Actors
