/-
The managers that are started for a program.

The name of a program is reserved before its managers are started, and they are started with it, one after
another. Then the program is founded with them. Nobody else has this name, and once the program is founded no
manager is started with it any more. So the managers that have ever been started for a program are those that
it has been founded with: one for each home of its registry, and no others.

* `enrolled` — the managers that a run has started for a program;
* `Roster`, `Discipline.enrolling` — what code that holds the name of a program has started with it;
* `Trail.enrolled` — these are the managers of the program, and what its registry is;
* `Registry.consistent` — a registry after any calls, and the managers of a program that has it.
-/
import Actors.Proofs.Appointment
import Actors.Proofs.Counting
import Actors.Proofs.Registration

namespace Actors

variable {κ σ α : Type} {b : Behaviour κ σ} {p : Pid}

open Procedure World

/-! ### Managers that are started -/

/-- The manager whose process a directive starts. -/
def Directive.post? : Directive κ σ → Option (Post κ)
  | .install _ (some _) (.andThen _ (.managerReady o)) => some o
  | _ => none

/-- The manager that the next step of a machine starts for the program with a certain name. -/
def Machine.enrols (p : Pid) (m : Machine κ σ) : Option (Post κ) :=
  (m.directive?.bind Directive.post?).filter fun o => o.router.app = p

/-- The managers that a run has started for the program with a certain name. -/
def enrolled (p : Pid) (ms : List (Machine κ σ)) : List (Post κ) :=
  ms.filterMap (Machine.enrols p)

theorem enrolled_snoc (p : Pid) (ms : List (Machine κ σ)) (m : Machine κ σ) :
    enrolled p (ms ++ [m]) = enrolled p ms ++ (m.enrols p).toList := by
  rw [enrolled, List.filterMap_append]
  cases h : m.enrols p with
  | none => rw [List.filterMap_cons_none h]; rfl
  | some o => rw [List.filterMap_cons_some h]; rfl

theorem Machine.enrols_of_directive? {m : Machine κ σ} {d : Directive κ σ} (h : m.directive? = some d) :
    m.enrols p = d.post?.filter fun o => o.router.app = p := by
  rw [enrols, h, Option.bind_some]

/-- A manager is started by installing its process. -/
theorem Machine.installs_of_enrols {m : Machine κ σ} {o : Post κ} (h : m.enrols p = some o) :
    ∃ q label t, m.directive? = some (.install q label t) := by
  obtain ⟨d, top, post⟩ := Option.bind_eq_some_iff.1 (Option.filter_eq_some_iff.1 h).1
  unfold Directive.post? at post
  split at post
  · exact ⟨_, _, _, top⟩
  · cases post

/-! ### What code has started with a name -/

/-- What has been done with the name of a program: managers have been started with it, or the program has been
founded. -/
inductive Roster (κ : Type) where
  | growing (posts : List (Post κ))
  | closed

/-- A name is reserved. -/
def Roster.begin (s : List (Roster κ)) : List (Roster κ) :=
  .growing [] :: s

/-- A program is founded with the latest name. -/
def Roster.close (s : List (Roster κ)) : List (Roster κ) :=
  .closed :: s.tail

/-- Managers are started with the latest name, for a program that is not founded yet. -/
def Roster.grow (os : List (Post κ)) : List (Roster κ) → List (Roster κ)
  | .growing before :: s => .growing (before ++ os) :: s
  | s => s

/-- A change that is made for the name `p` only. -/
def toward (p q : Pid) (f : List (Roster κ) → List (Roster κ)) (s : List (Roster κ)) : List (Roster κ) :=
  if q = p then f s else s

/-- The rosters of the name `p` when a manager may have been started. -/
def Roster.joined (p : Pid) : Option (Post κ) → List (Roster κ) → List (Roster κ)
  | some o, s => toward p o.router.app (grow [o]) s
  | none, s => s

/-- The rosters of the name `p` after a reply. -/
def rosterAfter (p : Pid) (s : List (Roster κ)) : (d : Directive κ σ) → d.Reply → List (Roster κ)
  | .reserve, q => toward p q Roster.begin s
  | .install q label t, _ =>
    Roster.joined p (Directive.install q label t : Directive κ σ).post? (toward p q List.tail s)
  | .found d, _ => toward p d.pid Roster.close s
  | _, _ => s

/-- Code starts managers with a name that it holds and for which no program has been founded. It founds a program
with all of them, and with the registry of the application. -/
def Discipline.enrolling (b : Behaviour κ σ) (p : Pid) : Discipline κ σ (List (Roster κ)) where
  idle := []
  enter _ _ _ := []
  launch _ _ := []
  may s
    | .install q label t =>
      (q = p → s ≠ []) ∧ ∀ o, (Directive.install q label t : Directive κ σ).post? = some o → o.router.app = p →
        ∃ os u, toward p q List.tail s = .growing os :: u
    | .found d =>
      d.registry = Registry.empty.after (b.application d.app).managers ∧
        d.registry.entries = (b.application d.app).managers ∧
        (d.pid = p → ∃ u, s = .growing d.appointed :: u)
    | _ => True
  knows _ _ _ := True
  within s _ := s
  next := rosterAfter p
  gives s _ := s = []
  ends s := s = []

section

variable {s : List (Roster κ)} {q : Pid} {f g : List (Roster κ) → List (Roster κ)}

theorem toward_self (h : q = p) : toward p q f s = f s :=
  if_pos h

theorem toward_other (h : q ≠ p) : toward p q f s = s :=
  if_neg h

/-- Changes for one name, one after another. -/
theorem toward_toward : toward p q g (toward p q f s) = toward p q (g ∘ f) s := by
  unfold toward
  split <;> rfl

theorem toward_of_id (h : ∀ s, f s = s) : toward p q f s = s := by
  unfold toward
  split
  · exact h s
  · rfl

theorem Roster.grow_nil : Roster.grow [] s = s := by
  rcases s with _ | ⟨⟨before⟩ | _, u⟩
  · rfl
  · exact congrArg (Roster.growing · :: u) (List.append_nil before)
  · rfl

theorem Roster.grow_grow (os os' : List (Post κ)) : grow os' (grow os s) = grow (os ++ os') s := by
  rcases s with _ | ⟨⟨before⟩ | _, u⟩
  · rfl
  · exact congrArg (Roster.growing · :: u) (List.append_assoc before os os')
  · rfl

theorem Roster.length_grow (os : List (Post κ)) : (grow os s).length = s.length := by
  rcases s with _ | ⟨⟨before⟩ | _, u⟩ <;> rfl

/-- With a name code gives away all that it has done with it. -/
theorem toward_used (h : ∀ s, (f s).tail = s) : toward p q List.tail (toward p q f s) = s :=
  toward_toward.trans (toward_of_id h)

theorem Roster.length_joined (o : Option (Post κ)) : (joined p o s).length = s.length := by
  cases o with
  | none => rfl
  | some o =>
    show (toward p o.router.app (grow [o]) s).length = _
    unfold toward
    split
    · exact length_grow [o]
    · rfl

theorem toward_tail_begun : toward p q List.tail (toward p q Roster.begin s) = s :=
  toward_used fun _ => rfl

theorem enrolling_neutral {d : Directive κ σ} (h : d.establishes = false) :
    (Discipline.enrolling b p).Neutral s d := by
  cases d <;> first | exact ⟨trivial, fun _ _ => rfl⟩ | cases h

/-- A name is reserved, and what follows. -/
theorem enrolling_reserve {Q : List (Roster κ) → α → Prop} {x : Pid → Procedure κ σ α}
    (h : ∀ q, (x q).Obeys (Discipline.enrolling b p) Q (toward p q Roster.begin s)) :
    Obeys (Discipline.enrolling b p) Q s ((direct .reserve).bind x) :=
  obeys_first trivial fun q _ => h q

/-- A process that is no manager is started under a name that the code holds. -/
theorem enrolling_install {Q : List (Roster κ) → α → Prop} {label : Option String} {t : Task κ}
    {x : Unit → Procedure κ σ α} (held : q = p → s ≠ [])
    (plain : (Directive.install q label t : Directive κ σ).post? = none)
    (h : (x ()).Obeys (Discipline.enrolling b p) Q (toward p q List.tail s)) :
    Obeys (Discipline.enrolling b p) Q s ((direct (.install q label t)).bind x) := by
  refine obeys_first ⟨held, fun o ho => ?_⟩ fun _ _ => ?_
  · rw [plain] at ho
    cases ho
  · show (x ()).Obeys (Discipline.enrolling b p) Q (Roster.joined p
      (Directive.install q label t : Directive κ σ).post? (toward p q List.tail s))
    rw [plain]
    exact h

/-- A name that has been reserved is held. -/
theorem begun_ne_nil (h : q = p) : toward p q Roster.begin s ≠ [] := by
  rw [toward_self h]
  exact List.cons_ne_nil _ _

theorem enrolling_spawnWith (c : κ) :
    (Procedure.spawnWith (σ := σ) c).Restores (Discipline.enrolling b p) s := by
  refine restores_first (enrolling_neutral rfl) fun _ _ => enrolling_reserve fun q => ?_
  refine obeys_neutral (enrolling_neutral rfl) fun t _ => ?_
  refine enrolling_install begun_ne_nil rfl ?_
  rw [toward_tail_begun]
  exact restores_first (enrolling_neutral rfl) fun _ _ => rfl

/-- Managers are started with a name that the code holds. -/
theorem enrolling_startManagers (app : Pid) : ∀ (managers : List (Home × Hooks κ)) (s : List (Roster κ)),
    (app = p → ∃ os u, s = .growing os :: u) →
      (Program.startManagers (σ := σ) app managers).Obeys (Discipline.enrolling b p)
        (fun s' x => s' = toward p app (Roster.grow (appoint app managers x)) s) s
  | [], s, _ => (toward_of_id fun _ => Roster.grow_nil).symm
  | (home, hooks) :: rest, s, held => by
    refine enrolling_reserve fun this => obeys_neutral (enrolling_neutral rfl) fun _ _ => ?_
    refine obeys_neutral (enrolling_neutral rfl) fun t _ => ?_
    refine obeys_first ⟨begun_ne_nil, fun o ho hp => ?_⟩ fun _ _ => ?_
    · obtain rfl := Option.some.inj ho
      rw [toward_tail_begun]
      exact held hp
    -- The name of the process itself is used up at once, so the manager is all that has been added.
    show Obeys (Discipline.enrolling b p) _ (toward p app (Roster.grow [⟨hooks, ⟨app, this⟩⟩])
      (toward p this List.tail (toward p this Roster.begin s))) _
    rw [toward_tail_begun]
    refine (enrolling_startManagers app rest _ fun hp => ?_).bind fun s' others h => ?_
    · obtain ⟨os, u, rfl⟩ := held hp
      exact ⟨_, u, toward_self hp⟩
    · show s' = _
      rw [h, toward_toward]
      exact congrArg (toward p app · s) (funext fun _ => Roster.grow_grow _ _)

theorem enrolling_start (c : κ) : (Program.start b c).Restores (Discipline.enrolling b p) s := by
  refine (Program.obeys_register (fun _ _ => enrolling_neutral rfl) _ .empty).bind fun s' r h => ?_
  obtain ⟨rfl, registered⟩ := h
  cases r with
  | error f => exact rfl
  | ok registry =>
    obtain ⟨after, entries⟩ := registered registry rfl
    -- The managers are started in the order of the registry, so those that have joined when the
    -- program is founded are its managers.
    refine restores_first (enrolling_neutral rfl) fun _ _ => enrolling_reserve fun pid => ?_
    refine obeys_neutral (enrolling_neutral rfl) fun _ _ => ?_
    refine (enrolling_startManagers pid registry.entries _ fun hp => ⟨[], s', toward_self hp⟩).bind
      fun s₁ managers h => ?_
    rw [toward_toward] at h
    subst h
    refine obeys_first ⟨after, entries, fun hp => ⟨s', toward_self hp⟩⟩ fun i _ => ?_
    refine obeys_neutral (enrolling_neutral rfl) fun r _ => ?_
    refine Obeys.bind ((Discipline.Steady.cycle i _ r.1 r.2).restores fun _ => enrolling_neutral) fun s₂ _ h => ?_
    subst h
    show Obeys (Discipline.enrolling b p) _ (toward p pid Roster.close _) _
    rw [toward_toward]
    refine enrolling_install (fun hp => ?_) rfl ?_
    · rw [toward_self hp]
      exact List.cons_ne_nil _ _
    rw [toward_used fun _ => rfl]
    exact restores_first (enrolling_neutral rfl) fun _ _ =>
      restores_first (enrolling_neutral rfl) fun _ _ =>
        restores_first (enrolling_neutral rfl) fun _ _ =>
          restores_first (enrolling_neutral rfl) fun _ _ => rfl

end

theorem enrolling_steady : (Discipline.enrolling (σ := σ) b p).Steady b where
  idle := rfl
  enter _ _ _ := rfl
  launch _ _ := rfl
  within _ _ := rfl
  gives _ _ := Iff.rfl
  ends _ := Iff.rfl
  neutral _ _ := enrolling_neutral
  returns _ _ _ _ := trivial
  knows _ _ _ _ := trivial
  spawnWith _ := enrolling_spawnWith
  start _ := enrolling_start

theorem enrolling_counts : (Discipline.enrolling (σ := σ) b p).Counts b List.length (holdsAfter p) where
  idle := rfl
  enter _ _ _ := rfl
  launch _ _ := rfl
  within _ _ := rfl
  -- A name is held between `reserve` and `install`, and meanwhile there is one roster for it.
  next s d r may _ := by
    show (rosterAfter p s d r).length = _
    cases d with
    | reserve =>
      show (toward p r Roster.begin s).length = s.length + holdOn p r
      by_cases hq : r = p
      · rw [toward_self hq, holdOn_self hq, Roster.begin, List.length_cons]
      · rw [toward_other hq, holdOn_other hq, Nat.add_zero]
    | install q label t =>
      have used : (toward p q List.tail s).length = s.length - holdOn p q := by
        by_cases hq : q = p
        · rw [toward_self hq, holdOn_self hq, List.length_tail]
        · rw [toward_other hq, holdOn_other hq, Nat.sub_zero]
      exact (Roster.length_joined _).trans used
    | found d =>
      show (toward p d.pid Roster.close s).length = s.length
      by_cases hp : d.pid = p
      · obtain ⟨u, rfl⟩ := may.2.2 hp
        rw [toward_self hp]
        rfl
      · rw [toward_other hp]
    | _ => rfl
  expands n d y r h := by cases h <;> rfl
  gives s t h := by
    obtain rfl : s = [] := h
    rfl
  ends s h := by
    obtain rfl : s = [] := h
    rfl

theorem enrolling_holds (s : List (Roster κ)) (label : Option String) (t : Task κ)
    (may : (Discipline.enrolling (σ := σ) b p).may s (.install p label t)) : 0 < s.length :=
  List.length_pos_iff.2 (may.1 rfl)

/-! ### Runs -/

/-- A process that code installs is started: its name is free. -/
theorem Trail.going_of_install {m : Machine κ σ} {ms : List (Machine κ σ)} (h : Trail b m ms) {q : Pid}
    {label : Option String} {t : Task κ} (top : m.directive? = some (.install q label t)) :
    (m.step b).fault = none := by
  have free := (ProcTable.isFree_iff.1 (h.free_of_install top)).2
  obtain ⟨α, w, fr, k, s, rfl⟩ := Machine.eq_of_directive? top
  have free : w.procs.get? q = none := free
  rw [fr.step_op, Machine.stepCode, Directive.step, World.install, free]
  rfl

/-- What is known of the managers that have been started with a name. As long as it is held for a program, they
are those of its roster, and no program has it. A program that has it has been founded with them. And before the
name is handed out there is nothing of the kind. -/
structure World.Enrolled (w : World κ σ) (p : Pid) (os : List (Post κ)) (L : List (List (Roster κ))) : Prop where
  growing : ∀ os', .growing os' ∈ L.flatten → os = os' ∧ ∀ d ∈ w.founded, d.pid ≠ p
  founded : ∀ d ∈ w.founded, d.pid = p → os = d.appointed
  unused : w.names ≤ p.number → os = [] ∧ ∀ d ∈ w.founded, d.pid ≠ p

namespace World.Enrolled

variable {w w' : World κ σ} {os : List (Post κ)} {s : List (Roster κ)} {L L' T : List (List (Roster κ))}
  {m : Machine κ σ} {ms : List (Machine κ σ)}

/-- It stays if no program is founded and no manager is started. -/
theorem stays (h : w.Enrolled p os L) (same : w'.founded = w.founded) (names : w.names ≤ w'.names)
    (less : ∀ x ∈ L'.flatten, x ∈ L.flatten) : w'.Enrolled p os L' := by
  obtain ⟨growing, founded, unused⟩ := h
  rw [← same] at founded growing unused
  exact ⟨fun os' mem => growing os' (less _ mem), founded, fun fresh => unused (Nat.le_trans names fresh)⟩

/-- The name is reserved: nothing has been done with it before. -/
theorem reserve (h : m.world.Enrolled p os L) {w' : World κ σ} (hr : m.world.reserve = .ok (p, w'))
    (same : w'.founded = m.world.founded) (held : L'.flatten = [.growing []]) : w'.Enrolled p os L' := by
  obtain ⟨number, more⟩ := reserve_eq hr
  obtain ⟨rfl, free⟩ := h.unused (Nat.le_of_eq number.symm)
  rw [← same] at free
  refine ⟨fun os' mem => ?_, fun d hd hp => absurd hp (free d hd), fun fresh => ?_⟩
  · rw [held, List.mem_singleton] at mem
    exact ⟨(Roster.growing.inj mem).symm, free⟩
  · omega

/-- A manager is started with the name. -/
theorem install (h : w.Enrolled p os L) (same : w'.founded = w.founded) (handed : p.number < w'.names)
    {o : Post κ} {before : List (Post κ)} (held : L.flatten = [.growing before])
    (held' : L'.flatten = [.growing (before ++ [o])]) : w'.Enrolled p (os ++ [o]) L' := by
  obtain ⟨rfl, free⟩ := h.growing before (held ▸ List.mem_singleton_self _)
  rw [← same] at free
  refine ⟨fun os' mem => ?_, fun d hd hp => absurd hp (free d hd), fun fresh => ?_⟩
  · rw [held', List.mem_singleton] at mem
    exact ⟨(Roster.growing.inj mem).symm, free⟩
  · exact absurd handed (Nat.not_lt.2 fresh)

/-- A program is founded with the name. -/
theorem found (h : w.Enrolled p os L) {d : RunningProgram κ} (more : w'.founded = w.founded ++ [d.fixed])
    (handed : p.number < w'.names) (held : L.flatten = [.growing d.appointed])
    (held' : L'.flatten = [.closed]) : w'.Enrolled p os L' := by
  obtain ⟨rfl, free⟩ := h.growing d.appointed (held ▸ List.mem_singleton_self _)
  refine ⟨fun os' mem => ?_, fun x hx hp => ?_, fun fresh => absurd handed (Nat.not_lt.2 fresh)⟩
  · rw [held', List.mem_singleton] at mem
    cases mem
  · rw [more] at hx
    rcases List.mem_append.1 hx with hx | hx
    · exact absurd hp (free x hx)
    · rw [List.mem_singleton.1 hx]
      rfl

/-- A program is founded with another name. -/
theorem found_other (h : w.Enrolled p os L) {d : RunningProgram κ} (more : w'.founded = w.founded ++ [d.fixed])
    (names : w.names ≤ w'.names) (other : d.pid ≠ p) (same : L'.flatten = L.flatten) : w'.Enrolled p os L' := by
  have apart : (∀ x ∈ w.founded, x.pid ≠ p) → ∀ x ∈ w'.founded, x.pid ≠ p := by
    intro free
    rw [more]
    exact List.forall_mem_append.2 ⟨free, List.forall_mem_singleton.2 other⟩
  refine ⟨fun os' mem => ?_, fun x hx hp => ?_, fun fresh => ?_⟩
  · exact (h.growing os' (same ▸ mem)).imp_right apart
  · rw [more] at hx
    rcases List.mem_append.1 hx with hx | hx
    · exact h.founded x hx hp
    · exact absurd hp ((List.mem_singleton.1 hx).symm ▸ other)
  · exact (h.unused (Nat.le_trans names fresh)).imp_right apart

/-- A name is reserved. -/
theorem goes_reserve (h : m.world.Enrolled p os (s :: T)) (claimed : m.world.Claimed p ((s :: T).map List.length).sum)
    {q : Pid} (hr : m.world.reserve = .ok (q, w')) (same : w'.founded = m.world.founded) :
    w'.Enrolled p os (toward p q Roster.begin s :: T) := by
  by_cases hp : q = p
  · refine h.reserve (hp ▸ hr) same ?_
    rw [toward_self hp]
    exact congrArg (Roster.growing [] :: ·) (claimed.eq_nil hr hp)
  · rw [toward_other hp]
    exact h.stays same ((reserve_eq hr).2 ▸ Nat.le_succ _) fun x hx => hx

/-- A process is installed. -/
theorem goes_install (h : m.world.Enrolled p os (s :: T)) (claimed : m.world.Claimed p ((s :: T).map List.length).sum)
    {q : Pid} {label : Option String} {t : Task κ} (top : m.directive? = some (.install q label t))
    (may : (Discipline.enrolling b p).may s (.install q label t))
    (same : (m.step b).world.founded = m.world.founded) :
    (m.step b).world.Enrolled p (os ++ (m.enrols p).toList)
      (Roster.joined p (Directive.install q label t : Directive κ σ).post? (toward p q List.tail s) :: T) := by
  have names := Machine.names_le b m
  have used : ∀ x ∈ (toward p q List.tail s :: T).flatten, x ∈ (s :: T).flatten := by
    refine (List.Sublist.append_right ?_ T.flatten).subset
    unfold toward
    split
    · exact List.tail_sublist s
    · exact List.Sublist.refl s
  rw [Machine.enrols_of_directive? top]
  cases hpost : (Directive.install q label t : Directive κ σ).post? with
  | none =>
    rw [Option.filter_none, Option.toList_none, List.append_nil]
    exact h.stays same names used
  | some o =>
    by_cases hp : o.router.app = p
    · obtain ⟨before, u, hs⟩ := may.2 o hpost hp
      -- The name of the program is held for the program, so it is not the name of the manager.
      have other : q ≠ p := by
        intro hq
        obtain ⟨x, s', rfl⟩ := List.exists_cons_of_ne_nil (may.1 hq)
        rw [toward_self hq, List.tail_cons] at hs
        subst hs
        cases claimed.alone
      rw [toward_other other] at hs ⊢
      subst hs
      rw [Option.filter_some_pos (by simpa using hp)]
      refine h.install same (Nat.lt_of_lt_of_le (claimed.handed (List.cons_ne_nil _ _)) names)
        (congrArg (_ :: ·) claimed.alone) ?_
      show (toward p o.router.app (Roster.grow [o]) (.growing before :: u) :: T).flatten = _
      rw [toward_self hp]
      exact congrArg (_ :: ·) claimed.alone
    · rw [Option.filter_some_neg (by simpa using hp), Option.toList_none, List.append_nil]
      refine h.stays same names ?_
      show ∀ x ∈ (toward p o.router.app _ _ :: T).flatten, _
      rwa [toward_other hp]

/-- A program is founded. -/
theorem goes_found (h : w.Enrolled p os (s :: T)) (claimed : w.Claimed p ((s :: T).map List.length).sum)
    {d : RunningProgram κ} (may : (Discipline.enrolling (σ := σ) b p).may s (.found d))
    (more : w'.founded = w.founded ++ [d.fixed]) (names : w.names ≤ w'.names) :
    w'.Enrolled p os (toward p d.pid Roster.close s :: T) := by
  by_cases hp : d.pid = p
  · obtain ⟨u, rfl⟩ := may.2.2 hp
    rw [toward_self hp]
    exact h.found more (Nat.lt_of_lt_of_le (claimed.handed (List.cons_ne_nil _ _)) names)
      (congrArg (_ :: ·) claimed.alone) (congrArg (_ :: ·) claimed.alone)
  · rw [toward_other hp]
    exact h.found_other more names hp rfl

/-- Every step keeps it. -/
theorem goes (h : m.world.Enrolled p os L) (trail : Trail b m ms)
    (claimed : m.world.Claimed p (L.map List.length).sum)
    (goes : (Discipline.enrolling b p).Goes b m (m.step b) L L') :
    (m.step b).world.Enrolled p (os ++ (m.enrols p).toList) L' := by
  have names := Machine.names_le b m
  rcases enrolling_steady.goes goes with ⟨flat, broken⟩ | ⟨s, T, d, r, rfl, rfl, top, establishes, may, -, hd⟩
  · -- Neither is a manager started nor a program founded: such a directive would be broken off.
    have none : m.enrols p = .none := by
      refine Option.eq_none_iff_forall_ne_some.2 fun o ho => ?_
      obtain ⟨q, label, t, top⟩ := Machine.installs_of_enrols ho
      exact (broken _ top rfl).2 (trail.going_of_install top)
    rw [none, Option.toList_none, List.append_nil]
    exact h.stays (Machine.founded_of_broken fun x top => (broken _ top rfl).1) names fun x hx => flat ▸ hx
  have same : (∀ x, d ≠ .found x) → (m.step b).world.founded = m.world.founded := Machine.founded_of_directive? top
  have plain : d.post? = none → os ++ (m.enrols p).toList = os := by
    intro none
    rw [Machine.enrols_of_directive? top, none, Option.filter_none, Option.toList_none, List.append_nil]
  cases d with
  | reserve =>
    rw [plain rfl]
    exact h.goes_reserve claimed (reserve_of_step hd) (same nofun)
  | install q label t => exact h.goes_install claimed top may (same nofun)
  | found x =>
    rw [plain rfl]
    exact h.goes_found claimed may (founded_of_found hd) names
  | _ => cases establishes

end World.Enrolled

/-- What is known of the registry of a program: its application's managers have been registered, and none of them
has been refused. -/
structure RunningProgram.Registered (b : Behaviour κ σ) (d : RunningProgram κ) : Prop where
  after : d.registry = Registry.empty.after (b.application d.app).managers
  entries : d.registry.entries = (b.application d.app).managers

/-- Throughout a run the managers that have been started with a name are known, and so are the registries. -/
theorem Trail.enrolls {m : Machine κ σ} {ms : List (Machine κ σ)} (h : Trail b m ms) (p : Pid) :
    ∃ L, m.Keeps (Discipline.enrolling b p) b L ∧ m.world.Claimed p (L.map List.length).sum ∧
      m.world.Enrolled p (enrolled p ms) L ∧ ∀ d ∈ m.world.founded, d.Registered b := by
  have nothing : ∀ w : World κ σ, w.Claimed p 0 := fun w => ⟨Nat.zero_le 1, nofun⟩
  induction h with
  | new config user code =>
    refine ⟨_, Machine.keeps_load enrolling_steady.lawful _ code, nothing _, ?_, nofun⟩
    exact ⟨nofun, nofun, fun _ => ⟨rfl, nofun⟩⟩
  | load code h hs hf ih =>
    -- No code is under way when other code is loaded, so all programs have been founded, and what
    -- they hold stays.
    obtain ⟨L, keeps, -, ⟨-, founded, unused⟩, registered⟩ := ih
    exact ⟨_, Machine.keeps_load enrolling_steady.lawful _ code, nothing _, ⟨nofun, founded, unused⟩, registered⟩
  | @step m ms h ih =>
    obtain ⟨L, keeps, claimed, inv, registered⟩ := ih
    obtain ⟨L', keeps', goes⟩ := keeps.transition enrolling_steady.lawful (Machine.transition b m)
      fun _ _ _ _ _ _ _ _ _ _ _ => trivial
    refine ⟨L', keeps', enrolling_counts.claimed enrolling_holds h.reachable.sound claimed goes, ?_, fun d hd => ?_⟩
    · rw [enrolled_snoc]
      exact inv.goes h claimed goes
    · rcases Machine.founded_cases b m with ⟨x, top, more⟩ | same
      · rcases List.mem_append.1 (more ▸ hd) with hd | hd
        · exact registered d hd
        · -- The new program: the code that founds it has registered the managers itself.
          obtain rfl := List.mem_singleton.1 hd
          obtain ⟨s, T, s', rfl, settled, may⟩ := keeps.may top
          exact ⟨may.1, may.2.1⟩
      · exact registered d (same ▸ hd)

/-- The managers that a run has started for a program are those of the program. -/
theorem Trail.enrolled {m : Machine κ σ} {ms : List (Machine κ σ)} (h : Trail b m ms) {i : ProgramId}
    {D : RunningProgram κ} (hD : m.world.programs[i]? = some D) :
    enrolled D.pid ms = D.appointed ∧ D.Registered b := by
  obtain ⟨L, -, -, inv, registered⟩ := h.enrolls D.pid
  have mem : D.fixed ∈ m.world.founded := List.mem_of_getElem? (founded_getElem? hD)
  have known := registered D.fixed mem
  exact ⟨inv.founded D.fixed mem rfl, known.after, known.entries⟩

/-! ### Looking a manager up -/

namespace RunningProgram.Manned

variable {d : RunningProgram κ} {home : Home}

/-- Under a home there is one process. -/
theorem find?_eq_some (h : d.Manned) (mem : (home, p) ∈ d.managers) :
    (d.managers.find? fun e => e.1 = home) = some (home, p) := by
  have nodup : (d.managers.map Prod.fst).Nodup := h.homes ▸ h.nodup
  cases hf : d.managers.find? fun e => e.1 = home with
  | none => exact absurd (decide_eq_true rfl) (List.find?_eq_none.1 hf _ mem)
  | some e =>
    have same : e.1 = home := by simpa using List.find?_some hf
    rw [List.inj_on_of_nodup_map nodup (List.mem_of_find?_eq_some hf) mem same]

/-- Under other homes there is none. -/
theorem find?_eq_none (h : d.Manned) (absent : home ∉ d.registry.homes) :
    (d.managers.find? fun e => e.1 = home) = none := by
  refine List.find?_eq_none.2 fun e he same => absent ?_
  rw [← h.homes, ← of_decide_eq_true same]
  exact List.mem_map_of_mem he

end RunningProgram.Manned

/-- What is known of the managers of a program that has been started with the registry that certain calls have
made. They stand under the homes of these calls, each home once. The processes that have been started as managers
of the program are theirs, one for each, with the manager that came first under its home. And under each home the
process of this manager is found, and nothing under other homes. -/
structure RunningProgram.Employs (b : Behaviour κ σ) (D : RunningProgram κ) (ms : List (Machine κ σ))
    (v : ProgramView) (calls : List (Home × Hooks κ)) : Prop where
  homes : D.managers.map Prod.fst = (calls.map Prod.fst).eraseDups
  nodup : (D.managers.map Prod.snd).Nodup
  processes : (enrolled D.pid ms).map (fun o => o.router.this) = D.managers.map Prod.snd
  hooks : (enrolled D.pid ms).map Post.hooks = D.registry.entries.map Prod.snd
  began : ∀ o ∈ enrolled D.pid ms, o.Began b ms
  found : ∀ home hooks, (calls.find? fun e => e.1 = home) = some (home, hooks) →
    ∃ q, v.manager home = some q ∧ ⟨hooks, ⟨D.pid, q⟩⟩ ∈ enrolled D.pid ms
  absent : ∀ home, home ∉ calls.map Prod.fst → v.manager home = none

/-- The processes of the managers of a program. -/
theorem appoint_processes {app : Pid} {entries : List (Home × Hooks κ)} {managers : List (Home × Pid)}
    (h : managers.length ≤ entries.length) :
    (appoint app entries managers).map (fun o => o.router.this) = managers.map Prod.snd := by
  rw [appoint, ← List.map_uncurry_zip_eq_zipWith, List.map_map]
  calc (entries.zip managers).map (fun x => x.2.2)
      = ((entries.zip managers).map Prod.snd).map Prod.snd := List.map_map.symm
    _ = managers.map Prod.snd := by rw [List.map_snd_zip h]

/-- The managers that these processes run. -/
theorem appoint_hooks {app : Pid} {entries : List (Home × Hooks κ)} {managers : List (Home × Pid)}
    (h : entries.length ≤ managers.length) :
    (appoint app entries managers).map Post.hooks = entries.map Prod.snd := by
  rw [appoint, ← List.map_uncurry_zip_eq_zipWith, List.map_map]
  calc (entries.zip managers).map (fun x => x.1.2)
      = ((entries.zip managers).map Prod.fst).map Prod.snd := List.map_map.symm
    _ = entries.map Prod.snd := by rw [List.map_fst_zip h]

theorem Trail.employs {m : Machine κ σ} {ms : List (Machine κ σ)} (h : Trail b m ms) {i : ProgramId}
    {D : RunningProgram κ} (hD : m.world.programs[i]? = some D) {calls : List (Home × Hooks κ)}
    (registry : D.registry = Registry.empty.after calls) :
    D.Employs b ms ⟨D.pid, D.updates, D.managers⟩ calls := by
  have manned := (h.manages hD).manned
  obtain ⟨all, -⟩ := h.enrolled hD
  have lengths : D.managers.length = D.registry.entries.length := by
    have same := congrArg List.length manned.homes
    rwa [Registry.homes, List.length_map, List.length_map] at same
  have homes : D.registry.homes = (calls.map Prod.fst).eraseDups := by rw [registry, Registry.homes_after]
  refine ⟨manned.homes.trans homes, (h.manages hD).nodup, ?_, ?_, ?_, fun home hooks first => ?_, fun home new => ?_⟩
  · rw [all]
    exact appoint_processes (Nat.le_of_eq lengths)
  · rw [all]
    exact appoint_hooks (Nat.le_of_eq lengths.symm)
  · exact all ▸ h.appointed hD
  · have find : D.registry.find? home = some hooks := by
      rw [registry, Registry.find?_after, first]
      rfl
    obtain ⟨q, mem, post⟩ := manned.appoints find
    exact ⟨q, congrArg (Option.map Prod.snd) (manned.find?_eq_some mem), all ▸ post⟩
  · have absent : home ∉ D.registry.homes := by rwa [registry, Registry.mem_homes_after]
    exact congrArg (Option.map Prod.snd) (manned.find?_eq_none absent)

/-- Registration is consistent. After any calls of `register`, under whatever homes and for whatever managers, the
built-in one among them, a further call is refused, as a bad argument, exactly if its home has been registered
before, and then it changes nothing. The homes are those of the calls, each once and in the order in which they came
first; the index leads from each home to its own place and to nothing else, so the manager that is found under a
home, and its kind, are those of the first call for it. A program has the registry that the calls for its
application have made, of which none has been refused. And a program with the registry that some calls have made has
been given exactly one manager process for each home; under a home the process that runs its manager is found, and
under other homes none. -/
theorem Registry.consistent (b : Behaviour κ σ) (calls : List (Home × Hooks κ)) :
    (∀ home m, Answers calls home m) ∧ (empty.after calls).Lists b calls ∧
    ∀ (m : Machine κ σ) (ms : List (Machine κ σ)) (i : ProgramId) (D : RunningProgram κ), Trail b m ms →
      m.world.programs[i]? = some D → D.Registered b ∧
        (D.registry = empty.after calls → ∃ v, m.world.programView i = some v ∧ D.Employs b ms v calls) := by
  refine ⟨answers calls, lists b calls, fun m ms i D h hD => ⟨(h.enrolled hD).2, fun registry => ?_⟩⟩
  exact ⟨_, congrArg (Option.map _) hD, h.employs hD registry⟩

/-- A program with the built-in manager and another one. -/
def bureau : Behaviour Unit Unit :=
  { Behaviour.ofCallbacks fun _ v => .succeed v with
    manager := fun _ =>
      { kind := .both
        state := .unit
        init := .ret (.succeed .unit)
        onEffects := fun _ _ _ s => .ret (.succeed s)
        onMessage := fun _ _ s => .ret (.succeed s)
        mapCommand := fun _ v => .ret v
        mapSubscription := fun _ v => .ret v }
    application := fun _ =>
      { message := .unit
        managers := [(.tasks, .tasks), (⟨"log"⟩, .custom ())]
        init := .ret (.unit, .node [])
        update := fun _ model => .ret (model, .node [])
        subscriptions := fun _ => .ret (.node [])
        render := fun _ => .ret () } }

/-- The program is started, and then the host runs. -/
def staffed : Machine Unit Unit :=
  let code : Code Unit Unit Unit :=
    (Code.ask (.start ())).bind fun _ => (Code.ask (.drive .idle)).bind fun _ => .ret ()
  .load (.new .standard ()) (Procedure.ofCode code)

/-- Managers that are registered, the last of them under a home that has been registered before. -/
def applicants : List (Home × Hooks Unit) :=
  [(.tasks, .tasks), (⟨"log"⟩, .custom ()), (.tasks, .custom ())]

/-- The last one is refused, and the program has a process for each of the other two. -/
theorem bureau_consistent : ∃ m ms D v, Trail bureau m ms ∧ m.world.programs[0]? = some D ∧
    D.registry = Registry.empty.after applicants ∧ m.world.programView 0 = some v ∧
    D.Employs bureau ms v applicants ∧ v.manager .tasks = some ⟨2⟩ ∧ v.manager ⟨"log"⟩ = some ⟨3⟩ ∧
    v.manager ⟨"none"⟩ = none ∧ enrolled D.pid ms = [⟨.tasks, ⟨⟨1⟩, ⟨2⟩⟩⟩, ⟨.custom (), ⟨⟨1⟩, ⟨3⟩⟩⟩] ∧
    (Registry.empty.after applicants).homes = [.tasks, ⟨"log"⟩] ∧
    Registry.Answers applicants .tasks (.custom ()) := by
  have begin : Trail bureau staffed [] := .new _ _ _
  have h := begin.run 40
  obtain ⟨answers, lists, programs⟩ := Registry.consistent bureau applicants
  obtain ⟨-, employs⟩ := programs _ _ 0 _ h rfl
  obtain ⟨v, view, employs⟩ := employs rfl
  obtain rfl := Option.some.inj view
  exact ⟨_, _, _, _, h, rfl, rfl, rfl, employs, rfl, rfl, rfl, rfl, rfl, answers _ _⟩

end Actors
