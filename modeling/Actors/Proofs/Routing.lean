/-
The way from managers to their program.

The name of a program's main process is handed out before anything else is done for the program. The
managers are started with it, then the program is founded and its first cycle is run, and at last the main
process is installed under it. In between only what the start calls is under way, unless that lets the host
run.

* `Claim`, `Discipline.routing` — what code that holds the name of a main process has done with it;
* `Trail.routed` — nobody else holds that name, and it is free;
* `Trail.opens` — the process under the name of a program is the one that its start installs;
* `Trail.appoints` — from the start of a manager on the code that has started it is under way, in its
  place on the stack, or there is a main process;
* `Trail.routes` — so a manager's message reaches the main process, or the start waits for a drive.
-/
import Actors.Proofs.Cancellation
import Actors.Proofs.Founding
import Actors.Proofs.Listening
import Actors.Proofs.Staying

namespace Actors

variable {κ σ α : Type} {b : Behaviour κ σ} {p : Pid}

open Procedure World Activity

/-! ### What code holds of a name -/

/-- Whether a directive starts a manager whose messages go to a name. -/
def Directive.routes (p : Pid) : Directive κ σ → Bool
  | .install _ (some _) (.andThen _ (.managerReady m)) => m.router.app = p
  | _ => false

/-- A hold on a name: the program that has been founded with it, and whether managers have been started
with it. -/
structure Claim where
  program : Option ProgramId
  manned : Bool

/-- What may be installed under a name: with managers or a program, only the main process of a program. -/
def Claim.Opens (c : Claim) (label : Option String) (t : Task κ) : Prop :=
  (c.manned = true → c.program ≠ none) ∧
    ∀ i, c.program = some i → label = some "program" ∧ t = Program.listen i

/-- The latest hold is changed. -/
def amended (f : Claim → Claim) : List Claim → List Claim
  | [] => []
  | c :: s => f c :: s

/-- Managers are started with the name of the latest hold. -/
def manned : List Claim → List Claim :=
  amended fun c => { c with manned := true }

/-- A program is founded with the name of the latest hold. -/
def chartered (i : ProgramId) : List Claim → List Claim :=
  amended fun c => { c with program := some i }

/-- The holds on the name `p` once `q` has been reserved. -/
def taken (p q : Pid) (s : List Claim) : List Claim :=
  if q = p then ⟨none, false⟩ :: s else s

/-- The holds on the name `p` once `q` has been used. -/
def left (p q : Pid) (s : List Claim) : List Claim :=
  if q = p then s.tail else s

/-- The holds that code has on a name after a reply. -/
def claimsAfter (p : Pid) (s : List Claim) : (d : Directive κ σ) → d.Reply → List Claim
  | .reserve, r => taken p r s
  | .install q label t, _ =>
    if Directive.routes p (.install (σ := σ) q label t) then manned (left p q s) else left p q s
  | .found d, i => if d.pid = p then chartered i s else s
  | _, _ => s

/-- Code starts managers and founds a program only with a name that it holds. Under a name with which it
has done so it installs a main process. -/
def Discipline.routing (p : Pid) : Discipline κ σ (List Claim) where
  idle := []
  enter _ _ _ := []
  launch _ _ := []
  may s
    | .install q label t =>
      (q = p → ∃ c u, s = c :: u ∧ c.Opens label t) ∧
        (Directive.routes p (.install (σ := σ) q label t) = true → left p q s ≠ [])
    | .found d => d.pid = p → ∃ c u, s = c :: u ∧ c.program = none
    | _ => True
  knows _ _ _ := True
  within s _ := s
  next := claimsAfter p
  gives s _ := s = []
  ends s := s = []

section

variable {s : List Claim}

theorem amended_ne_nil {f : Claim → Claim} (h : s ≠ []) : amended f s ≠ [] := by
  cases s with
  | nil => exact h
  | cons => exact List.cons_ne_nil _ _

@[simp] theorem length_amended (f : Claim → Claim) (s : List Claim) : (amended f s).length = s.length := by
  cases s <;> rfl

theorem left_taken (p q : Pid) (s : List Claim) : left p q (taken p q s) = s := by
  unfold left taken
  split <;> rfl

theorem taken_self {q : Pid} (h : q = p) (s : List Claim) : taken p q s = ⟨none, false⟩ :: s :=
  if_pos h

theorem taken_other {q : Pid} (h : q ≠ p) (s : List Claim) : taken p q s = s :=
  if_neg h

theorem left_self {q : Pid} (h : q = p) (s : List Claim) : left p q s = s.tail :=
  if_pos h

theorem left_other {q : Pid} (h : q ≠ p) (s : List Claim) : left p q s = s :=
  if_neg h

/-- A name that has just been reserved may be used for anything. -/
theorem taken_opens {q : Pid} (label : Option String) (t : Task κ) (hq : q = p) :
    ∃ c u, taken p q s = c :: u ∧ c.Opens label t :=
  ⟨_, s, taken_self hq s, nofun, nofun⟩

theorem routing_neutral {d : Directive κ σ} (h : d.establishes = false) :
    (Discipline.routing p).Neutral s d := by
  cases d <;> first | exact ⟨trivial, fun _ _ => rfl⟩ | cases h

/-- A name is reserved, and what follows. -/
theorem routing_reserve {Q : List Claim → α → Prop} {f : Pid → Procedure κ σ α}
    (hf : ∀ q, (f q).Obeys (Discipline.routing p) Q (taken p q s)) :
    Obeys (Discipline.routing p) Q s ((direct .reserve).bind f) :=
  obeys_first trivial fun q _ => hf q

/-- A process that is no manager is started under a name that the code holds. -/
theorem routing_install {Q : List Claim → α → Prop} {q : Pid} {label : Option String} {t : Task κ}
    {f : Unit → Procedure κ σ α} (h : q = p → ∃ c u, s = c :: u ∧ c.Opens label t)
    (plain : Directive.routes p (.install (σ := σ) q label t) = false)
    (hf : (f ()).Obeys (Discipline.routing p) Q (left p q s)) :
    Obeys (Discipline.routing p) Q s ((direct (.install q label t)).bind f) := by
  refine obeys_first ⟨h, fun routes => ?_⟩ fun _ _ => ?_
  · rw [plain] at routes
    cases routes
  · show (f ()).Obeys (Discipline.routing p) Q
      (if Directive.routes p (.install (σ := σ) q label t) then manned (left p q s) else left p q s)
    rw [plain]
    exact hf

theorem routing_spawnWith (c : κ) :
    (Procedure.spawnWith (σ := σ) c).Restores (Discipline.routing p) s := by
  refine restores_first (routing_neutral rfl) fun _ _ => routing_reserve fun q => ?_
  refine obeys_neutral (routing_neutral rfl) fun t _ => ?_
  refine routing_install (taken_opens none t) rfl ?_
  rw [left_taken]
  exact restores_first (routing_neutral rfl) fun _ _ => rfl

/-- Managers are started with a name that the code holds. -/
theorem routing_startManagers (app : Pid) : ∀ (managers : List (Home × Hooks κ)) (s : List Claim),
    (app = p → s ≠ []) → (Program.startManagers (σ := σ) app managers).Obeys (Discipline.routing p)
      (fun s' _ => s' = s ∨ app = p ∧ s' = manned s) s
  | [], s, _ => .inl rfl
  | (home, hooks) :: rest, s, held => by
    refine routing_reserve fun this => ?_
    -- The manager is opened under its own name, so the claim on it is the one just taken.
    have opening : (Manager.opening (σ := σ) ⟨hooks, ⟨app, this⟩⟩).Obeys (Discipline.routing p)
        (fun s' t => s' = taken p this s ∧ ∃ t₀, t = .andThen t₀ (.managerReady ⟨hooks, ⟨app, this⟩⟩))
        (taken p this s) := by
      refine obeys_neutral (routing_neutral rfl) fun _ _ => ?_
      exact obeys_neutral (routing_neutral rfl) fun t _ => ⟨rfl, t, rfl⟩
    refine opening.bind fun s' t h => ?_
    obtain ⟨rfl, t₀, rfl⟩ := h
    refine obeys_first ⟨taken_opens _ _, fun routes => ?_⟩ fun _ _ => ?_
    · rw [left_taken]
      exact held (of_decide_eq_true routes)
    show Obeys (Discipline.routing p) _
      (if decide (app = p) then manned (left p this (taken p this s)) else left p this (taken p this s)) _
    rw [left_taken]
    -- A manager of the program at hand marks its claim; the rest of the list leaves the mark as
    -- it is.
    by_cases ha : app = p
    · have again : manned (manned s) = manned s := by cases s <;> rfl
      rw [if_pos (decide_eq_true ha)]
      refine Obeys.bind (routing_startManagers app rest (manned s) fun h => amended_ne_nil (held h))
        fun s' _ hs => ?_
      rw [again, and_iff_right ha, or_self] at hs
      exact .inr ⟨ha, hs⟩
    · rw [if_neg (by simpa using ha)]
      exact Obeys.bind (routing_startManagers app rest s held) fun s' _ hs => hs

theorem routing_start (c : κ) : (Program.start b c).Restores (Discipline.routing p) s := by
  refine Restores.bind ((Discipline.Steady.registration _ _).restores fun _ => routing_neutral) fun r => ?_
  cases r with
  | error f => exact rfl
  | ok registry =>
    refine restores_first (routing_neutral rfl) fun _ _ => routing_reserve fun pid => ?_
    refine obeys_neutral (routing_neutral rfl) fun _ _ => ?_
    have held : pid = p → taken p pid s ≠ [] := fun hq => by rw [taken_self hq]; exact List.cons_ne_nil _ _
    refine (routing_startManagers pid registry.entries _ held).bind fun s' managers hs => ?_
    -- The code holds the name, or it has to do with another one.
    have hs' : (pid = p → ∃ m, s' = ⟨none, m⟩ :: s) ∧ (pid ≠ p → s' = s) := by
      refine ⟨fun hq => ?_, fun hq => ?_⟩
      · rw [taken_self hq] at hs
        rcases hs with rfl | ⟨-, rfl⟩
        · exact ⟨false, rfl⟩
        · exact ⟨true, rfl⟩
      · rw [taken_other hq] at hs
        exact hs.resolve_right fun h => hq h.1
    refine obeys_first (fun hq => ?_) fun i _ => ?_
    · obtain ⟨m, rfl⟩ := hs'.1 hq
      exact ⟨_, s, rfl, rfl⟩
    show Obeys (Discipline.routing p) _ (if pid = p then chartered i s' else s') _
    refine obeys_neutral (routing_neutral rfl) fun r _ => ?_
    refine Obeys.bind ((Discipline.Steady.cycle i _ r.1 r.2).restores fun _ => routing_neutral) fun _ _ h => ?_
    rw [h]
    have after : left p pid (if pid = p then chartered i s' else s') = s := by
      by_cases hq : pid = p
      · obtain ⟨m, rfl⟩ := hs'.1 hq
        rw [left_self hq, if_pos hq]
        rfl
      · rw [left_other hq, if_neg hq, hs'.2 hq]
    refine routing_install (fun hq => ?_) rfl ?_
    · obtain ⟨m, rfl⟩ := hs'.1 hq
      rw [if_pos hq]
      exact ⟨_, s, rfl, fun _ => Option.some_ne_none i, fun j hj => ⟨rfl, congrArg _ (Option.some.inj hj)⟩⟩
    rw [after]
    exact restores_first (routing_neutral rfl) fun _ _ =>
      restores_first (routing_neutral rfl) fun _ _ =>
        restores_first (routing_neutral rfl) fun _ _ =>
          restores_first (routing_neutral rfl) fun _ _ => rfl

end

theorem routing_steady : (Discipline.routing (κ := κ) (σ := σ) p).Steady b where
  idle := rfl
  enter _ _ _ := rfl
  launch _ _ := rfl
  within _ _ := rfl
  gives _ _ := Iff.rfl
  ends _ := Iff.rfl
  neutral _ _ := routing_neutral
  returns _ _ _ _ := trivial
  knows _ _ _ _ := trivial
  spawnWith _ := routing_spawnWith
  start _ := routing_start

theorem routing_counts :
    (Discipline.routing (κ := κ) (σ := σ) p).Counts b List.length (holdsAfter p) where
  idle := rfl
  enter _ _ _ := rfl
  launch _ _ := rfl
  within _ _ := rfl
  next s d r _ _ := by
    show (claimsAfter p s d r).length = _
    cases d with
    | reserve =>
      show (taken p r s).length = s.length + holdOn p r
      by_cases hq : r = p
      · rw [taken_self hq, holdOn_self hq, List.length_cons]
      · rw [taken_other hq, holdOn_other hq, Nat.add_zero]
    | install q label t =>
      have used : (left p q s).length = s.length - holdOn p q := by
        by_cases hq : q = p
        · rw [left_self hq, holdOn_self hq, List.length_tail]
        · rw [left_other hq, holdOn_other hq, Nat.sub_zero]
      show (if _ then manned (left p q s) else left p q s).length = s.length - holdOn p q
      split
      · exact (length_amended _ _).trans used
      · exact used
    | found d =>
      show (if d.pid = p then chartered r s else s).length = s.length
      split
      · exact length_amended _ s
      · rfl
    | _ => rfl
  expands n d y r h := by cases h <;> rfl
  gives s t h := by
    obtain rfl : s = [] := h
    rfl
  ends s h := by
    obtain rfl : s = [] := h
    rfl

theorem routing_holds (s : List Claim) (label : Option String) (t : Task κ)
    (may : (Discipline.routing (κ := κ) (σ := σ) p).may s (.install p label t)) : 0 < s.length := by
  obtain ⟨c, u, rfl, -⟩ := may.1 rfl
  exact Nat.succ_pos _

/-! ### The code that holds a name -/

/-- Throughout a run a name is held once at most, and it is free as long as it is held. -/
theorem Trail.routed {m : Machine κ σ} {ms : List (Machine κ σ)} (h : Trail b m ms) (p : Pid) :
    ∃ L, m.Keeps (Discipline.routing p) b L ∧ m.world.Claimed p (L.map List.length).sum := by
  have nothing : ∀ w : World κ σ, w.Claimed p 0 := fun w => ⟨Nat.zero_le 1, nofun⟩
  induction h with
  | new config user code => exact ⟨_, Machine.keeps_load routing_steady.lawful _ code, nothing _⟩
  | load code => exact ⟨_, Machine.keeps_load routing_steady.lawful _ code, nothing _⟩
  | @step m ms h ih =>
    obtain ⟨L, keeps, claimed⟩ := ih
    obtain ⟨L', keeps', goes⟩ := keeps.transition routing_steady.lawful (Machine.transition b m)
      fun _ _ _ _ _ _ _ _ _ _ _ => trivial
    exact ⟨L', keeps', routing_counts.claimed routing_holds h.reachable.sound claimed goes⟩

/-! ### The process under the name of a program -/

/-- A program's main process: the code that has founded the program will install it, or it is there. Nothing
else has been started under its name. -/
structure World.Opened (w : World κ σ) (p : Pid) (i : ProgramId) (L : List (List Claim))
    (ms : List (Machine κ σ)) : Prop where
  by_start : ∀ m ∈ ms, ∀ t, (p, .spawned t) ∈ m.record →
    m.directive? = some (.install p (some "program") (Program.listen i))
  held : (∃ c, L.flatten = [c] ∧ c.program = some i) ∨ (w.procs.get? p).isSome = true

/-- The code that performs a directive is the one that holds the name. -/
theorem eq_of_flatten {c c' : Claim} {u : List Claim} {T : List (List Claim)}
    (h : ((c' :: u) :: T).flatten = [c]) : c' = c ∧ u ++ T.flatten = [] :=
  List.cons.inj h

/-- Where there is no process none has been started. -/
theorem Trail.not_spawned {m : Machine κ σ} {ms : List (Machine κ σ)} (h : Trail b m ms)
    (none : m.world.procs.get? p = none) : ∀ m' ∈ ms, ∀ t, (p, .spawned t) ∉ m'.record := by
  intro m' hm' t ht
  have bare : m.world.bare p = Option.none := by rw [World.bare, none, Option.map_none]
  refine (h.history.life p).spawned_unique.1 bare t (Record.mem_of.2 ?_)
  exact List.mem_flatMap.2 ⟨m', hm', ht⟩

namespace World.Opened

variable {m : Machine κ σ} {ms : List (Machine κ σ)} {L L' : List (List Claim)} {i : ProgramId}

/-- A step in which nothing is started under the name. -/
theorem quiet (h : m.world.Opened p i L ms) (sound : m.Sound)
    (none : ∀ t, (p, .spawned t) ∉ m.record)
    (held : ∀ c, L.flatten = [c] → c.program = some i → ∃ c', L'.flatten = [c'] ∧ c'.program = some i) :
    (m.step b).world.Opened p i L' (ms ++ [m]) where
  by_start := List.forall_mem_append.2 ⟨h.by_start, List.forall_mem_singleton.2 fun t ht => absurd ht (none t)⟩
  held := h.held.imp (fun ⟨c, hc, hi⟩ => held c hc hi) fun there => Machine.isSome_step sound there

/-- Every step keeps to what is known of a program's main process. -/
theorem goes (h : m.world.Opened p i L ms) (sound : m.Sound) (going : (m.step b).fault = none)
    (claimed : m.world.Claimed p (L.map List.length).sum)
    (goes : (Discipline.routing p).Goes b m (m.step b) L L') :
    (m.step b).world.Opened p i L' (ms ++ [m]) := by
  obtain ⟨-, free⟩ := claimed.flatten
  -- Only what is installed under the name is started under it.
  have idle : (∀ label t, m.directive? ≠ some (.install p label t)) → ∀ t, (p, .spawned t) ∉ m.record := by
    intro hi t ht
    have life := (Machine.transition b m).life sound p
    rcases h.held with ⟨c, hc, -⟩ | there
    · have free := free (by rw [hc]; exact List.cons_ne_nil _ _)
      have before : m.world.bare p = none := by rw [World.bare, (ProcTable.isFree_iff.1 free).2]; rfl
      have after : (m.step b).world.bare p = none := by
        rw [World.bare, (ProcTable.isFree_iff.1 (Machine.isFree_of_idle sound free hi)).2]
        rfl
      rw [before] at life
      exact life.spawned_unique.1 after t (Record.mem_of.2 ht)
    · obtain ⟨x, hx⟩ := Option.isSome_iff_exists.1 there
      rw [World.bare_of_get? hx] at life
      exact life.not_spawned.2 t (Record.mem_of.2 ht)
  rcases routing_steady.goes_on going goes with ⟨same, plain⟩ | ⟨s, T, d, r, rfl, rfl, top, establishes, may, -, hd⟩
  · refine h.quiet sound (idle fun label t hi => ?_) fun c hc hi => ⟨c, same.trans hc, hi⟩
    cases plain _ hi
  cases d with
  | reserve =>
    have hr : m.world.reserve = .ok (r, (m.step b).world) := reserve_of_step hd
    refine h.quiet sound (idle fun label t hi => by cases top.symm.trans hi) fun c hc hi => ?_
    have other : (r : Pid) ≠ p := fun hq => by
      have none := claimed.eq_nil hr hq
      rw [hc] at none
      cases none
    exact ⟨c, (congrArg (fun u => (u :: T).flatten) (taken_other other s)).trans hc, hi⟩
  | found d =>
    refine h.quiet sound (idle fun label t hi => by cases top.symm.trans hi) fun c hc hi => ?_
    have other : d.pid ≠ p := fun hp => by
      obtain ⟨c', u, rfl, none⟩ := may hp
      obtain ⟨rfl, -⟩ := eq_of_flatten hc
      cases hi.symm.trans none
    exact ⟨c, (congrArg (fun u => (u :: T).flatten) (if_neg other)).trans hc, hi⟩
  | install q label t =>
    by_cases hq : q = p
    · obtain ⟨c', u, rfl, opens⟩ := may.1 hq
      subst hq
      have free := free (List.cons_ne_nil _ _)
      rcases h.held with ⟨c, hc, hi⟩ | there
      · obtain ⟨rfl, -⟩ := eq_of_flatten hc
        obtain ⟨rfl, rfl⟩ := opens.2 i hi
        refine ⟨List.forall_mem_append.2 ⟨h.by_start, List.forall_mem_singleton.2 fun _ _ => top⟩, .inr ?_⟩
        exact isSome_of_install (Progress.ofExcept_eq_next hd) free
      · rw [(ProcTable.isFree_iff.1 free).2] at there
        cases there
    · refine h.quiet sound (idle fun label' t' hi => ?_) fun c hc hi => ?_
      · exact hq (Directive.install.inj (Option.some.inj (top.symm.trans hi))).1
      · show ∃ c', ((if Directive.routes p (.install (σ := σ) q label t) then manned (left p q s)
          else left p q s) :: T).flatten = [c'] ∧ c'.program = some i
        rw [left_other hq]
        split
        · cases s with
          | nil => exact ⟨c, hc, hi⟩
          | cons c' u =>
            obtain ⟨rfl, rest⟩ := eq_of_flatten hc
            exact ⟨_, congrArg (_ :: ·) rest, hi⟩
        · exact ⟨c, hc, hi⟩
  | _ => cases establishes

end World.Opened

/-- Throughout a run the code that has founded a program will install its main process, or it is there. -/
theorem Trail.opened {m : Machine κ σ} {ms : List (Machine κ σ)} (h : Trail b m ms) (p : Pid)
    (going : m.fault = none) : ∃ L, m.Keeps (Discipline.routing p) b L ∧
      m.world.Claimed p (L.map List.length).sum ∧
      ∀ i d, m.world.founded[i]? = some d → d.pid = p → m.world.Opened p i L ms := by
  -- A name that nobody claims: what holds of every world.
  have nothing : ∀ w : World κ σ, w.Claimed p 0 := fun w => ⟨Nat.zero_le 1, nofun⟩
  induction h with
  | new config user code => exact ⟨_, Machine.keeps_load routing_steady.lawful _ code, nothing _, nofun⟩
  -- Code is loaded when the stack is empty, so no claim is left, and each program has been
  -- started by then.
  | load code _ hs hf ih =>
    obtain ⟨L, keeps, -, opened⟩ := ih hf
    obtain rfl := keeps.eq_nil hs hf
    refine ⟨_, Machine.keeps_load routing_steady.lawful _ code, nothing _, fun i d hd hp => ?_⟩
    obtain ⟨by_start, held⟩ := opened i d hd hp
    exact ⟨by_start, .inr (held.resolve_left fun ⟨c, hc, _⟩ => by cases hc)⟩
  | @step m ms h ih =>
    obtain ⟨L, keeps, claimed, opened⟩ := ih (Machine.going_of_step going)
    obtain ⟨L', keeps', goes⟩ := keeps.transition routing_steady.lawful (Machine.transition b m)
      fun _ _ _ _ _ _ _ _ _ _ _ => trivial
    have sound := h.reachable.sound
    refine ⟨L', keeps', routing_counts.claimed routing_holds sound claimed goes, fun i d hd hp => ?_⟩
    -- Either this step founds a program or the list of programs is the same, and then the claims
    -- only go on.
    rcases Machine.founded_cases b m with ⟨x, top, more⟩ | same
    · rw [more] at hd
      by_cases hi : i < m.world.founded.length
      · rw [List.getElem?_append_left hi] at hd
        exact (opened i d hd hp).goes sound going claimed goes
      · -- The program is the new one, so its name has been held, and nothing has been started under it.
        have last : i = m.world.founded.length ∧ d = x.fixed := by
          rw [List.getElem?_append_right (Nat.le_of_not_lt hi)] at hd
          obtain ⟨hlt, hx⟩ := List.getElem?_eq_some_iff.1 hd
          rw [List.length_singleton] at hlt
          refine ⟨Nat.le_antisymm (Nat.sub_eq_zero_iff_le.1 (Nat.lt_one_iff.1 hlt)) (Nat.le_of_not_lt hi), ?_⟩
          rw [← hx]
          exact List.getElem_singleton _
        obtain ⟨rfl, rfl⟩ := last
        rcases routing_steady.goes_on going goes with ⟨-, plain⟩ | ⟨s, T, d, r, rfl, rfl, top', -, may, -, hd'⟩
        · cases plain _ top
        obtain rfl := Option.some.inj (top'.symm.trans top)
        obtain ⟨c, u, rfl, -⟩ := may hp
        obtain ⟨-, free⟩ := claimed.flatten
        have free := (ProcTable.isFree_iff.1 (free (List.cons_ne_nil _ _))).2
        have index : r = m.world.founded.length := by
          obtain ⟨-, hr⟩ := Progress.next.inj hd'
          exact (Act.ret.inj hr).symm.trans (List.length_map _).symm
        refine ⟨List.forall_mem_append.2 ⟨fun m' hm' t ht => absurd ht (h.not_spawned free m' hm' t),
          List.forall_mem_singleton.2 fun t ht => ?_⟩, .inl ⟨{ c with program := some r }, ?_, ?_⟩⟩
        · rw [Machine.record_of_directive? top] at ht
          cases ht
        · have rest := claimed.alone
          have after : (Discipline.routing p).next (c :: u) (.found x : Directive κ σ) r =
              { c with program := some r } :: u := if_pos hp
          rw [after]
          exact congrArg (_ :: ·) rest
        · exact congrArg some index
    · exact (opened i d (same ▸ hd) hp).goes sound going claimed goes

/-- What is started under the name of a program's main process is the main process, and the start of the
program installs it. -/
theorem Trail.opens {m : Machine κ σ} {ms : List (Machine κ σ)} (h : Trail b m ms)
    (going : m.fault = none) {i : ProgramId} {D : RunningProgram κ} (hD : m.world.programs[i]? = some D) :
    ∀ m' ∈ ms, ∀ t, (D.pid, .spawned t) ∈ m'.record →
      m'.directive? = some (.install D.pid (some "program") (Program.listen i)) := by
  obtain ⟨L, -, -, opened⟩ := h.opened D.pid going
  exact (opened i D.fixed (founded_getElem? hD) rfl).by_start

/-! ### The place of the code that starts managers -/

/-- Managers have been started with the name that code holds. -/
def Manned (s : List Claim) : Prop :=
  ∃ c u, s = c :: u ∧ c.manned = true

theorem manned_stays : (Discipline.routing (κ := κ) (σ := σ) p).Stays b Manned where
  idle := fun ⟨_, _, h, _⟩ => by cases h
  within _ _ h := h
  settles s s' h hs := routing_steady.settles hs ▸ h
  gives s t h gives := by
    obtain ⟨c, u, rfl, -⟩ := h
    cases gives
  ends s h ends := by
    obtain ⟨c, u, rfl, -⟩ := h
    cases ends

theorem manned_manned {s : List Claim} (h : s ≠ []) : Manned (manned s) := by
  obtain ⟨c, u, rfl⟩ := List.exists_cons_of_ne_nil h
  exact ⟨_, u, rfl, rfl⟩

/-- Code that has started managers leaves its place when it installs a main process. -/
theorem Marked.installs {m : Machine κ σ} {n : Nat} {L L' : List (List Claim)} (h : Marked Manned n L)
    (claimed : m.world.Claimed p (L.map List.length).sum) (going : (m.step b).fault = none)
    (goes : (Discipline.routing p).Goes b m (m.step b) L L') :
    Marked Manned n L' ∨ ∃ i, (p, .spawned (Program.listen i)) ∈ m.record := by
  obtain ⟨-, free⟩ := claimed.flatten
  have held : L.flatten ≠ [] := by
    obtain ⟨above, s, below, rfl, ⟨c, u, rfl, -⟩, -⟩ := h
    simp
  rcases h.goes manned_stays going goes with stays | ⟨s, d, r, ⟨c, u, rfl, hm⟩, top, may, hd, leaves⟩
  · exact .inl stays
  -- Of what could undo the mark only an install under the name itself does, and that is the
  -- process asked for.
  cases d with
  | reserve =>
    have hr : m.world.reserve = .ok (r, (m.step b).world) := reserve_of_step hd
    have other : (r : Pid) ≠ p := fun hq => by
      exact held (claimed.eq_nil hr hq)
    refine absurd ⟨c, u, ?_, hm⟩ leaves
    exact taken_other other _
  | found d =>
    refine absurd ?_ leaves
    show Manned (if d.pid = p then chartered r (c :: u) else c :: u)
    split
    · exact ⟨_, u, rfl, hm⟩
    · exact ⟨c, u, rfl, hm⟩
  | install q label t =>
    by_cases hq : q = p
    · subst hq
      obtain ⟨c', u', same, opens⟩ := may.1 rfl
      obtain ⟨rfl, rfl⟩ := List.cons.inj same
      obtain ⟨i, hi⟩ := Option.ne_none_iff_exists'.1 (opens.1 hm)
      obtain ⟨-, rfl⟩ := opens.2 i hi
      refine .inr ⟨i, ?_⟩
      rw [Machine.record_of_directive? top, Directive.record, if_pos (free held)]
      exact List.mem_singleton.2 rfl
    · refine absurd ?_ leaves
      show Manned (if Directive.routes p (.install (σ := σ) q label t) then manned (left p q (c :: u))
        else left p q (c :: u))
      rw [left_other hq]
      split
      · exact manned_manned (List.cons_ne_nil c u)
      · exact ⟨c, u, rfl, hm⟩
  | _ => exact absurd ⟨c, u, rfl, hm⟩ leaves

/-- From the start of a manager on the code that has started it is marked. -/
theorem Marked.of_install {m : Machine κ σ} {L L' : List (List Claim)} {q : Pid}
    {label : Option String} {t : Task κ} (top : m.directive? = some (.install q label t))
    (routes : Directive.routes p (.install (σ := σ) q label t) = true)
    (going : (m.step b).fault = none) (goes : (Discipline.routing p).Goes b m (m.step b) L L') :
    Marked Manned (L.length - 1) L' := by
  rcases routing_steady.goes_on going goes with ⟨-, plain⟩ | ⟨s, T, d, r, rfl, rfl, top', -, may, -, -⟩
  · cases plain _ top
  obtain rfl := Option.some.inj (top'.symm.trans top)
  have after : (Discipline.routing p).next s (.install (σ := σ) q label t) r = manned (left p q s) := if_pos routes
  rw [after]
  exact .head (manned_manned (may.2 routes)) rfl

/-- From the start of a manager on there is a main process for its messages, or the code that has started
the manager is still under way, in its place on the stack, and there is no such process. -/
theorem Trail.appoints {m m₁ : Machine κ σ} {ms : List (Machine κ σ)} (h : Trail b m ms)
    (before : m₁ ∈ ms) {q : Pid} {label : Option String} {t : Task κ}
    (top : m₁.directive? = some (.install q label t))
    (routes : Directive.routes p (.install (σ := σ) q label t) = true) {a : Activity κ σ}
    {below : List (Activity κ σ)} (stack : m₁.stack = a :: below) (going : m.fault = none) :
    (∃ i, .spawned (Program.listen i) ∈ Record.of (ms.flatMap Machine.record) p) ∨
      m.world.procs.get? p = none ∧ m.Appoints below a := by
  -- The claim on the name is the invariant: as long as it is held the name is free.
  suffices (∃ i, .spawned (Program.listen i) ∈ Record.of (ms.flatMap Machine.record) p) ∨
      ∃ L, m.Keeps (Discipline.routing p) b L ∧ m.world.Claimed p (L.map List.length).sum ∧
        Marked Manned below.length L ∧ m.Appoints below a by
    rcases this with spawned | ⟨L, -, claimed, ⟨above, s, under, rfl, ⟨c, u, rfl, -⟩, -⟩, appoints⟩
    · exact .inl spawned
    · exact .inr ⟨(ProcTable.isFree_iff.1 (claimed.flatten.2 (by simp))).2, appoints⟩
  induction h with
  | new config user code => cases before
  | load code h hs hf ih =>
    rcases ih before hf with spawned | ⟨L, -, -, -, above, a', stack', -⟩
    · exact .inl spawned
    · rw [hs] at stack'
      -- The code under way cannot be gone before it installs the process, so the stack is not
      -- empty.
      cases above <;> cases stack'
  | @step m ms h ih =>
    rw [List.flatMap_append, List.flatMap_singleton, Record.of_append]
    have sound := h.reachable.sound
    rcases List.mem_append.1 before with before | last
    · rcases ih before (Machine.going_of_step going) with ⟨i, hi⟩ | ⟨L, keeps, claimed, marked, appoints⟩
      · exact .inl ⟨i, List.mem_append_left _ hi⟩
      obtain ⟨L', keeps', goes⟩ := keeps.transition routing_steady.lawful (Machine.transition b m)
        fun _ _ _ _ _ _ _ _ _ _ _ => trivial
      rcases marked.installs claimed going goes with marked' | ⟨i, hi⟩
      · exact .inr ⟨L', keeps', routing_counts.claimed routing_holds sound claimed goes, marked',
          appoints.step keeps manned_stays marked going⟩
      · exact .inl ⟨i, List.mem_append_right _ (Record.mem_of.2 hi)⟩
    · obtain rfl := List.mem_singleton.1 last
      obtain ⟨L, keeps, claimed⟩ := h.routed p
      obtain ⟨L', keeps', goes⟩ := keeps.transition routing_steady.lawful (Machine.transition b m₁)
        fun _ _ _ _ _ _ _ _ _ _ _ => trivial
      have depth : L.length - 1 = below.length := by
        rw [(keeps (Machine.going_of_step going)).length_eq, stack, List.length_cons, Nat.add_sub_cancel]
      exact .inr ⟨L', keeps', routing_counts.claimed routing_holds sound claimed goes,
        depth ▸ Marked.of_install top routes going goes, Machine.appoints_of_directive? top stack going⟩

/-- What is under way of a process belongs to one that has been started. -/
theorem Reachable.isSome_of_concerns {m : Machine κ σ} (h : Reachable b m) (going : m.fault = none)
    {q : Pid} (mine : 0 < under q m.stack) : (m.world.procs.get? q).isSome = true := by
  induction h with
  | new config user code => cases mine
  | load code => cases mine
  | @step m h ih =>
    have ih := ih (Machine.going_of_step going)
    have tr := Machine.transition b m
    refine Machine.isSome_step h.sound ?_
    by_cases moved : ∃ mv, (q, .moved mv) ∈ m.record
    · obtain ⟨mv, hm⟩ := moved
      obtain ⟨x, hx, -⟩ := tr.of_moved hm
      rw [hx]
      rfl
    rcases tr.under_way going (not_exists.1 moved) with same | ⟨a, s, stack, returns⟩
    · exact ih (same ▸ mine)
    · refine ih ?_
      rw [stack]
      exact List.countP_pos_iff.2 ⟨a, List.mem_cons_self, by cases returns <;> exact decide_eq_true rfl⟩

/-! ### Messages of managers -/

/-- Who the topmost activity is about. -/
def Machine.acts? (m : Machine κ σ) : Option Pid :=
  m.stack.head?.bind concerns?

namespace Machine

variable {m : Machine κ σ} {q : Pid}

theorem going_of_directive? {d : Directive κ σ} (h : m.directive? = some d) : m.fault = none := by
  obtain ⟨α, w, fr, k, s, rfl⟩ := eq_of_directive? h
  rfl

/-- The activity on top of the stack, if it is about a process. -/
theorem of_acts? (h : m.acts? = some q) : ∃ a s, m.stack = a :: s ∧ a.concerns? = some q := by
  obtain ⟨a, ha, hq⟩ := Option.bind_eq_some_iff.1 h
  obtain ⟨s, hs⟩ := List.head?_eq_some_iff.1 ha
  exact ⟨a, s, hs, hq⟩

theorem under_of_acts? (h : m.acts? = some q) : 0 < under q m.stack := by
  obtain ⟨a, s, stack, hq⟩ := of_acts? h
  rw [stack]
  exact List.countP_pos_iff.2 ⟨a, List.mem_cons_self, decide_eq_true hq⟩

/-- The code of a process runs in a tick. -/
theorem ticksOf_of_acts? (h : m.acts? = some q) : 0 < ticksOf m.stack := by
  obtain ⟨a, s, stack, hq⟩ := of_acts? h
  rw [stack]
  cases a with
  | tick n k phase => exact Nat.lt_of_lt_of_eq (Nat.succ_pos _) (ticksOf_tick n k phase s).symm
  | _ => cases hq

end Machine

/-- A message that reaches a process is put behind the others in its mailbox. -/
theorem Machine.mailbox_of_sent {m : Machine κ σ} (sound : m.Sound) {v : Value κ}
    (sent : m.record = [(p, .sent v)]) : ∃ x y, m.world.procs.get? p = some x ∧
      (m.step b).world.procs.get? p = some y ∧ y.mailbox = x.mailbox ++ [v] := by
  have life := (transition b m).life sound p
  rw [sent, Record.of_singleton, if_pos rfl] at life
  have leads := life.leads
  generalize ho : m.world.bare p = o at leads
  generalize ho' : (m.step b).world.bare p = o' at leads
  cases leads with
  | sent v alive =>
    obtain ⟨x, hx, rfl⟩ := Option.map_eq_some_iff.1 ho
    obtain ⟨y, hy, same⟩ := Option.map_eq_some_iff.1 ho'
    exact ⟨x, y, hx, hy, congrArg Proc.mailbox same⟩

/-- From the start of a manager on, until its program's main process is killed, the messages that the
manager sends to its program are put into the mailbox of that process. Only before there is such a
process they are lost; then the start of the program waits for a drive of the host that something it
has called has asked for. -/
theorem Trail.routes {m m₁ : Machine κ σ} {ms : List (Machine κ σ)} (h : Trail b m ms)
    (before : m₁ ∈ ms) {q : Pid} {label : String} {t : Task κ} {m₀ : Post κ}
    (started : m₁.directive? = some (.install q (some label) (.andThen t (.managerReady m₀))))
    {v : Value κ} (sends : m.directive? = some (.request (.send m₀.router.app v)))
    (sender : m.acts? = some q)
    (spared : .killed ∉ Record.of (ms.flatMap Machine.record) m₀.router.app) :
    (m.record = [(m₀.router.app, .sent v)] ∧ ∃ x y, m.world.procs.get? m₀.router.app = some x ∧
        (m.step b).world.procs.get? m₀.router.app = some y ∧ y.mailbox = x.mailbox ++ [v]) ∨
      m.world.procs.get? m₀.router.app = none ∧ ∃ above a, m.stack = above ++ a :: m₁.stack.tail ∧
        above ≠ [] ∧ a.isWaiting = true ∧ a.concerns? = m₁.acts? := by
  have going := Machine.going_of_directive? sends
  have here := h.reachable.reachable_of_tick going (Machine.ticksOf_of_acts? sender)
  obtain ⟨a₁, s, top⟩ : ∃ a₁ s, m₁.stack = a₁ :: s := by
    obtain ⟨α, w, fr, k, s, rfl⟩ := Machine.eq_of_directive? started
    exact ⟨_, s, rfl⟩
  have acts : m₁.acts? = a₁.concerns? := by rw [Machine.acts?, top]; rfl
  rw [top, List.tail_cons, acts]
  rcases h.appoints before started (decide_eq_true rfl) top going with
    ⟨i, main⟩ | ⟨none, above, a, stack, akin⟩
  · left
    have alive := h.history.listens main spared
    have sent : m.record = [(m₀.router.app, .sent v)] := by
      rw [Machine.record_of_directive? sends, Directive.record, Request.record, if_pos here, alive]
      rfl
    exact ⟨sent, Machine.mailbox_of_sent h.reachable.sound sent⟩
  · right
    have other : above ≠ [] := by
      -- The manager did not exist when its start was under way, so this is not its own code.
      rintro rfl
      have same : m₁.acts? = some q := by
        rw [acts, ← akin.concerns?, ← sender, Machine.acts?, stack]
        rfl
      have reachable := h.reachable_of_mem before
      obtain ⟨ms₁, trail⟩ := reachable.trail
      have there := reachable.isSome_of_concerns (Machine.going_of_directive? started)
        (Machine.under_of_acts? same)
      rw [(ProcTable.isFree_iff.1 (trail.free_of_install started)).2] at there
      cases there
    obtain ⟨x, above, rfl⟩ := List.exists_cons_of_ne_nil other
    have fit := h.reachable.proper going
    rw [stack] at fit
    have waits := (fit.2 a (List.mem_append_right _ List.mem_cons_self)).1
    exact ⟨none, x :: above, a, stack, other, waits, akin.concerns?⟩

/-- A manager that, before anything else, sends itself what makes it send something to its program; and a
program that lets the host run in `init`, or does not. -/
def forward (drives : Bool) : Behaviour Unit Unit :=
  { Behaviour.ofCallbacks fun _ v =>
      match v with
      | .pid p => .native (.send p (.internal .unit))
      | _ => .succeed .unit with
    manager := fun _ =>
      { kind := .both
        state := .unit
        init := .ret (.andThen (.native .this) (.code ()))
        onEffects := fun _ _ _ s => .ret (.succeed s)
        onMessage := fun r _ s => .ret (.andThen (.native (.send r.app .unit)) (.replace s))
        mapCommand := fun _ v => .ret v
        mapSubscription := fun _ v => .ret v }
    application := fun _ =>
      { message := .unit
        managers := [(.tasks, .custom ())]
        init :=
          if drives then (Code.ask (.drive .idle)).bind fun _ => .ret (.unit, .node [])
          else .ret (.unit, .node [])
        update := fun _ model => .ret (model, .node [])
        subscriptions := fun _ => .ret (.node [])
        render := fun _ => .ret () } }

/-- The program is started, and then the host runs. -/
def forwarded : Machine Unit Unit :=
  let code : Code Unit Unit Unit :=
    (Code.ask (.start ())).bind fun _ => (Code.ask (.drive .idle)).bind fun _ => .ret ()
  .load (.new .standard ()) (Procedure.ofCode code)

/-- If `init` lets the host run, the manager's message comes before there is a main process, and is lost. -/
theorem forward_lost : ∃ m m₁ ms t, Trail (forward true) m ms ∧ m₁ ∈ ms ∧
    m₁.directive? = some (.install ⟨2⟩ (some Home.tasks.name)
      (.andThen t (.managerReady ⟨.custom (), ⟨⟨1⟩, ⟨2⟩⟩⟩))) ∧
    m.directive? = some (.request (.send ⟨1⟩ .unit)) ∧ m.acts? = some ⟨2⟩ ∧
    .killed ∉ Record.of (ms.flatMap Machine.record) ⟨1⟩ ∧
    m.record = [(⟨1⟩, .dropped .unit)] ∧
    (Machine.run (forward true) 20 m).world.procs.isAlive ⟨1⟩ = true := by
  have begin : Trail (forward true) forwarded [] := .new _ _ _
  have none : Record.of ((Machine.passed (forward true) 39 forwarded).flatMap Machine.record) ⟨1⟩ =
      [] := rfl
  refine ⟨Machine.run (forward true) 39 forwarded, Machine.run (forward true) 8 forwarded, _, _,
    begin.run 39, ?_, rfl, rfl, rfl, ?_, rfl, rfl⟩
  · exact List.mem_of_getElem? (i := 8) rfl
  · rw [List.nil_append, none]
    exact List.not_mem_nil

/-- Otherwise it arrives. -/
theorem forward_arrives :
    (Machine.run (forward false) 60 forwarded).record = [(⟨1⟩, .sent .unit)] := by
  have begin : Trail (forward false) forwarded [] := .new _ _ _
  have h : Trail (forward false) (Machine.run (forward false) 60 forwarded)
      (Machine.passed (forward false) 60 forwarded) := begin.run 60
  have record : Record.of ((Machine.passed (forward false) 60 forwarded).flatMap Machine.record) ⟨1⟩ =
      [.spawned (Program.listen 0)] := rfl
  have before : Machine.run (forward false) 8 forwarded ∈ Machine.passed (forward false) 60 forwarded :=
    List.mem_of_getElem? (i := 8) rfl
  have there : (Machine.run (forward false) 60 forwarded).world.procs.get? ⟨1⟩ ≠ none := nofun
  have started : (Machine.run (forward false) 8 forwarded).directive? = some (.install ⟨2⟩
      (some Home.tasks.name) (.andThen (.andThen (.native .this) (.code ()))
        (.managerReady ⟨.custom (), ⟨⟨1⟩, ⟨2⟩⟩⟩))) := rfl
  rcases h.routes before started (v := .unit) rfl rfl (by rw [record]; simp) with ⟨sent, -⟩ | ⟨none, -⟩
  · exact sent
  · exact absurd none there

end Actors
