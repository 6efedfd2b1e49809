/-
From commands to messages.

The commands of a cycle reach the built-in manager in the order in which they stand in the tree. It starts a
worker for each of them, and the worker, when its task has come to an outcome, reports that to the program.

* `EffectTree.Performs` — trees of commands of the two kinds;
* `Round.workers`, `Round.Fair.jobs` — the workers for the commands of a cycle;
* `Machine.Asks` — what has reached the built-in manager in a run;
* `Trail.delivers` — what becomes of it.
-/
import Actors.Proofs.Appointment
import Actors.Proofs.Dispatch
import Actors.Proofs.Errands

namespace Actors

variable {κ σ : Type} {b : Behaviour κ σ} {D : RunningProgram κ}

/-! ### Trees of commands -/

/-- A tree with commands of the two kinds for the built-in manager, in any nesting: the errands that they are,
from left to right. -/
inductive EffectTree.Performs : List (Tagger κ) → EffectTree κ → List (Errand κ) → Prop where
  | perform (chain : List (Tagger κ)) (t : Task κ) (c : κ) :
      Performs chain (.ofTask (t.perform c)) [⟨false, t, c, chain⟩]
  | attempt (chain : List (Tagger κ)) (t : Task κ) (c : κ) :
      Performs chain (.ofTask (t.attempt c)) [⟨true, t, c, chain⟩]
  | other (chain : List (Tagger κ)) {home : Home} (other : home ≠ .tasks) (v : Value κ) :
      Performs chain (.leaf home v) []
  | nil (chain : List (Tagger κ)) : Performs chain (.node []) []
  | cons {chain : List (Tagger κ)} {t : EffectTree κ} {ts : List (EffectTree κ)} {es es' : List (Errand κ)}
      (first : Performs chain t es) (rest : Performs chain (.node ts) es') : Performs chain (.node (t :: ts)) (es ++ es')
  | map {chain : List (Tagger κ)} {tagger : Tagger κ} {inner : EffectTree κ} {es : List (Errand κ)}
      (inside : Performs (tagger :: chain) inner es) : Performs chain (.map tagger inner) es

theorem EffectTree.Performs.orders_eq {chain : List (Tagger κ)} {t : EffectTree κ} {es : List (Errand κ)}
    (h : Performs chain t es) : t.orders chain = es.map Errand.order := by
  induction h with
  | perform chain t c => rfl
  | attempt chain t c => rfl
  | other chain other v => rw [orders, if_neg other]; rfl
  | nil chain => rfl
  | cons first rest ih ih' =>
    rw [orders] at ih'
    rw [orders, ordersAll, ih, ih', List.map_append]
  | map inside ih => rw [orders, ih]

/-! ### The workers of a cycle -/

/-- The workers for the commands of a cycle. -/
def Round.workers (app : Pid) (r : Round κ) : List (Task κ) :=
  (r.cmds.orders []).map (Order.worker app)

/-- For commands of the two kinds these are the workers of the errands. -/
theorem Round.workers_eq (app : Pid) {r : Round κ} {es : List (Errand κ)} (h : r.cmds.Performs [] es) :
    r.workers app = es.map fun e => e.order.worker app := by
  rw [workers, h.orders_eq, List.map_map]
  rfl

/-- The built-in manager's share of a cycle asks for these. -/
theorem Round.jobs_gathered (app : Pid) {r : Round κ} (builtIn : D.registry.find? .tasks = some .tasks)
    {cs : List (Home × Value κ)} (cmds : EffectTree.Maps b D.registry .command [] r.cmds cs)
    (ss : List (Home × Value κ)) : Manager.jobs app (Share.gathered cs ss .tasks).message = r.workers app := by
  rw [Share.message, Share.gathered, cmds.orders builtIn, Manager.jobs_orders]
  rfl

/-- What the built-in manager has been sent in a cycle is nothing, or it asks for the workers of the cycle. -/
theorem Round.Fair.jobs {r : Round κ} {posts : List ((Home × Pid) × Share κ)} (h : r.Fair b D posts) (app : Pid)
    (builtIn : D.registry.find? .tasks = some .tasks) (nodup : D.staff.Nodup) {p : Pid}
    (mem : (Home.tasks, p) ∈ D.managers) :
    (postsTo p posts = [] ∨ (postsTo p posts).flatMap (Manager.jobs app) = r.workers app) ∧
      (posts.length = D.managers.length → (postsTo p posts).flatMap (Manager.jobs app) = r.workers app) := by
  obtain ⟨cs, ss, cmds, -, same⟩ := h
  generalize posts.length = n at same ⊢
  subst same
  have first : (D.managers.take n).Sublist D.managers := List.take_sublist _ _
  have served : (Home.tasks, p) ∈ D.managers.take n →
      (postsTo p ((D.managers.take n).map fun e => (e, Share.gathered cs ss e.1))).flatMap (Manager.jobs app) =
        r.workers app := fun there => by
    rw [postsTo_map (nodup.sublist (first.map Prod.snd)) there, List.flatMap_singleton]
    exact jobs_gathered app builtIn cmds ss
  by_cases there : (Home.tasks, p) ∈ D.managers.take n
  · exact ⟨.inr (served there), fun _ => served there⟩
  · refine ⟨.inl (List.filterMap_eq_nil_iff.2 fun x hx => if_neg fun same => there ?_), fun all => ?_⟩
    · obtain ⟨e, he, rfl⟩ := List.mem_map.1 hx
      -- No other manager has this process.
      obtain rfl : e = (Home.tasks, p) := List.inj_on_of_nodup_map nodup (first.subset he) mem same
      exact he
    · rw [all, List.take_length] at there
      exact absurd mem there

/-! ### Runs -/

/-- What a program has asked of its built-in manager in a run: the commands of these cycles, and maybe those of
one more that is under way. -/
structure Machine.Asks (b : Behaviour κ σ) (D : RunningProgram κ) (p : Pid) (rs : List (Round κ))
    (next : Option (Round κ)) (m : Machine κ σ) (ms : List (Machine κ σ)) : Prop where
  rounds : Rounds b D rs
  follows : ∀ r ∈ next, r.Follows b D rs
  between : m.Between D → next = none ∧ rs.length = D.updates + 1
  kept : (arrivedAt p ms).Sublist (Record.of (ms.flatMap Machine.record) p).accepted
  /-- As long as the manager is alive, the commands of all cycles that are over have reached it. -/
  all : m.world.procs.isAlive p = true →
    rs.flatMap (Round.workers D.pid) <+: (arrivedAt p ms).flatMap (Manager.jobs D.pid)
  /-- Nothing else has. -/
  only : (arrivedAt p ms).flatMap (Manager.jobs D.pid) <+: (rs ++ next.toList).flatMap (Round.workers D.pid)

namespace Trail

variable {m : Machine κ σ} {ms : List (Machine κ σ)} {i : ProgramId}

/-- The commands of the cycles reach the built-in manager, each of them once, and in their order. -/
theorem asks (h : Trail b m ms) (going : m.fault = none) (hD : m.world.programs[i]? = some D)
    (builtIn : D.registry.find? .tasks = some .tasks) {p : Pid} (mem : (Home.tasks, p) ∈ D.managers)
    (own : Private i D ms) : ∃ rs next, m.Asks b D p rs next ms := by
  have manages := h.manages hD
  obtain ⟨⟨rs, c⟩, L, n, plays⟩ := h.plays going (h.readies going hD own)
  have agrees := plays.agrees
  have rounds : Rounds b D rs := agrees.fits.rounds
  obtain ⟨all, first⟩ := agrees.reaches (List.mem_map.2 ⟨_, mem, rfl⟩)
  have jobs : (rs.flatMap fun r => postsTo p r.posts).flatMap (Manager.jobs D.pid) =
      rs.flatMap (Round.workers D.pid) := by
    rw [List.flatMap_assoc]
    refine List.flatMap_congr fun r hr => ?_
    obtain ⟨fair, length⟩ := rounds.complete r hr
    exact (fair.jobs D.pid builtIn manages.nodup mem).2 length
  -- The cycle under way counts only if it has sent its share to the manager; a share is sent
  -- whole.
  obtain ⟨next, follows, between, part⟩ : ∃ next : Option (Round κ), (∀ r ∈ next, r.Follows b D rs) ∧
      (m.Between D → next = none) ∧
      (postsTo p c.posts).flatMap (Manager.jobs D.pid) <+: next.toList.flatMap (Round.workers D.pid) := by
    rcases agrees.fits.part with nothing | ⟨r, follows, fair⟩
    · exact ⟨none, nofun, fun _ => rfl, by rw [nothing]; exact List.nil_prefix⟩
    · by_cases between : m.Between D
      · obtain rfl : c = .free := plays.free between
        exact ⟨none, nofun, fun _ => rfl, List.nil_prefix⟩
      · refine ⟨some r, fun r' hr => Option.mem_some_iff.1 hr ▸ follows, fun not => absurd not between, ?_⟩
        rw [Option.toList_some, List.flatMap_singleton]
        rcases (fair.jobs D.pid builtIn manages.nodup mem).1 with nothing | whole
        · rw [nothing]
          exact List.nil_prefix
        · exact whole ▸ List.prefix_rfl
  have flat : ∀ {vs ws : List (Value κ)}, vs <+: ws →
      vs.flatMap (Manager.jobs D.pid) <+: ws.flatMap (Manager.jobs D.pid) := by
    rintro vs _ ⟨ws, rfl⟩
    rw [List.flatMap_append]
    exact List.prefix_append _ _
  refine ⟨rs, next, rounds, follows, fun free => ⟨between free, ?_⟩, arrivedAt_sublist p ms, fun alive => ?_, ?_⟩
  · obtain rfl : c = .free := plays.free free
    exact (agrees.between hD).1
  · rw [all alive, List.flatMap_append, jobs]
    exact List.prefix_append _ _
  · refine (flat first).trans ?_
    rw [List.flatMap_append, jobs, List.flatMap_append]
    exact (List.prefix_append_right_inj _).2 part

end Trail

/-- If nothing else asks the manager for workers, those that it starts are the workers of the cycles. -/
theorem Machine.Asks.hired {m : Machine κ σ} {ms : List (Machine κ σ)} {p : Pid} {rs : List (Round κ)}
    {next : Option (Round κ)} (asks : m.Asks b D p rs next ms) (hires : m.Hires D.pid p ms)
    (alone : (Record.of (ms.flatMap Machine.record) p).accepted.flatMap (Manager.jobs D.pid) =
      (arrivedAt p ms).flatMap (Manager.jobs D.pid)) :
    (hired p ms).map Prod.snd <+: (rs ++ next.toList).flatMap (Round.workers D.pid) ∧
      (m.world.procs.isAlive p = true →
        m.Awake p ∨ rs.flatMap (Round.workers D.pid) <+: (hired p ms).map Prod.snd) := by
  obtain ⟨inOrder, all, -⟩ := hires
  rw [alone] at inOrder all
  refine ⟨inOrder.trans asks.only, fun alive => (all alive).imp_right fun same => ?_⟩
  rw [same]
  exact asks.all alive

/-- Every program with the built-in manager hears of its commands. The commands of its cycles reach the manager
in the order in which they stand in the trees, and nothing else does that the program sends it. The manager
starts one worker for each command that reaches it, in this order and under ascending names, without waiting
for any of them. The worker does what the task of the command does, until the task comes to an outcome. From
then on nothing holds it up: after a few deeds it has exited, and before that it has sent the program one message,
with what the function of the command and then the taggers, the innermost first, have made of the outcome. It has
sent none if the task has failed and the program does not want to hear of failures. All this is so for every
command, whatever becomes of the others. -/
theorem Trail.delivers {m : Machine κ σ} {ms : List (Machine κ σ)} {i : ProgramId} (h : Trail b m ms)
    (going : m.fault = none) (hD : m.world.programs[i]? = some D)
    (builtIn : D.registry.find? .tasks = some .tasks) :
    ∃ p, (Home.tasks, p) ∈ D.managers ∧ m.Hires D.pid p ms ∧
      (Private i D ms → ∃ rs next, m.Asks b D p rs next ms ∧
        (∀ r ∈ rs ++ next.toList, ∀ es, r.cmds.Performs [] es →
          r.workers D.pid = es.map fun e => e.order.worker D.pid) ∧
        ((Record.of (ms.flatMap Machine.record) p).accepted.flatMap (Manager.jobs D.pid) =
            (arrivedAt p ms).flatMap (Manager.jobs D.pid) →
          (hired p ms).map Prod.snd <+: (rs ++ next.toList).flatMap (Round.workers D.pid) ∧
            (m.world.procs.isAlive p = true →
              m.Awake p ∨ rs.flatMap (Round.workers D.pid) <+: (hired p ms).map Prod.snd))) ∧
      (∀ (e : Errand κ) (q : Pid), (q, e.order.worker D.pid) ∈ hired p ms → e.Proceeds b D.pid q m ms) ∧
      ∀ f : κ → Value κ → Value κ, (∀ c v w, (b.convert c v).Returns w → w = f c v) →
        ∀ (e : Errand κ) o u, e.Reports b o u →
          (e.argument? o).map (fun a => e.chain.foldl (fun v t => f t.code v) (f e.code a)) = some u := by
  obtain ⟨p, mem, appointed⟩ := (h.manages hD).manned.appoints builtIn
  obtain ⟨t, returns, spawned⟩ := h.appointed hD _ appointed
  obtain rfl : t = .succeed .unit := Code.returns_ret returns
  have hires := h.hires (r := ⟨D.pid, p⟩) going spawned
  refine ⟨p, mem, hires, fun own => ?_, fun e q hq => h.errand going (hires.started _ hq),
    fun f pure e o u reports => reports.eq_foldl pure⟩
  obtain ⟨rs, next, asks⟩ := h.asks going hD builtIn mem own
  exact ⟨rs, next, asks, fun r _ es performs => r.workers_eq D.pid performs, asks.hired hires⟩

/-- A program with the built-in manager and three commands: the task of the first one waits for a message that
never comes, and the others fail, which the program wants to hear of the second one only. -/
def telling : Behaviour Bool Unit :=
  { Behaviour.ofCallbacks fun _ v => .succeed v with
    convert := fun c v => .ret (.list [.bool c, v])
    application := fun _ =>
      { message := .list
        managers := [(.tasks, .tasks)]
        init := .ret (.list [], .map (.raw false) (.node [
          .ofTask ((Task.receive (.code true)).perform true),
          .map (.typed .list false) (.ofTask ((Task.fail (.int 2)).attempt true)),
          .ofTask ((Task.fail (.int 3)).perform true)]))
        update := fun v _ => .ret (v, .none)
        subscriptions := fun _ => .ret .none
        render := fun _ => .ret () } }

/-- The program is started. -/
def told : Machine Bool Unit :=
  let code : Code Bool Unit Unit :=
    (Code.ask (.start true)).bind fun _ => (Code.ask (.drive .idle)).bind fun _ => .ret ()
  .load (.new .standard ()) (Procedure.ofCode code)

/-- What the program hears of its second command. -/
def tidings : Value Bool :=
  .list [.bool false, .list [.bool false, .list [.bool true, .err (.int 2)]]]

/-- The program when it has heard of it. -/
def teller : RunningProgram Bool :=
  ⟨⟨1⟩, true, Registry.empty.add .tasks .tasks rfl, [(.tasks, ⟨2⟩)], some tidings, 1⟩

set_option maxRecDepth 2000 in
/-- The workers are started in the order of the commands. The first one is still there, the second one has sent
its message, and the third one has exited without a message. -/
theorem told_delivers : ∃ m ms, Trail telling m ms ∧ m.fault = none ∧ m.world.programs[0]? = some teller ∧
    (hired ⟨2⟩ ms).map Prod.fst = [⟨3⟩, ⟨4⟩, ⟨5⟩] ∧ m.world.procs.isAlive ⟨3⟩ = true ∧
    (∃ rs next, m.Asks telling teller ⟨2⟩ rs next ms ∧
      (hired ⟨2⟩ ms).map Prod.snd <+: (rs ++ next.toList).flatMap (Round.workers ⟨1⟩)) ∧
    (∃ since, since <:+ ms ∧ since.filterMap (Machine.performed? ⟨4⟩) = [.send ⟨1⟩ tidings]) ∧
    ∃ since, since <:+ ms ∧ since.filterMap (Machine.performed? ⟨5⟩) = [] := by
  have begin : Trail telling told [] := .new _ _ _
  have h := begin.run 141
  rw [List.nil_append] at h
  have own : Private 0 teller (Machine.passed telling 141 told) := by decide +kernel
  have pure : ∀ c v w, (telling.convert c v).Returns w → w = .list [.bool c, v] :=
    fun c v w returns => Code.returns_ret returns
  have hD : (Machine.run telling 141 told).world.programs[0]? = some teller := rfl
  obtain ⟨p, mem, hires, asked, workers, messages⟩ := h.delivers rfl hD rfl
  obtain rfl : p = ⟨2⟩ := congrArg Prod.snd (List.mem_singleton.1 mem)
  obtain ⟨rs, next, asks, -, started⟩ := asked own
  have spared : ∀ {q : Pid} {t : Task Bool},
      (Record.of ((Machine.passed telling 141 told).flatMap Machine.record) q).filter (fun d => !d.isAct) =
        [.spawned t] → .killed ∉ Record.of ((Machine.passed telling 141 told).flatMap Machine.record) q := by
    intro q t deeds killed
    have one : Deed.killed ∈ [Deed.spawned t] := deeds ▸ List.mem_filter.2 ⟨killed, rfl⟩
    cases List.mem_singleton.1 one
  refine ⟨_, _, h, rfl, hD, rfl, rfl, ⟨rs, next, asks, (started rfl).1⟩, ?_, ?_⟩
  · have proceeds := workers ⟨true, .fail (.int 2), true, [.typed .list false, .raw false]⟩ ⟨4⟩
      (List.mem_cons_of_mem _ List.mem_cons_self)
    obtain ⟨past, m₁, during, o, split, ends, ended⟩ := proceeds.exited rfl (spared rfl)
    obtain ⟨⟨work, -, results⟩, -⟩ := ends
    obtain ⟨-, rfl⟩ := Task.Results.of_outcome (o := .error (.int 2)) results
    rcases ended with ⟨u, reports, sent⟩ | ⟨silent, -⟩
    · obtain rfl : tidings = u := Option.some.inj (messages _ pure _ _ u reports)
      exact ⟨m₁ :: during, ⟨past, split.symm⟩, sent⟩
    · cases silent
  · have proceeds := workers ⟨false, .fail (.int 3), true, [.raw false]⟩ ⟨5⟩
      (List.mem_cons_of_mem _ (List.mem_cons_of_mem _ List.mem_cons_self))
    obtain ⟨past, m₁, during, o, split, ends, ended⟩ := proceeds.exited rfl (spared rfl)
    obtain ⟨⟨work, -, results⟩, -⟩ := ends
    obtain ⟨-, rfl⟩ := Task.Results.of_outcome (o := .error (.int 3)) results
    rcases ended with ⟨u, ⟨a, w, given, -⟩, -⟩ | ⟨-, none⟩
    · cases given
    · exact ⟨m₁ :: during, ⟨past, split.symm⟩, none⟩

end Actors
