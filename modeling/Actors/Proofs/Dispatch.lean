/-
What a program hands out to its managers.

In every cycle each manager is sent one message, in the order in which the managers have been registered. The
message has what the leaves under the manager's home have come to, those of the commands and those of the
subscriptions, and it is sent even if there are none. All messages of a cycle together have all its leaves.

* `Round.Shared` — what is handed out in a cycle;
* `Machine.arrivals_sublist` — what has arrived as a share has been accepted by the mailbox;
* `Trail.dispatches` — what has arrived in a run.
-/
import Actors.Proofs.Updates

namespace Actors

variable {κ σ : Type} {b : Behaviour κ σ} {i : ProgramId} {D : RunningProgram κ}

/-! ### One cycle -/

/-- The message in which a share is sent. -/
def Share.message (e : Share κ) : Value κ :=
  .effects e.cmds e.subs

/-- In a cycle every manager is sent one message, with what the leaves under its home have come to, and all
messages together have all leaves. -/
structure Round.Shared (b : Behaviour κ σ) (D : RunningProgram κ) (r : Round κ) (cs ss : List (Home × Value κ)) :
    Prop where
  cmds : EffectTree.Maps b D.registry .command [] r.cmds cs
  subs : EffectTree.Maps b D.registry .subscription [] r.subs ss
  inOrder : r.posts = D.managers.map fun e => (e, Share.gathered cs ss e.1)
  one : ∀ e ∈ D.managers, postsTo e.2 r.posts = [(Share.gathered cs ss e.1).message]
  allCmds : (D.managers.map fun e => (Share.gathered cs ss e.1).cmds.length).sum = r.cmds.leaves
  allSubs : (D.managers.map fun e => (Share.gathered cs ss e.1).subs.length).sum = r.subs.leaves

/-- If no process is a manager twice, every manager is sent one message. -/
theorem postsTo_map {managers : List (Home × Pid)} (nodup : (managers.map Prod.snd).Nodup) {e : Home × Pid}
    (mem : e ∈ managers) (share : Home × Pid → Share κ) :
    postsTo e.2 (managers.map fun e => (e, share e)) = [(share e).message] := by
  induction managers with
  | nil => cases mem
  | cons m managers ih =>
    obtain ⟨fresh, nodup⟩ := List.nodup_cons.1 nodup
    have others : ∀ p ∉ managers.map Prod.snd, postsTo p (managers.map fun e => (e, share e)) = [] := by
      refine fun p hp => List.filterMap_eq_nil_iff.2 fun x hx => if_neg fun same => hp ?_
      obtain ⟨y, hy, rfl⟩ := List.mem_map.1 hx
      exact List.mem_map.2 ⟨y, hy, same⟩
    rcases List.mem_cons.1 mem with rfl | mem
    · have rest := others _ fresh
      simp only [postsTo, List.map_cons, List.filterMap_cons, if_pos] at rest ⊢
      rw [rest]
      rfl
    · have other : m.2 ≠ e.2 := fun same => fresh (same ▸ List.mem_map.2 ⟨e, mem, rfl⟩)
      have rest := ih nodup mem
      simp only [postsTo, List.map_cons, List.filterMap_cons, if_neg other] at rest ⊢
      exact rest

theorem Round.Complete.shared {r : Round κ} (h : r.Complete b D) (manned : D.Manned) (nodup : D.staff.Nodup) :
    ∃ cs ss, r.Shared b D cs ss := by
  obtain ⟨⟨cs, ss, hc, hs, posts⟩, all⟩ := h
  rw [all, List.take_length] at posts
  obtain ⟨cmds, subs⟩ := Share.sum_gathered manned.nodup hc hs
  rw [← manned.homes, List.map_map] at cmds subs
  exact ⟨cs, ss, hc, hs, posts, fun e mem => posts ▸ postsTo_map nodup mem _, cmds, subs⟩

theorem Rounds.complete {rs : List (Round κ)} (h : Rounds b D rs) : ∀ r ∈ rs, r.Complete b D := by
  induction h with
  | nil => exact fun r hr => absurd hr List.not_mem_nil
  | snoc h follows complete ih =>
    intro r hr
    rcases List.mem_append.1 hr with hr | hr
    · exact ih r hr
    · exact List.mem_singleton.1 hr ▸ complete

/-! ### What is seen of it -/

theorem Draft.beat_post (x : Draft κ) : x.beat.post? = none := by
  unfold Draft.beat
  split <;> rfl

theorem Round.beats_posts (r : Round κ) : r.beats.filterMap Beat.post? = r.posts := by
  have posts : (r.posts.map fun x => Beat.post x.1 x.2).filterMap Beat.post? = r.posts := by
    rw [List.filterMap_map]
    exact List.filterMap_some
  rw [Round.beats, List.filterMap_append, posts, List.filterMap_cons_none r.beat_post]
  rfl

theorem Station.Fits.beats_posts {rs : List (Round κ)} {st : Station κ} (h : st.Fits b D rs) :
    st.beats.filterMap Beat.post? = st.posts := by
  cases st with
  | begun v => rfl
  | ready cause => rfl
  | made x => exact List.filterMap_cons_none x.beat_post
  | drafted x => exact List.filterMap_cons_none x.beat_post
  | rendered x => exact List.filterMap_cons_none x.beat_post
  | computed r => exact r.beats_posts.trans h.2
  | placed r => exact r.beats_posts
  | posting r m => exact r.beats_posts

/-- Everything that is sent as a share is seen. -/
theorem Score.Fits.beats_posts {s : Score κ} (h : s.Fits b D) : s.beats.filterMap Beat.post? = s.posts := by
  obtain ⟨rs, c⟩ := s
  have before : (rs.flatMap Round.beats).filterMap Beat.post? = rs.flatMap fun r => r.posts := by
    rw [List.filterMap_flatMap]
    exact List.flatMap_congr fun r _ => r.beats_posts
  rw [Score.beats, Score.posts, List.filterMap_append, before]
  cases c with
  | own st => exact congrArg (_ ++ ·) (h.now st rfl).beats_posts
  | inside st =>
    have now : (st.beats ++ st.called).filterMap Beat.post? = st.posts := by
      rw [List.filterMap_append, st.called_posts, List.append_nil, (h.now st rfl).beats_posts]
    exact congrArg (_ ++ ·) now
  | _ => rfl

theorem postsTo_flatMap (p : Pid) (rs : List (Round κ)) :
    postsTo p (rs.flatMap fun r => r.posts) = rs.flatMap fun r => postsTo p r.posts :=
  List.filterMap_flatMap

/-! ### Runs -/

/-- What has arrived as a share has been accepted by the mailbox. -/
theorem arrivedAt_sublist (p : Pid) (ms : List (Machine κ σ)) :
    (arrivedAt p ms).Sublist (Record.of (ms.flatMap Machine.record) p).accepted := by
  induction ms using List.reverseRecOn with
  | nil => exact List.Sublist.refl _
  | append_singleton ms m ih =>
    rw [arrivedAt_snoc, List.flatMap_append, List.flatMap_singleton, Record.of_append, Deeds.accepted,
      List.filterMap_append]
    refine ih.append ?_
    unfold Machine.arrivals
    split
    · exact List.Sublist.refl _
    · exact List.nil_sublist _

/-- The shares that have been sent in a cycle that is under way. -/
theorem Score.Fits.part {rs : List (Round κ)} {c : Stance κ} (h : Score.Fits b D ⟨rs, c⟩) :
    c.posts = [] ∨ ∃ r : Round κ, r.Follows b D rs ∧ r.Fair b D c.posts := by
  cases hc : c.station? with
  | none => exact .inl (by rw [Stance.posts, hc]; rfl)
  | some st =>
    have fits := h.now st hc
    have posts : c.posts = st.posts := by rw [Stance.posts, hc]; rfl
    rw [posts]
    cases st with
    | placed r => exact fits.2.imp id fun fair => ⟨r, fits.1, fair⟩
    | posting r e => exact fits.2.1.imp id fun fair => ⟨r, fits.1, fair⟩
    | _ => exact .inl rfl

/-- What has been sent to a manager arrives in its mailbox, as long as it is alive. -/
theorem Score.Agrees.reaches {m : Machine κ σ} {ms : List (Machine κ σ)} {rs : List (Round κ)} {c : Stance κ}
    (h : Score.Agrees b i D m ms ⟨rs, c⟩) {p : Pid} (staff : p ∈ D.staff) :
    (m.world.procs.isAlive p = true →
        arrivedAt p ms = rs.flatMap (fun r => postsTo p r.posts) ++ postsTo p c.posts) ∧
      arrivedAt p ms <+: rs.flatMap (fun r => postsTo p r.posts) ++ postsTo p c.posts := by
  have sent : postsTo p (Score.posts ⟨rs, c⟩) = rs.flatMap (fun r => postsTo p r.posts) ++ postsTo p c.posts :=
    (postsTo_append p _ _).trans (congrArg (· ++ _) (postsTo_flatMap p rs))
  rw [← sent]
  rcases h.arrived p staff with all | ⟨first, x, hx, dead⟩
  · exact ⟨fun _ => all, all ▸ List.prefix_rfl⟩
  · refine ⟨fun alive => ?_, first⟩
    rw [World.isAlive_of_get? hx, dead] at alive
    cases alive

/-- What a program hands out to its managers. There are cycles that follow each other, and maybe one more that
is under way. In each of them every manager has been sent one message, in the order in which the managers have
been registered, with what the leaves under its home have come to, from left to right; together the messages
have all leaves. In the cycle that is under way this is so for the managers that come first. Nothing else is
sent to the managers as a share, and what is sent to a manager arrives in its mailbox, in this order, as long as
the manager is alive. A manager that is dead receives nothing. -/
theorem Trail.dispatches {m : Machine κ σ} {ms : List (Machine κ σ)} (h : Trail b m ms) (going : m.fault = none)
    (hD : m.world.programs[i]? = some D) (own : Private i D ms) :
    D.managers.map Prod.fst = D.registry.homes ∧ D.staff.Nodup ∧
    ∃ rs part, Rounds b D rs ∧ (beatsOf i D ms).filterMap Beat.post? = rs.flatMap (fun r => r.posts) ++ part ∧
      (∀ r ∈ rs, ∃ cs ss, r.Shared b D cs ss) ∧
      (part = [] ∨ ∃ r : Round κ, r.Follows b D rs ∧ r.Fair b D part) ∧
      (m.Between D → part = [] ∧ rs.length = D.updates + 1) ∧
      ∀ e ∈ D.managers,
        (m.world.procs.isAlive e.2 = true →
          arrivedAt e.2 ms = rs.flatMap (fun r => postsTo e.2 r.posts) ++ postsTo e.2 part) ∧
        arrivedAt e.2 ms <+: rs.flatMap (fun r => postsTo e.2 r.posts) ++ postsTo e.2 part ∧
        (arrivedAt e.2 ms).Sublist (Record.of (ms.flatMap Machine.record) e.2).accepted ∧
        (m.world.procs.isAlive e.2 = false → (Record.of m.record e.2).accepted = []) := by
  have manages := h.manages hD
  obtain ⟨⟨rs, c⟩, L, n, plays⟩ := h.plays going (h.readies going hD own)
  have agrees := plays.agrees
  have rounds : Rounds b D rs := agrees.fits.rounds
  refine ⟨manages.manned.homes, manages.nodup, rs, c.posts, rounds, ?_, fun r hr => ?_, agrees.fits.part,
    fun between => ?_, fun e mem => ?_⟩
  · rw [agrees.beats, agrees.fits.beats_posts]
    rfl
  · exact (rounds.complete r hr).shared manages.manned manages.nodup
  · obtain rfl : c = .free := plays.free between
    exact ⟨rfl, (agrees.between hD).1⟩
  · obtain ⟨all, first⟩ := agrees.reaches (List.mem_map.2 ⟨e, mem, rfl⟩)
    exact ⟨all, first, arrivedAt_sublist e.2 ms, Machine.accepted_of_dead⟩

/-- A program with two managers: each model is a subscription of the second one, and what has made it are
commands of both. -/
def reporting : Behaviour Unit Unit :=
  { Behaviour.ofCallbacks fun _ v => .succeed v with
    manager := fun _ =>
      { kind := .both
        state := .unit
        init := .ret (.succeed .unit)
        onEffects := fun _ _ _ s => .ret (.succeed s)
        onMessage := fun _ _ s => .ret (.succeed s)
        mapCommand := fun _ v => .ret v
        mapSubscription := fun _ v => .ret v }
    application := fun _ =>
      { message := .int
        managers := [(⟨"a"⟩, .custom ()), (⟨"b"⟩, .custom ())]
        init := .ret (.int 0, .node [.leaf ⟨"b"⟩ (.int 1), .leaf ⟨"b"⟩ (.int 2)])
        update := fun v _ => .ret (v, .node [.leaf ⟨"a"⟩ v, .leaf ⟨"b"⟩ v])
        subscriptions := fun v => .ret (.leaf ⟨"b"⟩ v)
        render := fun _ => .ret () } }

/-- The program is started, its first manager is killed, and its main process is sent a message. -/
def reported : Machine Unit Unit :=
  let code : Code Unit Unit Unit :=
    (Code.ask (.start ())).bind fun _ =>
      (Code.ask (.kill ⟨2⟩)).bind fun _ =>
        (Code.ask (.send ⟨1⟩ (.int 5))).bind fun _ =>
          (Code.ask (.drive .idle)).bind fun _ => .ret ()
  .load (.new .standard ()) (Procedure.ofCode code)

/-- The program with its two managers. -/
def report : RunningProgram Unit :=
  ⟨⟨1⟩, (), (Registry.empty.add ⟨"a"⟩ (.custom ()) rfl).add ⟨"b"⟩ (.custom ()) rfl,
    [(⟨"a"⟩, ⟨2⟩), (⟨"b"⟩, ⟨3⟩)], some (.int 5), 1⟩

set_option maxRecDepth 1000 in
/-- The manager that is alive has received a message in both cycles, and the other one in the first cycle. -/
theorem reported_arrives : ∃ m ms, Trail reporting m ms ∧ m.fault = none ∧ m.world.programs[0]? = some report ∧
    Private 0 report ms ∧ m.world.procs.isAlive ⟨2⟩ = false ∧ arrivedAt ⟨2⟩ ms = [.effects [] []] ∧
    arrivedAt ⟨3⟩ ms = [.effects [.int 1, .int 2] [.int 0], .effects [.int 5] [.int 5]] ∧
    ∃ rs, Rounds reporting report rs ∧ rs.length = 2 ∧ (∀ r ∈ rs, ∃ cs ss, r.Shared reporting report cs ss) ∧
      arrivedAt ⟨3⟩ ms = rs.flatMap fun r => postsTo ⟨3⟩ r.posts := by
  have begin : Trail reporting reported [] := .new _ _ _
  have h := begin.run 91
  rw [List.nil_append] at h
  have own : Private 0 report (Machine.passed reporting 91 reported) := by decide +kernel
  have hD : (Machine.run reporting 91 reported).world.programs[0]? = some report := rfl
  obtain ⟨-, -, rs, part, rounds, -, shared, -, complete, arrived⟩ := h.dispatches rfl hD own
  obtain ⟨none, two⟩ := complete ⟨rfl, fun a ha => by cases ha⟩
  have all := (arrived (⟨"b"⟩, ⟨3⟩) (List.mem_cons_of_mem _ List.mem_cons_self)).1 rfl
  rw [none] at all
  exact ⟨_, _, h, rfl, hD, own, rfl, rfl, rfl, rs, rounds, two, shared, all.trans (List.append_nil _)⟩

end Actors
