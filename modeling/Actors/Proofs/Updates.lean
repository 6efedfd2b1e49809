/-
The update loop of a program.

When no cycle is under way a program is what its messages have made of it, one after the other: the model is
the last one that `update` has made, from the message and the model before, and every model has been
rendered before its effects went out. A message that the main process has taken may still be without a cycle:
the process has been interrupted right then, or even killed.

* `Private` runs have `Decidable` instances, so concrete runs can be checked;
* `Rounds.messages`, `Rounds.models` — what follows from the order of the cycles;
* `Trail.updates` — the update loop.
-/
import Actors.Proofs.Performance
import Actors.Proofs.Mailbox

namespace Actors

variable {κ σ : Type} {b : Behaviour κ σ} {i : ProgramId} {D : RunningProgram κ}

/-! ### Cycles in a row -/

/-- The messages that cycles have handled. -/
def handled (rs : List (Round κ)) : List (Value κ) :=
  rs.filterMap fun r => r.message?

theorem handled_snoc (rs : List (Round κ)) (r : Round κ) : handled (rs ++ [r]) = handled rs ++ r.message?.toList := by
  rw [handled, List.filterMap_append]
  cases h : r.message? <;> simp [handled, h]

/-- The models that are rendered among what is seen. -/
def Beat.rendered? : Beat κ → Option (Value κ)
  | .render model => some model
  | _ => none

namespace Rounds

variable {rs : List (Round κ)}

/-- All cycles but the first one handle a message, which has the type of the program's messages. -/
theorem messages (h : Rounds b D rs) : (handled rs).length = rs.length - 1 ∧
    ∀ v ∈ handled rs, v.hasType (b.application D.app).message = true := by
  induction h with
  | nil => exact ⟨rfl, nofun⟩
  | @snoc rs r h follows complete ih =>
    have caused := follows.draft.caused
    rw [handled_snoc, List.length_append, List.length_append]
    -- Only the first cycle has no message: every other one has a model before it.
    cases hc : r.cause with
    | none =>
      rw [hc] at caused
      obtain rfl : rs = [] := caused
      simp [Draft.message?, hc, handled]
    | some x =>
      obtain ⟨v, old⟩ := x
      rw [hc] at caused
      obtain ⟨typed, last⟩ := caused
      have some : rs ≠ [] := by
        rintro rfl
        cases last
      have more := List.length_pos_iff.2 some
      refine ⟨?_, fun u hu => ?_⟩
      · simp only [Draft.message?, hc, ih.1, Option.map_some, Option.toList_some, List.length_singleton]
        omega
      · rcases List.mem_append.1 hu with hu | hu
        · exact ih.2 u hu
        · rw [Draft.message?, hc] at hu
          obtain rfl := List.mem_singleton.1 hu
          exact typed

/-- If the functions of a program compute models from messages and models alone, then the models of the
cycles are those that come up when the messages are folded into the first one. -/
theorem models (h : Rounds b D rs) {first : Value κ} {next : Value κ → Value κ → Value κ}
    (init : ∀ x, (b.application D.app).init.Returns x → x.1 = first)
    (update : ∀ v old x, ((b.application D.app).update v old).Returns x → x.1 = next old v) (some : rs ≠ []) :
    rs.map (fun r => r.model) = (handled rs).scanl next first ∧
      lastModel rs = .some ((handled rs).foldl next first) := by
  induction h with
  | nil => exact absurd rfl some
  | @snoc rs r h follows complete ih =>
    obtain ⟨caused, made⟩ := follows.draft
    have last : lastModel (rs ++ [r]) = .some r.model := by simp [lastModel]
    rw [last, handled_snoc, List.map_append]
    cases hc : r.cause with
    -- A cycle without a message is the first one, and its model is made by `init`.
    | none =>
      rw [hc] at caused
      obtain rfl : rs = [] := caused
      rw [Draft.Made, hc] at made
      have model : r.model = first := init _ made
      simp [handled, Draft.message?, hc, model]
    | some x =>
      obtain ⟨v, old⟩ := x
      rw [hc] at caused
      rw [Draft.Made, hc] at made
      have before : rs ≠ [] := by
        rintro rfl
        cases caused.2
      obtain ⟨models, old?⟩ := ih before
      obtain rfl := Option.some.inj (caused.2.symm.trans old?)
      have model : r.model = next _ v := update _ _ _ made
      have message : r.message? = .some v := congrArg (Option.map Prod.fst) hc
      rw [message, models, List.scanl_append, List.foldl_append]
      simp [model]

/-- In every cycle the new model is rendered, once. -/
theorem rendered (rs : List (Round κ)) :
    (rs.flatMap Round.beats).filterMap Beat.rendered? = rs.map fun r => r.model := by
  induction rs with
  | nil => rfl
  | cons r rs ih =>
    have posts : (r.posts.map fun x => Beat.post x.1 x.2).filterMap Beat.rendered? = [] :=
      List.filterMap_eq_nil_iff.2 fun x hx => by
        obtain ⟨y, -, rfl⟩ := List.mem_map.1 hx
        rfl
    have made : Beat.rendered? r.beat = none := by
      unfold Draft.beat
      split <;> rfl
    rw [List.flatMap_cons, List.filterMap_append, ih, Round.beats, List.filterMap_append, posts,
      List.filterMap_cons_none made]
    rfl

end Rounds

/-! ### Messages on their way -/

/-- The messages that a main process has taken are those whose cycles it has begun, but for one at most, which
it has taken last; there is none while it waits for a message. -/
theorem History.taken {m : Machine κ σ} {r : Record κ} (h : History b m r) {p : Pid}
    (started : .spawned (Program.listen i) ∈ r.of p) :
    ∃ o : Option (Value κ), (r.of p).consumed = (r.of p).begun i ++ o.toList ∧
      ∀ x, m.world.procs.get? p = some x → x.root = .ready (Program.listen i) → o = none := by
  obtain ⟨x, d, hx, interpreted, listening⟩ := h.listening started
  have favours : ∀ e ∈ (r.of p).acts, e.Favours := fun e he =>
    h.favours (fun t ht => (h.life p).spawned_unique.2 t _ ht started) e (List.mem_of_mem_filter he)
  have consumed := Listening.waits.consumed interpreted.runs favours
  refine ⟨d.pending?, ?_, fun y hy waits => ?_⟩
  · rw [Deeds.consumed, Deeds.begun, ← Deeds.moves_acts]
    exact consumed
  · obtain rfl := Option.some.inj (hx.symm.trans hy)
    have root : x.bare.root = .ready (Program.listen i) := by rw [Proc.bare_root, waits]; rfl
    have alive : x.bare.root ≠ .dead := by
      rw [root]
      intro dead
      cases dead
    have fits := interpreted.fits alive
    cases listening with
    | waits => rfl
    | updating => rfl
    | _ => cases root.symm.trans fits.1

/-- A process that is there has been started. -/
theorem History.spawned {m : Machine κ σ} {r : Record κ} (h : History b m r) {p : Pid}
    (there : (m.world.procs.get? p).isSome = true) : ∃ t, .spawned t ∈ r.of p := by
  by_contra none
  have gone := (h.life p).eq_none fun t ht => none ⟨t, ht⟩
  rw [Option.map_eq_none_iff.1 gone] at there
  cases there

/-- A message that has been sent at some time comes behind all that have been sent before, in particular behind
those whose cycles have been begun until then. -/
theorem Trail.handled_later {m : Machine κ σ} {ms : List (Machine κ σ)} (h : Trail b m ms) {p : Pid}
    (started : .spawned (Program.listen i) ∈ Record.of (ms.flatMap Machine.record) p) {m₁ : Machine κ σ}
    {past during : List (Machine κ σ)} (split : ms = past ++ m₁ :: during) {v : Value κ}
    (sent : (p, .sent v) ∈ m₁.record) :
    ∃ k, ((Record.of (past.flatMap Machine.record) p).begun i).length ≤ k ∧
      (((Record.of (ms.flatMap Machine.record) p).begun i).length ≤ k ∨
        ((Record.of (ms.flatMap Machine.record) p).begun i)[k]? = some v) := by
  have before := (h.past split).history
  have record : m₁.record = [(p, .sent v)] := by
    have one := Machine.record_of_sends (Machine.sends_of_mem sent rfl)
    rw [one] at sent ⊢
    rw [List.mem_singleton.1 sent]
  -- The message is sent to a process that is alive, so the main process has been started before.
  have there : .spawned (Program.listen i) ∈ Record.of (past.flatMap Machine.record) p := by
    obtain ⟨x, -, hx, -⟩ := Machine.mailbox_of_sent (b := b) before.reachable.sound record
    obtain ⟨t, ht⟩ := before.spawned (p := p) (by rw [hx]; rfl)
    have all : .spawned t ∈ Record.of (ms.flatMap Machine.record) p := by
      rw [split, List.flatMap_append, Record.of_append]
      exact List.mem_append_left _ ht
    exact (h.history.life p).spawned_unique.2 t _ all started ▸ ht
  obtain ⟨-, ordered, -⟩ := h.history.mailbox_fifo p
  obtain ⟨-, ordered', -⟩ := before.mailbox_fifo p
  obtain ⟨o, taken, -⟩ := h.history.taken started
  obtain ⟨o', taken', -⟩ := before.taken there
  refine ⟨(Record.of (past.flatMap Machine.record) p).accepted.length, ?_, ?_⟩
  · have le := ordered'.length_le
    rw [taken', List.length_append] at le
    omega
  refine (Nat.lt_or_ge _ _).symm.imp_right fun less => ?_
  have first : (Record.of (ms.flatMap Machine.record) p).begun i <+:
      (Record.of (ms.flatMap Machine.record) p).accepted :=
    (taken ▸ List.prefix_append _ _).trans ordered
  have next : (Record.of (ms.flatMap Machine.record) p).accepted[
      (Record.of (past.flatMap Machine.record) p).accepted.length]? = some v := by
    rw [split, List.flatMap_append, List.flatMap_cons, record, Record.of_append, Record.of_append,
      Record.of_singleton, if_pos rfl, Deeds.accepted, Deeds.accepted, List.filterMap_append,
      List.getElem?_append_right (Nat.le_refl _), Nat.sub_self]
    rfl
  have same := List.prefix_iff_getElem?.1 first _ less
  rw [List.getElem?_eq_getElem less, ← same, next]

/-! ### The update loop -/

/-- The main process of a program has been started, and it runs no cycle. -/
structure Machine.Between (m : Machine κ σ) (D : RunningProgram κ) : Prop where
  started : (m.world.procs.get? D.pid).isSome = true
  idle : ∀ a ∈ m.stack, a.starting? ≠ some D.pid

theorem Machine.Plays.free {m : Machine κ σ} {ms : List (Machine κ σ)} {s : Score κ} {L : List (Position κ)}
    {n : Nat} (h : m.Plays b i D ms s L n) (between : m.Between D) : s.now = .free := by
  by_contra busy
  rcases Stance.start?_cases (h.cast.busy busy) with start | update
  · have there := between.started
    rw [h.hosted.absent start] at there
    cases there
  · obtain ⟨a, mem, work⟩ := h.starts update
    exact between.idle a mem work

/-- The update loop of a program. Whenever its main process has been started and runs no cycle, there are as
many cycles as updates have been counted, and one for the start. They follow each other: the first model is the
one that `init` returns, and every other one is the one that `update` returns for a message, which has the type
of the program's messages, and the model before. What has been seen of the program until now is what these
cycles show: in each of them the model is made and rendered, the subscriptions are computed from it, and then
each manager is sent its share. The model is that of the last cycle. The messages that the main process has
taken are, in order, those of the cycles, but for one at most that it has taken last; there is none while it
waits for a message. A message that is sent to it, wherever that is done, is handled by a cycle that has not
begun yet, after all messages that have been sent before. If `init` and `update` are functions, the models are
those that come up when the messages are folded into the first one. -/
theorem Trail.updates {m : Machine κ σ} {ms : List (Machine κ σ)} (h : Trail b m ms) (going : m.fault = none)
    (hD : m.world.programs[i]? = some D) (own : Private i D ms) (between : m.Between D) :
    ∃ rs, Rounds b D rs ∧ rs.length = D.updates + 1 ∧ (handled rs).length = D.updates ∧
      D.model = lastModel rs ∧ beatsOf i D ms = rs.flatMap Round.beats ∧
      (beatsOf i D ms).filterMap Beat.rendered? = rs.map (fun r => r.model) ∧
      (∃ o : Option (Value κ), (Record.of (ms.flatMap Machine.record) D.pid).consumed = handled rs ++ o.toList ∧
        ∀ x, m.world.procs.get? D.pid = some x → x.root = .ready (Program.listen i) → o = none) ∧
      (Record.of (ms.flatMap Machine.record) D.pid).consumed <+:
        (Record.of (ms.flatMap Machine.record) D.pid).accepted ∧
      (∀ past m₁ during v, ms = past ++ m₁ :: during → (D.pid, .sent v) ∈ m₁.record →
        ∃ k, ((Record.of (past.flatMap Machine.record) D.pid).begun i).length ≤ k ∧
          ((handled rs).length ≤ k ∨ (handled rs)[k]? = some v)) ∧
      ∀ first next, (∀ x, (b.application D.app).init.Returns x → x.1 = first) →
        (∀ v old x, ((b.application D.app).update v old).Returns x → x.1 = next old v) →
          rs.map (fun r => r.model) = (handled rs).scanl next first ∧
            D.model = some ((handled rs).foldl next first) := by
  have readies := h.readies going hD own
  obtain ⟨⟨rs, c⟩, L, n, plays⟩ := h.plays going readies
  obtain rfl : c = .free := plays.free between
  have agrees := plays.agrees
  have rounds : Rounds b D rs := agrees.fits.rounds
  obtain ⟨length, model⟩ := agrees.between hD
  have some : rs ≠ [] := List.length_pos_iff.1 (by omega)
  have begun : (Record.of (ms.flatMap Machine.record) D.pid).begun i = handled rs :=
    agrees.messages.trans (List.append_nil _)
  have seen : beatsOf i D ms = rs.flatMap Round.beats := agrees.beats.trans (List.append_nil _)
  have started : .spawned (Program.listen i) ∈ Record.of (ms.flatMap Machine.record) D.pid := by
    obtain ⟨t, ht⟩ := h.history.spawned between.started
    exact readies.main ht ▸ ht
  obtain ⟨o, taken, waits⟩ := h.history.taken started
  refine ⟨rs, rounds, length, ?_, model, seen, ?_, ⟨o, begun ▸ taken, waits⟩, (h.history.mailbox_fifo D.pid).2.1,
    fun past m₁ during v split sent => begun ▸ h.handled_later started split sent,
    fun first next init update => ?_⟩
  · rw [rounds.messages.1, length, Nat.add_sub_cancel]
  · rw [seen, Rounds.rendered]
  · obtain ⟨models, lastOne⟩ := rounds.models init update some
    exact ⟨models, model.trans lastOne⟩

/-- A program whose model is its latest message. -/
def echoing : Behaviour Unit Unit :=
  { Behaviour.ofCallbacks fun _ v => .succeed v with
    application := fun _ =>
      { message := .int
        managers := []
        init := .ret (.int 0, .node [])
        update := fun v _ => .ret (v, .node [])
        subscriptions := fun _ => .ret (.node [])
        render := fun _ => .ret () } }

/-- The program is started, its main process is sent a message, and killed after two ticks. -/
def posted (budget : Budget) : Machine Unit Unit :=
  let code : Code Unit Unit Unit :=
    (Code.ask (.start ())).bind fun _ =>
      (Code.ask (.send ⟨1⟩ (.int 5))).bind fun _ =>
        (Code.ask (.drive .one)).bind fun _ =>
          (Code.ask (.drive .one)).bind fun _ =>
            (Code.ask (.kill ⟨1⟩)).bind fun _ => .ret ()
  .load (.new { Config.standard with budget := budget } ()) (Procedure.ofCode code)

/-- The program with a model and a number of updates. -/
def echo (model : Value Unit) (updates : Nat) : RunningProgram Unit :=
  ⟨⟨1⟩, (), .empty, [], some model, updates⟩

/-- With the usual budget the message is handled. -/
theorem posted_handled : ∃ m ms D, Trail echoing m ms ∧ m.fault = none ∧ m.world.programs[0]? = some D ∧
    Private 0 D ms ∧ m.Between D ∧ ∃ rs, Rounds echoing D rs ∧ handled rs = [.int 5] ∧
      rs.map (fun r => r.model) = [.int 0, .int 5] ∧
      beatsOf 0 D ms = rs.flatMap Round.beats ∧ D.model = some (.int 5) := by
  have begin : Trail echoing (posted .standard) [] := .new _ _ _
  have h := begin.run 44
  rw [List.nil_append] at h
  have own : Private 0 (echo (.int 5) 1) (Machine.passed echoing 44 (posted .standard)) := by
    decide +kernel
  have between : (Machine.run echoing 44 (posted .standard)).Between (echo (.int 5) 1) :=
    ⟨rfl, fun a ha => by cases ha⟩
  have consumed : (Record.of ((Machine.passed echoing 44 (posted .standard)).flatMap Machine.record) ⟨1⟩).consumed =
      [.int 5] := rfl
  have hD : (Machine.run echoing 44 (posted .standard)).world.programs[0]? =
      some (echo (.int 5) 1) := rfl
  obtain ⟨rs, rounds, -, count, model, seen, -, ⟨o, taken, -⟩, -, -, pure⟩ := h.updates rfl hD own between
  have messages : handled rs = [.int 5] := by
    obtain ⟨v, one⟩ := List.length_eq_one_iff.1 count
    rw [one] at taken ⊢
    rw [(List.cons.inj (consumed.symm.trans taken)).1]
  obtain ⟨models, -⟩ := pure (.int 0) (fun _ v => v) (fun x hx => by rw [Code.returns_ret hx])
    fun v old x hx => by rw [Code.returns_ret hx]
  exact ⟨_, _, _, h, rfl, hD, own, between, rs, rounds, messages, by rw [models, messages]; rfl, seen, rfl⟩

/-- With a budget of one step the process is interrupted after it has taken the message, and killed before the
cycle of the message begins. The message has been taken, and the model is what it was. -/
theorem posted_cut_short : ∃ m ms D, Trail echoing m ms ∧ m.fault = none ∧ m.world.programs[0]? = some D ∧
    Private 0 D ms ∧ m.Between D ∧
    (Record.of (ms.flatMap Machine.record) D.pid).consumed = [.int 5] ∧
    (Value.int (κ := Unit) 5).hasType (echoing.application D.app).message = true ∧
    (∀ x, (echoing.application D.app).init.Returns x → x.1 = .int 0) ∧
    (∀ v old x, ((echoing.application D.app).update v old).Returns x → x.1 = v) ∧
    D.updates ≠ (Record.of (ms.flatMap Machine.record) D.pid).consumed.length ∧
    D.model ≠ some ((Record.of (ms.flatMap Machine.record) D.pid).consumed.foldl (fun _ v => v) (.int 0)) := by
  have begin : Trail echoing (posted ⟨1, by decide⟩) [] := .new _ _ _
  have h := begin.run 33
  rw [List.nil_append] at h
  have own : Private 0 (echo (.int 0) 0)
      (Machine.passed echoing 33 (posted ⟨1, by decide⟩)) := by
    decide +kernel
  have consumed : (Record.of ((Machine.passed echoing 33 (posted ⟨1, by decide⟩)).flatMap Machine.record)
      (echo (.int 0) 0).pid).consumed = [.int 5] := rfl
  refine ⟨_, _, echo (.int 0) 0, h, rfl, rfl, own, ⟨rfl, fun a ha => by cases ha⟩,
    consumed, rfl, fun x hx => by rw [Code.returns_ret hx], fun v old x hx => by rw [Code.returns_ret hx], ?_, ?_⟩
  · rw [consumed]
    exact Nat.zero_ne_one
  · rw [consumed]
    simp [echo]

end Actors
