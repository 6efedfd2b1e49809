/-
Update cycles do not nest.

A cycle may be interrupted by whatever its program's functions do: they may let the host run, send messages to
the program, kill its main process, or start other programs. Still no other cycle of the program begins before
this one is over, and only while one of the program's own functions is under way its model is away.

* `Machine.Plays.next` — the cycle that is under way when code goes on;
* `Trail.never_nests` — what is known whenever a cycle begins, or code goes on.
-/
import Actors.Proofs.Dispatch

namespace Actors

variable {κ σ : Type} {b : Behaviour κ σ} {i : ProgramId} {D : RunningProgram κ}

/-- While the model of a program is away, its cycle stands between the message and the new model. -/
theorem Score.Agrees.away {m : Machine κ σ} {ms : List (Machine κ σ)} {rs : List (Round κ)} {c : Stance κ}
    (h : Score.Agrees b i D m ms ⟨rs, c⟩) (hD : m.world.programs[i]? = some D) (away : D.model = none) :
    ∃ st, c.station? = some st ∧ st.model? rs = none := by
  have entry := hD.symm.trans h.entry
  unfold Score.entry at entry
  split at entry
  · next st hst =>
    obtain same := Option.some.inj entry
    exact ⟨st, hst, by rw [← away, same]⟩
  · obtain ⟨v, -, same⟩ := Option.map_eq_some_iff.1 entry.symm
    rw [← same] at away
    cases away

/-- The code of a cycle calls the functions of the program while the model is away, and does nothing else but
to count the update and to put the new model in its place. -/
theorem Station.May.away {rs : List (Round κ)} {st : Station κ} {d : Directive κ σ} (may : st.May b i D d)
    (fits : st.Fits b D rs) (away : st.model? rs = none) :
    (∃ c, d = .invoke c ∧ c.beat? i ≠ none) ∨ d = .countUpdate i ∨ ∃ v, d = .putModel i v := by
  have some : ∀ v, st ≠ .begun v := by
    rintro v rfl
    refine fits (List.getLast?_eq_none_iff.1 (Option.map_eq_none_iff.1 away))
  cases may with
  | updating v => exact absurd rfl (some v)
  | running v => exact absurd rfl (some v)
  | take => exact absurd rfl (some _)
  | count => exact .inr (.inl rfl)
  | put r => exact .inr (.inr ⟨_, rfl⟩)
  | init => exact .inl ⟨_, rfl, by simp [Call.beat?]⟩
  | update => exact .inl ⟨_, rfl, by simp [Call.beat?]⟩
  | render => exact .inl ⟨_, rfl, by simp [Call.beat?]⟩
  | subscriptions => exact .inl ⟨_, rfl, by simp [Call.beat?]⟩
  | _ => cases away

namespace Machine

variable {m : Machine κ σ} {ms : List (Machine κ σ)} {s : Score κ} {L : List (Position κ)} {n : Nat}

/-- The code on top goes on with the cycle, or it is other code. -/
theorem Plays.next (h : m.Plays b i D ms s L n) {d : Directive κ σ} (top : m.directive? = some d) :
    ∃ c, Relation.ReflTransGen (Stance.Returns b i D) s.now c ∧ Score.Agrees b i D m ms ⟨s.rounds, c⟩ ∧
      ((∃ st, c = .own st ∧ st.May b i D d) ∨ (∀ st, c ≠ .own st) ∧ d.Foreign i D) := by
  obtain ⟨⟨k, stance⟩, T, p', rfl, settled, may⟩ := h.keeps.may top
  obtain ⟨k', stance'⟩ := p'
  obtain ⟨c, returns, cast, agrees⟩ := h.settle settled
  refine ⟨c, returns, agrees, ?_⟩
  rcases cast.cases_top with ⟨free, out⟩ | ⟨busy, rfl, -⟩
  · obtain rfl : stance' = .free := free
    exact .inr ⟨out, may.2⟩
  · cases stance' with
    | own st => exact .inl ⟨st, rfl, may.2⟩
    | inside st => exact .inr ⟨Stance.inside_ne_own st, may.2⟩
    | free => exact absurd rfl busy
    | wild => exact absurd rfl busy

/-- When an update begins no cycle is under way. -/
theorem Plays.free_of_begins (h : m.Plays b i D ms s L n) {mv : Move κ} (moved : (D.pid, .moved mv) ∈ m.record) :
    s.now = .free := by
  by_contra busy
  rcases Stance.start?_cases (h.cast.busy busy) with start | update
  · obtain ⟨x, hx, -⟩ := (transition b m).of_moved moved
    cases hx.symm.trans (h.hosted.absent start)
  · exact not_moved b (h.hosted.pauses update) mv moved

/-- While a process has its turn no binding is begun. -/
theorem not_starting_of_moved (run : Reachable b m) {p q : Pid} {mv : Move κ} (moved : (p, .moved mv) ∈ m.record)
    {a : Activity κ σ} (mem : a ∈ m.stack) : a.starting? ≠ some q := by
  intro work
  obtain ⟨w, k, l, below, rfl⟩ := (transition b m).turn_of_moved moved
  rcases List.mem_cons.1 mem with rfl | mem
  · cases work
  -- At most one tick is under way, and it is the one of the turn.
  have one := run.queue_and_pump.2.2.1
  have two : 0 < Activity.ticksOf below := List.countP_pos_iff.2 ⟨a, mem, Activity.isTick_of_starting? work⟩
  have all := Activity.ticksOf_tick k l (.turn p) below
  dsimp only at one
  omega

end Machine

/-- Update cycles never nest. Whenever the main process of a program makes a transition, and in particular when it
begins an update, none of its bindings is being begun, and all cycles until then are over, the one that has
started the program among them: what has been seen of the program is what these cycles show, and the model is
the last one. Whenever user code goes on that is not called by one of the program's own functions, the model is
in its place; so an update always finds it. And whenever the model is rendered, the functions that have been
called before are over: in this cycle only the new model has been made, and nothing is rendered. -/
theorem Trail.never_nests {m : Machine κ σ} {ms : List (Machine κ σ)} (h : Trail b m ms) (going : m.fault = none)
    (hD : m.world.programs[i]? = some D) (own : Private i D ms) :
    (∀ mv, (D.pid, .moved mv) ∈ m.record → (∀ a ∈ m.stack, a.starting? ≠ some D.pid) ∧
      ∃ rs, Rounds b D rs ∧ rs.length = D.updates + 1 ∧ D.model = lastModel rs ∧ D.model ≠ none ∧
        beatsOf i D ms = rs.flatMap Round.beats) ∧
    (∀ d, m.directive? = some d → (∃ r, d = .request r) ∨ (∃ c, d = .invoke c ∧ c.beat? i = none) →
      insideAfter i ms = false → D.model ≠ none) ∧
    (m.directive? = some (.takeModel i) → D.model ≠ none) ∧
    ∀ app model, m.directive? = some (.invoke (.render i app model)) →
      ∃ rs, ∃ x : Draft κ, Rounds b D rs ∧ x.Follows b D rs ∧ x.model = model ∧
        beatsOf i D ms = rs.flatMap Round.beats ++ [x.beat] := by
  obtain ⟨⟨rs, c⟩, L, n, plays⟩ := h.plays going (h.readies going hD own)
  refine ⟨fun mv moved => ⟨fun a mem => Machine.not_starting_of_moved h.reachable moved mem, ?_⟩,
    fun d top outside idle away => ?_, fun top away => ?_, fun app model top => ?_⟩
  · obtain rfl : c = .free := plays.free_of_begins moved
    obtain ⟨length, last⟩ := plays.agrees.between hD
    refine ⟨rs, plays.agrees.fits.rounds, length, last, ?_, plays.agrees.beats.trans (List.append_nil _)⟩
    rw [last, lastModel, ne_eq, Option.map_eq_none_iff, List.getLast?_eq_none_iff]
    exact List.length_pos_iff.1 (by omega)
  · obtain ⟨c', returns, agrees, ⟨st, rfl, may⟩ | ⟨out, -⟩⟩ := plays.next top
    · obtain ⟨st', hst, none⟩ := agrees.away hD away
      obtain rfl := Option.some.inj hst
      rcases may.away (agrees.fits.now _ rfl) none with ⟨c, rfl, shown⟩ | rfl | ⟨v, rfl⟩
      · rcases outside with ⟨r, same⟩ | ⟨c', same, silent⟩
        · cases same
        · obtain rfl := Directive.invoke.inj same
          exact shown silent
      · rcases outside with ⟨r, same⟩ | ⟨c', same, -⟩ <;> cases same
      · rcases outside with ⟨r, same⟩ | ⟨c', same, -⟩ <;> cases same
    · obtain ⟨st, hst, none⟩ := agrees.away hD away
      obtain rfl : c' = .inside st := by
        cases c' with
        | own st' => exact absurd rfl (out st')
        | inside st' => exact congrArg _ (Option.some.inj hst)
        | _ => cases hst
      rcases plays.inside st (Stance.eq_inside_of_returns returns) with entered | ⟨r, rfl⟩
      · rw [idle] at entered
        cases entered
      · cases none
  · obtain ⟨c', returns, agrees, ⟨st, rfl, may⟩ | ⟨-, foreign⟩⟩ := plays.next top
    · obtain ⟨st', hst, none⟩ := agrees.away hD away
      obtain rfl := Option.some.inj hst
      rcases may.away (agrees.fits.now _ rfl) none with ⟨c, same, -⟩ | same | ⟨v, same⟩ <;> cases same
    · exact foreign rfl
  · obtain ⟨c', returns, agrees, ⟨st, rfl, may⟩ | ⟨-, foreign⟩⟩ := plays.next top
    · cases may with
      | render x => exact ⟨rs, x, agrees.fits.rounds, agrees.fits.now _ rfl, rfl, agrees.beats⟩
    · exact absurd rfl foreign

/-- A program whose `update` sends messages to the program, and then lets the host run. -/
def eager : Behaviour Unit Unit :=
  { echoing with
    application := fun c =>
      { echoing.application c with
        update := fun v _ =>
          (Code.ask (.send ⟨1⟩ (.int 6))).bind fun _ =>
            (Code.ask (.drive .idle)).bind fun _ => .ret (v, .node []) } }

/-- The program is started, and its main process is sent a message. -/
def spurred : Machine Unit Unit :=
  let code : Code Unit Unit Unit :=
    (Code.ask (.start ())).bind fun _ =>
      (Code.ask (.send ⟨1⟩ (.int 5))).bind fun _ =>
        (Code.ask (.drive .idle)).bind fun _ => .ret ()
  .load (.new .standard ()) (Procedure.ofCode code)

/-- The message that is sent within the first update waits, although the host runs, until that update is
over. -/
theorem spurred_in_turn : ∃ m ms, Trail eager m ms ∧ m.fault = none ∧
    m.world.programs[0]? = some (echo (.int 5) 1) ∧ Private 0 (echo (.int 5) 1) ms ∧
    m.record = [(⟨1⟩, .moved ⟨.native (.update 0 (.int 6)), none⟩)] ∧ (∀ a ∈ m.stack, a.starting? ≠ some ⟨1⟩) ∧
    ∃ rs, Rounds eager (echo (.int 5) 1) rs ∧ rs.length = 2 ∧
      beatsOf 0 (echo (.int 5) 1) ms = rs.flatMap Round.beats := by
  have begin : Trail eager spurred [] := .new _ _ _
  have h := begin.run 43
  rw [List.nil_append] at h
  have own : Private 0 (echo (.int 5) 1) (Machine.passed eager 43 spurred) := by decide +kernel
  have hD : (Machine.run eager 43 spurred).world.programs[0]? = some (echo (.int 5) 1) := rfl
  have record : (Machine.run eager 43 spurred).record = [(⟨1⟩, .moved ⟨.native (.update 0 (.int 6)), none⟩)] := rfl
  obtain ⟨begins, -⟩ := h.never_nests rfl hD own
  obtain ⟨idle, rs, rounds, two, -, -, seen⟩ := begins ⟨.native (.update 0 (.int 6)), none⟩
    (record ▸ List.mem_singleton.2 rfl)
  exact ⟨_, _, h, rfl, hD, own, record, idle, rs, rounds, two, seen⟩

end Actors
