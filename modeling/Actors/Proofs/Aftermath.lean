/-
What a directive makes of what stands beside the processes.

A directive changes little beside the processes. User code has its state, sets timers and removes them,
uses up tickets and counts its references; the runtime's own code keeps its list of programs and puts
processes to sleep. `Directive.surroundingsAfter` says for each directive all that it does there, so that
whoever needs to know one part of it reads it off.

* `Request.surroundingsAfter`, `Directive.surroundingsAfter` — what is left there;
* `Directive.surroundings` — every directive leaves just that.
-/
import Actors.Proofs.Operation

namespace Actors

variable {κ σ α : Type} {b : Behaviour κ σ}

namespace World

variable {w w' : World κ σ} {t : Ticket} {task : Task κ} {p : Pid}

/-- A ticket that is used, or would be used if it was there, is used up. -/
theorem surroundings_complete {k : Holder} (h : w.complete k t task = .ok w') :
    w'.surroundings = { w.surroundings with tickets := w.tickets.erase (t, k) } := by
  unfold complete at h
  split at h
  · split at h
    · exact surroundings_resume (w := w.spend t k) h
    · obtain rfl := Except.ok.inj h
      rfl
  · next absent =>
    obtain rfl := Except.ok.inj h
    rw [List.erase_of_not_mem fun held => absent (List.contains_iff_mem.2 held)]
    rfl

theorem surroundings_spawn (h : w.spawn task = .ok (p, w')) : w'.surroundings = w.surroundings := by
  unfold spawn at h
  cases hr : w.reserve with
  | error f => rw [hr] at h; cases h
  | ok e =>
    obtain ⟨q, w₁⟩ := e
    simp only [hr, bind, Except.bind] at h
    cases hi : w₁.install q none task with
    | error f => rw [hi] at h; cases h
    | ok w₂ =>
      rw [hi] at h
      obtain ⟨-, rfl⟩ := Prod.mk.inj (Except.ok.inj h)
      exact (surroundings_install hi).trans (surroundings_reserve hr)

theorem surroundings_modifyProgram (w : World κ σ) (i : ProgramId)
    (f : RunningProgram κ → RunningProgram κ) :
    (w.modifyProgram i f).surroundings =
      { w.surroundings with programs := (w.modifyProgram i f).programs } := by
  unfold modifyProgram
  split <;> rfl

theorem surroundings_wake (h : w.wake t = .ok w') : w'.surroundings = w.surroundings := by
  unfold wake at h
  split at h
  · exact surroundings_resume h
  · obtain rfl := Except.ok.inj h
    rfl

/-- What calls a binding off is the runtime's business only if it is a timer. -/
def unsetBy (w : World κ σ) : Option (Cancel κ) → Surroundings κ σ
  | some (.timer k) => { w.surroundings with timers := (w.host.unsetWake k).timers }
  | _ => w.surroundings

theorem unsetBy_kill (w : World κ σ) (p : Pid) (c : Option (Cancel κ)) :
    (w.kill p).1.unsetBy c = w.unsetBy c := by
  unfold kill
  split
  · rfl
  · split <;> rfl

theorem unsetBy_attach (w : World κ σ) (t : Ticket) (c : κ) :
    (w.attach t (.thunk c)).1.unsetBy (w.attach t (.thunk c)).2 = w.surroundings := by
  rw [← surroundings_attach w t (.thunk c)]
  have kept := attaches w t (.thunk c)
  revert kept
  generalize w.attach t (.thunk c) = e
  intro kept
  cases kept <;> rfl

theorem surroundings_retain (w : World κ σ) :
    w.retain.surroundings = { w.surroundings with handles := w.retain.handles } := by
  unfold retain
  split <;> rfl

end World

open World

theorem Progress.surroundings_callOff {w w' : World κ σ} {c : Option (Cancel κ)}
    {code code' : Procedure κ σ α} (h : Progress.callOff w c code = .next w' code') :
    w'.surroundings = w.unsetBy c := by
  unfold callOff at h
  split at h
  all_goals
    obtain ⟨rfl, -⟩ := Progress.next.inj h
    rfl

/-- What stands beside the processes once a request has been granted. -/
def Request.surroundingsAfter (w : World κ σ) : Request κ σ → Surroundings κ σ
  | .remember s => { w.surroundings with user := s }
  | .kill p => if w.reachable then w.unsetBy (w.kill p).2 else w.surroundings
  | .complete t _ => { w.surroundings with tickets := w.tickets.erase (t, .user) }
  | .forget t => { w.surroundings with tickets := w.tickets.erase (t, .user) }
  | .delay span c =>
    { w.surroundings with
      timers := (w.host.delay span (.thunk c)).timers, serial := w.host.serial + 1 }
  | .unset k => { w.surroundings with timers := (w.host.unset k).timers }
  | .retain => { w.surroundings with handles := w.retain.handles }
  | .release => { w.surroundings with handles := w.handles - 1 }
  | _ => w.surroundings

/-- What stands beside the processes once a directive has been performed. -/
def Directive.surroundingsAfter (w : World κ σ) : Directive κ σ → Surroundings κ σ
  | .request r => r.surroundingsAfter w
  | .settle t _ => { w.surroundings with tickets := w.tickets.erase (t, .runtime) }
  | .sleep span t =>
    { w.surroundings with
      timers := (w.host.delay span (.wake t)).timers, serial := w.host.serial + 1,
      tickets := w.tickets.erase (t, .runtime) }
  | .hold => { w.surroundings with holds := w.holds + 1 }
  | .unhold => { w.surroundings with holds := w.holds - 1 }
  | .enter => { w.surroundings with entered := w.entered + 1 }
  | .leave => { w.surroundings with entered := w.entered - 1 }
  | .found d => { w.surroundings with programs := w.programs ++ [d] }
  | .takeModel i =>
    { w.surroundings with
      programs := (w.modifyProgram i fun d => { d with model := none }).programs }
  | .putModel i v =>
    { w.surroundings with
      programs := (w.modifyProgram i fun d => { d with model := some v }).programs }
  | .countUpdate i =>
    { w.surroundings with
      programs := (w.modifyProgram i fun d => { d with updates := d.updates + 1 }).programs }
  | _ => w.surroundings

theorem Request.surroundings {w w' : World κ σ} {r : Request κ σ} {k : r.Reply → Procedure κ σ α}
    {code : Procedure κ σ α} (h : r.step b w k = .next w' code) :
    w'.surroundings = r.surroundingsAfter w := by
  cases r with
  | spawn t =>
    rcases Directive.of_spawn (b := b) h with ⟨p, -, hs, -⟩ | ⟨-, rfl, -⟩
    · exact surroundings_spawn hs
    · rfl
  | spawnWith c =>
    obtain ⟨rfl, -⟩ := Directive.of_spawnWith (b := b) h
    rfl
  | send p v =>
    obtain ⟨rfl, -⟩ := Progress.next.inj h
    split
    · exact surroundings_send w p v
    · rfl
  | kill p =>
    rw [surroundingsAfter]
    rcases Directive.of_kill (b := b) h with ⟨here, off⟩ | ⟨gone, rfl, -⟩
    · rw [if_pos here, Progress.surroundings_callOff off, unsetBy_kill]
    · rw [if_neg (ne_true_of_eq_false gone)]
  | complete t task => exact surroundings_complete (Progress.ofExcept_eq_next h)
  | drive e => cases h
  | start c =>
    obtain ⟨rfl, -⟩ := Directive.of_start (b := b) h
    rfl
  | model p =>
    obtain ⟨rfl, -⟩ := Directive.of_model (b := b) h
    rfl
  | retain =>
    obtain ⟨rfl, -⟩ := Progress.next.inj h
    exact surroundings_retain w
  | _ =>
    obtain ⟨rfl, -⟩ := Progress.next.inj h
    rfl

/-- What a directive leaves beside the processes. -/
theorem Directive.surroundings {w w' : World κ σ} {d : Directive κ σ}
    {k : d.Reply → Procedure κ σ α} {code : Procedure κ σ α} (h : d.step b w k = .next w' code) :
    w'.surroundings = d.surroundingsAfter w := by
  cases d with
  | request r => exact Request.surroundings h
  | settle t task => exact surroundings_complete (Progress.ofExcept_eq_next h)
  | sleep span t =>
    obtain ⟨rfl, -⟩ := Progress.next.inj h
    exact surroundings_attach { w.spend t .runtime with host := w.host.delay span (.wake t) } t _
  | attach t c => exact (Progress.surroundings_callOff h).trans (unsetBy_attach w t c)
  | reserve =>
    obtain ⟨p, hr, -⟩ := Directive.of_reserve h
    exact surroundings_reserve hr
  | install p label t => exact surroundings_install (Progress.ofExcept_eq_next h)
  | takeModel i =>
    obtain ⟨rfl, -⟩ := Progress.next.inj h
    exact surroundings_modifyProgram w i _
  | putModel i v =>
    obtain ⟨rfl, -⟩ := Progress.next.inj h
    exact surroundings_modifyProgram w i _
  | countUpdate i =>
    obtain ⟨rfl, -⟩ := Progress.next.inj h
    exact surroundings_modifyProgram w i _
  | _ =>
    obtain ⟨rfl, -⟩ := Progress.next.inj h
    rfl

end Actors
