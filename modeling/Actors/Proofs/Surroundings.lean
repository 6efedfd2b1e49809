/-
What stands beside the processes.

A world holds more than its processes, its work queue and its pump: the user's state, the clock and
the timers of the host, the references to the runtime, the tickets that have not been used, and the
programs. What a tick does to a process leaves all of this alone, but for the ticket of a binding
that is started.

* `Surroundings`, `World.surroundings` — this part of a world;
* `World.Due` — a timer that is due is taken out of the host.
-/
import Actors.Run

namespace Actors

variable {κ σ : Type}

/-- The part of a world that belongs to no process, and is not read by the scheduler. -/
structure Surroundings (κ σ : Type) where
  user : σ
  now : Nat
  serial : Nat
  timers : List (Timer κ)
  handles : Nat
  holds : Nat
  tickets : List (Ticket × Holder)
  programs : List (RunningProgram κ)
  entered : Nat

namespace World

def surroundings (w : World κ σ) : Surroundings κ σ where
  user := w.user
  now := w.host.now
  serial := w.host.serial
  timers := w.host.timers
  handles := w.handles
  holds := w.holds
  tickets := w.tickets
  programs := w.programs
  entered := w.entered

/-- A timer is taken out of the host, which sets its clock to the timer's deadline. -/
def Due (w : World κ σ) (a : Alarm κ) (w' : World κ σ) : Prop :=
  ∃ limit h, w.host.takeDue limit = some (a, h) ∧ w' = { w with host := h }

/-- A timer that is due has been set. -/
theorem Due.mem {w w' : World κ σ} {a : Alarm κ} (h : w.Due a w') : ∃ key, ⟨key, a⟩ ∈ w.host.timers := by
  obtain ⟨limit, h, due, -⟩ := h
  unfold Host.takeDue at due
  split at due
  · cases due
  · next u us timers =>
    split at due
    · obtain ⟨rfl, -⟩ := Prod.mk.inj (Option.some.inj due)
      exact ⟨u.key, timers ▸ List.mem_cons_self⟩
    · cases due

@[simp] theorem surroundings_note (w : World κ σ) (e : Event κ) :
    (w.note e).surroundings = w.surroundings := rfl

@[simp] theorem surroundings_modify (w : World κ σ) (p : Pid) (f : Proc κ → Proc κ) :
    (w.modify p f).surroundings = w.surroundings := by
  unfold modify
  split <;> rfl

@[simp] theorem surroundings_arm (w : World κ σ) : w.arm.surroundings = w.surroundings := by
  unfold arm
  split <;> rfl

@[simp] theorem surroundings_enqueue (w : World κ σ) (p : Pid) :
    (w.enqueue p).surroundings = w.surroundings := by
  unfold enqueue
  split
  · rfl
  · split
    · rfl
    · rw [surroundings_arm]
      rfl

theorem surroundings_dequeue {w w' : World κ σ} {p : Pid} (h : w.dequeue = some (p, w')) :
    w'.surroundings = w.surroundings := by
  unfold dequeue at h
  split at h
  · cases h
  · obtain ⟨-, rfl⟩ := Prod.mk.inj (Option.some.inj h)
    rw [surroundings_modify]
    rfl

@[simp] theorem surroundings_exit (w : World κ σ) (p : Pid) (r : Except (Value κ) (Value κ)) :
    (w.exit p r).surroundings = w.surroundings := by
  unfold World.exit
  split <;> rfl

@[simp] theorem surroundings_send (w : World κ σ) (p : Pid) (v : Value κ) :
    (w.send p v).surroundings = w.surroundings := by
  unfold send
  split <;> simp

@[simp] theorem surroundings_attach (w : World κ σ) (t : Ticket) (c : Cancel κ) :
    (w.attach t c).1.surroundings = w.surroundings := by
  unfold attach
  split
  · rfl
  · split
    · rfl
    · split <;> rfl
    · rfl

theorem surroundings_reserve {w w' : World κ σ} {p : Pid} (h : w.reserve = .ok (p, w')) :
    w'.surroundings = w.surroundings := by
  unfold reserve at h
  split at h
  · obtain ⟨-, rfl⟩ := Prod.mk.inj (Except.ok.inj h)
    rfl
  · cases h

theorem surroundings_install {w w' : World κ σ} {p : Pid} {label : Option String} {t : Task κ}
    (h : w.install p label t = .ok w') : w'.surroundings = w.surroundings := by
  unfold install at h
  split at h
  · cases h
  · obtain rfl := Except.ok.inj h
    rw [surroundings_enqueue, surroundings_note]
    rfl

theorem surroundings_resume {w w' : World κ σ} {t : Ticket} {task : Task κ}
    (h : w.resume t task = .ok w') : w'.surroundings = w.surroundings := by
  unfold resume at h
  split at h
  · obtain rfl := Except.ok.inj h
    rfl
  · split at h
    · obtain rfl := Except.ok.inj h
      rfl
    · split at h
      · obtain rfl := Except.ok.inj h
        rw [surroundings_enqueue]
        rfl
      · cases h
    · cases h

end World

end Actors
