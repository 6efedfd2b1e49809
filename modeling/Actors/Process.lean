/-
Processes.

A process is a root and a stack: the root is the task that is up next, the stack holds what is to
be done with its outcome. Beside them stand a mailbox and the number of bindings started so far.

* `Handler.nextSuccess`, `Handler.nextFailure` — the next handler that wants an outcome, and the
  stack below it;
* `ProcTable` — all processes ever named, under their numbers.
-/
import Actors.Value
import Actors.Host

namespace Actors

/-- What calls a binding off. -/
inductive Cancel (κ : Type) where
  | thunk (c : κ)
  | timer (k : TimerKey)

/-- What a process is about to do. -/
inductive Root (κ : Type) where
  /-- A task is up next. -/
  | ready (t : Task κ)
  /-- A step is under way. -/
  | stepping
  /-- A binding has been started and has not been completed. -/
  | awaiting (binding : Nat) (cancel : Option (Cancel κ))
  /-- The process has exited or has been killed. -/
  | dead

namespace Root

variable {κ : Type}

def isDead : Root κ → Bool
  | dead => true
  | _ => false

end Root

/-- A continuation on the stack of a process. -/
inductive Handler (κ : Type) where
  | onSuccess (c : Callback κ)
  | onFailure (c : Callback κ)

namespace Handler

variable {κ : Type}

/-- Pops the stack down to the first handler of a success. -/
def nextSuccess : List (Handler κ) → Option (Callback κ × List (Handler κ))
  | [] => none
  | onSuccess c :: rest => some (c, rest)
  | onFailure _ :: rest => nextSuccess rest

/-- Pops the stack down to the first handler of a failure. -/
def nextFailure : List (Handler κ) → Option (Callback κ × List (Handler κ))
  | [] => none
  | onFailure c :: rest => some (c, rest)
  | onSuccess _ :: rest => nextFailure rest

/-- A success goes past handlers of failures only. -/
theorem nextSuccess_eq_some {s : List (Handler κ)} {c : Callback κ} {rest : List (Handler κ)} :
    nextSuccess s = some (c, rest) ↔
      ∃ skipped : List (Callback κ), s = skipped.map onFailure ++ onSuccess c :: rest := by
  induction s with
  | nil => simp [nextSuccess]
  | cons h s ih =>
    cases h with
    | onSuccess d =>
      simp only [nextSuccess, Option.some.injEq, Prod.mk.injEq]
      constructor
      · rintro ⟨rfl, rfl⟩
        exact ⟨[], rfl⟩
      · rintro ⟨skipped, h⟩
        cases skipped <;> simp_all
    | onFailure d =>
      simp only [nextSuccess, ih]
      constructor
      · rintro ⟨skipped, rfl⟩
        exact ⟨d :: skipped, rfl⟩
      · rintro ⟨skipped, h⟩
        cases skipped with
        | nil => simp at h
        | cons e skipped => exact ⟨skipped, by simp_all⟩

/-- A failure goes past handlers of successes only. -/
theorem nextFailure_eq_some {s : List (Handler κ)} {c : Callback κ} {rest : List (Handler κ)} :
    nextFailure s = some (c, rest) ↔
      ∃ skipped : List (Callback κ), s = skipped.map onSuccess ++ onFailure c :: rest := by
  induction s with
  | nil => simp [nextFailure]
  | cons h s ih =>
    cases h with
    | onFailure d =>
      simp only [nextFailure, Option.some.injEq, Prod.mk.injEq]
      constructor
      · rintro ⟨rfl, rfl⟩
        exact ⟨[], rfl⟩
      · rintro ⟨skipped, h⟩
        cases skipped <;> simp_all
    | onSuccess d =>
      simp only [nextFailure, ih]
      constructor
      · rintro ⟨skipped, rfl⟩
        exact ⟨d :: skipped, rfl⟩
      · rintro ⟨skipped, h⟩
        cases skipped with
        | nil => simp at h
        | cons e skipped => exact ⟨skipped, by simp_all⟩

end Handler

/-- The state of one process. -/
structure Proc (κ : Type) where
  label : Option String
  root : Root κ
  stack : List (Handler κ)
  mailbox : List (Value κ)
  /-- The number of the latest binding. -/
  binding : Nat
  /-- Whether the process stands in the work queue. -/
  queued : Bool

namespace Proc

variable {κ : Type}

/-- A process that has not done anything yet. -/
def start (label : Option String) (t : Task κ) : Proc κ :=
  ⟨label, .ready t, [], [], 0, false⟩

def isDead (p : Proc κ) : Bool :=
  p.root.isDead

/-- The process once it has been killed. -/
def killed (p : Proc κ) : Proc κ :=
  { p with root := .dead, stack := [], mailbox := [] }

/-- What has to be run when the process is killed. -/
def cancel? (p : Proc κ) : Option (Cancel κ) :=
  match p.root with
  | .awaiting _ cancel => cancel
  | _ => none

end Proc

/-- The processes by number. A number that has been handed out but not used has no process. -/
structure ProcTable (κ : Type) where
  slots : Array (Option (Proc κ))

namespace ProcTable

variable {κ : Type}

/-- The table without processes; number zero is never used. -/
def empty : ProcTable κ := ⟨#[none]⟩

/-- The number that is handed out next. -/
def nextNumber (t : ProcTable κ) : Nat :=
  t.slots.size

/-- The process of a given name, dead or alive. -/
def get? (t : ProcTable κ) (p : Pid) : Option (Proc κ) :=
  t.slots[p.number]?.join

/-- Puts a process under a name that has been handed out. -/
def set (t : ProcTable κ) (p : Pid) (x : Proc κ) : ProcTable κ :=
  ⟨t.slots.setIfInBounds p.number (some x)⟩

/-- Hands out a name. -/
def reserve (t : ProcTable κ) : Pid × ProcTable κ :=
  (⟨t.slots.size⟩, ⟨t.slots.push none⟩)

/-- Whether a process of this name is alive. -/
def isAlive (t : ProcTable κ) (p : Pid) : Bool :=
  match t.get? p with
  | some x => !x.isDead
  | none => false

/-- The names of the processes that are alive, in ascending order. -/
def alive (t : ProcTable κ) : List Pid :=
  ((List.range t.slots.size).map Pid.mk).filter t.isAlive

theorem get?_eq_none_of_size_le {t : ProcTable κ} {p : Pid} (h : t.nextNumber ≤ p.number) :
    t.get? p = none := by
  have h : t.slots.size ≤ p.number := h
  simp [get?, Array.getElem?_eq_none h]

theorem number_lt_of_get? {t : ProcTable κ} {p : Pid} {x : Proc κ} (h : t.get? p = some x) :
    p.number < t.nextNumber := by
  by_cases hp : p.number < t.nextNumber
  · exact hp
  · simp [get?_eq_none_of_size_le (Nat.le_of_not_lt hp)] at h

/-- Under a name that has been handed out, what was put there last is found. -/
theorem get?_set {t : ProcTable κ} {p : Pid} (x : Proc κ) (h : p.number < t.nextNumber) (q : Pid) :
    (t.set p x).get? q = if q = p then some x else t.get? q := by
  have h : p.number < t.slots.size := h
  obtain ⟨n⟩ := p
  obtain ⟨m⟩ := q
  simp only [get?, set, Array.getElem?_setIfInBounds, Pid.mk.injEq]
  by_cases hmn : n = m
  · subst hmn; simp [h]
  · simp [hmn, Ne.symm hmn]

/-- Handing out a name changes no process. -/
theorem get?_reserve (t : ProcTable κ) (q : Pid) : t.reserve.2.get? q = t.get? q := by
  simp only [get?, reserve, Array.getElem?_push]
  split
  · next h => simp [h]
  · rfl

theorem isAlive_iff {t : ProcTable κ} {p : Pid} :
    t.isAlive p = true ↔ ∃ x, t.get? p = some x ∧ x.isDead = false := by
  unfold isAlive
  split <;> simp_all

theorem mem_alive {t : ProcTable κ} {p : Pid} : p ∈ t.alive ↔ t.isAlive p = true := by
  simp only [alive, List.mem_filter, List.mem_map, List.mem_range, and_iff_right_iff_imp]
  intro h
  obtain ⟨x, hx, -⟩ := isAlive_iff.1 h
  exact ⟨p.number, number_lt_of_get? hx, rfl⟩

end ProcTable

end Actors
