/-
Code as interaction trees.

Code that runs inside a system of processes is a finite tree: it returns a value, it breaks the
contract, or it performs one operation and goes on in a way that depends on the reply. What
operations there are is a `Signature`. Nothing in a tree says what an operation does; the machine
that runs the tree decides, one operation at a time, and may suspend the rest of a tree as data.

* `Act S α` — trees over the operations of `S` with results in `α`;
* `Act.bind` — sequencing, with the monad laws as lemmas.
-/
import Actors.Fault

namespace Actors

/-- A set of operations, each with the type of its reply. -/
structure Signature where
  Op : Type
  Reply : Op → Type

/-- Code over the operations of `S` that ends with a result in `α` or with a fault. -/
inductive Act (S : Signature) (α : Type) where
  | ret (a : α)
  | raise (f : Fault)
  | op (o : S.Op) (k : S.Reply o → Act S α)

namespace Act

variable {S : Signature} {α β γ : Type}

/-- Runs the first tree, then the tree that its result selects. A fault skips the second. -/
def bind : Act S α → (α → Act S β) → Act S β
  | ret a, f => f a
  | raise e, _ => raise e
  | op o k, f => op o fun r => (k r).bind f

/-- Changes the result. -/
def map (g : α → β) : Act S α → Act S β
  | ret a => ret (g a)
  | raise e => raise e
  | op o k => op o fun r => (k r).map g

/-- A single operation, whose reply is the result. -/
def perform (o : S.Op) : Act S (S.Reply o) :=
  op o ret

instance : Monad (Act S) where
  pure := ret
  bind := bind
  map := map

/-- Runs a tree for every element of a list, from left to right, and collects the results. -/
def traverse (f : α → Act S β) : List α → Act S (List β)
  | [] => ret []
  | a :: as => (f a).bind fun b => (traverse f as).map (b :: ·)

/-- The result if there is one, and otherwise the fault. -/
def ofExcept : Except Fault α → Act S α
  | .ok a => ret a
  | .error e => raise e

theorem bind_ret (x : Act S α) : x.bind ret = x := by
  induction x with
  | ret a => rfl
  | raise e => rfl
  | op o k ih => simp only [bind]; congr 1; funext r; exact ih r

theorem bind_assoc (x : Act S α) (f : α → Act S β) (g : β → Act S γ) :
    (x.bind f).bind g = x.bind fun a => (f a).bind g := by
  induction x with
  | ret a => rfl
  | raise e => rfl
  | op o k ih => simp only [bind]; congr 1; funext r; exact ih r

/-- Two trees in a row that begin with an operation begin with one of the first tree, unless that is only a
result. -/
theorem of_bind_op {x : Act S α} {f : α → Act S β} {o : S.Op} {k : S.Reply o → Act S β}
    (h : x.bind f = op o k) :
    (∃ a, x = ret a ∧ f a = op o k) ∨ ∃ k', x = op o k' ∧ (fun r => (k' r).bind f) = k := by
  cases x with
  | ret a => exact .inl ⟨a, rfl, h⟩
  | raise e => cases h
  | op o' k' =>
    cases h
    exact .inr ⟨k', rfl, rfl⟩

theorem of_bind_ret {x : Act S α} {f : α → Act S β} {c : β} (h : x.bind f = ret c) :
    ∃ a, x = ret a ∧ f a = ret c := by
  cases x with
  | ret a => exact ⟨a, rfl, h⟩
  | raise e => cases h
  | op o k => cases h

theorem of_bind_raise {x : Act S α} {f : α → Act S β} {e : Fault} (h : x.bind f = raise e) :
    (∃ a, x = ret a ∧ f a = raise e) ∨ x = raise e := by
  cases x with
  | ret a => exact .inl ⟨a, rfl, h⟩
  | raise e' => exact .inr (congrArg raise (raise.inj h))
  | op o k => cases h

theorem map_eq_bind (g : α → β) (x : Act S α) : x.map g = x.bind fun a => ret (g a) := by
  induction x with
  | ret a => rfl
  | raise e => rfl
  | op o k ih => simp only [bind, map]; congr 1; funext r; exact ih r

end Act

end Actors
