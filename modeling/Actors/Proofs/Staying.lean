/-
The place of code.

Code that has something left to do stays on the stack until it is done. Whatever it waits for comes on
top of it and is gone before it goes on, so below it the stack stays as it is, and its place can be counted
from there.

* `Activity.isOpen` — code that has not come to its end;
* `Discipline.Stays` — states in which code has something left to do;
* `Marked`, `Marked.goes` — such code is under way, with so many activities below it;
* `Machine.Appoints`, `Machine.Appoints.step` — its place on the stack.
-/
import Actors.Proofs.Counting
import Actors.Proofs.Lifetime

namespace Actors

variable {κ σ S α : Type} {b : Behaviour κ σ} {D : Discipline κ σ S} {P : S → Prop}

open Activity

/-! ### Code with something left to do -/

/-- Whether code is under way that has not come to its end. -/
def Activity.isOpen : Activity κ σ → Bool
  | .work (.run (.ret _)) => false
  | .work _ => true
  | .tick _ _ (.callback _ (.run (.ret _))) => false
  | .tick _ _ (.callback _ _) => true
  | .tick _ _ (.starting _ (.run (.ret _))) => false
  | .tick _ _ (.starting _ _) => true
  | _ => false

/-- States of a discipline in which code does not end. Code does not leave them when something that it
has called returns. -/
structure Discipline.Stays (D : Discipline κ σ S) (b : Behaviour κ σ) (P : S → Prop) : Prop where
  idle : ¬P D.idle
  within : ∀ s d, P s → P (D.within s d)
  settles : ∀ s s', P s → D.Settles b s s' → P s'
  gives : ∀ s t, P s → ¬D.gives s t
  ends : ∀ s, P s → ¬D.ends s

namespace Discipline.Stays

variable {s s' : S}

theorem settled (h : D.Stays b P) (hs : P s) (settled : D.Settled b s s') : P s' := by
  induction settled with
  | refl => exact hs
  | head first _ ih => exact ih (h.settles _ _ hs first)

/-- Code in such a state has not come to its end. -/
theorem isOpen (h : D.Stays b P) (hs : P s) {a : Activity κ σ} (keeps : a.Keeps D b s) :
    a.isOpen = true := by
  -- Code that returns owes nothing any more, in whatever frame it stands.
  have ended : ∀ {α : Type} (fr : Frame κ σ α) (x : α), ¬(fr.fill (.run (.ret x))).Keeps D b s := by
    intro α fr x keeps
    obtain ⟨s', settled, ends⟩ := ((fr.keeps_fill _ s).1 keeps).ret_cases rfl
    have hs' := h.settled hs settled
    cases fr with
    | work =>
      have ends : s' = D.idle := ends
      exact h.idle (ends ▸ hs')
    | callback => exact h.gives _ _ hs' ends
    | starting => exact h.ends _ hs' ends
  have owes : s ≠ D.idle := fun idle => h.idle (idle ▸ hs)
  cases a with
  | work c =>
    cases c with
    | await k => rfl
    | run c =>
      cases c with
      | ret u => exact absurd keeps (ended .work u)
      | _ => rfl
  | drive goal n => exact absurd keeps owes
  | tick n k phase =>
    cases phase with
    | seek => exact absurd keeps owes
    | turn q => exact absurd keeps owes
    | callback q c =>
      cases c with
      | await k => rfl
      | run c =>
        cases c with
        | ret t => exact absurd keeps (ended (.callback n k q) t)
        | _ => rfl
    | starting q c =>
      cases c with
      | await k => rfl
      | run c =>
        cases c with
        | ret u => exact absurd keeps (ended (.starting n k q) u)
        | _ => rfl

end Discipline.Stays

/-! ### Its place among what is under way -/

/-- Of what is under way, with so many below it, one is in a certain state. -/
def Marked (P : S → Prop) (n : Nat) (L : List S) : Prop :=
  ∃ above s below, L = above ++ s :: below ∧ P s ∧ below.length = n

namespace Marked

variable {n : Nat} {s : S} {T L L' : List S}

theorem head (hs : P s) (h : T.length = n) : Marked P n (s :: T) :=
  ⟨[], s, T, rfl, hs, h⟩

theorem cons (s : S) (h : Marked P n T) : Marked P n (s :: T) := by
  obtain ⟨above, u, below, rfl, hu, length⟩ := h
  exact ⟨s :: above, u, below, rfl, hu, length⟩

theorem head_or_tail (h : Marked P n (s :: T)) : (P s ∧ T.length = n) ∨ Marked P n T := by
  obtain ⟨above, u, below, same, hu, length⟩ := h
  cases above with
  | nil =>
    obtain ⟨rfl, rfl⟩ := List.cons.inj same
    exact .inl ⟨hu, length⟩
  | cons x above =>
    obtain ⟨rfl, rfl⟩ := List.cons.inj same
    exact .inr ⟨above, u, below, rfl, hu, length⟩

theorem tail (h : Marked P n (s :: T)) (hs : ¬P s) : Marked P n T :=
  h.head_or_tail.resolve_left fun h => hs h.1

theorem trims (h : Marked P n L) (stays : D.Stays b P) (trims : D.Trims b L L') : Marked P n L' := by
  induction trims with
  | refl => exact h
  | settle T settled =>
    rcases h.head_or_tail with ⟨hs, length⟩ | h
    · exact head (stays.settled hs settled) length
    · exact h.cons _
  | drop T => exact h.tail stays.idle
  | push T => exact h.cons _
  | trans _ _ ih ih' => exact ih' (ih h)

/-- Such code stays where it is, until it is answered and goes on in another state. -/
theorem goes {m : Machine κ σ} (h : Marked P n L) (stays : D.Stays b P)
    (going : (m.step b).fault = none) (goes : D.Goes b m (m.step b) L L') :
    Marked P n L' ∨ ∃ s d r, P s ∧ m.directive? = some d ∧ D.may s d ∧
      d.step b m.world Act.ret = .next (m.step b).world (.ret r) ∧ ¬P (D.next s d r) := by
  cases goes with
  | quiet still begins trims => exact .inl (h.trims stays trims)
  | broken hf =>
    rw [hf] at going
    cases going
  | driving top settled =>
    rcases h.head_or_tail with ⟨hs, length⟩ | h
    · exact .inl ((head (stays.settled hs settled) length).cons _)
    · exact .inl ((h.cons _).cons _)
  | entered => exact .inl ((h.tail stays.idle).cons _)
  | started => exact .inl ((h.tail stays.idle).cons _)
  | returned still top settled gives =>
    exact .inl ((h.tail fun hs => stays.gives _ _ (stays.settled hs settled) gives).cons _)
  | launched still silent settled ends =>
    exact .inl ((h.tail fun hs => stays.ends _ (stays.settled hs settled) ends).cons _)
  -- Only the code on top can leave its place, and only when a directive is answered.
  | @code s s₁ s' T d top settled may moves =>
    rcases h.head_or_tail with ⟨hs, length⟩ | h
    · have hs₁ := stays.settled hs settled
      cases moves with
      | expanded hd expands => exact .inl (head (stays.within _ _ hs₁) length)
      | answered r hd known =>
        by_cases hn : P (D.next s₁ d r)
        · exact .inl (head hn length)
        · exact .inr ⟨s₁, d, r, hs₁, top, may, hd, hn⟩
    · exact .inl (h.cons _)

end Marked

/-! ### Its place on the stack -/

/-- Two activities belong to the same part of the same process, or to none. -/
structure Activity.Akin (a a' : Activity κ σ) : Prop where
  concerns? : a'.concerns? = a.concerns?
  starting? : a'.starting? = a.starting?

theorem Activity.Akin.refl (a : Activity κ σ) : a.Akin a :=
  ⟨rfl, rfl⟩

theorem Activity.Akin.trans {a a' a'' : Activity κ σ} (h : a.Akin a') (h' : a'.Akin a'') : a.Akin a'' :=
  ⟨h'.concerns?.trans h.concerns?, h'.starting?.trans h.starting?⟩

theorem Activity.akin_resume (n : Nat) (a : Activity κ σ) : a.Akin (a.resume n) := by
  unfold resume
  split <;> exact ⟨rfl, rfl⟩

theorem Frame.akin (fr : Frame κ σ α) (c c' : Pending κ σ α) : (fr.fill c).Akin (fr.fill c') := by
  cases fr <;> exact ⟨rfl, rfl⟩

/-- Code that has not come to its end stays on the stack, and belongs to the same process. -/
theorem Transition.of_open {m m' : Machine κ σ} {r : Record κ} (tr : Transition b m r m')
    {a : Activity κ σ} {s : List (Activity κ σ)} (stack : m.stack = a :: s) (opened : a.isOpen = true)
    (going : m'.fault = none) : ∃ above a', m'.stack = above ++ a' :: s ∧ a.Akin a' := by
  cases tr with
  | rest => exact ⟨[], a, stack, .refl a⟩
  | code fr hd =>
    obtain ⟨rfl, rfl⟩ := List.cons.inj stack
    exact ⟨[], _, rfl, fr.akin _ _⟩
  | driving fr hd =>
    obtain ⟨rfl, rfl⟩ := List.cons.inj stack
    exact ⟨[_], _, rfl, fr.akin _ _⟩
  | broken => cases going
  | _ =>
    obtain ⟨rfl, rfl⟩ := List.cons.inj stack
    cases opened

/-- A step leaves what is below the top of the stack, but for the count of a drive that is over. -/
theorem Transition.leaves_below {m m' : Machine κ σ} {r : Record κ} (tr : Transition b m r m')
    {a : Activity κ σ} {s : List (Activity κ σ)} (stack : m.stack = a :: s) :
    (∃ above, m'.stack = above ++ s) ∨ ∃ n, m'.stack = Machine.resumeTop n s := by
  -- Only the end of a drive reaches the activity below the top, to tell it how much was done.
  cases tr with
  | rest => exact .inl ⟨[a], stack⟩
  | finished =>
    obtain ⟨-, rfl⟩ := List.cons.inj stack
    exact .inl ⟨[], rfl⟩
  | ended =>
    obtain ⟨-, rfl⟩ := List.cons.inj stack
    exact .inl ⟨[], rfl⟩
  | driving =>
    obtain ⟨-, rfl⟩ := List.cons.inj stack
    exact .inl ⟨[_, _], rfl⟩
  | pumped =>
    obtain ⟨-, rfl⟩ := List.cons.inj stack
    exact .inl ⟨[_, _], rfl⟩
  | thunk =>
    obtain ⟨-, rfl⟩ := List.cons.inj stack
    exact .inl ⟨[_, _], rfl⟩
  | driven =>
    obtain ⟨-, rfl⟩ := List.cons.inj stack
    exact .inr ⟨_, rfl⟩
  | _ =>
    obtain ⟨-, rfl⟩ := List.cons.inj stack
    exact .inl ⟨[_], rfl⟩

namespace Machine

variable {m : Machine κ σ} {below : List (Activity κ σ)} {a : Activity κ σ}

/-- The code that stands on the stack right above the others belongs where a certain activity does. -/
def Appoints (m : Machine κ σ) (below : List (Activity κ σ)) (a : Activity κ σ) : Prop :=
  ∃ above a', m.stack = above ++ a' :: below ∧ a.Akin a'

/-- The states of what is under way stand for the stack, so what is marked is on it. -/
theorem Keeps.marked_top {L : List S} (keeps : m.Keeps D b L) (going : m.fault = none)
    (stays : D.Stays b P) (stack : m.stack = a :: below) (h : Marked P below.length L) :
    a.isOpen = true := by
  have aligned := keeps going
  rw [stack] at aligned
  cases aligned with
  | @cons x _ T _ top rest =>
    rcases h.head_or_tail with ⟨hx, -⟩ | ⟨above, u, under, rfl, -, length⟩
    · exact stays.isOpen hx top
    · have := rest.length_eq
      simp only [List.length_append, List.length_cons] at this
      omega

/-- Marked code stays in its place. -/
theorem Appoints.step {L : List S} (h : m.Appoints below a) (keeps : m.Keeps D b L)
    (stays : D.Stays b P) (marked : Marked P below.length L) (going : (m.step b).fault = none) :
    (m.step b).Appoints below a := by
  obtain ⟨above, a', stack, akin⟩ := h
  have tr := Machine.transition b m
  cases above with
  | nil =>
    have opened := keeps.marked_top (Machine.going_of_step going) stays stack marked
    obtain ⟨above', a'', stack', same⟩ := tr.of_open stack opened going
    exact ⟨above', a'', stack', akin.trans same⟩
  | cons x above =>
    rcases tr.leaves_below stack with ⟨above', stack'⟩ | ⟨n, stack'⟩
    · exact ⟨above' ++ above, a', stack'.trans (List.append_assoc above' above _).symm, akin⟩
    · cases above with
      | nil => exact ⟨[], a'.resume n, stack', akin.trans (akin_resume n a')⟩
      | cons y above => exact ⟨y.resume n :: above, a', stack', akin⟩

/-- A directive leaves the code that performs it on the stack. -/
theorem appoints_of_directive? {d : Directive κ σ} (top : m.directive? = some d)
    (stack : m.stack = a :: below) (going : (m.step b).fault = none) :
    (m.step b).Appoints below a := by
  obtain ⟨α, w, fr, k, s, rfl⟩ := Machine.eq_of_directive? top
  obtain ⟨rfl, rfl⟩ := List.cons.inj stack
  have opened : (fr.fill (.run (.op d k))).isOpen = true := by cases fr <;> rfl
  exact (Machine.transition b _).of_open rfl opened going

end Machine

end Actors
