/-
Registration.

Managers are registered one call after another, in any number and under any homes. A call under a home that
has been registered before is refused, and nothing is changed by it. So a registry has the homes that it has
been told of, each once and in the order in which they came first, and under each of them the manager that
came first. A program is started with the managers of its application, if none of them is refused.

* `Registry.after` — what many calls make of a registry;
* `Registry.Answers` — how a further call is answered;
* `Registry.Lists` — what there is after any calls: the homes, the index, and what is found;
* `Program.obeys_register` — the code that registers the managers of an application.
-/
import Actors.Proofs.Discipline
import Mathlib

namespace Actors

variable {κ σ S : Type} {b : Behaviour κ σ}

namespace Registry

variable {r : Registry κ} {home : Home} {m : Hooks κ}

/-! ### One call -/

theorem register_of_mem (m : Hooks κ) (h : home ∈ r.homes) :
    r.register home m = .error (.alreadyRegistered home) :=
  dif_pos (contains_iff.2 h)

theorem register_of_not_mem (m : Hooks κ) (h : home ∉ r.homes) :
    r.register home m = .ok (r.add home m (contains_eq_false.2 h)) :=
  dif_neg (mt contains_iff.1 h)

theorem call_of_mem {e : Home × Hooks κ} (h : e.1 ∈ r.homes) : r.call e = r := by
  rw [call, register_of_mem e.2 h]

theorem call_of_not_mem {e : Home × Hooks κ} (h : e.1 ∉ r.homes) :
    r.call e = r.add e.1 e.2 (contains_eq_false.2 h) := by
  rw [call, register_of_not_mem e.2 h]

/-- A call is refused exactly if its home is taken. -/
theorem refuses_iff : (∃ f, r.register home m = .error f) ↔ home ∈ r.homes := by
  refine ⟨fun ⟨f, h⟩ => ?_, fun h => ⟨_, register_of_mem m h⟩⟩
  by_contra free
  rw [register_of_not_mem m free] at h
  cases h

/-- The index leads to one place only, so no home stands at two places. -/
theorem homes_nodup (r : Registry κ) : r.homes.Nodup := by
  refine List.nodup_iff_getElem?_ne_getElem?.2 fun i j less bound same => Nat.ne_of_lt less ?_
  have there : r.homes[j]? = some r.homes[j] := List.getElem?_eq_getElem bound
  have left := position?_eq_some.2 (same.trans there)
  exact Option.some.inj (left.symm.trans (position?_eq_some.2 there))

/-! ### Many calls -/

/-- What calls make of a registry, one after another. -/
def after (r : Registry κ) (calls : List (Home × Hooks κ)) : Registry κ :=
  calls.foldl call r

theorem after_snoc (r : Registry κ) (calls : List (Home × Hooks κ)) (e : Home × Hooks κ) :
    r.after (calls ++ [e]) = (r.after calls).call e :=
  List.foldl_append

/-- The homes are those of the calls, each where it has come first. -/
theorem homes_after (calls : List (Home × Hooks κ)) :
    (empty.after calls).homes = (calls.map Prod.fst).eraseDups := by
  induction calls using List.reverseRecOn with
  | nil => rfl
  | append_singleton calls e ih =>
    -- The last call comes for a home that is known, or it adds its home behind the others.
    have known : e.1 ∈ (empty.after calls).homes ↔ e.1 ∈ calls.map Prod.fst := by
      rw [ih, List.mem_eraseDups]
    rw [after_snoc, List.map_append, List.map_singleton, List.eraseDups_append, ← ih]
    by_cases taken : e.1 ∈ (empty.after calls).homes
    · have none : [e.1].removeAll (calls.map Prod.fst) = [] := by
        simpa [List.removeAll] using known.1 taken
      rw [call_of_mem taken, none]
      exact (List.append_nil _).symm
    · have one : [e.1].removeAll (calls.map Prod.fst) = [e.1] := by
        simpa [List.removeAll] using mt known.2 taken
      rw [call_of_not_mem taken, homes_add, one]
      rfl

/-- A home is taken exactly if a call has come for it. -/
theorem mem_homes_after {calls : List (Home × Hooks κ)} :
    home ∈ (empty.after calls).homes ↔ home ∈ calls.map Prod.fst := by
  rw [homes_after, List.mem_eraseDups]

/-- Under a home there is the manager of the first call that has come for it. -/
theorem find?_after (calls : List (Home × Hooks κ)) (home : Home) :
    (empty.after calls).find? home = (calls.find? fun e => e.1 = home).map Prod.snd := by
  induction calls using List.reverseRecOn with
  | nil => rfl
  | append_singleton calls e ih =>
    rw [after_snoc, List.find?_append]
    by_cases taken : e.1 ∈ (empty.after calls).homes
    · rw [call_of_mem taken, ih]
      by_cases same : e.1 = home
      · -- There is a call for this home among those before.
        obtain ⟨e', he', hh⟩ := List.mem_map.1 (mem_homes_after.1 (same ▸ taken))
        have found : (calls.find? fun e => e.1 = home).isSome = true :=
          List.find?_isSome.2 ⟨e', he', decide_eq_true hh⟩
        rw [Option.or_of_isSome found]
      · rw [List.find?_singleton, if_neg (by simpa using same), Option.or_none]
    · rw [call_of_not_mem taken, find?_eq]
      show (((empty.after calls).entries ++ [e]).find? fun e => e.1 = home).map Prod.snd = _
      rw [List.find?_append, Option.map_or, Option.map_or, ← find?_eq, ih]

/-- The index has each home with its own place, once, and nothing else. -/
theorem index_after (calls : List (Home × Hooks κ)) :
    (empty.after calls).index.Perm (empty.after calls).homes.zipIdx := by
  induction calls using List.reverseRecOn with
  | nil => exact List.Perm.refl _
  | append_singleton calls e ih =>
    rw [after_snoc]
    by_cases taken : e.1 ∈ (empty.after calls).homes
    · rw [call_of_mem taken]
      exact ih
    · rw [call_of_not_mem taken, homes_add, List.zipIdx_append, List.zipIdx_singleton, Nat.zero_add]
      have last : (empty.after calls).homes.length = (empty.after calls).entries.length := List.length_map _
      rw [last]
      exact (ih.cons _).trans (List.perm_append_singleton _ _).symm

/-- How a registry answers a further call after others: a home that has been registered is refused, as a bad
argument, and nothing is changed by that; otherwise the manager is put behind the others. -/
structure Answers (calls : List (Home × Hooks κ)) (home : Home) (m : Hooks κ) : Prop where
  refused : (∃ f, (empty.after calls).register home m = .error f) ↔ home ∈ calls.map Prod.fst
  fault : ∀ f, (empty.after calls).register home m = .error f →
    f = .alreadyRegistered home ∧ f.group = .badArgument
  kept : home ∈ calls.map Prod.fst → empty.after (calls ++ [(home, m)]) = empty.after calls
  added : home ∉ calls.map Prod.fst →
    (empty.after (calls ++ [(home, m)])).entries = (empty.after calls).entries ++ [(home, m)]

theorem answers (calls : List (Home × Hooks κ)) (home : Home) (m : Hooks κ) : Answers calls home m where
  refused := refuses_iff.trans mem_homes_after
  fault f h := by
    rw [register_of_mem m (refuses_iff.1 ⟨f, h⟩)] at h
    obtain rfl := Except.error.inj h
    exact ⟨rfl, rfl⟩
  kept h := (after_snoc _ calls _).trans (call_of_mem (mem_homes_after.2 h))
  added h := by
    rw [after_snoc, call_of_not_mem (mt mem_homes_after.1 h)]
    rfl

/-- What a registry is after calls: its homes are those of the calls, in the order in which they came first; the
index leads from each of them to its own entry; and what is found there is the manager that came first. -/
structure Lists (b : Behaviour κ σ) (calls : List (Home × Hooks κ)) (r : Registry κ) : Prop where
  homes : r.homes = (calls.map Prod.fst).eraseDups
  nodup : r.homes.Nodup
  index : r.index.Perm r.homes.zipIdx
  place : ∀ home i, r.position? home = some i ↔ (r.entries[i]?).map Prod.fst = some home
  find : ∀ home, r.find? home = (calls.find? fun e => e.1 = home).map Prod.snd
  kind : ∀ home, r.kind? b home = (calls.find? fun e => e.1 = home).map fun e => (e.2.manager b).kind

theorem lists (b : Behaviour κ σ) (calls : List (Home × Hooks κ)) : (empty.after calls).Lists b calls where
  homes := homes_after calls
  nodup := homes_nodup _
  index := index_after calls
  place := (empty.after calls).indexed
  find := find?_after calls
  kind home := by rw [kind?, find?_after, Option.map_map]; rfl

end Registry

/-! ### The managers of an application -/

/-- The managers of an application are registered one after another. If none is refused, the registry has all of
them. -/
theorem Program.obeys_register {D : Discipline κ σ S} {s : S}
    (note : ∀ home k, D.Neutral s (.note (.registered home k))) :
    ∀ (managers : List (Home × Hooks κ)) (r : Registry κ), (Program.register b r managers).Obeys D
      (fun s' x => s' = s ∧ ∀ r', x = .ok r' → r' = r.after managers ∧ r'.entries = r.entries ++ managers) s
  | [], r => ⟨rfl, fun _ hr => Except.ok.inj hr ▸ ⟨rfl, (List.append_nil _).symm⟩⟩
  | (home, hooks) :: rest, r => by
    rw [Program.register]
    split
    · exact ⟨rfl, fun _ hr => by cases hr⟩
    · next r₁ hr =>
      have called : r.call (home, hooks) = r₁ := by rw [Registry.call, hr]
      obtain ⟨free, rfl⟩ := Registry.register_eq_ok.1 hr
      refine Procedure.obeys_neutral (note home _) fun _ _ => ?_
      refine (Program.obeys_register note rest _).mono fun s' x h => ⟨h.1, fun r' hx => ?_⟩
      obtain ⟨same, entries⟩ := h.2 r' hx
      refine ⟨?_, entries.trans (List.append_assoc _ [(home, hooks)] rest)⟩
      rw [same, Registry.after, Registry.after, List.foldl_cons, called]

end Actors
