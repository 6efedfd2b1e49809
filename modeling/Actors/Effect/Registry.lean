/-
Registered managers.

A registry lists the managers of one program, each under a home of its own, in the order in which
they were registered. Beside the list it has an index, by which the manager under a home is found
without going through the list. The two are kept together: the index leads from every home to its
own place, and to no other.

* `Registry.register` — adds a manager, or refuses a home that is taken;
* `Registry.position?`, `Registry.find?` — the place of a home, and the manager there;
* `Registry.find?_eq` — it is the manager that a search through the list finds.
-/
import Actors.Call

namespace Actors

/-- The managers of a program, with no home twice. -/
structure Registry (κ : Type) where
  entries : List (Home × Hooks κ)
  /-- Where each home stands in the list. -/
  index : List (Home × Nat)
  indexed : ∀ home i, index.lookup home = some i ↔ (entries[i]?).map Prod.fst = some home

namespace Registry

variable {κ : Type}

/-- The registry without managers. -/
def empty : Registry κ where
  entries := []
  index := []
  indexed _ _ := ⟨nofun, nofun⟩

/-- The homes, in order of registration. -/
def homes (r : Registry κ) : List Home :=
  r.entries.map Prod.fst

/-- The place of a home in the list. -/
def position? (r : Registry κ) (home : Home) : Option Nat :=
  r.index.lookup home

/-- Whether a home is taken. -/
def contains (r : Registry κ) (home : Home) : Bool :=
  (r.position? home).isSome

/-- The manager under a home. -/
def find? (r : Registry κ) (home : Home) : Option (Hooks κ) :=
  (r.position? home).bind fun i => (r.entries[i]?).map Prod.snd

/-- The effects that the manager under a home accepts. -/
def kind? {σ : Type} (b : Behaviour κ σ) (r : Registry κ) (home : Home) : Option ManagerKind :=
  (r.find? home).map fun m => (m.manager b).kind

theorem position?_eq_some {r : Registry κ} {home : Home} {i : Nat} :
    r.position? home = some i ↔ r.homes[i]? = some home := by
  rw [homes, List.getElem?_map]
  exact r.indexed home i

theorem entry_of_position? {r : Registry κ} {home : Home} {i : Nat} (h : r.position? home = some i) :
    ∃ m, r.entries[i]? = some (home, m) := by
  obtain ⟨⟨_, m⟩, he, rfl⟩ := Option.map_eq_some_iff.1 ((r.indexed home i).1 h)
  exact ⟨m, he⟩

theorem contains_iff {r : Registry κ} {home : Home} : r.contains home = true ↔ home ∈ r.homes := by
  rw [contains, Option.isSome_iff_exists, List.mem_iff_getElem?]
  exact exists_congr fun _ => position?_eq_some

theorem contains_eq_false {r : Registry κ} {home : Home} :
    r.contains home = false ↔ home ∉ r.homes := by
  rw [← contains_iff, Bool.not_eq_true]

/-- Puts a manager behind the others, under a home that is free. -/
def add (r : Registry κ) (home : Home) (m : Hooks κ) (free : r.contains home = false) :
    Registry κ where
  entries := r.entries ++ [(home, m)]
  index := (home, r.entries.length) :: r.index
  indexed other i := by
    have absent : ∀ k, (r.entries[k]?).map Prod.fst ≠ some home := fun k there =>
      contains_eq_false.1 free (List.mem_of_getElem? ((List.getElem?_map ..).trans there))
    rw [List.lookup_cons, List.getElem?_append]
    by_cases same : other = home
    · rw [same, beq_self_eq_true]
      show some r.entries.length = some i ↔ _
      split
      · next early => exact ⟨fun h => by cases h; omega, fun there => absurd there (absent i)⟩
      · next late =>
        rw [List.getElem?_singleton]
        split
        · next last => exact ⟨fun _ => rfl, fun _ => congrArg some (by omega)⟩
        · next past => exact ⟨fun h => by cases h; omega, nofun⟩
    · rw [beq_false_of_ne same]
      show r.index.lookup other = some i ↔ _
      rw [r.indexed]
      split
      · exact Iff.rfl
      · next late =>
        rw [List.getElem?_eq_none (Nat.not_lt.1 late), List.getElem?_singleton]
        split
        · exact ⟨nofun, fun h => absurd (Option.some.inj h).symm same⟩
        · exact Iff.rfl

/-- Adds a manager behind the others. A home that is taken is refused. -/
def register (r : Registry κ) (home : Home) (m : Hooks κ) : Except Fault (Registry κ) :=
  if taken : r.contains home = true then .error (.alreadyRegistered home)
  else .ok (r.add home m (Bool.eq_false_iff.2 taken))

/-- What a call of `register` makes of a registry. A call that is refused leaves it. -/
def call (r : Registry κ) (e : Home × Hooks κ) : Registry κ :=
  match r.register e.1 e.2 with
  | .ok s => s
  | .error _ => r

/-- A manager is added exactly if its home is free, and then it comes last. -/
theorem register_eq_ok {r s : Registry κ} {home : Home} {m : Hooks κ} :
    r.register home m = .ok s ↔ ∃ free, s = r.add home m free := by
  unfold register
  split
  · next taken => exact ⟨nofun, fun ⟨free, _⟩ => absurd taken (Bool.eq_false_iff.1 free)⟩
  · next free =>
    exact ⟨fun h => ⟨Bool.eq_false_iff.2 free, (Except.ok.inj h).symm⟩, fun ⟨_, h⟩ => congrArg _ h.symm⟩

@[simp] theorem homes_add (r : Registry κ) (home : Home) (m : Hooks κ) (free : r.contains home = false) :
    (r.add home m free).homes = r.homes ++ [home] :=
  List.map_append

/-- A manager is found exactly under the homes that are taken. -/
theorem find?_isSome (r : Registry κ) (home : Home) : (r.find? home).isSome = r.contains home := by
  rw [find?, contains]
  cases h : r.position? home with
  | none => rfl
  | some i =>
    obtain ⟨m, he⟩ := entry_of_position? h
    rw [Option.bind_some, he]
    rfl

/-- The manager under a home is the first one in the list that stands under it. -/
theorem find?_eq (r : Registry κ) (home : Home) :
    r.find? home = (r.entries.find? fun e => e.1 = home).map Prod.snd := by
  rw [find?]
  cases h : r.position? home with
  | none =>
    have absent : home ∉ r.homes := contains_eq_false.1 (by rw [contains, h]; rfl)
    rw [List.find?_eq_none.2 fun e he same => absent (List.mem_map.2 ⟨e, he, of_decide_eq_true same⟩)]
    rfl
  | some i =>
    obtain ⟨m, he⟩ := entry_of_position? h
    cases hf : r.entries.find? fun e => e.1 = home with
    | none => exact absurd (decide_eq_true rfl) (List.find?_eq_none.1 hf _ (List.mem_of_getElem? he))
    | some e =>
      -- The index leads to one place only, which is that of the entry that is found.
      obtain ⟨k, hk⟩ := List.mem_iff_getElem?.1 (List.mem_of_find?_eq_some hf)
      have same : e.1 = home := by simpa using List.find?_some hf
      have place : r.position? home = some k := (r.indexed home k).2 (by rw [hk, ← same]; rfl)
      obtain rfl : i = k := Option.some.inj (h.symm.trans place)
      rw [Option.bind_some, hk]

/-- The text of a registry: each home with the kind of its manager. -/
def text (kind : Hooks κ → ManagerKind) (r : Registry κ) : String :=
  "\x7b" ++ ", ".intercalate (r.entries.map fun e =>
    e.1.text ++ ": DynManager \x7b kind: " ++ (kind e.2).text ++ ", .. \x7d") ++ "\x7d"

end Registry

end Actors
