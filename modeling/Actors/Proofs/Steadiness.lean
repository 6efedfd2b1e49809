/-
What is started for a program.

Some disciplines are about the few directives with which processes and programs come into being: a name is
reserved, a process is installed under a name, and a program is founded. All other directives leave what code
owes under such a discipline, so only the two pieces of code that use these directives have to be looked at:
the start of a program, and the start of a process whose task needs its name.

* `Directive.establishes` — these directives;
* `Discipline.Steady`, `Discipline.Steady.lawful` — disciplines about them;
* `Discipline.Steady.goes` — what a step does to what is owed.
-/
import Actors.Proofs.Keeping
import Actors.Proofs.Usage

namespace Actors

variable {κ σ S α β : Type} {b : Behaviour κ σ}

open Procedure

/-- Whether a directive reserves a name, uses one for a process, or founds a program. -/
def Directive.establishes : Directive κ σ → Bool
  | .reserve => true
  | .install .. => true
  | .found _ => true
  | _ => false

/-- A discipline that is about these directives only: what code owes is a list, which is empty wherever code
begins or ends, and which other directives leave as it is. -/
structure Discipline.Steady (b : Behaviour κ σ) (D : Discipline κ σ (List β)) : Prop where
  idle : D.idle = []
  enter : ∀ p c v, D.enter p c v = []
  launch : ∀ t g, D.launch t g = []
  within : ∀ s d, D.within s d = s
  gives : ∀ s t, D.gives s t ↔ s = []
  ends : ∀ s, D.ends s ↔ s = []
  neutral : ∀ s d, d.establishes = false → D.Neutral s d
  returns : ∀ s c r, (b.code c).Returns r → D.knows s (.invoke c) r
  knows : ∀ s d r, (∀ c, d ≠ .invoke c) → D.knows s d r
  spawnWith : ∀ s c, (Procedure.spawnWith c).Restores D s
  start : ∀ s c, (Program.start b c).Restores D s

namespace Discipline.Steady

variable {D : Discipline κ σ (List β)} {s : List β}

theorem restores (h : D.Steady b) {x : Procedure κ σ α} (uses : x.Uses fun d => d.establishes = false) :
    x.Restores D s :=
  uses.restores (h.neutral s)

/-- Code of the user leaves what is owed. -/
theorem code (h : D.Steady b) (x : Code κ σ α) : (ofCode x).Obeys D (fun s' a => s' = s ∧ x.Returns a) s :=
  obeys_ofCode (fun r =>
    ⟨(h.neutral s (.request r) rfl).1,
      fun a => (h.neutral s (.request r) rfl).2 a (h.knows s _ a fun c not => by cases not)⟩) x

theorem invoke (h : D.Steady b) (c : Call κ) : (Procedure.invoke c).Restores D s :=
  h.restores (uses_direct rfl)

/-- The registration of managers brings nothing into being. -/
theorem registration (r : Registry κ) (managers : List (Home × Hooks κ)) :
    (Program.register b r managers).Uses fun d => d.establishes = false :=
  Program.uses_register (fun _ _ => rfl) r managers

/-- An update cycle brings nothing into being. -/
theorem cycle (i : ProgramId) (d : RunningProgram κ) (model : Value κ) (cmds : EffectTree κ) :
    (Program.conclude b i d model cmds).Uses fun d => d.establishes = false :=
  (Program.uses_conclude i d model cmds).mono fun x hx => by cases hx <;> rfl

theorem binding (h : D.Steady b) (t : Ticket) (g : Binding κ) : (g.start b t).Restores D s := by
  by_cases update : ∃ i v, g = .update i v
  · obtain ⟨i, v, rfl⟩ := update
    refine restores_first (h.neutral s _ rfl) fun _ _ => Restores.bind ?_ fun _ => h.restores (uses_direct rfl)
    exact Program.restores_update i v (h.neutral s _ rfl) fun d _ x hx => h.neutral s x (by cases hx <;> rfl)
  · exact h.restores ((Binding.uses_start t fun i v hg => update ⟨i, v, hg⟩).mono fun d hd => by cases hd <;> rfl)

/-- All code keeps to such a discipline. -/
theorem lawful (h : D.Steady b) : D.Lawful b where
  code x := h.idle ▸ (h.code x).mono fun _ _ hs => hs.1
  thunk c := h.idle ▸ h.invoke (.thunk c)
  callback p c v := by
    rw [h.enter]
    refine Obeys.mono ?_ fun s t hs => (h.gives s t).2 hs
    exact h.restores ((c.uses_common v).mono fun d hd => by cases hd <;> rfl)
  binding t g := h.launch t g ▸ (h.binding t g).mono fun s _ hs => (h.ends s).2 hs
  expands s d y may expands := by
    rw [h.within]
    have known : (∀ c, d ≠ .invoke c) → y.Restores D s → y.Obeys D (fun s' r => s' = s ∧ D.knows s d r) s :=
      fun other restores => restores.mono fun _ r hs => ⟨hs, h.knows s d r other⟩
    cases expands with
    | invoke c => exact (h.code (b.code c)).mono fun _ r hs => ⟨hs.1, h.returns s c r hs.2⟩
    | build c => exact known (fun c not => by cases not) (h.invoke _)
    | convert c v => exact known (fun c not => by cases not) (h.invoke _)
    | spawnWith c => exact known (fun c not => by cases not) (h.spawnWith s c)
    | start c => exact known (fun c not => by cases not) (Restores.bind (h.start s c) fun _ => rfl)
    | kill p c => exact known (fun c not => by cases not) (h.invoke _)
    | attach t c c' => exact known (fun c not => by cases not) (h.invoke _)
  drive s e n may :=
    have known : D.knows s (.request (.drive e)) n := h.knows s _ n fun c not => by cases not
    ⟨known, (h.neutral s _ rfl).2 n known⟩

/-- What a directive expands into leaves what is owed. -/
theorem settles (h : D.Steady b) {s s' : List β} (hs : D.Settles b s s') : s' = s := by
  obtain ⟨may, expands, r, known⟩ := hs
  rw [h.within]
  cases expands <;> exact (h.neutral _ _ rfl).2 r known

theorem settled (h : D.Steady b) {s s' : List β} (settled : D.Settled b s s') : s' = s :=
  settled.eq fun _ _ => h.settles

theorem trims (h : D.Steady b) {L L' : List (List β)} (trims : D.Trims b L L') : L'.flatten = L.flatten := by
  induction trims with
  | refl => rfl
  | settle T settled => rw [h.settled settled]
  | drop T => rw [h.idle]; rfl
  | push T => rw [h.idle]; rfl
  | trans _ _ ih ih' => exact ih'.trans ih

/-- A step leaves what is owed by all code together, or code on top performs one of the directives. A directive
that is broken off changes nothing. -/
theorem goes (h : D.Steady b) {m m' : Machine κ σ} {L L' : List (List β)} (goes : D.Goes b m m' L L') :
    (L'.flatten = L.flatten ∧ ∀ d, m.directive? = some d → d.establishes = true →
        m'.world = m.world ∧ m'.fault ≠ none) ∨
      ∃ s T d r, L = s :: T ∧ L' = D.next s d r :: T ∧ m.directive? = some d ∧
        d.establishes = true ∧ D.may s d ∧ D.knows s d r ∧ d.step b m.world Act.ret = .next m'.world (.ret r) := by
  have nothing : m.directive? = none → ∀ d, m.directive? = some d → d.establishes = true →
      m'.world = m.world ∧ m'.fault ≠ none := fun still d hd => by rw [still] at hd; cases hd
  -- Apart from the code on top what is owed can only be rearranged, and what is added or dropped
  -- owes nothing.
  cases goes with
  | quiet still begins trims => exact .inl ⟨h.trims trims, nothing still⟩
  | broken hf still =>
    refine .inl ⟨rfl, fun d hd _ => ⟨still.resolve_left fun none => ?_, fun going => ?_⟩⟩
    · rw [none] at hd
      cases hd
    · rw [hf] at going
      cases going
  | driving top settled may world =>
    refine .inl ⟨by rw [h.settled settled, h.idle]; rfl, fun d hd establishes => ?_⟩
    obtain rfl := Option.some.inj (top.symm.trans hd)
    cases establishes
  | entered still record hc => exact .inl ⟨by rw [h.enter, h.idle], nothing still⟩
  | started still record hx task => exact .inl ⟨by rw [h.launch, h.idle], nothing still⟩
  | returned still top settled gives =>
    exact .inl ⟨by rw [← h.settled settled, (h.gives _ _).1 gives, h.idle], nothing still⟩
  | launched still quiet settled ends =>
    exact .inl ⟨by rw [← h.settled settled, (h.ends _).1 ends, h.idle], nothing still⟩
  | @code s s₁ s' T d top settled may moves =>
    obtain rfl := h.settled settled
    have only : d.establishes = false → ∀ d', m.directive? = some d' → d'.establishes = true →
        m'.world = m.world ∧ m'.fault ≠ none := by
      intro none d' hd' establishes
      obtain rfl := Option.some.inj (top.symm.trans hd')
      cases none.symm.trans establishes
    cases moves with
    | expanded hd expands => exact .inl ⟨by rw [h.within], only (by cases expands <;> rfl)⟩
    | answered r hd known =>
      cases establishes : d.establishes with
      | false => exact .inl ⟨by rw [(h.neutral _ d establishes).2 r known], only establishes⟩
      | true => exact .inr ⟨_, _, _, _, rfl, rfl, top, establishes, may, known, hd⟩

/-- A step of a run that goes on leaves what is owed, or it performs one of the directives. -/
theorem goes_on (h : D.Steady b) {m m' : Machine κ σ} {L L' : List (List β)} (going : m'.fault = none)
    (goes : D.Goes b m m' L L') :
    (L'.flatten = L.flatten ∧ ∀ d, m.directive? = some d → d.establishes = false) ∨
      ∃ s T d r, L = s :: T ∧ L' = D.next s d r :: T ∧ m.directive? = some d ∧
        d.establishes = true ∧ D.may s d ∧ D.knows s d r ∧ d.step b m.world Act.ret = .next m'.world (.ret r) :=
  (h.goes goes).imp_left fun ⟨same, broken⟩ =>
    ⟨same, fun d top => Bool.eq_false_iff.2 fun establishes => (broken d top establishes).2 going⟩

end Discipline.Steady

end Actors
