/-
Machines that keep to a discipline.

Every activity on the stack of a machine has a state of its own, and its code obeys the discipline in
this state. A step moves the state on top only: code performs a directive that it may perform, a
continuation is entered or the work of a binding begun in the state that the discipline has for that,
and whatever is over leaves nothing behind.

* `Activity.Keeps`, `Machine.Keeps` — the states of what is under way;
* `Discipline.Trims`, `Discipline.Goes` — what a step can do to the states;
* `Machine.Keeps.transition` — every step preserves it.
-/
import Actors.Proofs.Discipline
import Actors.Proofs.History
import Actors.Proofs.Proper
import Mathlib.Data.List.Forall2

namespace Actors

variable {κ σ S α : Type} {b : Behaviour κ σ} {D : Discipline κ σ S}

open Procedure

/-- Code that runs or waits is under way in a state. -/
def Pending.Keeps (D : Discipline κ σ S) (b : Behaviour κ σ) (Q : S → α → Prop) (s : S) :
    Pending κ σ α → Prop
  | .run code => code.Runs D b Q s
  | .await k => ∀ n, (k n).Runs D b Q s

/-- The code of an activity is under way in a state. Between turns nothing is owed. -/
def Activity.Keeps (D : Discipline κ σ S) (b : Behaviour κ σ) (s : S) : Activity κ σ → Prop
  | .work c => c.Keeps D b (fun s' _ => s' = D.idle) s
  | .tick _ _ (.callback _ c) => c.Keeps D b D.gives s
  | .tick _ _ (.starting _ c) => c.Keeps D b (fun s' _ => D.ends s') s
  | _ => s = D.idle

/-- The activities of a machine that has not broken a contract are under way in these states. -/
def Machine.Keeps (D : Discipline κ σ S) (b : Behaviour κ σ) (L : List S) (m : Machine κ σ) : Prop :=
  m.fault = none → List.Forall₂ (Activity.Keeps D b) L m.stack

/-- How the code of an activity has to end. -/
def Frame.goal (D : Discipline κ σ S) : Frame κ σ α → S → α → Prop
  | .work => fun s _ => s = D.idle
  | .callback .. => D.gives
  | .starting .. => fun s _ => D.ends s

theorem Frame.keeps_fill (fr : Frame κ σ α) (c : Pending κ σ α) (s : S) :
    (fr.fill c).Keeps D b s ↔ c.Keeps D b (fr.goal D) s := by
  cases fr <;> exact Iff.rfl

/-- A machine that performs a directive has the code on top that asks for it. -/
theorem Machine.eq_of_directive? {m : Machine κ σ} {d : Directive κ σ} (h : m.directive? = some d) :
    ∃ (α : Type) (w : World κ σ) (fr : Frame κ σ α) (k : d.Reply → Procedure κ σ α)
      (s : List (Activity κ σ)), m = ⟨w, fr.fill (.run (.op d k)) :: s, none⟩ := by
  obtain ⟨w, stack, fault⟩ := m
  cases fault with
  | some f => cases h
  | none =>
    cases stack with
    | nil => cases h
    | cons a s =>
      have ha : a.directive? = some d := h
      unfold Activity.directive? at ha
      split at ha
      · next d' code =>
        cases ha
        exact ⟨_, w, .work, code, s, rfl⟩
      · next n k p d' code =>
        cases ha
        exact ⟨_, w, .callback n k p, code, s, rfl⟩
      · next n k p d' code =>
        cases ha
        exact ⟨_, w, .starting n k p, code, s, rfl⟩
      · cases ha

theorem Frame.directive?_fill (fr : Frame κ σ α) (w : World κ σ) (d : Directive κ σ)
    (k : d.Reply → Procedure κ σ α) (s : List (Activity κ σ)) :
    Machine.directive? ⟨w, fr.fill (.run (.op d k)) :: s, none⟩ = some d := by
  cases fr <;> rfl

theorem Frame.step_op (fr : Frame κ σ α) (w : World κ σ) (d : Directive κ σ)
    (k : d.Reply → Procedure κ σ α) (s : List (Activity κ σ)) :
    Machine.step b ⟨w, fr.fill (.run (.op d k)) :: s, none⟩ =
      Machine.stepCode b w fr.fill s d k := by
  cases fr <;> rfl

theorem Activity.Keeps.resume {s : S} {a : Activity κ σ} (h : a.Keeps D b s) (n : Nat) :
    (a.resume n).Keeps D b s := by
  unfold Activity.resume
  split
  · exact h n
  · exact h n
  · exact h n
  · exact h

namespace Discipline

/-- What can happen to the states of what is under way when no directive is performed: expanded code
returns, and activities that owe nothing come and go. -/
inductive Trims (D : Discipline κ σ S) (b : Behaviour κ σ) : List S → List S → Prop where
  | refl (L : List S) : Trims D b L L
  | settle {s s' : S} (T : List S) (h : D.Settled b s s') : Trims D b (s :: T) (s' :: T)
  | drop (T : List S) : Trims D b (D.idle :: T) T
  | push (T : List S) : Trims D b (D.idle :: T) (D.idle :: D.idle :: T)
  | trans {L L' L'' : List S} (h : Trims D b L L') (h' : Trims D b L' L'') : Trims D b L L''

/-- What a step of a machine can do to the states of what is under way. -/
inductive Goes (D : Discipline κ σ S) (b : Behaviour κ σ) (m m' : Machine κ σ) :
    List S → List S → Prop where
  /-- Code performs a directive. -/
  | code {s s₁ s' : S} {T : List S} {d : Directive κ σ} (top : m.directive? = some d)
      (settled : D.Settled b s s₁) (may : D.may s₁ d)
      (moves : D.Moves b m.world s₁ d m'.world s') : Goes D b m m' (s :: T) (s' :: T)
  /-- Code asks for a drive of the host, and waits for it. -/
  | driving {s s₁ : S} {T : List S} {e : Extent} (top : m.directive? = some (.request (.drive e)))
      (settled : D.Settled b s s₁) (may : D.may s₁ (.request (.drive e)))
      (world : m'.world = m.world) : Goes D b m m' (s :: T) (D.idle :: s₁ :: T)
  /-- A continuation is entered. -/
  | entered {T : List S} {p : Pid} {mv : Move κ} {c : Callback κ} {v : Value κ}
      (still : m.directive? = none) (record : m.record = [(p, .moved mv)]) (hc : mv.entered = some (c, v)) :
      Goes D b m m' (D.idle :: T) (D.enter p c v :: T)
  /-- The work of a binding begins. -/
  | started {T : List S} {p : Pid} {x : Proc κ} {mv : Move κ} {g : Binding κ}
      (still : m.directive? = none) (record : m.record = [(p, .moved mv)])
      (hx : m.world.procs.get? p = some x) (task : mv.task = .native g) :
      Goes D b m m' (D.idle :: T) (D.launch ⟨p, x.binding + 1⟩ g :: T)
  /-- A continuation returns. -/
  | returned {s s₁ : S} {T : List S} {n k : Nat} {p : Pid} {t : Task κ}
      {st : List (Activity κ σ)} (still : m.directive? = none)
      (top : m.stack = .tick n k (.callback p (.run (.ret t))) :: st) (settled : D.Settled b s s₁)
      (gives : D.gives s₁ t) : Goes D b m m' (s :: T) (D.idle :: T)
  /-- The work of a binding is over. -/
  | launched {s s₁ : S} {T : List S} (still : m.directive? = none) (quiet : m.record = [])
      (settled : D.Settled b s s₁) (ends : D.ends s₁) : Goes D b m m' (s :: T) (D.idle :: T)
  /-- A contract is broken. -/
  | broken {f : Fault} (hf : m'.fault = some f)
      (still : m.directive? = none ∨ m'.world = m.world) (L : List S) : Goes D b m m' L L
  | quiet {L L' : List S} (still : m.directive? = none)
      (begins : ∀ p mv, (p, .moved mv) ∈ m.record →
        mv.entered = none ∧ ∀ g, mv.task ≠ .native g)
      (trims : Trims D b L L') : Goes D b m m' L L'

end Discipline

open Discipline

namespace Machine

variable {m m' : Machine κ σ} {L : List S}

/-- A machine performs only what the code on top may do. -/
theorem Keeps.may (h : m.Keeps D b L) {d : Directive κ σ} (top : m.directive? = some d) :
    ∃ s T s', L = s :: T ∧ D.Settled b s s' ∧ D.may s' d := by
  obtain ⟨α, w, fr, k, st, rfl⟩ := eq_of_directive? top
  cases h rfl with
  | @cons s _ T _ hs rest =>
    have runs : Procedure.Runs D b (fr.goal D) s (.op d k) := (fr.keeps_fill _ s).1 hs
    obtain ⟨s', settled, may, -⟩ := runs.op_cases rfl
    exact ⟨s, T, s', rfl, settled, may⟩

variable {w w' : World κ σ} {a a' : Activity κ σ} {st : List (Activity κ σ)}

/-- The activity on top has a state, and so have those below. -/
theorem Keeps.uncons (h : (⟨w, a :: st, none⟩ : Machine κ σ).Keeps D b L) :
    ∃ s T, L = s :: T ∧ a.Keeps D b s ∧ List.Forall₂ (Activity.Keeps D b) T st := by
  cases h rfl with
  | @cons s _ T _ hs rest => exact ⟨s, T, rfl, hs, rest⟩

/-- Code on top performs a directive: it is answered, or it goes on with what the directive expands to. -/
theorem Keeps.performs (lawful : D.Lawful b) {fr : Frame κ σ α} {d : Directive κ σ}
    {k : d.Reply → Procedure κ σ α} {code : Procedure κ σ α}
    (h : (⟨w, fr.fill (.run (.op d k)) :: st, none⟩ : Machine κ σ).Keeps D b L)
    (hd : d.step b w k = .next w' code)
    (answers : ∀ s s' T r, L = s :: T → D.Settled b s s' → D.may s' d →
      d.step b w Act.ret = .next w' (.ret r) → D.knows s' d r) :
    ∃ L', (⟨w', fr.fill (.run code) :: st, none⟩ : Machine κ σ).Keeps D b L' ∧
      D.Goes b ⟨w, fr.fill (.run (.op d k)) :: st, none⟩ ⟨w', fr.fill (.run code) :: st, none⟩ L L' := by
  have top := fr.directive?_fill w d k st
  obtain ⟨s, T, rfl, hs, rest⟩ := h.uncons
  have runs : Procedure.Runs D b (fr.goal D) s (.op d k) := (fr.keeps_fill _ s).1 hs
  obtain ⟨s₁, settled, may, next, deeper⟩ := runs.op_cases rfl
  rcases Directive.step_cases hd with ⟨r, hw, rfl⟩ | ⟨y, hw, expands, rfl⟩
  · have known : D.knows s₁ d r := answers s s₁ T r rfl settled may hw
    refine ⟨D.next s₁ d r :: T, fun _ => .cons ((fr.keeps_fill _ _).2 (next r known)) rest, ?_⟩
    exact .code top settled may (.answered r hw known)
  · have inside := deeper y y expands (lawful.expands s₁ d y may expands)
    refine ⟨D.within s₁ d :: T, fun _ => .cons ((fr.keeps_fill _ _).2 inside) rest, ?_⟩
    exact .code top settled may (.expanded hw expands)

/-- Code on top waits for a drive of the host, which owes nothing. -/
theorem Keeps.waits (lawful : D.Lawful b) {fr : Frame κ σ α} {e : Extent} {goal : Goal}
    {k : Nat → Procedure κ σ α}
    (h : (⟨w, fr.fill (.run (.op (.request (.drive e)) k)) :: st, none⟩ : Machine κ σ).Keeps D b L) :
    ∃ L', (⟨w, .drive goal 0 :: fr.fill (.await k) :: st, none⟩ : Machine κ σ).Keeps D b L' ∧
      D.Goes b ⟨w, fr.fill (.run (.op (.request (.drive e)) k)) :: st, none⟩
        ⟨w, .drive goal 0 :: fr.fill (.await k) :: st, none⟩ L L' := by
  obtain ⟨s, T, rfl, hs, rest⟩ := h.uncons
  have runs : Procedure.Runs D b (fr.goal D) s (.op (.request (.drive e)) k) := (fr.keeps_fill _ s).1 hs
  obtain ⟨s₁, settled, may, next, -⟩ := runs.op_cases rfl
  have waits : (fr.fill (.await k)).Keeps D b s₁ := by
    refine (fr.keeps_fill _ _).2 fun n => ?_
    obtain ⟨known, same⟩ := lawful.drive s₁ e n may
    have goes := next n known
    rwa [same] at goes
  refine ⟨D.idle :: s₁ :: T, fun _ => .cons rfl (.cons waits rest), ?_⟩
  exact .driving (fr.directive?_fill _ _ _ _) settled may rfl

/-- A tick without code on top owes nothing, and neither does what it goes on with unless code is entered. -/
theorem Keeps.still (h : (⟨w, a :: st, none⟩ : Machine κ σ).Keeps D b L)
    (tr : Transition b ⟨w, a :: st, none⟩ (Machine.record ⟨w, a :: st, none⟩) ⟨w', a' :: st, none⟩)
    (none : Machine.directive? ⟨w, a :: st, none⟩ = none) (before : ∀ s, a.Keeps D b s → s = D.idle)
    (after : a'.Keeps D b D.idle) (calling : a'.calling? = .none) (starting : a'.starting? = .none) :
    ∃ L', (⟨w', a' :: st, .none⟩ : Machine κ σ).Keeps D b L' ∧
      D.Goes b ⟨w, a :: st, .none⟩ ⟨w', a' :: st, .none⟩ L L' := by
  obtain ⟨s, T, rfl, hs, rest⟩ := h.uncons
  obtain rfl := before s hs
  refine ⟨_, fun _ => .cons after rest, .quiet none (fun p mv hm => ⟨?_, fun g hg => ?_⟩) (.refl _)⟩
  · cases he : mv.entered with
    | none => rfl
    | some e =>
      obtain ⟨n, k, s, stack⟩ := tr.of_entered hm he
      obtain ⟨rfl, -⟩ := List.cons.inj stack
      cases calling
  · obtain ⟨x, n, k, s, -, -, stack⟩ := tr.of_native hm hg
    obtain ⟨rfl, -⟩ := List.cons.inj stack
    cases starting

/-- Every step preserves it, as long as what comes back is what the discipline knows of it. -/
theorem Keeps.transition (lawful : D.Lawful b) (h : m.Keeps D b L)
    (tr : Transition b m m.record m')
    (answers : ∀ s s' T d r w', L = s :: T → D.Settled b s s' → D.may s' d →
      m.directive? = some d → d.step b m.world Act.ret = .next w' (.ret r) → D.knows s' d r) :
    ∃ L', m'.Keeps D b L' ∧ D.Goes b m m' L L' := by
  generalize hr : m.record = r at tr
  have still : ∀ {w w' : World κ σ} {a a' : Activity κ σ} {st : List (Activity κ σ)},
      m = ⟨w, a :: st, none⟩ → m' = ⟨w', a' :: st, none⟩ → m.directive? = none →
      (∀ s, a.Keeps D b s → s = D.idle) → a'.Keeps D b D.idle → a'.calling? = none →
        a'.starting? = none → ∃ L', m'.Keeps D b L' ∧ D.Goes b m m' L L' := by
    rintro w w' a a' st rfl rfl none before after calling starting
    exact h.still (hr ▸ tr) none before after calling starting
  have nothing : r = [] → ∀ p mv, (p, .moved mv) ∈ m.record →
      mv.entered = none ∧ ∀ g, mv.task ≠ .native g := by
    rintro rfl p mv hm
    rw [hr] at hm
    cases hm
  -- Code that has returned is at its end, and an activity that is over leaves its state.
  cases tr with
  | rest _ idle => exact ⟨L, h, .quiet idle (nothing rfl) (.refl L)⟩
  | @code w w' st α fr d k code hd =>
    exact h.performs lawful hd fun s s' T r hL settled may =>
      answers s s' T d r w' hL settled may (fr.directive?_fill w d k st)
  | @driving w st α fr d k goal k' hd =>
    obtain ⟨e, rfl⟩ := Directive.eq_drive hd
    obtain ⟨-, -, rfl⟩ := Progress.drive.inj hd
    exact h.waits lawful
  | @broken w w' a a' st f agree like cause =>
    have still : Machine.directive? ⟨w, a :: st, none⟩ = none ∨ w' = w := by
      rcases cause with ⟨fr, f⟩ | ⟨fr, hd⟩ | ⟨due, hw⟩
      · exact .inr rfl
      · exact .inr rfl
      · exact .inl rfl
    exact ⟨L, nofun, .broken rfl still L⟩
  | @finished w st u =>
    obtain ⟨s, T, rfl, hs, rest⟩ := h.uncons
    have runs : Procedure.Runs D b (fun s' _ => s' = D.idle) s (.ret u) := hs
    obtain ⟨s', settled, rfl⟩ := runs.ret_cases rfl
    exact ⟨T, fun _ => rest, .quiet rfl (nothing rfl) (.trans (.settle T settled) (.drop T))⟩
  | picked => exact still rfl rfl rfl (fun s hs => hs) rfl rfl rfl
  | skipped => exact still rfl rfl rfl (fun s hs => hs) rfl rfl rfl
  | ended =>
    obtain ⟨s, T, rfl, hs, rest⟩ := h.uncons
    obtain rfl : s = D.idle := hs
    exact ⟨T, fun _ => rest, .quiet rfl (nothing rfl) (.drop T)⟩
  | preempted => exact still rfl rfl rfl (fun s hs => hs) rfl rfl rfl
  | parked => exact still rfl rfl rfl (fun s hs => hs) rfl rfl rfl
  | pushed => exact still rfl rfl rfl (fun s hs => hs) rfl rfl rfl
  | @entered w w' st n k p x mv c v budget hx can put root hc beside =>
    obtain ⟨s, T, rfl, hs, rest⟩ := h.uncons
    obtain rfl : s = D.idle := hs
    exact ⟨D.enter p c v :: T, fun _ => .cons (.own (lawful.callback p c v)) rest, .entered rfl hr hc⟩
  | @started w w' st n k p x mv g budget hx can put task beside =>
    obtain ⟨s, T, rfl, hs, rest⟩ := h.uncons
    obtain rfl : s = D.idle := hs
    exact ⟨D.launch ⟨p, x.binding + 1⟩ g :: T, fun _ => .cons (.own (lawful.binding _ g)) rest,
      .started rfl hr hx task⟩
  | exited => exact still rfl rfl rfl (fun s hs => hs) rfl rfl rfl
  | @returned w w' st n k p x t hx alive put beside =>
    obtain ⟨s, T, rfl, hs, rest⟩ := h.uncons
    have runs : Procedure.Runs D b D.gives s (.ret t) := hs
    obtain ⟨s', settled, gives⟩ := runs.ret_cases rfl
    exact ⟨D.idle :: T, fun _ => .cons rfl rest, .returned rfl rfl settled gives⟩
  | @ignored w st n k p t dead =>
    obtain ⟨s, T, rfl, hs, rest⟩ := h.uncons
    have runs : Procedure.Runs D b D.gives s (.ret t) := hs
    obtain ⟨s', settled, gives⟩ := runs.ret_cases rfl
    exact ⟨D.idle :: T, fun _ => .cons rfl rest, .returned rfl rfl settled gives⟩
  | @launched w st n k p u =>
    obtain ⟨s, T, rfl, hs, rest⟩ := h.uncons
    have runs : Procedure.Runs D b (fun s' _ => D.ends s') s (.ret u) := hs
    obtain ⟨s', settled, ends⟩ := runs.ret_cases rfl
    exact ⟨D.idle :: T, fun _ => .cons rfl rest, .launched rfl hr settled ends⟩
  | pumped =>
    obtain ⟨s, T, rfl, hs, rest⟩ := h.uncons
    obtain rfl : s = D.idle := hs
    exact ⟨D.idle :: D.idle :: T, fun _ => .cons rfl (.cons rfl rest),
      .quiet rfl (nothing rfl) (.push T)⟩
  | lost => exact still rfl rfl rfl (fun s hs => hs) rfl rfl rfl
  | @thunk w w' st goal n n' c agree cause =>
    obtain ⟨s, T, rfl, hs, rest⟩ := h.uncons
    obtain rfl : s = D.idle := hs
    exact ⟨D.idle :: D.idle :: T, fun _ => .cons (.own (lawful.thunk c)) (.cons rfl rest),
      .quiet rfl (nothing rfl) (.push T)⟩
  | woken => exact still rfl rfl rfl (fun s hs => hs) rfl rfl rfl
  | @driven w w' st goal n agree clock =>
    obtain ⟨s, T, rfl, hs, rest⟩ := h.uncons
    obtain rfl : s = D.idle := hs
    refine ⟨T, fun _ => ?_, .quiet rfl (nothing rfl) (.drop T)⟩
    cases rest with
    | nil => exact .nil
    | cons top rest => exact .cons (top.resume n) rest

theorem keeps_load (lawful : D.Lawful b) (w : World κ σ) (code : Code κ σ Unit) :
    (load w (ofCode code)).Keeps D b [D.idle] :=
  fun _ => .cons (.own (lawful.code code)) .nil

theorem Keeps.eq_nil (h : m.Keeps D b L) (hs : m.stack = []) (hf : m.fault = none) : L = [] := by
  have aligned := h hf
  rw [hs] at aligned
  cases aligned
  rfl

end Machine

end Actors
