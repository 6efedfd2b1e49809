/-
What continuations return.

A continuation may ask for things, drive the host and be held up for long, and all the while others go
on. Still what is under way is what the code can have got to, and the task that it returns at last is
one that the code can come to. So each task that comes back to a process in a run is a result of the
call which the process has entered last.

* `Procedure.Brings`, `Procedure.Reaches` — what code can come to, and what it can get to, whatever is
  replied to it;
* `Deeds.call?` — the call of a process that is under way;
* `Machine.Carries` — the continuation of a process that is under way comes from this call;
* `History.returns` — the tasks that come back to a process.
-/
import Actors.Proofs.Discipline
import Actors.Proofs.History

namespace Actors

variable {κ σ α β : Type} {b : Behaviour κ σ}

open Procedure

/-! ### What code can come to -/

/-- A result that code can come to, whatever the worlds in which its operations are performed. -/
inductive Procedure.Brings (b : Behaviour κ σ) : Procedure κ σ α → α → Prop where
  | ret (a : α) : Brings b (.ret a) a
  | next {w w' : World κ σ} {d : Directive κ σ} {k : d.Reply → Procedure κ σ α}
      {code : Procedure κ σ α} {a : α} (h : d.step b w k = .next w' code)
      (brings : Brings b code a) : Brings b (.op d k) a
  | drive {w w' : World κ σ} {d : Directive κ σ} {k : d.Reply → Procedure κ σ α} {goal : Goal}
      {k' : Nat → Procedure κ σ α} {a : α} (h : d.step b w k = .drive w' goal k') (n : Nat)
      (brings : Brings b (k' n) a) : Brings b (.op d k) a

/-- What code can come to that runs or waits for a drive. -/
def Pending.Brings (b : Behaviour κ σ) : Pending κ σ α → α → Prop
  | .run code, a => code.Brings b a
  | .await k, a => ∃ n, (k n).Brings b a

/-- What is left of some code when a part of it has been run, whatever the worlds in which its
operations are performed. -/
inductive Procedure.Reaches (b : Behaviour κ σ) (x : Procedure κ σ α) : Pending κ σ α → Prop where
  | start : Reaches b x (.run x)
  | next {w w' : World κ σ} {d : Directive κ σ} {k : d.Reply → Procedure κ σ α}
      {code : Procedure κ σ α} (reaches : Reaches b x (.run (.op d k)))
      (h : d.step b w k = .next w' code) : Reaches b x (.run code)
  | drive {w w' : World κ σ} {d : Directive κ σ} {k : d.Reply → Procedure κ σ α} {goal : Goal}
      {k' : Nat → Procedure κ σ α} (reaches : Reaches b x (.run (.op d k)))
      (h : d.step b w k = .drive w' goal k') : Reaches b x (.await k')
  | resume {k : Nat → Procedure κ σ α} (reaches : Reaches b x (.await k)) (n : Nat) :
      Reaches b x (.run (k n))

/-- Code comes to what is left of it comes to. -/
theorem Procedure.Reaches.brings {x : Procedure κ σ α} {c : Pending κ σ α} {a : α}
    (h : x.Reaches b c) (brings : c.Brings b a) : x.Brings b a := by
  induction h with
  | start => exact brings
  | next _ hs ih => exact ih (.next hs brings)
  | drive _ hs ih =>
    obtain ⟨n, brings⟩ := brings
    exact ih (.drive hs n brings)
  | resume _ n ih => exact ih ⟨n, brings⟩

namespace Procedure.Brings

variable {a a' : α}

theorem of_ret (h : Brings b (.ret a : Procedure κ σ α) a') : a' = a := by
  cases h
  rfl

/-- What two parts of some code come to, the second part comes to from what the first one does. -/
theorem of_bind {x : Procedure κ σ α} {f : α → Procedure κ σ β} {a : β}
    (h : Brings b (x.bind f) a) : ∃ r, x.Brings b r ∧ (f r).Brings b a := by
  generalize hy : x.bind f = y at h
  induction h generalizing x with
  | ret a =>
    obtain ⟨r, rfl, hr⟩ := Act.of_bind_ret hy
    exact ⟨r, .ret r, hr ▸ .ret a⟩
  | @next w w' d k code a hs brings ih =>
    rcases Act.of_bind_op hy with ⟨r, rfl, hr⟩ | ⟨k', rfl, rfl⟩
    · exact ⟨r, .ret r, hr ▸ .next hs brings⟩
    · obtain ⟨y, hd, hb⟩ := Progress.of_bind_next ((Directive.step_bind w d k' f).symm.trans hs)
      obtain ⟨r, first, second⟩ := ih hb
      exact ⟨r, .next hd first, second⟩
  | @drive w w' d k goal k₁ a hs n brings ih =>
    rcases Act.of_bind_op hy with ⟨r, rfl, hr⟩ | ⟨k', rfl, rfl⟩
    · exact ⟨r, .ret r, hr ▸ .drive hs n brings⟩
    · obtain ⟨k₂, hd, hb⟩ := Progress.of_bind_drive ((Directive.step_bind w d k' f).symm.trans hs)
      obtain ⟨r, first, second⟩ := ih (hb n)
      exact ⟨r, .drive hd n first, second⟩

theorem of_map {x : Procedure κ σ α} {g : α → β} {a : β} (h : Brings b (x.map g) a) :
    ∃ r, x.Brings b r ∧ a = g r := by
  rw [Act.map_eq_bind] at h
  obtain ⟨r, first, second⟩ := h.of_bind
  exact ⟨r, first, second.of_ret⟩

theorem of_ofExcept {r : Except Fault α} (h : Brings b (Act.ofExcept r) a) : r = .ok a := by
  cases r with
  | ok a' => rw [h.of_ret]
  | error f => cases h

/-- User code comes to what it may return. -/
theorem returns {code : Code κ σ α} (h : (ofCode code).Brings b a) : code.Returns a := by
  induction code with
  | ret a' =>
    obtain rfl := h.of_ret
    exact .ret _
  | raise f => cases h
  | op r k ih =>
    -- The request is one part of the code, and what follows it is another.
    have parts : Brings b ((direct (.request r)).bind fun x => ofCode (k x)) a := h
    obtain ⟨x, -, second⟩ := parts.of_bind
    exact .op (ih x second)

/-- A call comes to what the code that it enters may return. -/
theorem of_invoke {c : Call κ} {a : c.Result} (h : (Procedure.invoke c).Brings b a) :
    (b.code c).Returns a := by
  cases h with
  | next hs brings =>
    obtain ⟨-, rfl⟩ := Progress.next.inj hs
    obtain ⟨r, first, second⟩ := brings.of_bind
    obtain rfl := second.of_ret
    exact first.returns
  | drive hs => cases hs

end Procedure.Brings

/-! ### The call that is under way -/

/-- Whether a deed has a part in the interpretation of tasks. -/
def Deed.isAct : Deed κ → Bool
  | .moved _ => true
  | .returned _ => true
  | .completed _ => true
  | _ => false

/-- The deeds that have a part in the interpretation of tasks. -/
def Deeds.acts (ds : Deeds κ) : Deeds κ :=
  ds.filter Deed.isAct

/-- The continuation that a process has entered and that has not returned, with its argument. -/
def Deeds.call? (ds : Deeds κ) : Option (Callback κ × Value κ) :=
  ds.acts.getLast?.bind fun d => d.move?.bind Move.entered

namespace Deeds

theorem acts_snoc (ds : Deeds κ) (d : Deed κ) :
    acts (ds ++ [d]) = ds.acts ++ if d.isAct then [d] else [] := by
  rw [acts, acts, List.filter_append]
  cases h : d.isAct <;> simp [h]

/-- All transitions have a part in it. -/
theorem moves_acts (ds : Deeds κ) : ds.acts.moves = ds.moves := by
  rw [moves, moves, acts, List.filterMap_filter]
  congr 1
  funext d
  cases d <;> rfl

theorem call?_of_act {ds : Deeds κ} {d : Deed κ} (act : d.isAct = true) :
    call? (ds ++ [d]) = d.move?.bind Move.entered := by
  rw [call?, acts_snoc, if_pos act, List.getLast?_append]
  rfl

theorem call?_of_idle {ds es : Deeds κ} (idle : ∀ d ∈ es, d.isAct = false) :
    call? (ds ++ es) = ds.call? := by
  have none : es.acts = [] :=
    List.filter_eq_nil_iff.2 fun d hd => by rw [idle d hd]; exact Bool.false_ne_true
  rw [call?, call?, acts, List.filter_append, show es.filter Deed.isAct = [] from none,
    List.append_nil]
  rfl

/-- The call that is under way is the last one. -/
theorem lastCall_of_call? {ds : Deeds κ} {e : Callback κ × Value κ} (h : ds.call? = some e) :
    ds.entered.getLast? = some e := by
  obtain ⟨d, last, he⟩ := Option.bind_eq_some_iff.1 h
  obtain ⟨es, hes⟩ := List.getLast?_eq_some_iff.1 last
  rw [entered, ← moves_acts, hes, ← entered, lastCall_snoc, he]
  rfl

end Deeds

/-- While a continuation of a process is under way, there is nothing that others could do for its
interpretation. -/
theorem Life.idle_of_calling {x : Proc κ} {ds : Deeds κ} {o : Option (Proc κ)} (l : Life (some x) ds o)
    (calling : x.root = .stepping ∨ x.root = .dead) (outside : ∀ d ∈ ds, d.isOwn = false) :
    (∃ y, o = some y ∧ (y.root = .stepping ∨ y.root = .dead)) ∧ ∀ d ∈ ds, d.isAct = false := by
  induction l with
  | refl => exact ⟨⟨x, rfl, calling⟩, nofun⟩
  | @snoc o₁ o₂ ds d l hd ih =>
    obtain ⟨⟨y, rfl, root⟩, idle⟩ := ih fun d hd => outside d (List.mem_append_left _ hd)
    have own := outside d (List.mem_append_right _ (List.mem_singleton.2 rfl))
    have last : (∃ z, o₂ = some z ∧ (z.root = .stepping ∨ z.root = .dead)) ∧ d.isAct = false := by
      cases hd with
      | sent v alive => exact ⟨⟨_, rfl, root⟩, rfl⟩
      | dropped v dead => exact ⟨⟨y, rfl, root⟩, rfl⟩
      | killed alive => exact ⟨⟨_, rfl, .inr rfl⟩, rfl⟩
      | completed t awaiting => rcases root with root | root <;> cases awaiting.symm.trans root
      | moved can => cases own
      | returned t stepping => cases own
    refine ⟨last.1, fun d' hd' => ?_⟩
    rcases List.mem_append.1 hd' with hd' | hd'
    · exact idle d' hd'
    · rw [List.mem_singleton.1 hd']
      exact last.2

/-! ### What is under way comes from this call -/

/-- The continuation of a process that an activity runs, if it runs one, is what is left of the code
of a call. -/
def Activity.Carries (b : Behaviour κ σ) (p : Pid) (call : Option (Callback κ × Value κ))
    (a : Activity κ σ) : Prop :=
  ∀ n k code, a = .tick n k (.callback p code) →
    ∃ e, call = some e ∧ (e.1.run b e.2).Reaches b code

/-- All continuations of a process that are under way come from a call. -/
def Machine.Carries (b : Behaviour κ σ) (p : Pid) (call : Option (Callback κ × Value κ))
    (m : Machine κ σ) : Prop :=
  m.fault = none → ∀ a ∈ m.stack, a.Carries b p call

variable {p : Pid} {call : Option (Callback κ × Value κ)}

namespace Activity

theorem carries_of_calling {a : Activity κ σ} (h : a.calling? ≠ some p) : a.Carries b p call := by
  intro n k code ha
  rw [ha] at h
  exact absurd rfl h

theorem carries_of_none {a : Activity κ σ} (h : a.calling? = none) : a.Carries b p call :=
  carries_of_calling (by simp [h])

theorem Carries.resume {a : Activity κ σ} (h : a.Carries b p call) (n : Nat) :
    (a.resume n).Carries b p call := by
  intro i j code ha
  unfold Activity.resume at ha
  split at ha
  · cases ha
  · obtain ⟨-, -, phase⟩ := Activity.tick.inj ha
    obtain ⟨rfl, rfl⟩ := Phase.callback.inj phase
    obtain ⟨e, he, reaches⟩ := h _ _ _ rfl
    exact ⟨e, he, reaches.resume n⟩
  · cases ha
  · exact h i j code ha

end Activity

theorem Frame.carries {fr : Frame κ σ α} {c c' : Pending κ σ α} (h : (fr.fill c).Carries b p call)
    (hc : ∀ x : Procedure κ σ α, x.Reaches b c → x.Reaches b c') : (fr.fill c').Carries b p call := by
  cases fr with
  | work => exact Activity.carries_of_none rfl
  | starting n k q => exact Activity.carries_of_none rfl
  | callback n k q =>
    intro i j code ha
    obtain ⟨-, -, phase⟩ := Activity.tick.inj ha
    obtain ⟨rfl, rfl⟩ := Phase.callback.inj phase
    obtain ⟨e, he, reaches⟩ := h _ _ _ rfl
    exact ⟨e, he, hc _ reaches⟩

namespace Machine

theorem carries_of_not_calling {m : Machine κ σ} (h : p ∉ Activity.callingOf m.stack) :
    m.Carries b p call :=
  fun _ a ha => Activity.carries_of_calling fun hp => h (List.mem_filterMap.2 ⟨a, ha, hp⟩)

theorem Carries.transition {m m' : Machine κ σ} {r : Record κ} (h : m.Carries b p call)
    (tr : Transition b m r m') (hr : ∀ mv, (p, .moved mv) ∈ r → mv.entered = none) :
    m'.Carries b p call := by
  intro hf
  cases tr with
  | rest => exact h hf
  | code fr hd =>
    obtain ⟨top, rest⟩ := List.forall_mem_cons.1 (h rfl)
    exact List.forall_mem_cons.2 ⟨fr.carries top fun x hx => hx.next hd, rest⟩
  | driving fr hd =>
    obtain ⟨top, rest⟩ := List.forall_mem_cons.1 (h rfl)
    refine List.forall_mem_cons.2 ⟨Activity.carries_of_none rfl, ?_⟩
    exact List.forall_mem_cons.2 ⟨fr.carries top fun x hx => hx.drive hd, rest⟩
  | broken h' ha => cases hf
  | finished => exact (List.forall_mem_cons.1 (h rfl)).2
  | ended hq => exact (List.forall_mem_cons.1 (h rfl)).2
  | @entered w w' s n k q x mv c v budget hx can h' root hc =>
    refine List.forall_mem_cons.2 ⟨Activity.carries_of_calling fun hq => ?_,
      (List.forall_mem_cons.1 (h rfl)).2⟩
    obtain rfl := Option.some.inj hq
    rw [hr mv List.mem_cons_self] at hc
    cases hc
  | @pumped w s ts goal n n' ht =>
    have rest := (List.forall_mem_cons.1 (h rfl)).2
    exact List.forall_mem_cons.2 ⟨Activity.carries_of_none rfl,
      List.forall_mem_cons.2 ⟨Activity.carries_of_none rfl, rest⟩⟩
  | thunk h' =>
    have rest := (List.forall_mem_cons.1 (h rfl)).2
    exact List.forall_mem_cons.2 ⟨Activity.carries_of_none rfl,
      List.forall_mem_cons.2 ⟨Activity.carries_of_none rfl, rest⟩⟩
  | @driven w w' s goal n h' =>
    have rest := (List.forall_mem_cons.1 (h rfl)).2
    cases s with
    | nil => exact nofun
    | cons a s =>
      obtain ⟨top, rest⟩ := List.forall_mem_cons.1 rest
      exact List.forall_mem_cons.2 ⟨top.resume n, rest⟩
  | _ =>
    -- What is on top runs no continuation.
    exact List.forall_mem_cons.2 ⟨Activity.carries_of_none rfl,
      (List.forall_mem_cons.1 (h rfl)).2⟩

/-- A continuation that is entered comes from the call that enters it, and is the only one that
runs. -/
theorem carries_of_entered {m : Machine κ σ} (sound : (m.step b).Sound) {mv : Move κ}
    {e : Callback κ × Value κ} (mem : (p, .moved mv) ∈ m.record) (he : mv.entered = some e) :
    (m.step b).Carries b p (some e) := by
  obtain ⟨n, k, s, stack⟩ := Machine.step_of_entered (b := b) mem he
  have sound : (m.step b).world.SoundWith (m.step b).stack := sound
  intro _
  rw [stack] at sound ⊢
  refine List.forall_mem_cons.2 ⟨fun i j code ha => ?_, fun a ha => ?_⟩
  · obtain ⟨-, -, phase⟩ := Activity.tick.inj ha
    obtain ⟨-, rfl⟩ := Phase.callback.inj phase
    exact ⟨e, rfl, .start⟩
  · -- Below the tick there is no other, so no other continuation runs.
    have idle := List.countP_eq_zero.1 sound.quiet a ha
    refine Activity.carries_of_calling fun hc => ?_
    cases a with
    | tick n k phase => exact idle rfl
    | _ => cases hc

/-- A continuation of a process that runs is in a step of the process, unless the process has died
meanwhile. -/
theorem Sound.root_of_calling {m : Machine κ σ} (h : m.Sound) (hp : p ∈ Activity.callingOf m.stack) :
    ∃ x, m.world.bare p = some x ∧ (x.root = .stepping ∨ x.root = .dead) := by
  have h : m.world.Sound _ _ _ := h
  cases hx : m.world.procs.get? p with
  | none => exact absurd hx (h.known p (.inr hp))
  | some x =>
    refine ⟨x.bare, World.bare_of_get? hx, ?_⟩
    rw [Proc.bare_root, Root.bare_eq_dead, Root.bare_eq_stepping]
    exact (h.proc p x hx).calling hp

end Machine

/-! ### Runs -/

/-- Each task that comes back to a process is one that the call which is under way can come to. -/
def Deeds.Honest (b : Behaviour κ σ) (ds : Deeds κ) : Prop :=
  ∀ es t, es ++ [.returned t] <+: ds → ∃ e, call? es = some e ∧ (e.1.run b e.2).Brings b t

namespace Deeds.Honest

variable {ds : Deeds κ}

theorem snoc {d : Deed κ} (h : ds.Honest b)
    (hd : ∀ t, d = .returned t → ∃ e, ds.call? = some e ∧ (e.1.run b e.2).Brings b t) :
    Deeds.Honest b (ds ++ [d]) := by
  intro es t hp
  -- A return is the last deed, or it was there before.
  rcases List.prefix_concat_iff.1 hp with heq | hp
  · obtain ⟨rfl, ht⟩ := List.append_inj' heq rfl
    exact hd t (List.singleton_inj.1 ht).symm
  · exact h es t hp

/-- What a process does not do itself does not bring a task back. -/
theorem outside {es : Deeds κ} (h : ds.Honest b) (hes : ∀ d ∈ es, d.isOwn = false) :
    Deeds.Honest b (ds ++ es) := by
  induction es generalizing ds with
  | nil =>
    rw [List.append_nil]
    exact h
  | cons d es ih =>
    have first : Deeds.Honest b (ds ++ [d]) := h.snoc fun t ht => by
      have own := hes d List.mem_cons_self
      rw [ht] at own
      cases own
    have honest := ih first fun d hd => hes d (List.mem_cons_of_mem _ hd)
    rwa [List.append_assoc] at honest

end Deeds.Honest

/-- In every run each task that comes back to a process is one that the call which is under way can
come to, and what runs of the process is what is left of this call. -/
theorem History.returns {m : Machine κ σ} {r : Record κ} (h : History b m r) (p : Pid) :
    Deeds.Honest b (r.of p) ∧ m.Carries b p (r.of p).call? := by
  induction h with
  | new config user code =>
    refine ⟨fun es t hp => ?_, fun _ => ?_⟩
    · cases List.append_eq_nil_iff.1 (List.prefix_nil.1 hp) |>.2
    · exact List.forall_mem_cons.2 ⟨Activity.carries_of_none rfl, by simp⟩
  | load code _ hs hf ih =>
    refine ⟨ih.1, fun _ => ?_⟩
    exact List.forall_mem_cons.2 ⟨Activity.carries_of_none rfl, by simp⟩
  | @step m r h ih =>
    rw [Record.of_append]
    obtain ⟨honest, carries⟩ := ih
    have sound := h.reachable.sound
    have tr := Machine.transition b m
    have life := tr.life sound p
    rcases tr.own p with outside | ⟨mv, own⟩ | ⟨t, n, k, s, own, fault, stack⟩
    · -- Others act on the process: what is under way goes on.
      refine ⟨honest.outside outside, ?_⟩
      have silent : ∀ mv, (p, .moved mv) ∈ m.record → mv.entered = none := fun mv hmv => by
        cases outside _ (Record.mem_of.2 hmv)
      by_cases hp : p ∈ Activity.callingOf m.stack
      · obtain ⟨x, hx, root⟩ := sound.root_of_calling hp
        rw [hx] at life
        rw [Deeds.call?_of_idle (life.idle_of_calling root outside).2]
        exact carries.transition tr silent
      · exact (Machine.carries_of_not_calling hp).transition tr silent
    · -- The process makes a transition, which may enter the next call.
      rw [own, Deeds.call?_of_act rfl]
      refine ⟨honest.snoc nofun, ?_⟩
      show (m.step b).Carries b p mv.entered
      have mem : (p, .moved mv) ∈ m.record := by
        rw [← Record.mem_of, own]
        exact List.mem_singleton.2 rfl
      cases he : mv.entered with
      | some e => exact Machine.carries_of_entered h.step.reachable.sound mem he
      | none =>
        have idle : p ∉ Activity.callingOf m.stack := fun hp => by
          obtain ⟨x, hx, root⟩ := sound.root_of_calling hp
          rw [hx, own] at life
          generalize (m.step b).world.bare p = o at life
          cases life.leads with
          | moved can => rcases root with root | root <;> cases (Proc.root_of_move? can).symm.trans root
        refine (Machine.carries_of_not_calling idle).transition tr fun mv' hmv => ?_
        have hmv := Record.mem_of.2 hmv
        rw [own] at hmv
        rw [Deed.moved.inj (List.mem_singleton.1 hmv), he]
    · -- A continuation returns what its code has come to, and nothing is under way any more.
      rw [own, Deeds.call?_of_act rfl]
      have top := carries fault
      rw [stack] at top
      obtain ⟨e, he, reaches⟩ := (List.forall_mem_cons.1 top).1 n k _ rfl
      refine ⟨honest.snoc fun u hu => ?_, Machine.carries_of_not_calling fun hp => ?_⟩
      · obtain rfl := Deed.returned.inj hu
        exact ⟨e, he, reaches.brings (.ret t)⟩
      · obtain ⟨x, hx, root⟩ := h.step.reachable.sound.root_of_calling hp
        rw [hx, own] at life
        generalize m.world.bare p = o at life
        cases life.leads with
        | returned t stepping => rcases root with root | root <;> cases root

end Actors
