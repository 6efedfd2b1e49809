/-
Chains of taggers that do the same.

A chain of taggers is code that is run on a value: in the course of the walk over an effect tree, or later by
the worker of a command. Two chains are alike on a value if they lead to the same in every world, and may come
to the same. So one tagger may stand for two, and none for an identity. What a tagger does depends on what the
world is like, and a typed one refuses what is not of its type, so this is about single values.

* `Tagger.work` — what a tagger does with a value;
* `Tagger.Alike` — chains that do the same with a value;
* `Tagger.alike_after`, `Tagger.alike_identity` — one tagger for two, and none for one;
* `Order.Alike.worker` — the workers of commands that differ by such chains only.
-/
import Actors.Proofs.Equality
import Actors.Proofs.Leaves
import Actors.Proofs.Orders

namespace Actors

variable {κ σ α β : Type} {b : Behaviour κ σ}

open Procedure

/-! ### What parts of code come to -/

namespace Procedure

variable {x : Procedure κ σ α} {f : α → Procedure κ σ β} {a : α} {u : β}

/-- What code leads to it may come to. -/
theorem LeadsTo.brings {w w' : World κ σ} (h : LeadsTo b w x w' (.ok a)) : x.Brings b a := by
  generalize hr : (Except.ok a : Except Fault α) = r at h
  induction h with
  | ret w a' =>
    obtain rfl := Except.ok.inj hr
    exact .ret a
  | next hd _ ih => exact .next hd (ih hr)
  | drive hd _ _ ih => exact .drive hd _ (ih hr)
  | _ => cases hr

theorem Brings.bind (h : x.Brings b a) (h' : (f a).Brings b u) : Brings b (x.bind f) u := by
  induction h with
  | ret a => exact h'
  | @next w w' d k code a hd _ ih =>
    exact .next ((Directive.step_bind w d k f).trans (congrArg (·.bind f) hd)) (ih h')
  | @drive w w' d k goal k' a hd n _ ih =>
    exact .drive ((Directive.step_bind w d k f).trans (congrArg (·.bind f) hd)) n (ih h')

theorem Brings.bind_iff : Brings b (x.bind f) u ↔ ∃ a, x.Brings b a ∧ (f a).Brings b u := by
  refine ⟨Brings.of_bind, fun h => ?_⟩
  obtain ⟨a, first, second⟩ := h
  exact first.bind second

/-- User code that has a value converted comes to what the function may come to. -/
theorem Brings.convert_iff (w : World κ σ) {c : κ} {v u : Value κ} :
    (ofCode (Code.ask (.convert c v))).Brings b u ↔ (ofCode (b.convert c v)).Brings b u := by
  have entered : ∀ w : World κ σ, Directive.step b w (.invoke (.convert c v)) (Act.ret (S := directives κ σ)) =
      .next w (ofCode (b.convert c v)) := fun w => congrArg (Progress.next w) (Act.bind_ret _)
  have asked : ∀ w : World κ σ, Directive.step b w (.request (.convert c v)) (Act.ret (S := directives κ σ)) =
      .next w (invoke (.convert c v)) := fun w => congrArg (Progress.next w) (Act.bind_ret _)
  refine ⟨fun h => ?_, fun h => .next (asked w) (.next (entered w) h)⟩
  cases h with
  | @next w₁ w₂ _ _ code _ hd rest =>
    obtain ⟨rfl, rfl⟩ := Progress.next.inj ((asked w₁).symm.trans hd)
    cases rest with
    | next hd' rest' =>
      obtain ⟨rfl, rfl⟩ := Progress.next.inj ((entered _).symm.trans hd')
      exact rest'
    | drive hd' => cases (entered _).symm.trans hd'
  | @drive w₁ _ _ _ _ _ _ hd => cases (asked w₁).symm.trans hd

end Procedure

/-- Code goes on in one of two ways that are the same for all that it may return. -/
theorem Code.bind_congr {x : Code κ σ α} {f g : α → Code κ σ β} (same : ∀ a, x.Returns a → f a = g a) :
    x.bind f = x.bind g := by
  induction x with
  | ret a => exact same a (.ret a)
  | raise e => rfl
  | op r k ih =>
    have rest : (fun reply => (k reply).bind f) = fun reply => (k reply).bind g :=
      funext fun reply => ih reply fun a returns => same a (.op returns)
    exact congrArg (Act.op (S := requests κ σ) r) rest

/-! ### Chains -/

namespace Tagger

/-- What a tagger does with a value: it applies its function, to a value of its type if it is a typed one. -/
def work (b : Behaviour κ σ) : Tagger κ → Value κ → Code κ σ (Value κ)
  | raw c, v => b.convert c v
  | typed source c, v => (Act.ofExcept (v.coerce source)).bind (b.convert c)

theorem apply_typed (source : ValueType) (c : κ) (v : Value κ) :
    (ofCode ((typed source c).apply v) : Procedure κ σ (Value κ)) =
      (ofCode (Act.ofExcept (v.coerce source))).bind fun w => ofCode (Code.ask (.convert c w)) :=
  ofCode_bind _ _

theorem apply_leads (t : Tagger κ) (v : Value κ) :
    Procedure.Alike b (ofCode (t.apply v)) (ofCode (t.work b v)) := by
  have asked : ∀ c v, Procedure.Alike b (ofCode (Code.ask (.convert c v))) (ofCode (b.convert c v)) :=
    fun c v _ _ _ => LeadsTo.convert_iff
  cases t with
  | raw c => exact asked c v
  | typed source c =>
    rw [apply_typed, work, ofCode_bind]
    exact .bind_right fun _ => asked c _

theorem apply_brings (w : World κ σ) (t : Tagger κ) (v u : Value κ) :
    (ofCode (t.apply v)).Brings b u ↔ (ofCode (t.work b v)).Brings b u := by
  cases t with
  | raw c => exact Brings.convert_iff w
  | typed source c =>
    rw [apply_typed, work, ofCode_bind, Brings.bind_iff, Brings.bind_iff]
    exact exists_congr fun x => and_congr_right fun _ => Brings.convert_iff w

theorem applyAll_append (c d : List (Tagger κ)) (v : Value κ) :
    (applyAll (c ++ d) v : Code κ σ (Value κ)) = (applyAll c v).bind (applyAll d) := by
  induction c generalizing v with
  | nil => rfl
  | cons t c ih =>
    rw [List.cons_append, applyAll, applyAll, Act.bind_assoc]
    exact congrArg _ (funext ih)

/-- Two chains that do the same with a value: in every world they lead to the same, and they may come to the
same. -/
structure Alike (b : Behaviour κ σ) (c c' : List (Tagger κ)) (v : Value κ) : Prop where
  leads : Procedure.Alike b (ofCode (applyAll c v)) (ofCode (applyAll c' v))
  brings : ∀ u, (ofCode (applyAll c v)).Brings b u ↔ (ofCode (applyAll c' v)).Brings b u

variable {c c' c'' d d' : List (Tagger κ)} {v : Value κ}

namespace Alike

theorem refl (c : List (Tagger κ)) (v : Value κ) : Tagger.Alike b c c v :=
  ⟨.refl _, fun _ => Iff.rfl⟩

theorem symm (h : Tagger.Alike b c c' v) : Tagger.Alike b c' c v :=
  ⟨h.leads.symm, fun u => (h.brings u).symm⟩

theorem trans (h : Tagger.Alike b c c' v) (h' : Tagger.Alike b c' c'' v) : Tagger.Alike b c c'' v :=
  ⟨h.leads.trans h'.leads, fun u => (h.brings u).trans (h'.brings u)⟩

/-- Further taggers outside do not tell them apart. -/
theorem outside (h : Tagger.Alike b c c' v) (d : List (Tagger κ)) : Tagger.Alike b (c ++ d) (c' ++ d) v := by
  refine ⟨?_, fun u => ?_⟩
  · rw [applyAll_append, applyAll_append, ofCode_bind, ofCode_bind]
    exact h.leads.bind _
  · rw [applyAll_append, applyAll_append, ofCode_bind, ofCode_bind, Brings.bind_iff, Brings.bind_iff]
    exact exists_congr fun x => and_congr_left fun _ => h.brings x

/-- Chains that are alike on what comes to them are alike outside of the taggers that it comes from. -/
theorem inside (h : ∀ x, (ofCode (applyAll c v)).Brings b x → Tagger.Alike b d d' x) :
    Tagger.Alike b (c ++ d) (c ++ d') v := by
  refine ⟨?_, fun u => ?_⟩
  · rw [applyAll_append, applyAll_append, ofCode_bind, ofCode_bind]
    exact .bind_right fun first => (h _ first.brings).leads
  · rw [applyAll_append, applyAll_append, ofCode_bind, ofCode_bind, Brings.bind_iff, Brings.bind_iff]
    exact exists_congr fun x => and_congr_right fun first => (h x first).brings u

end Alike

/-- A single tagger applies its function. -/
theorem applyAll_singleton (t : Tagger κ) (v : Value κ) : (applyAll [t] v : Code κ σ (Value κ)) = t.apply v :=
  Act.bind_ret _

/-- A tagger that does what one tagger and then another one does may stand for the two. -/
theorem alike_after (w : World κ σ) {f g h : Tagger κ} (after : ∀ v, h.work b v = (g.work b v).bind (f.work b))
    (v : Value κ) : Tagger.Alike b [g, f] [h] v := by
  have both : (applyAll [g, f] v : Code κ σ (Value κ)) = (g.apply v).bind f.apply :=
    congrArg _ (funext fun x => applyAll_singleton f x)
  refine ⟨?_, fun u => ?_⟩
  · rw [both, applyAll_singleton, ofCode_bind]
    refine ((g.apply_leads v).bind _).trans (.trans ?_ (h.apply_leads v).symm)
    rw [after, ofCode_bind]
    exact .bind_right fun _ => f.apply_leads _
  · rw [both, applyAll_singleton, ofCode_bind, h.apply_brings w, after, ofCode_bind, Brings.bind_iff, Brings.bind_iff]
    exact exists_congr fun x => and_congr (g.apply_brings w v x) (f.apply_brings w x u)

/-- A tagger that leaves a value as it is may be left out. -/
theorem alike_identity (w : World κ σ) {i : Tagger κ} (same : i.work b v = .ret v) : Tagger.Alike b [i] [] v := by
  refine ⟨?_, fun u => ?_⟩
  · rw [applyAll_singleton]
    refine (i.apply_leads v).trans ?_
    rw [same]
    exact .refl _
  · rw [applyAll_singleton, i.apply_brings w, same]
    rfl

/-- One typed tagger does what two of them do, if the values between them are of the type of the second one. -/
theorem work_typed {source between : ValueType} {f g h : κ}
    (after : ∀ v, v.hasType source = true → b.convert h v = (b.convert g v).bind (b.convert f))
    (fits : ∀ v x, v.hasType source = true → (b.convert g v).Returns x → x.hasType between = true) (v : Value κ) :
    (typed source h).work b v = ((typed source g).work b v).bind ((typed between f).work b) := by
  rw [work, work, Value.coerce]
  split
  · next own =>
    refine (after v own).trans (Code.bind_congr fun x returns => ?_)
    rw [work, Value.coerce, if_pos (fits v x own returns)]
    rfl
  · rfl

/-- A typed identity leaves a value of its type as it is. -/
theorem work_typed_identity {source : ValueType} {i : κ} (same : b.convert i v = .ret v)
    (fits : v.hasType source = true) : (typed source i).work b v = .ret v := by
  rw [work, Value.coerce, if_pos fits]
  exact same

end Tagger

/-! ### Workers -/

/-- Commands with one task, whose chains do the same with everything that the task may come to. -/
structure Order.Alike (b : Behaviour κ σ) (o o' : Order κ) : Prop where
  task : o.task = o'.task
  chain : ∀ work v, o.task.Results b work (.ok v) → Tagger.Alike b o.chain o'.chain v

/-- A worker that applies the chain to a value goes on with the same task. -/
theorem Tagger.Alike.callback {c c' : List (Tagger κ)} {v : Value κ} (h : Tagger.Alike b c c' v) :
    Procedure.Alike b ((Callback.tag c).run b v) ((Callback.tag c').run b v) ∧
      ∀ t, ((Callback.tag c).run b v).Brings b t ↔ ((Callback.tag c').run b v).Brings b t := by
  have run : ∀ c : List (Tagger κ), (Callback.tag c).run b v =
      (ofCode (Tagger.applyAll c v)).bind fun u => .ret (.succeed u) := fun c => Act.map_eq_bind _ _
  refine ⟨?_, fun t => ?_⟩
  · rw [run, run]
    exact h.leads.bind _
  · rw [run, run, Brings.bind_iff, Brings.bind_iff]
    exact exists_congr fun u => and_congr_left fun _ => h.brings u

/-- The workers of such commands cannot be told apart: what they send to the program is the same. -/
theorem Order.Alike.worker {o o' : Order κ} (h : o.Alike b o') (app : Pid) :
    Task.Equal b (o.worker app) (o'.worker app) := by
  obtain ⟨t, c⟩ := o
  obtain ⟨t', c'⟩ := o'
  obtain rfl : t = t' := h.task
  intro s
  have opened : ∀ c : List (Tagger κ), Doing.Equal b (.task (Order.worker app ⟨t, c⟩) s)
      (.task t (.onSuccess (.tag c) :: .onSuccess (.deliver app) :: s)) := fun c =>
    (Doing.Equal.push (.andThen _ _) s).trans (.push (.andThen _ _) _)
  refine (opened c).trans (Doing.Equal.trans ?_ (opened c').symm)
  refine Doing.Equal.on_outcomes (d := .task t []) (fun {ds} o own runs none => ?_) nofun
  cases o with
  | ok v =>
    have alike := h.chain ds v (runs.snoc (.exit none))
    have entered : ∀ c : List (Tagger κ), Doing.Equal b
        (.task (.ofResult (.ok v)) (.onSuccess (.tag c) :: .onSuccess (.deliver app) :: s))
        (.call (.tag c) v (.onSuccess (.deliver app) :: s)) := fun c => .enter (o := .ok v) rfl
    exact (entered c).trans ((Doing.Equal.call alike.callback.2 _).trans (entered c').symm)
  | error v => exact .outcome rfl

end Actors
