/-
What is seen of the cycles of a program.

The functions of a program are called, and shares are handed out to its managers: this is what a cycle
shows, and it is read off the directives that a run performs. A share is handed out in two of them, first
it is noted, then it is sent; so a message that somebody else sends to a manager is none.

* `Beat`, `Directive.beat?` — what a directive shows, given the latest one before it;
* `traced` — what is read off a run in this way: `Trail.beats`, `Trail.arrived`;
* `Round.beats`, `Station.beats`, `Stance.beats` — what a cycle has shown, and what it has shown so far.
-/
import Actors.Proofs.Cycling

namespace Actors

variable {κ σ α : Type} {b : Behaviour κ σ} {i : ProgramId} {D : RunningProgram κ}

/-! ### Beats of a run -/

/-- What can be seen of the cycles of a program: the calls of its functions, and the shares that are sent to
its managers. -/
inductive Beat (κ : Type) where
  | init
  | update (v model : Value κ)
  | render (model : Value κ)
  | subscriptions (model : Value κ)
  | post (m : Home × Pid) (e : Share κ)

/-- What the call of a function shows. -/
def Call.beat? (i : ProgramId) : Call κ → Option (Beat κ)
  | .init j _ => if j = i then some .init else none
  | .update j _ v model => if j = i then some (.update v model) else none
  | .render j _ model => if j = i then some (.render model) else none
  | .subscriptions j _ model => if j = i then some (.subscriptions model) else none
  | _ => none

/-- The manager that is about to be sent a share, after a directive. -/
def Directive.addressee? : Directive κ σ → Option (Home × Pid)
  | .note (.dispatched home p _ _) => some (home, p)
  | _ => none

/-- What a directive shows of a program, after another one. -/
def Directive.beat? (i : ProgramId) (D : RunningProgram κ) (last : Option (Home × Pid)) :
    Directive κ σ → Option (Beat κ)
  | .invoke c => c.beat? i
  | .request (.send p (.effects cmds subs)) =>
    last.bind fun m => if m ∈ D.managers ∧ m.2 = p then some (.post m ⟨cmds, subs⟩) else none
  | _ => none

/-- The manager that is about to be sent a share after a step. Steps without a directive do not count. -/
def Machine.addressed (last : Option (Home × Pid)) (m : Machine κ σ) : Option (Home × Pid) :=
  match m.directive? with
  | some d => d.addressee?
  | none => last

/-- The manager that is about to be sent a share after a run. -/
def addressedAfter (ms : List (Machine κ σ)) : Option (Home × Pid) :=
  ms.foldl Machine.addressed none

/-- What is read off a run step by step, with the manager that is about to be sent a share. -/
def traced (f : Option (Home × Pid) → Machine κ σ → List α) :
    Option (Home × Pid) → List (Machine κ σ) → List α
  | _, [] => []
  | last, m :: ms => f last m ++ traced f (m.addressed last) ms

theorem traced_snoc (f : Option (Home × Pid) → Machine κ σ → List α) (last : Option (Home × Pid))
    (ms : List (Machine κ σ)) (m : Machine κ σ) :
    traced f last (ms ++ [m]) = traced f last ms ++ f (ms.foldl Machine.addressed last) m := by
  induction ms generalizing last with
  | nil => exact List.append_nil _
  | cons x ms ih =>
    show f last x ++ traced f (x.addressed last) (ms ++ [m]) = _
    rw [ih, ← List.append_assoc]
    rfl

/-- What a step shows of a program. -/
def Machine.beats (i : ProgramId) (D : RunningProgram κ) (last : Option (Home × Pid)) (m : Machine κ σ) :
    List (Beat κ) :=
  (m.directive?.bind (Directive.beat? i D last)).toList

/-- The messages that reach a process in a step in which it is sent a share. -/
def Machine.arrivals (p : Pid) (last : Option (Home × Pid)) (m : Machine κ σ) : List (Value κ) :=
  if last.map Prod.snd = some p then (Record.of m.record p).accepted else []

/-- What a run shows of a program. -/
def beatsOf (i : ProgramId) (D : RunningProgram κ) (ms : List (Machine κ σ)) : List (Beat κ) :=
  traced (Machine.beats i D) none ms

/-- The messages that have reached a process as shares. -/
def arrivedAt (p : Pid) (ms : List (Machine κ σ)) : List (Value κ) :=
  traced (Machine.arrivals p) none ms

section

variable (ms : List (Machine κ σ)) (m : Machine κ σ)

theorem addressedAfter_snoc : addressedAfter (ms ++ [m]) = m.addressed (addressedAfter ms) := by
  rw [addressedAfter, List.foldl_append]
  rfl

theorem beatsOf_snoc : beatsOf i D (ms ++ [m]) = beatsOf i D ms ++ m.beats i D (addressedAfter ms) :=
  traced_snoc _ _ _ _

theorem arrivedAt_snoc (p : Pid) :
    arrivedAt p (ms ++ [m]) = arrivedAt p ms ++ m.arrivals p (addressedAfter ms) :=
  traced_snoc _ _ _ _

end

/-- The shares among what has been seen. -/
def Beat.post? : Beat κ → Option ((Home × Pid) × Share κ)
  | .post m e => some (m, e)
  | _ => none

/-- The shares for one process, as the messages that they are sent in. -/
def postsTo (p : Pid) (posts : List ((Home × Pid) × Share κ)) : List (Value κ) :=
  posts.filterMap fun x => if x.1.2 = p then some (.effects x.2.cmds x.2.subs) else none

theorem postsTo_append (p : Pid) (posts posts' : List ((Home × Pid) × Share κ)) :
    postsTo p (posts ++ posts') = postsTo p posts ++ postsTo p posts' :=
  List.filterMap_append

/-! ### Beats of a cycle -/

/-- The call with which a cycle makes its model. -/
def Draft.beat (x : Draft κ) : Beat κ :=
  match x.cause with
  | none => .init
  | some (v, old) => .update v old

/-- What a cycle shows: the new model is made, rendered, and asked for subscriptions, and then shares are
sent. -/
def Round.beats (r : Round κ) : List (Beat κ) :=
  [r.beat, .render r.model, .subscriptions r.model] ++ r.posts.map fun x => .post x.1 x.2

/-- The message that has caused a cycle. -/
def Draft.message? (x : Draft κ) : Option (Value κ) :=
  x.cause.map Prod.fst

namespace Station

/-- What a cycle has shown before a stage. -/
def beats : Station κ → List (Beat κ)
  | begun _ => []
  | ready _ => []
  | made x => [x.beat]
  | drafted x => [x.beat]
  | rendered x => [x.beat, .render x.model]
  | computed r => r.beats
  | placed r => r.beats
  | posting r _ => r.beats

/-- What the call shows that is under way in a stage. -/
def called : Station κ → List (Beat κ)
  | ready none => [.init]
  | ready (some (v, old)) => [.update v old]
  | drafted x => [.render x.model]
  | rendered x => [.subscriptions x.model]
  | _ => []

/-- A call sends no shares. -/
theorem called_posts (st : Station κ) : st.called.filterMap Beat.post? = [] := by
  unfold called
  split <;> rfl

/-- The shares that have been sent before a stage. -/
def posts : Station κ → List ((Home × Pid) × Share κ)
  | placed r => r.posts
  | posting r _ => r.posts
  | _ => []

/-- The message that the cycle is about. -/
def message? : Station κ → Option (Value κ)
  | begun v => some v
  | ready cause => cause.map Prod.fst
  | made x => x.message?
  | drafted x => x.message?
  | rendered x => x.message?
  | computed r => r.message?
  | placed r => r.message?
  | posting r _ => r.message?

/-- The cycle of a start is about no message. -/
theorem isStart_eq (st : Station κ) : st.isStart = st.message?.isNone := by
  cases st <;> simp [isStart, message?, Draft.message?]

end Station

namespace Stance

/-- Where the cycle stands that is under way. -/
def station? : Stance κ → Option (Station κ)
  | own st => some st
  | inside st => some st
  | _ => none

/-- What the cycle that is under way has shown. -/
def beats : Stance κ → List (Beat κ)
  | own st => st.beats
  | inside st => st.beats ++ st.called
  | _ => []

/-- The shares that the cycle that is under way has sent. -/
def posts (c : Stance κ) : List ((Home × Pid) × Share κ) :=
  (c.station?.map Station.posts).getD []

/-- The message that the cycle is about that is under way. -/
def message? (c : Stance κ) : Option (Value κ) :=
  c.station?.bind Station.message?

end Stance

end Actors
