/-
The cycles of a program, one after the other.

The first cycle begins with the model that `init` makes, every other one with the message that has caused
it and the model before. So all the cycles of a program together say which messages have been handled,
what has been seen of them, what the managers have been sent, and what the program's entry in the runtime
looks like: its model, and the number of its updates.

* `Rounds` — cycles that follow each other;
* `Score` — the cycles of a program, with the one that is under way;
* `Score.Fits` — what has come of the cycle under way so far;
* `Score.returned`, `Score.performed` — its code goes on.
-/
import Actors.Proofs.Staging

namespace Actors

variable {κ σ α : Type} {b : Behaviour κ σ} {i : ProgramId} {D : RunningProgram κ}

/-! ### Cycles that follow each other -/

/-- The model after a number of cycles. -/
def lastModel (rs : List (Round κ)) : Option (Value κ) :=
  rs.getLast?.map fun r => r.model

/-- What a cycle may be about after others: the first one about nothing, and every other one about a message
of the program's type and the model before. -/
def Caused (b : Behaviour κ σ) (D : RunningProgram κ) (rs : List (Round κ)) :
    Option (Value κ × Value κ) → Prop
  | none => rs = []
  | some (v, old) => v.hasType (b.application D.app).message = true ∧ lastModel rs = some old

/-- The function that makes a model has come to this. -/
def Draft.Made (b : Behaviour κ σ) (D : RunningProgram κ) (x : Draft κ) : Prop :=
  match x.cause with
  | none => (b.application D.app).init.Returns (x.model, x.cmds)
  | some (v, old) => ((b.application D.app).update v old).Returns (x.model, x.cmds)

/-- A draft of a cycle that may come after others. -/
structure Draft.Follows (b : Behaviour κ σ) (D : RunningProgram κ) (rs : List (Round κ)) (x : Draft κ) :
    Prop where
  caused : Caused b D rs x.cause
  made : x.Made b D

/-- A cycle that may come after others. -/
structure Round.Follows (b : Behaviour κ σ) (D : RunningProgram κ) (rs : List (Round κ)) (r : Round κ) :
    Prop where
  draft : r.toDraft.Follows b D rs
  subs : ((b.application D.app).subscriptions r.model).Returns r.subs

/-- A cycle that a message has caused is not the first one. -/
theorem Draft.Follows.later {rs : List (Round κ)} {x : Draft κ} (h : x.Follows b D rs)
    (caused : x.cause ≠ none) : rs.length - 1 + 1 = rs.length := by
  cases rs with
  | nil =>
    obtain ⟨⟨v, old⟩, hc⟩ := Option.ne_none_iff_exists'.1 caused
    have last := h.caused
    rw [hc] at last
    cases last.2
  | cons r rs => rfl

/-- Cycles that follow each other, in each of which every manager has been sent its share. -/
inductive Rounds (b : Behaviour κ σ) (D : RunningProgram κ) : List (Round κ) → Prop where
  | nil : Rounds b D []
  | snoc {rs : List (Round κ)} {r : Round κ} (h : Rounds b D rs) (follows : r.Follows b D rs)
      (complete : r.Complete b D) : Rounds b D (rs ++ [r])

/-- Managers have been sent their shares, as far as they have been sent any. -/
def Round.Sends (b : Behaviour κ σ) (D : RunningProgram κ) (r : Round κ) : Prop :=
  r.posts = [] ∨ r.Fair b D r.posts

/-! ### The cycle under way -/

namespace Station

/-- What a cycle has come to before a stage. -/
def Fits (b : Behaviour κ σ) (D : RunningProgram κ) (rs : List (Round κ)) : Station κ → Prop
  | begun _ => rs ≠ []
  | ready cause => Caused b D rs cause
  | made x => x.Follows b D rs ∧ x.cause ≠ none
  | drafted x => x.Follows b D rs
  | rendered x => x.Follows b D rs
  | computed r => r.Follows b D rs ∧ r.posts = []
  | placed r => r.Follows b D rs ∧ r.Sends b D
  | posting r m => r.Follows b D rs ∧ r.Sends b D ∧ D.managers[r.posts.length]? = some m

/-- The model that is in its place in a stage. -/
def model? (rs : List (Round κ)) : Station κ → Option (Value κ)
  | begun _ => lastModel rs
  | placed r => some r.model
  | posting r _ => some r.model
  | _ => none

/-- The updates that have been counted before a stage. -/
def updates (rs : List (Round κ)) : Station κ → Nat
  | begun _ => rs.length - 1
  | ready _ => rs.length - 1
  | made _ => rs.length - 1
  | _ => rs.length

/-- The manager that is sent its share next. -/
def addressee? : Station κ → Option (Home × Pid)
  | posting _ m => some m
  | _ => none

/-- The cycle that is over with a directive. -/
def closes : Station κ → Directive κ σ → List (Round κ)
  | placed r, .settle .. => [r]
  | placed r, .install .. => [r]
  | _, _ => []

end Station

/-- The cycles of a program: those that are over, and the one that is under way. -/
structure Score (κ : Type) where
  rounds : List (Round κ)
  now : Stance κ

namespace Score

/-- The messages that have caused cycles. -/
def messages (s : Score κ) : List (Value κ) :=
  s.rounds.filterMap (fun r => r.message?) ++ s.now.message?.toList

/-- What the cycles have shown. -/
def beats (s : Score κ) : List (Beat κ) :=
  s.rounds.flatMap Round.beats ++ s.now.beats

/-- The shares that have been sent. -/
def posts (s : Score κ) : List ((Home × Pid) × Share κ) :=
  s.rounds.flatMap (fun r => r.posts) ++ s.now.posts

/-- The manager that is sent its share next. -/
def addressee? (s : Score κ) : Option (Home × Pid) :=
  match s.now with
  | .own st => st.addressee?
  | _ => none

/-- What stands in the runtime for the program. -/
def entry (D : RunningProgram κ) (s : Score κ) : Option (RunningProgram κ) :=
  match s.now.station? with
  | some st => some { D with model := st.model? s.rounds, updates := st.updates s.rounds }
  | none => (lastModel s.rounds).map fun v => { D with model := some v, updates := s.rounds.length - 1 }

/-- Cycles that follow each other, with one under way that follows them. -/
structure Fits (b : Behaviour κ σ) (D : RunningProgram κ) (s : Score κ) : Prop where
  rounds : Rounds b D s.rounds
  now : ∀ st, s.now.station? = some st → st.Fits b D s.rounds

end Score

/-! ### What a directive adds -/

/-- What a directive of a cycle changes of the program's entry. -/
def Directive.amend : Directive κ σ → RunningProgram κ → RunningProgram κ
  | .takeModel _ => fun d => { d with model := none }
  | .putModel _ v => fun d => { d with model := some v }
  | .countUpdate _ => fun d => { d with updates := d.updates + 1 }
  | _ => id

/-- What the code of a cycle adds to it with a directive. -/
structure Score.Adds (b : Behaviour κ σ) (i : ProgramId) (D : RunningProgram κ) (d : Directive κ σ)
    (s s' : Score κ) : Prop where
  fits : s'.Fits b D
  messages : s'.messages = s.messages
  beats : s'.beats = s.beats ++ (d.beat? i D s.addressee?).toList
  posts : s'.posts = s.posts ++ (d.beat? i D s.addressee?).toList.filterMap Beat.post?
  addressee? : s'.addressee? = d.addressee?
  entry : s'.entry D = (s.entry D).map d.amend

namespace Score

variable {rs : List (Round κ)} {c c' : Stance κ} {st st' : Station κ} {d : Directive κ σ}

/-- A directive that leads to another stage of the cycle. -/
theorem adds_own (rounds : Rounds b D rs) (fits : st'.Fits b D rs) (message : st'.message? = st.message?)
    (beats : st'.beats = st.beats ++ (d.beat? i D st.addressee?).toList)
    (posts : st'.posts = st.posts ++ (d.beat? i D st.addressee?).toList.filterMap Beat.post?)
    (addressee : st'.addressee? = d.addressee?)
    (entry : entry D ⟨rs, .own st'⟩ = (entry D ⟨rs, .own st⟩).map d.amend) :
    Adds b i D d ⟨rs, .own st⟩ ⟨rs, .own st'⟩ where
  fits := ⟨rounds, fun _ hs => Option.some.inj hs ▸ fits⟩
  messages := congrArg (fun o => rs.filterMap (fun r => r.message?) ++ Option.toList o) message
  beats := (congrArg (rs.flatMap Round.beats ++ ·) beats).trans (List.append_assoc _ _ _).symm
  posts := (congrArg (rs.flatMap (fun r => r.posts) ++ ·) posts).trans (List.append_assoc _ _ _).symm
  addressee? := addressee
  entry := entry

/-- A directive that ends the cycle. -/
theorem adds_free {r : Round κ} (rounds : Rounds b D rs) (follows : r.Follows b D rs)
    (complete : r.Complete b D) (silent : d.beat? i D none = none) (still : d.addressee? = none)
    (plain : d.amend = id) : Adds b i D d ⟨rs, .own (.placed r)⟩ ⟨rs ++ [r], .free⟩ where
  fits := ⟨.snoc rounds follows complete, nofun⟩
  messages := by
    show List.filterMap _ (rs ++ [r]) ++ [] = List.filterMap _ rs ++ r.message?.toList
    rw [List.append_nil, List.filterMap_append, List.filterMap_cons, List.filterMap_nil]
    cases r.message? <;> rfl
  beats := by
    show (rs ++ [r]).flatMap Round.beats ++ [] = rs.flatMap Round.beats ++ r.beats ++ (d.beat? i D none).toList
    rw [silent, List.append_nil, List.flatMap_append, List.flatMap_singleton]
    exact (List.append_nil _).symm
  posts := by
    show (rs ++ [r]).flatMap (fun r => r.posts) ++ [] =
      rs.flatMap (fun r => r.posts) ++ r.posts ++ (d.beat? i D none).toList.filterMap Beat.post?
    rw [silent, List.append_nil, List.flatMap_append, List.flatMap_singleton]
    exact (List.append_nil _).symm
  addressee? := still.symm
  entry := by
    rw [plain, Option.map_id, id]
    simp [entry, lastModel, Stance.station?, Station.model?, Station.updates]

end Score

/-! ### Calls -/

/-- What a call comes to fits to the cycle in which it has been made. -/
theorem Station.May.fits {rs : List (Round κ)} {st st' : Station κ} {c : Call κ}
    (may : st.May b i D (.invoke c)) {r : c.Result} (returns : (b.code c).Returns r) (fits : st.Fits b D rs)
    (next : st.next (.invoke (σ := σ) c) r = .own st') :
    st'.Fits b D rs ∧ st'.model? rs = st.model? rs ∧ st'.updates rs = st.updates rs ∧
      st'.addressee? = none := by
  cases may with
  | init =>
    obtain rfl := Stance.own.inj next
    obtain rfl : rs = [] := fits
    exact ⟨⟨rfl, returns⟩, rfl, rfl, rfl⟩
  | update v old =>
    obtain rfl := Stance.own.inj next
    exact ⟨⟨⟨fits, returns⟩, Option.some_ne_none _⟩, rfl, rfl, rfl⟩
  | render x =>
    obtain rfl := Stance.own.inj next
    exact ⟨fits, rfl, rfl, rfl⟩
  | subscriptions x =>
    obtain rfl := Stance.own.inj next
    exact ⟨⟨⟨fits, returns⟩, rfl⟩, rfl, rfl, rfl⟩
  | leaf x m f chain v =>
    obtain rfl := Stance.own.inj next
    exact ⟨fits, rfl, rfl, rfl⟩

/-- Two scores say the same. -/
structure Score.Alike (D : RunningProgram κ) (s s' : Score κ) : Prop where
  messages : s'.messages = s.messages
  beats : s'.beats = s.beats
  posts : s'.posts = s.posts
  addressee? : s'.addressee? = s.addressee?
  entry : s'.entry D = s.entry D

namespace Score

variable {rs : List (Round κ)} {c c' : Stance κ} {st : Station κ}

/-- When a call returns nothing is added: it has been seen when it was made. -/
theorem returned (returns : Stance.Returns b i D c c') (fits : Fits b D ⟨rs, c⟩) :
    Fits b D ⟨rs, c'⟩ ∧ Alike D ⟨rs, c⟩ ⟨rs, c'⟩ := by
  cases returns with
  | @intro st c r may returns =>
    obtain ⟨st', next, called⟩ := may.called r
    obtain ⟨fits', model, updates, addressee⟩ := may.fits returns (fits.now st rfl) next
    rw [next]
    refine ⟨⟨fits.rounds, fun _ hs => Option.some.inj hs ▸ fits'⟩, ?_, ?_, ?_, addressee, ?_⟩
    · exact congrArg (fun o => rs.filterMap (fun r => r.message?) ++ Option.toList o) called.message?
    · exact congrArg (rs.flatMap Round.beats ++ ·) called.beats
    · exact congrArg (rs.flatMap (fun r => r.posts) ++ ·) called.posts
    · show some { D with model := st'.model? rs, updates := st'.updates rs } =
        some { D with model := st.model? rs, updates := st.updates rs }
      rw [model, updates]

/-- The call of a function is seen when it is made. -/
theorem calls {call : Call κ} (may : st.May b i D (.invoke call)) (fits : Fits b D ⟨rs, .own st⟩) :
    Adds b i D (.invoke call) ⟨rs, .own st⟩ ⟨rs, .inside st⟩ where
  fits := ⟨fits.rounds, fun _ hs => Option.some.inj hs ▸ fits.now st rfl⟩
  messages := rfl
  beats := by
    show rs.flatMap Round.beats ++ (st.beats ++ st.called) =
      rs.flatMap Round.beats ++ st.beats ++ (call.beat? i).toList
    rw [may.shown, List.append_assoc]
  posts := by
    show rs.flatMap (fun r => r.posts) ++ st.posts =
      rs.flatMap (fun r => r.posts) ++ st.posts ++ (call.beat? i).toList.filterMap Beat.post?
    rw [may.shown, st.called_posts, List.append_nil]
  addressee? := rfl
  entry := Option.map_id'.symm

end Score

/-! ### Directives -/

/-- What a directive does to the entry of a program. -/
theorem World.modifyProgram_self (w : World κ σ) (i : ProgramId) (f : RunningProgram κ → RunningProgram κ) :
    (w.modifyProgram i f).programs[i]? = (w.programs[i]?).map f := by
  unfold modifyProgram
  split
  · next d hd =>
    rw [hd]
    exact List.getElem?_set_self (List.getElem?_eq_some_iff.1 hd).1
  · next hd =>
    rw [hd]
    rfl

/-- The code of a cycle changes no entry but that of its program. -/
theorem Station.May.programsAfter {st : Station κ} {d : Directive κ σ} (may : st.May b i D d)
    (w : World κ σ) : (d.programsAfter w)[i]? = (w.programs[i]?).map d.amend := by
  cases may with
  | take => exact w.modifyProgram_self i _
  | count => exact w.modifyProgram_self i _
  | put => exact w.modifyProgram_self i _
  | _ => exact Option.map_id'.symm

namespace Score

variable {rs : List (Round κ)} {st : Station κ} {w w' : World κ σ}

/-- A call that is answered at once. -/
theorem answers {call : Call κ} {x : call.Result} (may : st.May b i D (.invoke call))
    (returns : (b.code call).Returns x) (fits : Fits b D ⟨rs, .own st⟩) :
    Adds b i D (.invoke call) ⟨rs, .own st⟩
      ⟨rs ++ st.closes (.invoke (σ := σ) call), st.next (.invoke (σ := σ) call) x⟩ := by
  have closes : st.closes (.invoke (σ := σ) call) = [] := by cases st <;> rfl
  obtain ⟨-, messages, beats, posts, addressee, entry⟩ := calls may fits
  obtain ⟨fits', alike⟩ := returned (.intro may returns) (calls may fits).fits
  rw [closes, List.append_nil]
  exact ⟨fits', alike.messages.trans messages, alike.beats.trans beats, alike.posts.trans posts,
    alike.addressee?.trans addressee, alike.entry.trans entry⟩

/-- The code of a cycle goes on with it. -/
theorem performs {d : Directive κ σ} {x : d.Reply} {n : Nat} (may : st.May b i D d)
    (hd : d.step b w Act.ret = .next w' (.ret x)) (known : Position.Knows b i D ⟨n, .own st⟩ d x)
    (fits : Fits b D ⟨rs, .own st⟩) (there : w.programs[i]? = entry D ⟨rs, .own st⟩) :
    Adds b i D d ⟨rs, .own st⟩ ⟨rs ++ st.closes d, st.next d x⟩ := by
  have hst := fits.now st rfl
  have goes : ∀ st', st.closes d = [] → st.next d x = .own st' →
      Adds b i D d ⟨rs, .own st⟩ ⟨rs, .own st'⟩ →
        Adds b i D d ⟨rs, .own st⟩ ⟨rs ++ st.closes d, st.next d x⟩ :=
    fun st' closes next adds => by rwa [closes, next, List.append_nil]
  have none : ∀ {β : Type} (l : List β), l = l ++ [] := fun l => (List.append_nil l).symm
  -- What the code calls has its own lemma; the other operations go on to the next station, and
  -- two of them end the cycle.
  cases may with
  | updating v =>
    exact goes (.begun v) rfl rfl (adds_own fits.rounds hst rfl (none _) (none _) rfl Option.map_id'.symm)
  | running v =>
    exact goes (.begun v) rfl rfl (adds_own fits.rounds hst rfl (none _) (none _) rfl Option.map_id'.symm)
  | @take v typed =>
    obtain ⟨old, rfl⟩ := Option.ne_none_iff_exists'.1 (known ⟨_, rfl⟩)
    obtain ⟨-, hr⟩ := Progress.next.inj hd
    rw [there] at hr
    exact goes (.ready (some (v, old))) rfl rfl
      (adds_own fits.rounds ⟨typed, Act.ret.inj hr⟩ rfl rfl rfl rfl rfl)
  | count y =>
    obtain ⟨follows, caused⟩ := hst
    refine goes (.drafted y) rfl rfl (adds_own fits.rounds follows rfl (none _) (none _) rfl ?_)
    have later : rs.length - 1 + 1 = rs.length := follows.later caused
    show some _ = some { D with model := Option.none, updates := rs.length - 1 + 1 }
    rw [later]
    rfl
  | put r =>
    exact goes (.placed r) rfl rfl
      (adds_own fits.rounds ⟨hst.1, .inl hst.2⟩ rfl (none _) hst.2 rfl rfl)
  | isReachable r =>
    exact goes (.placed r) rfl rfl (adds_own fits.rounds hst rfl (none _) (none _) rfl Option.map_id'.symm)
  | @dispatched r home p n k next =>
    exact goes (.posting r (home, p)) rfl rfl
      (adds_own fits.rounds ⟨hst.1, hst.2, next⟩ rfl (none _) (none _) rfl Option.map_id'.symm)
  | @send r m e fair =>
    obtain ⟨follows, -, next⟩ := hst
    have shown : (Directive.request (σ := σ) (.send m.2 (.effects e.cmds e.subs))).beat? i D (some m) =
        some (.post m e) :=
      if_pos ⟨List.mem_of_getElem? next, rfl⟩
    refine goes (.placed { r with posts := r.posts ++ [(m, e)] }) rfl rfl
      (adds_own fits.rounds ⟨⟨follows.draft, follows.subs⟩, .inr fair⟩ rfl ?_ ?_ rfl Option.map_id'.symm)
    · rw [Station.addressee?, shown]
      show Round.beats _ = Round.beats r ++ [.post m e]
      rw [Round.beats, List.map_append, ← List.append_assoc]
      rfl
    · rw [Station.addressee?, shown]
      rfl
  | @settle r t mine caused complete => exact adds_free fits.rounds hst.1 complete rfl rfl rfl
  | @install r first complete => exact adds_free fits.rounds hst.1 complete rfl rfl rfl
  | init => exact answers .init known fits
  | update v old => exact answers (.update v old) known fits
  | render y => exact answers (.render y) known fits
  | subscriptions y => exact answers (.subscriptions y) known fits
  | leaf r m f chain v => exact answers (.leaf r m f chain v) known fits

end Score

end Actors
