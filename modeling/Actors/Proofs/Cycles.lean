/-
The cycles of a run.

Every run plays the cycles of a program one after the other: whatever a step does, it does it to the cycle
that is under way, or it begins one when none is. So what has been seen of the program, what its managers
have been sent, the messages that its main process has begun to handle and its entry in the runtime are what
a sequence of complete cycles says, with the one that is under way at its end.

* `Score.Agrees` — a score says what has happened in a run;
* `Score.Continues`, `Stance.Goes.continues` — what a step adds to it;
* `Stance.Goes.arrives` — what a step brings to the managers;
* `Score.Continues.agrees` — the score of the run with this step.
-/
import Actors.Proofs.Mailbox
import Actors.Proofs.Pausing
import Actors.Proofs.Score

namespace Actors

variable {κ σ : Type} {b : Behaviour κ σ} {i : ProgramId} {D : RunningProgram κ}

open Relation

/-! ### What a step can show -/

namespace Directive

variable {d : Directive κ σ} {last last' : Option (Home × Pid)}

/-- Only managers of the program matter for what a directive shows. -/
theorem beat?_congr (h : ∀ e ∈ D.managers, last = some e ↔ last' = some e) (d : Directive κ σ) :
    d.beat? i D last = d.beat? i D last' := by
  cases d with
  | request r =>
    cases r with
    | send p v =>
      cases v with
      | effects cmds subs =>
        have silent : ∀ {o : Option (Home × Pid)}, (∀ e ∈ D.managers, o ≠ some e) →
            (o.bind fun m => if m ∈ D.managers ∧ m.2 = p then some (Beat.post m ⟨cmds, subs⟩) else none) =
              none := by
          intro o ho
          refine Option.bind_eq_none_iff.2 fun m hm => if_neg fun hp => ho m hp.1 hm
        by_cases there : ∃ e ∈ D.managers, last = some e
        · obtain ⟨e, mem, rfl⟩ := there
          rw [(h e mem).1 rfl]
        · push Not at there
          exact (silent there).trans (silent fun e mem same => there e mem ((h e mem).2 same)).symm
      | _ => rfl
    | _ => rfl
  | _ => rfl

/-- Other code shows nothing, as long as it is not about to send a share. -/
theorem Foreign.beat? (h : d.Foreign i D) (free : ∀ e ∈ D.managers, last ≠ some e) :
    d.beat? i D last = none := by
  have unshown : d.beat? i D last = d.beat? i D none :=
    beat?_congr (fun e mem => ⟨fun same => absurd same (free e mem), fun none => by cases none⟩) d
  rw [unshown]
  cases d with
  | invoke c =>
    cases c with
    | init j app => exact if_neg h
    | update j app v model => exact if_neg h
    | render j app model => exact if_neg h
    | subscriptions j app model => exact if_neg h
    | _ => rfl
  | request r =>
    cases r with
    | send p v => cases v <;> rfl
    | _ => rfl
  | _ => rfl

/-- Other code sends no shares to managers of the program. -/
theorem Foreign.addressee? (h : d.Foreign i D) {e : Home × Pid} (next : d.addressee? = some e) :
    e.2 ∉ D.staff := by
  cases d with
  | note ev =>
    cases ev with
    | dispatched home p n k =>
      obtain rfl := Option.some.inj next
      exact h
    | _ => cases next
  | _ => cases next

end Directive

namespace Machine

variable {m : Machine κ σ} {d : Directive κ σ} {p : Pid}

theorem Sends.directive? {v : Value κ} (h : m.Sends p v) : m.directive? = some (.request (.send p v)) := by
  obtain ⟨going, -, α, fr, k, s, stack⟩ := h
  obtain ⟨w, stack', fault⟩ := m
  obtain rfl : fault = none := going
  obtain rfl : stack' = fr.fill (.run (.op (.request (.send p v)) k)) :: s := stack
  exact fr.directive?_fill _ _ _ _

/-- Messages reach a process by being sent. -/
theorem accepted_eq_nil (silent : ∀ v, m.directive? ≠ some (.request (.send p v))) :
    (Record.of m.record p).accepted = [] := by
  refine List.filterMap_eq_nil_iff.2 fun e he => ?_
  cases e with
  | sent v => exact absurd (sends_of_mem (Record.mem_of.1 he) rfl).directive? (silent v)
  | _ => rfl

theorem arrivals_eq_nil (last : Option (Home × Pid))
    (silent : ∀ v, m.directive? ≠ some (.request (.send p v))) : m.arrivals p last = [] := by
  unfold arrivals
  rw [accepted_eq_nil silent, ite_self]

/-- A directive is no transition of a process. -/
theorem begun_of_directive? (b : Behaviour κ σ) (top : m.directive? = some d) :
    (Record.of m.record p).begun i = [] := by
  have moves : (Record.of m.record p).moves = [] := by
    refine List.filterMap_eq_nil_iff.2 fun e he => ?_
    cases e with
    | moved mv => cases top.symm.trans ((transition b m).still_of_moved (Record.mem_of.1 he))
    | _ => rfl
  rw [Deeds.begun, moves]
  rfl

theorem beats_of_directive? (top : m.directive? = some d) (last : Option (Home × Pid)) :
    m.beats i D last = (d.beat? i D last).toList := by
  rw [beats, top]
  rfl

theorem beats_of_still (still : m.directive? = none) (last : Option (Home × Pid)) :
    m.beats i D last = [] := by
  rw [beats, still]
  rfl

theorem addressed_of_directive? (top : m.directive? = some d) (last : Option (Home × Pid)) :
    m.addressed last = d.addressee? := by
  rw [addressed, top]

theorem addressed_of_still (still : m.directive? = none) (last : Option (Home × Pid)) :
    m.addressed last = last := by
  rw [addressed, still]

end Machine

/-! ### Scores of runs -/

/-- A process is there, and it is dead. -/
def World.Lacks (w : World κ σ) (p : Pid) : Prop :=
  ∃ x, w.procs.get? p = some x ∧ x.isDead = true

/-- The cycles of a program are those of a run. -/
structure Score.Agrees (b : Behaviour κ σ) (i : ProgramId) (D : RunningProgram κ) (m : Machine κ σ)
    (ms : List (Machine κ σ)) (s : Score κ) : Prop where
  fits : s.Fits b D
  entry : m.world.programs[i]? = s.entry D
  messages : (Record.of (ms.flatMap Machine.record) D.pid).begun i = s.messages
  beats : beatsOf i D ms = s.beats
  addressee : ∀ e, e.2 ∈ D.staff → (addressedAfter ms = some e ↔ s.addressee? = some e)
  /-- A manager has received the shares that it has been sent, or the first ones of them and is dead. -/
  arrived : ∀ p ∈ D.staff, arrivedAt p ms = postsTo p s.posts ∨
    arrivedAt p ms <+: postsTo p s.posts ∧ m.world.Lacks p

namespace Score.Agrees

variable {m : Machine κ σ} {ms : List (Machine κ σ)} {rs : List (Round κ)} {c c' : Stance κ} {s s' : Score κ}

theorem alike (h : s.Agrees b i D m ms) (fits : s'.Fits b D) (alike : Alike D s s') :
    s'.Agrees b i D m ms where
  fits := fits
  entry := h.entry.trans alike.entry.symm
  messages := h.messages.trans alike.messages.symm
  beats := h.beats.trans alike.beats.symm
  addressee e mem := alike.addressee? ▸ h.addressee e mem
  arrived p mem := alike.posts ▸ h.arrived p mem

/-- When what a cycle has called returns the score is the same. -/
theorem returns (h : Score.Agrees b i D m ms ⟨rs, c⟩) (returns : ReflTransGen (Stance.Returns b i D) c c') :
    Score.Agrees b i D m ms ⟨rs, c'⟩ := by
  induction returns with
  | refl => exact h
  | tail _ last ih =>
    obtain ⟨fits, alike⟩ := Score.returned last ih.fits
    exact ih.alike fits alike

/-- Between two cycles the entry of the program says how many there have been, and what they have come to. -/
theorem between (h : Score.Agrees b i D m ms ⟨rs, .free⟩) (hD : m.world.programs[i]? = some D) :
    rs.length = D.updates + 1 ∧ D.model = lastModel rs := by
  obtain ⟨v, last, entry⟩ := Option.map_eq_some_iff.1 (hD.symm.trans h.entry).symm
  have more : 0 < rs.length := by
    refine List.length_pos_iff.2 ?_
    rintro rfl
    cases last
  have updates : rs.length - 1 = D.updates := by rw [← entry]
  refine ⟨by omega, ?_⟩
  rw [last, ← entry]

/-- Only managers of the program are sent shares. -/
theorem member (h : s.Agrees b i D m ms) {e : Home × Pid} (mem : e ∈ D.managers) :
    addressedAfter ms = some e ↔ s.addressee? = some e :=
  h.addressee e (List.mem_map.2 ⟨e, mem, rfl⟩)

end Score.Agrees

/-- What a step adds to the score of a run. -/
structure Score.Continues (b : Behaviour κ σ) (i : ProgramId) (D : RunningProgram κ) (m : Machine κ σ)
    (ms : List (Machine κ σ)) (s s' : Score κ) : Prop where
  fits : s'.Fits b D
  entry : (m.step b).world.programs[i]? = s'.entry D
  messages : s'.messages = s.messages ++ (Record.of m.record D.pid).begun i
  beats : s'.beats = s.beats ++ m.beats i D (addressedAfter ms)
  posts : s'.posts = s.posts ++ (m.beats i D (addressedAfter ms)).filterMap Beat.post?
  addressee : ∀ e, e.2 ∈ D.staff → (m.addressed (addressedAfter ms) = some e ↔ s'.addressee? = some e)

namespace Score

variable {m : Machine κ σ} {ms : List (Machine κ σ)} {rs : List (Round κ)} {c c' : Stance κ} {s s' : Score κ}

/-- A directive of the cycle's own code adds to the score what it does to the cycle. -/
theorem Agrees.continues (h : s.Agrees b i D m ms) {d : Directive κ σ} (top : m.directive? = some d)
    (adds : Adds b i D d s s') (programs : (m.step b).world.programs[i]? = (m.world.programs[i]?).map d.amend) :
    Continues b i D m ms s s' := by
  have shown : m.beats i D (addressedAfter ms) = (d.beat? i D s.addressee?).toList := by
    rw [Machine.beats_of_directive? top, Directive.beat?_congr fun e mem => h.member mem]
  refine ⟨adds.fits, ?_, ?_, ?_, ?_, fun e mem => ?_⟩
  · rw [programs, h.entry, adds.entry]
  · rw [Machine.begun_of_directive? b top, List.append_nil, adds.messages]
  · rw [shown, adds.beats]
  · rw [shown, adds.posts]
  · rw [Machine.addressed_of_directive? top, adds.addressee?]

/-- A step that has nothing to do with the cycles. -/
theorem Agrees.continues_beside (h : s.Agrees b i D m ms)
    (programs : (m.step b).world.programs[i]? = m.world.programs[i]?)
    (begun : (Record.of m.record D.pid).begun i = []) (beats : m.beats i D (addressedAfter ms) = [])
    (addressee : ∀ e, e.2 ∈ D.staff → (m.addressed (addressedAfter ms) = some e ↔ s.addressee? = some e)) :
    Continues b i D m ms s s where
  fits := h.fits
  entry := programs.trans h.entry
  messages := by rw [begun, List.append_nil]
  beats := by rw [beats, List.append_nil]
  posts := by rw [beats]; exact (List.append_nil _).symm
  addressee := addressee

end Score

/-! ### What a step does to the programs -/

namespace Machine

variable {m : Machine κ σ} {d : Directive κ σ} {ms : List (Machine κ σ)}

theorem programs_of_still (b : Behaviour κ σ) (still : m.directive? = none) :
    (m.step b).world.programs = m.world.programs :=
  ((transition b m).rests still).programs

theorem programs_of_next (top : m.directive? = some d) {w' : World κ σ} {y : Procedure κ σ d.Reply}
    (h : d.step b m.world Act.ret = .next w' y) : (m.step b).world.programs = d.programsAfter m.world := by
  rw [(of_next top h).1]
  exact congrArg Stock.programs (Directive.stock h)

/-- A directive that breaks a contract, or asks for a drive, leaves the programs. -/
theorem programs_of_directive? (b : Behaviour κ σ) (top : m.directive? = some d) :
    (m.step b).world.programs = d.programsAfter m.world ∨ (m.step b).world.programs = m.world.programs := by
  obtain ⟨α, w, fr, k, s, rfl⟩ := eq_of_directive? top
  rw [fr.step_op, stepCode]
  cases hs : d.step b w k with
  | next w' code => exact .inl (congrArg Stock.programs (Directive.stock hs))
  | drive w' goal k' =>
    obtain ⟨e, rfl⟩ := Directive.eq_drive hs
    obtain ⟨rfl, -⟩ := Directive.of_drive hs
    exact .inr rfl
  | fault f => exact .inr rfl

end Machine

theorem World.modifyProgram_other (w : World κ σ) {j : ProgramId} (hj : j ≠ i)
    (f : RunningProgram κ → RunningProgram κ) : (w.modifyProgram j f).programs[i]? = w.programs[i]? := by
  unfold modifyProgram
  split
  · exact List.getElem?_set_ne hj
  · rfl

/-- Other code leaves the program's entry. -/
theorem Directive.Foreign.programsAfter {d : Directive κ σ} (h : d.Foreign i D) (w : World κ σ)
    (other : ∀ x, d = .found x → w.programs.length ≠ i) : (d.programsAfter w)[i]? = w.programs[i]? := by
  cases d with
  | takeModel j => exact w.modifyProgram_other h _
  | putModel j v => exact w.modifyProgram_other h _
  | countUpdate j => exact w.modifyProgram_other h _
  | found x =>
    have apart := other x rfl
    show (w.programs ++ [x])[i]? = _
    rcases Nat.lt_or_gt_of_ne apart with less | more
    · rw [List.getElem?_eq_none (by simpa using less), List.getElem?_eq_none less.le]
    · exact List.getElem?_append_left more
  | _ => rfl

/-! ### The score of the next step -/

section

variable {m : Machine κ σ} {ms : List (Machine κ σ)} {rs : List (Round κ)} {c c' : Stance κ}

/-- Outside its own code a cycle addresses no manager. -/
theorem Score.addressee?_ne (out : ∀ st, c ≠ .own st) (e : Home × Pid) :
    (⟨rs, c⟩ : Score κ).addressee? ≠ some e := by
  intro next
  cases c with
  | own st => exact out st rfl
  | _ => cases next

/-- No code goes on. -/
theorem Score.Agrees.rests (h : Score.Agrees b i D m ms ⟨rs, c⟩) (still : m.directive? = none)
    (calm : ∀ mv, (D.pid, .moved mv) ∈ m.record → mv.begun? i = none) :
    Score.Continues b i D m ms ⟨rs, c⟩ ⟨rs, c⟩ := by
  refine h.continues_beside ?_ ?_ (Machine.beats_of_still still _) fun e mem => ?_
  · rw [Machine.programs_of_still b still]
  · refine List.filterMap_eq_nil_iff.2 fun mv hm => ?_
    obtain ⟨e, he, hmv⟩ := List.mem_filterMap.1 hm
    cases e with
    | moved mv' =>
      obtain rfl := Option.some.inj hmv
      exact calm _ (Record.mem_of.1 he)
    | _ => cases hmv
  · rw [Machine.addressed_of_still still]
    exact h.addressee e mem

/-- Other code goes on. -/
theorem Score.Agrees.aside (h : Score.Agrees b i D m ms ⟨rs, c⟩) {d : Directive κ σ}
    (top : m.directive? = some d) (foreign : d.Foreign i D)
    (other : ∀ x, d = .found x → m.world.programs.length ≠ i) (out : ∀ st, c ≠ .own st) :
    Score.Continues b i D m ms ⟨rs, c⟩ ⟨rs, c⟩ := by
  have free : ∀ e ∈ D.managers, addressedAfter ms ≠ some e :=
    fun e mem same => Score.addressee?_ne out e ((h.member mem).1 same)
  refine h.continues_beside ?_ (Machine.begun_of_directive? b top) ?_ fun e mem => ?_
  · rcases Machine.programs_of_directive? b top with after | same
    · rw [after]
      exact foreign.programsAfter _ other
    · rw [same]
  · rw [Machine.beats_of_directive? top, foreign.beat? free]
    rfl
  · rw [Machine.addressed_of_directive? top]
    exact ⟨fun next => absurd mem (foreign.addressee? next),
      fun next => absurd next (Score.addressee?_ne out e)⟩

/-- A program that is founded has had no rounds, and begins with the first one. -/
theorem Score.Agrees.founds (h : Score.Agrees b i D m ms ⟨rs, .free⟩)
    (top : m.directive? = some (.found D.fixed)) (here : m.world.programs.length = i) :
    Score.Continues b i D m ms ⟨rs, .free⟩ ⟨rs, .own (.ready none)⟩ := by
  have programs : (m.step b).world.programs = m.world.programs ++ [D.fixed] :=
    Machine.programs_of_next top rfl
  have none : lastModel rs = Option.none := by
    have entry := h.entry
    rw [List.getElem?_eq_none here.le] at entry
    exact Option.map_eq_none_iff.1 entry.symm
  obtain rfl : rs = [] := List.getLast?_eq_none_iff.1 (Option.map_eq_none_iff.1 none)
  refine ⟨⟨.nil, fun st hs => ?_⟩, ?_, ?_, ?_, ?_, fun e mem => ?_⟩
  · obtain rfl := Option.some.inj hs
    exact rfl
  · rw [programs, ← here, List.getElem?_concat_length]
    rfl
  · rw [Machine.begun_of_directive? b top]
    rfl
  · rw [Machine.beats_of_directive? top]
    rfl
  · rw [Machine.beats_of_directive? top]
    rfl
  · rw [Machine.addressed_of_directive? top]
    exact Iff.rfl

/-- A program that is there begins a cycle for the message of an update. -/
theorem Score.Agrees.begins (h : Score.Agrees b i D m ms ⟨rs, .free⟩) {mv : Move κ} {v : Value κ}
    (still : m.directive? = none) (record : m.record = [(D.pid, .moved mv)])
    (task : mv.task = .native (.update i v)) (founded : m.world.programs[i]? ≠ none) :
    Score.Continues b i D m ms ⟨rs, .free⟩ ⟨rs, .own (.begun v)⟩ := by
  have begun : (Record.of m.record D.pid).begun i = [v] := by
    obtain ⟨t, entered⟩ := mv
    obtain rfl : t = .native (.update i v) := task
    rw [record, Record.of_singleton, if_pos rfl]
    show ([Move.mk _ entered]).filterMap (Move.begun? i) = [v]
    simp [Move.begun?]
  have entry : m.world.programs[i]? =
      (lastModel rs).map fun v => { D with model := some v, updates := rs.length - 1 } := h.entry
  obtain ⟨v₀, last⟩ : ∃ v₀, lastModel rs = some v₀ := by
    refine Option.ne_none_iff_exists'.1 fun none => founded ?_
    rw [entry, none]
    rfl
  refine ⟨⟨h.fits.rounds, fun st hs => ?_⟩, ?_, ?_, ?_, ?_, fun e mem => ?_⟩
  · obtain rfl := Option.some.inj hs
    rintro rfl
    cases last
  · rw [Machine.programs_of_still b still, entry]
    show _ = some { D with model := lastModel rs, updates := rs.length - 1 }
    rw [last]
    rfl
  · rw [begun]
    exact congrArg (· ++ [v]) (List.append_nil _).symm
  · rw [Machine.beats_of_still still, List.append_nil]
    rfl
  · rw [Machine.beats_of_still still]
    exact (List.append_nil _).symm
  · rw [Machine.addressed_of_still still]
    exact h.addressee e mem

/-- Every step goes on with the cycles: with the one that is under way, or with a new one. -/
theorem Stance.Goes.continues (goes : Stance.Goes b i D m c c') (h : Score.Agrees b i D m ms ⟨rs, c⟩)
    (founded : ∀ mv, (D.pid, .moved mv) ∈ m.record → m.world.programs[i]? ≠ none) :
    ∃ rs', rs <+: rs' ∧ Score.Continues b i D m ms ⟨rs, c⟩ ⟨rs', c'⟩ := by
  -- The score grows in the last case only; in the others the rounds stay and the stance moves.
  cases goes with
  | rests still calm => exact ⟨rs, List.prefix_rfl, h.rests still calm⟩
  | aside top foreign other out => exact ⟨rs, List.prefix_rfl, h.aside top foreign other out⟩
  | founds top here => exact ⟨rs, List.prefix_rfl, h.founds top here⟩
  | @begins mv v still record task =>
    have moved : (D.pid, Deed.moved mv) ∈ m.record := record ▸ List.mem_singleton.2 rfl
    exact ⟨rs, List.prefix_rfl, h.begins still record task (founded mv moved)⟩
  | @calls st call top may =>
    have programs : (m.step b).world.programs = m.world.programs := Machine.programs_of_next top rfl
    refine ⟨rs, List.prefix_rfl, h.continues top (Score.calls may h.fits) ?_⟩
    rw [programs]
    exact Option.map_id'.symm
  | @performs st d r n top may hd known =>
    refine ⟨rs ++ st.closes d, List.prefix_append _ _,
      h.continues top (Score.performs may hd known h.fits h.entry) ?_⟩
    rw [Machine.programs_of_next top hd, may.programsAfter]

end

/-! ### What reaches the managers -/

namespace Directive

/-- A share goes to the manager that has been noted for it. -/
theorem eq_addressee {d : Directive κ σ} {last : Option (Home × Pid)} {e : Home × Pid} {u : Share κ}
    (h : d.beat? i D last = some (.post e u)) : last = some e := by
  cases d with
  | invoke c =>
    cases c <;> simp [beat?, Call.beat?] at h
  | request r =>
    cases r with
    | send p v =>
      cases v with
      | effects cmds subs =>
        obtain ⟨e', rfl, he⟩ := Option.bind_eq_some_iff.1 h
        split at he
        · obtain ⟨rfl, -⟩ := Beat.post.inj (Option.some.inj he)
          rfl
        · cases he
      | _ => cases h
    | _ => cases h
  | _ => cases h

end Directive

namespace Machine

variable {m : Machine κ σ} {p : Pid} {last : Option (Home × Pid)}

/-- A process that no share has been noted for is sent none. -/
theorem postsTo_beats (other : last.map Prod.snd ≠ some p) :
    postsTo p ((m.beats i D last).filterMap Beat.post?) = [] := by
  refine List.filterMap_eq_nil_iff.2 fun x hx => if_neg fun same => other ?_
  obtain ⟨beat, hb, hp⟩ := List.mem_filterMap.1 hx
  obtain ⟨d, -, shown⟩ := Option.bind_eq_some_iff.1 (Option.mem_toList.1 hb)
  cases beat with
  | post e u =>
    obtain rfl := Option.some.inj hp
    rw [Directive.eq_addressee shown]
    exact congrArg some same
  | _ => cases hp

/-- A process that is not alive receives nothing. -/
theorem accepted_of_dead (dead : m.world.procs.isAlive p = false) : (Record.of m.record p).accepted = [] := by
  refine List.filterMap_eq_nil_iff.2 fun e he => ?_
  cases e with
  | sent v =>
    have mem := Record.mem_of.1 he
    rw [record_of_sends (sends_of_mem mem rfl), dead] at mem
    cases (Prod.mk.inj (List.mem_singleton.1 mem)).2
  | _ => rfl

theorem arrivals_of_lacks (h : m.world.Lacks p) (last : Option (Home × Pid)) : m.arrivals p last = [] := by
  obtain ⟨x, hx, dead⟩ := h
  unfold arrivals
  rw [accepted_of_dead (by rw [World.isAlive_of_get? hx, dead]; rfl), ite_self]

/-- A process that is dead stays so. -/
theorem lacks_step (sound : m.Sound) (h : m.world.Lacks p) : (m.step b).world.Lacks p := by
  obtain ⟨x, hx, dead⟩ := h
  have life := (transition b m).life sound p
  rw [World.bare_of_get? hx] at life
  obtain ⟨same, -⟩ := life.of_dead (Proc.isDead_iff.1 (by rw [Proc.isDead_bare, dead]))
  obtain ⟨y, hy, bare⟩ := Option.map_eq_some_iff.1 same
  exact ⟨y, hy, by rw [← Proc.isDead_bare, bare, Proc.isDead_bare, dead]⟩

end Machine

/-- What a manager is sent in a step reaches it, unless it is dead. -/
theorem Stance.Goes.arrives {m : Machine κ σ} {ms : List (Machine κ σ)} {rs : List (Round κ)}
    {c c' : Stance κ} (goes : Stance.Goes b i D m c c') (h : Score.Agrees b i D m ms ⟨rs, c⟩) {p : Pid}
    (mem : p ∈ D.staff)
    (here : ∀ st, c = .own st → m.world.reachable = true ∧ (m.world.procs.get? p).isSome = true) :
    m.arrivals p (addressedAfter ms) =
        postsTo p ((m.beats i D (addressedAfter ms)).filterMap Beat.post?) ∨ m.world.Lacks p := by
  -- A step that is not meant for this manager adds nothing on either side.
  by_cases other : (addressedAfter ms).map Prod.snd ≠ some p
  · left
    rw [Machine.postsTo_beats other]
    exact if_neg other
  obtain ⟨e, last, rfl⟩ := Option.map_eq_some_iff.1 (not_not.1 other)
  have next := (h.addressee e mem).1 last
  obtain ⟨r, rfl⟩ : ∃ r, c = .own (.posting r e) := by
    unfold Score.addressee? at next
    split at next
    · next st hst =>
      cases st with
      | posting r e' =>
        obtain rfl := Option.some.inj next
        exact ⟨r, hst⟩
      | _ => cases next
    · cases next
  obtain ⟨reachable, there⟩ := here _ rfl
  cases goes with
  | rests still =>
    left
    rw [Machine.arrivals_eq_nil _ fun v top => (by rw [still] at top; cases top), Machine.beats_of_still still]
    rfl
  | aside top foreign other out => exact absurd rfl (out _)
  | calls top may => cases may
  | performs top may hd known =>
    cases may with
    | @send r e u fair =>
      obtain ⟨x, hx⟩ := Option.isSome_iff_exists.1 there
      cases dead : x.isDead with
      | true => exact .inr ⟨x, hx, dead⟩
      | false =>
        left
        have alive : m.world.procs.isAlive e.2 = true := by
          rw [World.isAlive_of_get? hx, dead]
          rfl
        have record : m.record = [(e.2, .sent (.effects u.cmds u.subs))] := by
          rw [Machine.record_of_directive? top, Directive.record, Request.record, if_pos reachable, alive]
          rfl
        have member : e ∈ D.managers := List.mem_of_getElem? (h.fits.now _ rfl).2.2
        have shown : m.beats i D (addressedAfter ms) = [.post e u] := by
          rw [Machine.beats_of_directive? top, last]
          exact congrArg Option.toList (if_pos ⟨member, rfl⟩)
        unfold Machine.arrivals
        rw [shown, last, record, Record.of_singleton, if_pos rfl, Option.map_some, if_pos rfl]
        simp [postsTo, Beat.post?, Deeds.accepted, Deed.message?]

/-- The score of a run goes on with a step. -/
theorem Score.Continues.agrees {m : Machine κ σ} {ms : List (Machine κ σ)} {s s' : Score κ}
    (c : Score.Continues b i D m ms s s') (h : s.Agrees b i D m ms) (sound : m.Sound)
    (arrives : ∀ p ∈ D.staff, m.arrivals p (addressedAfter ms) =
      postsTo p ((m.beats i D (addressedAfter ms)).filterMap Beat.post?) ∨ m.world.Lacks p) :
    s'.Agrees b i D (m.step b) (ms ++ [m]) where
  fits := c.fits
  entry := c.entry
  messages := by
    rw [List.flatMap_append, List.flatMap_singleton, Record.of_append, c.messages, ← h.messages]
    exact (congrArg (List.filterMap _) List.filterMap_append).trans List.filterMap_append
  beats := by rw [beatsOf_snoc, c.beats, h.beats]
  addressee e mem := by rw [addressedAfter_snoc]; exact c.addressee e mem
  arrived p mem := by
    rw [arrivedAt_snoc, c.posts, postsTo_append]
    -- A dead manager stays dead and accepts nothing, so what has reached it stays a prefix.
    have dead : m.world.Lacks p → arrivedAt p ms <+: postsTo p s.posts →
        arrivedAt p ms ++ m.arrivals p (addressedAfter ms) <+: postsTo p s.posts ++
          postsTo p ((m.beats i D (addressedAfter ms)).filterMap Beat.post?) ∧ (m.step b).world.Lacks p := by
      intro lacks first
      rw [Machine.arrivals_of_lacks lacks, List.append_nil]
      exact ⟨first.trans (List.prefix_append _ _), Machine.lacks_step sound lacks⟩
    rcases h.arrived p mem with same | ⟨first, lacks⟩
    · rcases arrives p mem with all | lacks
      · exact .inl (by rw [same, all])
      · exact .inr (dead lacks (same ▸ List.prefix_rfl))
    · exact .inr (dead lacks first)

end Actors
