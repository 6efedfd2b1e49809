/-
The course of a binding.

A binding is begun; it is completed, or its process is killed before that; and its start may hand in
what calls it off, at any time between. That gives few courses: each incident happens once at most,
and where a binding stands in its course can be seen from its process. What has been handed in is
run if the process is killed while the binding is pending, or if it turns out to be dead when the
start function returns.

* `Stage` — where a binding stands, and `World.stage`, where the binding of a ticket does;
* `Course` — the courses that lead to a stage, and `Course.Open`, those after which something may
  still be handed in;
* `Passage`, `Affair.passage` — what one step does to a binding, and `Passage.course`: it continues
  the course;
* `fate`, `Trail.course_and_proper` — what has happened to a binding in a run is a course.
-/
import Actors.Proofs.Rights

namespace Actors

variable {κ σ α : Type} {b : Behaviour κ σ}

open World

/-! ### Stages and courses -/

/-- Where a binding stands. -/
inductive Stage (κ : Type) where
  | unborn
  /-- It is awaited, with what calls it off. -/
  | pending (c : Option (Cancel κ))
  /-- It has been completed, and its process is alive and has not begun another one. -/
  | done
  /-- Its process is dead, and has not begun another one. -/
  | dead
  /-- Its process has begun another one. -/
  | past

/-- The stage of the latest binding of a process. -/
def Root.stage : Root κ → Stage κ
  | .awaiting _ c => .pending c
  | .dead => .dead
  | _ => .done

/-- The stage of a binding, given its number. -/
def Account.stage (a : Account κ) (n : Nat) : Stage κ :=
  match a.standing with
  | none => .unborn
  | some (r, k) => if k < n then .unborn else if n < k then .past else r.stage

/-- The stage of the binding of a ticket. -/
def World.stage (w : World κ σ) (t : Ticket) : Stage κ :=
  (w.account t.pid).stage t.binding

/-- What happens to a binding that is completed. -/
inductive Completion : List (Incident κ) → Prop where
  | bare : Completion [.begun, .completed]
  | kept (c : Cancel κ) : Completion [.begun, .handed c false, .completed]
  | lost (c : Cancel κ) : Completion [.begun, .completed, .handed c false]

/-- What happens to a binding until it is at a stage. -/
inductive Course : Stage κ → List (Incident κ) → Prop where
  | unborn : Course .unborn []
  | begun : Course (.pending none) [.begun]
  | kept (c : Cancel κ) : Course (.pending (some c)) [.begun, .handed c false]
  | done {is : List (Incident κ)} (h : Completion is) : Course .done is
  | past {is : List (Incident κ)} (h : Completion is) : Course .past is
  | exited {is : List (Incident κ)} (h : Completion is) : Course .dead is
  | killed : Course .dead [.begun, .killed true none]
  | called (c : Cancel κ) : Course .dead [.begun, .handed c false, .killed true (some c)]
  | caught (c : κ) : Course .dead [.begun, .killed true none, .handed (.thunk c) true]
  | struck {is : List (Incident κ)} (h : Completion is) : Course .dead (is ++ [.killed false none])
  /-- The process is killed after the binding has been completed, but before the start function
  returns. -/
  | overrun (c : κ) :
      Course .dead [.begun, .completed, .killed false none, .handed (.thunk c) true]

/-- The courses after which what calls the binding off may still be handed in. -/
inductive Course.Open : Stage κ → List (Incident κ) → Prop where
  | pending : Open (.pending none) [.begun]
  | done : Open .done [.begun, .completed]
  | dead : Open .dead [.begun, .killed true none]
  | struck : Open .dead [.begun, .completed, .killed false none]

/-! ### One step -/

/-- What one step does to a binding. Only when no binding is being started, which is what `free`
stands for, a process goes on by itself. -/
inductive Passage (free : Prop) : Stage κ → List (Incident κ) → Stage κ → Prop where
  | stay (s : Stage κ) : Passage free s [] s
  | begun (own : free) : Passage free .unborn [.begun] (.pending none)
  | completed (c : Option (Cancel κ)) : Passage free (.pending c) [.completed] .done
  | killed (c : Option (Cancel κ)) : Passage free (.pending c) [.killed true c] .dead
  | struck : Passage free .done [.killed false none] .dead
  | exited (own : free) : Passage free .done [] .dead
  | left (own : free) : Passage free .done [] .past
  | kept (c : Option (Cancel κ)) (c' : Cancel κ) :
      Passage free (.pending c) [.handed c' false] (.pending (some c'))
  | late {s : Stage κ} (c : Cancel κ) (run : Bool) (missed : ∀ c', s ≠ .pending c')
      (alive : s = .done → run = false) (dead : s = .dead → run = true) :
      Passage free s [.handed c run] s

namespace Passage

variable {free : Prop} {s s' : Stage κ} {is js : List (Incident κ)}

/-- A step continues a course, if something is handed in only as long as it may be, and only a thunk
is run for that. -/
theorem course (ps : Passage free s js s') (h : Course s is)
    (hand : ∀ c run, .handed c run ∈ js → Course.Open s is ∧ (run = true → ∃ c', c = .thunk c')) :
    Course s' (is ++ js) := by
  -- What may happen in a stage is what the course allows there, with two exceptions that need the
  -- leave: something kept, and something late.
  cases ps with
  | stay s =>
    rw [List.append_nil]
    exact h
  | begun own =>
    cases h
    exact .begun
  | completed c =>
    cases h with
    | begun => exact .done .bare
    | kept c => exact .done (.kept c)
  | killed c =>
    cases h with
    | begun => exact .killed
    | kept c => exact .called c
  | struck =>
    cases h with
    | done completion => exact .struck completion
  | exited own =>
    rw [List.append_nil]
    cases h with
    | done completion => exact .exited completion
  | left own =>
    rw [List.append_nil]
    cases h with
    | done completion => exact .past completion
  | kept c c' =>
    cases (hand c' false (List.mem_singleton.2 rfl)).1 with
    | pending => exact .kept c'
  -- What comes too late is run at once if the process is dead, and only a thunk can be run.
  | late c run missed alive dead =>
    obtain ⟨opened, thunk⟩ := hand c run (List.mem_singleton.2 rfl)
    cases opened with
    | pending => exact absurd rfl (missed none)
    | done =>
      obtain rfl := alive rfl
      exact .done (.lost c)
    | dead =>
      obtain ⟨c, rfl⟩ := thunk (dead rfl)
      rw [dead rfl]
      exact .caught c
    | struck =>
      obtain ⟨c, rfl⟩ := thunk (dead rfl)
      rw [dead rfl]
      exact .overrun c

/-- Nothing has happened to a binding before it is begun. -/
theorem eq_of_begun (ps : Passage free s js s') (h : Course s is) (begun : .begun ∈ js) :
    s' = .pending none ∧ is ++ js = [.begun] := by
  cases ps with
  | begun own =>
    cases h
    exact ⟨rfl, rfl⟩
  | _ => simp at begun

/-- As long as a binding is being started and nothing is handed in, it may be handed in later. -/
theorem isOpen (ps : Passage free s js s') (h : Course.Open s is) (busy : ¬ free)
    (hand : ∀ c run, .handed c run ∉ js) : Course.Open s' (is ++ js) := by
  cases ps with
  | stay s =>
    rw [List.append_nil]
    exact h
  | begun own => exact absurd own busy
  | completed c =>
    cases h with
    | pending => exact .done
  | killed c =>
    cases h with
    | pending => exact .dead
  | struck =>
    cases h with
    | done => exact .struck
  | exited own => exact absurd own busy
  | left own => exact absurd own busy
  | kept c c' => exact absurd (List.mem_singleton.2 rfl) (hand c' false)
  | late c run => exact absurd (List.mem_singleton.2 rfl) (hand c run)

end Passage

/-- What happens to the binding with a number. -/
def happening (n : Nat) (is : List (Nat × Incident κ)) : List (Incident κ) :=
  is.filterMap fun e => if e.1 = n then some e.2 else none

theorem mem_happening {n : Nat} {is : List (Nat × Incident κ)} {i : Incident κ} :
    i ∈ happening n is ↔ (n, i) ∈ is := by
  simp [happening]

theorem happening_self (n : Nat) (i : Incident κ) : happening n [(n, i)] = [i] := by
  simp [happening]

theorem happening_other {n k : Nat} (h : k ≠ n) (i : Incident κ) : happening n [(k, i)] = [] := by
  simp [happening, h]

namespace Account

variable {a a' : Account κ} {r r' : Root κ} {n k : Nat}

theorem stage_none (h : a.standing = none) (n : Nat) : a.stage n = .unborn := by
  rw [stage, h]

theorem stage_of_lt (h : a.standing = some (r, k)) (lt : k < n) : a.stage n = .unborn := by
  simp only [stage, h, if_pos lt]

theorem stage_of_gt (h : a.standing = some (r, k)) (gt : n < k) : a.stage n = .past := by
  simp only [stage, h, if_neg (Nat.not_lt_of_lt gt), if_pos gt]

theorem stage_self (h : a.standing = some (r, n)) : a.stage n = r.stage := by
  simp only [stage, h, if_neg (Nat.lt_irrefl n)]

theorem stage_congr (h : a'.standing = a.standing) (n : Nat) : a'.stage n = a.stage n := by
  rw [stage, stage, h]

/-- A change of the root shows at the latest binding only. -/
theorem stage_other (h : a.standing = some (r, k)) (h' : a'.standing = some (r', k))
    (other : k ≠ n) : a'.stage n = a.stage n := by
  rcases Nat.lt_or_gt_of_ne other with lt | gt
  · rw [stage_of_lt h lt, stage_of_lt h' lt]
  · rw [stage_of_gt h gt, stage_of_gt h' gt]

end Account

theorem Root.stage_of_idle {r : Root κ} (idle : r.isAwaiting = false) (live : r ≠ .dead) :
    r.stage = .done := by
  cases r with
  | awaiting i c => cases idle
  | dead => exact absurd rfl live
  | _ => rfl

namespace Passage

variable {free : Prop} {a a' : Account κ} {r r' : Root κ} {n k : Nat}

/-- What happens to the latest binding of a process is nothing to its other bindings. -/
theorem of_latest {i : Incident κ} (h : a.standing = some (r, k)) (h' : a'.standing = some (r', k))
    (latest : Passage free r.stage [i] r'.stage) (n : Nat) :
    Passage free (a.stage n) (happening n [(k, i)]) (a'.stage n) := by
  by_cases hk : k = n
  · subst hk
    rw [happening_self, Account.stage_self h, Account.stage_self h']
    exact latest
  · rw [happening_other hk, Account.stage_other h h' hk]
    exact .stay _

/-- A process may exit, but it stays with the binding. -/
theorem of_rooted (own : free) (h : a.standing = some (r, k)) (h' : a'.standing = some (r', k))
    (live : r ≠ .dead) (idle : r.isAwaiting = false) (idle' : r'.isAwaiting = false) (n : Nat) :
    Passage free (a.stage n) [] (a'.stage n) := by
  by_cases hk : k = n
  · subst hk
    rw [Account.stage_self h, Account.stage_self h', Root.stage_of_idle idle live]
    cases r' with
    | awaiting i c => cases idle'
    | dead => exact .exited own
    | _ => exact .stay _
  · rw [Account.stage_other h h' hk]
    exact .stay _

/-- A process leaves its latest binding behind when it begins another one. -/
theorem of_begun (own : free) (h : a.standing = some (r, k)) (live : r ≠ .dead)
    (idle : r.isAwaiting = false) (h' : a'.standing = some (.awaiting (k + 1) none, k + 1))
    (n : Nat) : Passage free (a.stage n) (happening n [(k + 1, .begun)]) (a'.stage n) := by
  rcases Nat.lt_trichotomy n (k + 1) with lt | rfl | gt
  · rw [happening_other (Nat.ne_of_gt lt), Account.stage_of_gt h' lt]
    rcases Nat.lt_or_eq_of_le (Nat.le_of_lt_succ lt) with lt | rfl
    · rw [Account.stage_of_gt h lt]
      exact .stay _
    · rw [Account.stage_self h, Root.stage_of_idle idle live]
      exact .left own
  · rw [happening_self, Account.stage_of_lt h (Nat.lt_succ_self k), Account.stage_self h']
    exact .begun own
  · rw [happening_other (Nat.ne_of_lt gt), Account.stage_of_lt h (Nat.lt_of_succ_lt gt),
      Account.stage_of_lt h' gt]
    exact .stay _

/-- What is handed in for a binding that is not awaited changes nothing. -/
theorem of_late {i : Nat} (c : Cancel κ) (h : a.standing = some (r, k))
    (h' : a'.standing = a.standing) (entitled : a.Entitled) (missed : ∀ c, r ≠ .awaiting i c)
    (n : Nat) : Passage free (a.stage n) (happening n [(i, .handed c r.isDead)]) (a'.stage n) := by
  rw [Account.stage_congr h']
  by_cases hi : i = n
  · subst hi
    rw [happening_self]
    -- Older bindings and newer ones do not read the root; only for the latest one the case of an
    -- awaiting root is to be excluded.
    rcases Nat.lt_trichotomy k i with lt | rfl | gt
    · rw [Account.stage_of_lt h lt]
      exact .late c _ nofun nofun nofun
    · rw [Account.stage_self h]
      refine .late c _ (fun c' hr => ?_) (fun hr => ?_) (fun hr => ?_)
      · cases r with
        | awaiting j c' =>
          obtain ⟨rfl, -⟩ := entitled.latest _ _ _ h
          exact missed c' rfl
        | _ => cases hr
      · cases r with
        | dead => cases hr
        | _ => rfl
      · cases r with
        | dead => rfl
        | _ => cases hr
    · rw [Account.stage_of_gt h gt]
      exact .late c _ nofun nofun nofun
  · rw [happening_other hi]
    exact .stay _

end Passage

/-- What a step does to an account it does to each of the bindings. -/
theorem Affair.passage {free : Prop} {a a' : Account κ} {is : List (Nat × Incident κ)}
    (af : Affair free a is a') (entitled : a.Entitled) {n : Nat} (pos : 0 < n) :
    Passage free (a.stage n) (happening n is) (a'.stage n) := by
  cases af with
  | idle same lost =>
    rw [Account.stage_congr same]
    exact .stay _
  | spawned t fresh after lost =>
    rw [Account.stage_none fresh, Account.stage_of_lt after pos]
    exact .stay _
  | rooted own before after live idle idle' lost =>
    exact .of_rooted own before after live idle idle' n
  | begun own before live idle after issued => exact .of_begun own before live idle after n
  | completed before after used => exact .of_latest before after (.completed _) n
  | @killed _ r k before live after lost =>
    refine .of_latest before after ?_ n
    -- A kill calls off the binding that is awaited; otherwise it only strikes the process out.
    cases r with
    | awaiting i c => exact .killed c
    | dead => exact absurd rfl live
    | _ => exact .struck
  | kept c before after lost =>
    obtain ⟨rfl, -⟩ := entitled.latest _ _ _ before
    exact .of_latest before after (.kept _ c) n
  | late c before same missed lost => exact .of_late c before same entitled missed n

/-! ### Runs -/

/-- What the next step is to the binding of a ticket. -/
def Machine.happens (m : Machine κ σ) (t : Ticket) : List (Incident κ) :=
  happening t.binding (m.incidents t.pid)

theorem Machine.mem_happens {m : Machine κ σ} {t : Ticket} {i : Incident κ} :
    i ∈ m.happens t ↔ ∃ x, m.world.procs.get? t.pid = some x ∧
      ((∃ d, (t.pid, d) ∈ m.record ∧ (t.binding, i) ∈ x.incidents d) ∨
        ∃ c, m.offer? = some (t, c) ∧ i = .handed c x.isDead) :=
  mem_happening.trans Machine.mem_incidents

/-- What has happened to the binding of a ticket. -/
def fate (ms : List (Machine κ σ)) (t : Ticket) : List (Incident κ) :=
  ms.flatMap fun m => m.happens t

theorem fate_snoc (ms : List (Machine κ σ)) (m : Machine κ σ) (t : Ticket) :
    fate (ms ++ [m]) t = fate ms t ++ m.happens t := by
  simp only [fate, List.flatMap_append, List.flatMap_cons, List.flatMap_nil, List.append_nil]

/-- Deeds hand nothing in. -/
theorem Proc.not_handed (x : Proc κ) (d : Deed κ) (n : Nat) (c : Cancel κ) (run : Bool) :
    (n, Incident.handed c run) ∉ x.incidents d := by
  unfold incidents
  split <;> simp

/-- Something is handed in for a binding by code that offers it, with the ticket of the binding. It
is run if the process is dead. -/
theorem Machine.offer_of_handed {m : Machine κ σ} {t : Ticket} {c : Cancel κ} {run : Bool}
    (h : .handed c run ∈ m.happens t) :
    m.offer? = some (t, c) ∧ ∃ x, m.world.procs.get? t.pid = some x ∧ run = x.isDead := by
  obtain ⟨x, hx, ⟨d, -, hd⟩ | ⟨c', ho, hi⟩⟩ := Machine.mem_happens.1 h
  · exact absurd hd (Proc.not_handed _ _ _ _ _)
  · obtain ⟨rfl, rfl⟩ := Incident.handed.inj hi
    exact ⟨ho, x, hx, rfl⟩

/-- Something is handed in only by code that has leave to do so: the result of a start function, or
a timer. -/
theorem Transition.hand_of_offer {m m' : Machine κ σ} {r : Record κ} {L : Leave κ}
    (tr : Transition b m r m') (h : m.Proper L) {o : Ticket × Cancel κ} (ho : m.offer? = some o) :
    (∃ c, o.2 = .thunk c ∧ L.hand o.1 ∧ ∃ w n k s,
      m = ⟨w, .tick n k (.starting o.1.pid (.run (Procedure.handIn o.1 (some c)))) :: s, none⟩) ∨
      L.start o.1 := by
  cases tr with
  | rest _ idle =>
    rw [Machine.offer?, idle] at ho
    cases ho
  | @code w w' s α fr d k code hd =>
    rw [fr.offer?_fill] at ho
    have leave : ∀ c, d.calledOff? w = some (.thunk c) → (Leave.full : Leave κ).call c :=
      fun _ _ => trivial
    obtain ⟨-, n, j, c', top, how⟩ := fr.fit_handed (h rfl).1 hd ho leave
    rcases how with ⟨c, hc, leave, code⟩ | start
    · refine .inl ⟨c, hc, leave, w, n, j, s, ?_⟩
      rw [top, code]
    · exact .inr start
  | driving fr hd =>
    obtain ⟨e, rfl⟩ := Directive.eq_drive hd
    rw [fr.offer?_fill] at ho
    cases ho
  | broken _ _ cause =>
    rw [cause.offer?_eq_none] at ho
    cases ho
  | _ => cases ho

/-- Something may be handed in for a binding as long as its course is open; and its start may be
entered when it has just been begun. -/
def Leave.forBindings (w : World κ σ) (ms : List (Machine κ σ)) : Leave κ where
  hand t := 0 < t.binding ∧ Course.Open (w.stage t) (fate ms t)
  start t := 0 < t.binding ∧ w.stage t = .pending none ∧ fate ms t = [.begun]
  call _ := True

theorem Leave.open_of_start {w : World κ σ} {ms : List (Machine κ σ)} {t : Ticket}
    (h : (Leave.forBindings w ms).start t) : (Leave.forBindings w ms).hand t := by
  obtain ⟨pos, stage, word⟩ := h
  refine ⟨pos, ?_⟩
  rw [stage, word]
  exact .pending

theorem World.stage_eq_unborn {w : World κ σ} {t : Ticket} (hx : w.procs.get? t.pid = none) :
    w.stage t = .unborn :=
  Account.stage_none (standing_eq_none hx) t.binding

theorem World.stage_of_get? {w : World κ σ} {t : Ticket} {x : Proc κ}
    (hx : w.procs.get? t.pid = some x) :
    w.stage t = .unborn ∨ w.stage t = .past ∨ w.stage t = x.root.stage := by
  have standing : (w.account t.pid).standing = some (x.root, x.binding) := standing_of_get? hx
  rcases Nat.lt_trichotomy x.binding t.binding with lt | same | gt
  · exact .inl (Account.stage_of_lt standing lt)
  · exact .inr (.inr (Account.stage_self (same ▸ standing)))
  · exact .inr (.inl (Account.stage_of_gt standing gt))

/-- As long as a binding is pending its process is alive. -/
theorem World.alive_of_pending {w : World κ σ} {t : Ticket} {x : Proc κ} {c : Option (Cancel κ)}
    (h : w.stage t = .pending c) (hx : w.procs.get? t.pid = some x) : x.isDead = false := by
  rcases World.stage_of_get? hx with stage | stage | stage
  · cases h.symm.trans stage
  · cases h.symm.trans stage
  · rw [Proc.isDead]
    cases hr : x.root with
    | dead =>
      rw [hr] at stage
      cases h.symm.trans stage
    | _ => rfl

/-- What the next step of a run does to a binding. -/
theorem Reachable.passage {m : Machine κ σ} (h : Reachable b m) {t : Ticket} (pos : 0 < t.binding) :
    Passage (∀ a ∈ m.stack, a.starting? = none) (m.world.stage t) (m.happens t)
      ((m.step b).world.stage t) :=
  ((Machine.transition b m).affair h.proper h.sound t.pid).passage (h.entitled t.pid) pos

/-- Something is handed in only as long as it may be, and only a thunk is run for that. -/
theorem Transition.open_of_handed {m m' : Machine κ σ} {r : Record κ} {ms : List (Machine κ σ)}
    (tr : Transition b m r m') (h : m.Proper (.forBindings m.world ms)) {t : Ticket} {c : Cancel κ}
    {run : Bool} (hc : .handed c run ∈ m.happens t) :
    Course.Open (m.world.stage t) (fate ms t) ∧ (run = true → ∃ c', c = .thunk c') := by
  obtain ⟨offer, x, hx, hr⟩ := Machine.offer_of_handed hc
  rcases tr.hand_of_offer h offer with ⟨c', hc', leave, -⟩ | leave
  · exact ⟨leave.2, fun _ => ⟨c', hc'⟩⟩
  · refine ⟨(Leave.open_of_start leave).2, fun late => ?_⟩
    rw [World.alive_of_pending leave.2.1 hx] at hr
    cases hr.symm.trans late

/-- In every run each binding keeps to a course, and something is handed in for it only as long as
the course is open. -/
theorem Trail.course_and_proper {m : Machine κ σ} {ms : List (Machine κ σ)} (h : Trail b m ms) :
    (∀ t, 0 < t.binding → Course (m.world.stage t) (fate ms t)) ∧
      m.Proper (.forBindings m.world ms) := by
  induction h with
  | new config user code =>
    refine ⟨fun t pos => ?_, Machine.proper_load _ _ code⟩
    show Course ((World.new config user).stage t) []
    rw [World.stage_eq_unborn (get?_new config user t.pid)]
    exact .unborn
  | load code h hs hf ih => exact ⟨ih.1, Machine.proper_load _ _ code⟩
  | @step m ms h ih =>
    obtain ⟨course, proper⟩ := ih
    have tr := Machine.transition b m
    -- The course needs the leave to hand things in, and the leave the course so far; hence both
    -- at once.
    refine ⟨fun t pos => ?_, proper.transition h.reachable.sound tr ?_ ?_ fun _ _ => trivial⟩
    · rw [fate_snoc]
      exact (h.reachable.passage pos).course (course t pos) fun _ _ => tr.open_of_handed proper
    · -- A binding that is being started stays open as long as nothing is handed in.
      rintro quiet t leave ⟨a, ha, starting⟩
      obtain ⟨pos, isOpen⟩ := leave.elim id Leave.open_of_start
      have busy : ¬ ∀ a ∈ m.stack, a.starting? = none := by
        intro free
        cases (free a ha).symm.trans starting
      have nothing : ∀ c run, .handed c run ∉ m.happens t := by
        intro c run hc
        cases quiet.symm.trans (Machine.offer_of_handed hc).1
      refine ⟨pos, ?_⟩
      rw [fate_snoc]
      exact (h.reachable.passage pos).isOpen isOpen busy nothing
    · -- A binding is pending when it has been begun.
      intro p x mv g hx task hr
      obtain ⟨u, e⟩ := mv
      obtain rfl : u = .native g := task
      have begins : m.begins? = some ⟨p, x.binding + 1⟩ :=
        Machine.begins?_eq_some.2 ⟨x, g, e, hr, hx, rfl⟩
      have pos : 0 < x.binding + 1 := Nat.succ_pos _
      obtain ⟨stage, word⟩ := (h.reachable.passage pos).eq_of_begun (course _ pos)
        (mem_happening.2 (Machine.incident_of_begins begins))
      refine ⟨pos, stage, ?_⟩
      rw [fate_snoc]
      exact word

end Actors
