/-
Mailboxes are queues.

A mailbox loses nothing, duplicates nothing and keeps the order of sending. This is a law of the
life of a process, so it holds in every run, whoever sends, and wherever the process stands when a
message arrives: in its turn, in one of its own continuations, awaiting a binding, parked, or in the
work queue.

* `Proc.Moves.mailbox` — what a transition takes out of the mailbox;
* `Machine.Sends` — which steps send a message;
* `Life.fifo`, `History.mailbox_fifo` — the law for lives, and for runs.
-/
import Actors.Proofs.History

namespace Actors

variable {κ σ : Type} {b : Behaviour κ σ}

/-- A transition takes its message from the front of the mailbox, unless it ends the process; then
it takes none. -/
theorem Proc.Moves.mailbox {x y : Proc κ} {mv : Move κ} (h : x.Moves mv y) :
    mv.consumed? = none ∧ y.isDead = true ∨ mv.consumed?.toList ++ y.mailbox = x.mailbox := by
  cases h with
  | outcome o =>
    have none : ∀ entered, Move.consumed? ⟨.ofResult o, entered⟩ = none := by
      cases o <;> exact fun _ => rfl
    rw [none]
    cases Handler.next o x.stack with
    | none => exact .inl ⟨rfl, rfl⟩
    | some e => exact .inr rfl
  | push pushes => cases pushes <;> exact .inr rfl
  | receive c mail => exact .inr mail.symm
  | native g => exact .inr rfl

/-- The law of mailboxes, for what a process has consumed, for the messages sent to it while it was
alive, and for its state. Of a process that has died nothing is left but the order. -/
structure Fifo (consumed accepted : List (Value κ)) (o : Option (Proc κ)) : Prop where
  alive : ∀ x ∈ o, x.isDead = false → consumed ++ x.mailbox = accepted
  ordered : consumed <+: accepted
  fresh : o = none → accepted = []

namespace Fifo

variable {c a : List (Value κ)} {x y : Proc κ} {o o' : Option (Proc κ)}

theorem keep (h : Fifo c a (some x))
    (hy : y.isDead = false → x.isDead = false ∧ y.mailbox = x.mailbox) : Fifo c a (some y) := by
  refine ⟨fun z hz hd => ?_, h.ordered, nofun⟩
  obtain rfl := Option.some.inj hz
  obtain ⟨hx, hm⟩ := hy hd
  rw [hm]
  exact h.alive x rfl hx

/-- Every deed keeps the law. -/
theorem leads {d : Deed κ} (h : Fifo c a o) (hd : d.Leads o o') :
    Fifo (c ++ (d.move?.bind Move.consumed?).toList) (a ++ d.message?.toList) o' := by
  cases hd with
  | spawned t =>
    -- Nothing is accepted under a name before there is a process.
    have none : a = [] := h.fresh rfl
    have nothing : c = [] := List.prefix_nil.1 (none ▸ h.ordered)
    rw [none, nothing]
    refine ⟨fun x hx _ => ?_, List.prefix_rfl, nofun⟩
    obtain rfl := Option.some.inj hx
    rfl
  | @sent x v alive =>
    have all : c ++ (x.mailbox ++ [v]) = a ++ [v] := by
      rw [← List.append_assoc, h.alive x rfl alive]
    rw [show c ++ ((Deed.sent v).move?.bind Move.consumed?).toList = c from List.append_nil c]
    refine ⟨fun y hy _ => ?_, h.ordered.trans (List.prefix_append _ _), nofun⟩
    obtain rfl := Option.some.inj hy
    exact all
  | @moved x mv can =>
    have alive : x.isDead = false := by rw [Proc.isDead, Proc.root_of_move? can]; rfl
    have eq : c ++ x.mailbox = a := h.alive x rfl alive
    rw [show a ++ (Deed.moved mv).message?.toList = a from List.append_nil a]
    show Fifo (c ++ mv.consumed?.toList) a (some (x.moved mv.task))
    -- A transition that ends the process leaves nothing to be said but the order.
    rcases (Proc.moves can).mailbox with ⟨taken, dead⟩ | taken
    · rw [taken, Option.toList_none, List.append_nil]
      exact h.keep fun hd => by rw [dead] at hd; cases hd
    · have all : c ++ mv.consumed?.toList ++ (x.moved mv.task).mailbox = a := by
        rw [List.append_assoc, taken, eq]
      refine ⟨fun y hy _ => ?_, ⟨_, all⟩, nofun⟩
      obtain rfl := Option.some.inj hy
      exact all
  | dropped v dead =>
    show Fifo (c ++ []) (a ++ []) o
    rw [List.append_nil, List.append_nil]
    exact h
  | killed alive =>
    show Fifo (c ++ []) (a ++ []) _
    rw [List.append_nil, List.append_nil]
    exact h.keep nofun
  | completed t awaiting =>
    show Fifo (c ++ []) (a ++ []) _
    rw [List.append_nil, List.append_nil]
    exact h.keep fun _ => ⟨by rw [Proc.isDead, awaiting]; rfl, rfl⟩
  | returned t stepping =>
    show Fifo (c ++ []) (a ++ []) _
    rw [List.append_nil, List.append_nil]
    exact h.keep fun _ => ⟨by rw [Proc.isDead, stepping]; rfl, rfl⟩

end Fifo

theorem Life.fifo {ds : Deeds κ} {o : Option (Proc κ)} (l : Life none ds o) :
    Fifo ds.consumed ds.accepted o := by
  -- The induction is on the deeds; each is weighed by what it adds to either sequence.
  induction l with
  | refl => exact ⟨nofun, List.prefix_rfl, fun _ => rfl⟩
  | @snoc o' o'' ds d l h ih =>
    rw [Deeds.consumed_snoc, Deeds.accepted_snoc]
    exact ih.leads h

/-! ### Sending -/

/-- The message of a deed by which a message is sent, to a process that is alive or to one that is
not. -/
def Deed.posted? : Deed κ → Option (Value κ)
  | sent v => some v
  | dropped v => some v
  | _ => none

/-- The next step of a machine sends a message to a process. All code that sends ends here: user
code outside and inside of continuations, routers, programs and what they dispatch. -/
def Machine.Sends (m : Machine κ σ) (p : Pid) (v : Value κ) : Prop :=
  m.fault = none ∧ m.world.reachable = true ∧
    ∃ (α : Type) (fr : Frame κ σ α) (k : Unit → Procedure κ σ α) (s : List (Activity κ σ)),
      m.stack = fr.fill (.run (.op (.request (.send p v)) k)) :: s

/-- Messages are sent by one operation of code only. -/
theorem Directive.eq_send_of_posted {w : World κ σ} {d : Directive κ σ} {p : Pid} {e : Deed κ}
    {v : Value κ} (h : (p, e) ∈ d.record w) (hv : e.posted? = some v) :
    w.reachable = true ∧ d = .request (.send p v) := by
  cases Directive.records h with
  | sent here alive =>
    obtain rfl := Option.some.inj hv
    exact ⟨here, rfl⟩
  | dropped here dead =>
    obtain rfl := Option.some.inj hv
    exact ⟨here, rfl⟩
  | _ => cases hv

theorem Activity.posted_cases {w : World κ σ} {a : Activity κ σ} {p : Pid} {e : Deed κ}
    {v : Value κ} (h : (p, e) ∈ a.record w) (hv : e.posted? = some v) :
    ∃ (α : Type) (fr : Frame κ σ α) (d : Directive κ σ) (k : d.Reply → Procedure κ σ α),
      a = fr.fill (.run (.op d k)) ∧ (p, e) ∈ d.record w := by
  -- Of the activities with deeds, the turn of a process and the end of a continuation send nothing,
  -- and a timer that fires completes a binding. Code is left.
  unfold record at h
  split at h
  · next d k => exact ⟨_, .work, d, k, rfl, h⟩
  · next steps stepped q d k => exact ⟨_, .callback steps stepped q, d, k, rfl, h⟩
  · split at h
    · obtain ⟨-, rfl⟩ := Prod.mk.inj (List.mem_singleton.1 h)
      cases hv
    · cases h
  · next steps stepped q d k => exact ⟨_, .starting steps stepped q, d, k, rfl, h⟩
  · unfold World.turned at h
    split at h
    · cases h
    · split at h
      · obtain ⟨-, rfl⟩ := Prod.mk.inj (List.mem_singleton.1 h)
        cases hv
      · cases h
  · unfold World.fired at h
    split at h
    · split at h
      · split at h
        · obtain ⟨-, rfl⟩ := Prod.mk.inj (World.eq_completed_of_mem_resumed h)
          cases hv
        · cases h
      · cases h
    · cases h
  · cases h

namespace Machine

variable {m : Machine κ σ} {p : Pid} {v : Value κ}

theorem record_of_sends (h : m.Sends p v) :
    m.record = [(p, if m.world.procs.isAlive p then .sent v else .dropped v)] := by
  obtain ⟨running, reachable, α, fr, k, s, stack⟩ := h
  rw [record, running, stack]
  show (fr.fill (.run (.op (.request (.send p v)) k))).record m.world = _
  cases fr with
  | _ => exact if_pos reachable

theorem sends_of_mem {e : Deed κ} (h : (p, e) ∈ m.record) (hv : e.posted? = some v) :
    m.Sends p v := by
  unfold record at h
  split at h
  · next a s running stack =>
    obtain ⟨α, fr, d, k, rfl, hd⟩ := Activity.posted_cases h hv
    obtain ⟨reachable, rfl⟩ := Directive.eq_send_of_posted hd hv
    exact ⟨running, reachable, α, fr, k, s, stack⟩
  · cases h

end Machine

/-! ### The law -/

/-- Mailboxes are queues, in every run and for every process. What the process has consumed,
followed by what is in its mailbox, is what was sent to it, in the order of sending, as long as it
is alive. It never consumes another message, or one out of order. Each message that is sent is
counted at the step that sends it, as dropped if the process is not alive at this step, as accepted
otherwise, and no step that does not send counts one; and each message that is consumed is the one
that the continuation which waits for it is run with. -/
theorem History.mailbox_fifo {m : Machine κ σ} {r : Record κ} (h : History b m r) (p : Pid) :
    (∀ x, m.world.procs.get? p = some x → x.isDead = false →
      (r.of p).consumed ++ x.mailbox = (r.of p).accepted) ∧
    (r.of p).consumed <+: (r.of p).accepted ∧
    (∀ v, m.Sends p v → m.record = [(p, if m.world.procs.isAlive p then .sent v else .dropped v)]) ∧
    (∀ v, (p, .sent v) ∈ m.record ∨ (p, .dropped v) ∈ m.record → m.Sends p v) ∧
    ∀ c v, (p, .moved ⟨.receive c, some (c, v)⟩) ∈ m.record →
      ∃ n k s, (m.step b).stack = .tick n k (.callback p (.run (c.run b v))) :: s := by
  have fifo : Fifo (r.of p).consumed (r.of p).accepted (m.world.bare p) := (h.life p).fifo
  refine ⟨fun x hx alive => ?_, fifo.ordered, fun v hv => Machine.record_of_sends hv,
    fun v hv => ?_, fun c v hv => ?_⟩
  · exact fifo.alive x.bare (World.bare_of_get? hx) (by rw [Proc.isDead_bare, alive])
  · rcases hv with hv | hv
    · exact Machine.sends_of_mem hv rfl
    · exact Machine.sends_of_mem hv rfl
  · exact Machine.step_of_entered hv rfl

/-- Two messages are sent to a process before it has its first turn. -/
def mailing : Machine Empty Unit :=
  let code : Code Empty Unit Unit :=
    (Code.ask (.spawn (.receive .asOk))).bind fun _ =>
      (Code.ask (.send ⟨1⟩ (.bool true))).bind fun _ =>
        (Code.ask (.send ⟨1⟩ (.bool false))).bind fun _ =>
          (Code.ask (.drive .idle)).bind fun _ => .ret ()
  .load (.new .standard ()) (Procedure.ofCode code)

theorem mailing_in_order : ∃ x, (Machine.run .empty 7 mailing).world.procs.get? ⟨1⟩ = some x ∧
    x.mailbox = [.bool false] ∧
    ((Machine.records .empty 7 mailing).of ⟨1⟩).consumed ++ x.mailbox =
      [.bool true, .bool false] := by
  have start : History .empty mailing [] := .new _ _ _
  have fifo := ((start.run 7).mailbox_fifo ⟨1⟩).1
  exact ⟨_, rfl, rfl, fifo _ rfl rfl⟩

end Actors
