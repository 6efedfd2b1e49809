/-
Calls.

A call names a function of user code together with what it is given. Its code is found through the
behaviour; for a manager that may be the built-in one.

* `Hooks.manager` — the functions of a registered manager;
* `Behaviour.code` — the code that a call enters.
-/
import Actors.Effect.Worker

namespace Actors

variable {κ σ : Type}

/-- The function of a manager that maps the leaves of one family. -/
def Manager.mapLeaf (m : Manager κ σ) : Family → List (Tagger κ) → Value κ → Code κ σ (Value κ)
  | .command => m.mapCommand
  | .subscription => m.mapSubscription

/-- The functions of a registered manager. -/
def Hooks.manager (b : Behaviour κ σ) : Hooks κ → Manager κ σ
  | .tasks => .tasks
  | .custom c => b.manager c

/-- The code that a call enters. -/
def Behaviour.code (b : Behaviour κ σ) : (c : Call κ) → Code κ σ c.Result
  | .callback c v => b.callback c v
  | .convert c v => b.convert c v
  | .start c t => b.start c t
  | .thunk c => b.thunk c
  | .build c => b.build c
  | .buildFor c p => b.buildFor c p
  | .managerInit m => (m.hooks.manager b).init
  | .managerEffects m cmds subs state => (m.hooks.manager b).onEffects m.router cmds subs state
  | .managerMessage m v state => (m.hooks.manager b).onMessage m.router v state
  | .mapLeaf m f chain v => (m.manager b).mapLeaf f chain v
  | .init _ app => (b.application app).init
  | .update _ app v model => (b.application app).update v model
  | .subscriptions _ app model => (b.application app).subscriptions model
  | .render _ app model => (b.application app).render model

end Actors
