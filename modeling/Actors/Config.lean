/-
Configuration.

The settings of a runtime. Only the step budget changes what a runtime does; the others are kept
for the host that it is created on and for the log.

* `Config.text` — all settings in one line;
* `Config.level` — the finest level of log entries that is let through.
-/
import Actors.Time

namespace Actors

/-- How many steps one tick may take: at least one, and no more than a word of 32 bits counts. -/
abbrev Budget := { n : Nat // 0 < n ∧ n < UInt32.size }

/-- The budget of a runtime that is not given one. -/
def Budget.standard : Budget := ⟨10000, by decide⟩

/-- A budget with a given number of steps; the standard one if that number is out of range. -/
def Budget.ofNat (n : Nat) : Budget :=
  if h : 0 < n ∧ n < UInt32.size then ⟨n, h⟩ else .standard

theorem Budget.val_ofNat {n : Nat} (h : 0 < n ∧ n < UInt32.size) : (Budget.ofNat n).val = n := by
  rw [Budget.ofNat, dif_pos h]

/-- How important a log entry is. -/
inductive Level where
  | warn
  | info
  | debug
  | trace
deriving DecidableEq

def Level.text : Level → String
  | .warn => "WARN"
  | .info => "INFO"
  | .debug => "DEBUG"
  | .trace => "TRACE"

/-- The settings of a runtime. -/
structure Config where
  budget : Budget
  eventInterval : Nat
  globalQueueInterval : Nat
  maxBlockingThreads : Nat
  threadKeepAlive : Nat
  sourceFile : Bool
  sourceLine : Bool
  sourceName : Bool
  verbose : Bool
  veryVerbose : Bool

namespace Config

/-- The settings of a runtime that is given none. -/
def standard : Config where
  budget := .standard
  eventInterval := 61
  globalQueueInterval := 31
  maxBlockingThreads := 512
  threadKeepAlive := 10 * Time.second
  sourceFile := false
  sourceLine := false
  sourceName := false
  verbose := true
  veryVerbose := false

/-- The finest level that is let through. The finer of the two switches wins. -/
def level (c : Config) : Level :=
  if c.veryVerbose then .trace else if c.verbose then .debug else .info

/-- A switch in a line of settings. -/
def switch (b : Bool) : String :=
  if b then "true" else "false"

/-- All settings, each with its name. -/
def fields (c : Config) : List (String × String) :=
  [("step_budget", toString c.budget.val),
   ("rt_event_interval", toString c.eventInterval),
   ("rt_global_queue_interval", toString c.globalQueueInterval),
   ("rt_max_blocking_threads", toString c.maxBlockingThreads),
   ("rt_thread_keep_alive", Time.text c.threadKeepAlive),
   ("tracing_source_file", switch c.sourceFile),
   ("tracing_source_line", switch c.sourceLine),
   ("tracing_source_name", switch c.sourceName),
   ("tracing_verbose", switch c.verbose),
   ("tracing_very_verbose", switch c.veryVerbose)]

def text (c : Config) : String :=
  "RuntimeConfig \x7b " ++ ", ".intercalate (c.fields.map fun f => f.1 ++ ": " ++ f.2) ++ " \x7d"

end Config

end Actors
