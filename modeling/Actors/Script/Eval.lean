/-
Evaluation of expressions.

Arguments are evaluated from left to right, and each is converted to the type that is asked for as
soon as it is there. Conversions that fail are faults. A filter decides about all its elements before
it converts the first decision.

* `Expr.eval` — the value of an expression in a scope;
* `SpanExpr.eval` — the length of a span.
-/
import Actors.Script.Session
import Actors.Effect.Tagger

namespace Actors.Script

/-- Code of a script with a result in `α`. -/
abbrev Eval (α : Type) := Code Closure Session α

namespace Eval

/-- The state of the script. -/
def session : Eval Session :=
  Code.ask .recall

/-- Changes the state of the script. -/
def update (f : Session → Session) : Eval Unit :=
  session.bind fun s => Code.ask (.remember (f s))

/-- What can be seen of the runtime. -/
def observe : Eval Snapshot :=
  Code.ask .observe

/-- A result that has to be an integer, and so on for the other types. -/
def asInt (x : Eval V) : Eval Int64 :=
  x.bind fun v => Act.ofExcept v.toInt

def asBool (x : Eval V) : Eval Bool :=
  x.bind fun v => Act.ofExcept v.toBool

def asText (x : Eval V) : Eval String :=
  x.bind fun v => Act.ofExcept v.toText

def asList (x : Eval V) : Eval (List V) :=
  x.bind fun v => Act.ofExcept v.toList

def asPid (x : Eval V) : Eval Pid :=
  x.bind fun v => Act.ofExcept v.toPid

end Eval

open Eval

/-- Applies an arithmetic operation. -/
def Arith.apply : Arith → Int64 → Int64 → Int64
  | .add, a, b => a + b
  | .sub, a, b => a - b
  | .mul, a, b => a * b

/-- Wraps a value. -/
def Wrapper.apply : Wrapper → V → V
  | .ok, v => .ok v
  | .err, v => .err v
  | .message, v => .message v
  | .internal, v => .internal v

/-- Puts an integer into an ascending list, unless it is in there. -/
def insertUnique (n : Int64) : List Int64 → List Int64
  | [] => [n]
  | m :: ms => if n < m then n :: m :: ms else if n = m then m :: ms else m :: insertUnique n ms

/-- The integers of a list of values in ascending order, each once. -/
def uniqueInts : List V → Except Fault (List Int64)
  | [] => .ok []
  | v :: vs => do
    let n ← v.toInt
    let ns ← uniqueInts vs
    return insertUnique n ns

/-- The values that come with `true`. What comes with each of them has to be a boolean. -/
def keptValues : List (V × V) → Except Fault (List V)
  | [] => .ok []
  | (v, w) :: rest => do
    let keep ← w.toBool
    let vs ← keptValues rest
    return if keep then v :: vs else vs

/-- Adds a number to an integer, or puts it at the end of a list. Other values stay. -/
def increaseValue (n : Int64) : V → V
  | .int m => .int (m + n)
  | .list vs => .list (vs ++ [.int n])
  | v => v

mutual

/-- The value of an expression. -/
def Expr.eval : Expr → Scope → Eval V
  | .null, _ => .ret .unit
  | .bool b, _ => .ret (.bool b)
  | .int n, _ => .ret (.int n)
  | .string t, _ => .ret (.string t)
  | .var x, s => .ret (s.lookup x)
  | .global x, _ => do
    let session ← session
    return (session.globals.lookup x).getD .unit
  | .counter x, _ => do
    let session ← session
    return .int (.ofNat ((session.counters.lookup x).getD 0))
  | .list es, s => do
    let vs ← Expr.evalAll es s
    return .list vs
  | .pid n, _ => .ret (.pid ⟨n⟩)
  | .word n, _ => .ret (.word n)
  | .wrap w e, s => do
    let v ← e.eval s
    return w.apply v
  | .effects a b, s => do
    let v ← asList (a.eval s)
    let w ← asList (b.eval s)
    return .effects v w
  | .arith op a b, s => do
    let m ← asInt (a.eval s)
    let n ← asInt (b.eval s)
    return .int (op.apply m n)
  | .less a b, s => do
    let m ← asInt (a.eval s)
    let n ← asInt (b.eval s)
    return .bool (m < n)
  | .same a b, s => do
    let v ← a.eval s
    let w ← b.eval s
    return .bool (v.same w)
  | .not e, s => do
    let b ← asBool (e.eval s)
    return .bool !b
  | .cond c a b, s => do
    let t ← asBool (c.eval s)
    if t then a.eval s else b.eval s
  | .concat a b, s => do
    let t ← asText (a.eval s)
    let u ← asText (b.eval s)
    return .string (t ++ u)
  | .display e, s => do
    let v ← e.eval s
    return .string v.text
  | .length e, s => do
    let vs ← asList (e.eval s)
    return .int (.ofNat vs.length)
  | .nth e n, s => do
    let vs ← asList (e.eval s)
    return vs[n]?.getD .unit
  | .push a b, s => do
    let vs ← asList (a.eval s)
    let v ← b.eval s
    return .list (vs ++ [v])
  | .join a b, s => do
    let vs ← asList (a.eval s)
    let ws ← asList (b.eval s)
    return .list (vs ++ ws)
  | .has l e, s => do
    let v ← e.eval s
    let vs ← asList (l.eval s)
    return .bool (vs.any v.same)
  | .unique e, s => do
    let vs ← asList (e.eval s)
    let ns ← Act.ofExcept (uniqueInts vs)
    return .list (ns.map .int)
  | .mapList l x e, s => do
    let vs ← asList (l.eval s)
    let ws ← Act.traverse (fun v => e.eval (s.bind x v)) vs
    return .list ws
  | .filterList l x e, s => do
    let vs ← asList (l.eval s)
    let ws ← Act.traverse (fun v => e.eval (s.bind x v)) vs
    let kept ← Act.ofExcept (keptValues (vs.zip ws))
    return .list kept
  | .noted label e, s => do
    update fun session => session.note label
    e.eval s
  | .cast t e, s => do
    let v ← e.eval s
    Act.ofExcept (v.coerce t)
  | .isType t e, s => do
    let v ← e.eval s
    return .bool (v.hasType t)
  | .tryCast t e, s => do
    let v ← e.eval s
    return if v.hasType t then .ok v else .err v
  | .increase a b, s => do
    let v ← a.eval s
    let n ← asInt (b.eval s)
    return increaseValue n v
  | .renew e, s => e.eval s
  | .tag e, s => do
    let v ← e.eval s
    Tagger.applyAll s.chain v
  | .tagged e, s => do
    let v ← e.eval s
    return .tagged v.image s.chain
  | .chainLength, s => .ret (.int (.ofNat s.chain.length))
  | .chainEmpty, s => .ret (.bool s.chain.isEmpty)
  | .untag a b, s => do
    let v ← a.eval s
    let (_, chain) ← Act.ofExcept v.toTagged
    let w ← b.eval s
    Tagger.applyAll chain w
  | .taggedValue e, s => do
    let v ← e.eval s
    let (w, _) ← Act.ofExcept v.toTagged
    return w
  | .app, s => .ret ((s.router.map fun r => .pid r.app).getD .unit)
  | .self, s => .ret ((s.router.map fun r => .pid r.this).getD .unit)
  | .router, s => .ret ((s.router.map fun r => .string r.text).getD .unit)
  | .alive e, s => do
    let p ← asPid (e.eval s)
    let session ← session
    if session.attached then
      let b : Bool ← Code.ask (.isAlive p)
      return .bool b
    else
      return .bool false
  | .processes, _ => do
    let session ← session
    if session.attached then
      let o ← observe
      return .list (o.processes.map .pid)
    else
      return .list []
  | .now, _ => do
    let o ← observe
    return .string (toString o.host.now)

/-- The values of expressions, from left to right. -/
def Expr.evalAll : List Expr → Scope → Eval (List V)
  | [], _ => .ret []
  | e :: es, s => do
    let v ← e.eval s
    let vs ← Expr.evalAll es s
    return v :: vs

end

/-- The length of a span. A negative number of milliseconds wraps around at 64 bits. -/
def SpanExpr.eval (s : Scope) : SpanExpr → Eval Nat
  | .fixed span => .ret span
  | .millis e => (asInt (e.eval s)).map fun n => n.toUInt64.toNat * Time.millisecond

end Actors.Script
