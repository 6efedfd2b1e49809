/-
Written values.

A value is shown to the outside as a tree of plain data. Two values count as equal when they are
written in the same way; so a number of 32 bits is not equal to an integer, and two tagged values
are equal if their values and the lengths of their chains are.

* `Value.written` — the written form of a value;
* `Value.same` — whether two values are written in the same way;
* `Fault.written` — the written form of a fault that is handed back as a value.
-/
import Actors.Value

namespace Actors

/-- Plain data: what everything is written as. -/
inductive Written where
  | null
  | bool (b : Bool)
  | number (n : Int)
  | text (s : String)
  | list (ws : List Written)
  | record (fields : List (String × Written))
deriving Inhabited

namespace Written

mutual

/-- Whether two written forms are the same, fields in the same order included. -/
def same : Written → Written → Bool
  | null, null => true
  | bool a, bool b => a == b
  | number a, number b => a == b
  | text a, text b => a == b
  | list as, list bs => sameAll as bs
  | record as, record bs => sameFields as bs
  | _, _ => false

/-- Whether two lists of written forms are the same. -/
def sameAll : List Written → List Written → Bool
  | [], [] => true
  | a :: as, b :: bs => same a b && sameAll as bs
  | _, _ => false

/-- Whether two lists of fields are the same. -/
def sameFields : List (String × Written) → List (String × Written) → Bool
  | [], [] => true
  | (m, a) :: as, (n, b) :: bs => m == n && same a b && sameFields as bs
  | _, _ => false

end

/-- A natural number. -/
def count (n : Nat) : Written :=
  number n

end Written

namespace Fault

/-- A fault that has been raised. -/
def raisedFields (f : Fault) : List (String × Written) :=
  [("error", .text f.group.label), ("message", .text f.message)]

/-- A fault that has been handed back. -/
def written (f : Fault) : Written :=
  .record [("display", .text f.message), ("debug", .text f.message), ("class", .text className),
    ("group", .text f.group.name), ("group_text", .text f.group.description),
    ("text", .text f.text)]

end Fault

namespace Value

variable {κ : Type}

mutual

/-- The written form of a value. A list stands for itself; what has no plain form of its own
becomes a record with one field. -/
def written : Value κ → Written
  | unit => .null
  | bool b => .bool b
  | int n => .number n.toInt
  | word n => .record [("u32", .count n.toNat)]
  | string s => .text s
  | pid p => .record [("pid", .count p.number)]
  | list vs => .list (writtenAll vs)
  | ok v => .record [("ok", v.written)]
  | err v => .record [("err", v.written)]
  | message v => .record [("msg", v.written)]
  | internal v => .record [("internal", v.written)]
  | effects cmds subs =>
    .record [("effects", .list [.list (writtenAll cmds), .list (writtenAll subs)])]
  | tagged v chain => .record [("tagged", .list [v.written, .count chain.length])]
  | command t => .record [("opaque", .text ("Command(" ++ t.text ++ ")"))]
  | shown s => .record [("opaque", .text s)]

/-- The written forms of values. -/
def writtenAll : List (Value κ) → List Written
  | [] => []
  | v :: vs => v.written :: writtenAll vs

end

/-- Whether two values are written in the same way. -/
def same (v w : Value κ) : Bool :=
  v.written.same w.written

end Value

end Actors
