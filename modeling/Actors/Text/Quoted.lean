/-
Quoted text.

A string is written between double quotes. Six characters have a short escape, other hidden
characters are written by their number, and everything else stands for itself.

* `quote` — the written form of a string;
* `escape` — the written form of one character.
-/
import Actors.Text.Hidden

namespace Actors.Text

/-- A number in base sixteen, lower case, without leading zeros. -/
def hexadecimal (n : Nat) : String :=
  String.ofList (Nat.toDigits 16 n)

/-- One character between quotes. -/
def escape (c : Char) : String :=
  if c = '\t' then "\\t"
  else if c = '\r' then "\\r"
  else if c = '\n' then "\\n"
  else if c.toNat = 0 then "\\0"
  else if c = '"' then "\\\""
  else if c = '\\' then "\\\\"
  else if isHidden c then "\\u\x7b" ++ hexadecimal c.toNat ++ "\x7d"
  else String.singleton c

/-- A string between quotes, each character escaped on its own. -/
def quote (s : String) : String :=
  s.foldl (fun written c => written ++ escape c) "\"" ++ "\""

/-- The written form, character by character. -/
theorem toList_quote (s : String) :
    (quote s).toList = '"' :: s.toList.flatMap (fun c => (escape c).toList) ++ ['"'] := by
  have h : ∀ (cs : List Char) (start : String),
      (cs.foldl (fun written c => written ++ escape c) start).toList =
        start.toList ++ cs.flatMap fun c => (escape c).toList := by
    intro cs
    induction cs with
    | nil => simp
    | cons c cs ih => intro start; simp [ih, List.append_assoc]
  simp [quote, String.foldl_eq_foldl_toList, h]

end Actors.Text
