/-
Time.

Points in time and spans of time are counts of nanoseconds. Both are bounded by `Time.longest`,
and a sum that would pass the bound stops there.

* `Time.later` — the point that lies a span after another, saturating;
* `Time.text` — a span in the largest unit that it fills at least once.
-/

namespace Actors.Time

/-- Nanoseconds in a second. -/
def second : Nat := 1000000000

/-- Nanoseconds in a millisecond. -/
def millisecond : Nat := 1000000

/-- Nanoseconds in a microsecond. -/
def microsecond : Nat := 1000

/-- The longest span: as many seconds as a word of 64 bits can count, and all but a full further
second. -/
def longest : Nat := (UInt64.size - 1) * second + (second - 1)

/-- The point in time that lies `span` after `now`. -/
def later (now span : Nat) : Nat :=
  min (now + span) longest

theorem le_later {now span : Nat} (h : now ≤ longest) : now ≤ later now span := by
  unfold later; omega

theorem later_le_longest (now span : Nat) : later now span ≤ longest := by
  unfold later; omega

/-- Saturating sums may be taken in any grouping. -/
theorem later_later (now a b : Nat) : later (later now a) b = later now (later a b) := by
  unfold later; omega

/-- A fraction below one, given as a count of units of which `10 ^ places` make one, as a point
and its digits without the zeros at their end; nothing at all for zero. -/
def fraction (places count : Nat) : String :=
  if count = 0 then "" else
    let digits := Nat.toDigits 10 count
    let padded := List.replicate (places - digits.length) '0' ++ digits
    "." ++ String.ofList (padded.reverse.dropWhile (· = '0')).reverse

/-- A span in seconds, milliseconds, microseconds or nanoseconds, whichever is the largest unit
that it fills. -/
def text (span : Nat) : String :=
  if second ≤ span then
    toString (span / second) ++ fraction 9 (span % second) ++ "s"
  else if millisecond ≤ span then
    toString (span / millisecond) ++ fraction 6 (span % millisecond) ++ "ms"
  else if microsecond ≤ span then
    toString (span / microsecond) ++ fraction 3 (span % microsecond) ++ "µs"
  else
    toString span ++ "ns"

end Actors.Time
