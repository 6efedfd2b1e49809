/-
Characters that do not show on paper.

A character is hidden if it has no shape of its own: if it is a mark for machines, a blank or a
filler, if it joins the character before it, or if its number is unassigned.

* `isHidden` — whether a character is hidden;
* `isHidden_of_lt` — below the last character of ASCII, the controls are hidden and no other.
-/
import Actors.Text.Joining
import Actors.Text.Unassigned

namespace Actors.Text

/-- Controls, format marks, every blank but the space, line and paragraph marks, and characters
for private use. -/
def marks : List CharRange :=
  [⟨0x0, 0x1f⟩, ⟨0x7f, 0xa0⟩, ⟨0xad, 0xad⟩, ⟨0x600, 0x605⟩, ⟨0x61c, 0x61c⟩, ⟨0x6dd, 0x6dd⟩,
   ⟨0x70f, 0x70f⟩, ⟨0x890, 0x891⟩, ⟨0x8e2, 0x8e2⟩, ⟨0x1680, 0x1680⟩, ⟨0x180e, 0x180e⟩,
   ⟨0x2000, 0x200f⟩, ⟨0x2028, 0x202f⟩, ⟨0x205f, 0x2064⟩, ⟨0x2066, 0x206f⟩, ⟨0x3000, 0x3000⟩,
   ⟨0xe000, 0xf8ff⟩, ⟨0xfeff, 0xfeff⟩, ⟨0xfff9, 0xfffb⟩, ⟨0x110bd, 0x110bd⟩, ⟨0x110cd, 0x110cd⟩,
   ⟨0x13430, 0x1343f⟩, ⟨0x1bca0, 0x1bca3⟩, ⟨0x1d173, 0x1d17a⟩, ⟨0xe0001, 0xe0001⟩,
   ⟨0xe0020, 0xe007f⟩, ⟨0xf0000, 0xffffd⟩, ⟨0x100000, 0x10fffd⟩]

/-- Letters that only fill the place of a missing one. -/
def fillers : List CharRange :=
  [⟨0x115f, 0x1160⟩, ⟨0x3164, 0x3164⟩, ⟨0xffa0, 0xffa0⟩]

/-- The table is in order. -/
theorem ascending_marks : CharRange.ascending marks := by
  decide +kernel

/-- The table is in order. -/
theorem ascending_fillers : CharRange.ascending fillers := by
  decide +kernel

/-- Whether a character does not show on paper. -/
def isHidden (c : Char) : Bool :=
  [marks, fillers, joining, unassigned].any (CharRange.covers · c)

/-- A character is hidden if it lies in a range of one of the tables. -/
theorem isHidden_iff (c : Char) :
    isHidden c ↔
      ∃ r ∈ marks ++ fillers ++ joining ++ unassigned, r.first ≤ c.toNat ∧ c.toNat ≤ r.last := by
  simp [isHidden, CharRange.covers_iff, ascending_marks, ascending_fillers, ascending_joining,
    ascending_unassigned, or_and_right, exists_or]

/-- Below the last character of ASCII, the controls are hidden and no other. -/
theorem isHidden_of_lt {c : Char} (hc : c.toNat < 0x7f) :
    isHidden c = decide (c.toNat < 0x20) := by
  have hmarks : CharRange.covers marks c = decide (c.toNat < 0x20) := by
    by_cases h : c.toNat ≤ 0x1f
    · rw [CharRange.covers_of_le rfl h]
      simp
      omega
    · rw [marks, CharRange.covers_cons_of_lt (by simpa using h),
        CharRange.covers_of_le rfl (by simp; omega)]
      simp
      omega
  have hfillers : CharRange.covers fillers c = false :=
    CharRange.covers_of_lt_first rfl (by simp) (by simp; omega)
  have hjoining : CharRange.covers joining c = false :=
    CharRange.covers_of_lt_first rfl (by simp) (by simp; omega)
  have hunassigned : CharRange.covers unassigned c = false :=
    CharRange.covers_of_lt_first rfl (by simp) (by simp; omega)
  simp [isHidden, hmarks, hfillers, hjoining, hunassigned]

end Actors.Text
