/-
Ranges of characters.

A property of characters is given as a list of ranges of their numbers, in ascending order.

* `CharRange.covers` — whether a character lies in one of some ranges;
* `covers_iff` — the search, which stops at the first range that can decide, misses none.
-/

namespace Actors.Text

/-- The characters from one number to another, both included. -/
structure CharRange where
  first : Nat
  last : Nat

namespace CharRange

/-- Whether each range begins after the end of the one before it. -/
def ascending : List CharRange → Bool
  | [] => true
  | r :: rs => r.first ≤ r.last && rs.head?.all (fun q => r.last < q.first) && ascending rs

/-- Whether a character lies in one of some ascending ranges. The first range that does not end
before the character decides. -/
def covers (rs : List CharRange) (c : Char) : Bool :=
  (rs.find? fun r => c.toNat ≤ r.last).any fun r => r.first ≤ c.toNat

/-- A character that does not lie above the first range is decided by it. -/
theorem covers_of_le {rs : List CharRange} {r : CharRange} {c : Char} (hr : rs.head? = some r)
    (hc : c.toNat ≤ r.last) : covers rs c = decide (r.first ≤ c.toNat) := by
  obtain ⟨_, rfl⟩ := List.head?_eq_some_iff.1 hr
  simp [covers, hc]

/-- A character below the first range lies in none. -/
theorem covers_of_lt_first {rs : List CharRange} {r : CharRange} {c : Char}
    (hr : rs.head? = some r) (hle : r.first ≤ r.last) (hc : c.toNat < r.first) :
    covers rs c = false := by
  rw [covers_of_le hr (by omega), decide_eq_false (by omega)]

/-- A character above the first range is decided by the others. -/
theorem covers_cons_of_lt {rs : List CharRange} {r : CharRange} {c : Char}
    (hc : r.last < c.toNat) : covers (r :: rs) c = covers rs c := by
  simp [covers, Nat.not_le.2 hc]

/-- In an ascending list, all further ranges begin after the end of the first. -/
theorem last_lt_first_of_ascending {r : CharRange} {rs : List CharRange}
    (h : ascending (r :: rs)) {q : CharRange} (hq : q ∈ rs) : r.last < q.first := by
  induction rs generalizing r with
  | nil => simp at hq
  | cons p ps ih =>
    simp only [ascending, List.head?_cons, Option.all_some, Bool.and_eq_true,
      decide_eq_true_eq] at h
    have hp : ascending (p :: ps) := by simp [ascending, h]
    rcases List.mem_cons.1 hq with rfl | hq
    · omega
    · have := ih hp hq
      omega

/-- The search finds a character in exactly the ranges that hold it. -/
theorem covers_iff {rs : List CharRange} (h : ascending rs) (c : Char) :
    covers rs c ↔ ∃ r ∈ rs, r.first ≤ c.toNat ∧ c.toNat ≤ r.last := by
  induction rs with
  | nil => simp [covers]
  | cons r rs ih =>
    have hrs : ascending rs := by
      simp only [ascending, Bool.and_eq_true] at h
      exact h.2
    by_cases hc : c.toNat ≤ r.last
    · simp only [covers, List.find?_cons, hc, decide_true, Option.any_some, decide_eq_true_eq,
        List.mem_cons, exists_eq_or_imp, and_true]
      refine ⟨Or.inl, fun hor => hor.elim id ?_⟩
      rintro ⟨q, hq, hfirst, _⟩
      have := last_lt_first_of_ascending h hq
      omega
    · simp [covers_cons_of_lt (Nat.lt_of_not_le hc), ih hrs, hc]

end CharRange

end Actors.Text
