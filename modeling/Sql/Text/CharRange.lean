/-!
# Classes of characters as ranges of code points

A class is a list of inclusive ranges. The tables of the Unicode properties that the lexer needs
are written in this form, one module per property.
-/

namespace Sql.Text

/-- An inclusive range of code points, first and last. -/
abbrev CharRange := Nat × Nat

/-- The character's code point lies in one of the ranges. -/
def inRanges (ranges : List CharRange) (c : Char) : Bool :=
  ranges.any fun r => decide (r.1 ≤ c.toNat) && decide (c.toNat ≤ r.2)

theorem inRanges_iff {ranges : List CharRange} {c : Char} :
    inRanges ranges c = true ↔ ∃ r ∈ ranges, r.1 ≤ c.toNat ∧ c.toNat ≤ r.2 := by
  simp [inRanges]

end Sql.Text
