import PolynomialText.Text.Basic

/-!
# White space

White space is the Unicode property of that name. A blank, which separates tokens, is white space
or any control character up to the space.
-/

namespace PolynomialText.Text

/-- The code points with the White_Space property. -/
def whiteRanges : List (Nat × Nat) :=
  [(0x9, 0xD), (0x20, 0x20), (0x85, 0x85), (0xA0, 0xA0), (0x1680, 0x1680), (0x2000, 0x200A),
   (0x2028, 0x2029), (0x202F, 0x202F), (0x205F, 0x205F), (0x3000, 0x3000)]

/-- A character with the White_Space property. -/
def isWhite (c : Char) : Bool := inRanges whiteRanges c

/-- A character that separates tokens. -/
def isBlank (c : Char) : Bool := c ≤ ' ' || isWhite c

/-- White space in the narrow sense of the core library is white space here. -/
theorem isWhite_of_isWhitespace {c : Char} (h : c.isWhitespace = true) : isWhite c = true := by
  simp only [Char.isWhitespace, Bool.or_eq_true, decide_eq_true_eq] at h
  rcases h with ((rfl | rfl) | rfl) | rfl <;> decide

/-- White space separates tokens. -/
theorem isBlank_of_isWhite {c : Char} (h : isWhite c = true) : isBlank c = true := by
  simp [isBlank, h]

end PolynomialText.Text
