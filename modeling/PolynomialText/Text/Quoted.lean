import PolynomialText.Text.Printable

/-!
# Quoted texts

How messages show a text, a character or a list: between quotes, with the quote, the backslash
and every character that is not printable escaped.
-/

namespace PolynomialText.Text

/-- The digits of a code point in base sixteen. -/
def hexadecimal (n : Nat) : Text := Nat.toDigits 16 n

/-- A character between quotes: a short escape, itself, or its code point in braces. -/
def escape (quote c : Char) : Text :=
  if c = '\x00' then ['\\', '0']
  else if c = '\t' then ['\\', 't']
  else if c = '\r' then ['\\', 'r']
  else if c = '\n' then ['\\', 'n']
  else if c = '\\' ∨ c = quote then ['\\', c]
  else if isPrintable c then [c]
  else ['\\', 'u', '\x7b'] ++ hexadecimal c.toNat ++ ['\x7d']

/-- A text between double quotes. -/
def quoted (t : Text) : Text := '"' :: t.flatMap (escape '"') ++ ['"']

/-- A character between single quotes. -/
def quotedChar (c : Char) : Text := '\x27' :: escape '\x27' c ++ ['\x27']

/-- Items between square brackets, separated by commas. -/
def bracketed (items : List Text) : Text := '[' :: join [',', ' '] items ++ [']']

/-- Plain printable characters are quoted as they are. -/
theorem escape_of_isAlphanum {quote c : Char} (h : c.isAlphanum = true) (hq : c ≠ quote) :
    escape quote c = [c] := by
  have hbs : c ≠ '\\' := by rintro rfl; exact absurd h (by decide)
  have h0 : c ≠ '\x00' := by rintro rfl; exact absurd h (by decide)
  have ht : c ≠ '\t' := by rintro rfl; exact absurd h (by decide)
  have hr : c ≠ '\r' := by rintro rfl; exact absurd h (by decide)
  have hn : c ≠ '\n' := by rintro rfl; exact absurd h (by decide)
  have hp : isPrintable c = true := by
    delta Char.isAlphanum Char.isAlpha Char.isUpper Char.isLower Char.isDigit at h
    simp only [Bool.or_eq_true, Bool.and_eq_true, decide_eq_true_eq, ge_iff_le] at h
    simp only [isPrintable, Bool.or_eq_true, Bool.and_eq_true, decide_eq_true_eq, Char.le_def]
    refine .inl ⟨?_, ?_⟩ <;> (simp only [UInt32.le_iff_toNat_le] at h ⊢; simp at h ⊢; omega)
  simp [escape, hbs, h0, ht, hr, hn, hq, hp]

end PolynomialText.Text
