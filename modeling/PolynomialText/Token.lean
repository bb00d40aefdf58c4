import PolynomialText.Text.White
import PolynomialText.Text.Quoted

/-!
# Tokens

A text is made of words, quoted literals and single-character operators, separated by blanks and
comments. A comment starts with a number sign and ends with its line. `Token.lex` reads one token
from its first character, and `Token.skip` drops what stands in front of it.
-/

namespace PolynomialText

/-- A unit of the text that expressions are made of. -/
inductive Token where
  /-- A run of word characters. -/
  | word (w : Text)
  /-- The content of a literal between quotes. -/
  | quoted (t : Text)
  /-- Any other character that is not blank. -/
  | op (c : Char)
  /-- The end of the source. -/
  | eof
  deriving DecidableEq, Inhabited

/-- Characters of words: ASCII letters and digits, `_ / . ~`, and everything from U+00A0 up that
is not white space. -/
def isWordChar (c : Char) : Bool :=
  c.isAlphanum || c = '_' || c = '/' || c = '.' || c = '~' || (0xA0 ≤ c.toNat && !Text.isWhite c)

namespace Token

/-- The characters that a token stands for when it is looked at without being read. -/
def lexeme : Token → Text
  | word w => w
  | quoted t => '"' :: t ++ ['"']
  | op c => [c]
  | eof => []

/-- What a token that was put back adds to the amount still to be read. -/
def weight : Token → Nat
  | word w => w.length
  | quoted t => t.length + 1
  | op _ => 1
  | eof => 0

/-- A word that starts with an ASCII digit. -/
def isDigitWord : Token → Bool
  | word (c :: _) => c.isDigit
  | _ => false

/-- How messages show a token. -/
def shown : Token → Text
  | word w => "Word(".toList ++ w.quoted ++ [')']
  | quoted t => "Quoted(".toList ++ t.quoted ++ [')']
  | op c => "Op(".toList ++ Text.quotedChar c ++ [')']
  | eof => "Eof".toList

/-- Drop blanks and comments, counting lines; the flag tells whether a comment is open. -/
def skip : Bool → Nat → Text → Nat × Text
  | _, line, [] => (line, [])
  | comment, line, c :: rest =>
    if c = '\n' then skip false (line + 1) rest
    else if comment || c = '#' then skip true line rest
    else if Text.isBlank c then skip false line rest
    else (line, c :: rest)

/-- A character of a quoted literal: neither its quote nor the end of the line. -/
def isQuotedChar (quote c : Char) : Bool := c != quote && c != '\n'

/-- The token that starts with a character that is neither blank nor the start of a comment, and
the text after it. A quoted literal ends at its quote or in front of the end of the line. -/
def lex (c : Char) (rest : Text) : Token × Text :=
  if c = '"' ∨ c = '\x27' then
    (quoted (rest.takeWhile (isQuotedChar c)), Text.dropOne c (rest.dropWhile (isQuotedChar c)))
  else if isWordChar c then
    (word (c :: rest.takeWhile isWordChar), rest.dropWhile isWordChar)
  else (op c, rest)

/-- The character with the given number among those that are neither blank nor in a comment. -/
def significant? : Bool → Nat → Text → Option Char
  | _, _, [] => none
  | comment, n, c :: rest =>
    if c = '\n' then significant? false n rest
    else if comment || c = '#' then significant? true n rest
    else if Text.isBlank c then significant? false n rest
    else if n = 0 then some c
    else significant? false (n - 1) rest

/-- Nothing is longer after blanks and comments were dropped. -/
theorem length_skip_le (comment : Bool) (line : Nat) (t : Text) :
    (skip comment line t).2.length ≤ t.length := by
  induction t generalizing comment line with
  | nil => simp [skip]
  | cons c rest ih =>
    have hrest : ∀ b l, (skip b l rest).2.length ≤ (c :: rest).length := fun b l =>
      Nat.le_succ_of_le (ih b l)
    rw [skip]
    split
    · exact hrest _ _
    · split
      · exact hrest _ _
      · split
        · exact hrest _ _
        · exact Nat.le_refl _

/-- A token takes at least its first character. -/
theorem length_lex_le (c : Char) (rest : Text) : (lex c rest).2.length ≤ rest.length := by
  have hdrop : ∀ p, (rest.dropWhile p).length ≤ rest.length := fun p =>
    (List.dropWhile_sublist p).length_le
  unfold lex
  split
  · have hone : ∀ t : Text, (Text.dropOne c t).length ≤ t.length := by
      intro t
      cases t with
      | nil => simp [Text.dropOne, Text.strip?]
      | cons d t => by_cases hd : d = c <;> simp [Text.dropOne, Text.strip?, hd]
    exact Nat.le_trans (hone _) (hdrop _)
  · split
    · exact hdrop _
    · exact Nat.le_refl _

/-- What was dropped holds no significant character. -/
theorem significant?_skip (comment : Bool) (line n : Nat) (t : Text) :
    significant? false n (skip comment line t).2 = significant? comment n t := by
  induction t generalizing comment line with
  | nil => simp [skip, significant?]
  | cons c rest ih =>
    rw [skip, significant?]
    split
    · exact ih _ _
    · rename_i hnl
      split
      · exact ih _ _
      · rename_i hcomment
        split
        · exact ih _ _
        · rename_i hblank
          simp only [Bool.or_eq_true, decide_eq_true_eq, not_or] at hcomment
          simp [significant?, hnl, hcomment, hblank]

end Token

end PolynomialText
