import PolynomialText.Text.Alphabetic
import PolynomialText.Text.White

/-!
# Variable names in plain texts

Two helpers that find variable names without scanning: the names of a list such as `(a, b c)`, and
the identifiers that an expression uses, in ascending order without repeats.
-/

namespace PolynomialText.Names

/-- The maximal runs of characters that are no separators. -/
def pieces (isSeparator : Char → Bool) (t : Text) : List Text :=
  (t.splitOnP isSeparator).filter (· ≠ [])

/-- A text without the white space at both ends. -/
def trim (t : Text) : Text :=
  ((t.dropWhile Text.isWhite).reverse.dropWhile Text.isWhite).reverse

/-- A text without one last occurrence of the character. -/
def dropLastOne (c : Char) (t : Text) : Text := (Text.dropOne c t.reverse).reverse

/-- The names in a list; the parentheses around it may be missing. -/
def ofList (t : Text) : List Text :=
  pieces (fun c => c = ',' || Text.isWhite c) (dropLastOne ')' (Text.dropOne '(' (trim t)))

/-- Characters that end a word of an expression. -/
def isDelimiter (c : Char) : Bool :=
  Text.isWhite c || ",+-*/()\x7b\x7d[]^".toList.contains c

/-- The name at the end of a word: leading digits are dropped, and a letter has to follow. -/
def ofWord? (word : Text) : Option Text :=
  match word.dropWhile Char.isDigit with
  | [] => none
  | c :: rest => if Text.isAlphabetic c then some (c :: rest) else none

/-- Add a name to an ascending list, unless it is there. -/
def insert (name : Text) : List Text → List Text
  | [] => [name]
  | other :: rest =>
    match compare name other with
    | .lt => name :: other :: rest
    | .eq => other :: rest
    | .gt => other :: insert name rest

/-- The identifiers used in an expression, ascending and without repeats. -/
def ofExpression (t : Text) : List Text :=
  ((pieces isDelimiter t).filterMap ofWord?).foldr insert []

end PolynomialText.Names
