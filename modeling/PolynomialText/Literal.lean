import PolynomialText.Text.White

/-!
# Literals of numbers

In a literal of a number white space does not count, and a tilde is a minus sign.
-/

namespace PolynomialText.Literal

/-- A literal without white space and with every tilde read as a minus sign. -/
def normalise (t : Text) : Text :=
  (t.filter (!Text.isWhite ·)).map fun c => if c = '~' then '-' else c

/-- The sign in front of a text, negative or not, and the text after it. -/
def signed : Text → Bool × Text
  | '-' :: rest => (true, rest)
  | '+' :: rest => (false, rest)
  | t => (false, t)

/-- A text cut at separators that have to come in order: the part in front of the first one, then
a part for each separator, empty where the separator is missing. -/
def components : List Char → Text → List Text
  | [], t => [t]
  | separator :: rest, t =>
    match Text.splitOnce? separator t with
    | some (before, after) => before :: components rest after
    | none =>
      match components rest t with
      | current :: others => current :: [] :: others
      | [] => []

/-- Normal literals stay as they are. -/
theorem normalise_normalise (t : Text) : normalise (normalise t) = normalise t := by
  induction t with
  | nil => rfl
  | cons c rest ih =>
    by_cases hw : Text.isWhite c = true
    · simpa [normalise, hw] using ih
    · have hc : Text.isWhite c = false := by simpa using hw
      by_cases ht : c = '~'
      · subst c
        have hminus : Text.isWhite '-' = false := by decide
        simpa [normalise, hc, hminus] using ih
      · simpa [normalise, hc, ht] using ih

/-- There is one part more than there are separators. -/
theorem length_components (separators : List Char) (t : Text) :
    (components separators t).length = separators.length + 1 := by
  induction separators generalizing t with
  | nil => rfl
  | cons separator rest ih =>
    rw [components]
    split
    · simp [ih]
    · have hlength := ih t
      cases hparts : components rest t with
      | nil => simp [hparts] at hlength
      | cons current others => simpa [hparts] using hlength

end PolynomialText.Literal
