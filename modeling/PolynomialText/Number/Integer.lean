import PolynomialText.Arithmetic
import PolynomialText.Literal

/-!
# Integers

An integer literal is a run of digits with an optional sign. Underscores between and after the
digits are skipped.
-/

namespace PolynomialText.Integer

/-- Digits with underscores that do not come first. -/
def readNatural (t : Text) : Except IntegerFault Nat :=
  let body := match t with
    | '+' :: '+' :: _ => t
    | '+' :: rest => rest
    | _ => t
  match body with
  | [] => .error .empty
  | '_' :: _ => .error .invalidDigit
  | _ =>
    let digits : Text := body.filter (· ≠ '_')
    if digits.allDigits then .ok digits.value else .error .invalidDigit

/-- A natural number with an optional sign; a minus sign takes no second sign after it. -/
def readInteger (t : Text) : Except IntegerFault Int :=
  match t with
  | '-' :: '+' :: _ => .error .invalidDigit
  | '-' :: rest => (readNatural rest).map fun n => -(n : Int)
  | _ => (readNatural t).map fun n => (n : Int)

/-- An integer literal; one leading plus sign is dropped before the integer is read. -/
def read (t : Text) : Except Refusal Int :=
  (readInteger (Text.dropOne '+' (Literal.normalise t))).mapError fun fault =>
    ⟨t, ['Z'], .integer fault⟩

/-- The ring of integers. -/
def arithmetic : Arithmetic Int where
  kind := .integer
  display := ['Z']
  descriptor := ['Z']
  characteristic := 0
  decEq := inferInstance
  zero := 0
  one := 1
  add := (· + ·)
  mul := (· * ·)
  neg := (- ·)
  format := Text.decimalInt
  read := read
  readWithin := Arithmetic.readAnywhere read
  inverse? := none

end PolynomialText.Integer
