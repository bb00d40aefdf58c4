import PolynomialText.Arithmetic
import PolynomialText.Literal

/-!
# Rational numbers

A rational literal is a decimal numeral or a quotient of two, each with an optional sign. Rationals
are written in lowest terms, and integers without a denominator.
-/

namespace PolynomialText.Rational

/-- A signed decimal numeral: digits with at most one point, and at least one digit. -/
def readDecimal (t : Text) : Except LiteralFault Rat :=
  let (negative, body) := Literal.signed t
  let (whole, fraction) := (Text.splitOnce? '.' body).getD (body, [])
  if whole = [] ∧ fraction = [] then .error (.noDigits t)
  else if !Text.allDigits (whole ++ fraction) then .error (.notDecimal t)
  else
    let size : Rat := mkRat (Text.value (whole ++ fraction)) (Nat.pow 10 fraction.length)
    .ok (if negative then -size else size)

/-- A decimal numeral, or a quotient of two. -/
def readRational (t : Text) : Except LiteralFault Rat :=
  let s := Literal.normalise t
  if s = [] then .error .empty
  else
    match Text.splitOnce? '/' s with
    | none => readDecimal s
    | some (upper, lower) => do
      let numerator ← readDecimal upper
      let denominator ← readDecimal lower
      if denominator = 0 then .error .zeroDenominator else .ok (numerator / denominator)

/-- Lowest terms, without a denominator one. -/
def format (r : Rat) : Text :=
  if r.den = 1 then Text.decimalInt r.num else Text.decimalInt r.num ++ '/' :: Text.decimal r.den

/-- A rational literal, refused in the name of the ring. -/
def read (t : Text) : Except Refusal Rat :=
  (readRational t).mapError fun fault => ⟨t, ['Q'], fault⟩

/-- The inverse of every rational but zero. -/
def inverse (r : Rat) : Except RingFault Rat :=
  if r = 0 then .error (.notInvertible (format r)) else .ok r⁻¹

/-- The field of rational numbers. -/
def arithmetic : Arithmetic Rat where
  kind := .rational
  display := ['Q']
  descriptor := ['Q']
  characteristic := 0
  decEq := inferInstance
  zero := 0
  one := 1
  add := (· + ·)
  mul := (· * ·)
  neg := (- ·)
  format := format
  read := read
  readWithin := Arithmetic.readAnywhere read
  inverse? := some inverse

end PolynomialText.Rational
