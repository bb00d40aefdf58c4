import PolynomialText.Expression

/-!
# Polynomials as coefficients

A polynomial ring is itself a ring of coefficients. Its literals are expressions; inside another
expression they continue the nesting that is open around them.
-/

namespace PolynomialText.PolyRing

variable {α : Type} (R : PolyRing α)

/-- A text of its own as a polynomial. -/
def read (t : Text) : Except Refusal (Poly α) :=
  (Reader.polynomialOf R {} 0 t).mapError fun e => ⟨t, R.descriptor, .expression e⟩

/-- A literal in an expression as a polynomial. -/
def readWithin (limits : Limits) (depth : Nat) (t : Text) : Except LiteralFault (Poly α) :=
  (Reader.polynomialOf R limits depth t).mapError .expression

/-- The ring of polynomials as coefficients of other polynomials. -/
def arithmetic : Arithmetic (Poly α) where
  kind := .functionCoefficient
  display := R.header
  descriptor := R.descriptor
  characteristic := 0
  decEq := @instDecidableEqPoly α R.coefficients.decEq
  zero := .zero
  one := R.one
  add := Poly.add R.coefficients
  mul := Poly.mul R.coefficients
  neg := Poly.neg R.coefficients
  format := R.format
  read := R.read
  readWithin := R.readWithin
  inverse? := none

end PolynomialText.PolyRing
