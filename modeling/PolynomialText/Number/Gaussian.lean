import PolynomialText.Number.Components

/-!
# Complex numbers with rational components

The literal `3i4` is three plus four times the imaginary unit.
-/

namespace PolynomialText

/-- A complex number with rational components. -/
@[ext]
structure Gaussian where
  re : Rat
  im : Rat
  deriving DecidableEq

namespace Gaussian

/-- The sum, component by component. -/
def add (a b : Gaussian) : Gaussian := ⟨a.re + b.re, a.im + b.im⟩

/-- The negative, component by component. -/
def neg (a : Gaussian) : Gaussian := ⟨-a.re, -a.im⟩

/-- The product with the square of the imaginary unit minus one. -/
def mul (a b : Gaussian) : Gaussian :=
  ⟨a.re * b.re - a.im * b.im, a.re * b.im + a.im * b.re⟩

/-- Two components with an `i` between them. -/
def read (t : Text) : Except Refusal Gaussian :=
  (Components.read ['C'] ['i'] t).map fun parts => ⟨parts.getD 0 0, parts.getD 1 0⟩

/-- The literal of a complex number. -/
def format (a : Gaussian) : Text := Components.format ['i'] a.re [a.im]

/-- The ring of complex numbers with rational components. -/
def arithmetic : Arithmetic Gaussian where
  kind := .complex
  display := ['C']
  descriptor := ['C']
  characteristic := 0
  decEq := inferInstance
  zero := ⟨0, 0⟩
  one := ⟨1, 0⟩
  add := add
  mul := mul
  neg := neg
  format := format
  read := read
  readWithin := Arithmetic.readAnywhere read
  inverse? := none

end Gaussian

end PolynomialText
