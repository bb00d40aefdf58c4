import PolynomialText.Number.Components

/-!
# Quaternions with rational components

The literal `1i2j3k4` lists the real component and those of `i`, `j` and `k`. The product is the
one of Hamilton, which does not commute.
-/

namespace PolynomialText

/-- A quaternion with rational components. -/
@[ext]
structure Quaternion where
  re : Rat
  i : Rat
  j : Rat
  k : Rat
  deriving DecidableEq

namespace Quaternion

/-- A rational number as a quaternion. -/
def ofRat (r : Rat) : Quaternion := ⟨r, 0, 0, 0⟩

/-- The sum, component by component. -/
def add (a b : Quaternion) : Quaternion := ⟨a.re + b.re, a.i + b.i, a.j + b.j, a.k + b.k⟩

/-- The negative, component by component. -/
def neg (a : Quaternion) : Quaternion := ⟨-a.re, -a.i, -a.j, -a.k⟩

/-- The conjugate keeps the real component only. -/
def conj (a : Quaternion) : Quaternion := ⟨a.re, -a.i, -a.j, -a.k⟩

/-- The product of Hamilton. -/
def mul (a b : Quaternion) : Quaternion where
  re := a.re * b.re - a.i * b.i - a.j * b.j - a.k * b.k
  i := a.re * b.i + a.i * b.re + a.j * b.k - a.k * b.j
  j := a.re * b.j - a.i * b.k + a.j * b.re + a.k * b.i
  k := a.re * b.k + a.i * b.j - a.j * b.i + a.k * b.re

/-- Four components with `i`, `j` and `k` between them, refused in the name of a ring. -/
def readFor (ring : Text) (t : Text) : Except Refusal Quaternion :=
  (Components.read ring ['i', 'j', 'k'] t).map fun parts =>
    ⟨parts.getD 0 0, parts.getD 1 0, parts.getD 2 0, parts.getD 3 0⟩

/-- A quaternion literal. -/
def read (t : Text) : Except Refusal Quaternion := readFor "Quat".toList t

/-- The literal of a quaternion. -/
def format (a : Quaternion) : Text := Components.format ['i', 'j', 'k'] a.re [a.i, a.j, a.k]

/-- The ring of quaternions with rational components. -/
def arithmetic : Arithmetic Quaternion where
  kind := .quaternion
  display := "Quat".toList
  descriptor := "Quat".toList
  characteristic := 0
  decEq := inferInstance
  zero := ofRat 0
  one := ofRat 1
  add := add
  mul := mul
  neg := neg
  format := format
  read := read
  readWithin := Arithmetic.readAnywhere read
  inverse? := none

end Quaternion

end PolynomialText
