import PolynomialText.Number.Quaternion

/-!
# Octonions with rational components

An octonion is a pair of quaternions, written with an `o` between them, under the doubled product
`(a, b)(c, d) = (ac - d*b, da + bc*)`, where the star marks a conjugate. It does not associate.
-/

namespace PolynomialText

/-- An octonion as a pair of quaternions. -/
@[ext]
structure Octonion where
  left : Quaternion
  right : Quaternion
  deriving DecidableEq

namespace Octonion

/-- A rational number as an octonion. -/
def ofRat (r : Rat) : Octonion := ⟨.ofRat r, .ofRat 0⟩

/-- The sum, half by half. -/
def add (x y : Octonion) : Octonion := ⟨x.left.add y.left, x.right.add y.right⟩

/-- The negative, half by half. -/
def neg (x : Octonion) : Octonion := ⟨x.left.neg, x.right.neg⟩

/-- The doubled product. -/
def mul (x y : Octonion) : Octonion where
  left := (x.left.mul y.left).add (y.right.conj.mul x.right).neg
  right := (y.right.mul x.left).add (x.right.mul y.left.conj)

/-- How the ring of octonions is written. -/
def display : Text := "Oct".toList

/-- One half of a literal; an empty one is zero. -/
def readHalf (part : Text) : Except Refusal Quaternion :=
  if part = [] then .ok (.ofRat 0) else Quaternion.readFor display part

/-- Two quaternion literals with an `o` between them, not both empty. -/
def read (t : Text) : Except Refusal Octonion :=
  let s := Literal.normalise t
  let (leftPart, rightPart) := (Text.splitOnce? 'o' s).getD (s, [])
  if leftPart = [] ∧ rightPart = [] then .error ⟨t, display, .noComponents⟩
  else do
    let left ← readHalf leftPart
    let right ← readHalf rightPart
    return ⟨left, right⟩

/-- The literal of an octonion; a right half that is zero is not written. -/
def format (x : Octonion) : Text :=
  x.left.format ++ if x.right = .ofRat 0 then [] else 'o' :: x.right.format

/-- The octonions with rational components. -/
def arithmetic : Arithmetic Octonion where
  kind := .octonion
  display := display
  descriptor := display
  characteristic := 0
  decEq := inferInstance
  zero := ofRat 0
  one := ofRat 1
  add := add
  mul := mul
  neg := neg
  format := format
  read := read
  readWithin := Arithmetic.readAnywhere read
  inverse? := none

end Octonion

end PolynomialText
