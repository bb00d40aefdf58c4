import PolynomialText.Error
import PolynomialText.Limits

/-!
# Arithmetic of a coefficient ring

A coefficient ring is given by its operations as plain data: neutral elements, sums, products,
negatives, and the reading and writing of literals. A modulus or a defining polynomial is part of
the operations, not of the elements. No law is assumed here: products need not commute, and those
of octonions do not associate.
-/

namespace PolynomialText

/-- The kinds of coefficient rings. -/
inductive CoefficientKind where
  | rational
  | integer
  | modularInteger
  | complex
  | quaternion
  | octonion
  | decimal
  | functionCoefficient
  | algebraicExtension
  deriving DecidableEq

/-- The name of a kind in records. -/
def CoefficientKind.name : CoefficientKind → String
  | rational => "Rational"
  | integer => "Integer"
  | modularInteger => "ModularInteger"
  | complex => "Complex"
  | quaternion => "Quaternion"
  | octonion => "Octonion"
  | decimal => "Decimal"
  | functionCoefficient => "FunctionCoefficient"
  | algebraicExtension => "AlgebraicExtension"

/-- Literals of complex numbers, quaternions and octonions may be cut at a sign. -/
def CoefficientKind.isHypercomplex : CoefficientKind → Bool
  | complex | quaternion | octonion => true
  | _ => false

/-- Repeated squaring: the result so far times a power of the base, with at most `fuel` binary
digits of the exponent to go. -/
def powerFrom {α : Type} (mul : α → α → α) (result base : α) : (fuel exponent : Nat) → α
  | 0, _ => result
  | fuel + 1, exponent =>
    if exponent = 0 then result
    else
      let result' := if exponent % 2 = 1 then mul result base else result
      if exponent / 2 = 0 then result'
      else powerFrom mul result' (mul base base) fuel (exponent / 2)

/-- A power with a 64-bit exponent, by repeated squaring from the last binary digit on. -/
def power {α : Type} (mul : α → α → α) (one base : α) (exponent : UInt64) : α :=
  powerFrom mul one base 64 exponent.toNat

/-- The operations of a ring with elements of a type. -/
structure Arithmetic (α : Type) where
  kind : CoefficientKind
  /-- How the ring is written. -/
  display : Text
  /-- How the ring is written in front of a variable list. -/
  descriptor : Text
  /-- The modulus of a modular ring, and zero otherwise. -/
  characteristic : Nat
  decEq : DecidableEq α
  zero : α
  one : α
  add : α → α → α
  mul : α → α → α
  neg : α → α
  /-- The literal of an element. -/
  format : α → Text
  /-- The element with a literal. -/
  read : Text → Except Refusal α
  /-- The element with a literal that stands in an expression: literals that are expressions of
  their own keep to the limits and start at the given depth. -/
  readWithin : Limits → Nat → Text → Except LiteralFault α
  /-- Inverses, in a field. -/
  inverse? : Option (α → Except RingFault α)

namespace Arithmetic

variable {α : Type} (A : Arithmetic α)

/-- Equality of elements, decided. -/
def beq (a b : α) : Bool := @decide (a = b) (A.decEq a b)

/-- The element is zero. -/
def isZero (a : α) : Bool := A.beq a A.zero

/-- The element is one. -/
def isOne (a : α) : Bool := A.beq a A.one

/-- The difference of two elements. -/
def sub (a b : α) : α := A.add a (A.neg b)

/-- A power with a 64-bit exponent; the power zero is one. -/
def pow (a : α) (exponent : UInt64) : α := power A.mul A.one a exponent

/-- Inside an expression, a ring of numbers reads a literal as everywhere else. -/
def readAnywhere (read : Text → Except Refusal α) (_ : Limits) (_ : Nat) (t : Text) :
    Except LiteralFault α :=
  (read t).mapError Refusal.reason

/-- Decided equality is equality. -/
theorem beq_eq_true_iff {a b : α} : A.beq a b = true ↔ a = b := by
  simp [beq]

/-- The test for zero is exact. -/
theorem isZero_eq_true_iff {a : α} : A.isZero a = true ↔ a = A.zero := A.beq_eq_true_iff

/-- The test for one is exact. -/
theorem isOne_eq_true_iff {a : α} : A.isOne a = true ↔ a = A.one := A.beq_eq_true_iff

/-- The power zero is one. -/
theorem pow_zero (a : α) : A.pow a 0 = A.one := by
  simp [pow, power, powerFrom]

end Arithmetic

end PolynomialText
