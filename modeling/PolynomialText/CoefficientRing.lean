import PolynomialText.Extension
import PolynomialText.Number.FixedDecimal
import PolynomialText.Number.Gaussian
import PolynomialText.Number.Integer
import PolynomialText.Number.Octonion
import PolynomialText.Number.Residue

/-!
# Coefficient rings

The rings that a descriptor can select. Each has a type of elements and an arithmetic on them.
-/

namespace PolynomialText

/-- A ring that a descriptor can select. -/
inductive CoefficientRing where
  | rational
  | integer
  /-- Residues in machine words. -/
  | word (m : WordModulus)
  /-- Residues of any size. -/
  | big (m : BigModulus)
  | complex
  | quaternion
  | octonion
  | decimal
  /-- Polynomials with rational coefficients. -/
  | function (vars : List Text)
  /-- An extension of the rationals. -/
  | algebraicRational (E : Extension Rat)
  /-- An extension of a ring of residues. -/
  | algebraicModular (m : BigModulus) (E : Extension Int)
  deriving DecidableEq

namespace CoefficientRing

/-- The type of the elements. -/
def Elem : CoefficientRing → Type
  | rational => Rat
  | integer => Int
  | word _ => UInt64
  | big _ => Int
  | complex => Gaussian
  | quaternion => Quaternion
  | octonion => Octonion
  | decimal => FixedDecimal
  | function _ => Poly Rat
  | algebraicRational _ => Poly Rat
  | algebraicModular _ _ => Poly Int

/-- The polynomials that are function coefficients, compared from the last variable on. -/
def functionRing (vars : List Text) : PolyRing Rat :=
  ⟨Rational.arithmetic, vars, { kind := .invLex }⟩

/-- The arithmetic of the elements. -/
def arithmetic : (r : CoefficientRing) → Arithmetic r.Elem
  | rational => Rational.arithmetic
  | integer => Integer.arithmetic
  | word m => m.arithmetic
  | big m => m.arithmetic
  | complex => Gaussian.arithmetic
  | quaternion => Quaternion.arithmetic
  | octonion => Octonion.arithmetic
  | decimal => FixedDecimal.arithmetic
  | function vars => (functionRing vars).arithmetic
  | algebraicRational E => E.arithmetic Rational.arithmetic
  | algebraicModular m E => E.arithmetic m.arithmetic

/-- The kind of a ring. -/
def kind (r : CoefficientRing) : CoefficientKind := r.arithmetic.kind

/-- The descriptor that selects the ring. -/
def display (r : CoefficientRing) : Text := r.arithmetic.descriptor

instance (r : CoefficientRing) : DecidableEq r.Elem := r.arithmetic.decEq

end CoefficientRing

end PolynomialText
