import PolynomialText.Proofs.NumberLiterals
import PolynomialText.Proofs.PolyLaws

/-!
# The coefficient rings

The canonical elements of every ring that a descriptor can select: reduced residues, polynomials
whose coefficients are canonical, and in an extension those of a degree below that of the defining
polynomial. The rings of numbers whose products associate read runs of digits as sums of ones and
read canonical elements only.
-/

namespace PolynomialText

/-- A polynomial of a degree below that of the defining polynomial. -/
def Extension.Low {α : Type} (E : Extension α) (p : Poly α) : Prop :=
  ∀ top lead, p.top? = some (top, lead) → top < E.degree

/-- The residues of an extension: canonical polynomials of small degree. -/
structure Extension.IsResidue {α : Type} (A : Arithmetic α) (C : α → Prop) (E : Extension α)
    (p : Poly α) : Prop where
  canonical : (E.ring A).CanonicalPoly C p
  low : E.Low p

namespace CoefficientRing

/-- The canonical elements of a ring. -/
def Canonical : (r : CoefficientRing) → r.Elem → Prop
  | rational => AnyElement
  | integer => AnyElement
  | word m => m.Reduced
  | big m => m.Reduced
  | complex => AnyElement
  | quaternion => AnyElement
  | octonion => AnyElement
  | decimal => AnyElement
  | function vars => (functionRing vars).CanonicalPoly AnyElement
  | algebraicRational E => E.IsResidue Rational.arithmetic AnyElement
  | algebraicModular m E => E.IsResidue m.arithmetic m.Reduced

/-- A ring of exact numbers whose products associate. -/
def IsNumbers : CoefficientRing → Prop
  | rational | integer | word _ | big _ | complex | quaternion => True
  | _ => False

end CoefficientRing

/-- A sum of ones is the rational number. -/
theorem Rational.natural_eq (n : Nat) : Rational.arithmetic.natural n = (n : Rat) := by
  induction n with
  | zero => rfl
  | succ n ih =>
    rw [Arithmetic.natural, ih, Nat.cast_succ]
    rfl

/-- A sum of ones is the integer. -/
theorem Integer.natural_eq (n : Nat) : Integer.arithmetic.natural n = (n : Int) := by
  induction n with
  | zero => rfl
  | succ n ih =>
    rw [Arithmetic.natural, ih, Nat.cast_succ]
    rfl

/-- A sum of ones is the real number. -/
theorem Gaussian.natural_eq (n : Nat) : Gaussian.arithmetic.natural n = ⟨n, 0⟩ := by
  induction n with
  | zero => rfl
  | succ n ih =>
    rw [Arithmetic.natural, ih]
    simp [arithmetic, add]

/-- A sum of ones is the real number. -/
theorem Quaternion.natural_eq (n : Nat) : Quaternion.arithmetic.natural n = ⟨n, 0, 0, 0⟩ := by
  induction n with
  | zero => rfl
  | succ n ih =>
    rw [Arithmetic.natural, ih]
    simp [arithmetic, add, ofRat]

/-- A sum of ones is the residue of the number. -/
theorem WordModulus.toNat_natural (m : WordModulus) (n : Nat) :
    (m.arithmetic.natural n).toNat = n % m.value.toNat := by
  induction n with
  | zero => exact (Nat.zero_mod _).symm
  | succ n ih =>
    change (m.add (m.arithmetic.natural n) 1).toNat = _
    rw [m.toNat_add, ih]
    simp

/-- A sum of ones is the residue of the number. -/
theorem BigModulus.natural_eq (m : BigModulus) (n : Nat) :
    m.arithmetic.natural n = (n : Int) % m.value := by
  induction n with
  | zero => exact (Int.zero_emod _).symm
  | succ n ih =>
    change (m.arithmetic.natural n + 1) % (m.value : Int) = _
    rw [ih, Int.emod_add_emod, Nat.cast_succ]

/-- The rationals are a ring of numbers. -/
theorem Rational.numberRing : Rational.arithmetic.NumberRing AnyElement where
  laws := ringLaws
  readWithin_eq _ _ _ := rfl
  read_mem _ := trivial
  read_digits {t} hne ht := by
    change read t = _
    rw [read, readRational_digits hne ht, natural_eq]
    rfl

/-- The integers are a ring of numbers. -/
theorem Integer.numberRing : Integer.arithmetic.NumberRing AnyElement where
  laws := ringLaws
  readWithin_eq _ _ _ := rfl
  read_mem _ := trivial
  read_digits {t} hne ht := by
    rw [natural_eq]
    exact read_digits hne ht

/-- The complex numbers are a ring of numbers. -/
theorem Gaussian.numberRing : Gaussian.arithmetic.NumberRing AnyElement where
  laws := ringLaws
  readWithin_eq _ _ _ := rfl
  read_mem _ := trivial
  read_digits {t} hne ht := by
    rw [natural_eq]
    exact read_digits hne ht

/-- The quaternions are a ring of numbers. -/
theorem Quaternion.numberRing : Quaternion.arithmetic.NumberRing AnyElement where
  laws := ringLaws
  readWithin_eq _ _ _ := rfl
  read_mem _ := trivial
  read_digits {t} hne ht := by
    rw [natural_eq]
    exact readFor_digits _ hne ht

/-- Residues in machine words that are read are reduced. -/
theorem WordModulus.reduced_of_read_eq_ok (m : WordModulus) {t : Text} {a : UInt64}
    (h : m.read t = .ok a) : m.Reduced a := by
  unfold read at h
  cases hread : Residue.read m.value.toNat t with
  | error refusal =>
    rw [hread] at h
    contradiction
  | ok n =>
    rw [hread] at h
    have hlt := Residue.lt_of_read_eq_ok m.two_le hread
    obtain rfl : UInt64.ofNat n = a := Except.ok.inj h
    rw [Reduced, UInt64.toNat_ofNat_of_lt' (Nat.lt_trans hlt m.value.toNat_lt)]
    exact hlt

/-- Residues as integers that are read are reduced. -/
theorem BigModulus.reduced_of_read_eq_ok (m : BigModulus) {t : Text} {a : Int}
    (h : m.read t = .ok a) : m.Reduced a := by
  unfold read at h
  cases hread : Residue.read m.value t with
  | error refusal =>
    rw [hread] at h
    contradiction
  | ok n =>
    rw [hread] at h
    have hlt := Residue.lt_of_read_eq_ok m.two_le hread
    obtain rfl : (n : Int) = a := Except.ok.inj h
    exact ⟨Int.natCast_nonneg n, Int.ofNat_lt.2 hlt⟩

/-- Residues in machine words are a ring of numbers. -/
theorem WordModulus.numberRing (m : WordModulus) : m.arithmetic.NumberRing m.Reduced where
  laws := m.represents.ringLaws
  readWithin_eq _ _ _ := rfl
  read_mem h := m.reduced_of_read_eq_ok h
  read_digits {t} hne ht := by
    change m.read t = _
    have hvalue : UInt64.ofNat (t.value % m.value.toNat) = m.arithmetic.natural t.value := by
      apply UInt64.toNat.inj
      have hlt := Nat.mod_lt t.value m.pos
      rw [m.toNat_natural, UInt64.toNat_ofNat_of_lt' (Nat.lt_trans hlt m.value.toNat_lt)]
    rw [read, Residue.read_digits m.two_le hne ht, ← hvalue]
    rfl

/-- Residues as integers are a ring of numbers. -/
theorem BigModulus.numberRing (m : BigModulus) : m.arithmetic.NumberRing m.Reduced where
  laws := m.represents.ringLaws
  readWithin_eq _ _ _ := rfl
  read_mem h := m.reduced_of_read_eq_ok h
  read_digits {t} hne ht := by
    change m.read t = _
    rw [read, Residue.read_digits m.two_le hne ht, m.natural_eq]
    exact congrArg Except.ok (Int.natCast_emod _ _)

/-- The rings of exact numbers whose products associate are rings of numbers. -/
theorem CoefficientRing.numberRing {r : CoefficientRing} (hr : r.IsNumbers) :
    r.arithmetic.NumberRing r.Canonical := by
  cases r with
  | rational => exact Rational.numberRing
  | integer => exact Integer.numberRing
  | word m => exact m.numberRing
  | big m => exact m.numberRing
  | complex => exact Gaussian.numberRing
  | quaternion => exact Quaternion.numberRing
  | octonion => exact hr.elim
  | decimal => exact hr.elim
  | function vars => exact hr.elim
  | algebraicRational E => exact hr.elim
  | algebraicModular m E => exact hr.elim

end PolynomialText
