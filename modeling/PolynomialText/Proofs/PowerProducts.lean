import Mathlib.Algebra.QuadraticAlgebra.Defs
import PolynomialText.Proofs.HypercomplexAlgebras
import PolynomialText.Proofs.Powers

/-!
# Powers as products

A power with exponent `n` is the product of `n` equal factors, although repeated squaring brackets
them in its own way. It suffices that the element and its powers follow an element of a monoid: then
every way to bracket the factors gives the same product. In an associative ring that monoid is the
ring itself. Octonions do not associate, but the rational combinations of one and a single octonion
are closed under products, and they multiply as in a quadratic extension of the rational numbers,
because every octonion is a root of a rational quadratic polynomial. So the powers of an octonion lie
in an algebra that is associative and commutative.
-/

namespace PolynomialText

variable {α : Type}

/-- The products of `n` factors that are all the same element, with any brackets. The empty product
is one, and further factors one do not count. -/
inductive Arithmetic.IsProduct (A : Arithmetic α) (a : α) : Nat → α → Prop
  | one : A.IsProduct a 0 A.one
  | self : A.IsProduct a 1 a
  | mul {m n : Nat} {x y : α} (left : A.IsProduct a m x) (right : A.IsProduct a n y) :
    A.IsProduct a (m + n) (A.mul x y)

/-- The powers of canonical elements are products of equal factors: those from left to right, and
those with any other brackets. Exponents add up in products. -/
structure Arithmetic.HasPowers (A : Arithmetic α) (C : α → Prop) : Prop where
  pow_eq_foldl : ∀ {a : α}, C a → ∀ n : UInt64,
    A.pow a n = (List.replicate n.toNat a).foldl A.mul A.one
  isProduct_iff : ∀ {a : α}, C a → ∀ (n : UInt64) (x : α), A.IsProduct a n.toNat x ↔ x = A.pow a n
  pow_add : ∀ {a : α}, C a → ∀ m n : UInt64, m.toNat + n.toNat < UInt64.size →
    A.pow a (m + n) = A.mul (A.pow a m) (A.pow a n)

/-- Factors that are multiplied from left to right. -/
theorem Arithmetic.isProduct_foldl (A : Arithmetic α) (a : α) (n : Nat) :
    A.IsProduct a n ((List.replicate n a).foldl A.mul A.one) := by
  induction n with
  | zero => exact .one
  | succ n ih =>
    rw [List.replicate_succ', List.foldl_append]
    exact ih.mul .self

/-! ### Powers that follow those of a monoid -/

/-- A map from a monoid that keeps products. -/
structure Arithmetic.Follows {M : Type} [Monoid M] (A : Arithmetic α) (φ : M → α) : Prop where
  map_one : φ 1 = A.one
  map_mul : ∀ g g' : M, A.mul (φ g) (φ g') = φ (g * g')

namespace Arithmetic.Follows

variable {M : Type} [Monoid M] {A : Arithmetic α} {φ : M → α} (h : A.Follows φ)
include h

/-- Repeated squaring computes the power of the monoid. -/
theorem pow_eq (g : M) (n : UInt64) : A.pow (φ g) n = φ (g ^ n.toNat) := by
  have hmul : ∀ {a b : α} {x y : M}, a = φ x → b = φ y → A.mul a b = φ (x * y) := by
    rintro _ _ x y rfl rfl
    exact h.map_mul x y
  have hpower := powerFrom_rel (R := fun a x => a = φ x) (g := (· * ·)) hmul 64
    (a := A.one) (x := 1) h.map_one.symm (b := φ g) (y := g) rfl n.toNat
  rw [powerFrom_eq_pow 64 1 g n.toNat_lt, one_mul] at hpower
  exact hpower

/-- Every product of equal factors is the power of the monoid, by induction on the brackets. -/
theorem eq_of_isProduct {g : M} {n : Nat} {x : α} (hx : A.IsProduct (φ g) n x) : x = φ (g ^ n) := by
  induction hx with
  | one => simp [h.map_one]
  | self => simp
  | mul _ _ ihx ihy => rw [ihx, ihy, h.map_mul, pow_add]

end Arithmetic.Follows

/-- Powers are products if every canonical element and its powers follow those of a monoid. -/
theorem Arithmetic.hasPowers_of_follows {A : Arithmetic α} {C : α → Prop}
    (h : ∀ {a : α}, C a → ∃ (M : Type) (_ : Monoid M) (φ : M → α) (g : M), φ g = a ∧ A.Follows φ) :
    A.HasPowers C where
  pow_eq_foldl ha n := by
    obtain ⟨M, _, φ, g, rfl, hφ⟩ := h ha
    rw [hφ.pow_eq, hφ.eq_of_isProduct (A.isProduct_foldl (φ g) n.toNat)]
  isProduct_iff ha n x := by
    obtain ⟨M, _, φ, g, rfl, hφ⟩ := h ha
    rw [hφ.pow_eq]
    refine ⟨hφ.eq_of_isProduct, ?_⟩
    rintro rfl
    have hfold := A.isProduct_foldl (φ g) n.toNat
    rwa [hφ.eq_of_isProduct hfold] at hfold
  pow_add ha m n hsum := by
    obtain ⟨M, _, φ, g, rfl, hφ⟩ := h ha
    rw [hφ.pow_eq, hφ.pow_eq, hφ.pow_eq, hφ.map_mul, ← pow_add, UInt64.toNat_add,
      Nat.mod_eq_of_lt hsum]

/-- In an associative ring with a unit the monoid is the ring. -/
theorem Arithmetic.RingLaws.hasPowers {A : Arithmetic α} {C : α → Prop} (h : A.RingLaws C) :
    A.HasPowers C :=
  Arithmetic.hasPowers_of_follows fun ha =>
    ⟨h.Carrier, inferInstance, Carrier.val, h.of ha, rfl, rfl, fun _ _ => rfl⟩

/-! ### Octonions -/

namespace Octonion

/-- Twice the real component. -/
def trace (x : Octonion) : Rat := 2 * x.left.re

/-- The quadratic extension of the rational numbers by a root of the polynomial with the trace and the
norm of an octonion as coefficients. -/
abbrev Quadratic (x : Octonion) : Type := QuadraticAlgebra ℚ (-x.norm) x.trace

/-- A rational combination of one and an octonion. -/
def combine (x : Octonion) (u : x.Quadratic) : Octonion := (ofRat u.re).add ((ofRat u.im).mul x)

theorem combine_one (x : Octonion) : x.combine 1 = ofRat 1 := by
  have hre : (1 : x.Quadratic).re = 1 := rfl
  have him : (1 : x.Quadratic).im = 0 := rfl
  apply eq_of_hamilton_eq <;> simp [combine, add, mul, ofRat, hre, him]

theorem combine_root (x : Octonion) : x.combine ⟨0, 1⟩ = x := by
  apply eq_of_hamilton_eq <;> simp [combine, add, mul, ofRat]

/-- Combinations multiply as in the quadratic extension. Both sides have rational components, so that
this is an identity of polynomials in the components of the octonion and the four coefficients. -/
theorem combine_mul (x : Octonion) (u v : x.Quadratic) :
    (x.combine u).mul (x.combine v) = x.combine (u * v) := by
  have hre : (u * v).re = u.re * v.re + -x.norm * u.im * v.im := QuadraticAlgebra.re_mul u v
  have him : (u * v).im = u.re * v.im + u.im * v.re + x.trace * u.im * v.im :=
    QuadraticAlgebra.im_mul u v
  simp only [combine, hre, him]
  generalize u.re = p, u.im = q, v.re = r, v.im = s
  obtain ⟨⟨a, b, c, d⟩, ⟨e, f, g, h⟩⟩ := x
  ext <;>
    simp [mul, add, ofRat, norm, trace, Quaternion.mul, Quaternion.add, Quaternion.neg,
      Quaternion.conj, Quaternion.ofRat, Quaternion.norm] <;>
    ring

/-- The combinations of one and a single octonion follow the quadratic extension. -/
theorem follows_combine (x : Octonion) : arithmetic.Follows x.combine where
  map_one := combine_one x
  map_mul := combine_mul x

theorem hasPowers : arithmetic.HasPowers AnyElement :=
  Arithmetic.hasPowers_of_follows fun {x} _ =>
    ⟨x.Quadratic, inferInstance, x.combine, ⟨0, 1⟩, combine_root x, follows_combine x⟩

end Octonion

/-- In every associative ring with a unit, powers with 64-bit exponents are products of equal factors
and exponents add up. So it is for rational numbers, integers, residues, complex numbers and
quaternions, and for polynomials over a ring, where powers of a variable have the exponent of the
power up to the largest one. The same holds for octonions, which do not associate. -/
theorem powers_are_products :
    (∀ {α : Type} {A : Arithmetic α} {C : α → Prop}, A.RingLaws C → A.HasPowers C) ∧
    (Rational.arithmetic.HasPowers AnyElement ∧ Integer.arithmetic.HasPowers AnyElement ∧
      (∀ m : WordModulus, m.arithmetic.HasPowers m.Reduced) ∧
      (∀ m : BigModulus, m.arithmetic.HasPowers m.Reduced) ∧
      Gaussian.arithmetic.HasPowers AnyElement ∧ Quaternion.arithmetic.HasPowers AnyElement) ∧
    (∀ {α : Type} (R : PolyRing α) {C : α → Prop}, R.coefficients.RingLaws C →
      R.arithmetic.HasPowers (R.CanonicalPoly C) ∧
      ∀ (i : Fin R.nvars) (n : UInt64), R.arithmetic.pow (R.univariate i 1) n = R.univariate i n) ∧
    Octonion.arithmetic.HasPowers AnyElement := by
  refine ⟨fun h => h.hasPowers, ⟨Rational.ringLaws.hasPowers, Integer.ringLaws.hasPowers,
    fun m => m.represents.ringLaws.hasPowers, fun m => m.represents.ringLaws.hasPowers,
    Gaussian.ringLaws.hasPowers, Quaternion.ringLaws.hasPowers⟩, fun R C h => ⟨?_, ?_⟩,
    Octonion.hasPowers⟩
  · exact (PolyRing.ringLaws h).hasPowers
  · exact fun i n => PolyRing.pow_univariate h i n

/-- Modulo six, powers of a polynomial with the largest exponent of `x` add up, and so do those of an
octonion with all eight components, in whatever way its five factors are bracketed. -/
theorem powers_of_clamped_polynomial_and_octonion :
    let m : WordModulus := ⟨6, by decide⟩
    let R : PolyRing UInt64 := ⟨m.arithmetic, [['x'], ['y']], {}⟩
    let p : Poly UInt64 := ⟨[([0, 1], 5), ([maxExponent, 0], 2)]⟩
    let x : Octonion := ⟨⟨1, 2, 3, 4⟩, ⟨5, 6, 7, 8⟩⟩
    let mul := Octonion.arithmetic.mul
    m.arithmetic.RingLaws m.Reduced ∧ R.CanonicalPoly m.Reduced p ∧
      (2 : UInt64).toNat + (3 : UInt64).toNat < UInt64.size ∧
      R.arithmetic.pow p (2 + 3) = R.arithmetic.mul (R.arithmetic.pow p 2) (R.arithmetic.pow p 3) ∧
      R.arithmetic.pow (R.univariate 1 1) maxExponent = R.univariate 1 maxExponent ∧
      mul x (mul (mul x x) (mul x x)) = Octonion.arithmetic.pow x 5 := by
  intro m R p x mul
  have hlaws : m.arithmetic.RingLaws m.Reduced := m.represents.ringLaws
  have hp : R.CanonicalPoly m.Reduced p := ⟨⟨by decide, by decide, by decide⟩, by decide⟩
  have hsum : (2 : UInt64).toNat + (3 : UInt64).toNat < UInt64.size := by decide
  obtain ⟨-, -, hpolynomials, hoctonions⟩ := powers_are_products
  obtain ⟨hpowers, hvariables⟩ := hpolynomials R hlaws
  have hsquare : Octonion.arithmetic.IsProduct x 2 (mul x x) := .mul .self .self
  have hfive : Octonion.arithmetic.IsProduct x 5 (mul x (mul (mul x x) (mul x x))) :=
    .mul .self (hsquare.mul hsquare)
  exact ⟨hlaws, hp, hsum, hpowers.pow_add hp 2 3 hsum, hvariables ⟨1, by decide⟩ maxExponent,
    (hoctonions.isProduct_iff trivial 5 _).1 hfive⟩

end PolynomialText
