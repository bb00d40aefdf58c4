import Mathlib.Algebra.Quaternion
import Mathlib.Tactic.NoncommRing
import PolynomialText.Proofs.NumberLaws

/-!
# The algebras of quaternions and octonions

Quaternions stand for the Hamilton quaternions over the rational numbers, whose norm is multiplicative
because a quaternion times its conjugate is a rational number. Octonions are pairs of them under a
product that does not associate. Norms and traces of quaternions are rational and commute with
everything, which leaves enough of associativity: the product of two octonions can be bracketed in any
way if one of them stands twice. The norm is multiplicative here too, since the products of the halves
that it mixes have the same real component. Sums of squares vanish only at zero, so neither algebra
has zero divisors.
-/

section

-- The notation is that of Hamilton's quaternions over a ring, not of the quaternions below.
open scoped Quaternion

namespace PolynomialText

/-- A bilinear product with a unit and a norm that it multiplies, over the rational numbers. -/
structure Arithmetic.IsComposition {α : Type} (A : Arithmetic α) (ofRat : Rat → α) (norm : α → Rat) :
    Prop where
  mul_add : ∀ x y z, A.mul x (A.add y z) = A.add (A.mul x y) (A.mul x z)
  add_mul : ∀ x y z, A.mul (A.add x y) z = A.add (A.mul x z) (A.mul y z)
  scale_mul : ∀ r x y, A.mul (A.mul (ofRat r) x) y = A.mul (ofRat r) (A.mul x y)
  mul_scale : ∀ r x y, A.mul x (A.mul (ofRat r) y) = A.mul (ofRat r) (A.mul x y)
  one_mul : ∀ x, A.mul A.one x = x
  mul_one : ∀ x, A.mul x A.one = x
  norm_mul : ∀ x y, norm (A.mul x y) = norm x * norm y
  norm_eq_zero_iff : ∀ x, norm x = 0 ↔ x = A.zero

/-- A norm that is zero only at zero and is multiplied by products rules out zero divisors. -/
theorem Arithmetic.IsComposition.hasNoZeroDivisors {α : Type} {A : Arithmetic α} {ofRat : Rat → α}
    {norm : α → Rat} (h : A.IsComposition ofRat norm) : A.HasNoZeroDivisors AnyElement := by
  intro a b _ _ hzero
  rw [← h.norm_eq_zero_iff, h.norm_mul, mul_eq_zero, h.norm_eq_zero_iff, h.norm_eq_zero_iff] at hzero
  exact hzero

/-! ### Complex numbers -/

namespace Gaussian

/-- The sum of the squares of the components. -/
def norm (x : Gaussian) : Rat := x.re * x.re + x.im * x.im

theorem isComposition : arithmetic.IsComposition (fun r => ⟨r, 0⟩) norm where
  mul_add _ _ _ := ringLaws.mul_add trivial trivial trivial
  add_mul _ _ _ := ringLaws.add_mul trivial trivial trivial
  scale_mul _ _ _ := ringLaws.mul_assoc trivial trivial trivial
  mul_scale _ _ _ := by
    ext <;> simp [arithmetic, mul] <;> ring
  one_mul _ := ringLaws.one_mul trivial
  mul_one _ := ringLaws.mul_one trivial
  norm_mul _ _ := by
    simp only [arithmetic, mul, norm]
    ring
  norm_eq_zero_iff _ := by
    rw [Gaussian.ext_iff]
    exact mul_self_add_mul_self_eq_zero

end Gaussian

/-! ### Quaternions -/

namespace Quaternion

/-- The sum of the squares of the components. -/
def norm (x : Quaternion) : Rat := x.re * x.re + x.i * x.i + x.j * x.j + x.k * x.k

/-- The Hamilton quaternion with the same components. -/
def hamilton (x : Quaternion) : ℍ[ℚ] := ⟨x.re, x.i, x.j, x.k⟩

@[simp] theorem re_hamilton (x : Quaternion) : x.hamilton.re = x.re := rfl

@[simp] theorem imI_hamilton (x : Quaternion) : x.hamilton.imI = x.i := rfl

@[simp] theorem imJ_hamilton (x : Quaternion) : x.hamilton.imJ = x.j := rfl

@[simp] theorem imK_hamilton (x : Quaternion) : x.hamilton.imK = x.k := rfl

theorem hamilton_injective : Function.Injective hamilton := by
  intro x y h
  ext
  · exact congrArg QuaternionAlgebra.re h
  · exact congrArg QuaternionAlgebra.imI h
  · exact congrArg QuaternionAlgebra.imJ h
  · exact congrArg QuaternionAlgebra.imK h

@[simp] theorem hamilton_add (x y : Quaternion) : (x.add y).hamilton = x.hamilton + y.hamilton := rfl

@[simp] theorem hamilton_neg (x : Quaternion) : x.neg.hamilton = -x.hamilton := rfl

@[simp] theorem hamilton_ofRat (r : Rat) : (ofRat r).hamilton = (r : ℍ[ℚ]) := rfl

@[simp] theorem hamilton_conj (x : Quaternion) : x.conj.hamilton = star x.hamilton := by
  ext <;> simp [conj]

@[simp] theorem hamilton_mul (x y : Quaternion) : (x.mul y).hamilton = x.hamilton * y.hamilton := by
  ext <;> simp [mul]

theorem norm_eq_normSq (x : Quaternion) : x.norm = Quaternion.normSq x.hamilton := by
  simp [norm, Quaternion.normSq_def', sq]

theorem isComposition : arithmetic.IsComposition ofRat norm where
  mul_add _ _ _ := ringLaws.mul_add trivial trivial trivial
  add_mul _ _ _ := ringLaws.add_mul trivial trivial trivial
  scale_mul _ _ _ := ringLaws.mul_assoc trivial trivial trivial
  mul_scale r x y := by
    apply hamilton_injective
    simp [arithmetic, mul_assoc, Rat.cast_comm r]
  one_mul _ := ringLaws.one_mul trivial
  mul_one _ := ringLaws.mul_one trivial
  norm_mul x y := by
    simp [arithmetic, norm_eq_normSq]
  norm_eq_zero_iff x := by
    rw [norm_eq_normSq, Quaternion.normSq_eq_zero]
    exact hamilton_injective.eq_iff (b := ofRat 0)

end Quaternion

/-! ### Octonions -/

namespace Octonion

/-- The sum of the squares of the components. -/
def norm (x : Octonion) : Rat := x.left.norm + x.right.norm

/-- The conjugate of an octonion. -/
def conj (x : Octonion) : Octonion := ⟨x.left.conj, x.right.neg⟩

/-- The trace of a quaternion commutes with everything. -/
theorem trace_mul_comm (a x : ℍ[ℚ]) : (a + star a) * x = x * (a + star a) := by
  rw [Quaternion.self_add_star', Quaternion.coe_commutes]

/-- The norm of a quaternion commutes with everything. -/
theorem norm_mul_comm (a x : ℍ[ℚ]) : star a * a * x = x * (star a * a) := by
  rw [Quaternion.star_mul_self, Quaternion.coe_commutes]

/-- The order of two factors does not change the real component. -/
theorem re_mul_comm (a b : ℍ[ℚ]) : (a * b).re = (b * a).re := by
  rw [Quaternion.re_mul, Quaternion.re_mul]
  ring

theorem eq_of_hamilton_eq {x y : Octonion} (hleft : x.left.hamilton = y.left.hamilton)
    (hright : x.right.hamilton = y.right.hamilton) : x = y :=
  Octonion.ext (Quaternion.hamilton_injective hleft) (Quaternion.hamilton_injective hright)

theorem conj_conj (x : Octonion) : x.conj.conj = x := by
  apply eq_of_hamilton_eq <;> simp [conj]

theorem conj_mul (x y : Octonion) : (x.mul y).conj = y.conj.mul x.conj := by
  apply eq_of_hamilton_eq
  · simp [conj, mul]
  · simp [conj, mul, add_comm]

/-- Octonions alternate from the left. -/
theorem mul_mul_self (x y : Octonion) : x.mul (x.mul y) = (x.mul x).mul y := by
  obtain ⟨a, b⟩ := x
  obtain ⟨c, d⟩ := y
  apply eq_of_hamilton_eq <;>
    simp only [mul, Quaternion.hamilton_add, Quaternion.hamilton_neg, Quaternion.hamilton_mul,
      Quaternion.hamilton_conj, star_add, star_mul, star_neg, star_star] <;>
    generalize a.hamilton = a, b.hamilton = b, c.hamilton = c, d.hamilton = d
  · calc a * (a * c + -(star d * b)) + -((star a * star d + c * star b) * b)
        = a * a * c - (a + star a) * (star d * b) - c * (star b * b) := by noncomm_ring
      _ = a * a * c - star d * b * (a + star a) - star b * b * c := by
        rw [trace_mul_comm, norm_mul_comm b c]
      _ = (a * a + -(star b * b)) * c + -(star d * (b * a + b * star a)) := by noncomm_ring
  · calc (d * a + b * star c) * a + b * (star c * star a + -(star b * d))
        = d * a * a + b * (star c * (a + star a)) - b * star b * d := by noncomm_ring
      _ = d * a * a + b * ((a + star a) * star c) - d * (star b * b) := by
        rw [← trace_mul_comm, ← star_comm_self', norm_mul_comm b d]
      _ = d * (a * a + -(star b * b)) + (b * a + b * star a) * star c := by noncomm_ring

/-- Octonions alternate from the right, as their conjugates do from the left. -/
theorem mul_self_mul (x y : Octonion) : (y.mul x).mul x = y.mul (x.mul x) := by
  have h := congrArg conj (mul_mul_self x.conj y.conj)
  simpa only [conj_mul, conj_conj] using h

/-- Eight squares times eight squares are eight squares. The mixed products of the two halves have the
same real component and cancel. -/
theorem norm_mul (x y : Octonion) : (x.mul y).norm = x.norm * y.norm := by
  obtain ⟨a, b⟩ := x
  obtain ⟨c, d⟩ := y
  simp only [norm, mul, Quaternion.norm_eq_normSq, Quaternion.hamilton_add,
    Quaternion.hamilton_neg, Quaternion.hamilton_mul, Quaternion.hamilton_conj]
  generalize a.hamilton = a, b.hamilton = b, c.hamilton = c, d.hamilton = d
  have hmixed : (a * c * star (star d * b)).re = (d * a * star (b * star c)).re := by
    rw [star_mul, star_star, star_mul, star_star]
    calc (a * c * (star b * d)).re = (a * c * star b * d).re := by rw [mul_assoc (a * c)]
      _ = (d * (a * c * star b)).re := re_mul_comm _ _
      _ = (d * a * (c * star b)).re := by simp only [mul_assoc]
  rw [Quaternion.normSq_add, Quaternion.normSq_add, star_neg, mul_neg, Quaternion.re_neg, hmixed]
  simp only [Quaternion.normSq_neg, map_mul, Quaternion.normSq_star]
  ring

theorem norm_eq_zero_iff (x : Octonion) : x.norm = 0 ↔ x = ofRat 0 := by
  have hnonneg : ∀ q : Quaternion, 0 ≤ q.norm := fun q => by
    rw [Quaternion.norm_eq_normSq]
    exact Quaternion.normSq_nonneg
  have hzero : ∀ q : Quaternion, q.norm = 0 ↔ q = .ofRat 0 := Quaternion.isComposition.norm_eq_zero_iff
  rw [norm, add_eq_zero_iff_of_nonneg (hnonneg _) (hnonneg _), hzero, hzero, Octonion.ext_iff]
  rfl

theorem isComposition : arithmetic.IsComposition ofRat norm where
  mul_add x y z := by
    apply eq_of_hamilton_eq <;> simp [arithmetic, mul, add, mul_add, add_mul] <;> abel
  add_mul x y z := by
    apply eq_of_hamilton_eq <;> simp [arithmetic, mul, add, mul_add, add_mul] <;> abel
  scale_mul r x y := by
    apply eq_of_hamilton_eq <;>
      simp [arithmetic, mul, ofRat, mul_add, add_mul, mul_assoc, Rat.cast_comm r]
  mul_scale r x y := by
    apply eq_of_hamilton_eq <;>
      simp [arithmetic, mul, ofRat, mul_add, add_mul, mul_assoc, Rat.cast_comm r]
  one_mul x := by
    apply eq_of_hamilton_eq <;> simp [arithmetic, mul, ofRat]
  mul_one x := by
    apply eq_of_hamilton_eq <;> simp [arithmetic, mul, ofRat]
  norm_mul := norm_mul
  norm_eq_zero_iff := norm_eq_zero_iff

end Octonion

/-- Quaternions multiply associatively and octonions alternate. Both products are bilinear over the
rational numbers, have a unit on both sides and multiply sums of squares, so that neither has zero
divisors. -/
theorem hypercomplex_algebras :
    (Quaternion.arithmetic.IsComposition Quaternion.ofRat Quaternion.norm ∧
      (∀ x y z, Quaternion.arithmetic.mul (Quaternion.arithmetic.mul x y) z =
        Quaternion.arithmetic.mul x (Quaternion.arithmetic.mul y z)) ∧
      Quaternion.arithmetic.HasNoZeroDivisors AnyElement) ∧
    (Octonion.arithmetic.IsComposition Octonion.ofRat Octonion.norm ∧
      (∀ x y, Octonion.arithmetic.mul x (Octonion.arithmetic.mul x y) =
          Octonion.arithmetic.mul (Octonion.arithmetic.mul x x) y ∧
        Octonion.arithmetic.mul (Octonion.arithmetic.mul y x) x =
          Octonion.arithmetic.mul y (Octonion.arithmetic.mul x x)) ∧
      Octonion.arithmetic.HasNoZeroDivisors AnyElement) := by
  refine ⟨⟨Quaternion.isComposition, fun _ _ _ => ?_,
    Quaternion.isComposition.hasNoZeroDivisors⟩, Octonion.isComposition, fun x y => ?_,
    Octonion.isComposition.hasNoZeroDivisors⟩
  · exact Quaternion.ringLaws.mul_assoc trivial trivial trivial
  · exact ⟨Octonion.mul_mul_self x y, Octonion.mul_self_mul x y⟩

end PolynomialText

end
