import Mathlib.Algebra.Field.ZMod
import Mathlib.Algebra.MonoidAlgebra.NoZeroDivisors
import PolynomialText.Proofs.DescendingTerms
import PolynomialText.Proofs.HypercomplexAlgebras
import PolynomialText.Proofs.PolyLaws

/-!
# Leading terms of products

In a monomial order the product of the leading monomials is above the products of all other pairs of
monomials, as long as no exponent is clamped and no weight is cut off. So no other pair reaches it, and
its coefficient is the product of the leading coefficients, which does not vanish without zero
divisors. Coefficients need not commute: the leading coefficients are multiplied in the order of the
factors.
-/

namespace PolynomialText

open Exponents (OfLength)

/-! ### The largest product of monomials -/

namespace Exponents

theorem Unclamped.symm {a c : Exponents} (h : a.Unclamped c) : c.Unclamped a := by
  induction h with
  | nil => exact .nil
  | cons hsum _ ih => exact .cons (Nat.add_comm _ _ ▸ hsum) ih

variable {D : Exponents → Prop} {compare : Exponents → Exponents → Ordering}

/-- A product grows with each of its factors. -/
theorem IsMonomialOrder.add_lt_add (h : IsMonomialOrder D compare) {a b c d : Exponents}
    (hac : D (a.add c)) (hbc : D (b.add c)) (hbd : D (b.add d)) (huac : a.Unclamped c)
    (hubc : b.Unclamped c) (hubd : b.Unclamped d) (hab : a = b ∨ compare a b = .lt)
    (hcd : c = d ∨ compare c d = .lt) (hne : ¬ (a = b ∧ c = d)) :
    compare (a.add c) (b.add d) = .lt := by
  have hleft : compare a b = .lt → compare (a.add c) (b.add c) = .lt := fun hlt =>
    (h.add hac hbc huac hubc).trans hlt
  have hright : compare c d = .lt → compare (b.add c) (b.add d) = .lt := by
    intro hlt
    rw [add_comm] at hbc hbd
    rw [add_comm b c, add_comm b d]
    exact (h.add hbc hbd hubc.symm hubd.symm).trans hlt
  rcases hab with rfl | hab
  · exact hright (hcd.resolve_left fun heq => hne ⟨rfl, heq⟩)
  · rcases hcd with rfl | hcd
    · exact hleft hab
    · exact h.trans hac hbc hbd (hleft hab) (hright hcd)

end Exponents

namespace Poly

variable {α : Type} {A : Arithmetic α} {C : α → Prop} {nvars : Nat} {p q : Poly α}

/-- The monomials of a product are products of monomials. -/
theorem exists_of_mem_mul (hA : A.Closed C) (hp : CanonicalOver A C nvars p)
    (hq : CanonicalOver A C nvars q) {u : Exponents × α} (hu : u ∈ (mul A p q).terms) :
    ∃ s ∈ p.terms, ∃ t ∈ q.terms, u.1 = s.1.add t.1 := by
  have hregular : Regular A (fun e => ∃ s ∈ p.terms, ∃ t ∈ q.terms, e = s.1.add t.1) C (mul A p q) := by
    apply regular_zero.foldl_addTerm hA
    intro u hu
    obtain ⟨s, hs, hmap⟩ := List.mem_flatMap.1 hu
    obtain ⟨t, ht, rfl⟩ := List.mem_map.1 hmap
    exact ⟨⟨s, hs, t, ht, rfl⟩, hA.mul (hp.coefficients s hs) (hq.coefficients t ht)⟩
  exact hregular.exponents u hu

/-- Only monomials of terms are stored. -/
theorem exists_of_coeff_value_ne_zero {h : A.RingLaws C} {terms : List (Exponents × α)}
    (hfits : ∀ t ∈ terms, Fits C nvars t) {e : OfLength nvars}
    (hne : (value h nvars terms).coeff e ≠ 0) : ∃ t ∈ terms, t.1 = e.vector := by
  by_contra hnone
  exact hne (coeff_value_of_forall_ne e.length_eq hfits fun t ht heq => hnone ⟨t, ht, heq⟩)

/-- A product of two monomials that no other pair reaches has the product of their coefficients,
unless that is zero. -/
theorem mulTerm_mem_mul (h : A.RingLaws C) (hp : CanonicalOver A C nvars p)
    (hq : CanonicalOver A C nvars q) {s t : Exponents × α} (hs : s ∈ p.terms) (ht : t ∈ q.terms)
    (hunique : ∀ s' ∈ p.terms, ∀ t' ∈ q.terms, s'.1.add t'.1 = s.1.add t.1 → s'.1 = s.1 ∧ t'.1 = t.1)
    (hne : A.mul s.2 t.2 ≠ A.zero) : mulTerm A s t ∈ (mul A p q).terms := by
  have hfs := hp.fits s hs
  have hft := hq.fits t ht
  let e : OfLength nvars := ⟨s.1, hfs.length_eq⟩
  let f : OfLength nvars := ⟨t.1, hft.length_eq⟩
  have hproduct : CanonicalOver A C nvars (mul A p q) :=
    canonicalOver_iff_regular.2 ((canonicalOver_iff_regular.1 hp).mul h.closed
      (Exponents.closed_length nvars) (canonicalOver_iff_regular.1 hq))
  have hpair : UniqueAdd (value h nvars p.terms).coeff.support (value h nvars q.terms).coeff.support
      e f := by
    intro e' f' he' hf' hsum
    obtain ⟨s', hs', hse⟩ := exists_of_coeff_value_ne_zero hp.fits (Finsupp.mem_support_iff.1 he')
    obtain ⟨t', ht', htf⟩ := exists_of_coeff_value_ne_zero hq.fits (Finsupp.mem_support_iff.1 hf')
    have hvectors : s'.1.add t'.1 = s.1.add t.1 := by
      rw [hse, htf]
      exact congrArg OfLength.vector hsum
    obtain ⟨heq, hfq⟩ := hunique s' hs' t' ht' hvectors
    exact ⟨OfLength.ext (hse.symm.trans heq), OfLength.ext (htf.symm.trans hfq)⟩
  have hstored : (value h nvars (mul A p q).terms).coeff (e + f) = h.of (h.mul_mem hfs.mem hft.mem) := by
    rw [value_mul hp hq, AddMonoidAlgebra.coeff_mul_add_of_uniqueAdd hpair,
      coeff_value_of_mem hp.fits hp.ascending hs, coeff_value_of_mem hq.fits hq.ascending ht]
    rfl
  obtain ⟨⟨e', c⟩, hu, rfl⟩ := exists_of_coeff_value_ne_zero (h := h) hproduct.fits (e := e + f) (by
    rw [hstored]
    exact fun hzero => hne ((h.of_eq_zero_iff _).1 hzero))
  have hcoefficient := (coeff_value_of_mem hproduct.fits hproduct.ascending hu).symm.trans hstored
  obtain rfl : c = A.mul s.2 t.2 := congrArg Arithmetic.RingLaws.Carrier.val hcoefficient
  exact hu

end Poly

/-! ### The leading term -/

/-- Without zero divisors, the leading term of a product is the product of the leading terms. -/
theorem PolyRing.leading?_mul {α : Type} {R : PolyRing α} {C : α → Prop}
    (h : R.coefficients.RingLaws C) (hdomain : R.coefficients.HasNoZeroDivisors C) {p q : Poly α}
    (hp : R.CanonicalPoly C p) (hq : R.CanonicalPoly C q) {s t : Exponents × α}
    (hs : R.leading? p = some s) (ht : R.leading? q = some t)
    (hunclamped : ∀ s ∈ p.terms, ∀ t ∈ q.terms, s.1.Unclamped t.1)
    (hmeasures : ∀ s ∈ p.terms, ∀ t ∈ q.terms, R.order.Measures R.nvars (s.1.add t.1)) :
    R.leading? (Poly.mul R.coefficients p q) = some (Poly.mulTerm R.coefficients s t) := by
  have horder := R.order.isMonomialOrder_measures R.nvars
  obtain ⟨hsmem, hsmax⟩ := (leading?_eq_some_iff (distinct_of_canonical hp.toCanonical)).1 hs
  obtain ⟨htmem, htmax⟩ := (leading?_eq_some_iff (distinct_of_canonical hq.toCanonical)).1 ht
  -- Every other pair of monomials has a smaller product.
  have hlower : ∀ s' ∈ p.terms, ∀ t' ∈ q.terms, ¬ (s'.1 = s.1 ∧ t'.1 = t.1) →
      R.order.compare (s'.1.add t'.1) (s.1.add t.1) = .lt := by
    intro s' hs' t' ht' hne
    have hsle : s'.1 = s.1 ∨ R.order.compare s'.1 s.1 = .lt := by
      refine or_iff_not_imp_left.2 fun hne => ?_
      rw [TermOrder.compare_swap (hp.length s hsmem) (hp.length s' hs'), hsmax s' hs' hne]
      rfl
    have htle : t'.1 = t.1 ∨ R.order.compare t'.1 t.1 = .lt := by
      refine or_iff_not_imp_left.2 fun hne => ?_
      rw [TermOrder.compare_swap (hq.length t htmem) (hq.length t' ht'), htmax t' ht' hne]
      rfl
    exact horder.add_lt_add (hmeasures s' hs' t' ht') (hmeasures s hsmem t' ht')
      (hmeasures s hsmem t htmem) (hunclamped s' hs' t' ht') (hunclamped s hsmem t' ht')
      (hunclamped s hsmem t htmem) hsle htle hne
  have htop := hmeasures s hsmem t htmem
  have hproduct : R.CanonicalPoly C (Poly.mul R.coefficients p q) := (ringLaws h).mul_mem hp hq
  rw [leading?_eq_some_iff (distinct_of_canonical hproduct.toCanonical)]
  constructor
  · apply Poly.mulTerm_mem_mul h hp hq hsmem htmem
    · intro s' hs' t' ht' heq
      by_contra hne
      have hlt := hlower s' hs' t' ht' hne
      rw [heq, (horder.eq_iff htop htop).2 rfl] at hlt
      contradiction
    · intro hzero
      rcases hdomain (hp.coefficients s hsmem) (hq.coefficients t htmem) hzero with hs0 | ht0
      · exact hp.nonzero s hsmem hs0
      · exact hq.nonzero t htmem ht0
  · intro u hu hne
    obtain ⟨s', hs', t', ht', heq⟩ := Poly.exists_of_mem_mul h.closed hp hq hu
    have hpair : ¬ (s'.1 = s.1 ∧ t'.1 = t.1) := by
      rintro ⟨hs0, ht0⟩
      exact hne (by rw [heq, hs0, ht0]; rfl)
    have hlt := hlower s' hs' t' ht' hpair
    rw [← heq] at hlt
    have hlength : u.1.length = R.nvars := hproduct.length u hu
    calc R.order.compare (s.1.add t.1) u.1 = (R.order.compare u.1 (s.1.add t.1)).swap :=
          TermOrder.compare_swap hlength htop.length
      _ = .gt := by
        rw [hlt]
        rfl

/-- Leading terms of polynomials over a ring of coefficients multiply, in every term order, where no
exponent of a product of terms is clamped and no weight of it passes 128 bits. -/
def Arithmetic.MultipliesLeading {α : Type} (A : Arithmetic α) (C : α → Prop) : Prop :=
  ∀ (vars : List Text) (order : TermOrder) (p q : Poly α),
    (PolyRing.mk A vars order).CanonicalPoly C p → (PolyRing.mk A vars order).CanonicalPoly C q →
    p ≠ .zero → q ≠ .zero →
    (∀ s ∈ p.terms, ∀ t ∈ q.terms, s.1.Unclamped t.1) →
    (∀ s ∈ p.terms, ∀ t ∈ q.terms, order.Measures vars.length (s.1.add t.1)) →
    ∃ s t, (PolyRing.mk A vars order).leading? p = some s ∧
      (PolyRing.mk A vars order).leading? q = some t ∧
      (PolyRing.mk A vars order).leading? (Poly.mul A p q) = some (s.1.add t.1, A.mul s.2 t.2)

theorem Arithmetic.RingLaws.multipliesLeading {α : Type} {A : Arithmetic α} {C : α → Prop}
    (h : A.RingLaws C) (hdomain : A.HasNoZeroDivisors C) : A.MultipliesLeading C := by
  intro vars order p q hp hq hpne hqne hunclamped hmeasures
  have hsome : ∀ {r : Poly α}, r ≠ .zero → ∃ s, (PolyRing.mk A vars order).leading? r = some s :=
    fun hne => Option.ne_none_iff_exists'.1 (mt (PolyRing.leading?_eq_none_iff _ _).1 hne)
  obtain ⟨s, hs⟩ := hsome hpne
  obtain ⟨t, ht⟩ := hsome hqne
  exact ⟨s, t, hs, ht, PolyRing.leading?_mul h hdomain hp hq hs ht hunclamped hmeasures⟩

/-- Leading terms multiply over the rationals, the integers, the complex numbers, the quaternions and
the residues modulo a prime number. -/
theorem leading_terms_multiply :
    Rational.arithmetic.MultipliesLeading AnyElement ∧
    Integer.arithmetic.MultipliesLeading AnyElement ∧
    Gaussian.arithmetic.MultipliesLeading AnyElement ∧
    Quaternion.arithmetic.MultipliesLeading AnyElement ∧
    (∀ m : WordModulus, m.value.toNat.Prime → m.arithmetic.MultipliesLeading m.Reduced) ∧
    (∀ m : BigModulus, m.value.Prime → m.arithmetic.MultipliesLeading m.Reduced) := by
  refine ⟨?_, ?_, ?_, ?_, fun m hm => ?_, fun m hm => ?_⟩
  · exact Rational.ringLaws.multipliesLeading fun _ _ hzero => mul_eq_zero.1 hzero
  · exact Integer.ringLaws.multipliesLeading fun _ _ hzero => mul_eq_zero.1 hzero
  · exact Gaussian.ringLaws.multipliesLeading Gaussian.isComposition.hasNoZeroDivisors
  · exact Quaternion.ringLaws.multipliesLeading Quaternion.isComposition.hasNoZeroDivisors
  · have : Fact m.value.toNat.Prime := ⟨hm⟩
    exact m.represents.ringLaws.multipliesLeading m.represents.hasNoZeroDivisors
  · have : Fact m.value.Prime := ⟨hm⟩
    exact m.represents.ringLaws.multipliesLeading m.represents.hasNoZeroDivisors

/-- The leading coefficients `i` and `j` multiply to `k`, although a monomial of higher degree is below
the leading one in the weighted order. Modulo seven, `3 x` and `5 x` lead to `x^2`. -/
theorem quaternion_leading_terms_multiply :
    (let i : Quaternion := ⟨0, 1, 0, 0⟩
     let j : Quaternion := ⟨0, 0, 1, 0⟩
     let R : PolyRing Quaternion :=
       ⟨Quaternion.arithmetic, [['x'], ['y']], .ofWeights [[maxExponent, 1]]⟩
     let p : Poly Quaternion := ⟨[([0, 3], j), ([1, 0], i)]⟩
     let q : Poly Quaternion := ⟨[([0, 0], i), ([1, 0], j)]⟩
     R.CanonicalPoly AnyElement p ∧ R.CanonicalPoly AnyElement q ∧
       R.leading? (Poly.mul R.coefficients p q) = some ([2, 0], ⟨0, 0, 0, 1⟩)) ∧
    (let m : WordModulus := ⟨7, by decide⟩
     let R : PolyRing UInt64 := ⟨m.arithmetic, [['x']], {}⟩
     let p : Poly UInt64 := ⟨[([0], 1), ([1], 3)]⟩
     let q : Poly UInt64 := ⟨[([0], 2), ([1], 5)]⟩
     m.value.toNat.Prime ∧ R.CanonicalPoly m.Reduced p ∧ R.CanonicalPoly m.Reduced q ∧
       R.leading? (Poly.mul R.coefficients p q) = some ([2], 1)) := by
  constructor
  · intro i j R p q
    have hp : R.CanonicalPoly AnyElement p := ⟨⟨by decide, by decide, by decide⟩, fun _ _ => trivial⟩
    have hq : R.CanonicalPoly AnyElement q := ⟨⟨by decide, by decide, by decide⟩, fun _ _ => trivial⟩
    have hfits : ∀ s ∈ p.terms, ∀ t ∈ q.terms, (s.1.add t.1).length = 2 ∧
        Exponents.dot [maxExponent, 1] (s.1.add t.1) < UInt64.size * UInt64.size := by
      decide
    have hmeasures : ∀ s ∈ p.terms, ∀ t ∈ q.terms, R.order.Measures 2 (s.1.add t.1) := by
      refine fun s hs t ht => ⟨(hfits s hs t ht).1, fun rows hrows row hrow => ?_⟩
      obtain rfl := Option.some.inj hrows
      rw [List.mem_singleton.1 hrow]
      exact (hfits s hs t ht).2
    obtain ⟨s, t, hs, ht, hproduct⟩ := leading_terms_multiply.2.2.2.1 R.vars R.order p q hp hq
      (by decide) (by decide) (by unfold Exponents.Unclamped; decide) hmeasures
    obtain rfl : ([1, 0], i) = s := Option.some.inj ((show R.leading? p = _ by decide).symm.trans hs)
    obtain rfl : ([1, 0], j) = t := Option.some.inj ((show R.leading? q = _ by decide).symm.trans ht)
    exact ⟨hp, hq, hproduct.trans (by decide +kernel)⟩
  · intro m R p q
    have hprime : m.value.toNat.Prime := by
      change Nat.Prime 7
      decide
    have hp : R.CanonicalPoly m.Reduced p := ⟨⟨by decide, by decide, by decide⟩, by decide⟩
    have hq : R.CanonicalPoly m.Reduced q := ⟨⟨by decide, by decide, by decide⟩, by decide⟩
    have hlength : ∀ s ∈ p.terms, ∀ t ∈ q.terms, (s.1.add t.1).length = 1 := by
      decide
    have hmeasures : ∀ s ∈ p.terms, ∀ t ∈ q.terms, R.order.Measures 1 (s.1.add t.1) :=
      fun s hs t ht => ⟨hlength s hs t ht, fun _ hrows => nomatch hrows⟩
    obtain ⟨s, t, hs, ht, hproduct⟩ := leading_terms_multiply.2.2.2.2.1 m hprime R.vars R.order p q hp hq
      (by decide) (by decide) (by unfold Exponents.Unclamped; decide) hmeasures
    obtain rfl : ([1], 3) = s := Option.some.inj ((show R.leading? p = _ by decide).symm.trans hs)
    obtain rfl : ([1], 5) = t := Option.some.inj ((show R.leading? q = _ by decide).symm.trans ht)
    exact ⟨hprime, hp, hq, hproduct.trans (by decide)⟩

end PolynomialText
