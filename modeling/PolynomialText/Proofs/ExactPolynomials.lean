import PolynomialText.Proofs.ExtensionResidues
import Mathlib.Algebra.MonoidAlgebra.MapDomain
import Mathlib.Algebra.Polynomial.AlgebraMap
import Mathlib.Algebra.Polynomial.BigOperators

/-!
# Polynomials in one variable without a largest exponent

The terms of a polynomial in one variable stand for a polynomial in the ordinary sense, whose
exponents are natural numbers. Clamping the exponents is a homomorphism of rings, and it forgets
nothing of a polynomial whose degree is a 64-bit number. So an operation on stored polynomials is the
ordinary one whenever the ordinary result has such a degree, whether or not a term of higher degree
cancels on the way.
-/

namespace PolynomialText

open Exponents (OfLength)

/-! ### Clamped exponents -/

namespace Exponents

/-- The exponent one of a single variable. -/
def OfLength.linear : OfLength 1 := ⟨[1], rfl⟩

theorem OfLength.headD_nsmul_linear (n : Nat) :
    ((n • linear).vector.headD 0).toNat = min n (UInt64.size - 1) := by
  induction n with
  | zero =>
    rw [zero_nsmul]
    rfl
  | succ n ih =>
    have hadd : ∀ a : OfLength 1, (a + linear).vector.headD 0 = clampAdd (a.vector.headD 0) 1 := by
      rintro ⟨e, he⟩
      obtain ⟨k, rfl⟩ := List.length_eq_one_iff.1 he
      rfl
    rw [succ_nsmul, hadd, toNat_clampAdd, ih]
    have hone : (1 : UInt64).toNat = 1 := rfl
    omega

/-- Every exponent is a multiple of the exponent one. -/
theorem OfLength.nsmul_linear_eq_iff {n : Nat} (hn : n < UInt64.size) {k : UInt64} :
    n • linear = ⟨[k], rfl⟩ ↔ n = k.toNat := by
  have hhead := headD_nsmul_linear n
  obtain ⟨l, hl⟩ := List.length_eq_one_iff.1 (n • linear).length_eq
  rw [hl, List.headD_cons, Nat.min_eq_left (by omega)] at hhead
  rw [OfLength.ext_iff, hl, List.singleton_inj, ← hhead, UInt64.toNat_inj]

end Exponents

section

variable {S : Type} [CommRing S]

/-- A polynomial with its exponents clamped. -/
noncomputable def clamped : Polynomial S →ₐ[S] AddMonoidAlgebra S (OfLength 1) :=
  Polynomial.aeval (.single OfLength.linear 1)

theorem clamped_monomial (n : Nat) (c : S) :
    clamped (Polynomial.monomial n c) = .single (n • OfLength.linear) c := by
  rw [clamped, Polynomial.aeval_monomial, AddMonoidAlgebra.single_pow, one_pow,
    ← Algebra.smul_def, AddMonoidAlgebra.smul_single, smul_eq_mul, mul_one]

theorem coeff_clamped_monomial {n : Nat} (hn : n < UInt64.size) (c : S) (k : UInt64) :
    (clamped (Polynomial.monomial n c)).coeff ⟨[k], rfl⟩ = (Polynomial.monomial n c).coeff k.toNat := by
  classical
  rw [clamped_monomial, AddMonoidAlgebra.coeff_single, Finsupp.single_apply,
    Polynomial.coeff_monomial]
  exact if_congr (OfLength.nsmul_linear_eq_iff hn) rfl rfl

/-- Clamping keeps the coefficients of a polynomial whose degree is a 64-bit number. -/
theorem coeff_clamped {P : Polynomial S} (hP : P.natDegree < UInt64.size) (k : UInt64) :
    (clamped P).coeff ⟨[k], rfl⟩ = P.coeff k.toNat := by
  let stored : Polynomial S →+ S := (Finsupp.applyAddHom ⟨[k], rfl⟩).comp
    ((AddMonoidAlgebra.coeffAddEquiv (R := S) (M := OfLength 1)).toAddMonoidHom.comp
      (clamped (S := S)).toRingHom.toAddMonoidHom)
  have hterm : ∀ i ∈ Finset.range (P.natDegree + 1),
      stored (Polynomial.monomial i (P.coeff i)) =
        (Polynomial.monomial i (P.coeff i)).coeff k.toNat := by
    intro i hi
    have := Finset.mem_range.1 hi
    exact coeff_clamped_monomial (by omega) _ k
  calc stored P = stored (∑ i ∈ Finset.range (P.natDegree + 1),
        Polynomial.monomial i (P.coeff i)) := by rw [← P.as_sum_range]
    _ = ∑ i ∈ Finset.range (P.natDegree + 1),
        (Polynomial.monomial i (P.coeff i)).coeff k.toNat := by
      rw [map_sum, Finset.sum_congr rfl hterm]
    _ = P.coeff k.toNat := by rw [← Polynomial.finsetSum_coeff, ← P.as_sum_range]

/-- Clamping forgets nothing of a polynomial whose degree is a 64-bit number. -/
theorem eq_of_clamped_eq {P Q : Polynomial S} (hP : P.natDegree < UInt64.size)
    (hQ : Q.natDegree < UInt64.size) (h : clamped P = clamped Q) : P = Q := by
  ext n
  by_cases hn : n < UInt64.size
  · have hword : (UInt64.ofNat n).toNat = n := UInt64.toNat_ofNat_of_lt' hn
    rw [← hword, ← coeff_clamped hP, ← coeff_clamped hQ, h]
  · rw [Polynomial.coeff_eq_zero_of_natDegree_lt (by omega),
      Polynomial.coeff_eq_zero_of_natDegree_lt (by omega)]

end

/-! ### The polynomial that is stored -/

namespace Poly

variable {α : Type} {S : Type} [CommRing S]

/-- The polynomial in the ordinary sense that terms in one variable stand for, with the values of
the coefficients. -/
noncomputable def exact (f : α → S) (p : Poly α) : Polynomial S :=
  (p.terms.map fun t => Polynomial.monomial (t.1.headD 0).toNat (f t.2)).sum

theorem exact_cons (f : α → S) (t : Exponents × α) (terms : List (Exponents × α)) :
    exact f ⟨t :: terms⟩ = Polynomial.monomial (t.1.headD 0).toNat (f t.2) + exact f ⟨terms⟩ := rfl

/-- Exponents below a bound make a degree below it. -/
theorem degree_exact_lt {f : α → S} {p : Poly α} {bound : Nat}
    (h : ∀ t ∈ p.terms, (t.1.headD 0).toNat < bound) : (p.exact f).degree < bound := by
  obtain ⟨terms⟩ := p
  induction terms with
  | nil => exact WithBot.bot_lt_coe bound
  | cons t terms ih =>
    obtain ⟨ht, hterms⟩ := List.forall_mem_cons.1 h
    rw [exact_cons]
    apply (Polynomial.degree_add_le _ _).trans_lt
    apply max_lt _ (ih hterms)
    exact (Polynomial.degree_monomial_le _ _).trans_lt (Nat.cast_lt.2 ht)

theorem natDegree_exact_lt (f : α → S) (p : Poly α) : (p.exact f).natDegree < UInt64.size := by
  have hdegree : (p.exact f).degree < UInt64.size := degree_exact_lt fun t _ => UInt64.toNat_lt _
  by_cases hzero : p.exact f = 0
  · rw [hzero, Polynomial.natDegree_zero]
    decide
  · exact (Polynomial.natDegree_lt_iff_degree_lt hzero).2 hdegree

end Poly

section

variable {α : Type} {S : Type} [CommRing S] {A : Arithmetic α} {C : α → Prop} {f : α → S}
  (h : A.Represents C f)

/-- The values of canonical elements, as a homomorphism of rings. -/
def Arithmetic.Represents.hom : h.ringLaws.Carrier →+* S where
  toFun a := f a.val
  map_one' := h.map_one
  map_mul' a b := h.map_mul a.mem b.mem
  map_zero' := h.map_zero
  map_add' a b := h.map_add a.mem b.mem

namespace Poly

/-- The element that a polynomial in one variable stores, with the values of the coefficients. -/
noncomputable def stored (p : Poly α) : AddMonoidAlgebra S (OfLength 1) :=
  AddMonoidAlgebra.mapRingHom (OfLength 1) h.hom (value h.ringLaws 1 p.terms)

include h

/-- What is stored is the polynomial with its exponents clamped. -/
theorem clamped_exact {p : Poly α} (hp : CanonicalOver A C 1 p) :
    clamped (p.exact f) = stored h p := by
  have hfits := hp.fits
  obtain ⟨terms⟩ := p
  clear hp
  unfold stored
  induction terms with
  | nil =>
    rw [value_nil, map_zero]
    exact map_zero _
  | cons t terms ih =>
    obtain ⟨ht, hterms⟩ := List.forall_mem_cons.1 hfits
    have hexponent : (t.1.headD 0).toNat • OfLength.linear = ⟨t.1, ht.length_eq⟩ := by
      rw [(OfLength.nsmul_linear_eq_iff (UInt64.toNat_lt _)).2 rfl, OfLength.ext_iff]
      exact (Exponents.eq_singleton ht.length_eq).symm
    rw [exact_cons, map_add, ih hterms, clamped_monomial, hexponent, value_cons, map_add,
      termValue_of_fits ht, AddMonoidAlgebra.mapRingHom_single]
    rfl

/-- Canonical polynomials are determined by the polynomials that they stand for. -/
theorem eq_of_exact_eq {p q : Poly α} (hp : CanonicalOver A C 1 p) (hq : CanonicalOver A C 1 q)
    (heq : p.exact f = q.exact f) : p = q := by
  have hstored : stored h p = stored h q := by
    rw [← clamped_exact h hp, ← clamped_exact h hq, heq]
  apply eq_of_value_eq (h := h.ringLaws) hp hq
  ext e
  apply h.injective (Arithmetic.RingLaws.Carrier.mem _) (Arithmetic.RingLaws.Carrier.mem _)
  have hcoeff := congrArg (fun x => x.coeff e) hstored
  simp only [stored, AddMonoidAlgebra.coeff_mapRingHom] at hcoeff
  exact hcoeff

/-- A polynomial stands for any one of 64-bit degree that is stored the same. -/
theorem exact_eq_of_stored {p : Poly α} (hp : CanonicalOver A C 1 p) {P : Polynomial S}
    (hP : P.natDegree < UInt64.size) (heq : stored h p = clamped P) : p.exact f = P :=
  eq_of_clamped_eq (p.natDegree_exact_lt f) hP ((clamped_exact h hp).trans heq)

/-! ### Operations -/

theorem exact_add {p q : Poly α} (hp : CanonicalOver A C 1 p) (hq : CanonicalOver A C 1 q) :
    (add A p q).exact f = p.exact f + q.exact f := by
  have hsum := (canonicalOver_iff_regular.1 hp).add h.ringLaws.closed (canonicalOver_iff_regular.1 hq)
  apply exact_eq_of_stored h (canonicalOver_iff_regular.2 hsum)
  · exact (Polynomial.natDegree_add_le _ _).trans_lt
      (max_lt (p.natDegree_exact_lt f) (q.natDegree_exact_lt f))
  · rw [map_add, clamped_exact h hp, clamped_exact h hq, stored, value_add hp hq, map_add]
    rfl

theorem exact_neg {p : Poly α} (hp : CanonicalOver A C 1 p) :
    (neg A p).exact f = -p.exact f := by
  have hneg := (canonicalOver_iff_regular.1 hp).neg h.ringLaws.closed
  apply exact_eq_of_stored h (canonicalOver_iff_regular.2 hneg)
  · rw [Polynomial.natDegree_neg]
    exact p.natDegree_exact_lt f
  · rw [map_neg, clamped_exact h hp, stored, value_neg hp, map_neg]
    rfl

theorem exact_sub {p q : Poly α} (hp : CanonicalOver A C 1 p) (hq : CanonicalOver A C 1 q) :
    (sub A p q).exact f = p.exact f - q.exact f := by
  have hneg := (canonicalOver_iff_regular.1 hq).neg h.ringLaws.closed
  rw [sub, exact_add h hp (canonicalOver_iff_regular.2 hneg), exact_neg h hq, sub_eq_add_neg]

/-- A product is exact if its degree is a 64-bit number. -/
theorem exact_mul {p q : Poly α} (hp : CanonicalOver A C 1 p) (hq : CanonicalOver A C 1 q)
    (hdegree : (p.exact f * q.exact f).natDegree < UInt64.size) :
    (mul A p q).exact f = p.exact f * q.exact f := by
  have hproduct := (canonicalOver_iff_regular.1 hp).mul h.ringLaws.closed
    (Exponents.closed_length 1) (canonicalOver_iff_regular.1 hq)
  apply exact_eq_of_stored h (canonicalOver_iff_regular.2 hproduct) hdegree
  rw [map_mul, clamped_exact h hp, clamped_exact h hq, stored, value_mul hp hq, map_mul]
  rfl

theorem exact_monomial (k : UInt64) (c : α) :
    (monomial A [k] c).exact f = Polynomial.monomial k.toNat (f c) := by
  unfold monomial
  split
  · rename_i hzero
    rw [A.isZero_eq_true_iff.1 hzero, h.map_zero, Polynomial.monomial_zero_right]
    rfl
  · rw [exact_cons]
    exact add_zero _

theorem exact_scale {p : Poly α} (hp : CanonicalOver A C 1 p) {c : α} (hc : C c) :
    (scale A p c).exact f = p.exact f * Polynomial.C (f c) := by
  have hscale := (canonicalOver_iff_regular.1 hp).scale h.ringLaws.closed hc
  have hconstant : Fits C 1 (.zero 1, c) := ⟨rfl, hc⟩
  have hstored : AddMonoidAlgebra.mapRingHom (OfLength 1) h.hom
      (termValue h.ringLaws 1 (.zero 1, c)) = clamped (Polynomial.C (f c)) := by
    rw [termValue_of_fits hconstant, AddMonoidAlgebra.mapRingHom_single,
      ← Polynomial.monomial_zero_left, clamped_monomial, zero_nsmul]
    rfl
  apply exact_eq_of_stored h (canonicalOver_iff_regular.2 hscale)
  · exact (Polynomial.natDegree_mul_C_le _ _).trans_lt (p.natDegree_exact_lt f)
  · rw [map_mul, clamped_exact h hp, ← hstored, stored, value_scale hp hc, map_mul]
    rfl

theorem exact_one {R : PolyRing α} (hR : R.coefficients = A) (hvars : R.nvars = 1) :
    R.one.exact f = 1 := by
  have hone : R.one = monomial A [0] A.one := by
    rw [PolyRing.one, PolyRing.constant, hR, hvars]
    rfl
  rw [hone, exact_monomial h, h.map_one]
  rfl

/-- A power is exact if its degree is a 64-bit number. -/
theorem exact_pow {R : PolyRing α} (hR : R.coefficients = A) (hvars : R.nvars = 1) {p : Poly α}
    (hp : CanonicalOver A C 1 p) {n : UInt64}
    (hdegree : (p.exact f ^ n.toNat).natDegree < UInt64.size) :
    (R.pow p n).exact f = p.exact f ^ n.toNat := by
  -- What is stored is multiplied in a ring, so the squarings on the way need not be exact.
  have hmul : ∀ {q r : Poly α} {x y : AddMonoidAlgebra S (OfLength 1)},
      CanonicalOver A C 1 q ∧ stored h q = x → CanonicalOver A C 1 r ∧ stored h r = y →
      CanonicalOver A C 1 (mul A q r) ∧ stored h (mul A q r) = x * y := by
    rintro q r x y ⟨hq, rfl⟩ ⟨hr, rfl⟩
    have hproduct := (canonicalOver_iff_regular.1 hq).mul h.ringLaws.closed
      (Exponents.closed_length 1) (canonicalOver_iff_regular.1 hr)
    refine ⟨canonicalOver_iff_regular.2 hproduct, ?_⟩
    rw [stored, value_mul hq hr, map_mul]
    rfl
  have hone : CanonicalOver A C 1 R.one := by
    have hconstant := PolyRing.canonicalPoly_constant (R := R) h.one_mem
    rw [PolyRing.CanonicalPoly, hR, hvars] at hconstant
    rwa [PolyRing.one, hR]
  have hstored : stored h R.one = 1 := by
    rw [← clamped_exact h hone, exact_one h hR hvars, map_one]
  obtain ⟨hcanonical, hpower⟩ := powerFrom_rel (g := (· * ·))
    (R := fun q x => CanonicalOver A C 1 q ∧ stored h q = x) hmul 64 ⟨hone, hstored⟩ ⟨hp, rfl⟩ n.toNat
  rw [powerFrom_eq_pow 64 _ _ n.toNat_lt, one_mul, ← clamped_exact h hp, ← map_pow] at hpower
  rw [PolyRing.pow, hR]
  exact exact_eq_of_stored h hcanonical hdegree hpower

end Poly

end

end PolynomialText
