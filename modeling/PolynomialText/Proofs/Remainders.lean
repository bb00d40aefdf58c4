import PolynomialText.Proofs.QuotientRings

/-!
# Division with remainder

Leading terms are cancelled for as long as the degree is not below that of the defining polynomial.
`Extension.DividesTo` describes this without a bound on the number of steps. Every step lowers the
degree, because the inverse of the leading coefficient makes the leading terms cancel exactly, also
where the coefficients have zero divisors; so the division ends. What is left is the only polynomial
of small degree that differs from the dividend by a multiple of the defining polynomial.
-/

namespace PolynomialText

namespace Extension

variable {α : Type} {A : Arithmetic α} {K : α → Prop} {E : Extension α}

/-- A division ends with one polynomial at most. -/
theorem DividesTo.unique {p r r' : Poly α} (h : E.DividesTo A p r) (h' : E.DividesTo A p r') :
    r = r' := by
  induction h with
  | done low =>
    cases h' with
    | done => rfl
    | cancel top_eq le => exact absurd (low _ _ top_eq) (UInt64.not_lt.2 le)
  | cancel top_eq le _ ih =>
    cases h' with
    | done low => exact absurd (low _ _ top_eq) (UInt64.not_lt.2 le)
    | cancel top_eq' le' rest' =>
      obtain ⟨rfl, rfl⟩ := Prod.mk.inj (Option.some.inj (top_eq.symm.trans top_eq'))
      exact ih rest'

variable {S : Type} [CommRing S] {f : α → S}

/-- Every canonical polynomial can be divided by the defining polynomial: the division ends with a
canonical polynomial of smaller degree that differs from the dividend by a multiple, and there is no
other one. -/
structure HasRemainders (A : Arithmetic α) (K : α → Prop) (f : α → S) (E : Extension α) : Prop where
  ends : ∀ {p r : Poly α}, (E.ring A).CanonicalPoly K p → (E.DividesTo A p r ↔ r = E.reduce A p)
  canonical : ∀ {p : Poly α}, (E.ring A).CanonicalPoly K p →
    (E.ring A).CanonicalPoly K (E.reduce A p)
  degree_lt : ∀ {p : Poly α}, (E.ring A).CanonicalPoly K p →
    ((E.reduce A p).exact f).degree < (E.modulus.exact f).degree
  dvd : ∀ {p : Poly α}, (E.ring A).CanonicalPoly K p →
    E.modulus.exact f ∣ p.exact f - (E.reduce A p).exact f
  unique : ∀ {p r : Poly α}, (E.ring A).CanonicalPoly K p → (E.ring A).CanonicalPoly K r →
    (r.exact f).degree < (E.modulus.exact f).degree → E.modulus.exact f ∣ p.exact f - r.exact f →
    E.reduce A p = r
  reduce_of_degree_lt : ∀ {p : Poly α}, (E.ring A).CanonicalPoly K p →
    (p.exact f).degree < (E.modulus.exact f).degree → E.reduce A p = p
  reduce_reduce : ∀ {p : Poly α}, (E.ring A).CanonicalPoly K p →
    E.reduce A (E.reduce A p) = E.reduce A p

theorem hasRemainders (h : A.Represents K f) (hone : A.one ≠ A.zero) (hE : E.Defined A K) :
    E.HasRemainders A K f := by
  have hresidue := fun {p : Poly α} (hp : Poly.CanonicalOver A K 1 p) =>
    isResidue_reduce h.ringLaws hone hE hp
  have hdegree := (hE.exact_modulus h).1
  have hlower := fun {p : Poly α} (hp : Poly.CanonicalOver A K 1 p) =>
    hdegree ▸ (hresidue hp).degree_lt (f := f)
  have hunique : ∀ {p r : Poly α}, Poly.CanonicalOver A K 1 p → Poly.CanonicalOver A K 1 r →
      (r.exact f).degree < (E.modulus.exact f).degree → E.modulus.exact f ∣ p.exact f - r.exact f →
      E.reduce A p = r := by
    intro p r hp hr hlt hdvd
    rw [hdegree] at hlt
    apply Poly.eq_of_exact_eq h (hresidue hp).canonical hr
    apply hE.eq_of_dvd_sub h (hresidue hp).degree_lt hlt
    have hsum := dvd_sub hdvd (dvd_sub_reduce h hone hE hp)
    rwa [sub_sub_sub_cancel_left] at hsum
  have hsmall : ∀ {p : Poly α}, Poly.CanonicalOver A K 1 p →
      (p.exact f).degree < (E.modulus.exact f).degree → E.reduce A p = p := fun hp hlt =>
    hunique hp hp hlt (by rw [sub_self]; exact dvd_zero _)
  constructor
  case ends =>
    intro p r hp
    have hdivides := dividesTo_reduce h.ringLaws hone hE hp
    exact ⟨fun hr => hr.unique hdivides, fun heq => heq ▸ hdivides⟩
  case canonical => exact fun hp => (hresidue hp).canonical
  case degree_lt => exact hlower
  case dvd => exact dvd_sub_reduce h hone hE
  case unique => exact hunique
  case reduce_of_degree_lt => exact hsmall
  case reduce_reduce => exact fun hp => hsmall (hresidue hp).canonical (hlower hp)

end Extension

/-- In every extension of a ring by a canonical polynomial, of any degree, there is division with
remainder. -/
def Arithmetic.DividesWithRemainder {α S : Type} [CommRing S] (A : Arithmetic α) (K : α → Prop)
    (f : α → S) (inverse : α → Except RingFault α) : Prop :=
  ∀ (vars : List Text) (order : TermOrder) (modulus : Poly α) (E : Extension α),
    (PolyRing.mk A vars order).CanonicalPoly K modulus →
    Extension.make ⟨A, vars, order⟩ inverse modulus = .ok E → E.HasRemainders A K f

theorem Arithmetic.Represents.dividesWithRemainder {α S : Type} [CommRing S] {A : Arithmetic α}
    {K : α → Prop} {f : α → S} {inverse : α → Except RingFault α} (h : A.Represents K f)
    (hone : A.one ≠ A.zero)
    (hinverse : ∀ {a b : α}, K a → inverse a = .ok b → K b ∧ A.mul a b = A.one) :
    A.DividesWithRemainder K f inverse := by
  intro vars order modulus E hmodulus hmake
  exact Extension.hasRemainders h hone (Extension.defined_of_make hinverse hmodulus hmake)

/-- Extensions of the rational numbers and of residues divide with remainder, whether the modulus of
the residues is prime or composite and whether the defining polynomial is monic or not. -/
theorem division_with_remainder :
    Rational.arithmetic.DividesWithRemainder AnyElement (id : Rat → Rat) Rational.inverse ∧
    (∀ m : WordModulus, m.arithmetic.DividesWithRemainder m.Reduced
      (fun a => (a.toNat : ZMod m.value.toNat)) m.inverse) ∧
    (∀ m : BigModulus, m.arithmetic.DividesWithRemainder m.Reduced
      (fun a => (a : ZMod m.value)) m.inverse) := by
  refine ⟨?_, fun m => ?_, fun m => ?_⟩
  · exact Rational.represents.dividesWithRemainder (show (1 : Rat) ≠ 0 by decide)
      fun _ hb => ⟨trivial, Rational.mul_inverse hb⟩
  · exact m.represents.dividesWithRemainder (show (1 : UInt64) ≠ 0 by decide)
      fun _ hb => m.mul_inverse hb
  · exact m.represents.dividesWithRemainder (show (1 : Int) ≠ 0 by decide)
      fun _ hb => m.mul_inverse hb

/-- Modulo six, `5a^2 + 1` divides `a^2 - 1`, so the remainder of the largest power of `a`, which is
odd, is `a`. -/
theorem remainder_of_largest_power :
    let m : WordModulus := ⟨6, by decide⟩
    let f : UInt64 → ZMod 6 := fun a => (a.toNat : ZMod 6)
    let modulus : Poly UInt64 := ⟨[([0], 1), ([2], 5)]⟩
    let E : Extension UInt64 := ⟨['a'], {}, modulus, 2, 5⟩
    (PolyRing.mk m.arithmetic [['a']] {}).CanonicalPoly m.Reduced modulus ∧
      Extension.make ⟨m.arithmetic, [['a']], {}⟩ m.inverse modulus = .ok E ∧
      E.HasRemainders m.arithmetic m.Reduced f ∧
      E.reduce m.arithmetic (.monomial m.arithmetic [maxExponent] m.arithmetic.one) =
        .monomial m.arithmetic [1] m.arithmetic.one := by
  intro m f modulus E
  have hmodulus : (PolyRing.mk m.arithmetic [['a']] {}).CanonicalPoly m.Reduced modulus :=
    ⟨⟨by decide, by decide, by decide⟩, by decide⟩
  have hmake : Extension.make ⟨m.arithmetic, [['a']], {}⟩ m.inverse modulus = .ok E := by
    decide +kernel
  have hdivision : E.HasRemainders m.arithmetic m.Reduced f :=
    division_with_remainder.2.1 m [['a']] {} modulus E hmodulus hmake
  have hpower (k : UInt64) :
      (E.ring m.arithmetic).CanonicalPoly m.Reduced (.monomial m.arithmetic [k] m.arithmetic.one) :=
    Poly.canonicalOver_iff_regular.2 (Poly.regular_monomial rfl m.represents.one_mem)
  have hexact (k : UInt64) :
      (Poly.monomial m.arithmetic [k] m.arithmetic.one).exact f = Polynomial.X ^ k.toNat :=
    (Poly.exact_monomial m.represents k _).trans
      ((congrArg _ m.represents.map_one).trans (Polynomial.monomial_one_right_eq_X_pow _))
  have hdefining : E.modulus.exact f = Polynomial.C 5 * Polynomial.X ^ 2 + 1 := by
    simp [f, E, modulus, Poly.exact, Polynomial.C_mul_X_pow_eq_monomial, add_comm]
  have hodd (n : Nat) : E.modulus.exact f ∣ Polynomial.X ^ (2 * n + 1) - Polynomial.X := by
    have hsquare : E.modulus.exact f * Polynomial.C 5 = Polynomial.X ^ 2 - 1 := by
      have hfive : (Polynomial.C 5 : Polynomial (ZMod 6)) = -1 := by
        rw [← Polynomial.C_1, ← Polynomial.C_neg]
        rfl
      rw [hdefining, hfive]
      ring
    have hpowers := sub_dvd_pow_sub_pow (Polynomial.X ^ 2 : Polynomial (ZMod 6)) 1 n
    calc E.modulus.exact f ∣ Polynomial.X ^ 2 - 1 := Dvd.intro _ hsquare
      _ ∣ Polynomial.X * ((Polynomial.X ^ 2) ^ n - 1 ^ n) := hpowers.mul_left _
      _ = Polynomial.X ^ (2 * n + 1) - Polynomial.X := by ring
  obtain ⟨n, hn⟩ : Odd maxExponent.toNat := by decide
  refine ⟨hmodulus, hmake, hdivision, hdivision.unique (hpower _) (hpower 1) ?_ ?_⟩
  · have : Nontrivial (ZMod 6) := ⟨0, 1, by decide⟩
    have htwo : (E.modulus.exact f).degree = 2 := by
      rw [hdefining]
      compute_degree!
    rw [htwo, hexact, Polynomial.degree_X_pow]
    decide
  · rw [hexact, hexact, hn]
    simpa using hodd n

end PolynomialText
