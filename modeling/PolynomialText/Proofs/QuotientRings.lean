import PolynomialText.Proofs.ExactPolynomials
import PolynomialText.Proofs.ReadHeaders
import Mathlib.RingTheory.AdjoinRoot

/-!
# Extensions are quotient rings

Division by the defining polynomial changes a polynomial by a multiple of it, since every step
subtracts one. The leading coefficient of the defining polynomial is a unit, so no two residues
differ by a multiple of it, even where the coefficients have zero divisors. The residues therefore
stand for the elements of the quotient by the defining polynomial, and the remainder is the
projection. Products of residues are exact as long as the degree of the defining polynomial is at
most half the number of 64-bit words.
-/

namespace PolynomialText

open Polynomial (X C)

/-- Powers stand for powers. -/
theorem Arithmetic.Represents.map_pow {α S : Type} [CommRing S] {A : Arithmetic α} {K : α → Prop}
    {f : α → S} (h : A.Represents K f) {a : α} (ha : K a) (n : UInt64) :
    f (A.pow a n) = f a ^ n.toNat := by
  have hmul : ∀ {a b : α} {x y : S}, K a ∧ f a = x → K b ∧ f b = y →
      K (A.mul a b) ∧ f (A.mul a b) = x * y := by
    rintro a b x y ⟨ha, rfl⟩ ⟨hb, rfl⟩
    exact ⟨h.mul_mem ha hb, h.map_mul ha hb⟩
  obtain ⟨-, hpower⟩ := powerFrom_rel (g := (· * ·)) (R := fun a x => K a ∧ f a = x) hmul 64
    ⟨h.one_mem, h.map_one⟩ ⟨ha, rfl⟩ n.toNat
  rwa [powerFrom_eq_pow 64 _ _ n.toNat_lt, one_mul] at hpower

namespace Extension

variable {α : Type}

/-! ### Division -/

/-- The extension with a generator that has no name. -/
def unnamed (E : Extension α) : Extension α := { E with generator := [] }

/-- A defining polynomial that is not constant, with the inverse of its leading coefficient, and a
generator with any name. -/
structure Defined (A : Arithmetic α) (K : α → Prop) (E : Extension α) : Prop where
  modulus : Poly.CanonicalOver A K 1 E.modulus
  degree_ne_zero : E.degree ≠ 0
  inverse_mem : K E.leadInverse
  exists_lead : ∃ lead, E.modulus.top? = some (E.degree, lead) ∧
    A.mul lead E.leadInverse = A.one

variable {A : Arithmetic α} {K : α → Prop} {E : Extension α}

/-- Without a name, every exponent is permitted. -/
theorem regular_unnamed_iff {p : Poly α} :
    Poly.Regular A (E.unnamed.ring A).Supports K p ↔ Poly.CanonicalOver A K 1 p := by
  have hsupports : ∀ {e : Exponents}, e.length = 1 → (E.unnamed.ring A).Supports e := by
    intro e he
    refine ⟨he, fun factor hmem _ => ?_⟩
    have hname : factor.1 ∈ [([] : Text)] := (List.of_mem_zip hmem).1
    rw [List.mem_singleton.1 hname]
    rfl
  constructor
  · exact fun hp => hp.canonicalOver (E.unnamed.ring A).closed_supports
  · exact fun hp => ⟨hp.ascending, hp.nonzero, fun t ht => hsupports (hp.length t ht), hp.coefficients⟩

theorem Defined.valid (hE : E.Defined A K) : E.unnamed.Valid A K :=
  ⟨regular_unnamed_iff.2 hE.modulus, hE.degree_ne_zero, hE.inverse_mem, hE.exists_lead⟩

/-- A step of the division lowers the degree. -/
theorem canonical_cancelTop (hA : A.RingLaws K) (hone : A.one ≠ A.zero) (hE : E.Defined A K)
    {p : Poly α} (hp : Poly.CanonicalOver A K 1 p) {top : UInt64} {lead : α}
    (htop : p.top? = some (top, lead)) (hle : E.degree ≤ top) :
    Poly.CanonicalOver A K 1 (E.cancelTop A p top lead) ∧
      ∀ next c, (E.cancelTop A p top lead).top? = some (next, c) → next < top := by
  obtain ⟨hregular, hlower⟩ :=
    regular_cancelTop hA hone hE.valid (regular_unnamed_iff.2 hp) htop hle
  have hcanonical : Poly.CanonicalOver A K 1 (E.cancelTop A p top lead) :=
    regular_unnamed_iff.1 hregular
  exact ⟨hcanonical, fun _ _ => Poly.top_lt_of_forall_lt hcanonical.toCanonical hlower⟩

/-- Cancelling leading terms while the degree is not small enough ends with a polynomial. -/
inductive DividesTo (A : Arithmetic α) (E : Extension α) : Poly α → Poly α → Prop
  | done {p : Poly α} (low : E.Low p) : DividesTo A E p p
  | cancel {p r : Poly α} {top : UInt64} {lead : α} (top_eq : p.top? = some (top, lead))
      (le : E.degree ≤ top) (rest : DividesTo A E (E.cancelTop A p top lead) r) : DividesTo A E p r

/-- A division by as many steps as the degree allows comes to its end. -/
theorem dividesTo_reduceFrom (hA : A.RingLaws K) (hone : A.one ≠ A.zero) (hE : E.Defined A K)
    {fuel : Nat} {p : Poly α} (hp : Poly.CanonicalOver A K 1 p)
    (hfuel : ∀ top lead, p.top? = some (top, lead) → top.toNat < fuel) :
    E.DividesTo A p (E.reduceFrom A fuel p) := by
  induction fuel generalizing p with
  | zero => exact .done fun top lead htop => absurd (hfuel top lead htop) (Nat.not_lt_zero _)
  | succ fuel ih =>
    rw [reduceFrom]
    split
    · rename_i hnone
      exact .done fun top lead htop => absurd (hnone.symm.trans htop) (by simp)
    · rename_i top lead htop
      split
      · rename_i hlt
        refine .done fun other c hother => ?_
        obtain ⟨rfl, -⟩ := Prod.mk.inj (Option.some.inj (htop.symm.trans hother))
        exact hlt
      · rename_i hge
        have hle := UInt64.not_lt.1 hge
        obtain ⟨hnext, hlower⟩ := canonical_cancelTop hA hone hE hp htop hle
        refine .cancel htop hle (ih hnext fun next c hnext => ?_)
        have := hfuel top lead htop
        have := UInt64.lt_iff_toNat_lt.1 (hlower next c hnext)
        omega

theorem dividesTo_reduce (hA : A.RingLaws K) (hone : A.one ≠ A.zero) (hE : E.Defined A K)
    {p : Poly α} (hp : Poly.CanonicalOver A K 1 p) : E.DividesTo A p (E.reduce A p) := by
  apply dividesTo_reduceFrom hA hone hE hp
  intro top lead htop
  simp [htop]

/-- A division ends with a residue. -/
theorem DividesTo.isResidue (hA : A.RingLaws K) (hone : A.one ≠ A.zero) (hE : E.Defined A K)
    {p r : Poly α} (hr : E.DividesTo A p r) (hp : Poly.CanonicalOver A K 1 p) :
    E.IsResidue A K r := by
  induction hr with
  | done low => exact ⟨hp, low⟩
  | cancel top_eq le _ ih => exact ih (canonical_cancelTop hA hone hE hp top_eq le).1

/-- The remainder of a canonical polynomial is a residue. -/
theorem isResidue_reduce (hA : A.RingLaws K) (hone : A.one ≠ A.zero) (hE : E.Defined A K) {p : Poly α}
    (hp : Poly.CanonicalOver A K 1 p) : E.IsResidue A K (E.reduce A p) :=
  (dividesTo_reduce hA hone hE hp).isResidue hA hone hE hp

theorem isResidue_iff {p : Poly α} : E.IsResidue A K p ↔
    Poly.Regular A (E.unnamed.ring A).Supports K p ∧ E.unnamed.Low p := by
  rw [regular_unnamed_iff]
  exact ⟨fun hp => ⟨hp.canonical, hp.low⟩, fun hp => ⟨hp.1, hp.2⟩⟩

/-- The arithmetic of an extension stays among the residues, whatever the name of the generator. -/
theorem closed_isResidue (hA : A.RingLaws K) (hone : A.one ≠ A.zero) (hE : E.Defined A K) :
    (E.arithmetic A).Closed (E.IsResidue A K) := by
  have hclosed := closed hA hone hE.valid
  constructor
  case zero => exact isResidue_iff.2 hclosed.zero
  case one => exact isResidue_iff.2 hclosed.one
  case add =>
    intro p q hp hq
    exact isResidue_iff.2 (hclosed.add (isResidue_iff.1 hp) (isResidue_iff.1 hq))
  case mul =>
    intro p q hp hq
    have hproduct := (Poly.canonicalOver_iff_regular.1 hp.canonical).mul hA.closed
      (Exponents.closed_length 1) (Poly.canonicalOver_iff_regular.1 hq.canonical)
    exact isResidue_reduce hA hone hE (Poly.canonicalOver_iff_regular.2 hproduct)
  case neg =>
    intro p hp
    exact isResidue_iff.2 (hclosed.neg (isResidue_iff.1 hp))
  case neg_ne_zero =>
    intro p hp
    exact hclosed.neg_ne_zero (isResidue_iff.1 hp)

variable {S : Type} [CommRing S] {f : α → S} (h : A.Represents K f)
include h

/-- The defining polynomial has its degree, and its leading coefficient has the stored inverse. -/
theorem Defined.exact_modulus (hE : E.Defined A K) :
    (E.modulus.exact f).degree = E.degree.toNat ∧
      f E.leadInverse * (E.modulus.exact f).leadingCoeff = 1 := by
  obtain ⟨lead, htop, hinverse⟩ := hE.exists_lead
  obtain ⟨terms, hterms, hlower⟩ := Poly.exists_terms_eq_append hE.modulus.toCanonical htop
  have hlead : K lead := hE.modulus.coefficients ([E.degree], lead) (by simp [hterms])
  have hunit : f lead * f E.leadInverse = 1 := by
    rw [← h.map_mul hlead hE.inverse_mem, hinverse, h.map_one]
  have hne : f lead ≠ 0 := by
    intro hzero
    rw [← h.map_zero] at hzero
    exact hE.modulus.nonzero ([E.degree], lead) (by simp [hterms])
      (h.injective hlead h.zero_mem hzero)
  have hsplit : E.modulus.exact f =
      Poly.exact f ⟨terms⟩ + Polynomial.monomial E.degree.toNat (f lead) := by
    simp [Poly.exact, hterms]
  have hdegree : (Polynomial.monomial E.degree.toNat (f lead)).degree = E.degree.toNat :=
    Polynomial.degree_monomial _ hne
  have hbelow : (Poly.exact f ⟨terms⟩).degree <
      (Polynomial.monomial E.degree.toNat (f lead)).degree := by
    rw [hdegree]
    apply Poly.degree_exact_lt
    intro t ht
    have hlength := hE.modulus.length t (by simp [hterms, ht])
    have hlt := hlower t ht
    rwa [Exponents.eq_singleton hlength, Exponents.cmp_singleton_eq_lt,
      UInt64.lt_iff_toNat_lt] at hlt
  constructor
  · rw [hsplit, Polynomial.degree_add_eq_right_of_degree_lt hbelow, hdegree]
  · rw [hsplit, Polynomial.leadingCoeff_add_of_degree_lt hbelow, Polynomial.leadingCoeff_monomial,
      mul_comm, hunit]

/-- A step of the division subtracts a multiple of the defining polynomial. -/
theorem dvd_sub_cancelTop (hE : E.Defined A K) {p : Poly α}
    (hp : Poly.CanonicalOver A K 1 p) {top : UInt64} {lead : α} (hlead : K lead)
    (hle : E.degree ≤ top) :
    E.modulus.exact f ∣ p.exact f - (E.cancelTop A p top lead).exact f := by
  have hclosed := h.ringLaws.closed
  have hlength := Exponents.closed_length 1
  have hpower : Poly.CanonicalOver A K 1 (.monomial A [top - E.degree] A.one) :=
    Poly.canonicalOver_iff_regular.2 (Poly.regular_monomial rfl h.one_mem)
  have hproduct := (Poly.canonicalOver_iff_regular.1 hpower).mul hclosed hlength
    (Poly.canonicalOver_iff_regular.1 hE.modulus)
  have hfactor : K (A.mul E.leadInverse lead) := h.mul_mem hE.inverse_mem hlead
  have hdegree : ((Poly.monomial A [top - E.degree] A.one).exact f *
      E.modulus.exact f).natDegree < UInt64.size := by
    have hshift := UInt64.toNat_sub_of_le _ _ hle
    have hle' := UInt64.le_iff_toNat_le.1 hle
    have htop : top.toNat < UInt64.size := top.toNat_lt
    have hmodulus := Polynomial.natDegree_eq_of_degree_eq_some (hE.exact_modulus h).1
    have hmonomial : ((Poly.monomial A [top - E.degree] A.one).exact f).natDegree ≤
        (top - E.degree).toNat := by
      rw [Poly.exact_monomial h]
      exact Polynomial.natDegree_monomial_le _
    have := Polynomial.natDegree_mul_le (p := (Poly.monomial A [top - E.degree] A.one).exact f)
      (q := E.modulus.exact f)
    omega
  have hstep : E.cancelTop A p top lead = Poly.sub A p (Poly.scale A
      (Poly.mul A (.monomial A [top - E.degree] A.one) E.modulus) (A.mul E.leadInverse lead)) := rfl
  rw [hstep, Poly.exact_sub h hp (Poly.canonicalOver_iff_regular.2 (hproduct.scale hclosed hfactor)),
    Poly.exact_scale h (Poly.canonicalOver_iff_regular.2 hproduct) hfactor,
    Poly.exact_mul h hpower hE.modulus hdegree, sub_sub_cancel]
  exact (Dvd.intro_left _ rfl).mul_right _

/-- A division changes a polynomial by a multiple of the defining polynomial. -/
theorem DividesTo.dvd_sub (hone : A.one ≠ A.zero) (hE : E.Defined A K) {p r : Poly α}
    (hr : E.DividesTo A p r) (hp : Poly.CanonicalOver A K 1 p) :
    E.modulus.exact f ∣ p.exact f - r.exact f := by
  induction hr with
  | done =>
    rw [sub_self]
    exact dvd_zero _
  | @cancel p r top lead top_eq le _ ih =>
    obtain ⟨terms, hterms, -⟩ := Poly.exists_terms_eq_append hp.toCanonical top_eq
    have hlead : K lead := hp.coefficients ([top], lead) (by simp [hterms])
    obtain ⟨hnext, -⟩ := canonical_cancelTop h.ringLaws hone hE hp top_eq le
    have hsum := dvd_add (dvd_sub_cancelTop h hE hp hlead le) (ih hnext)
    rwa [sub_add_sub_cancel] at hsum

/-- The remainder differs from the polynomial by a multiple of the defining polynomial. -/
theorem dvd_sub_reduce (hone : A.one ≠ A.zero) (hE : E.Defined A K) {p : Poly α}
    (hp : Poly.CanonicalOver A K 1 p) : E.modulus.exact f ∣ p.exact f - (E.reduce A p).exact f :=
  (dividesTo_reduce h.ringLaws hone hE hp).dvd_sub h hone hE hp

/-- Polynomials of smaller degree than the defining polynomial differ by no multiple of it, because
its leading coefficient is a unit. -/
theorem Defined.eq_of_dvd_sub (hE : E.Defined A K) {P Q : Polynomial S}
    (hP : P.degree < E.degree.toNat) (hQ : Q.degree < E.degree.toNat)
    (hdvd : E.modulus.exact f ∣ P - Q) : P = Q := by
  obtain ⟨hdegree, hlead⟩ := hE.exact_modulus h
  have hmonic : (C (f E.leadInverse) * E.modulus.exact f).Monic :=
    Polynomial.monic_C_mul_of_mul_leadingCoeff_eq_one hlead
  have hunit : IsUnit (C (f E.leadInverse)) :=
    Polynomial.isUnit_C.2 (IsUnit.of_mul_eq_one _ hlead)
  have hmultiple : C (f E.leadInverse) * E.modulus.exact f ∣ P - Q := hunit.mul_left_dvd.2 hdvd
  have hlower : (P - Q).degree < (C (f E.leadInverse) * E.modulus.exact f).degree := by
    rw [Polynomial.degree_C_mul_of_isUnit (IsUnit.of_mul_eq_one _ hlead), hdegree]
    exact (Polynomial.degree_sub_le _ _).trans_lt (max_lt hP hQ)
  by_contra hne
  exact hmonic.not_dvd_of_degree_lt (sub_ne_zero.2 hne) hlower hmultiple

omit h in
/-- Residues have smaller degrees than the defining polynomial. -/
theorem IsResidue.degree_lt {p : Poly α} (hp : E.IsResidue A K p) :
    (p.exact f).degree < E.degree.toNat := by
  apply Poly.degree_exact_lt
  intro t ht
  have hcanonical : Poly.Canonical A 1 p := hp.canonical.toCanonical
  have hlt := hp.low.lt_of_mem hcanonical t ht
  rwa [Exponents.eq_singleton (hcanonical.length t ht), Exponents.cmp_singleton_eq_lt,
    UInt64.lt_iff_toNat_lt] at hlt

omit h in
/-- The class of a polynomial modulo the defining polynomial. -/
noncomputable def residueClass (f : α → S) (E : Extension α) (p : Poly α) :
    AdjoinRoot (E.modulus.exact f) :=
  AdjoinRoot.mk (E.modulus.exact f) (p.exact f)

/-- The remainder stays in its class. -/
theorem residueClass_reduce (hone : A.one ≠ A.zero) (hE : E.Defined A K) {p : Poly α}
    (hp : Poly.CanonicalOver A K 1 p) :
    residueClass f E (E.reduce A p) = residueClass f E p :=
  (AdjoinRoot.mk_eq_mk.2 (dvd_sub_reduce h hone hE hp)).symm

/-- Every class has one residue at most. -/
theorem eq_of_residueClass_eq (hE : E.Defined A K) {p q : Poly α} (hp : E.IsResidue A K p)
    (hq : E.IsResidue A K q) (heq : residueClass f E p = residueClass f E q) : p = q :=
  Poly.eq_of_exact_eq h hp.canonical hq.canonical
    (hE.eq_of_dvd_sub h hp.degree_lt hq.degree_lt (AdjoinRoot.mk_eq_mk.1 heq))

/-- Remainders are equal exactly for polynomials of one class. -/
theorem reduce_eq_iff (hone : A.one ≠ A.zero) (hE : E.Defined A K) {p q : Poly α}
    (hp : Poly.CanonicalOver A K 1 p) (hq : Poly.CanonicalOver A K 1 q) :
    E.reduce A p = E.reduce A q ↔ residueClass f E p = residueClass f E q := by
  rw [← residueClass_reduce h hone hE hp, ← residueClass_reduce h hone hE hq]
  constructor
  · intro heq
    rw [heq]
  · exact eq_of_residueClass_eq h hE (isResidue_reduce h.ringLaws hone hE hp)
      (isResidue_reduce h.ringLaws hone hE hq)

omit h in
/-- Products of residues are exact if the degree of the defining polynomial is at most half the
number of words. -/
theorem IsResidue.natDegree_mul_lt (hne : E.degree ≠ 0) (hdegree : E.degree.toNat ≤ 2 ^ 63)
    {p q : Poly α} (hp : E.IsResidue A K p) (hq : E.IsResidue A K q) :
    (p.exact f * q.exact f).natDegree < UInt64.size := by
  have hpos : 0 < E.degree.toNat := Nat.pos_of_ne_zero fun h0 => hne (UInt64.toNat.inj h0)
  have hbound : ∀ {p : Poly α}, E.IsResidue A K p → (p.exact f).natDegree < E.degree.toNat := by
    intro p hp
    by_cases hzero : p.exact f = 0
    · rwa [hzero, Polynomial.natDegree_zero]
    · exact (Polynomial.natDegree_lt_iff_degree_lt hzero).2 hp.degree_lt
  have hproduct := Polynomial.natDegree_mul_le (p := p.exact f) (q := q.exact f)
  have hp' := hbound hp
  have hq' := hbound hq
  have hsize : UInt64.size = 2 * 2 ^ 63 := rfl
  omega

/-- The residues of an extension stand for the elements of the quotient by the defining
polynomial. -/
theorem represents (hone : A.one ≠ A.zero) (hE : E.Defined A K) (hdegree : E.degree.toNat ≤ 2 ^ 63) :
    (E.arithmetic A).Represents (E.IsResidue A K) (residueClass f E) := by
  have hclosed := closed_isResidue h.ringLaws hone hE
  have hproduct : ∀ {p q : Poly α}, E.IsResidue A K p → E.IsResidue A K q →
      Poly.CanonicalOver A K 1 (Poly.mul A p q) := fun hp hq =>
    Poly.canonicalOver_iff_regular.2 ((Poly.canonicalOver_iff_regular.1 hp.canonical).mul
      h.ringLaws.closed (Exponents.closed_length 1) (Poly.canonicalOver_iff_regular.1 hq.canonical))
  constructor
  case zero_mem => exact hclosed.zero
  case one_mem => exact hclosed.one
  case add_mem => exact hclosed.add
  case mul_mem => exact hclosed.mul
  case neg_mem => exact hclosed.neg
  case injective => exact fun hp hq heq => eq_of_residueClass_eq h hE hp hq heq
  case map_zero => exact map_zero _
  case map_one => exact (congrArg _ (Poly.exact_one h rfl rfl)).trans (map_one _)
  case map_add =>
    intro p q hp hq
    exact (congrArg _ (Poly.exact_add h hp.canonical hq.canonical)).trans (map_add _ _ _)
  case map_mul =>
    intro p q hp hq
    have hexact := Poly.exact_mul h hp.canonical hq.canonical
      (hp.natDegree_mul_lt hE.degree_ne_zero hdegree hq)
    calc residueClass f E (E.reduce A (Poly.mul A p q)) = residueClass f E (Poly.mul A p q) :=
          residueClass_reduce h hone hE (hproduct hp hq)
      _ = residueClass f E p * residueClass f E q := by
          rw [residueClass, hexact, map_mul]
          rfl
  case map_neg =>
    intro p hp
    exact (congrArg _ (Poly.exact_neg h hp.canonical)).trans (map_neg _ _)

/-! ### The projection -/

omit h in
/-- The residues are the quotient of the polynomials in the generator by the defining polynomial:
they form a commutative ring, the remainder is a homomorphism onto them wherever no exponent of the
result has to be clamped, and the multiples of the defining polynomial are what it sends to zero. -/
structure IsQuotient (A : Arithmetic α) (K : α → Prop) (f : α → S) (E : Extension α) : Prop where
  ringLaws : (E.arithmetic A).RingLaws (E.IsResidue A K)
  commutes : (E.arithmetic A).Commutes (E.IsResidue A K)
  reduce_mem : ∀ {p : Poly α}, (E.ring A).CanonicalPoly K p → E.IsResidue A K (E.reduce A p)
  reduce_residue : ∀ {p : Poly α}, E.IsResidue A K p → E.reduce A p = p
  reduce_one : E.reduce A (E.ring A).one = (E.arithmetic A).one
  reduce_add : ∀ {p q : Poly α}, (E.ring A).CanonicalPoly K p → (E.ring A).CanonicalPoly K q →
    E.reduce A (Poly.add A p q) = (E.arithmetic A).add (E.reduce A p) (E.reduce A q)
  reduce_mul : ∀ {p q : Poly α}, (E.ring A).CanonicalPoly K p → (E.ring A).CanonicalPoly K q →
    (p.exact f * q.exact f).natDegree < UInt64.size →
    E.reduce A (Poly.mul A p q) = (E.arithmetic A).mul (E.reduce A p) (E.reduce A q)
  reduce_pow : ∀ {p : Poly α} {n : UInt64}, (E.ring A).CanonicalPoly K p →
    (p.exact f ^ n.toNat).natDegree < UInt64.size →
    E.reduce A ((E.ring A).pow p n) = (E.arithmetic A).pow (E.reduce A p) n
  reduce_modulus : E.reduce A E.modulus = (E.arithmetic A).zero
  reduce_eq_iff : ∀ {p q : Poly α}, (E.ring A).CanonicalPoly K p → (E.ring A).CanonicalPoly K q →
    (E.reduce A p = E.reduce A q ↔ E.modulus.exact f ∣ p.exact f - q.exact f)

theorem isQuotient (hone : A.one ≠ A.zero) (hE : E.Defined A K) (hdegree : E.degree.toNat ≤ 2 ^ 63) :
    E.IsQuotient A K f := by
  have hrepresents := represents h hone hE hdegree
  have hresidue := fun {p : Poly α} (hp : Poly.CanonicalOver A K 1 p) =>
    isResidue_reduce h.ringLaws hone hE hp
  have hclass := fun {p : Poly α} (hp : Poly.CanonicalOver A K 1 p) =>
    residueClass_reduce h hone hE hp
  constructor
  case ringLaws => exact hrepresents.ringLaws
  case commutes => exact hrepresents.commutes mul_comm
  case reduce_mem => exact hresidue
  case reduce_residue => exact fun hp => reduce_of_top_lt A E hp.low
  case reduce_one => exact reduce_of_top_lt A E hrepresents.one_mem.low
  case reduce_add =>
    intro p q hp hq
    have hsum := hrepresents.add_mem (hresidue hp) (hresidue hq)
    have hunreduced : Poly.CanonicalOver A K 1 (Poly.add A p q) :=
      Poly.canonicalOver_iff_regular.2 ((Poly.canonicalOver_iff_regular.1 hp).add h.ringLaws.closed
        (Poly.canonicalOver_iff_regular.1 hq))
    apply eq_of_residueClass_eq h hE (hresidue hunreduced) hsum
    rw [hclass hunreduced, hrepresents.map_add (hresidue hp) (hresidue hq), hclass hp, hclass hq,
      residueClass, Poly.exact_add h hp hq, map_add]
    rfl
  case reduce_mul =>
    intro p q hp hq hexact
    have hproduct := hrepresents.mul_mem (hresidue hp) (hresidue hq)
    have hunreduced : Poly.CanonicalOver A K 1 (Poly.mul A p q) :=
      Poly.canonicalOver_iff_regular.2 ((Poly.canonicalOver_iff_regular.1 hp).mul h.ringLaws.closed
        (Exponents.closed_length 1) (Poly.canonicalOver_iff_regular.1 hq))
    apply eq_of_residueClass_eq h hE (hresidue hunreduced) hproduct
    rw [hclass hunreduced, hrepresents.map_mul (hresidue hp) (hresidue hq), hclass hp, hclass hq,
      residueClass, Poly.exact_mul h hp hq hexact, map_mul]
    rfl
  case reduce_pow =>
    intro p n hp hexact
    have hpower := hrepresents.ringLaws.closed.pow (hresidue hp) n
    have hunreduced : Poly.CanonicalOver A K 1 ((E.ring A).pow p n) :=
      Poly.canonicalOver_iff_regular.2 (PolyRing.regular_pow (R := E.ring A) h.ringLaws.closed
        (Exponents.closed_length 1) (Poly.canonicalOver_iff_regular.1 hp) n)
    apply eq_of_residueClass_eq h hE (hresidue hunreduced) hpower
    rw [hclass hunreduced, hrepresents.map_pow (hresidue hp), hclass hp, residueClass,
      Poly.exact_pow h rfl rfl hp hexact, map_pow]
    rfl
  case reduce_modulus =>
    apply eq_of_residueClass_eq h hE (hresidue hE.modulus) hrepresents.zero_mem
    rw [hclass hE.modulus, hrepresents.map_zero]
    exact AdjoinRoot.mk_self
  case reduce_eq_iff =>
    intro p q hp hq
    rw [reduce_eq_iff h hone hE hp hq]
    exact AdjoinRoot.mk_eq_mk

omit h in
theorem defined_of_make {R : PolyRing α} {inverse : α → Except RingFault α}
    (hinverse : ∀ {a b : α}, K a → inverse a = .ok b → K b ∧ R.coefficients.mul a b = R.coefficients.one)
    {modulus : Poly α} (hmodulus : R.CanonicalPoly K modulus)
    (hmake : make R inverse modulus = .ok E) : E.Defined R.coefficients K := by
  obtain ⟨hring, rfl, hdegree, lead, htop, hlead⟩ := inverse_of_make hmake
  have hcanonical : Poly.CanonicalOver R.coefficients K 1 E.modulus := by
    rw [← hring] at hmodulus
    exact hmodulus
  obtain ⟨terms, hterms, -⟩ := Poly.exists_terms_eq_append hcanonical.toCanonical htop
  obtain ⟨hin, hone⟩ := hinverse (hcanonical.coefficients ([E.degree], lead) (by simp [hterms])) hlead
  exact ⟨hcanonical, hdegree, hin, lead, htop, hone⟩

end Extension

/-- Every extension of a ring by a canonical polynomial whose degree is at most half the number of
words is the quotient by that polynomial. -/
def Arithmetic.ExtendsToQuotients {α S : Type} [CommRing S] (A : Arithmetic α) (K : α → Prop)
    (f : α → S) (inverse : α → Except RingFault α) : Prop :=
  ∀ (vars : List Text) (order : TermOrder) (modulus : Poly α) (E : Extension α),
    (PolyRing.mk A vars order).CanonicalPoly K modulus →
    Extension.make ⟨A, vars, order⟩ inverse modulus = .ok E →
    E.degree.toNat ≤ 2 ^ 63 → E.IsQuotient A K f

theorem Arithmetic.Represents.extendsToQuotients {α S : Type} [CommRing S] {A : Arithmetic α}
    {K : α → Prop} {f : α → S} {inverse : α → Except RingFault α} (h : A.Represents K f)
    (hone : A.one ≠ A.zero)
    (hinverse : ∀ {a b : α}, K a → inverse a = .ok b → K b ∧ A.mul a b = A.one) :
    A.ExtendsToQuotients K f inverse := by
  intro vars order modulus E hmodulus hmake hdegree
  exact Extension.isQuotient h hone (Extension.defined_of_make hinverse hmodulus hmake) hdegree

/-- Rational numbers stand for themselves. -/
theorem Rational.represents : Rational.arithmetic.Represents AnyElement (id : Rat → Rat) where
  zero_mem := trivial
  one_mem := trivial
  add_mem _ _ := trivial
  mul_mem _ _ := trivial
  neg_mem _ := trivial
  injective _ _ heq := heq
  map_zero := rfl
  map_one := rfl
  map_add _ _ := rfl
  map_mul _ _ := rfl
  map_neg _ := rfl

/-- The inverse of a residue in a machine word. -/
theorem WordModulus.mul_inverse (m : WordModulus) {a b : UInt64} (h : m.inverse a = .ok b) :
    m.Reduced b ∧ m.arithmetic.mul a b = m.arithmetic.one := by
  unfold inverse Residue.invert at h
  split at h
  · rename_i c hc
    obtain ⟨hlt, hone⟩ := Residue.mul_inverse m.two_le hc
    obtain rfl : UInt64.ofNat c = b := Except.ok.inj h
    have hword : (UInt64.ofNat c).toNat = c :=
      UInt64.toNat_ofNat_of_lt' (Nat.lt_trans hlt m.value.toNat_lt)
    have hproduct : a.toNat * c % m.value.toNat = 1 := by exact_mod_cast hone
    constructor
    · rwa [Reduced, hword]
    · apply UInt64.toNat.inj
      rw [show m.arithmetic.mul a (UInt64.ofNat c) = m.mul a (UInt64.ofNat c) from rfl, m.toNat_mul,
        hword, hproduct]
      rfl
  · contradiction

/-- Extensions of the rational numbers and of residues, with a prime or a composite modulus, are
quotient rings. -/
theorem extensions_are_quotients :
    Rational.arithmetic.ExtendsToQuotients AnyElement (id : Rat → Rat) Rational.inverse ∧
    (∀ m : WordModulus, m.arithmetic.ExtendsToQuotients m.Reduced
      (fun a => (a.toNat : ZMod m.value.toNat)) m.inverse) ∧
    (∀ m : BigModulus, m.arithmetic.ExtendsToQuotients m.Reduced
      (fun a => (a : ZMod m.value)) m.inverse) := by
  refine ⟨?_, fun m => ?_, fun m => ?_⟩
  · exact Rational.represents.extendsToQuotients (show (1 : Rat) ≠ 0 by decide)
      fun _ hb => ⟨trivial, Rational.mul_inverse hb⟩
  · exact m.represents.extendsToQuotients (show (1 : UInt64) ≠ 0 by decide)
      fun _ hb => m.mul_inverse hb
  · exact m.represents.extendsToQuotients (show (1 : Int) ≠ 0 by decide)
      fun _ hb => m.mul_inverse hb

/-- Residues modulo six have zero divisors and the defining polynomial `5 a^2 + 1` is not monic; the
cube of the generator and its square are computed modulo it all the same. -/
theorem extension_mod_six_is_quotient :
    let m : WordModulus := ⟨6, by decide⟩
    let modulus : Poly UInt64 := ⟨[([0], 1), ([2], 5)]⟩
    let E : Extension UInt64 := ⟨['a'], {}, modulus, 2, 5⟩
    let cube : Poly UInt64 := .monomial m.arithmetic [3] m.arithmetic.one
    Extension.make ⟨m.arithmetic, [['a']], {}⟩ m.inverse modulus = .ok E ∧
      E.IsQuotient m.arithmetic m.Reduced (fun a => (a.toNat : ZMod m.value.toNat)) ∧
      E.reduce m.arithmetic (Poly.mul m.arithmetic cube cube) =
        (E.arithmetic m.arithmetic).mul (E.reduce m.arithmetic cube) (E.reduce m.arithmetic cube) := by
  intro m modulus E cube
  have hmake : Extension.make ⟨m.arithmetic, [['a']], {}⟩ m.inverse modulus = .ok E := by decide +kernel
  have hmodulus : (PolyRing.mk m.arithmetic [['a']] {}).CanonicalPoly m.Reduced modulus :=
    ⟨⟨by decide, by decide, by decide⟩, by decide⟩
  have hquotient := extensions_are_quotients.2.1 m [['a']] {} modulus E hmodulus hmake (by decide)
  have hcube : (E.ring m.arithmetic).CanonicalPoly m.Reduced cube :=
    Poly.canonicalOver_iff_regular.2 (Poly.regular_monomial rfl m.represents.one_mem)
  refine ⟨hmake, hquotient, hquotient.reduce_mul hcube hcube ?_⟩
  have hthree : (cube.exact fun a => (a.toNat : ZMod m.value.toNat)).natDegree ≤ 3 := by
    rw [Poly.exact_monomial m.represents]
    exact Polynomial.natDegree_monomial_le _
  have hsix := Polynomial.natDegree_mul_le_of_le hthree hthree
  exact Nat.lt_of_le_of_lt hsix (by decide)

end PolynomialText
