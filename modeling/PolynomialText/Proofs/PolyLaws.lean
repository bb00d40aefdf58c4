import PolynomialText.PolyRing.AsCoefficients
import PolynomialText.Proofs.NumberLaws
import Mathlib.Algebra.MonoidAlgebra.Basic

/-!
# Polynomials over a ring form a ring

The terms of a polynomial are a way to store an element of a monoid algebra: the finite sums of
monomials over the exponent vectors of one length, which form a commutative monoid although their
sums are clamped. Adding a term to a list of terms adds a monomial to the element that the list
stores, whether the term is new, merges with another one or cancels it. So the element stored after
any number of additions depends on the multiset of the terms only. A canonical polynomial is
determined by the element that it stores, and the laws of the algebra hold for polynomials.
-/

namespace PolynomialText

variable {α : Type}

/-- An exponent vector of a given length. -/
@[ext]
structure Exponents.OfLength (nvars : Nat) where
  vector : Exponents
  length_eq : vector.length = nvars

namespace Exponents

/-- Sums of exponent vectors do not depend on how they are bracketed. -/
theorem add_assoc (a b c : Exponents) : (a.add b).add c = a.add (b.add c) := by
  simp only [add]
  induction a generalizing b c with
  | nil => rfl
  | cons x a ih =>
    cases b with
    | nil => rfl
    | cons y b =>
      cases c with
      | nil => rfl
      | cons z c => simp only [List.zipWith_cons_cons, clampAdd_assoc, ih]

/-- The order of two exponent vectors does not matter for their sum. -/
theorem add_comm (a b : Exponents) : a.add b = b.add a :=
  List.zipWith_comm_of_comm clampAdd_comm

/-- The exponents of the monomial one change nothing. -/
theorem zero_add (e : Exponents) : (zero e.length).add e = e := by
  induction e with
  | nil => rfl
  | cons x e ih =>
    have hx : clampAdd 0 x = x := by rw [clampAdd_comm, clampAdd_zero]
    simp only [zero, add] at ih ⊢
    rw [List.length_cons, List.replicate_succ, List.zipWith_cons_cons, hx, ih]

instance (nvars : Nat) : Add (OfLength nvars) :=
  ⟨fun a b => ⟨a.vector.add b.vector, (closed_length nvars).add a.length_eq b.length_eq⟩⟩

instance (nvars : Nat) : Zero (OfLength nvars) := ⟨⟨zero nvars, (closed_length nvars).zero⟩⟩

/-- The exponent vectors of one length form a commutative monoid. -/
instance (nvars : Nat) : AddCommMonoid (OfLength nvars) where
  add_assoc a b c := OfLength.ext (add_assoc a.vector b.vector c.vector)
  zero_add := by
    rintro ⟨e, rfl⟩
    exact OfLength.ext (zero_add e)
  add_zero := by
    rintro ⟨e, rfl⟩
    exact OfLength.ext ((add_comm e _).trans (zero_add e))
  add_comm a b := OfLength.ext (add_comm a.vector b.vector)
  nsmul := nsmulRec

end Exponents

namespace Poly

variable {A : Arithmetic α} {C : α → Prop} (h : A.RingLaws C) (nvars : Nat)

open Exponents (OfLength)

/-- The algebra of finite sums of monomials with canonical coefficients. -/
abbrev Algebra : Type := AddMonoidAlgebra h.Carrier (OfLength nvars)

/-- A term that may stand in a canonical polynomial. -/
structure Fits (C : α → Prop) (nvars : Nat) (t : Exponents × α) : Prop where
  length_eq : t.1.length = nvars
  mem : C t.2

open Classical in
/-- The monomial that a term stores. -/
noncomputable def termValue (t : Exponents × α) : Algebra h nvars :=
  if ht : Fits C nvars t then .single ⟨t.1, ht.1⟩ (h.of ht.2) else 0

/-- The element that a list of terms stores. -/
noncomputable def value (terms : List (Exponents × α)) : Algebra h nvars :=
  (terms.map (termValue h nvars)).sum

variable {h nvars}

theorem termValue_of_fits {t : Exponents × α} (ht : Fits C nvars t) :
    termValue h nvars t = .single ⟨t.1, ht.1⟩ (h.of ht.2) := dif_pos ht

@[simp] theorem value_nil : value h nvars [] = 0 := rfl

@[simp] theorem value_cons (t : Exponents × α) (terms : List (Exponents × α)) :
    value h nvars (t :: terms) = termValue h nvars t + value h nvars terms := rfl

/-- A zero coefficient stores nothing. -/
theorem termValue_of_eq_zero {t : Exponents × α} (ht : t.2 = A.zero) : termValue h nvars t = 0 := by
  by_cases hfits : Fits C nvars t
  · rw [termValue_of_fits hfits, (h.of_eq_zero_iff hfits.2).2 ht, AddMonoidAlgebra.single_zero]
  · exact dif_neg hfits

/-- Two terms with the same exponents store what their sum stores. -/
theorem termValue_add {e : Exponents} {c d : α} (hc : Fits C nvars (e, c)) (hd : Fits C nvars (e, d)) :
    termValue h nvars (e, A.add c d) = termValue h nvars (e, c) + termValue h nvars (e, d) := by
  have hsum : Fits C nvars (e, A.add c d) := ⟨hc.1, h.add_mem hc.2 hd.2⟩
  rw [termValue_of_fits hsum, termValue_of_fits hc, termValue_of_fits hd,
    ← AddMonoidAlgebra.single_add, ← h.of_add]

/-- The product of two terms stores the product of the monomials. -/
theorem termValue_mulTerm {s t : Exponents × α} (hs : Fits C nvars s) (ht : Fits C nvars t) :
    termValue h nvars (mulTerm A s t) = termValue h nvars s * termValue h nvars t := by
  have hproduct : Fits C nvars (mulTerm A s t) :=
    ⟨(Exponents.closed_length nvars).add hs.1 ht.1, h.mul_mem hs.2 ht.2⟩
  rw [termValue_of_fits hproduct, termValue_of_fits hs, termValue_of_fits ht,
    AddMonoidAlgebra.single_mul_single]
  rfl

/-- Inserting a term adds its monomial, also where it merges or cancels. -/
theorem value_insertTerm {e : Exponents} {c : α} (hc : Fits C nvars (e, c))
    {terms : List (Exponents × α)} (hterms : ∀ t ∈ terms, Fits C nvars t) :
    value h nvars (insertTerm A e c terms) = value h nvars terms + termValue h nvars (e, c) := by
  induction terms with
  | nil => simp [insertTerm]
  | cons head rest ih =>
    obtain ⟨f, d⟩ := head
    have hd : Fits C nvars (f, d) := hterms _ List.mem_cons_self
    have hrest : ∀ t ∈ rest, Fits C nvars t := fun t ht => hterms t (List.mem_cons_of_mem _ ht)
    rw [insertTerm]
    split
    · rw [value_cons, AddCommMonoid.add_comm]
    · rename_i heq
      obtain rfl : e = f := Std.LawfulEqCmp.eq_of_compare heq
      have hsum := termValue_add (h := h) hd hc
      dsimp only
      split
      · rename_i hzero
        have hcancel : termValue h nvars (e, d) + termValue h nvars (e, c) = 0 := by
          rw [← hsum, termValue_of_eq_zero (A.isZero_eq_true_iff.1 hzero)]
        rw [value_cons, add_right_comm, hcancel, zero_add]
      · rw [value_cons, value_cons, hsum, add_right_comm]
    · rw [value_cons, value_cons, ih hrest, add_assoc]

/-- Adding a term adds its monomial. -/
theorem value_addTerm {t : Exponents × α} (ht : Fits C nvars t) {terms : List (Exponents × α)}
    (hterms : ∀ s ∈ terms, Fits C nvars s) :
    value h nvars (addTerm A terms t) = value h nvars terms + termValue h nvars t := by
  unfold addTerm
  split
  · rename_i hzero
    rw [termValue_of_eq_zero (A.isZero_eq_true_iff.1 hzero), add_zero]
  · exact value_insertTerm ht hterms

/-- Terms that are added stay among the terms that fit. -/
theorem fits_addTerm (h : A.RingLaws C) {t : Exponents × α} (ht : Fits C nvars t)
    {terms : List (Exponents × α)} (hterms : ∀ s ∈ terms, Fits C nvars s) :
    ∀ s ∈ addTerm A terms t, Fits C nvars s := by
  unfold addTerm
  split
  · exact hterms
  · intro s hs
    rcases mem_insertTerm hs with hold | rfl | ⟨d, hmem, _, rfl⟩
    · exact hterms s hold
    · exact ht
    · exact ⟨ht.1, h.add_mem (hterms _ hmem).2 ht.2⟩

/-- Adding terms one after another adds all their monomials, in any order. -/
theorem value_foldl_addTerm {start terms : List (Exponents × α)}
    (hstart : ∀ t ∈ start, Fits C nvars t) (hterms : ∀ t ∈ terms, Fits C nvars t) :
    value h nvars (terms.foldl (addTerm A) start) = value h nvars start + value h nvars terms := by
  induction terms generalizing start with
  | nil => simp
  | cons t rest ih =>
    have ht := hterms t List.mem_cons_self
    have hrest : ∀ s ∈ rest, Fits C nvars s := fun s hs => hterms s (List.mem_cons_of_mem _ hs)
    rw [List.foldl_cons, ih (fits_addTerm h ht hstart) hrest, value_addTerm ht hstart, value_cons,
      add_assoc]

/-- The terms of a canonical polynomial fit. -/
theorem CanonicalOver.fits {p : Poly α} (hp : CanonicalOver A C nvars p) :
    ∀ t ∈ p.terms, Fits C nvars t :=
  fun t ht => ⟨hp.length t ht, hp.coefficients t ht⟩

/-- A sum stores the sum of what is stored. -/
theorem value_add {p q : Poly α} (hp : CanonicalOver A C nvars p) (hq : CanonicalOver A C nvars q) :
    value h nvars (add A p q).terms = value h nvars p.terms + value h nvars q.terms :=
  value_foldl_addTerm hp.fits hq.fits

/-- A negative stores the negative of what is stored. -/
theorem value_neg {p : Poly α} (hp : CanonicalOver A C nvars p) :
    value h nvars (neg A p).terms = -value h nvars p.terms := by
  have hterm : ∀ t ∈ p.terms, termValue h nvars (t.1, A.neg t.2) = -termValue h nvars t := by
    intro t ht
    have hfits := hp.fits t ht
    have hneg : Fits C nvars (t.1, A.neg t.2) := ⟨hfits.length_eq, h.neg_mem hfits.mem⟩
    rw [termValue_of_fits hneg, termValue_of_fits hfits, ← AddMonoidAlgebra.single_neg,
      ← h.of_neg hfits.mem]
  simp only [value, neg, List.map_map]
  rw [List.sum_neg, List.map_map]
  exact congrArg List.sum (List.map_congr_left hterm)

/-- All products of terms of two lists store the product of what the lists store. -/
theorem value_products {ps qs : List (Exponents × α)} (hps : ∀ t ∈ ps, Fits C nvars t)
    (hqs : ∀ t ∈ qs, Fits C nvars t) :
    value h nvars (ps.flatMap fun s => qs.map fun t => mulTerm A s t) =
      value h nvars ps * value h nvars qs := by
  induction ps with
  | nil => simp
  | cons s rest ih =>
    have hrow : value h nvars (qs.map fun t => mulTerm A s t) =
        termValue h nvars s * value h nvars qs := by
      simp only [value, List.map_map]
      rw [← List.sum_map_mul_left]
      exact congrArg List.sum (List.map_congr_left fun t ht =>
        termValue_mulTerm (hps s List.mem_cons_self) (hqs t ht))
    have hrest := ih fun t ht => hps t (List.mem_cons_of_mem _ ht)
    rw [List.flatMap_cons, value_cons, add_mul, ← hrow, ← hrest]
    simp [value]

/-- A product stores the product of what is stored. -/
theorem value_mul {p q : Poly α} (hp : CanonicalOver A C nvars p) (hq : CanonicalOver A C nvars q) :
    value h nvars (mul A p q).terms = value h nvars p.terms * value h nvars q.terms := by
  have hfits : ∀ t ∈ p.terms.flatMap fun s => q.terms.map fun t => mulTerm A s t,
      Fits C nvars t := by
    intro t ht
    obtain ⟨s, hs, hmap⟩ := List.mem_flatMap.1 ht
    obtain ⟨u, hu, rfl⟩ := List.mem_map.1 hmap
    exact ⟨(Exponents.closed_length nvars).add (hp.length s hs) (hq.length u hu),
      h.mul_mem (hp.coefficients s hs) (hq.coefficients u hu)⟩
  rw [mul, ofTerms, value_foldl_addTerm (fun _ hnil => absurd hnil List.not_mem_nil) hfits,
    value_products hp.fits hq.fits, value_nil, zero_add]

/-- A monomial stores itself. -/
theorem value_monomial {e : Exponents} {c : α} :
    value h nvars (monomial A e c).terms = termValue h nvars (e, c) := by
  unfold monomial
  split
  · rename_i hzero
    exact (termValue_of_eq_zero (A.isZero_eq_true_iff.1 hzero)).symm
  · rw [value_cons, value_nil, add_zero]

/-- What is stored of a monomial that no term has is zero. -/
theorem coeff_value_of_forall_ne {e : Exponents} (he : e.length = nvars)
    {terms : List (Exponents × α)} (hfits : ∀ t ∈ terms, Fits C nvars t)
    (hne : ∀ t ∈ terms, t.1 ≠ e) : (value h nvars terms).coeff ⟨e, he⟩ = 0 := by
  induction terms with
  | nil => rfl
  | cons t rest ih =>
    have hrest := ih (fun s hs => hfits s (List.mem_cons_of_mem _ hs))
      (fun s hs => hne s (List.mem_cons_of_mem _ hs))
    have ht : (⟨t.1, (hfits t List.mem_cons_self).length_eq⟩ : OfLength nvars) ≠ ⟨e, he⟩ := by
      intro heq
      exact hne t List.mem_cons_self (congrArg OfLength.vector heq)
    rw [value_cons, AddMonoidAlgebra.coeff_add, Finsupp.add_apply, hrest, add_zero,
      termValue_of_fits (hfits t List.mem_cons_self), AddMonoidAlgebra.coeff_single,
      Finsupp.single_eq_of_ne ht.symm]

/-- What is stored of the monomial of a term is the coefficient of the term. -/
theorem coeff_value_of_mem {t : Exponents × α} {terms : List (Exponents × α)}
    (hfits : ∀ s ∈ terms, Fits C nvars s)
    (hascending : terms.Pairwise fun r s => r.1.cmp s.1 = .lt) (ht : t ∈ terms) :
    (value h nvars terms).coeff ⟨t.1, (hfits t ht).length_eq⟩ = h.of (hfits t ht).mem := by
  induction terms with
  | nil => exact absurd ht List.not_mem_nil
  | cons head rest ih =>
    have hrest : ∀ s ∈ rest, Fits C nvars s := fun s hs => hfits s (List.mem_cons_of_mem _ hs)
    obtain ⟨hhead, hpairwise⟩ := List.pairwise_cons.1 hascending
    have hdistinct : ∀ s ∈ rest, s.1 ≠ head.1 := by
      intro s hs heq
      exact head.1.not_cmp_self_lt (heq ▸ hhead s hs)
    rw [value_cons, AddMonoidAlgebra.coeff_add, Finsupp.add_apply,
      termValue_of_fits (hfits head List.mem_cons_self), AddMonoidAlgebra.coeff_single]
    rcases List.mem_cons.1 ht with rfl | hmem
    · rw [coeff_value_of_forall_ne _ hrest hdistinct, add_zero, Finsupp.single_eq_same]
    · have hne : (⟨head.1, (hfits head List.mem_cons_self).length_eq⟩ : OfLength nvars) ≠
          ⟨t.1, (hfits t ht).length_eq⟩ := by
        intro heq
        exact hdistinct t hmem (congrArg OfLength.vector heq).symm
      rw [ih hrest hpairwise hmem, Finsupp.single_eq_of_ne hne.symm, zero_add]

/-- Every term of a canonical polynomial is a term of a canonical polynomial that stores the same. -/
theorem mem_terms_of_value_eq {p q : Poly α} (hp : CanonicalOver A C nvars p)
    (hq : CanonicalOver A C nvars q) (heq : value h nvars p.terms = value h nvars q.terms)
    {t : Exponents × α} (ht : t ∈ p.terms) : t ∈ q.terms := by
  have hstored := coeff_value_of_mem (h := h) hp.fits hp.ascending ht
  rw [heq] at hstored
  have hpresent : ∃ s ∈ q.terms, s.1 = t.1 := by
    by_contra hnone
    have hzero := coeff_value_of_forall_ne (h := h) (hp.fits t ht).length_eq hq.fits
      fun s hs heq' => hnone ⟨s, hs, heq'⟩
    rw [hstored, h.of_eq_zero_iff] at hzero
    exact hp.nonzero t ht hzero
  obtain ⟨⟨e, c⟩, hs, rfl⟩ := hpresent
  have hcoefficient := (coeff_value_of_mem (h := h) hq.fits hq.ascending hs).symm.trans hstored
  obtain rfl : c = t.2 := congrArg Arithmetic.RingLaws.Carrier.val hcoefficient
  exact hs

/-- Canonical polynomials with the same terms are equal, because both lists ascend. -/
theorem Canonical.eq_of_mem_iff {p q : Poly α} (hp : Canonical A nvars p) (hq : Canonical A nvars q)
    (hmem : ∀ t, t ∈ p.terms ↔ t ∈ q.terms) : p = q := by
  have hnodup : ∀ {r : Poly α}, Canonical A nvars r → r.terms.Nodup := by
    intro r hr
    refine hr.ascending.imp fun {s t} hlt heq => ?_
    exact t.1.not_cmp_self_lt (heq ▸ hlt)
  have hperm : p.terms.Perm q.terms := (List.perm_ext_iff_of_nodup (hnodup hp) (hnodup hq)).2 hmem
  have hasymm : ∀ s t : Exponents × α, s ∈ p.terms → t ∈ q.terms →
      s.1.cmp t.1 = .lt → t.1.cmp s.1 = .lt → s = t := fun s t _ _ hst hts =>
    absurd (Std.TransCmp.lt_trans hst hts) s.1.not_cmp_self_lt
  have hterms : p.terms = q.terms := hperm.eq_of_pairwise hasymm hp.ascending hq.ascending
  obtain ⟨terms⟩ := p
  exact congrArg Poly.mk hterms

/-- Canonical polynomials that store the same element are equal. -/
theorem eq_of_value_eq {p q : Poly α} (hp : CanonicalOver A C nvars p)
    (hq : CanonicalOver A C nvars q) (heq : value h nvars p.terms = value h nvars q.terms) :
    p = q :=
  hp.toCanonical.eq_of_mem_iff hq.toCanonical fun _ =>
    ⟨mem_terms_of_value_eq hp hq heq, mem_terms_of_value_eq hq hp heq.symm⟩

/-- Dropping zero coefficients changes nothing that is stored. -/
theorem value_filter (terms : List (Exponents × α)) :
    value h nvars (terms.filter fun t => !A.isZero t.2) = value h nvars terms := by
  induction terms with
  | nil => rfl
  | cons t rest ih =>
    by_cases hzero : A.isZero t.2 = true
    · rw [List.filter_cons_of_neg (by simp [hzero]), ih, value_cons,
        termValue_of_eq_zero (A.isZero_eq_true_iff.1 hzero), zero_add]
    · rw [List.filter_cons_of_pos (by simp [hzero]), value_cons, value_cons, ih]

/-- A multiple by a coefficient stores the product with the constant. -/
theorem value_scale {p : Poly α} (hp : CanonicalOver A C nvars p) {c : α} (hc : C c) :
    value h nvars (scale A p c).terms =
      value h nvars p.terms * termValue h nvars (.zero nvars, c) := by
  have hconstant : Fits C nvars (.zero nvars, c) := ⟨(Exponents.closed_length nvars).zero, hc⟩
  have hterm : ∀ t ∈ p.terms, termValue h nvars (t.1, A.mul t.2 c) =
      termValue h nvars t * termValue h nvars (.zero nvars, c) := by
    intro t ht
    have hlength : t.1.length = nvars := hp.length t ht
    have hexponents : t.1.add (.zero nvars) = t.1 := by
      rw [Exponents.add_comm, ← hlength, Exponents.zero_add]
    rw [← termValue_mulTerm (hp.fits t ht) hconstant, mulTerm, hexponents]
  rw [scale, value_filter]
  simp only [value, List.map_map]
  rw [← List.sum_map_mul_right]
  exact congrArg List.sum (List.map_congr_left hterm)

end Poly

namespace PolyRing

variable (R : PolyRing α) {C : α → Prop}

/-- The canonical polynomials of a ring: one exponent for each variable, no zero, and canonical
coefficients. -/
def CanonicalPoly (C : α → Prop) (p : Poly α) : Prop :=
  Poly.CanonicalOver R.coefficients C R.nvars p

variable {R}

/-- A canonical coefficient is a canonical polynomial. -/
theorem canonicalPoly_constant {c : α} (hc : C c) : R.CanonicalPoly C (R.constant c) :=
  Poly.canonicalOver_iff_regular.2 (regular_constant (Exponents.closed_length _) hc)

section

variable (h : R.coefficients.RingLaws C)
include h

/-- Canonical polynomials stand for the elements of a monoid algebra. -/
theorem represents :
    R.arithmetic.Represents (R.CanonicalPoly C) fun p => Poly.value h R.nvars p.terms where
  zero_mem := Poly.canonicalOver_iff_regular.2 Poly.regular_zero
  one_mem := canonicalPoly_constant h.one_mem
  add_mem hp hq := Poly.canonicalOver_iff_regular.2
    ((Poly.canonicalOver_iff_regular.1 hp).add h.closed (Poly.canonicalOver_iff_regular.1 hq))
  mul_mem hp hq := Poly.canonicalOver_iff_regular.2
    ((Poly.canonicalOver_iff_regular.1 hp).mul h.closed (Exponents.closed_length _)
      (Poly.canonicalOver_iff_regular.1 hq))
  neg_mem hp := Poly.canonicalOver_iff_regular.2
    ((Poly.canonicalOver_iff_regular.1 hp).neg h.closed)
  injective hp hq heq := Poly.eq_of_value_eq hp hq heq
  map_zero := rfl
  map_one := by
    have hone : Poly.Fits C R.nvars (.zero R.nvars, R.coefficients.one) :=
      ⟨(Exponents.closed_length _).zero, h.one_mem⟩
    exact Poly.value_monomial.trans (Poly.termValue_of_fits hone)
  map_add hp hq := Poly.value_add hp hq
  map_mul hp hq := Poly.value_mul hp hq
  map_neg hp := Poly.value_neg hp

/-- Canonical polynomials over a ring form a ring. -/
theorem ringLaws : R.arithmetic.RingLaws (R.CanonicalPoly C) := (represents h).ringLaws

/-- A multiple by a coefficient is the product with the constant. -/
theorem scale_eq_mul_constant {p : Poly α} (hp : R.CanonicalPoly C p) {c : α} (hc : C c) :
    p.scale R.coefficients c = R.arithmetic.mul p (R.constant c) := by
  have hconstant := canonicalPoly_constant (R := R) hc
  have hscale : R.CanonicalPoly C (p.scale R.coefficients c) :=
    Poly.canonicalOver_iff_regular.2 ((Poly.canonicalOver_iff_regular.1 hp).scale h.closed hc)
  apply Poly.eq_of_value_eq (h := h) hscale ((ringLaws h).mul_mem hp hconstant)
  rw [Poly.value_scale hp hc, (represents h).map_mul hp hconstant]
  exact congrArg _ Poly.value_monomial.symm

/-- Products of polynomials commute if products of coefficients do. -/
theorem commutes (hcomm : R.coefficients.Commutes C) :
    R.arithmetic.Commutes (R.CanonicalPoly C) := by
  apply (represents h).commutes
  intro x y
  let _ : CommRing h.Carrier :=
    { (inferInstance : Ring h.Carrier) with
      mul_comm := fun a b => Arithmetic.RingLaws.Carrier.ext (hcomm a.mem b.mem) }
  exact mul_comm x y

end

/-- Polynomials over an associative ring form an associative ring with clamped exponents: every
axiom holds as an equality of the stored terms, products commute if those of coefficients do, and
scaling is the product with a constant. -/
theorem polynomials_form_ring (R : PolyRing α) (C : α → Prop) (h : R.coefficients.RingLaws C) :
    R.arithmetic.RingLaws (R.CanonicalPoly C) ∧
      (R.coefficients.Commutes C → R.arithmetic.Commutes (R.CanonicalPoly C)) ∧
      ∀ {p : Poly α} {c : α}, R.CanonicalPoly C p → C c →
        p.scale R.coefficients c = R.arithmetic.mul p (R.constant c) :=
  ⟨ringLaws h, commutes h, fun hp hc => scale_eq_mul_constant h hp hc⟩

/-- Residues modulo six have zero divisors; polynomials over them in two variables form a
commutative ring all the same. -/
theorem polynomials_mod_six_form_ring :
    let m : WordModulus := ⟨6, by decide⟩
    let R : PolyRing UInt64 := ⟨m.arithmetic, [['x'], ['y']], {}⟩
    (m.arithmetic.RingLaws m.Reduced ∧ m.arithmetic.Commutes m.Reduced) ∧
      R.arithmetic.RingLaws (R.CanonicalPoly m.Reduced) ∧
      R.arithmetic.Commutes (R.CanonicalPoly m.Reduced) ∧
      (R.constant 2).scale m.arithmetic 3 = R.arithmetic.mul (R.constant 2) (R.constant 3) := by
  intro m R
  have hlaws : m.arithmetic.RingLaws m.Reduced := m.represents.ringLaws
  have hcomm : m.arithmetic.Commutes m.Reduced := m.represents.commutes mul_comm
  have hring := polynomials_form_ring R m.Reduced hlaws
  have htwo : m.Reduced 2 := by decide
  have hthree : m.Reduced 3 := by decide
  exact ⟨⟨hlaws, hcomm⟩, hring.1, hring.2.1 hcomm,
    hring.2.2 (canonicalPoly_constant htwo) hthree⟩

end PolyRing

end PolynomialText
