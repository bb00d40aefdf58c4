import Mathlib.Algebra.MonoidAlgebra.MapDomain
import PolynomialText.Proofs.PolyLaws

/-!
# Changing the coefficients

A map between rings of coefficients that keeps the operations on canonical elements carries over to
polynomials: every coefficient is mapped, and those that become zero are dropped. On what
polynomials store this is the map between the monoid algebras, so that it keeps sums, products,
multiples and powers, although terms may cancel in one ring and stay in the other. A map that tells
elements apart keeps all terms, and the text if it keeps how coefficients are written.
-/

namespace PolynomialText

variable {α β : Type}

/-- A map between canonical elements that keeps the operations. -/
structure Arithmetic.Maps (A : Arithmetic α) (C : α → Prop) (B : Arithmetic β) (D : β → Prop)
    (φ : α → β) : Prop where
  mem : ∀ {a : α}, C a → D (φ a)
  map_zero : φ A.zero = B.zero
  map_one : φ A.one = B.one
  map_add : ∀ {a b : α}, C a → C b → φ (A.add a b) = B.add (φ a) (φ b)
  map_mul : ∀ {a b : α}, C a → C b → φ (A.mul a b) = B.mul (φ a) (φ b)
  map_neg : ∀ {a : α}, C a → φ (A.neg a) = B.neg (φ a)

namespace Arithmetic.Maps

variable {A : Arithmetic α} {C : α → Prop} {B : Arithmetic β} {D : β → Prop} {φ : α → β}

/-- The map as one between rings. -/
def hom (hφ : A.Maps C B D φ) (h : A.RingLaws C) (k : B.RingLaws D) : h.Carrier →+* k.Carrier where
  toFun a := ⟨φ a.val, hφ.mem a.mem⟩
  map_zero' := RingLaws.Carrier.ext hφ.map_zero
  map_one' := RingLaws.Carrier.ext hφ.map_one
  map_add' a b := RingLaws.Carrier.ext (hφ.map_add a.mem b.mem)
  map_mul' a b := RingLaws.Carrier.ext (hφ.map_mul a.mem b.mem)

/-- Powers are kept. -/
theorem map_pow (hφ : A.Maps C B D φ) (h : A.RingLaws C) {a : α} (ha : C a) (exponent : UInt64) :
    φ (A.pow a exponent) = B.pow (φ a) exponent := by
  have hmul : ∀ {a b : α} {x y : β}, C a ∧ φ a = x → C b ∧ φ b = y →
      C (A.mul a b) ∧ φ (A.mul a b) = B.mul x y := by
    rintro a b x y ⟨ha, rfl⟩ ⟨hb, rfl⟩
    exact ⟨h.mul_mem ha hb, hφ.map_mul ha hb⟩
  exact (powerFrom_rel (R := fun a x => C a ∧ φ a = x) hmul 64 ⟨h.one_mem, hφ.map_one⟩ ⟨ha, rfl⟩
    exponent.toNat).2

end Arithmetic.Maps

/-- A polynomial with changed coefficients; those that become zero are dropped. -/
def Poly.change (B : Arithmetic β) (φ : α → β) (p : Poly α) : Poly β :=
  ⟨(p.terms.map fun term => (term.1, φ term.2)).filter fun term => !B.isZero term.2⟩

namespace Poly

/-! ### Operations on canonical polynomials -/

namespace CanonicalOver

variable {A : Arithmetic α} {C : α → Prop} {nvars : Nat} {p q : Poly α}

theorem add (hp : CanonicalOver A C nvars p) (h : A.RingLaws C) (hq : CanonicalOver A C nvars q) :
    CanonicalOver A C nvars (Poly.add A p q) :=
  canonicalOver_iff_regular.2
    ((canonicalOver_iff_regular.1 hp).add h.closed (canonicalOver_iff_regular.1 hq))

theorem mul (hp : CanonicalOver A C nvars p) (h : A.RingLaws C) (hq : CanonicalOver A C nvars q) :
    CanonicalOver A C nvars (Poly.mul A p q) :=
  canonicalOver_iff_regular.2
    ((canonicalOver_iff_regular.1 hp).mul h.closed (Exponents.closed_length nvars)
      (canonicalOver_iff_regular.1 hq))

theorem neg (hp : CanonicalOver A C nvars p) (h : A.RingLaws C) :
    CanonicalOver A C nvars (Poly.neg A p) :=
  canonicalOver_iff_regular.2 ((canonicalOver_iff_regular.1 hp).neg h.closed)

theorem scale (hp : CanonicalOver A C nvars p) (h : A.RingLaws C) {c : α} (hc : C c) :
    CanonicalOver A C nvars (Poly.scale A p c) :=
  canonicalOver_iff_regular.2 ((canonicalOver_iff_regular.1 hp).scale h.closed hc)

end CanonicalOver

/-! ### The change of the coefficients keeps the operations -/

section

variable {A : Arithmetic α} {C : α → Prop} {B : Arithmetic β} {D : β → Prop} {φ : α → β}
  (hφ : A.Maps C B D φ) {nvars : Nat}

/-- The terms after a change of the coefficients. -/
theorem mem_change {p : Poly α} {term : Exponents × β} (h : term ∈ (p.change B φ).terms) :
    term.2 ≠ B.zero ∧ ∃ t ∈ p.terms, (t.1, φ t.2) = term := by
  obtain ⟨hmap, hzero⟩ := List.mem_filter.1 h
  refine ⟨fun heq => ?_, List.mem_map.1 hmap⟩
  simp [B.isZero_eq_true_iff.2 heq] at hzero

include hφ

/-- A monomial becomes a monomial, or nothing. -/
theorem change_monomial (e : Exponents) (c : α) :
    (monomial A e c).change B φ = monomial B e (φ c) := by
  have hmono : ∀ terms : List (Exponents × α), (Poly.mk terms).change B φ =
      ⟨(terms.map fun term => (term.1, φ term.2)).filter fun term => !B.isZero term.2⟩ := fun _ => rfl
  unfold monomial
  rw [hmono]
  by_cases hzero : A.isZero c = true
  · have hmapped : B.isZero (φ c) = true := by
      rw [A.isZero_eq_true_iff.1 hzero, hφ.map_zero]
      exact B.isZero_eq_true_iff.2 rfl
    simp [hzero, hmapped]
  · by_cases hmapped : B.isZero (φ c) = true <;> simp [hzero, hmapped]

/-- A canonical polynomial stays canonical. -/
theorem CanonicalOver.change {p : Poly α} (hp : CanonicalOver A C nvars p) :
    CanonicalOver B D nvars (p.change B φ) := by
  refine canonicalOver_iff_regular.2
    ⟨(List.pairwise_map.2 hp.ascending).filter _, fun term h => (mem_change h).1, ?_, ?_⟩
  all_goals
    intro term hterm
    obtain ⟨-, t, ht, rfl⟩ := mem_change hterm
  · exact hp.length t ht
  · exact hφ.mem (hp.coefficients t ht)

variable (h : A.RingLaws C) (k : B.RingLaws D)

/-- The monomial of a term is mapped. -/
theorem termValue_change {t : Exponents × α} (ht : Fits C nvars t) :
    termValue k nvars (t.1, φ t.2) =
      AddMonoidAlgebra.mapRingHom _ (hφ.hom h k) (termValue h nvars t) := by
  have hmapped : Fits D nvars (t.1, φ t.2) := ⟨ht.length_eq, hφ.mem ht.mem⟩
  rw [termValue_of_fits ht, termValue_of_fits hmapped, AddMonoidAlgebra.mapRingHom_single]
  rfl

/-- What is stored is mapped. -/
theorem value_change {p : Poly α} (hp : CanonicalOver A C nvars p) :
    value k nvars (p.change B φ).terms =
      AddMonoidAlgebra.mapRingHom _ (hφ.hom h k) (value h nvars p.terms) := by
  rw [change, value_filter]
  simp only [value, List.map_map]
  rw [map_list_sum, List.map_map]
  exact congrArg List.sum (List.map_congr_left fun t ht => termValue_change hφ h k (hp.fits t ht))

/-- Polynomials that store what the changed polynomial stores are the changed polynomial. -/
theorem change_eq_of_value {p : Poly α} (hp : CanonicalOver A C nvars p) {q : Poly β}
    (hq : CanonicalOver B D nvars q)
    (hvalue : AddMonoidAlgebra.mapRingHom _ (hφ.hom h k) (value h nvars p.terms) =
      value k nvars q.terms) : p.change B φ = q :=
  eq_of_value_eq (hp.change hφ) hq ((value_change hφ h k hp).trans hvalue)

variable {p q : Poly α} (hp : CanonicalOver A C nvars p) (hq : CanonicalOver A C nvars q)
include h k hp

/-- The negative of a changed polynomial. -/
theorem change_neg : (neg A p).change B φ = neg B (p.change B φ) := by
  apply change_eq_of_value hφ h k (hp.neg h) ((hp.change hφ).neg k)
  rw [value_neg hp, map_neg, value_neg (hp.change hφ), value_change hφ h k hp]

/-- The multiple of a changed polynomial by a changed coefficient. -/
theorem change_scale {c : α} (hc : C c) :
    (scale A p c).change B φ = scale B (p.change B φ) (φ c) := by
  have hconstant : Fits C nvars (.zero nvars, c) := ⟨(Exponents.closed_length nvars).zero, hc⟩
  apply change_eq_of_value hφ h k (hp.scale h hc) ((hp.change hφ).scale k (hφ.mem hc))
  rw [value_scale hp hc, map_mul, value_scale (hp.change hφ) (hφ.mem hc), value_change hφ h k hp,
    ← termValue_change hφ h k hconstant]

include hq

/-- The sum of changed polynomials. -/
theorem change_add : (add A p q).change B φ = add B (p.change B φ) (q.change B φ) := by
  apply change_eq_of_value hφ h k (hp.add h hq) ((hp.change hφ).add k (hq.change hφ))
  rw [value_add hp hq, map_add, value_add (hp.change hφ) (hq.change hφ), value_change hφ h k hp,
    value_change hφ h k hq]

/-- The product of changed polynomials. -/
theorem change_mul : (mul A p q).change B φ = mul B (p.change B φ) (q.change B φ) := by
  apply change_eq_of_value hφ h k (hp.mul h hq) ((hp.change hφ).mul k (hq.change hφ))
  rw [value_mul hp hq, map_mul, value_mul (hp.change hφ) (hq.change hφ), value_change hφ h k hp,
    value_change hφ h k hq]

end

end Poly

namespace PolyRing

variable {R : PolyRing α} {C : α → Prop} {S : PolyRing β} {D : β → Prop} {φ : α → β}

/-- The polynomial one becomes the polynomial one. -/
theorem change_one (hφ : R.coefficients.Maps C S.coefficients D φ) (hvars : S.vars = R.vars) :
    R.one.change S.coefficients φ = S.one := by
  rw [one, constant, Poly.change_monomial hφ, hφ.map_one, one, constant, nvars, nvars, hvars]

/-- A power of a variable becomes the power of the variable. -/
theorem change_univariate (hφ : R.coefficients.Maps C S.coefficients D φ) (hvars : S.vars = R.vars)
    (index : Nat) (exponent : UInt64) :
    (R.univariate index exponent).change S.coefficients φ = S.univariate index exponent := by
  rw [univariate, Poly.change_monomial hφ, hφ.map_one, univariate, nvars, nvars, hvars]

/-- A power of a changed polynomial. -/
theorem change_pow (hφ : R.coefficients.Maps C S.coefficients D φ) (h : R.coefficients.RingLaws C)
    (k : S.coefficients.RingLaws D) (hvars : S.vars = R.vars) {p : Poly α}
    (hp : R.CanonicalPoly C p) (exponent : UInt64) :
    (R.pow p exponent).change S.coefficients φ = S.pow (p.change S.coefficients φ) exponent := by
  have hmul : ∀ {p q : Poly α} {x y : Poly β},
      R.CanonicalPoly C p ∧ p.change S.coefficients φ = x →
      R.CanonicalPoly C q ∧ q.change S.coefficients φ = y →
      R.CanonicalPoly C (Poly.mul R.coefficients p q) ∧
        (Poly.mul R.coefficients p q).change S.coefficients φ = Poly.mul S.coefficients x y := by
    rintro p q x y ⟨hp, rfl⟩ ⟨hq, rfl⟩
    exact ⟨Poly.CanonicalOver.mul hp h hq, Poly.change_mul hφ h k hp hq⟩
  exact (powerFrom_rel (R := fun p x => R.CanonicalPoly C p ∧ p.change S.coefficients φ = x) hmul 64
    ⟨canonicalPoly_constant h.one_mem, change_one hφ hvars⟩ ⟨hp, rfl⟩ exponent.toNat).2

end PolyRing

/-! ### Maps that lose nothing -/

/-- A map that keeps the operations, tells canonical elements apart, and keeps how they are written. -/
structure Arithmetic.Embeds (A : Arithmetic α) (C : α → Prop) (B : Arithmetic β) (D : β → Prop)
    (φ : α → β) : Prop extends A.Maps C B D φ where
  injective : ∀ {a b : α}, C a → C b → φ a = φ b → a = b
  format_eq : ∀ {a : α}, C a → B.format (φ a) = A.format a

section

variable {R : PolyRing α} {C : α → Prop} {S : PolyRing β} {D : β → Prop} {φ : α → β}
  (hφ : R.coefficients.Embeds C S.coefficients D φ) (h : R.coefficients.RingLaws C)

include hφ h

/-- No coefficient becomes zero. -/
theorem Poly.terms_change {p : Poly α} (hp : R.CanonicalPoly C p) :
    (p.change S.coefficients φ).terms = p.terms.map fun term => (term.1, φ term.2) := by
  apply List.filter_eq_self.2
  intro term hterm
  obtain ⟨t, ht, rfl⟩ := List.mem_map.1 hterm
  simp only [Bool.not_eq_true', Bool.eq_false_iff, ne_eq, Arithmetic.isZero_eq_true_iff]
  intro hzero
  rw [← hφ.map_zero] at hzero
  exact hp.nonzero t ht (hφ.injective (hp.coefficients t ht) h.zero_mem hzero)

/-- Units are mapped to units. -/
theorem Arithmetic.Embeds.isOne_eq {a : α} (ha : C a) :
    S.coefficients.isOne (φ a) = R.coefficients.isOne a := by
  rw [Bool.eq_iff_iff, isOne_eq_true_iff, isOne_eq_true_iff]
  constructor
  · intro hone
    rw [← hφ.map_one] at hone
    exact hφ.injective ha h.one_mem hone
  · rintro rfl
    exact hφ.map_one

/-- A coefficient is written as before. -/
theorem PolyRing.coefficientText_eq {a : α} (ha : C a) (bare : Bool) :
    S.coefficientText (φ a) bare = R.coefficientText a bare := by
  unfold coefficientText
  simp only [hφ.isOne_eq h ha, ← hφ.map_neg ha, hφ.isOne_eq h (h.neg_mem ha), hφ.format_eq ha]

/-- A polynomial is written as before. -/
theorem PolyRing.format_change (hvars : S.vars = R.vars) (horder : S.order = R.order) {p : Poly α}
    (hp : R.CanonicalPoly C p) : S.format (p.change S.coefficients φ) = R.format p := by
  have hterm : ∀ first, ∀ t ∈ R.descending p,
      S.termText first (t.1, φ t.2) = R.termText first t := by
    intro first t ht
    have hmem : C t.2 := hp.coefficients t ((R.descending_perm p).mem_iff.1 ht)
    have hmonomial : S.monomialText t.1 = R.monomialText t.1 := by
      rw [monomialText, hvars, monomialText]
    simp only [termText, hmonomial, coefficientText_eq hφ h hmem]
  have hdescending : S.descending (p.change S.coefficients φ) =
      (R.descending p).map fun t => (t.1, φ t.2) := by
    rw [descending, Poly.terms_change hφ h hp, horder, descending]
    -- Terms are sorted by their exponents, which the map leaves alone.
    symm
    apply List.map_mergeSort
    intro s _ t _
    rfl
  unfold format
  rw [hdescending]
  cases hlist : R.descending p with
  | nil => rfl
  | cons first rest =>
    rw [hlist] at hterm
    have hrest : (rest.map fun t => (t.1, φ t.2)).flatMap (S.termText false) =
        rest.flatMap (R.termText false) := by
      rw [List.flatMap_map]
      exact List.flatMap_congr fun t ht => hterm false t (List.mem_cons_of_mem _ ht)
    rw [List.map_cons]
    dsimp only
    rw [hterm true first List.mem_cons_self, hrest]

end

end PolynomialText
