import Mathlib.Algebra.BigOperators.Finsupp.Basic
import PolynomialText.Proofs.CanonicalResults

/-!
# Sums of terms in any order

A sum of terms is stored as a list, and every addition merges, cancels or inserts. Which of these
happens depends on the order of the terms, but what is stored in the end does not, as long as sums of
coefficients commute and associate. Products are left out of account, so that this holds for octonions
as well. `Poly.gathered` reads a list of terms as a function from exponents to coefficients; adding a
term adds to this function, and terms with distinct exponents can be recovered from it. Decimals are
rounded when they are added, and are the one kind of coefficients for which sums do not associate.
-/

namespace PolynomialText

variable {α M : Type} [AddCommMonoid M]

/-- Canonical elements stand for elements of a commutative monoid, each for one of its own, and sums
are taken there. -/
structure Arithmetic.Sums (A : Arithmetic α) (C : α → Prop) (f : α → M) : Prop where
  closed : A.Closed C
  injective : ∀ {a b : α}, C a → C b → f a = f b → a = b
  map_zero : f A.zero = 0
  map_add : ∀ {a b : α}, C a → C b → f (A.add a b) = f a + f b

namespace Poly

/-- The coefficients that terms gather for every monomial. -/
noncomputable def gathered (f : α → M) (terms : List (Exponents × α)) : Exponents →₀ M :=
  (terms.map fun t => Finsupp.single t.1 (f t.2)).sum

variable {f : α → M}

@[simp] theorem gathered_nil : gathered f [] = 0 := rfl

@[simp] theorem gathered_cons (t : Exponents × α) (terms : List (Exponents × α)) :
    gathered f (t :: terms) = Finsupp.single t.1 (f t.2) + gathered f terms := rfl

/-- The order of the terms does not matter. -/
theorem gathered_of_perm {terms terms' : List (Exponents × α)} (h : terms.Perm terms') :
    gathered f terms = gathered f terms' := (h.map _).sum_eq

/-- A map of the exponents moves what is gathered. -/
theorem gathered_map (g : Exponents → Exponents) (terms : List (Exponents × α)) :
    gathered f (terms.map fun t => (g t.1, t.2)) = (gathered f terms).mapDomain g := by
  induction terms with
  | nil => simp
  | cons t rest ih => rw [List.map_cons, gathered_cons, gathered_cons, ih, Finsupp.mapDomain_add,
      Finsupp.mapDomain_single]

theorem gathered_apply_of_forall_ne {e : Exponents} {terms : List (Exponents × α)}
    (h : ∀ t ∈ terms, t.1 ≠ e) : gathered f terms e = 0 := by
  induction terms with
  | nil => rfl
  | cons t rest ih =>
    rw [gathered_cons, Finsupp.add_apply, Finsupp.single_eq_of_ne (h t List.mem_cons_self).symm,
      ih fun s hs => h s (List.mem_cons_of_mem _ hs), add_zero]

/-- Among distinct monomials, each term is what is gathered of its own. -/
theorem gathered_apply_of_mem {t : Exponents × α} {terms : List (Exponents × α)}
    (hdistinct : terms.Pairwise fun r s => r.1 ≠ s.1) (ht : t ∈ terms) :
    gathered f terms t.1 = f t.2 := by
  induction terms with
  | nil => exact absurd ht List.not_mem_nil
  | cons head rest ih =>
    obtain ⟨hhead, hrest⟩ := List.pairwise_cons.1 hdistinct
    rw [gathered_cons, Finsupp.add_apply]
    rcases List.mem_cons.1 ht with rfl | hmem
    · rw [gathered_apply_of_forall_ne fun s hs => (hhead s hs).symm, Finsupp.single_eq_same, add_zero]
    · rw [ih hrest hmem, Finsupp.single_eq_of_ne (hhead t hmem).symm, zero_add]

variable {A : Arithmetic α} {C : α → Prop}

/-- Distinct monomials with coefficients that are not zero. -/
structure Sparse (A : Arithmetic α) (C : α → Prop) (terms : List (Exponents × α)) : Prop where
  distinct : terms.Pairwise fun s t => s.1 ≠ t.1
  nonzero : ∀ t ∈ terms, t.2 ≠ A.zero
  mem : ∀ t ∈ terms, C t.2

theorem CanonicalOver.sparse {nvars : Nat} {p : Poly α} (hp : CanonicalOver A C nvars p) :
    Sparse A C p.terms where
  distinct := hp.ascending.imp fun {s t} hlt (heq : s.1 = t.1) =>
    t.1.not_cmp_self_lt (heq ▸ hlt)
  nonzero := hp.nonzero
  mem := hp.coefficients

variable (h : A.Sums C f)
include h

/-- Inserting a term adds its coefficient, also where it merges or cancels. -/
theorem gathered_insertTerm {e : Exponents} {c : α} (hc : C c) {terms : List (Exponents × α)}
    (hterms : ∀ t ∈ terms, C t.2) :
    gathered f (insertTerm A e c terms) = gathered f terms + Finsupp.single e (f c) := by
  induction terms with
  | nil => simp [insertTerm]
  | cons head rest ih =>
    obtain ⟨e', d⟩ := head
    have hd : C d := hterms _ List.mem_cons_self
    have hrest : ∀ t ∈ rest, C t.2 := fun t ht => hterms t (List.mem_cons_of_mem _ ht)
    rw [insertTerm]
    split
    · rw [gathered_cons, add_comm]
    · rename_i heq
      obtain rfl : e = e' := Std.LawfulEqCmp.eq_of_compare heq
      have hsum : Finsupp.single e (f (A.add d c)) = Finsupp.single e (f d) + Finsupp.single e (f c) := by
        rw [h.map_add hd hc, Finsupp.single_add]
      dsimp only
      split
      · rename_i hzero
        rw [A.isZero_eq_true_iff.1 hzero, h.map_zero, Finsupp.single_zero] at hsum
        rw [gathered_cons, add_right_comm, ← hsum, zero_add]
      · rw [gathered_cons, gathered_cons, hsum, add_right_comm]
    · rw [gathered_cons, gathered_cons, ih hrest, add_assoc]

theorem gathered_addTerm {t : Exponents × α} (ht : C t.2) {terms : List (Exponents × α)}
    (hterms : ∀ s ∈ terms, C s.2) :
    gathered f (addTerm A terms t) = gathered f terms + Finsupp.single t.1 (f t.2) := by
  unfold addTerm
  split
  · rename_i hzero
    rw [A.isZero_eq_true_iff.1 hzero, h.map_zero, Finsupp.single_zero, add_zero]
  · exact gathered_insertTerm h ht hterms

/-- Adding terms one after another adds all of their coefficients. -/
theorem gathered_foldl_addTerm {start terms : List (Exponents × α)}
    (hstart : Regular A (fun _ => True) C ⟨start⟩) (hterms : ∀ t ∈ terms, C t.2) :
    gathered f (terms.foldl (addTerm A) start) = gathered f start + gathered f terms := by
  induction terms generalizing start with
  | nil => simp
  | cons t rest ih =>
    have ht := hterms t List.mem_cons_self
    rw [List.foldl_cons, ih (hstart.addTerm h.closed trivial ht) fun s hs =>
      hterms s (List.mem_cons_of_mem _ hs), gathered_addTerm h ht hstart.coefficients, gathered_cons,
      add_assoc]

/-- A sum of terms gathers what the terms gather. -/
theorem gathered_ofTerms {terms : List (Exponents × α)} (hterms : ∀ t ∈ terms, C t.2) :
    gathered f (ofTerms A terms).terms = gathered f terms := by
  rw [ofTerms, gathered_foldl_addTerm h regular_zero hterms, gathered_nil, zero_add]

/-- A sum gathers the sum of what is gathered. -/
theorem gathered_add {nvars : Nat} {p q : Poly α} (hp : CanonicalOver A C nvars p)
    (hq : CanonicalOver A C nvars q) :
    gathered f (add A p q).terms = gathered f p.terms + gathered f q.terms :=
  gathered_foldl_addTerm h ⟨hp.ascending, hp.nonzero, fun _ _ => trivial, hp.coefficients⟩
    hq.coefficients

/-- A term is found again in any terms with distinct monomials that gather the same. -/
theorem Sparse.mem_of_gathered_eq {terms terms' : List (Exponents × α)} (hterms : Sparse A C terms)
    (hterms' : Sparse A C terms') (heq : gathered f terms = gathered f terms') {t : Exponents × α}
    (ht : t ∈ terms) : t ∈ terms' := by
  have hgathered : gathered f terms' t.1 = f t.2 := heq ▸ gathered_apply_of_mem hterms.distinct ht
  have hpresent : ∃ s ∈ terms', s.1 = t.1 := by
    by_contra hnone
    rw [gathered_apply_of_forall_ne fun s hs heq' => hnone ⟨s, hs, heq'⟩, ← h.map_zero] at hgathered
    exact hterms.nonzero t ht (h.injective h.closed.zero (hterms.mem t ht) hgathered).symm
  obtain ⟨⟨e, c⟩, hs, rfl⟩ := hpresent
  have hcoefficient := (gathered_apply_of_mem (f := f) hterms'.distinct hs).symm.trans hgathered
  obtain rfl : c = t.2 := h.injective (hterms'.mem _ hs) (hterms.mem t ht) hcoefficient
  exact hs

/-- Terms with distinct monomials are determined by what they gather, up to their order. -/
theorem Sparse.perm_of_gathered_eq {terms terms' : List (Exponents × α)} (hterms : Sparse A C terms)
    (hterms' : Sparse A C terms') (heq : gathered f terms = gathered f terms') : terms.Perm terms' := by
  have hnodup : ∀ {terms : List (Exponents × α)}, Sparse A C terms → terms.Nodup := fun hterms =>
    hterms.distinct.imp fun hne heq => hne (congrArg Prod.fst heq)
  rw [List.perm_ext_iff_of_nodup (hnodup hterms) (hnodup hterms')]
  exact fun t => ⟨hterms.mem_of_gathered_eq h hterms' heq, hterms'.mem_of_gathered_eq h hterms heq.symm⟩

/-- Canonical polynomials that gather the same are equal. -/
theorem eq_of_gathered_eq {nvars : Nat} {p q : Poly α} (hp : CanonicalOver A C nvars p)
    (hq : CanonicalOver A C nvars q) (heq : gathered f p.terms = gathered f q.terms) : p = q :=
  hp.toCanonical.eq_of_mem_iff hq.toCanonical fun _ =>
    (hp.sparse.perm_of_gathered_eq h hq.sparse heq).mem_iff

end Poly

/-! ### Rings of coefficients with exact sums -/

/-- The sums of a ring are those of some commutative monoid. -/
def Arithmetic.SumsExactly (A : Arithmetic α) (C : α → Prop) : Prop :=
  ∃ (M : Type) (_ : AddCommMonoid M) (f : α → M), A.Sums C f

open Classical in
/-- An associative ring has exact sums. -/
theorem Arithmetic.RingLaws.sumsExactly {A : Arithmetic α} {C : α → Prop} (h : A.RingLaws C) :
    A.SumsExactly C := by
  have hof : ∀ {a : α} (ha : C a), (if ha : C a then h.of ha else 0) = h.of ha := fun ha => dif_pos ha
  refine ⟨h.Carrier, inferInstance, fun a => if ha : C a then h.of ha else 0, h.closed, ?_, ?_, ?_⟩
  · intro a b ha hb heq
    rw [hof ha, hof hb] at heq
    exact congrArg Carrier.val heq
  · exact hof h.zero_mem
  · intro a b ha hb
    rw [hof ha, hof hb, hof (h.add_mem ha hb), h.of_add]

/-- Octonions are added half by half. -/
theorem Octonion.sumsExactly : Octonion.arithmetic.SumsExactly AnyElement := by
  let part (q : Quaternion) : Quaternion.ringLaws.Carrier := ⟨q, trivial⟩
  refine ⟨_, inferInstance, fun x => (part x.left, part x.right), Octonion.readsInto.closed, ?_, rfl,
    fun _ _ => rfl⟩
  rintro ⟨a, b⟩ ⟨c, d⟩ - - heq
  obtain ⟨hleft, hright⟩ := Prod.mk.inj heq
  obtain rfl : a = c := congrArg Arithmetic.RingLaws.Carrier.val hleft
  obtain rfl : b = d := congrArg Arithmetic.RingLaws.Carrier.val hright
  rfl

/-- Polynomials have exact sums if their coefficients do. -/
theorem PolyRing.sumsExactly {R : PolyRing α} {C : α → Prop} (h : R.coefficients.SumsExactly C) :
    R.arithmetic.SumsExactly (R.CanonicalPoly C) := by
  obtain ⟨M, _, f, hf⟩ := h
  exact ⟨_, inferInstance, fun p => Poly.gathered f p.terms, closed_canonical hf.closed,
    Poly.eq_of_gathered_eq hf, rfl, Poly.gathered_add hf⟩

/-- A ring of coefficients without decimals in any layer. -/
inductive Arithmetic.Exact : {α : Type} → Arithmetic α → (α → Prop) → Prop
  /-- A ring that is neither that of decimals nor one of polynomials. -/
  | base {α : Type} {A : Arithmetic α} {C : α → Prop} {same : α → α → Prop} (built : A.Built C same)
      (not_decimal : A.kind ≠ .decimal) (not_layer : A.kind ≠ .functionCoefficient) : Exact A C
  | polynomials {α : Type} {C : α → Prop} (R : PolyRing α) (coefficients : Exact R.coefficients C) :
      Exact R.arithmetic (R.CanonicalPoly C)

theorem Arithmetic.Exact.built {A : Arithmetic α} {C : α → Prop} (h : A.Exact C) :
    ∃ same, A.Built C same := by
  induction h with
  | base built _ _ => exact ⟨_, built⟩
  | polynomials R _ ih =>
    obtain ⟨same, hbuilt⟩ := ih
    exact ⟨_, .polynomials R hbuilt⟩

/-- Without decimals, sums are exact. -/
theorem Arithmetic.Exact.sumsExactly {A : Arithmetic α} {C : α → Prop} (h : A.Exact C) :
    A.SumsExactly C := by
  induction h with
  | polynomials R _ ih => exact PolyRing.sumsExactly ih
  | base built not_decimal not_layer =>
    cases built with
    | rational => exact Rational.ringLaws.sumsExactly
    | integer => exact Integer.ringLaws.sumsExactly
    | word m => exact m.represents.ringLaws.sumsExactly
    | big m => exact m.represents.ringLaws.sumsExactly
    | complex => exact Gaussian.ringLaws.sumsExactly
    | quaternion => exact Quaternion.ringLaws.sumsExactly
    | octonion => exact Octonion.sumsExactly
    | decimal => exact absurd rfl not_decimal
    | polynomials R coefficients => exact absurd rfl not_layer
    | extension base canonical make_eq =>
      have hclosed := (Built.extension base canonical make_eq).normalises.readsInto.closed
      obtain ⟨M, _, f, hf⟩ := base.represents.ringLaws.sumsExactly
      -- Residues are added as polynomials, which keeps their degree small.
      exact ⟨_, inferInstance, fun p => Poly.gathered f p.terms, hclosed,
        fun hp hq heq => Poly.eq_of_gathered_eq hf hp.1 hq.1 heq, rfl,
        fun hp hq => Poly.gathered_add hf hp.1 hq.1⟩

end PolynomialText
