import PolynomialText.Arithmetic
import PolynomialText.Exponents

/-!
# Sparse polynomials

A polynomial is the list of its terms in ascending order of their exponents, without zero
coefficients. All operations take the arithmetic of the coefficients as an argument.
-/

namespace PolynomialText

/-- A polynomial as the list of its terms. -/
structure Poly (α : Type) where
  terms : List (Exponents × α)
  deriving DecidableEq

namespace Poly

variable {α : Type}

/-- The polynomial without terms. -/
def zero : Poly α := ⟨[]⟩

/-- There are no terms. -/
def isZero (p : Poly α) : Bool := p.terms.isEmpty

/-- The stored coefficient of a monomial, if there is one. -/
def coefficient? (p : Poly α) (e : Exponents) : Option α :=
  (p.terms.find? fun term => term.1 = e).map Prod.snd

variable (A : Arithmetic α)

/-- Put a term with a coefficient that is not zero among ascending terms. Coefficients of the same
monomial are added, and the monomial is dropped when they cancel. -/
def insertTerm (e : Exponents) (c : α) : List (Exponents × α) → List (Exponents × α)
  | [] => [(e, c)]
  | (f, d) :: rest =>
    match e.cmp f with
    | .lt => (e, c) :: (f, d) :: rest
    | .eq =>
      let sum := A.add d c
      if A.isZero sum then rest else (e, sum) :: rest
    | .gt => (f, d) :: insertTerm e c rest

/-- Add a term; one with a zero coefficient changes nothing. -/
def addTerm (terms : List (Exponents × α)) (term : Exponents × α) : List (Exponents × α) :=
  if A.isZero term.2 then terms else insertTerm A term.1 term.2 terms

/-- The sum of terms, in the order given. -/
def ofTerms (terms : List (Exponents × α)) : Poly α := ⟨terms.foldl (addTerm A) []⟩

/-- A single term, unless its coefficient is zero. -/
def monomial (e : Exponents) (c : α) : Poly α := ⟨if A.isZero c then [] else [(e, c)]⟩

/-- The sum of two polynomials. -/
def add (p q : Poly α) : Poly α := ⟨q.terms.foldl (addTerm A) p.terms⟩

/-- The negative of a polynomial. -/
def neg (p : Poly α) : Poly α := ⟨p.terms.map fun term => (term.1, A.neg term.2)⟩

/-- The difference of two polynomials. -/
def sub (p q : Poly α) : Poly α := add A p (neg A q)

/-- The product of two terms. -/
def mulTerm (s t : Exponents × α) : Exponents × α := (s.1.add t.1, A.mul s.2 t.2)

/-- The product of two polynomials: the sum of all products of their terms. -/
def mul (p q : Poly α) : Poly α :=
  ofTerms A (p.terms.flatMap fun s => q.terms.map fun t => mulTerm A s t)

/-- The product with a coefficient from the right. -/
def scale (p : Poly α) (c : α) : Poly α :=
  ⟨(p.terms.map fun term => (term.1, A.mul term.2 c)).filter fun term => !A.isZero term.2⟩

/-- Ascending exponents of one length, and no zero among the coefficients. -/
structure Canonical (nvars : Nat) (p : Poly α) : Prop where
  ascending : p.terms.Pairwise fun s t => s.1.cmp t.1 = .lt
  length : ∀ term ∈ p.terms, term.1.length = nvars
  nonzero : ∀ term ∈ p.terms, term.2 ≠ A.zero

/-- The zero polynomial is canonical. -/
theorem canonical_zero (nvars : Nat) : Canonical A nvars (zero : Poly α) :=
  ⟨List.Pairwise.nil, fun _ h => absurd h List.not_mem_nil, fun _ h => absurd h List.not_mem_nil⟩

/-- A monomial is canonical. -/
theorem canonical_monomial {nvars : Nat} {e : Exponents} (h : e.length = nvars) (c : α) :
    Canonical A nvars (monomial A e c) := by
  unfold monomial
  split
  · exact canonical_zero A nvars
  · rename_i hc
    have hne : c ≠ A.zero := fun heq => hc (A.isZero_eq_true_iff.2 heq)
    refine ⟨List.pairwise_singleton _ _, ?_, ?_⟩
    · intro term hterm
      rw [List.mem_singleton.1 hterm]
      exact h
    · intro term hterm
      rw [List.mem_singleton.1 hterm]
      exact hne

end Poly

end PolynomialText
