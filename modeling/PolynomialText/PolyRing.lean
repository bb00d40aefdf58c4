import PolynomialText.Poly
import PolynomialText.TermOrder

/-!
# Polynomial rings

A polynomial ring fixes the arithmetic of the coefficients, the names of the variables and the
term order. It writes polynomials with their terms from the largest one down.
-/

namespace PolynomialText

/-- Coefficients, variables and term order of polynomials. -/
structure PolyRing (α : Type) where
  coefficients : Arithmetic α
  vars : List Text
  order : TermOrder

namespace PolyRing

/-- The first name that stands for the second time. -/
def repeated? (seen : List Text) : List Text → Option Text
  | [] => none
  | name :: rest => if name ∈ seen then some name else repeated? (name :: seen) rest

variable {α : Type}

/-- A ring, if the order fits the variables and no variable is declared twice. -/
def make (coefficients : Arithmetic α) (vars : List Text) (order : TermOrder) :
    Except RingFault (PolyRing α) :=
  match order.fault? vars.length, repeated? [] vars with
  | some fault, _ => .error (.order fault)
  | none, some name => .error (.repeatedVariable name)
  | none, none => .ok ⟨coefficients, vars, order⟩

variable (R : PolyRing α)

/-- The number of variables. -/
def nvars : Nat := R.vars.length

/-- The position of a variable. -/
def varIndex? (name : Text) : Option Nat := R.vars.findIdx? (· = name)

/-- A coefficient as a polynomial. -/
def constant (c : α) : Poly α := .monomial R.coefficients (.zero R.nvars) c

/-- The polynomial one. -/
def one : Poly α := R.constant R.coefficients.one

/-- A power of a variable. -/
def univariate (index : Nat) (exponent : UInt64) : Poly α :=
  .monomial R.coefficients (.single R.nvars index exponent) R.coefficients.one

/-- A power of a polynomial. -/
def pow (p : Poly α) (exponent : UInt64) : Poly α :=
  power (Poly.mul R.coefficients) R.one p exponent

/-- The terms from the largest monomial down. -/
def descending (p : Poly α) : List (Exponents × α) :=
  p.terms.mergeSort fun s t => R.order.compare t.1 s.1 != .gt

/-- The larger of two terms, the second one if neither is. -/
def larger (s t : Exponents × α) : Exponents × α :=
  if R.order.compare s.1 t.1 = .gt then s else t

/-- The term with the largest monomial. -/
def leading? (p : Poly α) : Option (Exponents × α) :=
  match p.terms with
  | [] => none
  | first :: rest => some (rest.foldl R.larger first)

/-- A power of a variable, without an exponent one. -/
def factorText (name : Text) (exponent : UInt64) : Text :=
  if exponent = 1 then name else name ++ '^' :: Text.decimal exponent.toNat

/-- The powers of the variables that occur. -/
def monomialText (e : Exponents) : Text :=
  Text.join " * ".toList
    (((R.vars.zip e).filter fun factor => factor.2 ≠ 0).map fun factor =>
      factorText factor.1 factor.2)

/-- A numeral that needs no braces: a digit, then digits, slashes and points. -/
def isPlainNumeral (t : Text) : Bool :=
  t.head?.any Char.isDigit && t.all fun c => c.isDigit || c = '/' || c = '.'

/-- The sign that is pulled out of a coefficient, and the rest of it: a plain numeral as it is,
everything else in braces, and nothing for a unit in front of a monomial. -/
def coefficientText (c : α) (bare : Bool) : Bool × Text :=
  let A := R.coefficients
  if !bare && A.isOne c then (false, [])
  else if !bare && A.isOne (A.neg c) then (true, [])
  else
    let written := A.format c
    match Text.strip? '-' written with
    | some size => if isPlainNumeral size then (true, size) else (false, braced written)
    | none => (false, if isPlainNumeral written then written else braced written)
where
  /-- A text between braces. -/
  braced (t : Text) : Text := '\x7b' :: t ++ ['\x7d']

/-- A term with its sign in front; the first term has no plus sign. -/
def termText (first : Bool) (term : Exponents × α) : Text :=
  let monomial := R.monomialText term.1
  let (negative, coefficient) := R.coefficientText term.2 monomial.isEmpty
  let sign := match first, negative with
    | true, true => ['-']
    | true, false => []
    | false, true => " - ".toList
    | false, false => " + ".toList
  let gap := if coefficient ≠ [] ∧ monomial ≠ [] then [' '] else []
  sign ++ coefficient ++ gap ++ monomial

/-- A polynomial as text, the largest term first. -/
def format (p : Poly α) : Text :=
  match R.descending p with
  | [] => ['0']
  | first :: rest => R.termText true first ++ rest.flatMap (R.termText false)

/-- The ring as a header writes it: coefficients, variables and order. -/
def header : Text :=
  R.coefficients.descriptor ++ '(' :: Text.join ", ".toList R.vars ++ ") ".toList ++ R.order.text

/-- The ring as coefficients of another one. -/
def descriptor : Text := "IntFunc(".toList ++ Text.join ", ".toList R.vars ++ [')']

/-- The terms that are written are the terms that are stored. -/
theorem descending_perm (p : Poly α) : (R.descending p).Perm p.terms := List.mergeSort_perm _ _

/-- Only the zero polynomial has no leading term. -/
theorem leading?_eq_none_iff (p : Poly α) : R.leading? p = none ↔ p = Poly.zero := by
  obtain ⟨terms⟩ := p
  cases terms <;> simp [leading?, Poly.zero]

end PolyRing

end PolynomialText
