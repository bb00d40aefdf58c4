import PolynomialText.PolyRing.AsCoefficients

/-!
# Algebraic extensions

Residues of polynomials in one generator modulo a defining polynomial. Residues are kept reduced,
so that their degree is below the degree of the defining polynomial, whose leading coefficient has
to be invertible.
-/

namespace PolynomialText

/-- A generator with its defining polynomial. -/
structure Extension (α : Type) where
  generator : Text
  order : TermOrder
  modulus : Poly α
  /-- The degree of the defining polynomial. -/
  degree : UInt64
  /-- The inverse of the leading coefficient of the defining polynomial. -/
  leadInverse : α
  deriving DecidableEq

/-- The degree of a polynomial in one variable, and its leading coefficient. -/
def Poly.top? {α : Type} (p : Poly α) : Option (UInt64 × α) :=
  p.terms.getLast?.map fun term => (term.1.headD 0, term.2)

namespace Extension

variable {α : Type}

/-- The extension by a root of a polynomial of degree one at least, in a ring with one variable and
with an inverse of the leading coefficient. -/
def make (R : PolyRing α) (inverse : α → Except RingFault α) (modulus : Poly α) :
    Except RingFault (Extension α) :=
  match R.vars with
  | [generator] =>
    match modulus.top? with
    | none => .error (.constantModulus (R.format modulus))
    | some (degree, lead) =>
      if degree = 0 then .error (.constantModulus (R.format modulus))
      else (inverse lead).map fun leadInverse =>
        ⟨generator, R.order, modulus, degree, leadInverse⟩
  | vars => .error (.generatorCount vars.length)

variable (A : Arithmetic α) (E : Extension α)

/-- The ring of polynomials in the generator. -/
def ring : PolyRing α := ⟨A, [E.generator], E.order⟩

/-- The polynomial without its leading term, which a multiple of the defining polynomial cancels. -/
def cancelTop (p : Poly α) (top : UInt64) (lead : α) : Poly α :=
  let shifted := Poly.mul A ((E.ring A).univariate 0 (top - E.degree)) E.modulus
  Poly.sub A p (Poly.scale A shifted (A.mul E.leadInverse lead))

/-- Cancel leading terms, at most the given number of times, until the degree is small enough. -/
def reduceFrom : Nat → Poly α → Poly α
  | 0, p => p
  | fuel + 1, p =>
    match p.top? with
    | none => p
    | some (top, lead) =>
      if top < E.degree then p else reduceFrom fuel (E.cancelTop A p top lead)

/-- The remainder of a polynomial divided by the defining polynomial. Each step lowers the degree,
which bounds their number. -/
def reduce (p : Poly α) : Poly α :=
  E.reduceFrom A ((p.top?.map fun top => top.1.toNat + 1).getD 0) p

/-- The extension as text, with the modulus of its coefficients if there is one. -/
def display : Text :=
  let characteristic :=
    if A.characteristic = 0 then [] else Text.decimal A.characteristic ++ [' ']
  "AN[ ".toList ++ characteristic ++ '(' :: E.generator ++ ") ( ".toList ++
    (E.ring A).format E.modulus ++ " ) ]".toList

/-- A text of its own as an element. -/
def read (t : Text) : Except Refusal (Poly α) :=
  match Reader.polynomialOf (E.ring A) {} 0 t with
  | .ok p => .ok (E.reduce A p)
  | .error e => .error ⟨t, E.display A, .expression e⟩

/-- A literal in an expression as an element. -/
def readWithin (limits : Limits) (depth : Nat) (t : Text) : Except LiteralFault (Poly α) :=
  ((E.ring A).readWithin limits depth t).map (E.reduce A)

/-- The ring of residues. -/
def arithmetic : Arithmetic (Poly α) where
  kind := .algebraicExtension
  display := E.display A
  descriptor := E.display A
  characteristic := A.characteristic
  decEq := @instDecidableEqPoly α A.decEq
  zero := .zero
  one := (E.ring A).one
  add := Poly.add A
  mul p q := E.reduce A (Poly.mul A p q)
  neg := Poly.neg A
  format := (E.ring A).format
  read := E.read A
  readWithin := E.readWithin A
  inverse? := none

/-- A residue of small degree is its own remainder. -/
theorem reduce_of_top_lt {p : Poly α} (h : ∀ top lead, p.top? = some (top, lead) → top < E.degree) :
    E.reduce A p = p := by
  unfold reduce
  cases htop : p.top? with
  | none => rfl
  | some found =>
    obtain ⟨top, lead⟩ := found
    have hlt := h top lead htop
    simp [reduceFrom, htop, hlt]

end Extension

end PolynomialText
