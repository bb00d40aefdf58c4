import PolynomialText.CoefficientRing
import PolynomialText.Declaration

/-!
# Reading coefficient rings

A keyword selects the coefficient ring; a modulus, a list of variables or a defining polynomial
follows where the ring needs it. Without a known keyword nothing is read, and the ring is that of
the rational numbers.
-/

namespace PolynomialText

/-- What the keyword of a descriptor announces. -/
inductive RingKeyword where
  | rational
  | decimal
  | integer
  | complex
  | quaternion
  | octonion
  | modular
  | unsupported
  | function
  | algebraic
  deriving DecidableEq

/-- The keywords in small letters. -/
def RingKeyword.keywords : List (Text × RingKeyword) :=
  [("q".toList, rational), ("rat".toList, rational), ("d".toList, decimal), ("z".toList, integer),
    ("int".toList, integer), ("c".toList, complex), ("complex".toList, complex),
    ("quat".toList, quaternion), ("oct".toList, octonion), ("mod".toList, modular),
    ("ratfunc".toList, unsupported), ("modfunc".toList, unsupported),
    ("intfunc".toList, function), ("an".toList, algebraic)]

/-- The keyword that a word is; capitals and small letters are alike. -/
def RingKeyword.ofWord? (w : Text) : Option RingKeyword := keywords.lookup w.toLower

namespace Reader

/-- The note that goes with quaternions and octonions. -/
def hypercomplexNote : String :=
  "negative components of hypercomplex literals must be written with '~', e.g. 1i~2j3k4"

/-- A token that has to be a modulus. -/
def modulus (t : Token) : Reader Int := do
  match t with
  | .word w =>
    if t.isDigitWord then
      match Integer.readInteger w with
      | .ok m => return m
      | .error fault => invalidRing (.modulusWord w fault)
    else invalidRing (.missingModulus t)
  | _ => invalidRing (.missingModulus t)

/-- Residues modulo a number, in machine words if it is below the limit. -/
def residues (limit : UInt64) (m : Int) : Except RingFault CoefficientRing :=
  if m < limit.toNat then (WordModulus.ofWord (.ofNat m.toNat)).map .word
  else (BigModulus.ofInt m).map .big

/-- A modulus, with or without brackets around it. -/
def modular : Reader CoefficientRing := do
  let t ← advance
  let m ← if t = .op '[' then do
      let m ← modulus (← advance)
      skipOp ']'
      pure m
    else modulus t
  orInvalidRing (residues (← get).limits.wordModulusLimit m)

/-- The variables of function coefficients. -/
def functionVariables : Reader CoefficientRing := do
  let vars ← variableList
  if vars = [] then invalidRing .noFunctionVariables
  else
    let ring ← orInvalidRing (PolyRing.make Rational.arithmetic vars { kind := .invLex })
    return .function ring.vars

/-- A defining polynomial, in parentheses or up to the closing bracket. -/
def definingPolynomial {α : Type} (R : PolyRing α) : Reader (Poly α) := do
  let t ← advance
  if t = .op '(' then
    let (p, terminator) ← nested (expression R none)
    if terminator ≠ .close then malformed .missingParenAfterModulus else return p
  else
    pushBack t
    return (← expression R (some ']')).1

/-- The extension of a field by a root of the polynomial that follows. -/
def extensionOver {α : Type} (A : Arithmetic α) (inverse : α → Except RingFault α)
    (vars : List Text) : Reader (Extension α) := do
  let R ← orInvalidRing (PolyRing.make A vars {})
  let p ← definingPolynomial R
  orInvalidRing (Extension.make R inverse p)

/-- An optional modulus, one generator and a defining polynomial, in brackets. -/
def algebraic : Reader CoefficientRing := do
  let t ← advance
  if t ≠ .op '[' then invalidRing (.missingBracket t)
  else
    let first ← advance
    let m? ← if first.isDigitWord then pure (some (← modulus first))
      else do
        pushBack first
        pure none
    let vars ← variableList
    if vars.length ≠ 1 then invalidRing (.generators vars)
    else
      let ring ← match m? with
        | none => pure (.algebraicRational
            (← extensionOver Rational.arithmetic Rational.inverse vars))
        | some m => do
          let base ← orInvalidRing (BigModulus.ofInt m)
          pure (.algebraicModular base (← extensionOver base.arithmetic base.inverse vars))
      skipOp ']'
      return ring

/-- The coefficient ring of a header. -/
def coefficientRing : Reader CoefficientRing := do
  let t ← advance
  match t with
  | .word w =>
    match RingKeyword.ofWord? w with
    | some .rational => return .rational
    | some .decimal => return .decimal
    | some .integer => return .integer
    | some .complex => return .complex
    | some .quaternion =>
      advise hypercomplexNote
      return .quaternion
    | some .octonion =>
      advise hypercomplexNote
      return .octonion
    | some .modular => modular
    | some .unsupported => invalidRing (.unsupported w)
    | some .function => functionVariables
    | some .algebraic => algebraic
    | none =>
      pushBack t
      return .rational
  | _ =>
    pushBack t
    return .rational

end Reader

end PolynomialText
