import PolynomialText.Arithmetic
import PolynomialText.Literal
import PolynomialText.Number.Rounding

/-!
# Fixed-point decimals

A decimal has a mantissa of at most 96 bits and at most 28 places. It is stored without trailing
zeros after the point, so that equal values are equal. Sums and products are exact where they fit,
are rounded to as many places as fit, a half to the even neighbour, and stay at the largest
mantissa when the number itself is too large.
-/

namespace PolynomialText

/-- The number `mantissa / 10 ^ scale`. -/
structure FixedDecimal where
  mantissa : Int
  scale : Nat
  deriving DecidableEq

namespace FixedDecimal

/-- Mantissas are below this bound in size. -/
def bound : Nat := Nat.pow 2 96

/-- The largest number of places. -/
def maxScale : Nat := 28

/-- The number of places that are kept of a quotient. -/
def quotientScale : Nat := 20

/-- Drop zeros at the end of the fraction. -/
def strip (m : Nat) : (scale : Nat) → Nat × Nat
  | 0 => (m, 0)
  | scale + 1 => if m % 10 = 0 then strip (m / 10) scale else (m, scale + 1)

/-- The decimal with a sign, a mantissa and a scale, without trailing zeros. -/
def ofParts (negative : Bool) (m scale : Nat) : FixedDecimal :=
  let (m', scale') := strip m scale
  ⟨if negative then -m' else m', scale'⟩

/-- Drop as few digits as are needed for a mantissa and a scale to fit, and round; nothing if the
number itself is too large. -/
def fit? (m scale : Nat) : Option (Nat × Nat) := do
  let dropped ← (List.range (scale + 1)).find? fun k =>
    scale - k ≤ maxScale && m / Nat.pow 10 k < bound
  let rounded := roundDiv m (Nat.pow 10 dropped)
  if rounded < bound then some (rounded, scale - dropped)
  else if scale - dropped = 0 then none
  else some (roundDiv rounded 10, scale - dropped - 1)

/-- The rounded decimal, or the largest one with the given sign. -/
def saturated (overflowNegative negative : Bool) (m scale : Nat) : FixedDecimal :=
  match fit? m scale with
  | some (m', scale') => ofParts negative m' scale'
  | none => ofParts overflowNegative (bound - 1) 0

/-- The mantissa at a scale that is not below the own one. -/
def mantissaAt (a : FixedDecimal) (scale : Nat) : Int :=
  a.mantissa * (Nat.pow 10 (scale - a.scale) : Nat)

/-- The sum; one that is too large stays at the bound on the side of the left operand. -/
def add (a b : FixedDecimal) : FixedDecimal :=
  if a.mantissa = 0 then b
  else if b.mantissa = 0 then a
  else
    let scale := max a.scale b.scale
    let sum := a.mantissaAt scale + b.mantissaAt scale
    saturated (a.mantissa < 0) (sum < 0) sum.natAbs scale

/-- The product; one that is too large stays at the bound on its own side. -/
def mul (a b : FixedDecimal) : FixedDecimal :=
  let product := a.mantissa * b.mantissa
  saturated (product < 0) (product < 0) product.natAbs (a.scale + b.scale)

/-- The negative. -/
def neg (a : FixedDecimal) : FixedDecimal := ⟨-a.mantissa, a.scale⟩

/-- The quotient to as many places as fit, then to the places kept of a quotient; nothing for a
divisor zero or a quotient that is too large. -/
def div? (a b : FixedDecimal) : Option FixedDecimal :=
  if b.mantissa = 0 then none
  else do
    let quotientAt (scale : Nat) : Nat :=
      roundDiv (a.mantissa.natAbs * Nat.pow 10 (scale + b.scale))
        (b.mantissa.natAbs * Nat.pow 10 a.scale)
    let scale ← (List.range (maxScale + 1)).reverse.find? fun k => quotientAt k < bound
    let negative : Bool := a.mantissa * b.mantissa < 0
    if scale ≤ quotientScale then some (ofParts negative (quotientAt scale) scale)
    else
      some (ofParts negative
        (roundDiv (quotientAt scale) (Nat.pow 10 (scale - quotientScale))) quotientScale)

/-- The fault of a character that cannot stand in a decimal at its place. -/
def faultOf (c : Char) : DecimalFault :=
  if c = '.' then .secondPoint else if c = '_' then .leadingUnderscore else .unknownCharacter

/-- The digits after the last one that fits need only be digits. -/
def checkRest : Text → Except DecimalFault Unit
  | [] => .ok ()
  | c :: rest => if c.isDigit || c = '_' then checkRest rest else .error (faultOf c)

/-- Round a mantissa by the first digit that does not fit, a half up. -/
def roundUp (digit m scale : Nat) : Except DecimalFault (Nat × Nat) :=
  if digit < 5 then .ok (m, scale)
  else if m + 1 < bound then .ok (m + 1, scale)
  else if scale = 0 then .error .roundedUp
  else .ok ((m + 5) / 10, scale - 1)

/-- Below this bound the digits in front of a further one are those of a short number. -/
def shortBound : Nat := (UInt64.size - 1) / 10 - 255

/-- Read digits, at most one point, and underscores after the first digit. An underscore right
behind the last place is skipped, so that the digit after it rounds, but it stands for a digit zero
there if the digits in front of the last place are those of a short number. -/
def readDigits (point digits : Bool) (m scale : Nat) : Text → Except DecimalFault (Nat × Nat)
  | [] => if digits then .ok (m, scale) else .error .noDigits
  | c :: rest =>
    if c.isDigit then
      let digit := c.toNat - '0'.toNat
      if scale = maxScale ∨ bound ≤ 10 * m + digit then
        if point then do
          let parts ← roundUp digit m scale
          checkRest rest
          return parts
        else .error .tooManyDigits
      else readDigits point true (10 * m + digit) (if point then scale + 1 else scale) rest
    else if c = '.' ∧ point = false then readDigits true digits m scale rest
    else if c = '_' ∧ digits then
      if scale = maxScale ∧ m / 10 < shortBound then do
        checkRest rest
        return (m, scale)
      else readDigits point digits m scale rest
    else .error (faultOf c)

/-- A decimal without an exponent. -/
def readPlain (t : Text) : Except DecimalFault FixedDecimal :=
  if t = [] then .error .empty
  else
    let (negative, body) := Literal.signed t
    (readDigits false false 0 0 body).map fun parts => ofParts negative parts.1 parts.2

/-- A 32-bit exponent; one plus sign may stand in front of it. -/
def readExponent (t : Text) : Except DecimalFault Nat :=
  let digits := Text.dropOne '+' t
  if digits ≠ [] ∧ Text.allDigits digits ∧ Text.value digits < UInt32.size then
    .ok (Text.value digits)
  else .error .exponentText

/-- A decimal divided by a power of ten, a half rounded away from zero. -/
def shiftDown (a : FixedDecimal) (exponent : Nat) : FixedDecimal :=
  let scale := a.scale + exponent
  let excess := scale - maxScale
  let m := a.mantissa.natAbs
  let m' := if excess = 0 then m else (m + 5 * Nat.pow 10 (excess - 1)) / Nat.pow 10 excess
  ofParts (a.mantissa < 0) m' (scale - excess)

/-- Multiply by a power of ten in steps of at most ten to the nineteenth. -/
def shiftUp? (a : FixedDecimal) (exponent : Nat) : Option FixedDecimal := do
  let step (m scale k : Nat) : Option (Nat × Nat) := fit? (m * Nat.pow 10 k) scale
  let (m, scale) ← step a.mantissa.natAbs a.scale (min exponent 19)
  let (m', scale') ← step m scale (exponent - 19)
  return ofParts (a.mantissa < 0) m' scale'

/-- A decimal with an exponent after the letter `e`. -/
def readScientific (base exponent : Text) : Except DecimalFault FixedDecimal := do
  let a ← readPlain base
  match exponent with
  | '-' :: rest =>
    let e ← readExponent rest
    if maxScale < e then .error (.scale e) else return a.shiftDown e
  | _ =>
    let e ← readExponent exponent
    if e ≤ a.scale then return ofParts (a.mantissa < 0) a.mantissa.natAbs (a.scale - e)
    else if maxScale < e then .error (.scale e)
    else
      match a.shiftUp? e with
      | some b => return b
      | none => .error .tooLarge

/-- A decimal, with or without an exponent. -/
def readNumber (t : Text) : Except DecimalFault FixedDecimal :=
  match readPlain t with
  | .ok a => .ok a
  | .error fault =>
    let isMark (c : Char) : Bool := c = 'e' || c = 'E'
    match t.dropWhile (!isMark ·) with
    | [] => .error fault
    | _ :: exponent => readScientific (t.takeWhile (!isMark ·)) exponent

/-- A decimal or a quotient of two. -/
def readLiteral (t : Text) : Except LiteralFault FixedDecimal :=
  let s := Literal.normalise t
  match Text.splitOnce? '/' s with
  | none => (readNumber s).mapError .decimal
  | some (upper, lower) => do
    let a ← (readNumber upper).mapError LiteralFault.decimal
    let b ← (readNumber lower).mapError LiteralFault.decimal
    match a.div? b with
    | some q => .ok q
    | none => .error .quotient

/-- A decimal literal, refused in the name of the ring. -/
def read (t : Text) : Except Refusal FixedDecimal :=
  (readLiteral t).mapError fun fault => ⟨t, ['D'], fault⟩

/-- The digits before the point, and those after it if there are any. -/
def format (a : FixedDecimal) : Text :=
  let m := a.mantissa.natAbs
  let whole := Text.decimal (m / Nat.pow 10 a.scale)
  let fraction := Text.decimal (m % Nat.pow 10 a.scale)
  let unsigned :=
    if a.scale = 0 then whole
    else whole ++ '.' :: List.replicate (a.scale - fraction.length) '0' ++ fraction
  if a.mantissa < 0 then '-' :: unsigned else unsigned

/-- The fixed-point decimals. -/
def arithmetic : Arithmetic FixedDecimal where
  kind := .decimal
  display := ['D']
  descriptor := ['D']
  characteristic := 0
  decEq := inferInstance
  zero := ⟨0, 0⟩
  one := ⟨1, 0⟩
  add := add
  mul := mul
  neg := neg
  format := format
  read := read
  readWithin := Arithmetic.readAnywhere read
  inverse? := none

end FixedDecimal

end PolynomialText
