import PolynomialText.Token

/-!
# Errors

Every way in which reading can fail is a value: what is malformed, which part of a ring descriptor
is wrong, why a text is no literal of a ring, why a ring cannot be built. The wording of each is
given once, by a function `message`.
-/

namespace PolynomialText

namespace Message

/-- A text as it is. -/
def ofText (t : Text) : String := .ofList t

/-- A token as messages show it. -/
def ofToken (t : Token) : String := ofText t.shown

/-- A text between plain single quotes. -/
def named (t : Text) : String := "'" ++ ofText t ++ "'"

/-- A number in decimal. -/
def number (n : Nat) : String := ofText (Text.decimal n)

end Message

open Message

/-- A structural fault of an expression or a list. -/
inductive Malformation where
  | negativeExponent
  | fractionalExponent
  | missingExponent (got : Token)
  | exponentOutOfRange (digits : Text)
  | exponentWord (word : Text)
  | strayBrace
  | openBrace
  | missingParen
  | missingParenAfterModulus
  | tooDeep (limit : Nat)
  | bareRow (got : Token)
  deriving DecidableEq

/-- The wording of a structural fault. -/
def Malformation.message : Malformation → String
  | negativeExponent => "negative exponent"
  | fractionalExponent => "exponent is not an integer"
  | missingExponent got => "expected exponent, got " ++ ofToken got
  | exponentOutOfRange digits => "exponent " ++ ofText digits ++ " is out of range"
  | exponentWord word => "exponent " ++ named word ++ " is not an integer"
  | strayBrace => "mismatch of braces: '\x7d' without '\x7b'"
  | openBrace => "mismatch of braces: unterminated '\x7b'"
  | missingParen => "missing ')'"
  | missingParenAfterModulus => "missing ')' after the defining polynomial"
  | tooDeep limit => "nesting deeper than " ++ number limit ++ " levels"
  | bareRow got => "module rows must be parenthesised, got " ++ ofToken got

/-- Why a term order does not fit a number of variables. -/
inductive OrderFault where
  | noRows
  | rowLength (row : List UInt64) (nvars : Nat)
  | splitPoint (point nvars : Nat)
  deriving DecidableEq

/-- The wording of a misfit between order and variables. -/
def OrderFault.message : OrderFault → String
  | noRows => "weight matrix has no rows"
  | rowLength row nvars =>
    "weight row " ++ ofText (Text.bracketed (row.map fun w => Text.decimal w.toNat)) ++
      " has " ++ number row.length ++ " entries for " ++ number nvars ++ " variables"
  | splitPoint point nvars =>
    "split index " ++ number point ++ " exceeds " ++ number nvars ++ " variables"

/-- Why a ring cannot be built, or an element not inverted. -/
inductive RingFault where
  | smallModulus (modulus : Int)
  | notInvertible (element : Text)
  | order (fault : OrderFault)
  | repeatedVariable (name : Text)
  | generatorCount (count : Nat)
  | constantModulus (modulus : Text)
  deriving DecidableEq

/-- The wording of a fault of a ring. -/
def RingFault.message : RingFault → String
  | smallModulus modulus =>
    "invalid modulus: " ++ ofText (Text.decimalInt modulus) ++ " (must be at least 2)"
  | notInvertible element => ofText element ++ " has no inverse"
  | order fault => "invalid polynomial ring: " ++ fault.message
  | repeatedVariable name => "invalid polynomial ring: variable " ++ named name ++ " declared twice"
  | generatorCount count =>
    "invalid polynomial ring: an algebraic extension needs exactly one variable, got " ++
      number count
  | constantModulus modulus =>
    "invalid polynomial ring: defining polynomial " ++ named modulus ++ " has degree 0"

/-- Why a text is no integer. -/
inductive IntegerFault where
  | empty
  | invalidDigit
  deriving DecidableEq

/-- The wording of a fault of an integer. -/
def IntegerFault.message : IntegerFault → String
  | empty => "cannot parse integer from empty string"
  | invalidDigit => "invalid digit found in string"

/-- Why a text is no fixed-point decimal. -/
inductive DecimalFault where
  | empty
  | secondPoint
  | leadingUnderscore
  | unknownCharacter
  | noDigits
  | tooManyDigits
  | roundedUp
  | exponentText
  | scale (exponent : Nat)
  | tooLarge
  deriving DecidableEq

/-- The wording of a fault of a fixed-point decimal. -/
def DecimalFault.message : DecimalFault → String
  | empty => "Invalid decimal: empty"
  | secondPoint => "Invalid decimal: two decimal points"
  | leadingUnderscore => "Invalid decimal: must start lead with a number"
  | unknownCharacter => "Invalid decimal: unknown character"
  | noDigits => "Invalid decimal: no digits found"
  | tooManyDigits => "Invalid decimal: overflow from too many digits"
  | roundedUp => "Invalid decimal: overflow from mantissa after rounding"
  | exponentText => "Failed to parse"
  | .scale exponent =>
    "Scale exceeds the maximum precision allowed: " ++ number exponent ++ " > 28"
  | tooLarge => "Number exceeds maximum value that can be represented."

/-- A part of a ring descriptor that is unsupported or incomplete. -/
inductive DescriptorFault where
  | weightWord (word : Text)
  | weightToken (got : Token)
  | weightRow (got : Token)
  | splitWord (word : Text)
  | splitToken (got : Token)
  | order (fault : OrderFault)
  | unsupported (keyword : Text)
  | modulusWord (word : Text) (fault : IntegerFault)
  | missingModulus (got : Token)
  | noFunctionVariables
  | missingBracket (got : Token)
  | generators (names : List Text)
  | ring (fault : RingFault)
  deriving DecidableEq

/-- The wording of a fault of a ring descriptor. -/
def DescriptorFault.message : DescriptorFault → String
  | weightWord word => "weight " ++ named word ++ " is not a non-negative integer"
  | weightToken got => "unexpected " ++ ofToken got ++ " in weight list"
  | weightRow got => "expected a weight row, got " ++ ofToken got
  | splitWord word => "split index " ++ named word ++ " is not a number"
  | splitToken got => "expected a split index, got " ++ ofToken got
  | order fault => fault.message
  | unsupported keyword => ofText keyword ++ " coefficients are not supported"
  | modulusWord word fault => "modulus " ++ named word ++ ": " ++ fault.message
  | missingModulus got => "missing modulus, got " ++ ofToken got
  | noFunctionVariables => "function coefficients need a variable list"
  | missingBracket got => "expected '[' after AN, got " ++ ofToken got
  | generators names =>
    "an algebraic extension needs exactly one variable, got " ++
      ofText (Text.bracketed (names.map Text.quoted))
  | ring fault => fault.message

/-- A step that no reader takes: putting a token back while another is held, or passing the bound
on the number of steps. -/
inductive Defect where
  | occupied (held : Token)
  | exhausted
  deriving DecidableEq

/-- The wording of a defect. -/
def Defect.message : Defect → String
  | occupied held =>
    "push_back called twice without an intervening next_token (holding Some(" ++ ofToken held ++
      "))"
  | exhausted => "the bound on the number of steps was passed"

mutual

/-- Why a text is no literal of a ring. -/
inductive LiteralFault where
  | empty
  | zeroDenominator
  | noDigits (part : Text)
  | notDecimal (part : Text)
  | integer (fault : IntegerFault)
  | denominator
  | noComponents
  | decimal (fault : DecimalFault)
  | quotient
  | noNumeralDigits
  | expression (error : ParseError)

/-- A failure of reading, with the line it was found on. -/
inductive ParseError where
  /-- The structure of an expression or a list is broken. -/
  | malformed (line : Nat) (cause : Malformation)
  /-- A symbol is neither a declared variable nor a literal of the coefficient ring. -/
  | unknownLiteral (line : Nat) (symbol : Text) (reason : LiteralFault)
  /-- A coefficient ring, variable list or term order is unsupported or incomplete. -/
  | descriptor (line : Nat) (cause : DescriptorFault)
  /-- The coefficient ring refuses a numeral, or a literal in braces or quotes. -/
  | literal (line : Nat) (literal : Text) (reason : LiteralFault)
  /-- The source failed. -/
  | stream (line : Nat) (message : String)
  /-- A step was taken that no reader takes. -/
  | defect (line : Nat) (cause : Defect)

end

deriving instance DecidableEq for LiteralFault, ParseError

mutual

/-- The wording of a refused literal's reason. -/
def LiteralFault.message : LiteralFault → String
  | .empty => "empty literal"
  | .zeroDenominator => "zero denominator"
  | .noDigits part => named part ++ " has no digits"
  | .notDecimal part => named part ++ " is not a decimal numeral"
  | .integer fault => fault.message
  | .denominator => "denominator is not invertible"
  | .noComponents => "no components"
  | .decimal fault => fault.message
  | .quotient => "division by zero or overflow"
  | .noNumeralDigits => "numeral has no digits"
  | .expression error => error.message

/-- The wording of a failure of reading. -/
def ParseError.message : ParseError → String
  | .malformed line cause => "line " ++ number line ++ ": malformed expression: " ++ cause.message
  | .unknownLiteral line symbol reason =>
    "line " ++ number line ++ ": unknown variable or literal " ++ named symbol ++ ": " ++
      reason.message
  | .descriptor line cause =>
    "line " ++ number line ++ ": invalid ring descriptor: " ++ cause.message
  | .literal line literal reason =>
    "line " ++ number line ++ ": not a number " ++ named literal ++ ": " ++ reason.message
  | .stream line message => "read failure on line " ++ number line ++ ": " ++ message
  | .defect _ cause => cause.message

end

/-- The line on which a failure was found. -/
def ParseError.line : ParseError → Nat
  | .malformed line _ | .unknownLiteral line _ _ | .descriptor line _ | .literal line _ _
  | .stream line _ | .defect line _ => line

/-- A text that a ring refuses as a literal, with the ring's name. -/
structure Refusal where
  literal : Text
  ring : Text
  reason : LiteralFault
  deriving DecidableEq

/-- The wording of a refused literal. -/
def Refusal.message (r : Refusal) : String :=
  named r.literal ++ " is not an element of " ++ ofText r.ring ++ ": " ++ r.reason.message

end PolynomialText
