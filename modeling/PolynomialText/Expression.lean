import PolynomialText.PolyRing
import PolynomialText.Session
import PolynomialText.Text.Alphabetic

/-!
# Expressions

An expression is a sum of signed terms, and a term a product of factors with optional exponents:
numerals, variables, literals of the coefficient ring in braces or quotes, and expressions in
parentheses. Factors are joined by a star or by standing side by side, and multiply from the right.
Other operators between factors are skipped.

An expression ends with a comma, a closing parenthesis or the source, or in front of a closing
character that the caller names.
-/

namespace PolynomialText

/-- How an expression ended. -/
inductive Terminator where
  /-- A comma was read. -/
  | comma
  /-- A closing parenthesis was read. -/
  | close
  /-- The source ended, or the caller's closing character follows. -/
  | finish
  deriving DecidableEq

/-- A factor of a term. -/
inductive Factor (α : Type) where
  | coefficient (c : α)
  | variable (index : Nat)
  | polynomial (p : Poly α)

/-- The sum of the finished terms, and the term that is being multiplied together. -/
structure Accumulator (α : Type) where
  sum : Poly α
  term : Poly α
  /-- The term has a factor. -/
  pending : Bool

namespace Accumulator

variable {α : Type} (R : PolyRing α)

/-- Nothing was read. -/
def start : Accumulator α := ⟨.zero, R.one, false⟩

/-- Read a minus sign. -/
def negate (acc : Accumulator α) : Accumulator α :=
  { acc with term := acc.term.neg R.coefficients }

/-- Multiply the term by a power of a factor, from the right. -/
def multiply (acc : Accumulator α) (factor : Factor α) (exponent : UInt64) : Accumulator α where
  sum := acc.sum
  term := match factor with
    | .coefficient c => acc.term.scale R.coefficients (R.coefficients.pow c exponent)
    | .variable index => acc.term.mul R.coefficients (R.univariate index exponent)
    | .polynomial p => acc.term.mul R.coefficients (R.pow p exponent)
  pending := true

/-- The sum with the term, unless the term is only signs. -/
def total (acc : Accumulator α) : Poly α :=
  if acc.pending then acc.sum.add R.coefficients acc.term else acc.sum

/-- Finish the term. -/
def flush (acc : Accumulator α) : Accumulator α := ⟨acc.total R, R.one, false⟩

end Accumulator

/-- What a token does where a factor may start. -/
inductive Role where
  /-- A minus sign negates the term. -/
  | negate
  /-- Other signs, stars and stray operators do nothing. -/
  | skip
  /-- A delimiter ends the expression. -/
  | stop (terminator : Terminator)
  /-- The caller's closing character ends it and is left unread. -/
  | leave
  | strayBrace
  | openBrace
  | openParen
  | quoted (t : Text)
  | numeral (w : Text)
  | symbol (w : Text)
  deriving DecidableEq

/-- The first character of a numeral. -/
def isNumeralStart (c : Char) : Bool := c.isDigit || c = '/' || c = '.' || c = '~'

/-- The role of a token. -/
def Role.ofToken (closer : Option Char) : Token → Role
  | .eof => .stop .finish
  | .quoted t => .quoted t
  | .word w => if w.head?.any isNumeralStart then .numeral w else .symbol w
  | .op c =>
    if c = '-' then .negate
    else if c = '+' ∨ c = '*' then .skip
    else if c = ')' then .stop .close
    else if c = ',' then .stop .comma
    else if some c = closer then .leave
    else if c = '\x7d' then .strayBrace
    else if c = '\x7b' then .openBrace
    else if c = '(' then .openParen
    else .skip

/-- The first character of a symbol that is run on to a numeral. -/
def isSymbolStart (c : Char) : Bool := Text.isAlphabetic c || c = '_'

/-- A numeral and the symbol that is run on to it, as in `3x`. -/
def splitJuxtaposed? (t : Text) : Option (Text × Text) :=
  let numeral := t.takeWhile (!isSymbolStart ·)
  let symbol := t.dropWhile (!isSymbolStart ·)
  if numeral = [] ∨ symbol = [] then none else some (numeral, symbol)

/-- A text with a symbol run on to it is cut at the first character that starts a symbol. -/
theorem splitJuxtaposed?_eq_some {t number symbol : Text}
    (h : splitJuxtaposed? t = some (number, symbol)) :
    number = t.takeWhile (!isSymbolStart ·) ∧ symbol = t.dropWhile (!isSymbolStart ·) ∧
      symbol ≠ [] := by
  unfold splitJuxtaposed? at h
  dsimp only at h
  split at h
  · contradiction
  · rename_i hne
    obtain ⟨rfl, rfl⟩ := Prod.mk.inj (Option.some.inj h)
    exact ⟨rfl, rfl, (not_or.1 hne).2⟩

/-- What is run on to a numeral starts as a symbol. -/
theorem exists_cons_of_splitJuxtaposed? {t number symbol : Text}
    (h : splitJuxtaposed? t = some (number, symbol)) :
    ∃ c w, symbol = c :: w ∧ isSymbolStart c = true := by
  obtain ⟨-, rfl, hne⟩ := splitJuxtaposed?_eq_some h
  obtain ⟨c, w, hcons⟩ := List.exists_cons_of_ne_nil hne
  refine ⟨c, w, hcons, ?_⟩
  have hhead := List.head_dropWhile_not (!isSymbolStart ·) hne
  simpa only [hcons, List.head_cons, Bool.not_eq_eq_eq_not, Bool.not_false] using hhead

namespace Reader

/-- Put a token back that starts no exponent. -/
def noExponent (t : Token) : Reader UInt64 := do
  pushBack t
  return 1

/-- The digits at the start of an exponent word; a symbol that is run on to them is put back. -/
def exponentWord : Reader UInt64 := do
  match ← advance with
  | .word w =>
    let digits := w.takeWhile Char.isDigit
    match Text.word? digits with
    | none => malformed (.exponentOutOfRange digits)
    | some exponent =>
      match w.dropWhile Char.isDigit with
      | [] => return exponent
      | c :: rest =>
        if isSymbolStart c then
          pushBack (.word (c :: rest))
          return exponent
        else malformed (.exponentWord w)
  | other => malformed (.missingExponent other)

/-- The exponent behind a mark that was read, of which the given number of characters is still
ahead. A mark that no number follows is put back. -/
def exponentAfter (mark : Token) (ahead : Nat) : Reader UInt64 := do
  match ← peek ahead with
  | none => noExponent mark
  | some c =>
    if c.isDigit then
      if ahead = 1 then
        let _ ← advance
      exponentWord
    else if c = '~' then malformed .negativeExponent
    else if c = '-' then
      if ← digitAhead (ahead + 1) then malformed .negativeExponent else noExponent mark
    else if c = '.' ∨ c = '/' then malformed .fractionalExponent
    else noExponent mark

/-- An exponent after a caret or two stars, or else one. -/
def exponent : Reader UInt64 := do
  let t ← advance
  if t = .op '^' then exponentAfter t 0
  else if t = .op '*' then
    if (← peek 0) = some '*' then exponentAfter t 1 else noExponent t
  else noExponent t

/-- The text of a literal in braces as far as it was read. -/
structure Braces where
  text : Text
  /-- The number of inner braces that are open. -/
  level : Nat
  /-- The last token was a word. -/
  afterWord : Bool

/-- Read a token of a literal in braces. Words that stand side by side are separated by a blank,
unless the first ends in a point. -/
def bracesStep (b : Braces) : Reader (Braces ⊕ Text) := do
  match ← advance with
  | .eof => malformed .openBrace
  | .op c =>
    if c = '\x7d' then
      if b.level = 0 then return .inr b.text
      else return .inl ⟨b.text ++ [c], b.level - 1, false⟩
    else if c = '\x7b' then
      checkDepth (b.level + 1)
      return .inl ⟨b.text ++ [c], b.level + 1, false⟩
    else return .inl ⟨b.text ++ [c], b.level, false⟩
  | .word w =>
    let gap := if b.afterWord ∧ b.text.getLast? ≠ some '.' then [' '] else []
    return .inl ⟨b.text ++ gap ++ w, b.level, true⟩
  | .quoted t => return .inl ⟨b.text ++ '"' :: t ++ ['"'], b.level, false⟩

/-- The text of a literal in braces, after the opening brace. -/
def bracesText : Reader Text := loop bracesStep ⟨[], 0, false⟩

section

variable {α : Type} (R : PolyRing α)

/-- A text as a literal of the coefficient ring, some levels below the current one. -/
def literal? (t : Text) (extra : Nat) : Reader (Except LiteralFault α) := fun s =>
  .ok (R.coefficients.readWithin s.limits (s.depth + extra) t) s

/-- A text that has to be a literal of the coefficient ring. -/
def literal (t : Text) (extra : Nat) : Reader α := do
  match ← literal? R t extra with
  | .ok c => return c
  | .error fault => literalFailure t fault

/-- A numeral that ends in the imaginary unit takes the signed number behind it, because the sign
has cut the literal in two. -/
def joinImaginary (t : Text) : Reader Text := do
  if t.getLast? = some 'i' ∧ R.coefficients.kind.isHypercomplex then
    match ← peek 0 with
    | none => return t
    | some sign =>
      if sign = '-' ∨ sign = '+' then
        if ← digitAhead 1 then
          let _ ← advance
          match ← advance with
          | .word imaginary => return t ++ sign :: imaginary
          | other =>
            pushBack other
            return t
        else return t
      else return t
  else return t

/-- A numeral with a leading slash or point is completed. -/
def completeNumeral : Text → Text
  | '/' :: rest => '1' :: '/' :: rest
  | '.' :: rest => '0' :: '.' :: rest
  | t => t

/-- A numeral. If the coefficient ring refuses it as a whole, a symbol that is run on to it is put
back. -/
def numeral (w : Text) : Reader (Factor α) := do
  if !w.any Char.isDigit then
    throw (.literal (← line) w .noNumeralDigits)
  else
    let t ← joinImaginary R (completeNumeral w)
    match ← literal? R t 0 with
    | .ok c => return .coefficient c
    | .error fault =>
      match splitJuxtaposed? t with
      | none => literalFailure t fault
      | some (number, symbol) =>
        let c ← literal R number 0
        pushBack (.word symbol)
        return .coefficient c

/-- A declared variable, or else a literal of the coefficient ring. -/
def symbol (w : Text) : Reader (Factor α) := do
  match R.varIndex? w with
  | some index => return .variable index
  | none =>
    match ← literal? R w 0 with
    | .ok c => return .coefficient c
    | .error fault => throw (.unknownLiteral (← line) w fault)

/-- Multiply by a factor with its exponent, and finish the term if a sign follows. -/
def multiplied (acc : Accumulator α) (factor : Factor α) : Reader (Accumulator α) := do
  let k ← exponent
  let acc' := acc.multiply R factor k
  let next ← advance
  pushBack next
  return if next = .op '-' ∨ next = .op '+' then acc'.flush R else acc'

/-- Read an expression in at most the given number of passes, each of which reads a token where a
factor may start. -/
def expressionFrom : Nat → Option Char → Accumulator α → Reader (Poly α × Terminator)
  | 0, _, _ => exhausted
  | fuel + 1, closer, acc => do
    let t ← advance
    match Role.ofToken closer t with
    | .negate => expressionFrom fuel closer (acc.negate R)
    | .skip => expressionFrom fuel closer acc
    | .stop terminator => return (acc.total R, terminator)
    | .leave =>
      pushBack t
      return (acc.total R, .finish)
    | .strayBrace => malformed .strayBrace
    | .openBrace =>
      let text ← nested bracesText
      let c ← literal R text 1
      expressionFrom fuel closer (← multiplied R acc (.coefficient c))
    | .openParen =>
      let (p, terminator) ← nested (expressionFrom fuel none (.start R))
      if terminator ≠ .close then malformed .missingParen
      else expressionFrom fuel closer (← multiplied R acc (.polynomial p))
    | .quoted text =>
      let c ← literal R text 1
      expressionFrom fuel closer (← multiplied R acc (.coefficient c))
    | .numeral w =>
      let factor ← numeral R w
      expressionFrom fuel closer (← multiplied R acc factor)
    | .symbol w =>
      let factor ← symbol R w
      expressionFrom fuel closer (← multiplied R acc factor)

/-- An expression, and how it ended. -/
def expression (closer : Option Char) : Reader (Poly α × Terminator) := do
  expressionFrom R (← passes) closer (.start R)

/-- One polynomial, up to and with the delimiter that ends it. An empty expression is zero. -/
def polynomial : Reader (Poly α) := do
  return (← expression R none).1

/-- A text as one polynomial, below a number of open levels. -/
def polynomialOf (limits : Limits) (depth : Nat) (t : Text) : Except ParseError (Poly α) :=
  match polynomial R (.ofText t limits depth) with
  | .ok p _ => .ok p
  | .error e _ => .error e

end

end Reader

end PolynomialText
