import PolynomialText.Limits
import PolynomialText.Scanner

/-!
# Reading sessions

A reader works on a session: a scanner, the limits to keep to, the nesting levels that are open,
and the notes collected so far. The session survives a failure, so that reading can go on behind
it. Loops are bounded by the amount still to be read, because every pass reads something.
-/

namespace PolynomialText

/-- The state of reading. -/
structure Session where
  scanner : Scanner
  limits : Limits
  depth : Nat
  advisories : List String
  deriving DecidableEq

/-- A reader takes a session to a result or a failure, and to the session after it. -/
abbrev Reader := EStateM ParseError Session

namespace Session

/-- A session at the start of a source. -/
def ofReads (reads : List Read) (limits : Limits := {}) : Session :=
  ⟨.ofReads reads, limits, 0, []⟩

/-- A session at the start of a text, below a number of open levels. -/
def ofText (t : Text) (limits : Limits := {}) (depth : Nat := 0) : Session :=
  ⟨.ofText t, limits, depth, []⟩

end Session

namespace Reader

/-- Run a step of the scanner. -/
def scanning {α : Type} (step : EStateM ParseError Scanner α) : Reader α := fun s =>
  match step s.scanner with
  | .ok a scanner => .ok a { s with scanner }
  | .error e scanner => .error e { s with scanner }

/-- Read the next token. -/
def advance : Reader Token := scanning Scanner.next

/-- Put a token back. -/
def pushBack (t : Token) : Reader Unit := scanning (Scanner.pushBack t)

/-- Look at a significant character ahead. -/
def peek (n : Nat) : Reader (Option Char) := scanning (Scanner.peek n)

/-- A digit is ahead. -/
def digitAhead (n : Nat) : Reader Bool := do
  return (← peek n).any Char.isDigit

/-- The current line. -/
def line : Reader Nat := fun s => .ok s.scanner.line s

/-- Fail with a structural fault on the current line. -/
def malformed {α : Type} (cause : Malformation) : Reader α := do
  throw (.malformed (← line) cause)

/-- Fail with a fault of a ring descriptor on the current line. -/
def invalidRing {α : Type} (cause : DescriptorFault) : Reader α := do
  throw (.descriptor (← line) cause)

/-- Fail with a refused literal on the current line. A structural fault inside the literal stays
one. -/
def literalFailure {α : Type} (literal : Text) (fault : LiteralFault) : Reader α := do
  match fault with
  | .expression (.malformed _ cause) => malformed cause
  | _ => throw (.literal (← line) literal fault)

/-- The value of a ring that could be built, or a fault of its descriptor. -/
def orInvalidRing {α : Type} : Except RingFault α → Reader α
  | .ok a => return a
  | .error fault => invalidRing (.ring fault)

/-- Collect a note. -/
def advise (note : String) : Reader Unit :=
  modify fun s => { s with advisories := s.advisories ++ [note] }

/-- Fail if further levels would pass the limit on nesting. -/
def checkDepth (extra : Nat) : Reader Unit := do
  let s ← get
  if s.limits.maxDepth.toNat < s.depth + extra then malformed (.tooDeep s.limits.maxDepth.toNat)

/-- Run a reader with one more level open, which is closed again even if it fails. -/
def deeper {α : Type} (reader : Reader α) : Reader α := fun s =>
  match reader { s with depth := s.depth + 1 } with
  | .ok a s' => .ok a { s' with depth := s'.depth - 1 }
  | .error e s' => .error e { s' with depth := s'.depth - 1 }

/-- Run a reader one nesting level deeper, if the limit allows it. -/
def nested {α : Type} (reader : Reader α) : Reader α := do
  checkDepth 1
  deeper reader

/-- Fail because the bound on the number of steps was passed. -/
def exhausted {α : Type} : Reader α := do
  throw (.defect (← line) .exhausted)

/-- A bound on the number of passes of a loop in which every pass reads something. -/
def passes : Reader Nat := fun s => .ok (s.scanner.remaining + 1) s

/-- Repeat a step, at most the given number of times, until it gives a result. -/
def iterate {σ β : Type} (step : σ → Reader (σ ⊕ β)) : Nat → σ → Reader β
  | 0, _ => exhausted
  | fuel + 1, state => do
    match ← step state with
    | .inl state' => iterate step fuel state'
    | .inr result => return result

/-- Repeat a step until it gives a result. -/
def loop {σ β : Type} (step : σ → Reader (σ ⊕ β)) (state : σ) : Reader β := do
  iterate step (← passes) state

/-- Read an operator if it is the next token. -/
def skipOp (c : Char) : Reader Unit := do
  let t ← advance
  if t ≠ .op c then pushBack t

end Reader

end PolynomialText
