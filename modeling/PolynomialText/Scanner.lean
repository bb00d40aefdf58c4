import PolynomialText.Error
import PolynomialText.Source

/-!
# Scanning

A scanner takes reads from a source one at a time, when it needs a character of them. It can hold
one token that was put back, and it can look at significant characters ahead without reading them.

A token never spans two reads, because every line but the last ends in a newline.
-/

namespace PolynomialText

/-- The state of scanning a source. -/
structure Scanner where
  /-- Characters that were taken from the source and not yet used. -/
  buffer : Text
  /-- What the source still has to deliver. -/
  pending : List Read
  /-- The current line, counted from one. -/
  line : Nat
  /-- A token that was put back. -/
  held : Option Token
  deriving DecidableEq

namespace Scanner

/-- A scanner at the start of a source. -/
def ofReads (reads : List Read) : Scanner := ⟨[], reads, 1, none⟩

/-- A scanner at the start of a text. -/
def ofText (t : Text) : Scanner := ofReads (Read.ofText t)

/-- Scan a token from the buffer, taking reads from the source as long as nothing but blanks and
comments is left. -/
def scan (line : Nat) (buffer : Text) (pending : List Read) :
    EStateM.Result ParseError Scanner Token :=
  match Token.skip false line buffer with
  | (line', c :: rest) =>
    let lexed := Token.lex c rest
    .ok lexed.1 ⟨lexed.2, pending, line', none⟩
  | (line', []) =>
    match pending with
    | [] => .ok .eof ⟨[], [], line', none⟩
    | .failure message :: others => .error (.stream line' message) ⟨[], others, line', none⟩
    | .line t :: others => scan line' t others

/-- The next token: the one that was put back, or else one from the source. -/
def next : EStateM ParseError Scanner Token := fun s =>
  match s.held with
  | some t => .ok t { s with held := none }
  | none => scan s.line s.buffer s.pending

/-- Put a token back; a defect, without effect, if there is one already. -/
def pushBack (t : Token) : EStateM ParseError Scanner Unit := fun s =>
  match s.held with
  | some held => .error (.defect s.line (.occupied held)) s
  | none => .ok () { s with held := some t }

/-- Look for a significant character, taking reads into the buffer until it is found. -/
def lookAhead (s : Scanner) (n : Nat) (buffer : Text) (pending : List Read) :
    EStateM.Result ParseError Scanner (Option Char) :=
  match Token.significant? false n buffer with
  | some c => .ok (some c) { s with buffer := buffer, pending := pending }
  | none =>
    match pending with
    | [] => .ok none { s with buffer := buffer, pending := [] }
    | .failure message :: others =>
      .error (.stream s.line message) { s with buffer := buffer, pending := others }
    | .line t :: others => lookAhead s n (buffer ++ t) others

/-- The significant character with the given number ahead, if there is one. A token that was put
back counts with its own characters. -/
def peek (n : Nat) : EStateM ParseError Scanner (Option Char) := fun s =>
  let lexeme := (s.held.map Token.lexeme).getD []
  match lexeme[n]? with
  | some c => .ok (some c) s
  | none => lookAhead s (n - lexeme.length) s.buffer s.pending

/-- The amount still to be read: what the source and the buffer hold, and a held token. -/
def remaining (s : Scanner) : Nat :=
  s.buffer.length + Read.totalSize s.pending + (s.held.map Token.weight).getD 0

/-- A token that is put back is the next one. -/
theorem next_of_held {s : Scanner} {t : Token} (h : s.held = some t) :
    next s = .ok t { s with held := none } := by
  simp [next, h]

/-- A token can be put back exactly when nothing is held. -/
theorem pushBack_eq_ok_iff {s : Scanner} {t : Token} :
    (∃ s', pushBack t s = .ok () s') ↔ s.held = none := by
  cases h : s.held <;> simp [pushBack, h]

end Scanner

end PolynomialText
