import PolynomialText.Proofs.LineScanning

/-!
# A scanner as a place in a text

A scanner without failures ahead is a place in a text: the characters ahead, the line, and a token
that was put back. A `Cursor` is such a place, and tokens are scanned, put back and looked at on it
without a source. How the characters ahead are divided into a buffer and pending lines cannot be
seen: `Scanner.cursor` forgets it, and every step of a scanner is the step of its cursor.
-/

namespace PolynomialText

/-- A place in a text. -/
structure Cursor where
  /-- The characters that are not yet used. -/
  ahead : Text
  /-- The current line, counted from one. -/
  line : Nat
  /-- A token that was put back. -/
  held : Option Token

namespace Cursor

/-- The next token, and the place behind it. -/
def next (c : Cursor) : Token × Cursor :=
  match c.held with
  | some t => (t, { c with held := none })
  | none =>
    match Token.skip false c.line c.ahead with
    | (line, []) => (.eof, ⟨[], line, none⟩)
    | (line, first :: rest) => ((Token.lex first rest).1, ⟨(Token.lex first rest).2, line, none⟩)

/-- The significant character with the given number ahead. -/
def peek (c : Cursor) (n : Nat) : Option Char :=
  let lexeme := (c.held.map Token.lexeme).getD []
  lexeme[n]?.or (Token.significant? false (n - lexeme.length) c.ahead)

/-- A token that was put back is the next one. -/
theorem next_of_held {c : Cursor} {t : Token} (h : c.held = some t) :
    c.next = (t, { c with held := none }) := by
  rw [next, h]

/-- Behind blanks and comments the next token starts with the character that follows them. -/
theorem next_of_skip_cons {c : Cursor} (hfree : c.held = none) {line : Nat} {first : Char}
    {rest : Text} (h : Token.skip false c.line c.ahead = (line, first :: rest)) :
    c.next = ((Token.lex first rest).1, ⟨(Token.lex first rest).2, line, none⟩) := by
  rw [next, hfree]
  dsimp only
  rw [h]

/-- Behind blanks and comments at the end of a text nothing is left. -/
theorem next_of_skip_nil {c : Cursor} (hfree : c.held = none) {line : Nat}
    (h : Token.skip false c.line c.ahead = (line, [])) : c.next = (.eof, ⟨[], line, none⟩) := by
  rw [next, hfree]
  dsimp only
  rw [h]

/-- Without a held token the characters ahead are looked at. -/
theorem peek_of_free {c : Cursor} (hfree : c.held = none) (n : Nat) :
    c.peek n = Token.significant? false n c.ahead := by
  simp [peek, hfree]

/-- A held token is looked at with its own characters. -/
theorem peek_of_held {c : Cursor} {t : Token} (h : c.held = some t) (n : Nat) :
    c.peek n =
      if h : n < t.lexeme.length then some t.lexeme[n]
      else Token.significant? false (n - t.lexeme.length) c.ahead := by
  unfold peek
  rw [h]
  dsimp only [Option.map_some, Option.getD_some]
  split
  · rename_i hlt
    rw [List.getElem?_eq_getElem hlt, Option.some_or]
  · rename_i hge
    rw [List.getElem?_eq_none (Nat.le_of_not_lt hge), Option.none_or]

end Cursor

namespace Scanner

/-- No failure is ahead of the scanner, and every line but the last ends with a newline. -/
def Flowing (s : Scanner) : Prop := Flows s.buffer s.pending

/-- The place of a scanner. -/
def cursor (s : Scanner) : Cursor := ⟨unread s.buffer s.pending, s.line, s.held⟩

/-- Scanning line by line is scanning the whole text. -/
theorem scan_eq_next {line : Nat} {buffer : Text} {pending : List Read}
    (hflows : Flows buffer pending) :
    ∃ s, scan line buffer pending = .ok (cursor ⟨buffer, pending, line, none⟩).next.1 s ∧
      s.Flowing ∧ s.cursor = (cursor ⟨buffer, pending, line, none⟩).next.2 := by
  obtain ⟨s, hscan, hfree, hflows'⟩ := scan_unread line hflows
  cases hskip : Token.skip false line (unread buffer pending) with
  | mk line' found =>
    rw [hskip] at hscan
    cases found with
    | nil =>
      obtain ⟨hscan, hunread, hline⟩ := hscan
      rw [Cursor.next_of_skip_nil (c := cursor ⟨buffer, pending, line, none⟩) rfl hskip]
      exact ⟨s, hscan, hflows', by rw [cursor, hunread, hline, hfree]⟩
    | cons c rest =>
      obtain ⟨hscan, hunread, hline⟩ := hscan
      rw [Cursor.next_of_skip_cons (c := cursor ⟨buffer, pending, line, none⟩) rfl hskip]
      exact ⟨s, hscan, hflows', by rw [cursor, hunread, hline, hfree]⟩

section

variable {s : Scanner} (h : s.Flowing)
include h

/-- The next token of a scanner is the one at its place. -/
theorem Flowing.next : ∃ s', Scanner.next s = .ok s.cursor.next.1 s' ∧ s'.Flowing ∧
    s'.cursor = s.cursor.next.2 := by
  cases hheld : s.held with
  | some t =>
    rw [next_of_held hheld, Cursor.next_of_held (c := s.cursor) hheld]
    exact ⟨_, rfl, h, rfl⟩
  | none =>
    obtain ⟨buffer, pending, line, held⟩ := s
    obtain rfl : held = none := hheld
    exact scan_eq_next h

/-- Looking ahead gives what can be seen from the place, and stays there. -/
theorem Flowing.peek (n : Nat) : ∃ s', Scanner.peek n s = .ok (s.cursor.peek n) s' ∧ s'.Flowing ∧
    s'.cursor = s.cursor := by
  unfold Scanner.peek Cursor.peek
  dsimp only [cursor]
  cases hfound : ((s.held.map Token.lexeme).getD [])[n]? with
  | some c => exact ⟨s, rfl, h, rfl⟩
  | none =>
    obtain ⟨buffer, pending, hlook, hflows, hunread⟩ :=
      lookAhead_view s (n - ((s.held.map Token.lexeme).getD []).length) h
    refine ⟨_, hlook, hflows, ?_⟩
    dsimp only [cursor]
    rw [hunread]

/-- Putting a token back changes nothing but the token that is held. -/
theorem Flowing.pushBack (hfree : s.held = none) (t : Token) :
    ∃ s', Scanner.pushBack t s = .ok () s' ∧ s'.Flowing ∧
      s'.cursor = { s.cursor with held := some t } :=
  ⟨{ s with held := some t }, by simp [Scanner.pushBack, hfree], h, rfl⟩

end

end Scanner

end PolynomialText
