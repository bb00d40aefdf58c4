import PolynomialText.Proofs.TextCursors
import PolynomialText.Proofs.TokenwiseReading

/-!
# Looking ahead agrees with scanning

A reader decides by single characters which token it will read next. Over a source without failures
these characters are those of the tokens: looking ahead changes nothing that is read later, it finds
the first character of the next token or the end of the source, and behind a word or an operator it
finds what was found before, counted on by the length of the token. All of this is seen from the
place of the scanner, where looking ahead is no step at all.
-/

namespace PolynomialText

namespace Token

/-- The character that a token starts with in its text. -/
def BeginsWith : Token → Char → Prop
  | word w, c => w.head? = some c
  | quoted _, c => c = '"' ∨ c = '\x27'
  | op d, c => d = c
  | eof, _ => False

/-- A token begins with the character that it is read from. -/
theorem beginsWith_lex (c : Char) (rest : Text) : (lex c rest).1.BeginsWith c := by
  rcases lex_cases c rest with ⟨hquote, t, hlex⟩ | ⟨-, w, hlex⟩ | ⟨-, -, -, hlex⟩
  · rw [hlex]
    exact hquote
  · rw [hlex]
    rfl
  · rw [hlex]
    rfl

/-- Blanks and finished comments are dropped in front of a token; an open comment is finished
first. -/
theorem exists_gap_of_skip {comment : Bool} {line line' : Nat} {t : Text} {c : Char} {rest : Text}
    (h : skip comment line t = (line', c :: rest)) :
    if comment then
      ∃ body gap, t = body ++ '\n' :: (gap ++ c :: rest) ∧ '\n' ∉ body ∧ Gap gap
    else ∃ gap, t = gap ++ c :: rest ∧ Gap gap := by
  induction t generalizing comment line with
  | nil => cases comment <;> simp [skip] at h
  | cons d t ih =>
    rw [skip] at h
    split at h
    · rename_i hnewline
      obtain ⟨gap, rfl, hgap⟩ := ih h
      cases comment with
      | true => exact ⟨[], gap, by rw [hnewline]; rfl, List.not_mem_nil, hgap⟩
      | false => exact ⟨d :: gap, rfl, .blank (by rw [hnewline]; decide) hgap⟩
    · rename_i hnewline
      split at h
      · rename_i hcomment
        obtain ⟨body, gap, rfl, hbody, hgap⟩ := ih h
        cases comment with
        | true => exact ⟨d :: body, gap, rfl, by simp [Ne.symm hnewline, hbody], hgap⟩
        | false =>
          obtain rfl : d = '#' := by simpa using hcomment
          exact ⟨'#' :: body ++ '\n' :: gap, by simp, .comment hbody hgap⟩
      · rename_i hcomment
        obtain rfl : comment = false := by
          cases comment
          · rfl
          · simp at hcomment
        split at h
        · rename_i hblank
          obtain ⟨gap, rfl, hgap⟩ := ih h
          exact ⟨d :: gap, rfl, .blank hblank hgap⟩
        · obtain ⟨-, hfound⟩ := Prod.mk.inj h
          exact ⟨[], hfound, .nil⟩

end Token

namespace Cursor

variable {c : Cursor}

/-- Where nothing is held, the character ahead is the one that the next token starts with, behind
blanks and comments, and there is none at the end of the text. -/
theorem peek_zero_of_free (hfree : c.held = none) :
    (c.next.1 = .eof ∧ c.peek 0 = none) ∨
      ∃ gap first rest, c.ahead = gap ++ first :: rest ∧ Token.Gap gap ∧
        Token.lex first rest = (c.next.1, c.next.2.ahead) ∧ c.peek 0 = some first := by
  rw [peek_of_free hfree, ← Token.significant?_skip false c.line 0 c.ahead]
  cases hskip : Token.skip false c.line c.ahead with
  | mk line found =>
    cases found with
    | nil =>
      rw [next_of_skip_nil hfree hskip]
      exact .inl ⟨rfl, rfl⟩
    | cons first rest =>
      obtain ⟨gap, hgap⟩ := Token.exists_gap_of_skip hskip
      obtain ⟨hnewline, hhash, hblank⟩ := Token.skip_cons_spec (congrArg Prod.snd hskip)
      rw [next_of_skip_cons hfree hskip]
      refine .inr ⟨gap, first, rest, hgap.1, hgap.2, rfl, ?_⟩
      simp [Token.significant?, hnewline, hhash, hblank]

/-- What is seen from a place is the next token and then what is seen from behind it. -/
theorem peek_eq (hquoted : ¬ c.next.1.IsQuoted) (n : Nat) :
    c.peek n =
      if h : n < c.next.1.lexeme.length then some c.next.1.lexeme[n]
      else c.next.2.peek (n - c.next.1.lexeme.length) := by
  cases hheld : c.held with
  | some t =>
    rw [peek_of_held hheld, next_of_held hheld]
    dsimp only
    rw [peek_of_free rfl]
  | none =>
    rw [peek_of_free hheld, ← Token.significant?_skip false c.line n c.ahead]
    cases hskip : Token.skip false c.line c.ahead with
    | mk line found =>
      cases found with
      | nil =>
        rw [next_of_skip_nil hheld hskip]
        dsimp only
        rw [peek_of_free rfl]
        rfl
      | cons first rest =>
        rw [next_of_skip_cons hheld hskip] at hquoted ⊢
        dsimp only at hquoted ⊢
        rw [peek_of_free rfl]
        exact Token.significant?_lex (Token.skip_cons_spec (congrArg Prod.snd hskip)) hquoted n

/-- Behind a token that is not quoted, characters are counted from its end. -/
theorem peek_next (hquoted : ¬ c.next.1.IsQuoted) (n : Nat) :
    c.next.2.peek n = c.peek (n + c.next.1.lexeme.length) := by
  rw [peek_eq hquoted, dif_neg (Nat.not_lt.2 (Nat.le_add_left _ _)), Nat.add_sub_cancel]

/-- No token is held behind the next one. -/
theorem next_held : c.next.2.held = none := by
  unfold next
  split
  · rfl
  · split <;> rfl

/-- Putting a token back that is not quoted restores what is seen. -/
theorem peek_pushBack (hquoted : ¬ c.next.1.IsQuoted) (n : Nat) :
    peek { c.next.2 with held := some c.next.1 } n = c.peek n := by
  rw [peek_eq hquoted, peek_of_held (t := c.next.1) rfl]
  split
  · rfl
  · rw [peek_of_free next_held]

end Cursor

namespace Scanner

/-! ### Calls on a scanner -/

/-- A call on a scanner. -/
inductive Move where
  /-- Return the next token. -/
  | next
  /-- Look at a significant character ahead. -/
  | peek (n : Nat)
  /-- Put the token back that was just returned. -/
  | putBack

/-- The call looks ahead. -/
def Move.isPeek : Move → Bool
  | peek _ => true
  | _ => false

/-- A scanner, and the token that it has just returned, as long as it was not put back. -/
structure Exchange where
  scanner : Scanner
  returned : Option Token

namespace Exchange

/-- A call, whether or not it fails. Where no token was just returned, none is put back. -/
def move (x : Exchange) : Move → Exchange
  | .next =>
    match Scanner.next x.scanner with
    | .ok t s => ⟨s, some t⟩
    | .error _ s => ⟨s, none⟩
  | .peek n =>
    match Scanner.peek n x.scanner with
    | .ok _ s => ⟨s, x.returned⟩
    | .error _ s => ⟨s, x.returned⟩
  | .putBack =>
    match x.returned with
    | none => x
    | some t =>
      match Scanner.pushBack t x.scanner with
      | .ok _ s => ⟨s, none⟩
      | .error _ s => ⟨s, none⟩

/-- Calls one after the other. -/
def after (x : Exchange) (moves : List Move) : Exchange := moves.foldl move x

/-- The answers to the calls for a token, each with the line that the scanner is on after it. -/
def answers (x : Exchange) : List Move → List Answer
  | [] => []
  | .next :: moves => answerOf (Scanner.next x.scanner) :: answers (x.move .next) moves
  | other :: moves => answers (x.move other) moves

/-- Two scanners at one place, which have returned the same token and can take it back. -/
structure Alike (x y : Exchange) : Prop where
  flowing : x.scanner.Flowing
  flowing' : y.scanner.Flowing
  cursor_eq : x.scanner.cursor = y.scanner.cursor
  returned_eq : x.returned = y.returned
  free : ∀ t, x.returned = some t → x.scanner.held = none

namespace Alike

variable {x y : Exchange} (h : x.Alike y)
include h

/-- Scanners at one place hold the same token. -/
theorem held_eq : x.scanner.held = y.scanner.held := congrArg Cursor.held h.cursor_eq

/-- Scanners at one place answer alike, and are at one place again. -/
theorem next : answerOf (Scanner.next x.scanner) = answerOf (Scanner.next y.scanner) ∧
    (x.move .next).Alike (y.move .next) := by
  obtain ⟨s, hnext, hflowing, hcursor⟩ := h.flowing.next
  obtain ⟨s', hnext', hflowing', hcursor'⟩ := h.flowing'.next
  rw [← h.cursor_eq] at hnext' hcursor'
  have hsame : s.cursor = s'.cursor := hcursor.trans hcursor'.symm
  unfold move
  rw [hnext, hnext']
  refine ⟨congrArg (Prod.mk _) (congrArg Cursor.line hsame), hflowing, hflowing', hsame, rfl, ?_⟩
  intro _ _
  have hheld : s.cursor.held = none := hcursor ▸ Cursor.next_held
  exact hheld

/-- Looking ahead leaves a scanner at its place. -/
theorem peek (n : Nat) : (x.move (.peek n)).Alike y := by
  obtain ⟨s, hpeek, hflowing, hcursor⟩ := h.flowing.peek n
  have hmove : x.move (.peek n) = ⟨s, x.returned⟩ := by simp only [move, hpeek]
  rw [hmove]
  refine ⟨hflowing, h.flowing', hcursor.trans h.cursor_eq, h.returned_eq, fun t ht => ?_⟩
  have hheld : s.held = x.scanner.held := congrArg Cursor.held hcursor
  exact hheld.trans (h.free t ht)

/-- A token that is put back leaves scanners at one place. -/
theorem putBack : (x.move .putBack).Alike (y.move .putBack) := by
  unfold move
  rw [← h.returned_eq]
  cases hreturned : x.returned with
  | none => exact h
  | some t =>
    have hfree := h.free t hreturned
    obtain ⟨s, hput, hflowing, hcursor⟩ := h.flowing.pushBack hfree t
    obtain ⟨s', hput', hflowing', hcursor'⟩ := h.flowing'.pushBack (h.held_eq ▸ hfree) t
    dsimp only
    rw [hput, hput']
    refine ⟨hflowing, hflowing', ?_, rfl, fun _ hnone => nomatch hnone⟩
    rw [hcursor, hcursor', h.cursor_eq]

/-- Calls without those that look ahead give the same answers and lead to the same place. -/
theorem calls (moves : List Move) :
    x.answers moves = y.answers (moves.filter (!·.isPeek)) ∧
      (x.after moves).Alike (y.after (moves.filter (!·.isPeek))) := by
  induction moves generalizing x y with
  | nil => exact ⟨rfl, h⟩
  | cons move moves ih =>
    cases move with
    | next =>
      obtain ⟨hanswer, hnext⟩ := h.next
      obtain ⟨hanswers, hafter⟩ := ih hnext
      exact ⟨congrArg₂ List.cons hanswer hanswers, hafter⟩
    | peek n => exact ih (h.peek n)
    | putBack => exact ih h.putBack

end Alike

/-- A scanner at the start of a source without failures. -/
theorem alike_start {chunks : List Chunk} (h : Read.Sound (Read.ofChunks chunks)) :
    Alike ⟨.ofReads (Read.ofChunks chunks), none⟩ ⟨.ofReads (Read.ofChunks chunks), none⟩ := by
  have hflows : (Scanner.ofReads (Read.ofChunks chunks)).Flowing :=
    flows_of_lined (.inr (.inl rfl)) (Read.lined_ofChunks chunks) h
  exact ⟨hflows, hflows, rfl, rfl, fun _ hnone => nomatch hnone⟩

end Exchange

/-! ### Looking ahead -/

/-- Looking ahead finds the same from both scanners. -/
def SeesAlike (n : Nat) (s : Scanner) (m : Nat) (s' : Scanner) : Prop :=
  ∃ found u u', peek n s = .ok found u ∧ peek m s' = .ok found u'

/-- Places with the same characters ahead are seen alike. -/
theorem Flowing.seesAlike {s s' : Scanner} (h : s.Flowing) (h' : s'.Flowing) {n m : Nat}
    (heq : s.cursor.peek n = s'.cursor.peek m) : SeesAlike n s m s' := by
  obtain ⟨u, hpeek, -⟩ := h.peek n
  obtain ⟨u', hpeek', -⟩ := h'.peek m
  exact ⟨_, u, u', hpeek, heq ▸ hpeek'⟩

/-- Where nothing is held, the character ahead is the one that the next token starts with in the
text, and there is none if that is the end of the source. -/
theorem Flowing.peek_zero {s : Scanner} (h : s.Flowing) (hfree : s.held = none) :
    ∃ t s' found u, Scanner.next s = .ok t s' ∧ Scanner.peek 0 s = .ok found u ∧
      (found = none ↔ t = .eof) ∧
      ∀ c, found = some c → t.BeginsWith c ∧ ∃ gap rest, Token.Gap gap ∧
        unread s.buffer s.pending = gap ++ c :: rest ∧
        Token.lex c rest = (t, unread s'.buffer s'.pending) := by
  obtain ⟨s', hnext, -, hcursor⟩ := h.next
  obtain ⟨u, hpeek, -⟩ := h.peek 0
  refine ⟨_, s', _, u, hnext, hpeek, ?_⟩
  rcases Cursor.peek_zero_of_free (c := s.cursor) hfree with
    ⟨heof, hnone⟩ | ⟨gap, first, rest, hahead, hgap, hlex, hfirst⟩
  · rw [hnone]
    exact ⟨⟨fun _ => heof, fun _ => rfl⟩, fun c hc => nomatch hc⟩
  · have hbegins := Token.beginsWith_lex first rest
    have hbehind : s.cursor.next.2.ahead = unread s'.buffer s'.pending := by
      rw [← hcursor]
      rfl
    rw [hlex] at hbegins
    rw [hbehind] at hlex
    rw [hfirst]
    constructor
    · constructor
      · exact fun hnone => nomatch hnone
      · intro heof
        rw [heof] at hbegins
        exact hbegins.elim
    · intro c hc
      obtain rfl := Option.some.inj hc
      exact ⟨hbegins, gap, rest, hgap, hahead, hlex⟩

/-- Behind a token that is not quoted, characters are counted from its end, until it is put back. -/
theorem Flowing.peek_behind {s s' : Scanner} (h : s.Flowing) {t : Token}
    (hnext : Scanner.next s = .ok t s') (hquoted : ¬ t.IsQuoted) :
    (∀ n, SeesAlike n s' (n + t.lexeme.length) s) ∧
      ∃ s'', Scanner.pushBack t s' = .ok () s'' ∧ ∀ n, SeesAlike n s'' n s := by
  obtain ⟨found, hfound, hflowing, hcursor⟩ := h.next
  obtain ⟨rfl, rfl⟩ := EStateM.Result.ok.inj (hnext.symm.trans hfound)
  constructor
  · intro n
    apply hflowing.seesAlike h
    rw [hcursor]
    exact Cursor.peek_next hquoted n
  · have hfree : s'.cursor.held = none := hcursor ▸ Cursor.next_held
    obtain ⟨s'', hput, hflowing', hcursor'⟩ := hflowing.pushBack hfree s.cursor.next.1
    refine ⟨s'', hput, fun n => ?_⟩
    apply hflowing'.seesAlike h
    rw [hcursor', hcursor]
    exact Cursor.peek_pushBack hquoted n

end Scanner

/-- Over a source without failures, after any calls for tokens, for characters ahead, and to put the
token back that was just returned: the calls that look ahead can be left out without a change of any
token or line. Where nothing is held, the character ahead is the one that the next token starts with
in the text, behind blanks and comments, and there is none exactly at the end of the source. Behind
a word or an operator, characters are counted from its end, and when it is put back, all characters
ahead are what they were before it was read. -/
theorem looking_ahead_agrees_with_scanning (chunks : List Chunk)
    (hsound : Read.Sound (Read.ofChunks chunks)) (moves : List Scanner.Move) :
    let start : Scanner.Exchange := ⟨.ofReads (Read.ofChunks chunks), none⟩
    let s := (start.after moves).scanner
    (start.answers moves = start.answers (moves.filter (!·.isPeek)) ∧
        s.line = (start.after (moves.filter (!·.isPeek))).scanner.line) ∧
      (s.held = none → ∃ t s' found u, Scanner.next s = .ok t s' ∧ Scanner.peek 0 s = .ok found u ∧
        (found = none ↔ t = .eof) ∧
        ∀ c, found = some c → t.BeginsWith c ∧ ∃ gap rest, Token.Gap gap ∧
          Scanner.unread s.buffer s.pending = gap ++ c :: rest ∧
          Token.lex c rest = (t, Scanner.unread s'.buffer s'.pending)) ∧
      ∀ t s', Scanner.next s = .ok t s' → (∃ w, t = .word w) ∨ (∃ c, t = .op c) →
        (∀ n, Scanner.SeesAlike n s' (n + t.lexeme.length) s) ∧
          ∃ s'', Scanner.pushBack t s' = .ok () s'' ∧ ∀ n, Scanner.SeesAlike n s'' n s := by
  intro start s
  obtain ⟨hanswers, hafter⟩ := (Scanner.Exchange.alike_start hsound).calls moves
  have hflowing : s.Flowing := hafter.flowing
  refine ⟨⟨hanswers, congrArg Cursor.line hafter.cursor_eq⟩, hflowing.peek_zero, ?_⟩
  intro t s' hnext ht
  apply hflowing.peek_behind hnext
  rcases ht with ⟨w, rfl⟩ | ⟨c, rfl⟩
  · exact id
  · exact id

/-- Characters ahead on the second line, behind a comment that holds a quote. -/
theorem look_ahead_behind_comment :
    let chunks : List Chunk := [.text "x # 'c\n".toList, .interrupt, .text " ab'd".toList]
    let moves : List Scanner.Move := [.peek 4, .next, .putBack, .peek 2, .next]
    let start : Scanner.Exchange := ⟨.ofReads (Read.ofChunks chunks), none⟩
    let s : Scanner := ⟨" # 'c\n ab'd".toList, [], 1, none⟩
    let s' : Scanner := ⟨"'d".toList, [], 2, none⟩
    Read.Sound (Read.ofChunks chunks) ∧ (start.after moves).scanner = s ∧
      start.answers moves = start.answers [.next, .putBack, .next] ∧
      Scanner.next s = .ok (.word ['a', 'b']) s' ∧ (∃ u, Scanner.peek 0 s = .ok (some 'a') u) ∧
      (∃ gap rest, Token.Gap gap ∧ " # 'c\n ab'd".toList = gap ++ 'a' :: rest) ∧
      (∀ n, Scanner.SeesAlike n s' (n + 2) s) ∧
      ∃ s'', Scanner.pushBack (.word ['a', 'b']) s' = .ok () s'' ∧
        ∀ n, Scanner.SeesAlike n s'' n s := by
  intro chunks moves start s s'
  have hreads : Read.ofChunks chunks = [.line "x # 'c\n".toList, .line " ab'd".toList] := by
    decide +kernel
  have hsound : Read.Sound (Read.ofChunks chunks) := by
    rw [hreads]
    simp [Read.Sound]
  have hs : (start.after moves).scanner = s := by decide +kernel
  have hnext : Scanner.next s = .ok (.word ['a', 'b']) s' := by rfl
  have hpeek : Scanner.peek 0 s = .ok (some 'a') s := by rfl
  have hfilter : moves.filter (!·.isPeek) = [.next, .putBack, .next] := rfl
  clear_value chunks moves
  obtain ⟨⟨hanswers, -⟩, hahead, hbehind⟩ := looking_ahead_agrees_with_scanning chunks hsound moves
  rw [hfilter] at hanswers
  rw [hs] at hahead hbehind
  obtain ⟨_, _, _, _, hnext', hpeek', -, hfirst⟩ := hahead rfl
  obtain ⟨rfl, -⟩ := EStateM.Result.ok.inj (hnext.symm.trans hnext')
  obtain ⟨rfl, -⟩ := EStateM.Result.ok.inj (hpeek.symm.trans hpeek')
  obtain ⟨-, gap, rest, hgap, htext, -⟩ := hfirst 'a' rfl
  exact ⟨hsound, hs, hanswers, hnext, ⟨s, hpeek⟩, ⟨gap, rest, hgap, htext⟩,
    hbehind _ _ hnext (.inl ⟨_, rfl⟩)⟩

end PolynomialText
