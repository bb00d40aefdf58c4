import PolynomialText.Proofs.SafeSessions
import PolynomialText.Proofs.TextCursors
import PolynomialText.Proofs.UsedNames

/-!
# Where unknown symbols stand

A symbol that is neither a variable nor a literal is reported with the current line. Between the
word and the report the scanner has looked past blanks, comments and line ends, the word may have
been put back and read again, and the symbol may be what was left of a numeral or of an exponent.
The line is that of the word nevertheless: a word is held only right behind the place where it was
scanned, and looking ahead moves no line. `Reader.Locates` is the rule that every reader of an
expression follows, with one condition for its results and one for its failures.
-/

namespace PolynomialText

namespace Token

/-! ### Tokens at their places -/

/-- The places of a text where scanning can stand: in front of it, behind each of its tokens, and at
its end. -/
inductive Rests (t : Text) : Text → Prop
  | whole : Rests t t
  | token {u rest : Text} {c : Char} (h : Rests t u) (hstart : start u = c :: rest) :
      Rests t (lex c rest).2
  | finish {u : Text} (h : Rests t u) (hstart : start u = []) : Rests t []

/-- A token of a text, with the text in front of it and the text behind it. -/
def Occurs (t before : Text) (token : Token) (after : Text) : Prop :=
  ∃ u c rest, Rests t u ∧ start u = c :: rest ∧ lex c rest = (token, after) ∧
    t = before ++ c :: rest

section

variable {t before after u v w : Text}

/-- What is left at a place is an end of the text. -/
theorem Rests.suffix (h : Rests t u) : u <:+ t := by
  induction h with
  | whole => exact List.suffix_rfl
  | @token u rest c _ hstart ih =>
    have hskip : c :: rest <:+ u := hstart ▸ skip_suffix false 0 u
    exact (lex_suffix c rest).trans ((List.suffix_cons c rest).trans (hskip.trans ih))
  | finish => exact List.nil_suffix

/-- At a place some of the tokens of the text are behind, and the others are ahead. -/
theorem Rests.exists_ofText_eq (h : Rests t u) : ∃ tokens, ofText t = tokens ++ ofText u := by
  induction h with
  | whole => exact ⟨[], rfl⟩
  | @token u rest c _ hstart ih =>
    obtain ⟨tokens, htokens⟩ := ih
    refine ⟨tokens ++ [(lex c rest).1], ?_⟩
    rw [htokens, ofText_of_start_cons hstart, List.append_assoc]
    rfl
  | @finish u _ hstart ih =>
    obtain ⟨tokens, htokens⟩ := ih
    refine ⟨tokens, ?_⟩
    rw [htokens, ofText_of_start_nil hstart, ofText_of_start_nil (t := []) rfl]

/-- A token at its place is one of the tokens of the text. -/
theorem Occurs.exists_ofText_eq {token : Token} (h : Occurs t before token after) :
    ∃ tokens, ofText t = tokens ++ token :: ofText after := by
  obtain ⟨u, c, rest, hrests, hstart, hlex, -⟩ := h
  obtain ⟨tokens, htokens⟩ := hrests.exists_ofText_eq
  exact ⟨tokens, by rw [htokens, ofText_of_start_cons hstart, hlex]⟩

/-- A word is cut out of the characters that start it. -/
theorem of_lex_eq_word {c : Char} {rest : Text} (h : lex c rest = (word v, after)) :
    c :: rest = v ++ after ∧ v.IsWord := by
  unfold lex at h
  split at h
  · cases h
  · split at h
    · rename_i hword
      obtain ⟨hv, rfl⟩ := Prod.mk.inj h
      obtain rfl := word.inj hv
      refine ⟨by rw [List.cons_append, List.takeWhile_append_dropWhile], List.cons_ne_nil _ _, ?_⟩
      exact List.forall_mem_cons.2 ⟨hword, List.all_eq_true.1 List.all_takeWhile⟩
    · cases h

/-- A word stands in the text between the parts around it. -/
theorem Occurs.eq_append (h : Occurs t before (word v) after) : t = before ++ v ++ after := by
  obtain ⟨u, c, rest, -, -, hlex, rfl⟩ := h
  rw [(of_lex_eq_word hlex).1, List.append_assoc]

/-- A word is on one line. -/
theorem Occurs.count_newline (h : Occurs t before (word v) after) : v.count '\n' = 0 := by
  obtain ⟨u, c, rest, -, -, hlex, -⟩ := h
  rw [List.count_eq_zero]
  intro hmem
  exact ne_newline_of_isWordChar ((of_lex_eq_word hlex).2.2 _ hmem) rfl

end

end Token

namespace Cursor

/-- The place is right behind a word of the text that ends with the given characters. -/
def Behind (t w : Text) (c : Cursor) : Prop :=
  w ≠ [] ∧ ∃ before v, Token.Occurs t before (.word v) c.ahead ∧ w <:+ v

/-- A place that scanning the text has reached. The lines are counted, and a word that was put back
is the end of the one in front of the place. -/
structure Within (t : Text) (c : Cursor) : Prop where
  rests : Token.Rests t c.ahead
  line_eq : c.line + c.ahead.count '\n' = 1 + t.count '\n'
  held : ∀ w, c.held = some (.word w) → c.Behind t w

section

variable {t w : Text} {c : Cursor} (h : c.Within t)
include h

/-- Reading a token leads on to such a place, right behind the token if it is a word. -/
theorem Within.next : c.next.2.Within t ∧ c.next.2.held = none ∧
    ∀ w, c.next.1 = .word w → c.next.2.Behind t w := by
  cases hheld : c.held with
  | some token =>
    rw [next_of_held hheld]
    exact ⟨⟨h.rests, h.line_eq, nofun⟩, rfl, fun w hw => h.held w (hheld.trans (congrArg some hw))⟩
  | none =>
    obtain ⟨dropped, hsplit, hline⟩ := Token.skip_spec false c.line c.ahead
    have hstart : Token.start c.ahead = (Token.skip false c.line c.ahead).2 :=
      Token.skip_snd false _ _ _
    have hcount := h.line_eq
    cases hskip : Token.skip false c.line c.ahead with
    | mk line found =>
      rw [hskip] at hsplit hline hstart
      dsimp only at hsplit hline hstart
      rw [hsplit, List.count_append] at hcount
      cases found with
      | nil =>
        rw [next_of_skip_nil hheld hskip]
        refine ⟨⟨h.rests.finish hstart, ?_, nofun⟩, rfl, nofun⟩
        dsimp only
        omega
      | cons first rest =>
        rw [next_of_skip_cons hheld hskip]
        have hne : first ≠ '\n' := (Token.skip_cons_spec (congrArg Prod.snd hskip)).1
        rw [List.count_cons_of_ne hne, ← Token.count_newline_lex first rest] at hcount
        refine ⟨⟨h.rests.token hstart, ?_, nofun⟩, rfl, fun w hw => ?_⟩
        · dsimp only
          omega
        · have hlex : Token.lex first rest = (.word w, (Token.lex first rest).2) :=
            Prod.ext hw rfl
          obtain ⟨before, hbefore⟩ := h.rests.suffix
          refine ⟨(Token.of_lex_eq_word hlex).2.1, before ++ dropped, w, ?_, List.suffix_rfl⟩
          refine ⟨c.ahead, first, rest, h.rests, hstart, hlex, ?_⟩
          rw [← hbefore, List.append_assoc, ← hsplit]

/-- A word is on the line that its place counts. -/
theorem Within.located (hw : c.Behind t w) : ∃ before v, Token.Occurs t before (.word v) c.ahead ∧
    t = before ++ v ++ c.ahead ∧ w <:+ v ∧ c.line = 1 + before.count '\n' := by
  obtain ⟨-, before, v, hoccurs, hsuffix⟩ := hw
  have hsplit := hoccurs.eq_append
  refine ⟨before, v, hoccurs, hsplit, hsuffix, ?_⟩
  have hcount := congrArg (List.count '\n') hsplit
  have hline := h.line_eq
  rw [List.count_append, List.count_append, hoccurs.count_newline] at hcount
  omega

end

end Cursor

namespace Scanner

/-- A scanner without failures ahead, at a place that scanning the text has reached. -/
structure Within (t : Text) (s : Scanner) : Prop where
  flowing : s.Flowing
  cursor : s.cursor.Within t

/-- A token was just read: nothing is held, and the scanner is right behind the token if it is a
word. -/
structure JustRead (t : Text) (token : Token) (s : Scanner) : Prop where
  free : s.held = none
  behind : ∀ w, token = .word w → s.cursor.Behind t w

/-- The end of a word that was just read was just read. -/
theorem JustRead.suffix {t w symbol : Text} {s : Scanner} (h : s.JustRead t (.word w))
    (hsymbol : symbol ≠ []) (hsuffix : symbol <:+ w) : s.JustRead t (.word symbol) := by
  refine ⟨h.free, ?_⟩
  rintro _ ⟨⟩
  obtain ⟨-, before, v, hoccurs, hw⟩ := h.behind w rfl
  exact ⟨hsymbol, before, v, hoccurs, hsuffix.trans hw⟩

end Scanner

namespace Reader

/-! ### Readers of expressions -/

/-- From every session within the text that meets the condition, the reader succeeds with the
second condition, or it fails. It stays within the text in both cases. If it fails because of an
unknown symbol, that is none of the names, stands on the current line and was just read. -/
def Locates {α : Type} (t : Text) (names : List Text) (P : Scanner → Prop) (r : Reader α)
    (Q : α → Scanner → Prop) : Prop :=
  ∀ s : Session, s.scanner.Within t → P s.scanner →
    match r s with
    | .ok a s' => s'.scanner.Within t ∧ Q a s'.scanner
    | .error e s' => s'.scanner.Within t ∧ ∀ line symbol reason,
        e = .unknownLiteral line symbol reason →
          symbol ∉ names ∧ s'.scanner.line = line ∧ s'.scanner.JustRead t (.word symbol)

section

variable {α β σ : Type} {t : Text} {names : List Text} {r : Reader α} {f : α → Reader β}
  {P P' : Scanner → Prop} {Q : α → Scanner → Prop} {S : β → Scanner → Prop}

/-- A result that is given without reading. -/
theorem Locates.pure {a : α} (h : ∀ s, P s → Q a s) : Locates t names P (pure a) Q :=
  fun s hwithin hP => ⟨hwithin, h s.scanner hP⟩

/-- Two readers one after the other. -/
theorem Locates.bind (hr : Locates t names P r Q) (hf : ∀ a, Locates t names (Q a) (f a) S) :
    Locates t names P (r >>= f) S := by
  intro s hwithin hP
  have hfirst := hr s hwithin hP
  change match EStateM.bind r f s with | .ok _ _ => _ | .error _ _ => _
  unfold EStateM.bind
  cases hrun : r s with
  | error e s' =>
    rw [hrun] at hfirst
    exact hfirst
  | ok a s' =>
    rw [hrun] at hfirst
    exact hf a s' hfirst.1 hfirst.2

/-- The first condition may be strengthened. -/
theorem Locates.of_imp (hr : Locates t names P r Q) (hP : ∀ s, P' s → P s) :
    Locates t names P' r Q :=
  fun s hwithin hs => hr s hwithin (hP _ hs)

/-- Another failure than an unknown symbol. -/
theorem locates_throw {e : ParseError} (he : ∀ line symbol reason,
    e ≠ .unknownLiteral line symbol reason) : Locates t names P (throw e) Q :=
  fun _ hwithin _ => ⟨hwithin, fun line symbol reason h => absurd h (he line symbol reason)⟩

/-- The current line. -/
theorem locates_line : Locates t names P line fun line s => s.line = line ∧ P s :=
  fun _ hwithin hP => ⟨hwithin, rfl, hP⟩

theorem locates_malformed (cause : Malformation) : Locates t names P (malformed cause) Q :=
  locates_line.bind fun _ => locates_throw nofun

theorem locates_exhausted : Locates t names P exhausted Q :=
  locates_line.bind fun _ => locates_throw nofun

/-- A refused literal is no unknown symbol. -/
theorem locates_literalFailure (literal : Text) (fault : LiteralFault) :
    Locates t names P (literalFailure literal fault) Q := by
  unfold literalFailure
  split
  · exact locates_malformed _
  · exact locates_line.bind fun _ => locates_throw nofun

theorem locates_checkDepth (extra : Nat) : Locates t names P (checkDepth extra) fun _ => P := by
  have hget : Locates t names P get fun _ => P := fun _ hwithin hP => ⟨hwithin, hP⟩
  apply hget.bind
  intro s
  split
  · exact locates_malformed _
  · exact .pure fun _ h => h

/-- An open level does not change the scanner. -/
theorem locates_nested (hr : Locates t names P r Q) : Locates t names P (nested r) Q := by
  apply (locates_checkDepth 1).bind
  intro _ s hwithin hP
  have hrun := hr { s with depth := s.depth + 1 } hwithin hP
  unfold deeper
  generalize r { s with depth := s.depth + 1 } = result at hrun ⊢
  cases result <;> exact hrun

/-- A token is read. -/
theorem locates_advance : Locates t names P advance (Scanner.JustRead t) := by
  intro s hwithin _
  obtain ⟨scanner, hnext, hflowing, hcursor⟩ := hwithin.flowing.next
  obtain ⟨hplace, hfree, hbehind⟩ := hwithin.cursor.next
  simp only [advance, scanning, hnext]
  rw [← hcursor] at hplace hfree hbehind
  exact ⟨⟨hflowing, hplace⟩, hfree, hbehind⟩

/-- A token that was just read is put back. -/
theorem locates_pushBack (token : Token) :
    Locates t names (Scanner.JustRead t token) (pushBack token) fun _ _ => True := by
  intro s hwithin hread
  obtain ⟨scanner, hput, hflowing, hcursor⟩ := hwithin.flowing.pushBack hread.free token
  simp only [pushBack, scanning, hput]
  refine ⟨⟨hflowing, ?_⟩, trivial⟩
  rw [hcursor]
  refine ⟨hwithin.cursor.rests, hwithin.cursor.line_eq, fun w hw => ?_⟩
  exact hread.behind w (Option.some.inj hw)

/-- Looking ahead does not move. -/
theorem locates_peek (token : Token) (n : Nat) :
    Locates t names (Scanner.JustRead t token) (peek n) fun _ => Scanner.JustRead t token := by
  intro s hwithin hread
  obtain ⟨scanner, hpeek, hflowing, hcursor⟩ := hwithin.flowing.peek n
  simp only [peek, scanning, hpeek]
  refine ⟨⟨hflowing, hcursor ▸ hwithin.cursor⟩, ?_, fun w hw => hcursor ▸ hread.behind w hw⟩
  exact (congrArg Cursor.held hcursor).trans hread.free

theorem locates_digitAhead (token : Token) (n : Nat) :
    Locates t names (Scanner.JustRead t token) (digitAhead n) fun _ => Scanner.JustRead t token :=
  (locates_peek token n).bind fun _ => .pure fun _ h => h

/-- An invariant of the passes of a loop. -/
theorem locates_loop {step : σ → Reader (σ ⊕ β)}
    (hstep : ∀ state, Locates t names (fun _ => True) (step state) fun _ _ => True) (state : σ) :
    Locates t names (fun _ => True) (loop step state) fun _ _ => True := by
  have hpasses : Locates t names (fun _ => True) passes fun _ _ => True :=
    fun _ hwithin _ => ⟨hwithin, trivial⟩
  apply hpasses.bind
  intro fuel
  induction fuel generalizing state with
  | zero => exact locates_exhausted
  | succ fuel ih =>
    apply (hstep state).bind
    rintro (state' | result)
    · exact ih state'
    · exact .pure fun _ _ => trivial

/-! ### Exponents -/

theorem locates_noExponent {token : Token} :
    Locates t names (Scanner.JustRead t token) (noExponent token) fun _ _ => True :=
  (locates_pushBack token).bind fun _ => .pure fun _ _ => trivial

/-- A symbol that is run on to an exponent is the end of its word. -/
theorem locates_exponentWord : Locates t names P exponentWord fun _ _ => True := by
  apply locates_advance.bind
  intro token
  split
  · rename_i w
    dsimp only
    split
    · exact locates_malformed _
    · split
      · exact .pure fun _ _ => trivial
      · rename_i c rest hrest
        split
        · have hput : Locates t names (Scanner.JustRead t (.word w)) (pushBack (.word (c :: rest)))
              fun _ _ => True :=
            (locates_pushBack _).of_imp fun s hs =>
              hs.suffix (List.cons_ne_nil _ _) (hrest ▸ List.dropWhile_suffix _)
          exact hput.bind fun _ => .pure fun _ _ => trivial
        · exact locates_malformed _
  · exact locates_malformed _

theorem locates_exponentAfter (c : Char) (ahead : Nat) :
    Locates t names (Scanner.JustRead t (.op c)) (exponentAfter (.op c) ahead) fun _ _ => True := by
  apply (locates_peek _ ahead).bind
  intro found
  split
  · exact locates_noExponent
  · split
    · split
      · exact locates_advance.bind fun _ => locates_exponentWord
      · exact locates_exponentWord
    · split
      · exact locates_malformed _
      · split
        · apply (locates_digitAhead _ _).bind
          intro digit
          split
          · exact locates_malformed _
          · exact locates_noExponent
        · split
          · exact locates_malformed _
          · exact locates_noExponent

theorem locates_exponent : Locates t names P exponent fun _ _ => True := by
  apply locates_advance.bind
  intro token
  split
  · rename_i hcaret
    rw [hcaret]
    exact locates_exponentAfter _ 0
  · split
    · rename_i hstar
      rw [hstar]
      apply (locates_peek _ 0).bind
      intro found
      split
      · exact locates_exponentAfter _ 1
      · exact locates_noExponent
    · exact locates_noExponent

/-! ### Factors -/

theorem locates_bracesText : Locates t names P bracesText fun _ _ => True := by
  refine (locates_loop (fun b => ?_) _).of_imp fun _ _ => trivial
  apply locates_advance.bind
  intro token
  have hmore (next : Braces ⊕ Text) :
      Locates t names (Scanner.JustRead t token) (Pure.pure next) fun _ _ => True :=
    .pure fun _ _ => trivial
  split
  · exact locates_malformed _
  · split
    · split <;> exact hmore _
    · split
      · exact (locates_checkDepth _).bind fun _ => hmore _
      · exact hmore _
  · exact hmore _
  · exact hmore _

/-- A symbol that is run on to a numeral is a part of the word. -/
theorem suffix_of_splitJuxtaposed? {w number symbol : Text}
    (h : splitJuxtaposed? (completeNumeral w) = some (number, symbol)) :
    symbol ≠ [] ∧ symbol <:+ w := by
  obtain ⟨-, rfl, hne⟩ := splitJuxtaposed?_eq_some h
  exact ⟨hne, Grammar.dropWhile_completeNumeral w ▸ List.dropWhile_suffix _⟩

variable {R : PolyRing α}

theorem locates_literal? (w : Text) (extra : Nat) :
    Locates t names P (literal? R w extra) fun _ => P :=
  fun _ hwithin hP => ⟨hwithin, hP⟩

theorem locates_literal (w : Text) (extra : Nat) :
    Locates t names P (literal R w extra) fun _ => P := by
  apply (locates_literal? w extra).bind
  intro result
  cases result with
  | ok c => exact .pure fun _ h => h
  | error fault => exact locates_literalFailure w fault

/-- A symbol that is run on to a numeral is the end of its word. -/
theorem locates_numeral (hkind : R.coefficients.kind.isHypercomplex = false) (w : Text) :
    Locates t names (Scanner.JustRead t (.word w)) (numeral R w) fun _ _ => True := by
  have hjoin : joinImaginary R (completeNumeral w) = Pure.pure (completeNumeral w) := by
    simp [joinImaginary, hkind]
  unfold numeral
  split
  · exact locates_line.bind fun _ => locates_throw (by simp)
  · rw [hjoin, pure_bind]
    apply (locates_literal? _ 0).bind
    intro result
    cases result with
    | ok c => exact .pure fun _ _ => trivial
    | error fault =>
      dsimp only
      split
      · exact locates_literalFailure _ fault
      · rename_i number symbol hsplit
        obtain ⟨hsymbol, hsuffix⟩ := suffix_of_splitJuxtaposed? hsplit
        apply (locates_literal number 0).bind
        intro c
        have hput : Locates t names (Scanner.JustRead t (.word w)) (pushBack (.word symbol))
            fun _ _ => True :=
          (locates_pushBack _).of_imp fun s hs => hs.suffix hsymbol hsuffix
        exact hput.bind fun _ => .pure fun _ _ => trivial

/-- A symbol is unknown where it was just read. -/
theorem locates_symbol (w : Text) :
    Locates t R.vars (Scanner.JustRead t (.word w)) (symbol R w) fun _ _ => True := by
  unfold symbol
  split
  · exact .pure fun _ _ => trivial
  · rename_i hnone
    apply (locates_literal? w 0).bind
    intro result
    cases result with
    | ok c => exact .pure fun _ _ => trivial
    | error fault =>
      apply locates_line.bind
      rintro line s hwithin ⟨hline, hread⟩
      refine ⟨hwithin, ?_⟩
      rintro _ _ _ ⟨⟩
      refine ⟨fun hmem => ?_, hline, hread⟩
      obtain ⟨index, hindex⟩ := PolyRing.exists_varIndex? hmem
      rw [hnone] at hindex
      contradiction

theorem locates_multiplied (acc : Accumulator α) (factor : Factor α) :
    Locates t names P (multiplied R acc factor) fun _ _ => True := by
  apply locates_exponent.bind
  intro k
  apply locates_advance.bind
  intro token
  exact (locates_pushBack token).bind fun _ => .pure fun _ _ => trivial

/-! ### Expressions -/

theorem locates_expressionFrom (hkind : R.coefficients.kind.isHypercomplex = false) (fuel : Nat)
    (closer : Option Char) (acc : Accumulator α) :
    Locates t R.vars P (expressionFrom R fuel closer acc) fun _ _ => True := by
  induction fuel generalizing P closer acc with
  | zero => exact locates_exhausted
  | succ fuel ih =>
    have hfactor {P : Scanner → Prop} (factor : Factor α) :
        Locates t R.vars P (multiplied R acc factor >>= expressionFrom R fuel closer)
          fun _ _ => True :=
      (locates_multiplied acc factor).bind fun _ => ih _ _
    apply locates_advance.bind
    intro token
    cases hrole : Role.ofToken closer token with
    | negate => exact ih _ _
    | skip => exact ih _ _
    | stop terminator => exact .pure fun _ _ => trivial
    | leave => exact (locates_pushBack token).bind fun _ => .pure fun _ _ => trivial
    | strayBrace => exact locates_malformed _
    | openBrace =>
      apply (locates_nested locates_bracesText).bind
      intro text
      exact (locates_literal text 1).bind fun c => hfactor _
    | openParen =>
      apply (locates_nested (ih none _)).bind
      intro result
      dsimp only
      split
      · exact locates_malformed _
      · exact hfactor _
    | quoted text => exact (locates_literal text 1).bind fun c => hfactor _
    | numeral w =>
      obtain ⟨rfl, -⟩ := of_ofToken_eq_numeral hrole
      exact (locates_numeral hkind w).bind fun factor => hfactor _
    | symbol w =>
      obtain rfl := Grammar.eq_word_of_ofToken_eq_symbol hrole
      exact (locates_symbol w).bind fun factor => hfactor _

theorem locates_polynomial (hkind : R.coefficients.kind.isHypercomplex = false) :
    Locates t R.vars P (polynomial R) fun _ _ => True := by
  have hpasses : Locates t R.vars P passes fun _ _ => True := fun _ hwithin _ => ⟨hwithin, trivial⟩
  apply (hpasses.bind fun fuel => locates_expressionFrom hkind fuel none _).bind
  intro result
  exact .pure fun _ _ => trivial

end

end Reader

/-! ### Reading a text -/

/-- Scanning starts in front of the text, on the first line. -/
theorem Scanner.within_ofText (t : Text) : (Scanner.ofText t).Within t := by
  have hunread : unread [] (Read.ofText t) = t := by
    rw [Read.ofText_eq_lines t]
    exact (flows_linesFrom [] [] t (.inl rfl)).2
  have hcursor : (Scanner.ofText t).cursor = ⟨t, 1, none⟩ := by
    rw [← hunread]
    simp [cursor, Scanner.ofText, ofReads, hunread]
  refine ⟨(sees_ofText t).flows, ?_⟩
  rw [hcursor]
  exact ⟨.whole, rfl, by simp⟩

/-- A polynomial is read whose literals are not cut at signs. -/
def Call.ReadsPlainly : Call → Prop
  | polynomial R => R.coefficients.kind.isHypercomplex = false
  | _ => False

/-- Polynomials that are read keep a session within its text, also where they fail. -/
theorem Session.within_afterCalls {t : Text} {s : Session} (hs : s.scanner.Within t)
    {calls : List Call} (hcalls : ∀ call ∈ calls, call.ReadsPlainly) :
    (s.afterCalls calls).scanner.Within t := by
  induction calls generalizing s with
  | nil => exact hs
  | cons call rest ih =>
    obtain ⟨hcall, hrest⟩ := List.forall_mem_cons.1 hcalls
    refine ih ?_ hrest
    cases call with
    | polynomial R =>
      have hrun := Reader.locates_polynomial (R := R) (P := fun _ => True) hcall s hs trivial
      unfold afterCall
      cases hresult : (Call.polynomial R).reader s with
      | ok p s' =>
        change Reader.polynomial R s = .ok p s' at hresult
        rw [hresult] at hrun
        exact hrun.1
      | error e s' =>
        change Reader.polynomial R s = .error e s' at hresult
        rw [hresult] at hrun
        exact hrun.1
    | _ => exact hcall.elim

/-- Unknown symbols are reported on their own line. Over coefficient rings whose literals are not cut
at signs, polynomials are read from a text one after the other, also behind failures. If one of them
fails because of an unknown symbol, the symbol is no variable and the end of the word that was read
last: the scanner is right behind the word and holds nothing. The line is that of the word, counted
by the newlines of the text in front of it. -/
theorem unknown_symbols_are_located (t : Text) (limits : Limits) (depth : Nat)
    (earlier : List Call) (hearlier : ∀ call ∈ earlier, call.ReadsPlainly) {α : Type}
    (R : PolyRing α) (hkind : R.coefficients.kind.isHypercomplex = false) {line : Nat}
    {symbol : Text} {reason : LiteralFault} {s' : Session}
    (h : Reader.polynomial R ((Session.ofText t limits depth).afterCalls earlier) =
      .error (.unknownLiteral line symbol reason) s') :
    symbol ≠ [] ∧ symbol ∉ R.vars ∧ ∃ before word after,
      Token.Occurs t before (.word word) after ∧ t = before ++ word ++ after ∧
        (∃ tokens, Token.ofText t = tokens ++ .word word :: Token.ofText after) ∧
        symbol <:+ word ∧ line = 1 + before.count '\n' ∧
        s'.scanner.held = none ∧ Scanner.unread s'.scanner.buffer s'.scanner.pending = after := by
  have hstart : ((Session.ofText t limits depth).afterCalls earlier).scanner.Within t :=
    Session.within_afterCalls (Scanner.within_ofText t) hearlier
  have hrun := Reader.locates_polynomial (R := R) (P := fun _ => True) hkind _ hstart trivial
  rw [h] at hrun
  obtain ⟨hwithin, hlocated⟩ := hrun
  obtain ⟨hnames, hline, hread⟩ := hlocated line symbol reason rfl
  have hbehind := hread.behind symbol rfl
  obtain ⟨before, word, hoccurs, hsplit, hsuffix, hcount⟩ := hwithin.cursor.located hbehind
  exact ⟨hbehind.1, hnames, before, word, _, hoccurs, hsplit, hoccurs.exists_ofText_eq, hsuffix,
    hline ▸ hcount, hread.free,
    rfl⟩

/-- A symbol run on to a numeral, behind another polynomial, a comment and an empty line. -/
theorem run_on_symbol_is_located :
    let t := "x y ,\n# two\n3 x\n\n+ 2w # note\n^2".toList
    let R : PolyRing Rat := ⟨Rational.arithmetic, [['x'], ['y']], {}⟩
    (∀ call ∈ [Call.polynomial R], call.ReadsPlainly) ∧
      R.coefficients.kind.isHypercomplex = false ∧
      ∃ s', Reader.polynomial R ((Session.ofText t).afterCalls [.polynomial R]) =
          .error (.unknownLiteral 5 ['w'] (.notDecimal ['w'])) s' ∧
        ∃ before word after, Token.Occurs t before (.word word) after ∧
          t = before ++ word ++ after ∧ ['w'] <:+ word ∧ 5 = 1 + before.count '\n' := by
  intro t R
  have hplain : ∀ call ∈ [Call.polynomial R], call.ReadsPlainly := by
    intro call hcall
    rw [List.mem_singleton.1 hcall]
    rfl
  have hkind : R.coefficients.kind.isHypercomplex = false := rfl
  obtain ⟨s', hrun⟩ : ∃ s', Reader.polynomial R ((Session.ofText t).afterCalls [.polynomial R]) =
      .error (.unknownLiteral 5 ['w'] (.notDecimal ['w'])) s' :=
    Reader.exists_eq_error (by decide +kernel)
  clear_value t R
  obtain ⟨-, -, before, word, after, hoccurs, hsplit, -, hsuffix, hline, -⟩ :=
    unknown_symbols_are_located t {} 0 [.polynomial R] hplain R hkind hrun
  exact ⟨hplain, hkind, s', hrun, before, word, after, hoccurs, hsplit, hsuffix, hline⟩

end PolynomialText
