import PolynomialText.Proofs.CanonicalResults
import PolynomialText.Proofs.LiteralCharacters
import PolynomialText.Proofs.TokenReaders

/-!
# Carets and double stars

An exponent is marked by a caret or by two stars. In a text without quotes and comments every caret
may be written as two stars: the text is read as the same polynomial, or refused as before. A caret
that no exponent follows is skipped as one stray operator, two stars as two of them, so that the
passes over the two texts differ in number. In literals in braces the marks stay in the text, which
the coefficient ring reads; no ring of numbers takes either of them, and for rings of polynomials the
same holds one level further down.
-/

namespace PolynomialText

/-! ### Texts and tokens with stars -/

namespace Text

/-- The text with every caret written as two stars. -/
def starred (t : Text) : Text := t.flatMap fun c => if c = '^' then ['*', '*'] else [c]

/-- No character is a quote or starts a comment. -/
def Unquoted (t : Text) : Prop := ∀ c ∈ t, c ≠ '"' ∧ c ≠ '\x27' ∧ c ≠ '#'

instance (t : Text) : Decidable t.Unquoted := List.decidableBAll _ t

theorem starred_caret (t : Text) : starred ('^' :: t) = '*' :: '*' :: starred t := rfl

theorem starred_cons {c : Char} (hc : c ≠ '^') (t : Text) : starred (c :: t) = c :: starred t := by
  simp [starred, hc]

theorem starred_append (t u : Text) : starred (t ++ u) = starred t ++ starred u :=
  List.flatMap_append

theorem Unquoted.append {t u : Text} (ht : t.Unquoted) (hu : u.Unquoted) : Unquoted (t ++ u) :=
  fun c hc => (List.mem_append.1 hc).elim (ht c) (hu c)

/-- A text without carets stays as it is. -/
theorem starred_of_not_mem {t : Text} (h : '^' ∉ t) : starred t = t := by
  induction t with
  | nil => rfl
  | cons c t ih =>
    rw [starred_cons (Ne.symm (List.ne_of_not_mem_cons h)), ih (List.not_mem_of_not_mem_cons h)]

/-- A text with a caret has stars instead. -/
theorem star_mem_starred {t : Text} (h : '^' ∈ t) : '*' ∈ starred t :=
  List.mem_flatMap.2 ⟨'^', h, by simp⟩

/-- The last character is a point in both texts or in neither. -/
theorem getLast?_starred (t : Text) : (starred t).getLast? = some '.' ↔ t.getLast? = some '.' := by
  rcases List.eq_nil_or_concat' t with rfl | ⟨t, c, rfl⟩
  · exact Iff.rfl
  · rw [starred_append]
    by_cases hc : c = '^'
    · subst hc
      simp [starred]
    · simp [starred, hc]

end Text

namespace Token

/-- The tokens with every caret as two stars. -/
def spread (tokens : List Token) : List Token :=
  tokens.flatMap fun t => if t = .op '^' then [.op '*', .op '*'] else [t]

/-- The token has no quotes and starts no comment, and a word has no caret. -/
def Bare : Token → Prop
  | word w => w.Unquoted ∧ '^' ∉ w
  | quoted _ => False
  | op c => Text.Unquoted [c]
  | eof => True

theorem spread_caret (tokens : List Token) :
    spread (.op '^' :: tokens) = .op '*' :: .op '*' :: spread tokens := rfl

theorem spread_cons {t : Token} (ht : t ≠ .op '^') (tokens : List Token) :
    spread (t :: tokens) = t :: spread tokens := by
  simp [spread, ht]

/-- The characters of a bare token that is no caret. -/
theorem Bare.lexeme {t : Token} (h : t.Bare) (ht : t ≠ .op '^') : t.lexeme.Unquoted ∧ '^' ∉ t.lexeme := by
  cases t with
  | word w => exact h
  | quoted t => exact h.elim
  | op c => exact ⟨h, fun hmem => ht (congrArg Token.op (List.mem_singleton.1 hmem).symm)⟩
  | eof => exact ⟨by decide, List.not_mem_nil⟩

/-- Blanks are dropped in front of the same character. -/
theorem start_starred {t : Text} (h : t.Unquoted) : start t.starred = (start t).starred := by
  suffices hskip : ∀ line, (skip false line t.starred).2 = ((skip false line t).2).starred from hskip 0
  intro line
  induction t generalizing line with
  | nil => rfl
  | cons c t ih =>
    have ht : Text.Unquoted t := fun d hd => h d (List.mem_cons_of_mem _ hd)
    have hhash := (h c List.mem_cons_self).2.2
    by_cases hc : c = '^'
    · subst hc
      rfl
    · rw [Text.starred_cons hc, skip, skip]
      split
      · exact ih ht _
      · simp only [Bool.false_or, hhash, decide_false, Bool.false_eq_true, if_false]
        split
        · exact ih ht _
        · rw [Text.starred_cons hc]

/-- A run of word characters is the same, and so is what follows it. -/
theorem span_starred (t : Text) : t.starred.takeWhile isWordChar = t.takeWhile isWordChar ∧
    t.starred.dropWhile isWordChar = Text.starred (t.dropWhile isWordChar) := by
  have hcaret : isWordChar '^' = false := by decide
  have hstar : isWordChar '*' = false := by decide
  induction t with
  | nil => exact ⟨rfl, rfl⟩
  | cons c t ih =>
    by_cases hc : c = '^'
    · subst hc
      simp [Text.starred_caret, hcaret, hstar]
    · rw [Text.starred_cons hc]
      by_cases hword : isWordChar c = true
      · simp [hword, ih]
      · simp [hword, Text.starred_cons hc]

/-- The tokens of the text with stars. -/
theorem ofText_starred {t : Text} (h : t.Unquoted) : ofText t.starred = spread (ofText t) := by
  induction t using ofText_induction with
  | nil t hstart =>
    have hstarred : start t.starred = [] := by rw [start_starred h, hstart]; rfl
    rw [ofText_of_start_nil hstart, ofText_of_start_nil hstarred]
    rfl
  | cons t c rest hstart ih =>
    have hmem : ∀ d ∈ c :: rest, d ∈ t := fun d hd =>
      (skip_suffix false 0 t).subset (show d ∈ start t from hstart ▸ hd)
    have hc := h c (hmem c List.mem_cons_self)
    have hrest : Text.Unquoted (lex c rest).2 := fun d hd =>
      h d (hmem d (List.mem_cons_of_mem _ ((lex_suffix c rest).subset hd)))
    have hquote : ¬ (c = '"' ∨ c = '\x27') := not_or.2 ⟨hc.1, hc.2.1⟩
    rw [ofText_of_start_cons hstart]
    by_cases hcaret : c = '^'
    · subst hcaret
      have hfirst : start t.starred = '*' :: '*' :: Text.starred rest := by
        rw [start_starred h, hstart, Text.starred_caret]
      have hsecond : start ('*' :: Text.starred rest) = '*' :: Text.starred rest := rfl
      rw [ofText_of_start_cons hfirst]
      have hlex : lex '^' rest = (.op '^', rest) := rfl
      have hlex' : ∀ u, lex '*' u = (.op '*', u) := fun _ => rfl
      rw [hlex', ofText_of_start_cons hsecond, hlex', hlex, spread_caret]
      rw [hlex] at ih hrest
      rw [ih hrest]
    · have hfirst : start t.starred = c :: Text.starred rest := by
        rw [start_starred h, hstart, Text.starred_cons hcaret]
      rw [ofText_of_start_cons hfirst]
      have hlex : lex c (Text.starred rest) = ((lex c rest).1, Text.starred (lex c rest).2) := by
        unfold lex
        rw [if_neg hquote, if_neg hquote, (span_starred rest).1, (span_starred rest).2]
        split
        · rfl
        · rfl
      have hne : (lex c rest).1 ≠ .op '^' := by
        unfold lex
        rw [if_neg hquote]
        split
        · simp
        · simpa using hcaret
      rw [hlex, spread_cons hne, ih hrest]

/-- The tokens of a text without quotes and comments are bare. -/
theorem bare_of_mem_ofText {t : Text} (h : t.Unquoted) : ∀ token ∈ ofText t, token.Bare := by
  induction t using ofText_induction with
  | nil t hstart =>
    rw [ofText_of_start_nil hstart]
    exact fun _ hmem => absurd hmem List.not_mem_nil
  | cons t c rest hstart ih =>
    have hmem : ∀ d ∈ c :: rest, d ∈ t := fun d hd =>
      (skip_suffix false 0 t).subset (show d ∈ start t from hstart ▸ hd)
    have hrest : Text.Unquoted (lex c rest).2 := fun d hd =>
      h d (hmem d (List.mem_cons_of_mem _ ((lex_suffix c rest).subset hd)))
    have hc := h c (hmem c List.mem_cons_self)
    have hquote : ¬ (c = '"' ∨ c = '\x27') := not_or.2 ⟨hc.1, hc.2.1⟩
    rw [ofText_of_start_cons hstart]
    refine List.forall_mem_cons.2 ⟨?_, ih hrest⟩
    unfold lex
    rw [if_neg hquote]
    split
    · rename_i hword
      refine ⟨fun d hd => h d (hmem d ?_), fun hcaret => ?_⟩
      · exact (List.cons_subset_cons _ (List.takeWhile_prefix _).subset) hd
      · rcases List.mem_cons.1 hcaret with rfl | htake
        · exact absurd hword (by decide)
        · exact absurd (List.mem_takeWhile_imp htake) (by decide)
    · exact fun d hd => List.mem_singleton.1 hd ▸ hc

end Token

/-! ### Readers of tokens with stars -/

/-- Outcomes on tokens and on the same tokens with stars: both fail, or both have values that go
together and leave the same tokens but for the stars. -/
def Outcome.Respelled {α β : Type} (Rel : α → β → Prop) (o : Outcome α) (o' : Outcome β) : Prop :=
  match o.result, o'.result with
  | .ok a, .ok b => Rel a b ∧ o'.rest = Token.spread o.rest ∧ ∀ t ∈ o.rest, t.Bare
  | .error _, .error _ => True
  | _, _ => False

namespace Outcome

variable {α β γ δ : Type} {Rel : α → β → Prop} {Rel' : γ → δ → Prop}

theorem respelled_ok {a : α} {b : β} {rest : List Token} (hab : Rel a b) (hrest : ∀ t ∈ rest, t.Bare) :
    (ok a rest).Respelled Rel (ok b (Token.spread rest)) := ⟨hab, rfl, hrest⟩

/-- What follows values that go together goes together. -/
theorem Respelled.bind {o : Outcome α} {o' : Outcome β} {f : α → List Token → Outcome γ}
    {g : β → List Token → Outcome δ} (h : o.Respelled Rel o')
    (hfg : ∀ a b rest, Rel a b → (∀ t ∈ rest, t.Bare) →
      (f a rest).Respelled Rel' (g b (Token.spread rest))) :
    (o.bind f).Respelled Rel' (o'.bind g) := by
  unfold Respelled at h
  unfold Outcome.bind
  cases hresult : o.result with
  | ok a =>
    cases hresult' : o'.result with
    | ok b =>
      simp only [hresult, hresult'] at h
      obtain ⟨hab, hrest, hbare⟩ := h
      dsimp only
      rw [hrest]
      exact hfg a b o.rest hab hbare
    | error e => simp [hresult, hresult'] at h
  | error e =>
    cases hresult' : o'.result with
    | ok b => simp [hresult, hresult'] at h
    | error e' => trivial

end Outcome

/-- Literals without quotes and comments are read alike with carets and with stars, or refused
alike. -/
def Arithmetic.Interchanges {α : Type} (A : Arithmetic α) : Prop :=
  ∀ (limits : Limits) (depth : Nat) {t : Text}, t.Unquoted →
    (A.readWithin limits depth t.starred).toOption = (A.readWithin limits depth t).toOption

/-- Two results are the same value or two failures. -/
theorem exists_of_toOption_eq {ε ε' α : Type} {x : Except ε α} {y : Except ε' α}
    (h : x.toOption = y.toOption) :
    (∃ a, x = .ok a ∧ y = .ok a) ∨ ∃ e e', x = .error e ∧ y = .error e' := by
  cases x with
  | ok a =>
    cases y with
    | ok b => exact .inl ⟨a, rfl, congrArg Except.ok (Option.some.inj h).symm⟩
    | error e => contradiction
  | error e =>
    cases y with
    | ok b => contradiction
    | error e' => exact .inr ⟨e, e', rfl, rfl⟩

namespace Grammar

open Token (spread)

section

variable {tokens : List Token}

/-- The first character is the same, or a star for a caret. -/
theorem ahead_spread (tokens : List Token) : ahead (spread tokens) = ahead tokens ∨
    ahead tokens = some '^' ∧ ahead (spread tokens) = some '*' := by
  cases tokens with
  | nil => exact .inl rfl
  | cons t tokens =>
    by_cases ht : t = .op '^'
    · subst ht
      exact .inr ⟨rfl, rfl⟩
    · rw [Token.spread_cons ht]
      exact .inl rfl

theorem digitAhead_spread (tokens : List Token) : digitAhead (spread tokens) = digitAhead tokens := by
  unfold digitAhead
  rcases ahead_spread tokens with hsame | ⟨hcaret, hstar⟩
  · rw [hsame]
  · rw [hcaret, hstar]
    rfl

theorem signAhead_spread (tokens : List Token) : signAhead (spread tokens) = signAhead tokens := by
  cases tokens with
  | nil => rfl
  | cons t tokens =>
    by_cases ht : t = .op '^'
    · subst ht
      rfl
    · rw [Token.spread_cons ht]
      rfl

theorem signed_spread (tokens : List Token) :
    (signAhead (spread tokens) = true ∧ digitAhead (spread tokens).tail = true) ↔
      (signAhead tokens = true ∧ digitAhead tokens.tail = true) := by
  rw [signAhead_spread]
  refine and_congr_right fun hsign => ?_
  cases tokens with
  | nil => contradiction
  | cons t tokens =>
    have ht : t ≠ .op '^' := by
      rintro rfl
      contradiction
    rw [Token.spread_cons ht, List.tail_cons, List.tail_cons, digitAhead_spread]

theorem respelled_exponentWord (h : ∀ t ∈ tokens, t.Bare) :
    (exponentWord tokens).Respelled Eq (exponentWord (spread tokens)) := by
  cases tokens with
  | nil => trivial
  | cons t tokens =>
    obtain ⟨ht, htokens⟩ := List.forall_mem_cons.1 h
    cases t with
    | word w =>
      rw [Token.spread_cons (by simp)]
      simp only [exponentWord, List.headD_cons, List.tail_cons]
      split
      · trivial
      · split
        · exact Outcome.respelled_ok rfl htokens
        · rename_i c rest hrest
          split
          · rw [← Token.spread_cons (by simp)]
            refine Outcome.respelled_ok rfl (List.forall_mem_cons.2 ⟨?_, htokens⟩)
            have hsub : ∀ d ∈ c :: rest, d ∈ w := fun d hd =>
              (List.dropWhile_suffix _).subset (hrest ▸ hd)
            exact ⟨fun d hd => ht.1 d (hsub d hd), fun hcaret => ht.2 (hsub _ hcaret)⟩
          · trivial
    | quoted t => exact ht.elim
    | op c =>
      by_cases hc : c = '^'
      · subst hc
        trivial
      · rw [Token.spread_cons (by simpa using hc)]
        trivial
    | eof => trivial

theorem respelled_exponentAfter (left left' : List Token) {behind : List Token}
    (h : ∀ t ∈ tokens, t.Bare) (hbehind : ∀ t ∈ behind, t.Bare) :
    (exponentAfter tokens left behind).Respelled Eq
      (exponentAfter (spread tokens) left' (spread behind)) := by
  have hone : (Outcome.ok (1 : UInt64) tokens).Respelled Eq (.ok 1 (spread tokens)) :=
    Outcome.respelled_ok rfl h
  unfold exponentAfter
  rcases ahead_spread behind with hsame | ⟨hcaret, hstar⟩
  · rw [hsame]
    cases hahead : ahead behind with
    | none => exact hone
    | some c =>
      dsimp only
      split
      · exact respelled_exponentWord hbehind
      · split
        · trivial
        · split
          · rename_i hminus
            have htail : (spread behind).tail = spread behind.tail := by
              cases behind with
              | nil => rfl
              | cons t behind =>
                rw [Token.spread_cons]
                · rfl
                · rintro rfl
                  exact absurd (Option.some.inj hahead) (by rw [hminus]; decide)
            rw [htail, digitAhead_spread]
            split
            · trivial
            · exact hone
          · split
            · trivial
            · exact hone
  · rw [hcaret, hstar]
    exact hone

/-- Two stars are as good a mark as a caret; a star in front of either is no mark. -/
theorem respelled_exponent (h : ∀ t ∈ tokens, t.Bare) :
    (exponent tokens).Respelled Eq (exponent (spread tokens)) := by
  have hone : (Outcome.ok (1 : UInt64) tokens).Respelled Eq (.ok 1 (spread tokens)) :=
    Outcome.respelled_ok rfl h
  cases tokens with
  | nil => exact hone
  | cons t tokens =>
    have htokens := (List.forall_mem_cons.1 h).2
    by_cases ht : t = .op '^'
    · subst ht
      exact respelled_exponentAfter _ _ h htokens
    by_cases hstar : t = .op '*'
    · subst hstar
      rw [Token.spread_cons ht] at hone ⊢
      cases tokens with
      | nil => exact hone
      | cons u tokens =>
        by_cases hu : u = .op '^'
        · subst hu
          exact hone
        · have hafter :=
            respelled_exponentAfter (u :: tokens) (u :: spread tokens) h (List.forall_mem_cons.1 htokens).2
          rw [Token.spread_cons ht, Token.spread_cons hu] at hafter
          rw [Token.spread_cons hu] at hone ⊢
          simp only [exponent, List.headD_cons, ht, if_false, true_and, List.tail_cons]
          by_cases hahead : ahead (u :: tokens) = some '*'
          · rw [if_pos hahead, if_pos (show ahead (u :: spread tokens) = some '*' from hahead)]
            exact hafter
          · rw [if_neg hahead, if_neg (show ¬ ahead (u :: spread tokens) = some '*' from hahead)]
            exact hone
    · rw [Token.spread_cons ht] at hone ⊢
      simpa only [exponent, List.headD_cons, ht, hstar, if_false, false_and] using hone

/-- Operators other than braces are kept in the text of a literal in braces. -/
theorem bracesStep_op {limits : Limits} {depth : Nat} (b : Reader.Braces) {c : Char} (hclose : c ≠ '\x7d')
    (hopen : c ≠ '\x7b') :
    bracesStep limits depth b (.op c) = .ok (.inl ⟨b.text ++ [c], b.level, false⟩) := by
  simp only [bracesStep, hclose, hopen, if_false]

/-- The text of a literal in braces has stars for carets. -/
theorem respelled_braces {limits : Limits} {depth : Nat} {b b' : Reader.Braces}
    (h : ∀ t ∈ tokens, t.Bare) (htext : b.text.Unquoted) (hb : b' = { b with text := b.text.starred }) :
    (braces limits depth b tokens).Respelled (fun t t' => t' = t.starred ∧ t.Unquoted)
      (braces limits depth b' (spread tokens)) := by
  induction tokens generalizing b b' with
  | nil => trivial
  | cons t tokens ih =>
    obtain ⟨ht, htokens⟩ := List.forall_mem_cons.1 h
    subst hb
    cases t with
    | eof => trivial
    | quoted t => exact ht.elim
    | word w =>
      have hw : Text.starred w = w := Text.starred_of_not_mem ht.2
      rw [Token.spread_cons (by simp)]
      simp only [braces, bracesStep, ne_eq, Text.getLast?_starred]
      refine ih htokens ?_ ?_
      · dsimp only
        split
        · exact (htext.append (by decide)).append ht.1
        · exact (htext.append (by decide)).append ht.1
      · simp only [Text.starred_append, hw]
        split
        · rfl
        · rfl
    | op c =>
      by_cases hc : c = '^'
      · subst hc
        have hstar : '*' ≠ '\x7d' ∧ '*' ≠ '\x7b' ∧ '^' ≠ '\x7d' ∧ '^' ≠ '\x7b' := by decide
        simp only [Token.spread_caret, braces, bracesStep_op, hstar, ne_eq, not_false_eq_true]
        refine ih htokens (htext.append ht) ?_
        simp only [Text.starred_append, List.append_assoc]
        rfl
      · have hkept : ∀ {text : Text}, Text.starred (text ++ [c]) = text.starred ++ [c] := by
          intro text
          rw [Text.starred_append, Text.starred_cons hc]
          rfl
        rw [Token.spread_cons (by simpa using hc)]
        simp only [braces, bracesStep]
        by_cases hclose : c = '\x7d'
        · by_cases hlevel : b.level = 0
          · simp only [hclose, hlevel, if_true]
            exact Outcome.respelled_ok ⟨rfl, htext⟩ htokens
          · simp only [if_pos hclose, if_neg hlevel]
            exact ih htokens (htext.append ht) (by rw [hkept])
        · by_cases hopen : c = '\x7b'
          · simp only [if_neg hclose, if_pos hopen]
            by_cases hdeep : limits.maxDepth.toNat < depth + (b.level + 1)
            · simp only [if_pos hdeep]
              trivial
            · simp only [if_neg hdeep]
              exact ih htokens (htext.append ht) (by rw [hkept])
          · simp only [if_neg hclose, if_neg hopen]
            exact ih htokens (htext.append ht) (by rw [hkept])

variable {α : Type} {R : PolyRing α} {limits : Limits} {depth : Nat}

/-- The same literal. -/
theorem respelled_literal (t : Text) (h : ∀ u ∈ tokens, u.Bare) :
    (literal R limits depth t tokens).Respelled Eq (literal R limits depth t (spread tokens)) := by
  unfold literal
  split
  · exact Outcome.respelled_ok rfl h
  · trivial

/-- A literal in braces. -/
theorem respelled_enclosed (hR : R.coefficients.Interchanges) (h : ∀ t ∈ tokens, t.Bare) :
    (enclosed R limits depth tokens).Respelled Eq (enclosed R limits depth (spread tokens)) := by
  have htext : (nested limits depth tokens (braces limits (depth + 1) ⟨[], 0, false⟩ tokens)).Respelled
      (fun t t' => t' = t.starred ∧ t.Unquoted)
      (nested limits depth (spread tokens) (braces limits (depth + 1) ⟨[], 0, false⟩ (spread tokens))) := by
    unfold nested
    split
    · trivial
    · exact respelled_braces h (by decide) rfl
  refine htext.bind ?_
  rintro t t' rest ⟨rfl, ht⟩ hrest
  unfold literal
  rcases exists_of_toOption_eq (hR limits (depth + 1) ht) with ⟨c, hc', hc⟩ | ⟨e, e', he', he⟩
  · rw [hc, hc']
    exact Outcome.respelled_ok rfl hrest
  · rw [he, he']
    trivial

/-- A numeral takes the same text from the tokens behind it, which are bare. -/
theorem joinImaginary_spread {t : Text} (ht : (Token.word t).Bare) (h : ∀ u ∈ tokens, u.Bare) :
    joinImaginary R t (spread tokens) =
      ((joinImaginary R t tokens).1, spread (joinImaginary R t tokens).2) ∧
    (Token.word (joinImaginary R t tokens).1).Bare ∧ ∀ u ∈ (joinImaginary R t tokens).2, u.Bare := by
  unfold joinImaginary
  simp only [signed_spread]
  split
  · rename_i hjoin
    obtain ⟨sign, u, rest, hsign, rfl, hdigit⟩ := exists_of_signAhead hjoin.2.2.1 hjoin.2.2.2
    obtain ⟨hbare, hubare, hrest⟩ : (Token.op sign).Bare ∧ u.Bare ∧ ∀ v ∈ rest, v.Bare := by
      simpa only [List.forall_mem_cons] using h
    have hne : Token.op sign ≠ .op '^' := by
      rcases hsign with rfl | rfl
      · decide
      · decide
    have hu : u ≠ .op '^' := by
      rintro rfl
      exact absurd hdigit (by decide)
    have hjoined : (Token.word (t ++ [.op sign, u].flatMap Token.lexeme)).Bare := by
      obtain ⟨hquote, hcaret⟩ := hbare.lexeme hne
      obtain ⟨huquote, hucaret⟩ := hubare.lexeme hu
      refine ⟨ht.1.append ?_, ?_⟩
      · simpa using hquote.append huquote
      · simpa using ⟨ht.2, hcaret, hucaret⟩
    rw [Token.spread_cons hne, Token.spread_cons hu]
    exact ⟨rfl, hjoined, hrest⟩
  · exact ⟨rfl, ht, h⟩

theorem bare_completeNumeral {w : Text} (h : (Token.word w).Bare) :
    (Token.word (Reader.completeNumeral w)).Bare := by
  have hcons : ∀ {c : Char} {t : Text}, Text.Unquoted [c] → c ≠ '^' → (Token.word t).Bare →
      (Token.word (c :: t)).Bare := fun hc hne ht =>
    ⟨hc.append ht.1, List.not_mem_cons_of_ne_of_not_mem (Ne.symm hne) ht.2⟩
  unfold Reader.completeNumeral
  split
  · exact hcons (by decide) (by decide) h
  · exact hcons (by decide) (by decide) h
  · exact h

theorem respelled_numeral {w : Text} (hw : (Token.word w).Bare) (h : ∀ t ∈ tokens, t.Bare) :
    (numeral R limits depth w tokens).Respelled Eq (numeral R limits depth w (spread tokens)) := by
  obtain ⟨hjoin, htext, hrest⟩ := joinImaginary_spread (R := R) (bare_completeNumeral hw) h
  unfold numeral
  split
  · trivial
  · rw [hjoin]
    dsimp only
    split
    · exact Outcome.respelled_ok rfl hrest
    · split
      · trivial
      · rename_i number symbol hsplit
        have hsymbol : (Token.word symbol).Bare := by
          obtain ⟨-, rfl, -⟩ := splitJuxtaposed?_eq_some hsplit
          have hsub := (List.dropWhile_suffix (l := (joinImaginary R (Reader.completeNumeral w)
            tokens).1) (!isSymbolStart ·)).subset
          exact ⟨fun d hd => htext.1 d (hsub hd), fun hcaret => htext.2 (hsub hcaret)⟩
        refine (respelled_literal number hrest).bind ?_
        rintro c _ rest rfl hrest
        rw [← Token.spread_cons (by simp)]
        exact Outcome.respelled_ok rfl (List.forall_mem_cons.2 ⟨hsymbol, hrest⟩)

theorem respelled_symbol (w : Text) (h : ∀ t ∈ tokens, t.Bare) :
    (symbol R limits depth w tokens).Respelled Eq (symbol R limits depth w (spread tokens)) := by
  unfold symbol
  split
  · exact Outcome.respelled_ok rfl h
  · split
    · exact Outcome.respelled_ok rfl h
    · trivial

theorem respelled_multiplied (acc : Accumulator α) (factor : Factor α) (h : ∀ t ∈ tokens, t.Bare) :
    (multiplied R acc factor tokens).Respelled Eq (multiplied R acc factor (spread tokens)) := by
  refine (respelled_exponent h).bind ?_
  rintro k _ rest rfl hrest
  simp only [Accumulator.settle, signAhead_spread]
  exact Outcome.respelled_ok rfl hrest

theorem respelled_closed {inner inner' : Outcome (Poly α × Terminator)} (h : inner.Respelled Eq inner') :
    (closed inner).Respelled Eq (closed inner') := by
  refine h.bind ?_
  rintro result _ rest rfl hrest
  split
  · trivial
  · exact Outcome.respelled_ok rfl hrest

/-- Passes that do the same on tokens and on the tokens with stars. -/
def Pass.Respelled : Pass α → Pass α → Prop
  | .more acc rest, .more acc' rest' => acc' = acc ∧ rest' = spread rest ∧ ∀ t ∈ rest, t.Bare
  | .opens rest, .opens rest' => rest' = spread rest ∧ ∀ t ∈ rest, t.Bare
  | .last outcome, .last outcome' => outcome.Respelled Eq outcome'
  | _, _ => False

theorem Pass.respelled_behind {o o' : Outcome (Accumulator α)} (h : o.Respelled Eq o') :
    (Pass.behind o).Respelled (.behind o') := by
  obtain ⟨result, rest⟩ := o
  obtain ⟨result', rest'⟩ := o'
  cases result with
  | ok acc =>
    cases result' with
    | ok acc' => exact ⟨h.1.symm, h.2⟩
    | error e => exact h.elim
  | error e =>
    cases result' with
    | ok acc' => exact h.elim
    | error e' => trivial

/-- A pass from a token other than a caret on does the same with stars. -/
theorem respelled_pass (hR : R.coefficients.Interchanges) (acc : Accumulator α)
    (hhead : tokens.headD .eof ≠ .op '^') (h : ∀ t ∈ tokens, t.Bare) :
    (pass R limits depth none acc tokens).Respelled (pass R limits depth none acc (spread tokens)) := by
  have hhead' : (spread tokens).headD .eof = tokens.headD .eof ∧
      (spread tokens).tail = spread tokens.tail := by
    cases tokens with
    | nil => exact ⟨rfl, rfl⟩
    | cons t tokens =>
      have ht : t ≠ .op '^' := hhead
      rw [Token.spread_cons ht]
      exact ⟨rfl, rfl⟩
  have htail : ∀ t ∈ tokens.tail, t.Bare := fun t ht => h t (List.mem_of_mem_tail ht)
  have hfactor : ∀ {o o' : Outcome (Factor α)}, o.Respelled Eq o' →
      (Pass.behind (o.bind (multiplied R acc))).Respelled (.behind (o'.bind (multiplied R acc))) := by
    intro o o' ho
    refine Pass.respelled_behind (ho.bind ?_)
    rintro factor _ rest rfl hrest
    exact respelled_multiplied acc factor hrest
  have hcoefficient : ∀ {o o' : Outcome α}, o.Respelled Eq o' →
      (Pass.behind (o.bind fun c => multiplied R acc (.coefficient c))).Respelled
        (.behind (o'.bind fun c => multiplied R acc (.coefficient c))) := by
    intro o o' ho
    refine Pass.respelled_behind (ho.bind ?_)
    rintro c _ rest rfl hrest
    exact respelled_multiplied acc (.coefficient c) hrest
  unfold pass
  rw [hhead'.1, hhead'.2]
  cases hrole : Role.ofToken none (tokens.headD .eof) with
  | negate => exact ⟨rfl, rfl, htail⟩
  | skip => exact ⟨rfl, rfl, htail⟩
  | stop terminator => exact Outcome.respelled_ok rfl htail
  | leave => exact Outcome.respelled_ok rfl h
  | strayBrace => trivial
  | openBrace => exact hcoefficient (respelled_enclosed hR htail)
  | openParen =>
    dsimp only
    split
    · trivial
    · exact ⟨rfl, htail⟩
  | quoted text => exact hcoefficient (respelled_literal text htail)
  | numeral w =>
    refine hfactor (respelled_numeral ?_ htail)
    obtain ⟨hword, -⟩ := Reader.of_ofToken_eq_numeral hrole
    cases tokens with
    | nil => contradiction
    | cons t tokens => exact hword ▸ h t List.mem_cons_self
  | symbol w => exact hfactor (respelled_symbol w htail)

/-- A pass that does not just go on starts with no caret, so that it does the same with stars. -/
theorem respelled_of_pass_eq (hR : R.coefficients.Interchanges) {acc : Accumulator α} {p : Pass α}
    (h : pass R limits depth none acc tokens = p) (hp : ∀ acc' rest, p ≠ .more acc' rest)
    (hbare : ∀ t ∈ tokens, t.Bare) : p.Respelled (pass R limits depth none acc (spread tokens)) := by
  rw [← h]
  refine respelled_pass hR acc (fun hhead => ?_) hbare
  apply hp acc tokens.tail
  rw [← h, pass, hhead]
  rfl

theorem Pass.Respelled.of_last {outcome : Outcome (Poly α × Terminator)} {p : Pass α}
    (h : (Pass.last outcome).Respelled p) :
    ∃ outcome', p = .last outcome' ∧ outcome.Respelled Eq outcome' := by
  cases p with
  | last outcome' => exact ⟨outcome', rfl, h⟩
  | more acc rest => exact h.elim
  | opens rest => exact h.elim

theorem Pass.Respelled.of_more {acc : Accumulator α} {rest : List Token} {p : Pass α}
    (h : (Pass.more acc rest).Respelled p) : p = .more acc (spread rest) ∧ ∀ t ∈ rest, t.Bare := by
  cases p with
  | more acc' rest' => exact ⟨by rw [h.1, h.2.1], h.2.2⟩
  | last outcome => exact h.elim
  | opens rest => exact h.elim

theorem Pass.Respelled.of_opens {rest : List Token} {p : Pass α} (h : (Pass.opens rest).Respelled p) :
    p = .opens (spread rest) ∧ ∀ t ∈ rest, t.Bare := by
  cases p with
  | opens rest' => exact ⟨by rw [h.1], h.2⟩
  | more acc rest => exact h.elim
  | last outcome => exact h.elim

/-- So does what follows an expression in parentheses. -/
theorem respelled_of_behind_eq {acc : Accumulator α} {inner inner' : Outcome (Poly α × Terminator)}
    {p : Pass α} (h : .behind ((closed inner).bind (multiplied R acc)) = p)
    (hinner : inner.Respelled Eq inner') :
    p.Respelled (.behind ((closed inner').bind (multiplied R acc))) := by
  rw [← h]
  refine Pass.respelled_behind ((respelled_closed hinner).bind ?_)
  rintro factor _ rest rfl hrest
  exact respelled_multiplied acc factor hrest

/-- The tokens with stars have an outcome that goes with the outcome of the tokens. -/
theorem Reads.spread (hR : R.coefficients.Interchanges) {closer : Option Char} {acc : Accumulator α}
    {outcome : Outcome (Poly α × Terminator)} (h : Reads R limits depth closer acc tokens outcome)
    (hcloser : closer = none) (hbare : ∀ t ∈ tokens, t.Bare) :
    ∃ outcome', Reads R limits depth closer acc (Token.spread tokens) outcome' ∧
      outcome.Respelled Eq outcome' := by
  induction h with
  | last h =>
    subst hcloser
    obtain ⟨outcome', hlast, hmatch⟩ := (respelled_of_pass_eq hR h (by simp) hbare).of_last
    exact ⟨outcome', .last hlast, hmatch⟩
  | @more depth closer acc tokens acc' rest outcome h hrest ih =>
    subst hcloser
    by_cases hhead : tokens.headD .eof = .op '^'
    · -- The caret is skipped in one pass, the two stars in two.
      cases tokens with
      | nil => contradiction
      | cons t tokens =>
        obtain rfl : t = .op '^' := hhead
        obtain ⟨rfl, rfl⟩ : acc = acc' ∧ tokens = rest := by
          simpa [pass, Role.ofToken] using h
        obtain ⟨outcome', hreads, hmatch⟩ := ih rfl (List.forall_mem_cons.1 hbare).2
        have hskip : ∀ rest, pass R limits depth none acc (.op '*' :: rest) = .more acc rest :=
          fun _ => rfl
        exact ⟨outcome', .more (hskip _) (.more (hskip _) hreads), hmatch⟩
    · have hpass : (pass R limits depth none acc tokens).Respelled
          (pass R limits depth none acc (Token.spread tokens)) := respelled_pass hR acc hhead hbare
      rw [h] at hpass
      obtain ⟨hmore, hrest⟩ := hpass.of_more
      obtain ⟨outcome', hreads, hmatch⟩ := ih rfl hrest
      exact ⟨outcome', .more hmore hreads, hmatch⟩
  | group h hinner hbehind ih =>
    subst hcloser
    obtain ⟨hopens, hrest⟩ := (respelled_of_pass_eq hR h (by simp) hbare).of_opens
    obtain ⟨inner', hreads, hmatch⟩ := ih rfl hrest
    obtain ⟨outcome', hlast, houtcome⟩ := (respelled_of_behind_eq hbehind hmatch).of_last
    exact ⟨outcome', .group hopens hreads hlast, houtcome⟩
  | groupMore h hinner hbehind hrest ih ihrest =>
    subst hcloser
    obtain ⟨hopens, hrest⟩ := (respelled_of_pass_eq hR h (by simp) hbare).of_opens
    obtain ⟨inner', hreads, hmatch⟩ := ih rfl hrest
    obtain ⟨hmore, hrest'⟩ := (respelled_of_behind_eq hbehind hmatch).of_more
    obtain ⟨outcome', hreads', houtcome⟩ := ihrest rfl hrest'
    exact ⟨outcome', .groupMore hopens hreads hmore hreads', houtcome⟩

end

end Grammar

namespace PolyRing

variable {α : Type} {R : PolyRing α}

/-- Over such coefficients, expressions are read alike with carets and with stars, or refused
alike. -/
theorem toOption_polynomialOf_starred (hR : R.coefficients.Interchanges) (limits : Limits) (depth : Nat)
    {t : Text} (ht : t.Unquoted) :
    (Reader.polynomialOf R limits depth t.starred).toOption =
      (Reader.polynomialOf R limits depth t).toOption := by
  obtain ⟨outcome, hreads⟩ := Grammar.exists_reads R limits depth none (.start R)
    (Token.solid_of_mem_ofText (t := t))
  obtain ⟨outcome', hreads', hmatch⟩ := hreads.spread hR rfl (Token.bare_of_mem_ofText ht)
  rw [← Token.ofText_starred ht] at hreads'
  have hrun := Reader.polynomialOf_of_reads hreads
  have hrun' := Reader.polynomialOf_of_reads hreads'
  unfold Outcome.Respelled at hmatch
  cases hresult : outcome.result with
  | ok result =>
    cases hresult' : outcome'.result with
    | ok result' =>
      simp only [hresult, hresult'] at hrun hrun' hmatch
      rw [hrun, hrun', hmatch.1]
    | error e => simp [hresult, hresult'] at hmatch
  | error e =>
    cases hresult' : outcome'.result with
    | ok result' => simp [hresult, hresult'] at hmatch
    | error e' =>
      simp only [hresult, hresult'] at hrun hrun'
      obtain ⟨⟨e, he⟩, e', he'⟩ := And.intro hrun hrun'
      rw [he, he']
      rfl

/-- So are literals that are polynomials. -/
theorem interchanges_arithmetic (hR : R.coefficients.Interchanges) : R.arithmetic.Interchanges := by
  intro limits depth t ht
  have hread := toOption_polynomialOf_starred hR limits depth ht
  have hmap : ∀ u, (R.arithmetic.readWithin limits depth u).toOption =
      (Reader.polynomialOf R limits depth u).toOption := by
    intro u
    change ((Reader.polynomialOf R limits depth u).mapError _).toOption = _
    cases Reader.polynomialOf R limits depth u <;> rfl
  rw [hmap, hmap, hread]

end PolyRing

/-- So are literals that are residues of polynomials. -/
theorem Extension.interchanges_arithmetic {α : Type} {A : Arithmetic α} (hA : A.Interchanges)
    (E : Extension α) : (E.arithmetic A).Interchanges := by
  intro limits depth t ht
  have hread := PolyRing.interchanges_arithmetic (R := E.ring A) hA limits depth ht
  have hmap : ∀ u, ((E.arithmetic A).readWithin limits depth u).toOption =
      ((E.ring A).arithmetic.readWithin limits depth u).toOption.map (E.reduce A) := by
    intro u
    change (((E.ring A).arithmetic.readWithin limits depth u).map _).toOption = _
    cases (E.ring A).arithmetic.readWithin limits depth u <;> rfl
  rw [hmap, hmap, hread]

/-! ### Rings of coefficients -/

/-- A ring that takes the characters of numbers only refuses carets as well as stars. -/
theorem Arithmetic.TakesNumbers.interchanges {α : Type} {A : Arithmetic α} (hA : A.TakesNumbers) :
    A.Interchanges := by
  intro limits depth t _
  have hrefused : ∀ {u : Text} {c : Char}, c ∈ u → isNumberChar c = false →
      (A.readWithin limits depth u).toOption = none := by
    intro u c hc hforeign
    cases hread : A.readWithin limits depth u with
    | ok a => exact absurd (hA hread c hc) (by simp [hforeign])
    | error fault => rfl
  by_cases hcaret : '^' ∈ t
  · rw [hrefused hcaret (by decide), hrefused (Text.star_mem_starred hcaret) (by decide)]
  · rw [Text.starred_of_not_mem hcaret]

/-- No ring of coefficients tells carets from stars. -/
theorem Arithmetic.Built.interchanges {α : Type} {A : Arithmetic α} {C : α → Prop}
    {same : α → α → Prop} (h : A.Built C same) : A.Interchanges := by
  induction h with
  | rational => exact Rational.takesNumbers.interchanges
  | integer => exact Integer.takesNumbers.interchanges
  | word m => exact m.takesNumbers.interchanges
  | big m => exact m.takesNumbers.interchanges
  | complex => exact Gaussian.takesNumbers.interchanges
  | quaternion => exact Quaternion.takesNumbers.interchanges
  | octonion => exact Octonion.takesNumbers.interchanges
  | decimal => exact FixedDecimal.takesNumbers.interchanges
  | polynomials R _ ih => exact PolyRing.interchanges_arithmetic ih
  | extension base =>
    apply Extension.interchanges_arithmetic
    cases base with
    | rational => exact Rational.takesNumbers.interchanges
    | word m => exact m.takesNumbers.interchanges
    | big m => exact m.takesNumbers.interchanges

/-- Over every ring of coefficients, in any variables and within any limits, a text without quotes
and comments is read as the same polynomial with every caret written as two stars, or both texts are
refused. -/
theorem carets_interchange_with_stars {α : Type} {C : α → Prop} {same : α → α → Prop} (R : PolyRing α)
    (h : R.coefficients.Built C same) (limits : Limits) (depth : Nat) {t : Text} (ht : t.Unquoted) :
    (∃ p s s', Reader.polynomial R (.ofText t limits depth) = .ok p s ∧
      Reader.polynomial R (.ofText t.starred limits depth) = .ok p s') ∨
    ∃ e e' s s', Reader.polynomial R (.ofText t limits depth) = .error e s ∧
      Reader.polynomial R (.ofText t.starred limits depth) = .error e' s' := by
  have hsame := PolyRing.toOption_polynomialOf_starred h.interchanges limits depth ht
  unfold Reader.polynomialOf at hsame
  cases hrun : Reader.polynomial R (.ofText t limits depth) with
  | ok p s =>
    cases hrun' : Reader.polynomial R (.ofText t.starred limits depth) with
    | ok q s' =>
      rw [hrun, hrun'] at hsame
      obtain rfl : q = p := Option.some.inj hsame
      exact .inl ⟨q, s, s', rfl, rfl⟩
    | error e s' =>
      rw [hrun, hrun'] at hsame
      contradiction
  | error e s =>
    cases hrun' : Reader.polynomial R (.ofText t.starred limits depth) with
    | ok q s' =>
      rw [hrun, hrun'] at hsame
      contradiction
    | error e' s' => exact .inr ⟨e, e', s, s', rfl, rfl⟩

/-- Over polynomials in one variable modulo six: a mark behind a star, in front of one, behind a mark
and at the end, and marks in a literal in braces. -/
theorem marks_modulo_six :
    let m : WordModulus := ⟨6, by decide⟩
    let A : PolyRing UInt64 := ⟨m.arithmetic, [['a']], {}⟩
    let R : PolyRing (Poly UInt64) := ⟨A.arithmetic, [['x'], ['y']], {}⟩
    let t : Text := "x*^2 y^*5 + \x7ba^2 ^ (a)^3\x7d x^^2 - y^".toList
    let p : Poly (Poly UInt64) := ⟨[([0, 1], ⟨[([0], 5)]⟩), ([1, 0], ⟨[([5], 2)]⟩), ([1, 1], ⟨[([0], 4)]⟩)]⟩
    t.starred = "x***2 y***5 + \x7ba**2 ** (a)**3\x7d x****2 - y**".toList ∧
      ∃ s s', Reader.polynomial R (.ofText t) = .ok p s ∧
        Reader.polynomial R (.ofText t.starred) = .ok p s' := by
  intro m A R t p
  have hread : ∃ s, Reader.polynomial R (.ofText t) = .ok p s :=
    Reader.exists_eq_ok (by decide +kernel)
  have hboth := carets_interchange_with_stars R (.polynomials A (.word m)) {} 0 (t := t) (by decide)
  refine ⟨by decide, ?_⟩
  clear_value R t p
  obtain ⟨s, hp⟩ := hread
  rcases hboth with ⟨q, s, s', hq, hq'⟩ | ⟨e, e', s, s', he, -⟩
  · rw [hp] at hq
    obtain ⟨rfl, rfl⟩ := EStateM.Result.ok.inj hq
    exact ⟨_, s', hp, hq'⟩
  · rw [hp] at he
    contradiction

end PolynomialText
