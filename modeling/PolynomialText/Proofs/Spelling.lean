import PolynomialText.Proofs.ExpressionSteps

/-!
# How tokens are spelled

`Token.Spells` says that a text stands for tokens wherever it is written, as long as no word runs
on into the text behind it; formatted texts are put together from such parts. `Token.Renders` lists
every way to write tokens down with blanks and comments between them. Both determine the tokens of
the text. The text that is rebuilt from the tokens of a literal has the same tokens again.
-/

namespace PolynomialText

/-- A non-empty run of characters of words. -/
def Text.IsWord (w : Text) : Prop := w ≠ [] ∧ ∀ c ∈ w, isWordChar c = true

instance : DecidablePred Text.IsWord := fun w =>
  @instDecidableAnd _ _ inferInstance (List.decidableBAll (fun c => isWordChar c = true) w)

/-- A name that is read as a symbol: a word that starts like no numeral. -/
def Text.IsName (w : Text) : Prop := w.IsWord ∧ w.head?.any isNumeralStart = false

instance : DecidablePred Text.IsName := fun w =>
  inferInstanceAs (Decidable (w.IsWord ∧ w.head?.any isNumeralStart = false))

/-- The variables of a ring have different names that are read as symbols. -/
structure PolyRing.Named {α : Type} (R : PolyRing α) : Prop where
  nodup : R.vars.Nodup
  isName : ∀ v ∈ R.vars, v.IsName

/-- A declared variable is found at its own position. -/
theorem PolyRing.varIndex?_getElem {α : Type} {R : PolyRing α} (hnodup : R.vars.Nodup) {index : Nat}
    (hindex : index < R.vars.length) : R.varIndex? R.vars[index] = some index := by
  rw [varIndex?, List.findIdx?_eq_some_iff_getElem]
  refine ⟨hindex, by simp, fun j hj => ?_⟩
  have hne := List.pairwise_iff_getElem.1 hnodup j index (Nat.lt_trans hj hindex) hindex hj
  simpa using hne

theorem PolyRing.varIndex?_eq_none {α : Type} {R : PolyRing α} {name : Text} (h : name ∉ R.vars) :
    R.varIndex? name = none := by
  refine List.findIdx?_eq_none_iff.2 fun v hv => ?_
  rw [decide_eq_false_iff_not]
  rintro rfl
  exact h hv

theorem PolyRing.exists_varIndex? {α : Type} {R : PolyRing α} {name : Text} (h : name ∈ R.vars) :
    ∃ index, R.varIndex? name = some index := by
  rw [← Option.isSome_iff_exists, varIndex?, List.findIdx?_isSome]
  exact List.any_eq_true.2 ⟨name, h, decide_eq_true rfl⟩

/-- A character that is a token of its own. -/
def IsOperator (c : Char) : Prop :=
  Text.isBlank c = false ∧ c ≠ '#' ∧ c ≠ '"' ∧ c ≠ '\x27' ∧ isWordChar c = false

instance : DecidablePred IsOperator := fun _ => inferInstanceAs (Decidable (_ ∧ _))

/-- A character of a literal in braces: no blank, quote, number sign or brace. -/
def IsLiteralChar (c : Char) : Prop :=
  Text.isBlank c = false ∧ c ≠ '#' ∧ c ≠ '"' ∧ c ≠ '\x27' ∧ c ≠ '\x7b' ∧ c ≠ '\x7d'

instance : DecidablePred IsLiteralChar := fun _ => inferInstanceAs (Decidable (_ ∧ _))

/-- A property of all characters of a text, checked one by one. -/
theorem Text.forall_mem_of_all {P : Char → Prop} [DecidablePred P] {t : Text}
    (h : t.all (fun c => decide (P c)) = true := by decide) : ∀ c ∈ t, P c := by
  simpa using h

/-- No word runs on from the first text into the second. -/
def Text.Apart (t u : Text) : Prop :=
  ∀ c ∈ t.getLast?, ∀ d ∈ u.head?, isWordChar c = true → isWordChar d = false

namespace Text

theorem apart_nil_left (u : Text) : Apart [] u := by simp [Apart]

theorem apart_nil_right (t : Text) : Apart t [] := by simp [Apart]

/-- A text is apart from one that starts with no character of a word. -/
theorem apart_cons {t u : Text} {d : Char} (hd : isWordChar d = false := by decide) :
    Apart t (d :: u) := by
  intro c _ d' hd' _
  obtain rfl : d = d' := by simpa using hd'
  exact hd

/-- A text that ends with no character of a word is apart from every text. -/
theorem apart_of_getLast? {t u : Text} (h : ∀ c ∈ t.getLast?, isWordChar c = false) : Apart t u := by
  intro c hc d _ hword
  rw [h c hc] at hword
  contradiction

/-- A word is apart from a text that starts with no character of a word. -/
theorem Apart.head {t u : Text} (h : Apart t u) (hne : t ≠ []) (ht : ∀ c ∈ t, isWordChar c = true) :
    ∀ c ∈ u.head?, isWordChar c = false := by
  intro d hd
  have hlast : t.getLast? = some (t.getLast hne) := List.getLast?_eq_some_getLast hne
  exact h _ hlast d hd (ht _ (List.getLast_mem hne))

end Text

namespace Token

/-! ### Reading the first token -/

/-- A significant character starts its text. -/
theorem start_cons {c : Char} {t : Text} (hblank : Text.isBlank c = false) (hhash : c ≠ '#') :
    start (c :: t) = c :: t := by
  have hnewline : c ≠ '\n' := by
    rintro rfl
    exact absurd hblank (by decide)
  simp [start, skip, hnewline, hhash, hblank]

/-- A word is one token. -/
theorem ofText_word_append {w t : Text} (hw : w.IsWord) (ht : w.Apart t) :
    ofText (w ++ t) = word w :: ofText t := by
  cases w with
  | nil => exact absurd rfl hw.1
  | cons c w =>
    have hc : isWordChar c = true := hw.2 c List.mem_cons_self
    have hquote : ¬ (c = '"' ∨ c = '\x27') := by
      rintro (rfl | rfl) <;> exact absurd hc (by decide)
    obtain ⟨htake, hdrop⟩ := span_run (fun d hd => hw.2 d (List.mem_cons_of_mem _ hd))
      (ht.head hw.1 hw.2)
    have hstart : start (c :: w ++ t) = c :: (w ++ t) :=
      start_cons (isBlank_of_isWordChar hc) (ne_hash_of_isWordChar hc)
    rw [ofText_of_start_cons hstart, lex, if_neg hquote, if_pos hc, htake, hdrop]

/-- An operator is one token. -/
theorem ofText_op_cons {c : Char} (hc : IsOperator c) (t : Text) :
    ofText (c :: t) = op c :: ofText t := by
  obtain ⟨hblank, hhash, hdouble, hsingle, hword⟩ := hc
  have hquote : ¬ (c = '"' ∨ c = '\x27') := not_or.2 ⟨hdouble, hsingle⟩
  have hword' : ¬ isWordChar c = true := by simp [hword]
  rw [ofText_of_start_cons (start_cons hblank hhash), lex, if_neg hquote, if_neg hword']

/-- A blank is dropped. -/
theorem start_blank_cons {c : Char} (hc : Text.isBlank c = true) (t : Text) :
    start (c :: t) = start t := by
  have hhash : c ≠ '#' := by
    rintro rfl
    exact absurd hc (by decide)
  by_cases hnewline : c = '\n'
  · simp only [start, skip, hnewline, if_true]
    exact skip_snd false _ _ t
  · simp [start, skip, hnewline, hhash, hc]

/-- A blank is no token. -/
theorem ofText_blank_cons {c : Char} (hc : Text.isBlank c = true) (t : Text) :
    ofText (c :: t) = ofText t :=
  Scanner.ofText_congr_start (start_blank_cons hc t)

/-- A quoted literal is read back between the quotes it was read from. -/
theorem ofText_quoted {c : Char} (hc : c = '"' ∨ c = '\x27') {q : Text}
    (hq : ∀ d ∈ q, isQuotedChar c d = true) (t : Text) :
    ofText (c :: (q ++ c :: t)) = quoted q :: ofText t := by
  have hstart : start (c :: (q ++ c :: t)) = c :: (q ++ c :: t) := by
    rcases hc with rfl | rfl
    · exact start_cons (by decide) (by decide)
    · exact start_cons (by decide) (by decide)
  obtain ⟨htake, hdrop⟩ := @span_run (isQuotedChar c) q (c :: t) hq (by simp [isQuotedChar])
  rw [ofText_of_start_cons hstart, lex, if_pos hc, htake, hdrop]
  simp [Text.dropOne, Text.strip?]

/-- Some of the tokens of a text, in their order, are the tokens of another text. -/
theorem exists_ofText_of_sublist {t : Text} {tokens : List Token} (h : tokens.Sublist (ofText t)) :
    ∃ u, ofText u = tokens := by
  induction t using ofText_induction generalizing tokens with
  | nil t hstart =>
    rw [ofText_of_start_nil hstart] at h
    exact ⟨t, by rw [ofText_of_start_nil hstart, List.sublist_nil.1 h]⟩
  | cons t c rest hstart ih =>
    rw [ofText_of_start_cons hstart] at h
    rcases List.sublist_cons_iff.1 h with hlater | ⟨others, rfl, hothers⟩
    · exact ih hlater
    · obtain ⟨u, rfl⟩ := ih hothers
      have hc := skip_cons_spec hstart
      unfold lex
      split
      · rename_i hquote
        exact ⟨_, ofText_quoted hquote (List.all_eq_true.1 List.all_takeWhile) u⟩
      · rename_i hquote
        split
        · rename_i hword
          have hw : Text.IsWord (c :: rest.takeWhile isWordChar) := by
            refine ⟨List.cons_ne_nil _ _, List.forall_mem_cons.2 ⟨hword, ?_⟩⟩
            exact List.all_eq_true.1 List.all_takeWhile
          refine ⟨c :: rest.takeWhile isWordChar ++ ' ' :: u, ?_⟩
          rw [ofText_word_append hw (Text.apart_cons), ofText_blank_cons (by decide)]
        · rename_i hword
          have hop : IsOperator c := ⟨hc.2.2, hc.2.1, (not_or.1 hquote).1, (not_or.1 hquote).2,
            Bool.eq_false_iff.2 hword⟩
          exact ⟨c :: u, ofText_op_cons hop u⟩

/-- In a comment everything is dropped up to the end of the line. -/
theorem skip_comment_append {body : Text} (hbody : '\n' ∉ body) (line : Nat) (t : Text) :
    skip true line (body ++ t) = skip true line t := by
  induction body with
  | nil => rfl
  | cons c body ih =>
    have hc : c ≠ '\n' := fun h => hbody (h ▸ List.mem_cons_self)
    rw [List.cons_append, skip, if_neg hc, Bool.true_or, if_pos rfl]
    exact ih fun h => hbody (List.mem_cons_of_mem _ h)

/-- A comment and its line end are no tokens. -/
theorem ofText_comment {body : Text} (hbody : '\n' ∉ body) (t : Text) :
    ofText ('#' :: body ++ '\n' :: t) = ofText t := by
  apply Scanner.ofText_congr_start
  have hstart : start ('#' :: body ++ '\n' :: t) = (skip true 0 (body ++ '\n' :: t)).2 := rfl
  rw [hstart, skip_comment_append hbody]
  exact skip_snd false _ _ t

/-- A comment at the end of a text is no token. -/
theorem ofText_last_comment {body : Text} (hbody : '\n' ∉ body) : ofText ('#' :: body) = [] := by
  apply ofText_of_start_nil
  have hstart : start ('#' :: body) = (skip true 0 (body ++ [])).2 := by
    rw [List.append_nil]
    rfl
  rw [hstart, skip_comment_append hbody]
  rfl

/-! ### Texts that stand for tokens -/

/-- The text stands for the tokens in front of every text that it is apart from. -/
def Spells (t : Text) (tokens : List Token) : Prop :=
  ∀ tail, t.Apart tail → ofText (t ++ tail) = tokens ++ ofText tail

/-- A text that stands for tokens has these tokens. -/
theorem Spells.ofText_eq {t : Text} {tokens : List Token} (h : Spells t tokens) :
    ofText t = tokens := by
  have hwhole := h [] (Text.apart_nil_right t)
  rwa [List.append_nil, ofText_of_start_nil (t := []) rfl, List.append_nil] at hwhole

/-- Nothing stands for no tokens. -/
theorem spells_nil : Spells [] [] := fun _ _ => rfl

/-- Two texts that are apart stand for the tokens of both. -/
theorem Spells.append {t u : Text} {ts us : List Token} (ht : Spells t ts) (hu : Spells u us)
    (hapart : t.Apart u) : Spells (t ++ u) (ts ++ us) := by
  intro tail htail
  by_cases hnil : u = []
  · subst hnil
    have hus : us = [] := by
      rw [← hu.ofText_eq]
      exact ofText_of_start_nil rfl
    rw [List.append_nil] at htail ⊢
    rw [ht tail htail, hus, List.append_nil]
  · have hjoint : t.Apart (u ++ tail) := by
      intro c hc d hd
      rw [List.head?_append, Option.or_of_isSome (by simp [hnil])] at hd
      exact hapart c hc d hd
    have htail' : u.Apart tail := by
      intro c hc
      apply htail c
      rw [List.getLast?_append, Option.or_of_isSome (by simp [hnil])]
      exact hc
    rw [List.append_assoc, ht _ hjoint, hu _ htail', List.append_assoc]

/-- A word stands for itself. -/
theorem spells_word {w : Text} (hw : w.IsWord := by decide) : Spells w [word w] :=
  fun _ htail => ofText_word_append hw htail

/-- An operator in front of a text. -/
theorem Spells.op_cons {t : Text} {ts : List Token} (h : Spells t ts) (c : Char)
    (hc : IsOperator c := by decide) : Spells (c :: t) (op c :: ts) := by
  have hop : Spells [c] [op c] := fun tail _ => ofText_op_cons hc tail
  exact hop.append h (Text.apart_of_getLast? (by simpa using hc.2.2.2.2))

/-- A text between two operators. -/
theorem Spells.enclosed {t : Text} {ts : List Token} (h : Spells t ts) (a b : Char)
    (ha : IsOperator a := by decide) (hb : IsOperator b := by decide) :
    Spells (a :: (t ++ [b])) (op a :: (ts ++ [op b])) := by
  have hclose : Spells [b] [op b] := spells_nil.op_cons b hb
  exact (h.append hclose (Text.apart_cons hb.2.2.2.2)).op_cons a ha

/-- A blank in front of a text. -/
theorem Spells.blank_cons {t : Text} {ts : List Token} (h : Spells t ts) (c : Char)
    (hc : Text.isBlank c = true := by decide) : Spells (c :: t) ts := by
  have hblank : Spells [c] [] := fun tail _ => ofText_blank_cons hc tail
  have hword : ∀ d ∈ [c].getLast?, isWordChar d = false := by
    intro d hd
    obtain rfl : c = d := by simpa using hd
    cases hcase : isWordChar c with
    | false => rfl
    | true =>
      rw [isBlank_of_isWordChar hcase] at hc
      contradiction
  exact hblank.append h (Text.apart_of_getLast? hword)

/-! ### Every way to write tokens down -/

/-- Blanks and finished comments. -/
inductive Gap : Text → Prop
  | nil : Gap []
  | blank {c : Char} {t : Text} : Text.isBlank c = true → Gap t → Gap (c :: t)
  | comment {body t : Text} : '\n' ∉ body → Gap t → Gap ('#' :: body ++ '\n' :: t)

/-- A token that can be written down: a word or an operator. -/
def Written : Token → Prop
  | word w => w.IsWord
  | op c => IsOperator c
  | _ => False

instance : DecidablePred Written
  | word w => inferInstanceAs (Decidable w.IsWord)
  | op c => inferInstanceAs (Decidable (IsOperator c))
  | quoted _ => isFalse id
  | eof => isFalse id

/-- The text is the tokens with blanks and comments between them, words being kept apart; the last
comment needs no end. -/
inductive Renders : List Token → Text → Prop
  | finish {gap : Text} : Gap gap → Renders [] gap
  | comment {gap body : Text} : Gap gap → '\n' ∉ body → Renders [] (gap ++ '#' :: body)
  | token {gap text : Text} {t : Token} {tokens : List Token} : Gap gap → t.Written →
      t.lexeme.Apart text → Renders tokens text → Renders (t :: tokens) (gap ++ (t.lexeme ++ text))

/-- Blanks and comments are no tokens. -/
theorem ofText_gap_append {gap : Text} (h : Gap gap) (t : Text) : ofText (gap ++ t) = ofText t := by
  induction h with
  | nil => rfl
  | blank hc _ ih => rw [List.cons_append, ofText_blank_cons hc, ih]
  | comment hbody _ ih =>
    rw [List.append_assoc]
    exact (ofText_comment hbody _).trans ih

/-- A token that is written down is read. -/
theorem ofText_lexeme_append {t : Token} (ht : t.Written) {text : Text} (hapart : t.lexeme.Apart text) :
    ofText (t.lexeme ++ text) = t :: ofText text := by
  cases t with
  | word w => exact ofText_word_append ht hapart
  | op c => exact ofText_op_cons ht text
  | quoted _ => exact ht.elim
  | eof => exact ht.elim

/-- The tokens of a text are those that it was written from. -/
theorem Renders.ofText_eq {tokens : List Token} {text : Text} (h : Renders tokens text) :
    ofText text = tokens := by
  induction h with
  | finish hgap =>
    have hnil := ofText_gap_append hgap []
    rw [List.append_nil] at hnil
    rw [hnil]
    exact ofText_of_start_nil rfl
  | comment hgap hbody => rw [ofText_gap_append hgap, ofText_last_comment hbody]
  | token hgap ht hapart _ ih => rw [ofText_gap_append hgap, ofText_lexeme_append ht hapart, ih]

/-- Tokens with a blank behind each of them. -/
def spaced (tokens : List Token) : Text := tokens.flatMap fun t => t.lexeme ++ [' ']

/-- Tokens can be written with blanks behind them, and a comment at the end. -/
theorem renders_spaced {tokens : List Token} (h : ∀ t ∈ tokens, t.Written) {body : Text}
    (hbody : '\n' ∉ body) : Renders tokens (spaced tokens ++ '#' :: body) := by
  have hblank : ∀ {us : List Token} {u : Text}, Renders us u → Renders us (' ' :: u) := by
    intro us u hu
    have hspace : Text.isBlank ' ' = true := by decide
    cases hu with
    | finish hgap => exact .finish (.blank hspace hgap)
    | comment hgap hbody => exact .comment (.blank hspace hgap) hbody
    | token hgap ht hapart hrest => exact .token (.blank hspace hgap) ht hapart hrest
  induction tokens with
  | nil => exact .comment .nil hbody
  | cons t tokens ih =>
    have hrest := ih fun u hu => h u (List.mem_cons_of_mem _ hu)
    have htoken := Renders.token .nil (h t List.mem_cons_self) Text.apart_cons
      (hblank hrest)
    simpa [spaced] using htoken

end Token

/-! ### Literals in braces -/

namespace Reader

/-- A literal without blanks, comments and quotes is rebuilt as it was written, behind a text from
which it is apart. -/
theorem text_foldl_take {lit : Text}
    (hlit : ∀ c ∈ lit, Text.isBlank c = false ∧ c ≠ '#' ∧ c ≠ '"' ∧ c ≠ '\x27') {b : Braces}
    (hb : b.afterWord = true → ∀ c ∈ lit.head?, isWordChar c = false) :
    ((Token.ofText lit).foldl Braces.take b).text = b.text ++ lit := by
  induction lit using Token.ofText_induction generalizing b with
  | nil t h =>
    cases t with
    | nil => rw [Token.ofText_of_start_nil h, List.foldl_nil, List.append_nil]
    | cons c t =>
      obtain ⟨hblank, hhash, _⟩ := hlit c List.mem_cons_self
      rw [Token.start_cons hblank hhash] at h
      contradiction
  | cons t c rest h ih =>
    cases t with
    | nil => exact absurd h (by simp [Token.start, Token.skip])
    | cons d t =>
      obtain ⟨hblank, hhash, hdouble, hsingle⟩ := hlit d List.mem_cons_self
      rw [Token.start_cons hblank hhash] at h
      obtain ⟨rfl, rfl⟩ := List.cons.inj h
      have hquote : ¬ (d = '"' ∨ d = '\x27') := not_or.2 ⟨hdouble, hsingle⟩
      rw [Token.ofText_of_start_cons (Token.start_cons hblank hhash), List.foldl_cons]
      by_cases hword : isWordChar d = true
      · have hlex : Token.lex d t = (.word (d :: t.takeWhile isWordChar), t.dropWhile isWordChar) := by
          rw [Token.lex, if_neg hquote, if_pos hword]
        have hafter : ¬ b.afterWord = true := by
          intro hafter
          have := hb hafter d rfl
          rw [hword] at this
          contradiction
        rw [hlex] at ih ⊢
        rw [ih]
        · simp [Braces.take, hafter]
        · intro c hc
          exact hlit c (List.mem_cons_of_mem _ ((List.dropWhile_suffix _).subset hc))
        · intro _ c hc
          have hhead := List.head?_dropWhile_not isWordChar t
          rw [hc] at hhead
          simpa using hhead
      · have hlex : Token.lex d t = (.op d, t) := by
          rw [Token.lex, if_neg hquote, if_neg hword]
        rw [hlex] at ih ⊢
        rw [ih]
        · simp [Braces.take]
        · exact fun c hc => hlit c (List.mem_cons_of_mem _ hc)
        · exact fun hafter => absurd hafter (by simp [Braces.take])

/-- A literal without blanks, comments and quotes is rebuilt as it was written. -/
theorem rebuilt_ofText {lit : Text}
    (hlit : ∀ c ∈ lit, Text.isBlank c = false ∧ c ≠ '#' ∧ c ≠ '"' ∧ c ≠ '\x27') :
    rebuilt (Token.ofText lit) = lit :=
  text_foldl_take hlit fun hafter => absurd hafter (by simp)

/-- The tokens of a literal that can stand in braces. -/
theorem inLiteral_of_mem_ofText {literal : Text} (hliteral : ∀ d ∈ literal, IsLiteralChar d) :
    ∀ t ∈ Token.ofText literal, Reader.InLiteral t := by
  induction literal using Token.ofText_induction with
  | nil t hstart =>
    rw [Token.ofText_of_start_nil hstart]
    exact fun _ hmem => absurd hmem List.not_mem_nil
  | cons t c tail hstart ih =>
    have hsuffix : c :: tail <:+ t := hstart ▸ Token.skip_suffix false 0 t
    obtain ⟨_, _, hdouble, hsingle, hopen, hclose⟩ := hliteral c (hsuffix.subset List.mem_cons_self)
    rw [Token.ofText_of_start_cons hstart]
    intro u hu
    rcases List.mem_cons.1 hu with rfl | hmem
    · rw [Token.lex, if_neg (not_or.2 ⟨hdouble, hsingle⟩)]
      split
      · trivial
      · exact ⟨hopen, hclose⟩
    · have hrest := (Token.lex_suffix c tail).trans ((List.suffix_cons c tail).trans hsuffix)
      exact ih (fun d hd => hliteral d (hrest.subset hd)) u hmem

/-- A literal that can stand in braces stands for its tokens wherever it is written. -/
theorem spells_literal {literal : Text} (hliteral : ∀ d ∈ literal, IsLiteralChar d) :
    Token.Spells literal (Token.ofText literal) := by
  induction literal using Token.ofText_induction with
  | nil t hstart =>
    cases t with
    | nil =>
      rw [Token.ofText_of_start_nil hstart]
      exact Token.spells_nil
    | cons c t =>
      obtain ⟨hblank, hhash, _⟩ := hliteral c List.mem_cons_self
      rw [Token.start_cons hblank hhash] at hstart
      contradiction
  | cons t c rest hstart ih =>
    cases t with
    | nil => exact absurd hstart (by simp [Token.start, Token.skip])
    | cons d t =>
      obtain ⟨hblank, hhash, hdouble, hsingle, _⟩ := hliteral d List.mem_cons_self
      have hrest : ∀ e ∈ (Token.lex d t).2, IsLiteralChar e := fun e he =>
        hliteral e (List.mem_cons_of_mem _ ((Token.lex_suffix d t).subset he))
      rw [Token.start_cons hblank hhash] at hstart
      obtain ⟨rfl, rfl⟩ := List.cons.inj hstart
      have htail := ih hrest
      rw [Token.ofText_of_start_cons (Token.start_cons hblank hhash)]
      have hquote : ¬ (d = '"' ∨ d = '\x27') := not_or.2 ⟨hdouble, hsingle⟩
      by_cases hword : isWordChar d = true
      · have hlex : Token.lex d t = (.word (d :: t.takeWhile isWordChar), t.dropWhile isWordChar) := by
          rw [Token.lex, if_neg hquote, if_pos hword]
        have hfirst : Text.IsWord (d :: t.takeWhile isWordChar) := by
          refine ⟨List.cons_ne_nil _ _, fun e he => ?_⟩
          rcases List.mem_cons.1 he with rfl | hmem
          · exact hword
          · exact List.all_eq_true.1 List.all_takeWhile e hmem
        have happend := (Token.spells_word hfirst).append (hlex ▸ htail) ?_
        · rw [hlex]
          simpa using happend
        · intro _ _ e he _
          have hhead := List.head?_dropWhile_not isWordChar t
          rw [he] at hhead
          simpa using hhead
      · have hlex : Token.lex d t = (.op d, t) := by
          rw [Token.lex, if_neg hquote, if_neg hword]
        rw [hlex] at htail ⊢
        exact htail.op_cons _ ⟨hblank, hhash, hdouble, hsingle, by simpa using hword⟩

end Reader

end PolynomialText
