import PolynomialText.Proofs.MovedExpressions
import PolynomialText.Proofs.Spelling

/-!
# Stray operators

An operator that is neither a sign nor a star, a parenthesis, a comma, a brace or a caret is skipped
where a factor may start. Behind a factor it still keeps apart what would be read together: a sign no
longer ends the term, two stars no longer mark an exponent, and a numeral that ends in the imaginary
unit no longer takes the signed number behind it. Where stray operators keep none of these apart, the
tokens without them are read as the same polynomial, by the same passes but for those that skip.
-/

namespace PolynomialText

/-! ### Tokens without stray operators -/

namespace Token

/-- An operator without a part in expressions. -/
def isStray : Token → Bool
  | op c => !"+-*(),".toList.contains c
  | _ => false

/-- The tokens without stray operators. -/
def strip (tokens : List Token) : List Token := tokens.filter (!·.isStray)

/-- A factor can end with the token. -/
def endsFactor : Token → Bool
  | word _ => true
  | quoted _ => true
  | op c => c = ')'
  | eof => false

/-- A numeral that ends in the imaginary unit. -/
def isUnitNumeral : Token → Bool
  | word w => w.head?.any isNumeralStart && w.getLast? = some 'i'
  | _ => false

/-- An operator is no character of words, and neither a brace nor a caret. -/
def Plain : Token → Prop
  | op c => isWordChar c = false ∧ c ≠ '\x7b' ∧ c ≠ '\x7d' ∧ c ≠ '^'
  | _ => True

/-- A plain token that starts with a digit is a word. -/
theorem Plain.exists_word {t : Token} (h : t.Plain)
    (hdigit : t.lexeme.head?.any Char.isDigit = true) : ∃ w, t = .word w := by
  cases t with
  | word w => exact ⟨w, rfl⟩
  | quoted q => exact absurd hdigit (by simp [lexeme])
  | op c =>
    have hc : isWordChar c = true := isWordChar_of_isDigit (by simpa [lexeme] using hdigit)
    rw [h.1] at hc
    contradiction
  | eof => contradiction

theorem strip_of_isStray {t : Token} (ht : t.isStray = true) (tokens : List Token) :
    strip (t :: tokens) = strip tokens := by
  simp [strip, ht]

theorem strip_cons {t : Token} (ht : t.isStray = false) (tokens : List Token) :
    strip (t :: tokens) = t :: strip tokens := by
  simp [strip, ht]

/-- The operators of a text are no characters of words. -/
theorem plain_of_mem_ofText {t : Text} (h : ∀ c ∈ "\x7b\x7d^".toList, op c ∉ ofText t) :
    ∀ token ∈ ofText t, token.Plain := by
  intro token hmem
  cases token with
  | op c =>
    have hne : ∀ d ∈ "\x7b\x7d^".toList, c ≠ d := by
      rintro d hd rfl
      exact h c hd hmem
    exact ⟨(of_op_mem_ofText hmem).2, hne _ (by decide), hne _ (by decide), hne _ (by decide)⟩
  | word w => trivial
  | quoted q => trivial
  | eof => trivial

end Token

/-! ### What stands together behind a factor -/

namespace Grammar

open Token (strip)

/-- The number of tokens of two stars with the number behind them, as far as they are looked at. -/
def markSpan : List Token → Nat
  | .op '*' :: u :: v :: rest =>
    if u.lexeme.head? = some '*' then
      if v.lexeme.head?.any isNumeralStart then 3
      else if v.lexeme.head? = some '-' ∧ digitAhead rest then 4
      else 0
    else 0
  | _ => 0

/-- The number of tokens behind a factor that only have their meaning there together: a sign, with
the digit behind it if the factor may join them, or a mark with its number. -/
def tied (joins : Bool) (tokens : List Token) : Nat :=
  if signAhead tokens then
    if joins ∧ digitAhead tokens.tail then 2 else 1
  else markSpan tokens

/-- No stray operator stands in front of the tokens that are tied to the token before, or among
them. -/
def Joined (hypercomplex : Bool) (t : Token) (rest : List Token) : Prop :=
  (strip rest).take (tied (hypercomplex && t.isUnitNumeral) (strip rest)) <+: rest

/-- Behind a factor, stray operators keep nothing apart. -/
def Undisturbed (hypercomplex : Bool) : List Token → Prop
  | [] => True
  | t :: rest => (t.endsFactor → Joined hypercomplex t rest) ∧ Undisturbed hypercomplex rest

instance (hypercomplex : Bool) (t : Token) (rest : List Token) :
    Decidable (Joined hypercomplex t rest) :=
  inferInstanceAs (Decidable (_ <+: _))

instance decidableUndisturbed (hypercomplex : Bool) :
    (tokens : List Token) → Decidable (Undisturbed hypercomplex tokens)
  | [] => .isTrue trivial
  | t :: rest =>
    have := decidableUndisturbed hypercomplex rest
    inferInstanceAs (Decidable ((t.endsFactor → Joined hypercomplex t rest) ∧ _))

/-- Plain tokens with undisturbed factors. -/
structure Clear (hypercomplex : Bool) (tokens : List Token) : Prop where
  plain : ∀ t ∈ tokens, t.Plain
  undisturbed : Undisturbed hypercomplex tokens

/-- Clear tokens behind a factor that joins no number. -/
structure Follows (hypercomplex : Bool) (tokens : List Token) : Prop
    extends Clear hypercomplex tokens where
  joined : (strip tokens).take (tied false (strip tokens)) <+: tokens

section

variable {hypercomplex : Bool} {t : Token} {tokens : List Token}

theorem Clear.tail (h : Clear hypercomplex tokens) : Clear hypercomplex tokens.tail := by
  cases tokens with
  | nil => exact h
  | cons t tokens => exact ⟨(List.forall_mem_cons.1 h.plain).2, h.undisturbed.2⟩

/-- A factor that joins no number asks for less. -/
theorem Joined.follows (h : Joined hypercomplex t tokens) (hclear : Clear hypercomplex tokens) :
    Follows hypercomplex tokens := by
  refine ⟨hclear, List.IsPrefix.trans ?_ h⟩
  apply List.take_prefix_take_left
  unfold tied
  split
  · simp only [Bool.false_eq_true, false_and, if_false]
    split <;> omega
  · exact Nat.le_refl _

/-- Behind a token that ends a factor. -/
theorem Clear.follows (h : Clear hypercomplex (t :: tokens)) (ht : t.endsFactor = true) :
    Follows hypercomplex tokens :=
  (h.undisturbed.1 ht).follows h.tail

/-- A symbol that is put back in front of such tokens is a factor. -/
theorem Follows.word_cons {w : Text} (hw : w.head?.any isNumeralStart = false)
    (h : Follows hypercomplex tokens) : Follows hypercomplex (.word w :: tokens) := by
  have hunit : Token.isUnitNumeral (.word w) = false := by simp [Token.isUnitNumeral, hw]
  refine ⟨⟨List.forall_mem_cons.2 ⟨trivial, h.plain⟩, fun _ => ?_, h.undisturbed⟩, ?_⟩
  · unfold Joined
    rw [hunit, Bool.and_false]
    exact h.joined
  · exact List.nil_prefix

/-- A sign is no stray operator. -/
theorem signAhead_strip_of_signAhead (h : signAhead tokens = true) :
    signAhead (strip tokens) = true := by
  cases tokens with
  | nil => exact h
  | cons t tokens =>
    have hstray : t.isStray = false := by
      rcases Bool.or_eq_true _ _ ▸ h with hminus | hplus
      · rw [show t = .op '-' from of_decide_eq_true hminus]
        rfl
      · rw [show t = .op '+' from of_decide_eq_true hplus]
        rfl
    rw [Token.strip_cons hstray]
    exact h

/-- A sign that follows without stray operators follows with them. -/
theorem Follows.signAhead_strip (h : Follows hypercomplex tokens) :
    signAhead (strip tokens) = signAhead tokens := by
  cases hsign : signAhead (strip tokens) with
  | true =>
    have hjoined := h.joined
    rw [tied, if_pos hsign, if_neg (by simp)] at hjoined
    cases hstrip : strip tokens with
    | nil =>
      rw [hstrip] at hsign
      contradiction
    | cons s rest =>
      rw [hstrip] at hjoined hsign
      obtain ⟨behind, rfl⟩ := hjoined
      exact hsign.symm
  | false =>
    refine (Bool.eq_false_iff.2 fun hsign' => ?_).symm
    rw [signAhead_strip_of_signAhead hsign'] at hsign
    contradiction

/-! ### Exponents -/

/-- How far a mark reaches depends on the tokens that it reaches alone. -/
theorem markSpan_eq_of_take {found : List Token} (hpos : markSpan found ≠ 0)
    (h : found.take (markSpan found) <+: tokens) : markSpan tokens = markSpan found := by
  match found with
  | [] => exact absurd rfl hpos
  | [s] => exact absurd (by simp [markSpan]) hpos
  | [s, u] => exact absurd (by simp [markSpan]) hpos
  | s :: u :: v :: rest =>
    by_cases hs : s = .op '*'
    · subst hs
      have hspan : ∀ behind, markSpan (.op '*' :: u :: v :: behind) =
          if u.lexeme.head? = some '*' then
            if v.lexeme.head?.any isNumeralStart then 3
            else if v.lexeme.head? = some '-' ∧ digitAhead behind then 4
            else 0
          else 0 := fun behind => rfl
      rw [hspan] at hpos h ⊢
      split at hpos
      · rename_i hu
        rw [if_pos hu] at h ⊢
        split at hpos
        · rename_i hv
          rw [if_pos hv] at h ⊢
          obtain ⟨behind, rfl⟩ := h
          exact (hspan behind).trans ((if_pos hu).trans (if_pos hv))
        · rename_i hv
          rw [if_neg hv] at h ⊢
          split at hpos
          · rename_i hminus
            rw [if_pos hminus] at h ⊢
            cases rest with
            | nil => exact absurd hminus.2 (by decide)
            | cons w rest =>
              obtain ⟨behind, rfl⟩ := h
              exact (hspan (w :: behind)).trans
                ((if_pos hu).trans ((if_neg hv).trans (if_pos hminus)))
          · exact absurd rfl hpos
      · exact absurd rfl hpos
    · exact absurd (by simp [markSpan, hs]) hpos

/-- A mark is no sign. -/
theorem signAhead_of_markSpan (hpos : markSpan tokens ≠ 0) : signAhead tokens = false := by
  unfold markSpan at hpos
  split at hpos
  · rfl
  · exact absurd rfl hpos

/-- Behind two stars the next character decides. -/
theorem exponent_stars {u : Token} (hu : u.lexeme.head? = some '*') (v : Token)
    (rest : List Token) :
    exponent (.op '*' :: u :: v :: rest) =
      match v.lexeme.head? with
      | none => .ok 1 (.op '*' :: u :: v :: rest)
      | some c =>
        if c.isDigit then exponentWord (v :: rest)
        else if c = '~' then .malformed .negativeExponent (u :: v :: rest)
        else if c = '-' then
          if digitAhead rest then .malformed .negativeExponent (u :: v :: rest)
          else .ok 1 (.op '*' :: u :: v :: rest)
        else if c = '.' ∨ c = '/' then .malformed .fractionalExponent (u :: v :: rest)
        else .ok 1 (.op '*' :: u :: v :: rest) := by
  have hmark : ahead (u :: v :: rest) = some '*' := hu
  rw [exponent, if_neg (by simp), List.tail_cons, if_pos ⟨rfl, hmark⟩]
  rfl

/-- What stands behind two stars makes them a mark with a number, or they are none. -/
theorem cases_exponent_stars {u : Token} (hu : u.lexeme.head? = some '*') (v : Token)
    (rest : List Token) :
    (markSpan (.op '*' :: u :: v :: rest) = 0 ∧
        exponent (.op '*' :: u :: v :: rest) = .ok 1 (.op '*' :: u :: v :: rest)) ∨
      markSpan (.op '*' :: u :: v :: rest) ≠ 0 ∧
        ((∃ c w, v = .word (c :: w) ∧ c.isDigit = true) ∨
          ∀ k behind, exponent (.op '*' :: u :: v :: rest) ≠ .ok k behind) := by
  have hfault : ∀ {cause : Malformation} {left : List Token} (k : UInt64) (behind : List Token),
      Outcome.malformed cause left ≠ .ok k behind :=
    fun _ _ => Outcome.error_ne_ok
  have hspan : markSpan (.op '*' :: u :: v :: rest) =
      if v.lexeme.head?.any isNumeralStart then 3
      else if v.lexeme.head? = some '-' ∧ digitAhead rest then 4 else 0 := if_pos hu
  rw [hspan, exponent_stars hu]
  cases hv : v.lexeme.head? with
  | none => exact .inl ⟨by simp, rfl⟩
  | some c =>
    simp only [Option.any_some, isNumeralStart, Bool.or_eq_true, decide_eq_true_eq,
      Option.some.injEq]
    by_cases hdigit : c.isDigit = true
    · refine .inr ⟨by simp [hdigit], ?_⟩
      rw [if_pos hdigit]
      cases v with
      | word w =>
        obtain ⟨w, rfl⟩ := List.head?_eq_some_iff.1 (show w.head? = some c from hv)
        exact .inl ⟨c, w, rfl, hdigit⟩
      | quoted q => exact .inr hfault
      | op d => exact .inr hfault
      | eof => exact .inr hfault
    · by_cases htilde : c = '~'
      · refine .inr ⟨by simp [htilde], .inr ?_⟩
        rw [if_neg hdigit, if_pos htilde]
        exact hfault
      · by_cases hminus : c = '-'
        · subst hminus
          cases hdigit' : digitAhead rest with
          | true => exact .inr ⟨by decide, .inr hfault⟩
          | false => exact .inl ⟨by decide, rfl⟩
        · by_cases hpoint : c = '.' ∨ c = '/'
          · refine .inr ⟨by rcases hpoint with rfl | rfl <;> simp, .inr ?_⟩
            rw [if_neg hdigit, if_neg htilde, if_neg hminus, if_pos hpoint]
            exact hfault
          · refine .inl ⟨?_, ?_⟩
            · have hnone := not_or.1 hpoint
              simp [hdigit, htilde, hminus, hnone]
            · rw [if_neg hdigit, if_neg htilde, if_neg hminus, if_neg hpoint]

/-- Without a mark that reaches a number the exponent is one; otherwise it stands in the word behind
two stars, or is refused. -/
theorem cases_exponent (hcaret : tokens.headD .eof ≠ .op '^') :
    (markSpan tokens = 0 ∧ exponent tokens = .ok 1 tokens) ∨
      markSpan tokens ≠ 0 ∧
        ((∃ u c w behind, tokens = .op '*' :: u :: .word (c :: w) :: behind ∧
          u.lexeme.head? = some '*' ∧ c.isDigit = true) ∨
          ∀ k rest, exponent tokens ≠ .ok k rest) := by
  by_cases hmark : tokens.headD .eof = .op '*' ∧ ahead tokens.tail = some '*'
  · match tokens, hmark with
    | [s, u], hmark =>
      refine .inl ⟨by simp [markSpan], ?_⟩
      rw [exponent, if_neg hcaret, if_pos hmark]
      rfl
    | s :: u :: v :: behind, hmark =>
      obtain ⟨hs, hu⟩ : s = .op '*' ∧ u.lexeme.head? = some '*' := hmark
      subst hs
      rcases cases_exponent_stars hu v behind with hnone | ⟨hspan, ⟨c, w, rfl, hdigit⟩ | hfault⟩
      · exact .inl hnone
      · exact .inr ⟨hspan, .inl ⟨u, c, w, behind, rfl, hu, hdigit⟩⟩
      · exact .inr ⟨hspan, .inr hfault⟩
  · refine .inl ⟨?_, by rw [exponent, if_neg hcaret, if_neg hmark]⟩
    unfold markSpan
    split
    · exact if_neg fun hu => hmark ⟨rfl, hu⟩
    · rfl

end

end Grammar

/-! ### Readers of tokens without stray operators -/

/-- A value that is read is also read without stray operators, and leaves what is left but for
them. -/
def Outcome.Stripped {α : Type} (Q : α → List Token → Prop) (o o' : Outcome α) : Prop :=
  ∀ a rest, o = .ok a rest → o' = .ok a (Token.strip rest) ∧ Q a rest

namespace Outcome

variable {α β : Type} {Q : α → List Token → Prop} {Q' : β → List Token → Prop}

theorem stripped_ok {a : α} {rest : List Token} (h : Q a rest) :
    (ok a rest).Stripped Q (ok a (Token.strip rest)) := by
  intro b rest' heq
  obtain ⟨rfl, rfl⟩ := ok_inj heq
  exact ⟨rfl, h⟩

theorem stripped_error {e : ParseError} {rest : List Token} {o' : Outcome α} :
    (Outcome.mk (.error e) rest).Stripped Q o' := by
  intro b rest' heq
  exact absurd heq error_ne_ok

/-- What follows a value. -/
theorem Stripped.bind {o o' : Outcome α} {f g : α → List Token → Outcome β} (h : o.Stripped Q o')
    (hfg : ∀ a rest, Q a rest → (f a rest).Stripped Q' (g a (Token.strip rest))) :
    (o.bind f).Stripped Q' (o'.bind g) := by
  obtain ⟨result, rest⟩ := o
  cases result with
  | ok a =>
    obtain ⟨rfl, hrest⟩ := h a rest rfl
    exact hfg a rest hrest
  | error e => exact stripped_error

end Outcome

namespace Grammar

open Token (strip)

section

variable {hypercomplex : Bool} {t : Token} {tokens : List Token}

theorem stripped_exponentWord {w : Text} (h : Follows hypercomplex tokens) :
    (exponentWord (.word w :: tokens)).Stripped (fun _ => Follows hypercomplex)
      (exponentWord (.word w :: strip tokens)) := by
  simp only [exponentWord, List.headD_cons, List.tail_cons]
  split
  · exact Outcome.stripped_error
  · split
    · exact Outcome.stripped_ok h
    · rename_i c rest hrest
      split
      · rename_i hc
        have hnumeral : (c :: rest).head?.any isNumeralStart = false := by
          refine Bool.eq_false_iff.2 fun hstart => ?_
          rw [isSymbolStart_of_isNumeralStart hstart] at hc
          contradiction
        exact Outcome.stripped_ok (h.word_cons hnumeral)
      · exact Outcome.stripped_error

/-- Behind a factor the same exponent is read. -/
theorem stripped_exponent (h : Follows hypercomplex tokens) :
    (exponent tokens).Stripped (fun _ => Follows hypercomplex) (exponent (strip tokens)) := by
  have hcaret : ∀ {found : List Token}, (∀ t ∈ found, t.Plain) → found.headD .eof ≠ .op '^' := by
    intro found hplain heq
    cases found with
    | nil => contradiction
    | cons t found =>
      obtain rfl : t = .op '^' := heq
      exact (hplain _ List.mem_cons_self).2.2.2 rfl
  have hstrip : ∀ t ∈ strip tokens, t.Plain := fun t ht => h.plain t (List.mem_filter.1 ht).1
  rcases cases_exponent (hcaret h.plain) with
    ⟨hspan, hexponent⟩ | ⟨-, ⟨u, c, w, behind, rfl, hu, hdigit⟩ | hfault⟩
  · -- No mark comes to reach a number without stray operators, since they may not keep them apart.
    rcases cases_exponent (hcaret hstrip) with ⟨-, hexponent'⟩ | ⟨hpos, -⟩
    · rw [hexponent, hexponent']
      exact Outcome.stripped_ok h
    · have hjoined := h.joined
      rw [tied, signAhead_of_markSpan hpos, if_neg (by decide)] at hjoined
      exact absurd ((markSpan_eq_of_take hpos hjoined).symm.trans hspan) hpos
  · have hstray : u.isStray = false := by
      cases u with
      | op c =>
        obtain rfl : c = '*' := by simpa [Token.lexeme] using hu
        rfl
      | word v => rfl
      | quoted q => rfl
      | eof => rfl
    have hstars : ∀ behind, exponent (.op '*' :: u :: .word (c :: w) :: behind) =
        exponentWord (.word (c :: w) :: behind) :=
      fun behind => (exponent_stars hu _ behind).trans (if_pos hdigit)
    rw [Token.strip_cons rfl, Token.strip_cons hstray, Token.strip_cons rfl, hstars, hstars]
    have hclear : Clear hypercomplex (.word (c :: w) :: behind) := h.toClear.tail.tail
    exact stripped_exponentWord (hclear.follows rfl)
  · intro k rest hok
    exact absurd hok (hfault k rest)

end

section

variable {α : Type} {R : PolyRing α} {limits : Limits} {depth : Nat} {tokens : List Token}
  {hypercomplex : Bool} (hR : R.coefficients.kind.isHypercomplex = hypercomplex)

/-- Completing a numeral keeps its last character. -/
theorem getLast?_completeNumeral {w : Text} (hw : w ≠ []) :
    (Reader.completeNumeral w).getLast? = w.getLast? := by
  unfold Reader.completeNumeral
  split
  · exact List.getLast?_cons_cons
  · exact List.getLast?_cons_cons
  · rfl

/-- A sign and a number behind it are no stray operators. -/
theorem Clear.exists_signed (h : Clear hypercomplex tokens) (hsign : signAhead tokens = true)
    (hdigit : digitAhead tokens.tail = true) :
    ∃ sign v rest, tokens = .op sign :: .word v :: rest ∧
      strip tokens = .op sign :: .word v :: strip rest := by
  obtain ⟨sign, u, rest, hcase, rfl, hu⟩ := exists_of_signAhead hsign hdigit
  have hstray : Token.isStray (.op sign) = false := by
    rcases hcase with rfl | rfl
    · rfl
    · rfl
  obtain ⟨v, rfl⟩ := (h.tail.plain u List.mem_cons_self).exists_word hu
  exact ⟨sign, v, rest, rfl, by rw [Token.strip_cons hstray, Token.strip_cons rfl]⟩

/-- Behind a numeral that may join them, a sign and a number come to follow each other without stray
operators only if they do with them. -/
theorem Clear.signed_strip {w : Text} (h : Clear hypercomplex (.word w :: tokens))
    (hunit : (hypercomplex && Token.isUnitNumeral (.word w)) = true) :
    (signAhead (strip tokens) = true ∧ digitAhead (strip tokens).tail = true) ↔
      (signAhead tokens = true ∧ digitAhead tokens.tail = true) := by
  constructor
  · intro hsigned
    have hjoined := h.undisturbed.1 rfl
    rw [Joined, hunit, tied, if_pos hsigned.1, if_pos ⟨rfl, hsigned.2⟩] at hjoined
    obtain ⟨sign, u, rest, -, hstrip, -⟩ := exists_of_signAhead hsigned.1 hsigned.2
    rw [hstrip] at hjoined hsigned
    obtain ⟨behind, rfl⟩ := hjoined
    exact hsigned
  · intro hsigned
    have hclear : Clear hypercomplex tokens := h.tail
    obtain ⟨sign, v, rest, rfl, hstrip⟩ := hclear.exists_signed hsigned.1 hsigned.2
    rw [hstrip]
    exact hsigned

include hR in
/-- A numeral takes the same text from the tokens behind it. -/
theorem joinImaginary_strip {w : Text} (hw : w.head?.any isNumeralStart = true)
    (h : Clear hypercomplex (.word w :: tokens)) :
    joinImaginary R (Reader.completeNumeral w) (strip tokens) =
      ((joinImaginary R (Reader.completeNumeral w) tokens).1,
        strip (joinImaginary R (Reader.completeNumeral w) tokens).2) ∧
    Follows hypercomplex (joinImaginary R (Reader.completeNumeral w) tokens).2 := by
  have hfollows : Follows hypercomplex tokens := h.follows rfl
  by_cases hunit : (Reader.completeNumeral w).getLast? = some 'i' ∧ hypercomplex = true
  · have hw' : w ≠ [] := by
      rintro rfl
      contradiction
    have hnumeral : (hypercomplex && Token.isUnitNumeral (.word w)) = true := by
      rw [getLast?_completeNumeral hw'] at hunit
      simp [Token.isUnitNumeral, hw, hunit]
    unfold joinImaginary
    simp only [h.signed_strip hnumeral]
    split
    · rename_i hjoin
      obtain ⟨sign, v, rest, rfl, hstrip⟩ :=
        hfollows.toClear.exists_signed hjoin.2.2.1 hjoin.2.2.2
      have hclear : Clear hypercomplex (.word v :: rest) := hfollows.toClear.tail
      rw [hstrip]
      exact ⟨rfl, hclear.follows rfl⟩
    · exact ⟨rfl, hfollows⟩
  · unfold joinImaginary
    rw [hR, if_neg fun hjoin => hunit ⟨hjoin.1, hjoin.2.1⟩,
      if_neg fun hjoin => hunit ⟨hjoin.1, hjoin.2.1⟩]
    exact ⟨rfl, hfollows⟩

theorem stripped_literal (t : Text) (h : Follows hypercomplex tokens) :
    (literal R limits depth t tokens).Stripped (fun _ => Follows hypercomplex)
      (literal R limits depth t (strip tokens)) := by
  unfold literal
  split
  · exact Outcome.stripped_ok h
  · exact Outcome.stripped_error

/-- A symbol that is run on to a numeral starts no numeral. -/
theorem head_of_splitJuxtaposed? {t number symbol : Text}
    (h : splitJuxtaposed? t = some (number, symbol)) : symbol.head?.any isNumeralStart = false := by
  obtain ⟨c, w, rfl, hsymbol⟩ := exists_cons_of_splitJuxtaposed? h
  refine Bool.eq_false_iff.2 fun hstart => ?_
  rw [isSymbolStart_of_isNumeralStart hstart] at hsymbol
  contradiction

include hR in
theorem stripped_numeral {w : Text} (hw : w.head?.any isNumeralStart = true)
    (h : Clear hypercomplex (.word w :: tokens)) :
    (numeral R limits depth w tokens).Stripped (fun _ => Follows hypercomplex)
      (numeral R limits depth w (strip tokens)) := by
  obtain ⟨hjoin, hrest⟩ := joinImaginary_strip hR hw h
  unfold numeral
  split
  · exact Outcome.stripped_error
  · rw [hjoin]
    dsimp only
    split
    · exact Outcome.stripped_ok hrest
    · split
      · exact Outcome.stripped_error
      · rename_i number symbol hsplit
        have hsymbol := head_of_splitJuxtaposed? hsplit
        exact (stripped_literal number hrest).bind fun c rest hrest =>
          Outcome.stripped_ok (hrest.word_cons hsymbol)

theorem stripped_symbol (w : Text) (h : Follows hypercomplex tokens) :
    (symbol R limits depth w tokens).Stripped (fun _ => Follows hypercomplex)
      (symbol R limits depth w (strip tokens)) := by
  unfold symbol
  split
  · exact Outcome.stripped_ok h
  · split
    · exact Outcome.stripped_ok h
    · exact Outcome.stripped_error

theorem stripped_multiplied (acc : Accumulator α) (factor : Factor α)
    (h : Follows hypercomplex tokens) :
    (multiplied R acc factor tokens).Stripped (fun _ => Clear hypercomplex)
      (multiplied R acc factor (strip tokens)) := by
  refine (stripped_exponent h).bind fun k rest hrest => ?_
  simp only [Accumulator.settle, hrest.signAhead_strip]
  exact Outcome.stripped_ok hrest.toClear

/-- An expression that is read, with what may follow its closing parenthesis. -/
def Follows.Behind (hypercomplex : Bool) (result : Poly α × Terminator) (rest : List Token) : Prop :=
  result.2 = .close → Follows hypercomplex rest

/-- Passes that do the same without stray operators, unless they fail. -/
def Pass.Stripped (hypercomplex : Bool) : Pass α → Pass α → Prop
  | .more acc rest, p => p = .more acc (strip rest) ∧ Clear hypercomplex rest
  | .opens rest, p => p = .opens (strip rest) ∧ Clear hypercomplex rest
  | .last outcome, p => ∀ result rest, outcome = .ok result rest →
      p = .last (.ok result (strip rest)) ∧ Follows.Behind hypercomplex result rest

theorem Pass.stripped_behind {o o' : Outcome (Accumulator α)}
    (h : o.Stripped (fun _ => Clear hypercomplex) o') :
    (Pass.behind o).Stripped hypercomplex (.behind o') := by
  obtain ⟨result, rest⟩ := o
  cases result with
  | ok acc =>
    obtain ⟨rfl, hrest⟩ := h acc rest rfl
    exact ⟨rfl, hrest⟩
  | error e =>
    intro result rest' heq
    exact absurd heq Outcome.error_ne_ok

include hR in
/-- A pass from a token other than a stray operator on does the same. -/
theorem stripped_pass (acc : Accumulator α) (hhead : (tokens.headD .eof).isStray = false)
    (h : Clear hypercomplex tokens) :
    (pass R limits depth none acc tokens).Stripped hypercomplex
      (pass R limits depth none acc (strip tokens)) := by
  have hlast : ∀ {outcome outcome' : Outcome (Poly α × Terminator)},
      outcome.Stripped (Follows.Behind hypercomplex) outcome' →
      Pass.Stripped hypercomplex (.last outcome) (.last outcome') := by
    intro outcome outcome' houtcome result rest heq
    exact ⟨congrArg Pass.last (houtcome result rest heq).1, (houtcome result rest heq).2⟩
  cases tokens with
  | nil => exact hlast (Outcome.stripped_ok (by simp [Follows.Behind]))
  | cons t tokens =>
    have hfactor : ∀ {o o' : Outcome (Factor α)}, o.Stripped (fun _ => Follows hypercomplex) o' →
        (Pass.behind (o.bind (multiplied R acc))).Stripped hypercomplex
          (.behind (o'.bind (multiplied R acc))) := fun ho =>
      Pass.stripped_behind (ho.bind fun factor rest hrest => stripped_multiplied acc factor hrest)
    have htail : Clear hypercomplex tokens := h.tail
    have hhead : t.isStray = false := hhead
    rw [Token.strip_cons hhead]
    unfold pass
    simp only [List.headD_cons, List.tail_cons]
    cases t with
    | word w =>
      have hfollows := h.follows rfl
      cases hstart : w.head?.any isNumeralStart with
      | true =>
        simp only [Role.ofToken, hstart, if_true]
        exact hfactor (stripped_numeral hR hstart h)
      | false =>
        simp only [Role.ofToken, hstart, Bool.false_eq_true, if_false]
        exact hfactor (stripped_symbol w hfollows)
    | quoted q =>
      have hfollows := h.follows rfl
      refine Pass.stripped_behind ((stripped_literal q hfollows).bind fun c rest hrest => ?_)
      exact stripped_multiplied acc (.coefficient c) hrest
    | op c =>
      have hc : c = '+' ∨ c = '-' ∨ c = '*' ∨ c = '(' ∨ c = ')' ∨ c = ',' := by
        by_contra hne
        simp only [not_or] at hne
        simp [Token.isStray, hne] at hhead
      rcases hc with rfl | rfl | rfl | rfl | rfl | rfl
      · exact ⟨rfl, htail⟩
      · exact ⟨rfl, htail⟩
      · exact ⟨rfl, htail⟩
      · change Pass.Stripped hypercomplex
          (if limits.maxDepth.toNat < depth + 1 then _ else Pass.opens tokens)
          (if limits.maxDepth.toNat < depth + 1 then _ else Pass.opens (strip tokens))
        split
        · exact hlast Outcome.stripped_error
        · exact ⟨rfl, htail⟩
      · exact hlast (Outcome.stripped_ok fun _ => h.follows rfl)
      · exact hlast (Outcome.stripped_ok (by simp [Follows.Behind]))
    | eof => exact hlast (Outcome.stripped_ok (by simp [Follows.Behind]))

/-- A stray operator is skipped. -/
theorem pass_of_isStray (acc : Accumulator α) {t : Token} (ht : t.Plain) (hstray : t.isStray = true) :
    pass R limits depth none acc (t :: tokens) = .more acc tokens := by
  cases t with
  | op c =>
    have hrole : Role.ofToken none (.op c) = .skip := by
      have hc : c ≠ '+' ∧ c ≠ '-' ∧ c ≠ '*' ∧ c ≠ '(' ∧ c ≠ ')' ∧ c ≠ ',' := by
        simpa [Token.isStray] using hstray
      obtain ⟨-, hopen, hclose, -⟩ := ht
      simp [Role.ofToken, hc, hopen, hclose]
    rw [pass, List.headD_cons, hrole]
    rfl
  | word w => contradiction
  | quoted q => contradiction
  | eof => contradiction

/-- A pass that does not just go on starts with no stray operator. -/
theorem isStray_of_pass {acc : Accumulator α} {p : Pass α} (h : Clear hypercomplex tokens)
    (hpass : pass R limits depth none acc tokens = p) (hp : ∀ acc' rest, p ≠ .more acc' rest) :
    (tokens.headD .eof).isStray = false := by
  cases tokens with
  | nil => rfl
  | cons t tokens =>
    refine Bool.eq_false_iff.2 fun hstray => hp acc tokens ?_
    rw [← hpass]
    exact pass_of_isStray acc (h.plain t List.mem_cons_self) hstray

include hR in
/-- An expression that is read is also read without stray operators. -/
theorem Reads.strip {closer : Option Char} {acc : Accumulator α}
    {outcome : Outcome (Poly α × Terminator)} (h : Reads R limits depth closer acc tokens outcome)
    (hcloser : closer = none) (hclear : Clear hypercomplex tokens) {result : Poly α × Terminator}
    {rest : List Token} (houtcome : outcome = .ok result rest) :
    Reads R limits depth none acc (Token.strip tokens) (.ok result (Token.strip rest)) ∧
      Follows.Behind hypercomplex result rest := by
  have hpasses : ∀ (depth : Nat) (acc : Accumulator α) {tokens : List Token},
      (tokens.headD .eof).isStray = false → Clear hypercomplex tokens →
      (pass R limits depth none acc tokens).Stripped hypercomplex
        (pass R limits depth none acc (Token.strip tokens)) :=
    fun _ acc _ hhead hclear => stripped_pass hR acc hhead hclear
  induction h generalizing result rest with
  | @last depth closer acc tokens outcome hpass =>
    subst hcloser
    have hstripped := hpasses depth acc (isStray_of_pass hclear hpass (by simp)) hclear
    rw [hpass] at hstripped
    obtain ⟨hlast, hrest⟩ := hstripped result rest houtcome
    exact ⟨.last hlast, hrest⟩
  | @more depth closer acc tokens acc' rest' outcome hpass hrest ih =>
    subst hcloser
    cases hstray : (tokens.headD .eof).isStray with
    | true =>
      cases tokens with
      | nil => contradiction
      | cons t tokens =>
        have hstray : t.isStray = true := hstray
        rw [pass_of_isStray acc (hclear.plain t List.mem_cons_self) hstray] at hpass
        obtain ⟨rfl, rfl⟩ := Pass.more.inj hpass
        rw [Token.strip_of_isStray hstray]
        exact ih rfl hclear.tail houtcome
    | false =>
      have hstripped := hpasses depth acc hstray hclear
      rw [hpass] at hstripped
      obtain ⟨hmore, hclear'⟩ := hstripped
      obtain ⟨hreads, hbehind⟩ := ih rfl hclear' houtcome
      exact ⟨.more hmore hreads, hbehind⟩
  | group hopens hinner hbehind ih =>
    -- Behind a parenthesis an expression only ends by failing.
    subst houtcome
    exact absurd hbehind Pass.behind_ne_last
  | @groupMore depth closer acc tokens opened inner acc' behind outcome hopens hinner hbehind hrest
      ih ihrest =>
    subst hcloser
    have hstripped := hpasses depth acc (isStray_of_pass hclear hopens (by simp)) hclear
    rw [hopens] at hstripped
    obtain ⟨hopens', hclear'⟩ := hstripped
    obtain ⟨p, middle, rfl⟩ := exists_of_behind_closed hbehind
    obtain ⟨hreads, hmiddle⟩ := ih rfl hclear' rfl
    have hmore : Pass.behind (multiplied R acc (.polynomial p) middle) = .more acc' behind := hbehind
    have hstripped := Pass.stripped_behind
      (stripped_multiplied (R := R) acc (.polynomial p) (hmiddle rfl))
    rw [hmore] at hstripped
    obtain ⟨hmore', hclear'⟩ := hstripped
    obtain ⟨hreads', hbehind'⟩ := ihrest rfl hclear' houtcome
    exact ⟨.groupMore hopens' hreads hmore' hreads', hbehind'⟩

end

end Grammar

/-- Over every ring of coefficients, tokens without braces and carets that are read as a polynomial
are read as the same one without their stray operators, if behind a factor these keep neither a sign
nor a mark with its number apart, nor, in numbers with an imaginary unit, a sign from its digit. -/
theorem stray_operators_have_no_effect {α : Type} (R : PolyRing α) {limits : Limits} {depth : Nat}
    {t : Text} {s s' : Session} {p : Poly α}
    (hplain : ∀ c ∈ "\x7b\x7d^".toList, Token.op c ∉ Token.ofText t)
    (hundisturbed : Grammar.Undisturbed R.coefficients.kind.isHypercomplex (Token.ofText t))
    (hs : s.At limits depth (Token.ofText t)) (hread : Reader.polynomial R s = .ok p s') :
    (∃ u, Token.ofText u = Token.strip (Token.ofText t)) ∧
      ∀ u : Session, u.At limits depth (Token.strip (Token.ofText t)) →
        ∃ u', Reader.polynomial R u = .ok p u' := by
  refine ⟨Token.exists_ofText_of_sublist List.filter_sublist, fun u hu => ?_⟩
  obtain ⟨terminator, rest, hreads, -⟩ := Reader.reads_of_polynomial hs hread
  obtain ⟨hstripped, -⟩ :=
    hreads.strip rfl rfl ⟨Token.plain_of_mem_ofText hplain, hundisturbed⟩ rfl
  obtain ⟨u', hrun, -⟩ := Reader.takes_expression_of_reads hstripped u hu
  refine ⟨u', ?_⟩
  simp only [Reader.polynomial, Bind.bind, EStateM.bind, hrun]
  rfl

/-- Over complex numbers: stray operators between factors, behind a star, behind signs and in
parentheses, around a literal with an imaginary part and a mark that they leave whole. -/
theorem stray_operators_between_factors :
    let R : PolyRing Gaussian := ⟨Gaussian.arithmetic, [['x'], ['y']], {}⟩
    let t : Text := "2i+3 ! x ; (+ ? x + ! y) ** 2 & * ; y".toList
    let u : Text := "2i+3 x (+ x + y) ** 2 * y".toList
    let p : Poly Gaussian := ⟨[([1, 3], ⟨2, 3⟩), ([2, 2], ⟨4, 6⟩), ([3, 1], ⟨2, 3⟩)]⟩
    Token.ofText u = Token.strip (Token.ofText t) ∧
      (∃ s, Reader.polynomial R (.ofText t) = .ok p s) ∧
      ∃ s, Reader.polynomial R (.ofText u) = .ok p s := by
  intro R t u p
  have htokens : Token.ofText u = Token.strip (Token.ofText t) := by decide +kernel
  have hread : ∃ s, Reader.polynomial R (.ofText t) = .ok p s :=
    Reader.exists_eq_ok (by decide +kernel)
  refine ⟨htokens, hread, ?_⟩
  obtain ⟨s, hread⟩ := hread
  have hboth := stray_operators_have_no_effect R (Text.forall_mem_of_all (by decide +kernel))
    (by decide +kernel) (Session.at_ofText t {} 0) hread
  exact hboth.2 _ (htokens ▸ Session.at_ofText u {} 0)

/-- In front of a sign, in a mark and behind a sign that a complex number would take, a stray operator
changes what is read. -/
theorem stray_operator_keeps_apart :
    let R : PolyRing Rat := ⟨Rational.arithmetic, [['x'], ['y']], {}⟩
    let G : PolyRing Gaussian := ⟨Gaussian.arithmetic, [['x'], ['y']], {}⟩
    (Token.ofText "x - y".toList = Token.strip (Token.ofText "x ! - y".toList) ∧
      (∃ s, Reader.polynomial R (.ofText "x ! - y".toList) = .ok ⟨[([1, 1], -1)]⟩ s) ∧
      ∃ s, Reader.polynomial R (.ofText "x - y".toList) =
        .ok ⟨[([0, 1], -1), ([1, 0], 1)]⟩ s) ∧
    (Token.ofText "x * * 2".toList = Token.strip (Token.ofText "x * ! * 2".toList) ∧
      (∃ s, Reader.polynomial R (.ofText "x * ! * 2".toList) = .ok ⟨[([1, 0], 2)]⟩ s) ∧
      ∃ s, Reader.polynomial R (.ofText "x * * 2".toList) = .ok ⟨[([2, 0], 1)]⟩ s) ∧
    Token.ofText "2i + 3".toList = Token.strip (Token.ofText "2i + ! 3".toList) ∧
      (∃ s, Reader.polynomial G (.ofText "2i + ! 3".toList) = .ok ⟨[([0, 0], ⟨5, 0⟩)]⟩ s) ∧
      ∃ s, Reader.polynomial G (.ofText "2i + 3".toList) = .ok ⟨[([0, 0], ⟨2, 3⟩)]⟩ s := by
  refine ⟨⟨by decide +kernel, ?_, ?_⟩, ⟨by decide +kernel, ?_, ?_⟩, by decide +kernel, ?_, ?_⟩
  all_goals exact Reader.exists_eq_ok (by decide +kernel)

end PolynomialText
