import PolynomialText.Expression
import PolynomialText.Proofs.ReaderSteps

/-!
# The passes of an expression

What each kind of factor, sign and delimiter does to the accumulator of an expression that is being
read. `Reader.Completes` says that from an accumulator on the tokens complete an expression; it
hides the bound on the number of passes, of which every token needs at most one. The lemmas lead
from the tokens behind a factor back to the tokens in front of it.
-/

namespace PolynomialText

/-- A sign follows, which finishes a term. -/
def signAhead (tokens : List Token) : Bool :=
  tokens.headD .eof = .op '-' || tokens.headD .eof = .op '+'

/-- The accumulator behind a factor: a term that a sign follows is finished. -/
def Accumulator.settle {α : Type} (R : PolyRing α) (acc : Accumulator α) (rest : List Token) :
    Accumulator α :=
  if signAhead rest then acc.flush R else acc

/-- A term that no sign follows goes on. -/
theorem Accumulator.settle_of_not_sign {α : Type} {R : PolyRing α} {acc : Accumulator α}
    {rest : List Token} (h : signAhead rest = false) : acc.settle R rest = acc := by
  simp [settle, h]

/-- A term that a sign follows is finished. -/
theorem Accumulator.settle_of_sign {α : Type} {R : PolyRing α} {acc : Accumulator α}
    {rest : List Token} (h : signAhead rest = true) : acc.settle R rest = acc.flush R := by
  simp [settle, h]

/-- No exponent starts with these tokens: no caret comes first, and a star is not doubled. -/
def Unraised (tokens : List Token) : Prop :=
  tokens.headD .eof ≠ .op '^' ∧ ∀ rest, tokens = .op '*' :: rest →
    ∃ u c w others, rest = u :: others ∧ ¬ u.IsQuoted ∧ u.lexeme = c :: w ∧ c ≠ '*'

/-- Tokens that start with neither a caret nor a star start no exponent. -/
theorem unraised_of_headD_ne {tokens : List Token} (hcaret : tokens.headD .eof ≠ .op '^')
    (hstar : tokens.headD .eof ≠ .op '*') : Unraised tokens := by
  refine ⟨hcaret, fun rest htokens => ?_⟩
  rw [htokens] at hstar
  exact absurd rfl hstar

namespace Reader

variable {limits : Limits} {depth : Nat} {rest : List Token}

/-! ### Exponents -/

/-- A 64-bit number is written with digits only. -/
theorem isDigit_of_word? {digits : Text} {k : UInt64} (hk : Text.word? digits = some k) :
    ∀ c ∈ digits, c.isDigit = true := by
  unfold Text.word? at hk
  split at hk
  · rename_i h
    exact List.all_eq_true.1 h.2.1
  · contradiction

/-- Digits that are a 64-bit number are read as an exponent. -/
theorem takes_exponentWord {digits : Text} {k : UInt64} (hk : Text.word? digits = some k) :
    Takes exponentWord (Session.At limits depth (.word digits :: rest)) k
      (Session.At limits depth rest) := by
  have hend : ∀ c ∈ ([] : Text).head?, c.isDigit = false := by simp
  obtain ⟨htake, hdrop⟩ := Token.span_run (isDigit_of_word? hk) hend
  rw [List.append_nil] at htake hdrop
  apply takes_advance.bind
  simp only [htake, hdrop, hk]
  exact (Takes.pure k _).of_imp fun s hs => hs.tail

/-- A number has a first digit. -/
theorem exists_digit_of_word? {digits : Text} {k : UInt64} (hk : Text.word? digits = some k) :
    ∃ c w, digits = c :: w ∧ c.isDigit = true := by
  unfold Text.word? at hk
  split at hk
  · rename_i h
    obtain ⟨c, w, rfl⟩ := List.exists_cons_of_ne_nil h.1
    exact ⟨c, w, rfl, List.all_eq_true.1 h.2.1 c List.mem_cons_self⟩
  · contradiction

/-- An exponent behind a caret. -/
theorem takes_exponent_caret {digits : Text} {k : UInt64} (hk : Text.word? digits = some k) :
    Takes exponent (Session.At limits depth (.op '^' :: .word digits :: rest)) k
      (Session.At limits depth rest) := by
  obtain ⟨c, w, hw, hc⟩ := exists_digit_of_word? hk
  apply takes_advance.bind
  rw [if_pos rfl]
  apply (takes_peek_zero (u := .word digits) hw id).bind
  simp only [hc, if_true, Nat.zero_ne_one, if_false]
  exact (takes_exponentWord hk).of_imp fun s hs => hs.tail

/-- An exponent behind two stars. -/
theorem takes_exponent_stars {digits : Text} {k : UInt64} (hk : Text.word? digits = some k) :
    Takes exponent (Session.At limits depth (.op '*' :: .op '*' :: .word digits :: rest)) k
      (Session.At limits depth rest) := by
  obtain ⟨c, w, hw, hc⟩ := exists_digit_of_word? hk
  have hpeek : Takes (peek 1)
      (Session.Past limits depth (.op '*' :: .op '*' :: .word digits :: rest)) (some c)
      (Session.Past limits depth (.op '*' :: .op '*' :: .word digits :: rest)) := by
    intro s hs
    have hn : 1 < (([.op '*', .word digits] : List Token).flatMap Token.lexeme).length := by
      simp [Token.lexeme, hw]
    obtain ⟨s', hpeek, hs'⟩ := takes_peek (by simp [Token.IsQuoted]) hn s hs
    exact ⟨s', by simpa [Token.lexeme, hw] using hpeek, hs'⟩
  apply takes_advance.bind
  rw [if_neg (by decide), if_pos rfl]
  apply (takes_peek_zero (u := .op '*') rfl id).bind
  rw [if_pos rfl]
  apply hpeek.bind
  simp only [hc, if_true]
  apply (takes_advance.of_imp fun s hs => hs.tail).bind
  exact (takes_exponentWord hk).of_imp fun s hs => hs.tail

/-- Without an exponent nothing is read. -/
theorem takes_exponent_none (h : Unraised rest) :
    Takes exponent (Session.At limits depth rest) 1 (Session.At limits depth rest) := by
  have hput : Takes (noExponent (rest.headD .eof)) (Session.Past limits depth rest) 1
      (Session.At limits depth rest) := takes_pushBack_headD.bind (Takes.pure 1 _)
  apply takes_advance_headD.bind
  rw [if_neg h.1]
  split
  · rename_i hstar
    cases rest with
    | nil => exact absurd hstar (by decide)
    | cons t others =>
      obtain rfl : t = .op '*' := hstar
      obtain ⟨u, c, w, behind, rfl, hquoted, hu, hc⟩ := h.2 others rfl
      apply (takes_peek_zero hu hquoted).bind
      rw [if_neg fun heq => hc (Option.some.inj heq)]
      exact hput
  · exact hput

/-! ### Factors -/

section

variable {α : Type} {R : PolyRing α}

/-- A literal is read within the limits and at the depth of the session. -/
theorem takes_literal {t : Text} {extra : Nat} {c : α}
    (h : R.coefficients.readWithin limits (depth + extra) t = .ok c) :
    Takes (literal R t extra) (Session.At limits depth rest) c (Session.At limits depth rest) := by
  intro s hs
  refine ⟨s, ?_, hs⟩
  simp only [literal, literal?, bind, EStateM.bind, hs.limits_eq, hs.depth_eq, h]
  rfl

/-- The last character of a plain numeral is no imaginary unit. -/
theorem getLast?_ne_of_isPlainNumeral {w : Text} (hw : PolyRing.isPlainNumeral w = true) :
    w.getLast? ≠ some 'i' := by
  intro hlast
  have hall := (Bool.and_eq_true _ _ ▸ hw).2
  exact absurd (List.all_eq_true.1 hall 'i' (List.mem_of_getLast? hlast)) (by decide)

/-- A plain numeral starts with a digit. -/
theorem exists_digit_of_isPlainNumeral {w : Text} (hw : PolyRing.isPlainNumeral w = true) :
    ∃ c rest, w = c :: rest ∧ c.isDigit = true := by
  cases w with
  | nil => exact absurd hw (by decide)
  | cons c rest => exact ⟨c, rest, rfl, by simpa using (Bool.and_eq_true _ _ ▸ hw).1⟩

/-- A numeral that starts with a digit is complete. -/
theorem completeNumeral_of_isDigit {d : Char} (hd : d.isDigit = true) (w : Text) :
    completeNumeral (d :: w) = d :: w := by
  unfold completeNumeral
  split
  · rename_i heq
    rw [(List.cons.inj heq).1] at hd
    exact absurd hd (by decide)
  · rename_i heq
    rw [(List.cons.inj heq).1] at hd
    exact absurd hd (by decide)
  · rfl

/-- A plain numeral that the coefficient ring reads is a coefficient. -/
theorem takes_numeral {w : Text} {c : α} (hw : PolyRing.isPlainNumeral w = true)
    (h : R.coefficients.readWithin limits depth w = .ok c) :
    Takes (numeral R w) (Session.At limits depth rest) (.coefficient c)
      (Session.At limits depth rest) := by
  obtain ⟨d, tail, rfl, hd⟩ := exists_digit_of_isPlainNumeral hw
  intro s hs
  refine ⟨s, ?_, hs⟩
  have hlast := getLast?_ne_of_isPlainNumeral hw
  simp only [numeral, List.any_cons, hd, Bool.true_or, Bool.not_true, Bool.false_eq_true, if_false,
    completeNumeral_of_isDigit hd, joinImaginary, hlast, false_and, bind, EStateM.bind, pure, EStateM.pure, literal?,
    hs.limits_eq, hs.depth_eq, Nat.add_zero, h]

/-- A declared variable is a factor. -/
theorem takes_symbol {w : Text} {index : Nat} (h : R.varIndex? w = some index) :
    Takes (symbol R w) (Session.At limits depth rest) (.variable index)
      (Session.At limits depth rest) := by
  unfold symbol
  rw [h]
  exact Takes.pure _ _

/-- A factor with its exponent multiplies the term, which a sign behind it finishes. -/
theorem takes_multiplied {acc : Accumulator α} {f : Factor α} {k : UInt64} {tokens : List Token}
    (hk : Takes exponent (Session.At limits depth tokens) k (Session.At limits depth rest)) :
    Takes (multiplied R acc f) (Session.At limits depth tokens) ((acc.multiply R f k).settle R rest)
      (Session.At limits depth rest) := by
  refine hk.bind (takes_look ?_)
  have hsettle : (if rest.headD .eof = .op '-' ∨ rest.headD .eof = .op '+'
      then (acc.multiply R f k).flush R else acc.multiply R f k) =
      (acc.multiply R f k).settle R rest := by
    simp only [Accumulator.settle, signAhead, Bool.or_eq_true, decide_eq_true_eq]
  rw [hsettle]
  exact Takes.pure _ _

end

/-! ### Literals in braces -/

/-- A token of a literal without inner braces or quotes. -/
def InLiteral : Token → Prop
  | .word _ => True
  | .op c => c ≠ '\x7b' ∧ c ≠ '\x7d'
  | _ => False

/-- What an operator or a word adds to the text of a literal. -/
def Braces.take (b : Braces) : Token → Braces
  | .op c => ⟨b.text ++ [c], b.level, false⟩
  | .word w =>
    ⟨b.text ++ (if b.afterWord ∧ b.text.getLast? ≠ some '.' then [' '] else []) ++ w, b.level, true⟩
  | _ => b

/-- The text that is put together from the tokens of a literal. -/
def rebuilt (tokens : List Token) : Text := (tokens.foldl Braces.take ⟨[], 0, false⟩).text

/-- A token of a literal is taken to its text. -/
theorem takes_bracesStep {b : Braces} {t : Token} (ht : InLiteral t) :
    Takes (bracesStep b) (Session.At limits depth (t :: rest)) (.inl (b.take t))
      (Session.At limits depth rest) := by
  apply takes_advance.bind
  refine Takes.of_imp (P := Session.At limits depth rest) ?_ fun s hs => hs.tail
  cases t with
  | word w => exact Takes.pure _ _
  | op c =>
    simp only [if_neg ht.1, if_neg ht.2]
    exact Takes.pure _ _
  | quoted t => exact ht.elim
  | eof => exact ht.elim

/-- The literal ends with the closing brace. -/
theorem takes_bracesStep_close {b : Braces} (hlevel : b.level = 0) :
    Takes (bracesStep b) (Session.At limits depth (.op '\x7d' :: rest)) (.inr b.text)
      (Session.At limits depth rest) := by
  apply takes_advance.bind
  refine Takes.of_imp (P := Session.At limits depth rest) ?_ fun s hs => hs.tail
  simp only [if_true, hlevel]
  exact Takes.pure _ _

/-- The tokens of a literal are put together one after the other. -/
theorem takes_iterate_bracesStep {tokens : List Token} (htokens : ∀ t ∈ tokens, InLiteral t)
    {b : Braces} (hlevel : b.level = 0) {fuel : Nat} (hfuel : tokens.length < fuel) :
    Takes (iterate bracesStep fuel b) (Session.At limits depth (tokens ++ .op '\x7d' :: rest))
      (tokens.foldl Braces.take b).text (Session.At limits depth rest) := by
  induction tokens generalizing b fuel with
  | nil =>
    obtain ⟨fuel, rfl⟩ := Nat.exists_eq_add_of_lt hfuel
    exact takes_iterate_inr (takes_bracesStep_close hlevel)
  | cons t tokens ih =>
    obtain ⟨fuel, rfl⟩ := Nat.exists_eq_add_of_lt hfuel
    have ht := htokens t List.mem_cons_self
    have htake : (b.take t).level = 0 := by
      cases t <;> exact hlevel
    apply takes_iterate_inl (takes_bracesStep ht)
    apply ih (fun u hu => htokens u (List.mem_cons_of_mem _ hu)) htake
    rw [List.length_cons]
    omega

/-- A literal in braces is put together from its tokens. -/
theorem takes_bracesText {tokens : List Token} (htokens : ∀ t ∈ tokens, InLiteral t) :
    Takes bracesText (Session.At limits depth (tokens ++ .op '\x7d' :: rest)) (rebuilt tokens)
      (Session.At limits depth rest) := by
  apply takes_passes
  intro fuel hfuel
  apply takes_iterate_bracesStep htokens rfl
  rw [List.length_append] at hfuel
  omega

/-! ### Passes -/

section

variable {α : Type} (R : PolyRing α)

/-- From an accumulator on, the tokens complete an expression, with any sufficient number of
passes. -/
def Completes (limits : Limits) (depth : Nat) (acc : Accumulator α) (tokens : List Token)
    (out : Poly α × Terminator) (Q : Session → Prop) : Prop :=
  ∀ fuel, tokens.length < fuel →
    Takes (expressionFrom R fuel none acc) (Session.At limits depth tokens) out Q

variable {R} {acc : Accumulator α} {tokens : List Token} {out : Poly α × Terminator}
  {Q : Session → Prop}

/-- An expression that the tokens complete is read. -/
theorem Completes.takes_expression (h : Completes R limits depth (.start R) tokens out Q) :
    Takes (expression R none) (Session.At limits depth tokens) out Q :=
  takes_passes h

/-- A pass is left for every token behind the first. -/
theorem completes_cons {t : Token}
    (h : ∀ fuel, rest.length < fuel →
      Takes (expressionFrom R (fuel + 1) none acc) (Session.At limits depth (t :: rest)) out Q) :
    Completes R limits depth acc (t :: rest) out Q := by
  intro fuel hfuel
  obtain ⟨spare, rfl⟩ := Nat.exists_eq_add_of_lt hfuel
  exact h _ (by rw [List.length_cons]; omega)

/-- A minus sign negates the term. -/
theorem Completes.minus (h : Completes R limits depth (acc.negate R) rest out Q) :
    Completes R limits depth acc (.op '-' :: rest) out Q := by
  apply completes_cons
  intro fuel hfuel
  apply takes_advance.bind
  exact (h fuel hfuel).of_imp fun s hs => hs.tail

/-- A plus sign is skipped. -/
theorem Completes.plus (h : Completes R limits depth acc rest out Q) :
    Completes R limits depth acc (.op '+' :: rest) out Q := by
  apply completes_cons
  intro fuel hfuel
  apply takes_advance.bind
  exact (h fuel hfuel).of_imp fun s hs => hs.tail

/-- A star is skipped. -/
theorem Completes.star (h : Completes R limits depth acc rest out Q) :
    Completes R limits depth acc (.op '*' :: rest) out Q := by
  apply completes_cons
  intro fuel hfuel
  apply takes_advance.bind
  exact (h fuel hfuel).of_imp fun s hs => hs.tail

/-- A closing parenthesis ends the expression. -/
theorem completes_close : Completes R limits depth acc (.op ')' :: rest) (acc.total R, .close)
    (Session.At limits depth rest) := by
  apply completes_cons
  intro fuel _
  apply takes_advance.bind
  exact (Takes.pure _ _).of_imp fun s hs => hs.tail

/-- A comma ends the expression. -/
theorem completes_comma : Completes R limits depth acc (.op ',' :: rest) (acc.total R, .comma)
    (Session.At limits depth rest) := by
  apply completes_cons
  intro fuel _
  apply takes_advance.bind
  exact (Takes.pure _ _).of_imp fun s hs => hs.tail

/-- The end of the source ends the expression. -/
theorem completes_eof : Completes R limits depth acc [] (acc.total R, .finish)
    (Session.At limits depth []) := by
  intro fuel hfuel
  obtain ⟨fuel, rfl⟩ := Nat.exists_eq_add_of_lt hfuel
  apply takes_advance_eof.bind
  exact (Takes.pure _ _).of_imp fun s hs => hs.tail

section

variable {k : UInt64} {raised : List Token}
  (hk : Takes exponent (Session.At limits depth (raised ++ rest)) k (Session.At limits depth rest))
include hk

/-- Behind a factor and its exponent the expression goes on with the settled accumulator. -/
theorem Completes.takes_multiplied {f : Factor α} {fuel : Nat} (hfuel : (raised ++ rest).length < fuel)
    (h : Completes R limits depth ((acc.multiply R f k).settle R rest) rest out Q) :
    Takes (multiplied R acc f >>= expressionFrom R fuel none)
      (Session.At limits depth (raised ++ rest)) out Q := by
  refine (Reader.takes_multiplied hk).bind (h fuel ?_)
  rw [List.length_append] at hfuel
  omega

/-- A plain numeral that the coefficient ring reads multiplies the term. -/
theorem Completes.numeral {w : Text} {c : α} (hw : PolyRing.isPlainNumeral w = true)
    (hc : R.coefficients.readWithin limits depth w = .ok c)
    (h : Completes R limits depth ((acc.multiply R (.coefficient c) k).settle R rest) rest out Q) :
    Completes R limits depth acc (.word w :: (raised ++ rest)) out Q := by
  obtain ⟨d, tail, rfl, hd⟩ := exists_digit_of_isPlainNumeral hw
  have hrole : Role.ofToken none (.word (d :: tail)) = .numeral (d :: tail) := by
    simp [Role.ofToken, isNumeralStart, hd]
  apply completes_cons
  intro fuel hfuel
  apply takes_advance.bind
  simp only [hrole]
  apply ((takes_numeral hw hc).of_imp fun s hs => hs.tail).bind
  exact h.takes_multiplied hk hfuel

/-- A declared variable multiplies the term. -/
theorem Completes.variable {w : Text} {index : Nat} (hw : w.head?.any isNumeralStart = false)
    (hindex : R.varIndex? w = some index)
    (h : Completes R limits depth ((acc.multiply R (.variable index) k).settle R rest) rest out Q) :
    Completes R limits depth acc (.word w :: (raised ++ rest)) out Q := by
  have hrole : Role.ofToken none (.word w) = .symbol w := by
    simp [Role.ofToken, hw]
  apply completes_cons
  intro fuel hfuel
  apply takes_advance.bind
  simp only [hrole]
  apply ((takes_symbol hindex).of_imp fun s hs => hs.tail).bind
  exact h.takes_multiplied hk hfuel

/-- A literal in braces multiplies the term. -/
theorem Completes.braces {literal : List Token} {c : α} (hliteral : ∀ t ∈ literal, InLiteral t)
    (hdepth : depth + 1 ≤ limits.maxDepth.toNat)
    (hc : R.coefficients.readWithin limits (depth + 1) (rebuilt literal) = .ok c)
    (h : Completes R limits depth ((acc.multiply R (.coefficient c) k).settle R rest) rest out Q) :
    Completes R limits depth acc
      (.op '\x7b' :: (literal ++ .op '\x7d' :: (raised ++ rest))) out Q := by
  apply completes_cons
  intro fuel hfuel
  apply takes_advance.bind
  have htext : Takes (nested bracesText)
      (Session.At limits depth (literal ++ .op '\x7d' :: (raised ++ rest))) (rebuilt literal)
      (Session.At limits depth (raised ++ rest)) :=
    takes_nested hdepth (takes_bracesText hliteral)
  refine (htext.of_imp fun s hs => hs.tail).bind ((takes_literal hc).bind ?_)
  apply h.takes_multiplied hk
  simp only [List.length_append, List.length_cons] at hfuel ⊢
  omega

/-- An expression in parentheses multiplies the term. -/
theorem Completes.parentheses {inner : List Token} {p : Poly α}
    (hdepth : depth + 1 ≤ limits.maxDepth.toNat)
    (hinner : Completes R limits (depth + 1) (.start R) (inner ++ .op ')' :: (raised ++ rest))
      (p, .close) (Session.At limits (depth + 1) (raised ++ rest)))
    (h : Completes R limits depth ((acc.multiply R (.polynomial p) k).settle R rest) rest out Q) :
    Completes R limits depth acc
      (.op '(' :: (inner ++ .op ')' :: (raised ++ rest))) out Q := by
  apply completes_cons
  intro fuel hfuel
  apply takes_advance.bind
  have hnested := takes_nested hdepth (hinner fuel hfuel)
  apply (hnested.of_imp fun s hs => hs.tail).bind
  apply h.takes_multiplied hk
  simp only [List.length_append, List.length_cons] at hfuel ⊢
  omega

end

end

/-- A text whose tokens complete an expression is read as its polynomial. -/
theorem polynomialOf_of_completes {α : Type} {R : PolyRing α} {t : Text} {p : Poly α}
    {terminator : Terminator} {Q : Session → Prop}
    (h : Completes R limits depth (.start R) (Token.ofText t) (p, terminator) Q) :
    polynomialOf R limits depth t = .ok p := by
  have htakes : Takes (polynomial R) (Session.At limits depth (Token.ofText t)) p Q :=
    h.takes_expression.bind (Takes.pure _ _)
  obtain ⟨s, hs, _⟩ := htakes _ (Session.at_ofText t limits depth)
  simp only [polynomialOf, hs]

end Reader

end PolynomialText
