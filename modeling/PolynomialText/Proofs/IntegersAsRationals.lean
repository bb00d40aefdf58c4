import PolynomialText.Proofs.LiteralCharacters
import PolynomialText.Proofs.ParallelExpressions
import PolynomialText.Proofs.ReaderResults
import PolynomialText.Proofs.TokenReaders

/-!
# Integers as rational numbers

A text is read over the integers and over the rational numbers. A literal that both rings take has
the same value in both. The rational numbers refuse the underscores that an integer may have, and cut
a numeral in front of the first one. What they cut off is no literal of theirs, so that they fail
behind it, unless it is a declared variable. In a text without such numerals, the two readers stay at
the same tokens as long as neither of them fails.
-/

namespace PolynomialText

/-! ### Literals -/

namespace Rational

/-- A decimal numeral without a point is a run of digits behind an optional sign. -/
theorem readDecimal_without_point {t : Text} {r : Rat} (h : readDecimal t = .ok r) (hpoint : '.' ∉ t) :
    ∃ digits : Text, digits ≠ [] ∧ (∀ c ∈ digits, c.isDigit = true) ∧
      ((t = digits ∨ t = '+' :: digits) ∧ r = digits.value ∨ t = '-' :: digits ∧ r = -digits.value) := by
  have hcut : Text.splitOnce? '.' (Literal.signed t).2 = none := by
    apply Text.splitOnce?_eq_none_iff.2
    intro hmem
    apply hpoint
    unfold Literal.signed at hmem
    split at hmem
    · exact List.mem_cons_of_mem _ hmem
    · exact List.mem_cons_of_mem _ hmem
    · exact hmem
  unfold readDecimal at h
  simp only [hcut, Option.getD_none, and_true, List.append_nil] at h
  split at h
  · contradiction
  · rename_i hne
    split at h
    · contradiction
    · rename_i hdigits
      simp only [Bool.not_eq_true', Bool.not_eq_false] at hdigits
      have hvalue := Except.ok.inj h
      refine ⟨(Literal.signed t).2, hne, List.all_eq_true.1 hdigits, ?_⟩
      unfold Literal.signed at hvalue ⊢
      split at hvalue
      · exact .inr ⟨rfl, by simpa [Rat.mkRat_one] using hvalue.symm⟩
      · exact .inl ⟨.inr rfl, by simpa [Rat.mkRat_one] using hvalue.symm⟩
      · exact .inl ⟨.inl rfl, by simpa [Rat.mkRat_one] using hvalue.symm⟩

end Rational

namespace Integer

/-- The characters of an integer literal without white space. -/
theorem mem_of_read {t : Text} {z : Int} (h : read t = .ok z) {c : Char}
    (hc : c ∈ Literal.normalise t) : c.isDigit = true ∨ c = '_' ∨ c = '+' ∨ c = '-' := by
  have hinteger : readInteger (Text.dropOne '+' (Literal.normalise t)) = .ok z := eq_ok_of_mapError h
  by_cases hplus : c = '+'
  · exact .inr (.inr (.inl hplus))
  · apply mem_of_readInteger hinteger
    unfold Text.dropOne Text.strip?
    split
    · exact hc
    · rename_i d rest hnormal
      rw [hnormal] at hc ⊢
      split
      · rename_i hd
        exact (List.mem_cons.1 hc).resolve_left (hd ▸ hplus)
      · exact hc

/-- A text that is a literal of both rings has the same value in both. -/
theorem value_eq_of_readRational {t : Text} {z : Int} {r : Rat} (hz : read t = .ok z)
    (hr : Rational.readRational t = .ok r) : r = z := by
  have hinteger : readInteger (Text.dropOne '+' (Literal.normalise t)) = .ok z := eq_ok_of_mapError hz
  have hslash : '/' ∉ Literal.normalise t := fun hmem => absurd (mem_of_read hz hmem) (by decide)
  have hpoint : '.' ∉ Literal.normalise t := fun hmem => absurd (mem_of_read hz hmem) (by decide)
  unfold Rational.readRational at hr
  simp only [Text.splitOnce?_eq_none_iff.2 hslash] at hr
  split at hr
  · contradiction
  · obtain ⟨digits, hne, hdigits, hcases⟩ := Rational.readDecimal_without_point hr hpoint
    rcases hcases with ⟨hnormal | hnormal, rfl⟩ | ⟨hnormal, rfl⟩
    · have hdrop : Text.dropOne '+' digits = digits := by
        cases digits with
        | nil => rfl
        | cons d rest =>
          have hd : d ≠ '+' := ne_of_isDigit (hdigits d List.mem_cons_self) (by decide)
          simp [Text.dropOne, Text.strip?, hd]
      rw [hnormal, hdrop, readInteger_digits hne hdigits] at hinteger
      obtain rfl := Except.ok.inj hinteger
      simp
    · have hdrop : Text.dropOne '+' ('+' :: digits) = digits := rfl
      rw [hnormal, hdrop, readInteger_digits hne hdigits] at hinteger
      obtain rfl := Except.ok.inj hinteger
      simp
    · have hdrop : Text.dropOne '+' ('-' :: digits) = '-' :: digits := rfl
      rw [hnormal, hdrop, readInteger_minus hne hdigits] at hinteger
      obtain rfl := Except.ok.inj hinteger
      simp

/-- So has a text in an expression. -/
theorem value_eq_of_readWithin {limits : Limits} {depth : Nat} {t : Text} {z : Int} {r : Rat}
    (hz : arithmetic.readWithin limits depth t = .ok z)
    (hr : Rational.arithmetic.readWithin limits depth t = .ok r) : r = z := by
  rw [Rational.readWithin_eq] at hr
  exact value_eq_of_readRational (eq_ok_of_mapError hz) hr

/-- A numeral that has to be completed is no integer. -/
theorem completeNumeral_eq_of_read {w : Text} {z : Int}
    (h : read (Reader.completeNumeral w) = .ok z) : Reader.completeNumeral w = w := by
  unfold Reader.completeNumeral at h ⊢
  split at h
  · have hslash := mem_of_read h (Literal.mem_normalise (c := '/') (by simp) (by decide) (by decide))
    exact absurd hslash (by decide)
  · have hpoint := mem_of_read h (Literal.mem_normalise (c := '.') (by simp) (by decide) (by decide))
    exact absurd hpoint (by decide)
  · rfl

/-- Integers are rational numbers, with the same operations and literals. -/
theorem embeds_rational :
    arithmetic.Embeds AnyElement Rational.arithmetic AnyElement fun z => (z : Rat) where
  mem _ := trivial
  map_zero := Int.cast_zero
  map_one := Int.cast_one
  map_add _ _ := Int.cast_add _ _
  map_mul _ _ := Int.cast_mul _ _
  map_neg _ := Int.cast_neg _
  injective _ _ h := Int.cast_injective h
  format_eq _ := by simp [arithmetic, Rational.arithmetic, Rational.format]

end Integer

/-- Polynomials over the integers. -/
abbrev PolyRing.integral (vars : List Text) (order : TermOrder) : PolyRing Int :=
  ⟨Integer.arithmetic, vars, order⟩

/-- Polynomials over the rational numbers. -/
abbrev PolyRing.rational (vars : List Text) (order : TermOrder) : PolyRing Rat :=
  ⟨Rational.arithmetic, vars, order⟩

/-! ### Numerals that hide a variable -/

/-- An integer literal that is a numeral with a declared variable run on to it as well, as `1_0` is
with a variable `_0`. -/
def HidesVariable (vars : List Text) (w : Text) : Prop :=
  (Integer.read w).isOk = true ∧ ∃ v ∈ vars, (splitJuxtaposed? w).map Prod.snd = some v

instance (vars : List Text) (w : Text) : Decidable (HidesVariable vars w) :=
  inferInstanceAs (Decidable (_ ∧ _))

namespace Token

/-- The token is no numeral that hides a variable. -/
def Clear (vars : List Text) : Token → Prop
  | word w => ¬ HidesVariable vars w
  | _ => True

instance (vars : List Text) (t : Token) : Decidable (t.Clear vars) :=
  match t with
  | word w => inferInstanceAs (Decidable (¬ HidesVariable vars w))
  | quoted _ => .isTrue trivial
  | op _ => .isTrue trivial
  | eof => .isTrue trivial

/-- A word that starts with a symbol. -/
def IsSymbol (t : Token) : Prop := ∃ c w, t = .word (c :: w) ∧ isSymbolStart c = true

theorem IsSymbol.clear {vars : List Text} {t : Token} (h : t.IsSymbol) : t.Clear vars := by
  obtain ⟨c, w, rfl, hc⟩ := h
  rintro ⟨-, v, -, hsplit⟩
  simp [splitJuxtaposed?, hc] at hsplit

end Token

/-- What is run on to a numeral starts with a symbol. -/
theorem isSymbol_of_splitJuxtaposed? {t number symbol : Text}
    (h : splitJuxtaposed? t = some (number, symbol)) : (Token.word symbol).IsSymbol := by
  obtain ⟨c, w, rfl, hc⟩ := exists_cons_of_splitJuxtaposed? h
  exact ⟨c, w, rfl, hc⟩

namespace Grammar

/-! ### Tokens behind exponents and literals in braces -/

theorem mem_rest_exponentWord {t : Token} {tokens : List Token} (h : t ∈ (exponentWord tokens).rest) :
    t ∈ tokens ∨ t.IsSymbol := by
  unfold exponentWord at h
  split at h
  · dsimp only at h
    split at h
    · exact .inl (List.mem_of_mem_tail h)
    · split at h
      · exact .inl (List.mem_of_mem_tail h)
      · rename_i c rest _
        split at h
        · rename_i hc
          rcases List.mem_cons.1 h with rfl | htail
          · exact .inr ⟨c, rest, rfl, hc⟩
          · exact .inl (List.mem_of_mem_tail htail)
        · exact .inl (List.mem_of_mem_tail h)
  · exact .inl (List.mem_of_mem_tail h)

theorem mem_rest_exponentAfter {t : Token} {tokens left behind : List Token}
    (h : t ∈ (exponentAfter tokens left behind).rest) :
    t ∈ tokens ∨ t ∈ left ∨ t ∈ behind ∨ t.IsSymbol := by
  unfold exponentAfter at h
  split at h
  · exact .inl h
  · split at h
    · exact .inr (.inr (mem_rest_exponentWord h))
    · split at h
      · exact .inr (.inl h)
      · split at h
        · split at h
          · exact .inr (.inl h)
          · exact .inl h
        · split at h
          · exact .inr (.inl h)
          · exact .inl h

/-- Behind an exponent there are tokens that were ahead, and a symbol that was run on to it. -/
theorem mem_rest_exponent {t : Token} {tokens : List Token} (h : t ∈ (exponent tokens).rest) :
    t ∈ tokens ∨ t.IsSymbol := by
  unfold exponent at h
  split at h
  · rcases mem_rest_exponentAfter h with h | h | h | h
    · exact .inl h
    · exact .inl (List.mem_of_mem_tail h)
    · exact .inl (List.mem_of_mem_tail h)
    · exact .inr h
  · split at h
    · rcases mem_rest_exponentAfter h with h | h | h | h
      · exact .inl h
      · exact .inl (List.mem_of_mem_tail h)
      · exact .inl (List.mem_of_mem_tail (List.mem_of_mem_tail h))
      · exact .inr h
    · exact .inl h

/-- Behind a literal in braces there are tokens that were ahead. -/
theorem mem_rest_braces {limits : Limits} {depth : Nat} {b : Reader.Braces} {t : Token}
    {tokens : List Token} (h : t ∈ (braces limits depth b tokens).rest) : t ∈ tokens := by
  induction tokens generalizing b with
  | nil => exact h
  | cons u tokens ih =>
    rw [braces] at h
    apply List.mem_cons_of_mem
    split at h
    · exact ih h
    · exact h
    · exact h

end Grammar

/-! ### Outcomes over both rings -/

/-- The outcomes over two rings: values that go together in front of the same clear tokens, if
neither reader fails. -/
inductive Outcome.Agrees (vars : List Text) {α β : Type} (Rel : α → β → Prop) :
    Outcome α → Outcome β → Prop
  | both {a : α} {b : β} {rest : List Token} (h : Rel a b) (hrest : ∀ t ∈ rest, t.Clear vars) :
    Agrees vars Rel (.ok a rest) (.ok b rest)
  | first (e : ParseError) (rest : List Token) (o' : Outcome β) : Agrees vars Rel ⟨.error e, rest⟩ o'
  | second (o : Outcome α) (e : ParseError) (rest : List Token) : Agrees vars Rel o ⟨.error e, rest⟩

namespace Outcome.Agrees

variable {vars : List Text} {α β α' β' : Type} {Rel : α → β → Prop} {Rel' : α' → β' → Prop}

/-- What follows values that go together goes together. -/
theorem bind {o : Outcome α} {o' : Outcome β} {f : α → List Token → Outcome α'}
    {g : β → List Token → Outcome β'} (h : o.Agrees vars Rel o')
    (hf : ∀ a b rest, Rel a b → (∀ t ∈ rest, t.Clear vars) → (f a rest).Agrees vars Rel' (g b rest)) :
    (o.bind f).Agrees vars Rel' (o'.bind g) := by
  cases h with
  | both h hrest => exact hf _ _ _ h hrest
  | first e rest o' => exact .first e rest _
  | second o e rest => exact .second _ e rest

/-- What does not depend on the ring. -/
theorem refl {o : Outcome α} (h : ∀ t ∈ o.rest, t.Clear vars) : o.Agrees vars Eq o := by
  obtain ⟨result, rest⟩ := o
  cases result with
  | ok a => exact .both rfl h
  | error e => exact .first e rest _

end Outcome.Agrees

namespace Grammar

/-- The tokens start with a symbol that is not declared. -/
def Stuck (vars : List Text) (tokens : List Token) : Prop :=
  ∃ c w rest, tokens = .word (c :: w) :: rest ∧ isSymbolStart c = true ∧ c :: w ∉ vars

section

variable {vars : List Text} {order order' : TermOrder} {Rel : Int → Rat → Prop}
  {PolyRel : Poly Int → Poly Rat → Prop} {limits : Limits} {depth : Nat} {tokens : List Token}

/-- Over the rational numbers, a symbol that is not declared ends the reading. -/
theorem pass_of_stuck (h : Stuck vars tokens) (order : TermOrder) (limits : Limits) (depth : Nat)
    (closer : Option Char) (acc : Accumulator Rat) :
    ∃ e rest, pass (.rational vars order) limits depth closer acc tokens =
      .last ⟨.error e, rest⟩ := by
  obtain ⟨c, w, rest, rfl, hc, hw⟩ := h
  have hrole : Role.ofToken closer (.word (c :: w)) = .symbol (c :: w) := by
    have hnumeral : isNumeralStart c = false := by
      rw [Bool.eq_false_iff]
      intro hnumeral
      simp [isSymbolStart_of_isNumeralStart hnumeral] at hc
    simp [Role.ofToken, hnumeral]
  have hindex : PolyRing.varIndex? (.rational vars order) (c :: w) = none :=
    PolyRing.varIndex?_eq_none hw
  obtain ⟨fault, hfault⟩ : ∃ fault, Rational.readRational (c :: w) = .error fault := by
    cases hread : Rational.readRational (c :: w) with
    | error fault => exact ⟨fault, rfl⟩
    | ok r => simp [isSymbolStart_of_readRational hread List.mem_cons_self] at hc
  refine ⟨.unknownLiteral 0 (c :: w) fault, rest, ?_⟩
  simp only [pass, List.headD_cons, List.tail_cons, hrole, symbol, hindex, Rational.readWithin_eq, hfault]
  rfl

/-- What the rational numbers read from there on is a failure. -/
theorem Reads.eq_error_of_stuck {closer : Option Char} {acc : Accumulator Rat}
    {outcome : Outcome (Poly Rat × Terminator)}
    (h : Reads (.rational vars order) limits depth closer acc tokens outcome)
    (hstuck : Stuck vars tokens) : ∃ e rest, outcome = ⟨.error e, rest⟩ := by
  obtain ⟨e, rest, hpass⟩ := pass_of_stuck hstuck order limits depth closer acc
  cases h with
  | last h =>
    rw [hpass] at h
    exact ⟨e, rest, (Pass.last.inj h).symm⟩
  | more h =>
    rw [hpass] at h
    contradiction
  | group h =>
    rw [hpass] at h
    contradiction
  | groupMore h =>
    rw [hpass] at h
    contradiction

/-- An exponent does not change that. -/
theorem multiplied_of_stuck (h : Stuck vars tokens) (order : TermOrder) (acc : Accumulator Rat)
    (factor : Factor Rat) :
    ∃ acc', multiplied (.rational vars order) acc factor tokens = .ok acc' tokens := by
  obtain ⟨c, w, rest, rfl, -, -⟩ := h
  exact ⟨_, rfl⟩

variable (hcast : ∀ z : Int, Rel z z)
include hcast

theorem agrees_literal (t : Text) (h : ∀ u ∈ tokens, u.Clear vars) :
    (literal (.integral vars order) limits depth t tokens).Agrees vars Rel
      (literal (.rational vars order') limits depth t tokens) := by
  unfold literal
  cases hz : Integer.arithmetic.readWithin limits depth t with
  | error fault => exact .first _ _ _
  | ok z =>
    cases hr : Rational.arithmetic.readWithin limits depth t with
    | error fault => exact .second _ _ _
    | ok r =>
      obtain rfl := Integer.value_eq_of_readWithin hz hr
      exact .both (hcast z) h

theorem agrees_enclosed (h : ∀ t ∈ tokens, t.Clear vars) :
    (enclosed (.integral vars order) limits depth tokens).Agrees vars Rel
      (enclosed (.rational vars order') limits depth tokens) := by
  have htext : ∀ t ∈ (nested limits depth tokens
      (braces limits (depth + 1) ⟨[], 0, false⟩ tokens)).rest, t.Clear vars := by
    unfold nested
    split
    · exact h
    · exact fun t ht => h t (mem_rest_braces ht)
  refine (Outcome.Agrees.refl htext).bind ?_
  rintro text _ rest rfl hrest
  exact agrees_literal hcast text hrest

omit hcast in
/-- What the rational numbers cut off an integer literal that they refuse is not declared. -/
theorem stuck_of_splitJuxtaposed? {w number symbol : Text} {z : Int} (hw : ¬ HidesVariable vars w)
    (hz : Integer.read (Reader.completeNumeral w) = .ok z)
    (hsplit : splitJuxtaposed? (Reader.completeNumeral w) = some (number, symbol)) :
    Stuck vars (.word symbol :: tokens) := by
  obtain ⟨c, v, rfl, hc⟩ := exists_cons_of_splitJuxtaposed? hsplit
  have hsame : Reader.completeNumeral w = w := Integer.completeNumeral_eq_of_read hz
  rw [hsame] at hz hsplit
  refine ⟨c, v, tokens, rfl, hc, fun hdeclared => hw ⟨?_, c :: v, hdeclared, ?_⟩⟩
  · rw [hz]
    rfl
  · rw [hsplit]
    rfl

/-- A numeral is the same over both rings, or leaves the rational numbers in front of a symbol that is
not declared. -/
theorem agrees_numeral {w : Text} (hw : ¬ HidesVariable vars w) (h : ∀ t ∈ tokens, t.Clear vars) :
    (numeral (.integral vars order) limits depth w tokens).Agrees vars
      (Reader.FactorRel (.integral vars order) (.rational vars order') Rel PolyRel)
      (numeral (.rational vars order') limits depth w tokens) ∨
    ∃ factor rest, numeral (.rational vars order') limits depth w tokens = .ok factor rest ∧
      Stuck vars rest := by
  have hjoin : ∀ {α : Type} (R : PolyRing α), R.coefficients.kind.isHypercomplex = false →
      ∀ t, joinImaginary R t tokens = (t, tokens) := by
    intro α R hkind t
    simp [joinImaginary, hkind]
  unfold numeral
  split
  · exact .inl (.first _ _ _)
  rw [hjoin (.integral vars order) rfl, hjoin (.rational vars order') rfl]
  dsimp only
  rw [Rational.readWithin_eq]
  cases hz : Integer.arithmetic.readWithin limits depth (Reader.completeNumeral w) with
  | ok z =>
    have hinteger : Integer.read (Reader.completeNumeral w) = .ok z := eq_ok_of_mapError hz
    cases hr : Rational.readRational (Reader.completeNumeral w) with
    | ok r =>
      obtain rfl := Integer.value_eq_of_readRational hinteger hr
      exact .inl (.both (.coefficient (hcast z)) h)
    | error fault =>
      -- The rational numbers have to cut the numeral, and cannot go on with what they cut off.
      cases hsplit : splitJuxtaposed? (Reader.completeNumeral w) with
      | none => exact .inl (.second _ _ _)
      | some parts =>
        obtain ⟨number, symbol⟩ := parts
        unfold literal
        dsimp only
        cases Rational.arithmetic.readWithin limits depth number with
        | error fault => exact .inl (.second _ _ _)
        | ok r =>
          exact .inr ⟨.coefficient r, _, rfl, stuck_of_splitJuxtaposed? hw hinteger hsplit⟩
  | error fault =>
    cases hr : Rational.readRational (Reader.completeNumeral w) with
    | ok r =>
      rw [splitJuxtaposed?_of_readRational hr]
      exact .inl (.first _ _ _)
    | error fault' =>
      cases hsplit : splitJuxtaposed? (Reader.completeNumeral w) with
      | none => exact .inl (.first _ _ _)
      | some parts =>
        obtain ⟨number, symbol⟩ := parts
        refine .inl ((agrees_literal hcast number h).bind ?_)
        intro z r rest hzr hrest
        refine .both (.coefficient hzr) (List.forall_mem_cons.2 ⟨?_, hrest⟩)
        exact (isSymbol_of_splitJuxtaposed? hsplit).clear

theorem agrees_symbol (w : Text) (h : ∀ t ∈ tokens, t.Clear vars) :
    (symbol (.integral vars order) limits depth w tokens).Agrees vars
      (Reader.FactorRel (.integral vars order) (.rational vars order') Rel PolyRel)
      (symbol (.rational vars order') limits depth w tokens) := by
  have hindex' : PolyRing.varIndex? (.rational vars order') w =
      PolyRing.varIndex? (.integral vars order) w := rfl
  unfold symbol
  rw [hindex']
  cases hindex : PolyRing.varIndex? (.integral vars order) w with
  | some index => exact .both (.variable hindex hindex) h
  | none =>
    dsimp only
    cases hz : Integer.arithmetic.readWithin limits depth w with
    | error fault => exact .first _ _ _
    | ok z =>
      cases hr : Rational.arithmetic.readWithin limits depth w with
      | error fault => exact .second _ _ _
      | ok r =>
        obtain rfl := Integer.value_eq_of_readWithin hz hr
        exact .both (.coefficient (hcast z)) h

variable (hrings : Reader.Compatible (.integral vars order)
  (.rational vars order') Rel PolyRel)
include hrings

omit hcast in
theorem agrees_multiplied {acc : Accumulator Int} {acc' : Accumulator Rat}
    (hacc : Reader.AccumulatorRel PolyRel acc acc') {f : Factor Int} {g : Factor Rat}
    (hfactor : Reader.FactorRel (.integral vars order) (.rational vars order')
      Rel PolyRel f g) (h : ∀ t ∈ tokens, t.Clear vars) :
    (multiplied (.integral vars order) acc f tokens).Agrees vars
      (Reader.AccumulatorRel PolyRel) (multiplied (.rational vars order') acc' g tokens) := by
  have hexponent : ∀ t ∈ (exponent tokens).rest, t.Clear vars := fun t ht =>
    (mem_rest_exponent ht).elim (h t) Token.IsSymbol.clear
  refine (Outcome.Agrees.refl hexponent).bind ?_
  rintro k _ rest rfl hrest
  refine .both ?_ hrest
  unfold Accumulator.settle
  split
  · exact hrings.flush (hrings.multiply hacc hfactor k)
  · exact hrings.multiply hacc hfactor k

/-- The results of two expressions go together. -/
def ResultRel (PolyRel : Poly Int → Poly Rat → Prop) (result : Poly Int × Terminator)
    (result' : Poly Rat × Terminator) : Prop := PolyRel result.1 result'.1 ∧ result.2 = result'.2

omit hcast hrings in
theorem agrees_closed {inner : Outcome (Poly Int × Terminator)} {inner' : Outcome (Poly Rat × Terminator)}
    (h : inner.Agrees vars (ResultRel PolyRel) inner') :
    (closed inner).Agrees vars (Reader.FactorRel (.integral vars order)
      (.rational vars order') Rel PolyRel) (closed inner') := by
  refine h.bind ?_
  rintro ⟨p, terminator⟩ ⟨q, _⟩ rest ⟨hp, rfl⟩ hrest
  dsimp only
  split
  · exact .first _ _ _
  · exact .both (.polynomial hp) hrest

/-- The pass over the rational numbers fails, or the next one does. -/
inductive Pass.Lost (vars : List Text) : Pass Rat → Prop
  | failed (e : ParseError) (rest : List Token) : Lost vars (.last ⟨.error e, rest⟩)
  | stuck (acc : Accumulator Rat) {rest : List Token} (h : Stuck vars rest) : Lost vars (.more acc rest)

/-- Passes over two rings that do the same, if neither reader fails now or with the next token. -/
inductive Pass.Agrees (vars : List Text) (PolyRel : Poly Int → Poly Rat → Prop) :
    Pass Int → Pass Rat → Prop
  | more {acc : Accumulator Int} {acc' : Accumulator Rat} {rest : List Token}
    (hacc : Reader.AccumulatorRel PolyRel acc acc') (hrest : ∀ t ∈ rest, t.Clear vars) :
    Agrees vars PolyRel (.more acc rest) (.more acc' rest)
  | opens {rest : List Token} (hrest : ∀ t ∈ rest, t.Clear vars) :
    Agrees vars PolyRel (.opens rest) (.opens rest)
  | last {outcome : Outcome (Poly Int × Terminator)} {outcome' : Outcome (Poly Rat × Terminator)}
    (h : outcome.Agrees vars (ResultRel PolyRel) outcome') :
    Agrees vars PolyRel (.last outcome) (.last outcome')
  | first (e : ParseError) (rest : List Token) (p : Pass Rat) :
    Agrees vars PolyRel (.last ⟨.error e, rest⟩) p
  | second (p : Pass Int) {p' : Pass Rat} (h : p'.Lost vars) : Agrees vars PolyRel p p'

omit hcast hrings in
theorem Pass.agrees_behind {o : Outcome (Accumulator Int)} {o' : Outcome (Accumulator Rat)}
    (h : o.Agrees vars (Reader.AccumulatorRel PolyRel) o') :
    (Pass.behind o).Agrees vars PolyRel (.behind o') := by
  cases h with
  | both hacc hrest => exact .more hacc hrest
  | first e rest o' => exact .first e rest _
  | second o e rest => exact .second _ (.failed e rest)

/-- A pass from the same clear tokens on. -/
theorem agrees_pass (closer : Option Char) {acc : Accumulator Int} {acc' : Accumulator Rat}
    (hacc : Reader.AccumulatorRel PolyRel acc acc') (h : ∀ t ∈ tokens, t.Clear vars) :
    (pass (.integral vars order) limits depth closer acc tokens).Agrees vars PolyRel
      (pass (.rational vars order') limits depth closer acc' tokens) := by
  have htail : ∀ t ∈ tokens.tail, t.Clear vars := fun t ht => h t (List.mem_of_mem_tail ht)
  have hfactor : ∀ {o : Outcome (Factor Int)} {o' : Outcome (Factor Rat)},
      o.Agrees vars (Reader.FactorRel (.integral vars order)
        (.rational vars order') Rel PolyRel) o' →
      (Pass.behind (o.bind (multiplied (.integral vars order) acc))).Agrees vars PolyRel
        (.behind (o'.bind (multiplied (.rational vars order') acc'))) := fun ho =>
    Pass.agrees_behind (ho.bind fun _ _ _ hfg hrest => agrees_multiplied hrings hacc hfg hrest)
  have hcoefficient : ∀ {o : Outcome Int} {o' : Outcome Rat}, o.Agrees vars Rel o' →
      (Pass.behind (o.bind fun c => multiplied (.integral vars order) acc
        (.coefficient c))).Agrees vars PolyRel (.behind (o'.bind fun c =>
          multiplied (.rational vars order') acc' (.coefficient c))) := fun ho =>
    Pass.agrees_behind (ho.bind fun _ _ _ hc hrest =>
      agrees_multiplied hrings hacc (.coefficient hc) hrest)
  unfold pass
  cases hrole : Role.ofToken closer (tokens.headD .eof) with
  | negate => exact .more (hrings.negate hacc) htail
  | skip => exact .more hacc htail
  | stop terminator => exact .last (.both ⟨hrings.total hacc, rfl⟩ htail)
  | leave => exact .last (.both ⟨hrings.total hacc, rfl⟩ h)
  | strayBrace => exact .first _ _ _
  | openBrace => exact hcoefficient (agrees_enclosed hcast htail)
  | openParen =>
    dsimp only
    split
    · exact .first _ _ _
    · exact .opens htail
  | quoted text => exact hcoefficient (agrees_literal hcast text htail)
  | numeral w =>
    have hw : ¬ HidesVariable vars w := by
      obtain ⟨hword, -⟩ := Reader.of_ofToken_eq_numeral hrole
      cases tokens with
      | nil => contradiction
      | cons t tokens =>
        obtain rfl : t = .word w := hword
        exact h _ List.mem_cons_self
    refine Or.elim (agrees_numeral hcast hw htail) hfactor ?_
    rintro ⟨factor, rest, hnumeral, hstuck⟩
    obtain ⟨acc'', hmultiplied⟩ := multiplied_of_stuck hstuck order' acc' factor
    have hbehind : Pass.behind ((Outcome.ok factor rest).bind
        (multiplied (.rational vars order') acc')) = .more acc'' rest := by
      change Pass.behind (multiplied _ acc' factor rest) = _
      rw [hmultiplied]
      rfl
    dsimp only
    rw [hnumeral, hbehind]
    exact .second _ (.stuck acc'' hstuck)
  | symbol w => exact hfactor (agrees_symbol hcast w htail)

theorem agrees_of_pass_eq {closer : Option Char} {acc : Accumulator Int} {p : Pass Int}
    (hpass : pass (.integral vars order) limits depth closer acc tokens = p) {acc' : Accumulator Rat}
    (hacc : Reader.AccumulatorRel PolyRel acc acc') (h : ∀ t ∈ tokens, t.Clear vars) :
    p.Agrees vars PolyRel (pass (.rational vars order') limits depth closer acc' tokens) :=
  hpass ▸ agrees_pass hcast hrings closer hacc h

end

/-! ### Expressions over both rings -/

/-- A pass from an accumulator on gives the outcome, with what follows it. -/
inductive Pass.Gives {α : Type} (R : PolyRing α) (limits : Limits) (depth : Nat) (closer : Option Char)
    (acc : Accumulator α) : Pass α → Outcome (Poly α × Terminator) → Prop
  | last (outcome : Outcome (Poly α × Terminator)) :
    Gives R limits depth closer acc (.last outcome) outcome
  | more {acc' rest outcome} (h : Reads R limits depth closer acc' rest outcome) :
    Gives R limits depth closer acc (.more acc' rest) outcome
  | opens {rest inner outcome} (hinner : Reads R limits (depth + 1) none (.start R) rest inner)
    (hbehind : Gives R limits depth closer acc (.behind ((closed inner).bind (multiplied R acc)))
      outcome) :
    Gives R limits depth closer acc (.opens rest) outcome

/-- A derivation starts with a pass. -/
theorem Reads.gives {α : Type} {R : PolyRing α} {limits : Limits} {depth : Nat} {closer : Option Char}
    {acc : Accumulator α} {tokens : List Token} {outcome : Outcome (Poly α × Terminator)}
    (h : Reads R limits depth closer acc tokens outcome) :
    (pass R limits depth closer acc tokens).Gives R limits depth closer acc outcome := by
  cases h with
  | last h => exact h ▸ .last outcome
  | more h hrest => exact h ▸ .more hrest
  | group h hinner hbehind => exact h ▸ .opens hinner (hbehind ▸ .last outcome)
  | groupMore h hinner hbehind hrest => exact h ▸ .opens hinner (hbehind ▸ .more hrest)

section

variable {vars : List Text} {order order' : TermOrder} {Rel : Int → Rat → Prop}
  {PolyRel : Poly Int → Poly Rat → Prop} {limits : Limits} {depth : Nat} {closer : Option Char}
  {acc' : Accumulator Rat} {outcome : Outcome (Poly Int × Terminator)}
  {outcome' : Outcome (Poly Rat × Terminator)} {p' : Pass Rat}
  (hgives : p'.Gives (.rational vars order') limits depth closer acc' outcome')
include hgives

/-- Behind a pass that is lost, the rational numbers have a failure. -/
theorem Pass.Lost.agrees (h : p'.Lost vars) : outcome.Agrees vars (ResultRel PolyRel) outcome' := by
  cases h with
  | failed e rest =>
    cases hgives with
    | last outcome' => exact .second _ e rest
  | stuck acc hstuck =>
    cases hgives with
    | more hreads =>
      obtain ⟨e, rest, rfl⟩ := hreads.eq_error_of_stuck hstuck
      exact .second _ e rest

theorem Pass.Agrees.of_last (h : (Pass.last outcome).Agrees vars PolyRel p') :
    outcome.Agrees vars (ResultRel PolyRel) outcome' := by
  cases h with
  | last h =>
    cases hgives with
    | last outcome' => exact h
  | first e rest p => exact .first e rest _
  | second p h => exact h.agrees hgives

theorem Pass.Agrees.of_more {acc : Accumulator Int} {rest : List Token}
    (h : (Pass.more acc rest).Agrees vars PolyRel p')
    (hrest : ∀ {acc' : Accumulator Rat}, Reader.AccumulatorRel PolyRel acc acc' →
      (∀ t ∈ rest, t.Clear vars) →
      Reads (.rational vars order') limits depth closer acc' rest outcome' →
      outcome.Agrees vars (ResultRel PolyRel) outcome') :
    outcome.Agrees vars (ResultRel PolyRel) outcome' := by
  cases h with
  | more hacc hclear =>
    cases hgives with
    | more hreads => exact hrest hacc hclear hreads
  | second p h => exact h.agrees hgives

theorem Pass.Agrees.of_opens {rest : List Token} (h : (Pass.opens rest).Agrees vars PolyRel p')
    (hrest : ∀ {inner' : Outcome (Poly Rat × Terminator)}, (∀ t ∈ rest, t.Clear vars) →
      Reads (.rational vars order') limits (depth + 1) none (.start (.rational vars order')) rest inner' →
      (Pass.behind ((closed inner').bind (multiplied (.rational vars order') acc'))).Gives
        (.rational vars order') limits depth closer acc' outcome' →
      outcome.Agrees vars (ResultRel PolyRel) outcome') :
    outcome.Agrees vars (ResultRel PolyRel) outcome' := by
  cases h with
  | opens hclear =>
    cases hgives with
    | opens hinner hbehind => exact hrest hclear hinner hbehind
  | second p h => exact h.agrees hgives

end

/-- Expressions over both rings go together, if both are accepted. -/
theorem Reads.agrees {vars : List Text} {order order' : TermOrder} {Rel : Int → Rat → Prop}
    {PolyRel : Poly Int → Poly Rat → Prop} {limits : Limits} {depth : Nat} {closer : Option Char}
    {outcome : Outcome (Poly Int × Terminator)} {outcome' : Outcome (Poly Rat × Terminator)}
    {acc : Accumulator Int} {acc' : Accumulator Rat} {tokens : List Token} (hcast : ∀ z : Int, Rel z z)
    (hrings : Reader.Compatible (.integral vars order) (.rational vars order') Rel PolyRel)
    (h : Reads (.integral vars order) limits depth closer acc tokens outcome)
    (h' : Reads (.rational vars order') limits depth closer acc' tokens outcome')
    (hacc : Reader.AccumulatorRel PolyRel acc acc') (hclear : ∀ t ∈ tokens, t.Clear vars) :
    outcome.Agrees vars (ResultRel PolyRel) outcome' := by
  have hbehind : ∀ {acc : Accumulator Int} {acc' : Accumulator Rat}
      {inner : Outcome (Poly Int × Terminator)} {inner' : Outcome (Poly Rat × Terminator)},
      Reader.AccumulatorRel PolyRel acc acc' → inner.Agrees vars (ResultRel PolyRel) inner' →
      (Pass.behind ((closed inner).bind (multiplied (.integral vars order) acc))).Agrees vars
        PolyRel (.behind ((closed inner').bind (multiplied (.rational vars order') acc'))) :=
    fun hacc hinner => Pass.agrees_behind ((agrees_closed hinner).bind
      fun _ _ _ hfactor hrest => agrees_multiplied hrings hacc hfactor hrest)
  induction h generalizing acc' outcome' with
  | last hpass => exact (agrees_of_pass_eq hcast hrings hpass hacc hclear).of_last h'.gives
  | more hpass hrest ih =>
    have hagrees := agrees_of_pass_eq hcast hrings hpass hacc hclear
    exact hagrees.of_more h'.gives fun hacc hclear hreads => ih hreads hacc hclear
  | group hpass hinner hlast ih =>
    have hagrees := agrees_of_pass_eq hcast hrings hpass hacc hclear
    refine hagrees.of_opens h'.gives fun hclear hinner' hgives => ?_
    have hfollows := hbehind hacc (ih hinner' hrings.start hclear)
    rw [hlast] at hfollows
    exact hfollows.of_last hgives
  | groupMore hpass hinner hmore hrest ih ihrest =>
    have hagrees := agrees_of_pass_eq hcast hrings hpass hacc hclear
    refine hagrees.of_opens h'.gives fun hclear hinner' hgives => ?_
    have hfollows := hbehind hacc (ih hinner' hrings.start hclear)
    rw [hmore] at hfollows
    exact hfollows.of_more hgives fun hacc hclear hreads => ihrest hreads hacc hclear

end Grammar

/-- Over the integers and over the rational numbers, a text is the same polynomial and ends at the same
place, if both rings accept it and no numeral in it hides a variable. -/
theorem rationals_extend_integers (vars : List Text) (order order' : TermOrder) (limits : Limits)
    (depth : Nat) {t : Text} (hclear : ∀ token ∈ Token.ofText t, token.Clear vars) {p : Poly Int}
    {q : Poly Rat} {s s' : Session}
    (hp : Reader.polynomial ⟨Integer.arithmetic, vars, order⟩ (.ofText t limits depth) = .ok p s)
    (hq : Reader.polynomial ⟨Rational.arithmetic, vars, order'⟩ (.ofText t limits depth) = .ok q s') :
    q.terms = p.terms.map (fun term => (term.1, (term.2 : Rat))) ∧
      ∃ rest, s.At limits depth rest ∧ s'.At limits depth rest := by
  obtain ⟨terminator, rest, hreads, hs⟩ :=
    Reader.reads_of_polynomial (Session.at_ofText t limits depth) hp
  obtain ⟨terminator', rest', hreads', hs'⟩ :=
    Reader.reads_of_polynomial (Session.at_ofText t limits depth) hq
  have hrings := Reader.compatible_of_maps (R := .integral vars order) (S := .rational vars order')
    Integer.embeds_rational.toMaps Integer.ringLaws Rational.ringLaws rfl rfl
  have hagrees := hreads.agrees (fun z => ⟨trivial, rfl⟩) hrings hreads' hrings.start hclear
  generalize ho : Outcome.ok (p, terminator) rest = o at hagrees
  generalize ho' : Outcome.ok (q, terminator') rest' = o' at hagrees
  cases hagrees with
  | both h hrest =>
    obtain ⟨hresult, rfl⟩ := Outcome.mk.inj ho
    obtain ⟨hresult', rfl⟩ := Outcome.mk.inj ho'
    obtain rfl := Except.ok.inj hresult
    obtain rfl := Except.ok.inj hresult'
    obtain ⟨⟨hcanonical, rfl⟩, -⟩ := h
    exact ⟨Poly.terms_change Integer.embeds_rational Integer.ringLaws hcanonical, _, hs, hs'⟩
  | first e rest o' => exact absurd (Outcome.mk.inj ho).1 (by simp)
  | second o e rest => exact absurd (Outcome.mk.inj ho').1 (by simp)

/-- Variables with underscores behind a numeral and alone, and literals in quotes and braces. -/
theorem read_beside_underscores :
    let Z : PolyRing Int := ⟨Integer.arithmetic, ["x_1".toList, "_0".toList], {}⟩
    let Q : PolyRing Rat := ⟨Rational.arithmetic, ["x_1".toList, "_0".toList], {}⟩
    let t : Text := "3x_1 _0^2 - '~4' (x_1 - 1)^2 + \x7b+ 5\x7d".toList
    let p : Poly Int := ⟨[([0, 0], 9), ([1, 0], -8), ([1, 2], 3), ([2, 0], 4)]⟩
    (∀ token ∈ Token.ofText t, token.Clear Q.vars) ∧ (∃ s, Reader.polynomial Z (.ofText t) = .ok p s) ∧
      ∃ q s, Reader.polynomial Q (.ofText t) = .ok q s ∧
        q.terms = p.terms.map fun term => (term.1, (term.2 : Rat)) := by
  intro Z Q t p
  have hclear : ∀ token ∈ Token.ofText t, token.Clear Q.vars := by decide +kernel
  obtain ⟨s, hp⟩ : ∃ s, Reader.polynomial Z (.ofText t) = .ok p s :=
    Reader.exists_eq_ok (by decide +kernel)
  obtain ⟨s', hq⟩ : ∃ s', Reader.polynomial Q (.ofText t) =
      .ok ⟨[([0, 0], 9), ([1, 0], -8), ([1, 2], 3), ([2, 0], 4)]⟩ s' :=
    Reader.exists_eq_ok (by decide +kernel)
  exact ⟨hclear, ⟨s, hp⟩, _, s', hq, (rationals_extend_integers Z.vars {} {} {} 0 hclear hp hq).1⟩

/-- With a variable `_0` the numeral `1_0` is ten over the integers, and the variable over the rational
numbers. -/
theorem numeral_hides_variable :
    let Z : PolyRing Int := ⟨Integer.arithmetic, ["_0".toList], {}⟩
    let Q : PolyRing Rat := ⟨Rational.arithmetic, ["_0".toList], {}⟩
    let p : Poly Int := ⟨[([0], 10)]⟩
    let q : Poly Rat := ⟨[([1], 1)]⟩
    (∃ s, Reader.polynomial Z (.ofText "1_0".toList) = .ok p s) ∧
      (∃ s, Reader.polynomial Q (.ofText "1_0".toList) = .ok q s) ∧
      q.terms ≠ p.terms.map fun term => (term.1, (term.2 : Rat)) :=
  ⟨Reader.exists_eq_ok (by decide +kernel), Reader.exists_eq_ok (by decide +kernel), by decide +kernel⟩

end PolynomialText
