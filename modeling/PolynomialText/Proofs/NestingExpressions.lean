import PolynomialText.PolynomialSet
import PolynomialText.Proofs.NestingReaders
import PolynomialText.Proofs.ReadHeaders

/-!
# Expressions under a higher limit on nesting

A literal of a ring whose elements are polynomials is an expression of its own, which continues the
nesting around it. Its reader may pass the limit; the failure then stays what it is on the way out.
Where a failure would not stay what it is, behind a numeral or a symbol, the text is flat. So every
ring endures a higher limit, and so does every reader.
-/

namespace PolynomialText

/-- Under a higher limit on nesting literals are read as before, unless they are refused because they
pass the limit. No flat literal is. -/
def Arithmetic.Enduring {α : Type} (A : Arithmetic α) : Prop :=
  ∀ (limits : Limits) (d : UInt64) (depth : Nat) (t : Text), limits.maxDepth ≤ d →
    A.readWithin (limits.raise d) depth t = A.readWithin limits depth t ∨
      ¬ Text.Flat t ∧ ∃ e : ParseError, e.TooDeep limits.maxDepth ∧
        A.readWithin limits depth t = .error (.expression e)

/-- What the role of a token that may be seen tells: the words of flat text are flat, and nothing is
opened in it. -/
def Role.Flat (plain : Bool) : Role → Prop
  | numeral w | symbol w => Text.Flat w
  | openBrace | openParen | quoted _ => plain = false
  | _ => True

theorem Role.flat_ofToken {plain : Bool} (closer : Option Char) {t : Token} (ht : t.Flat plain) :
    (ofToken closer t).Flat plain := by
  cases t with
  | eof => trivial
  | quoted t => exact ht
  | word w =>
    rw [ofToken]
    split
    · exact ht
    · exact ht
  | op c =>
    cases plain with
    | true =>
      rcases ht rfl with rfl | rfl
      · trivial
      · trivial
    | false =>
      unfold ofToken
      dsimp only
      repeat' split
      all_goals trivial

/-! ### Numerals are flat -/

theorem Reader.flat_completeNumeral {w : Text} (h : Text.Flat w) : Text.Flat (completeNumeral w) := by
  unfold completeNumeral
  split
  · exact .cons (by decide) h
  · exact .cons (by decide) h
  · exact h

theorem flat_of_splitJuxtaposed? {t number symbol : Text} (ht : Text.Flat t)
    (h : splitJuxtaposed? t = some (number, symbol)) : Text.Flat number ∧ Text.Flat symbol := by
  obtain ⟨rfl, rfl, -⟩ := splitJuxtaposed?_eq_some h
  exact ⟨ht.takeWhile _, ht.dropWhile _⟩

namespace Reader

variable {plain : Bool} {α : Type} {R : PolyRing α}

theorem endures_joinImaginary {t : Text} (ht : Text.Flat t) :
    Endures plain (joinImaginary R t) Text.Flat := by
  unfold joinImaginary
  split
  · apply (endures_peek 0).bind
    intro found _
    cases found with
    | none => exact .pure ht
    | some sign =>
      dsimp only
      split
      · rename_i hsign
        apply (endures_digitAhead 1).bind
        intro digit _
        cases digit with
        | false => exact .pure ht
        | true =>
          apply endures_advance.bind
          intro _ _
          apply endures_advance.bind
          intro second hsecond
          cases second with
          | word w =>
            have hchar : isFlatChar sign = true := by
              rcases hsign with rfl | rfl
              · decide
              · decide
            exact .pure (ht.append (.cons hchar hsecond))
          | _ => exact (endures_pushBack hsecond).bind fun _ _ => .pure ht
      · exact .pure ht
  · exact .pure ht

/-! ### Literals -/

section

variable (hR : R.coefficients.Enduring)
include hR

/-- A flat text is read alike. -/
theorem endures_literal? {t : Text} (ht : Text.Flat t) (extra : Nat) :
    Endures plain (literal? R t extra) fun _ => True := by
  intro s d hs hd
  refine ⟨?_, rfl, hs, trivial⟩
  rcases hR s.limits d (s.depth + extra) t hd with hsame | ⟨hnested, _⟩
  · exact congrArg (EStateM.Result.ok · (s.raise d)) hsame
  · exact absurd ht hnested

omit hR in
theorem literal_of_ok {t : Text} {extra : Nat} {s : Session} {c : α}
    (h : R.coefficients.readWithin s.limits (s.depth + extra) t = .ok c) :
    literal R t extra s = .ok c s := by
  simp only [literal, literal?, bind, EStateM.bind, h]
  rfl

omit hR in
theorem literal_of_error {t : Text} {extra : Nat} {s : Session} {fault : LiteralFault}
    (h : R.coefficients.readWithin s.limits (s.depth + extra) t = .error fault) :
    literal R t extra s = literalFailure t fault s := by
  simp only [literal, literal?, bind, EStateM.bind, h]

/-- A literal that passes the limit fails for that reason, as the expression around it would. -/
theorem endures_literal {t : Text} (ht : plain = true → Text.Flat t) (extra : Nat) :
    Endures plain (literal R t extra) fun _ => True := by
  intro s d hs hd
  rcases hR s.limits d (s.depth + extra) t hd with hsame | ⟨hnested, e, ⟨line, rfl⟩, herror⟩
  · cases hread : R.coefficients.readWithin s.limits (s.depth + extra) t with
    | ok c =>
      rw [literal_of_ok hread, literal_of_ok (s := s.raise d) (hsame.trans hread)]
      exact ⟨rfl, rfl, hs, trivial⟩
    | error fault =>
      rw [literal_of_error hread, literal_of_error (s := s.raise d) (hsame.trans hread)]
      exact endures_literalFailure t fault s d hs hd
  · have hplain : plain = false := by
      rw [Bool.eq_false_iff]
      exact fun htrue => hnested (ht htrue)
    rw [literal_of_error herror]
    exact ⟨.inr ⟨hplain, s.scanner.line, rfl⟩, rfl, hs⟩

theorem endures_numeral {w : Text} (hw : Text.Flat w) :
    Endures plain (numeral R w) fun _ => True := by
  unfold numeral
  split
  · exact endures_line.bind fun _ _ => endures_throw _
  · apply (endures_joinImaginary (flat_completeNumeral hw)).bind
    intro t ht
    apply (endures_literal? hR ht 0).bind
    intro result _
    cases result with
    | ok c => exact .pure trivial
    | error fault =>
      dsimp only
      split
      · exact endures_literalFailure t fault
      · rename_i number symbol hsplit
        -- The refusal of the whole is dropped here, which no limit has caused.
        obtain ⟨hnumber, hsymbol⟩ := flat_of_splitJuxtaposed? ht hsplit
        apply (endures_literal hR (fun _ => hnumber) 0).bind
        intro c _
        exact (endures_pushBack (t := .word symbol) hsymbol).bind fun _ _ => .pure trivial

theorem endures_symbol {w : Text} (hw : Text.Flat w) : Endures plain (symbol R w) fun _ => True := by
  unfold symbol
  split
  · exact .pure trivial
  · apply (endures_literal? hR hw 0).bind
    intro result _
    cases result with
    | ok c => exact .pure trivial
    | error fault => exact endures_line.bind fun _ _ => endures_throw _

/-! ### Expressions -/

omit hR in
theorem endures_multiplied (acc : Accumulator α) (factor : Factor α) :
    Endures plain (multiplied R acc factor) fun _ => True := by
  apply endures_exponent.bind
  intro k _
  apply endures_advance.bind
  intro next hnext
  exact (endures_pushBack hnext).bind fun _ _ => .pure trivial

theorem endures_expressionFrom (fuel : Nat) (closer : Option Char) (acc : Accumulator α) :
    Endures plain (expressionFrom R fuel closer acc) fun _ => True := by
  induction fuel generalizing plain closer acc with
  | zero => exact endures_exhausted
  | succ fuel ih =>
    have hfactor : ∀ factor : Factor α,
        Endures plain (multiplied R acc factor >>= expressionFrom R fuel closer) fun _ => True :=
      fun factor => (endures_multiplied acc factor).bind fun _ _ => ih _ _
    apply endures_advance.bind
    intro t ht
    -- In flat text the roles that open a level, or a literal of any form, do not occur.
    have hrole := Role.flat_ofToken closer ht
    generalize Role.ofToken closer t = role at hrole ⊢
    cases role with
    | negate => exact ih _ _
    | skip => exact ih _ _
    | stop terminator => exact .pure trivial
    | leave => exact (endures_pushBack ht).bind fun _ _ => .pure trivial
    | strayBrace => exact endures_malformed _
    | openBrace =>
      obtain rfl : plain = false := hrole
      apply endures_bracesText.nested.bind
      intro text _
      exact (endures_literal hR Bool.noConfusion 1).bind fun c _ => hfactor _
    | openParen =>
      obtain rfl : plain = false := hrole
      apply (ih none _).nested.bind
      intro result _
      dsimp only
      split
      · exact endures_malformed _
      · exact hfactor _
    | quoted text =>
      obtain rfl : plain = false := hrole
      exact (endures_literal hR Bool.noConfusion 1).bind fun c _ => hfactor _
    | numeral w =>
      exact (endures_numeral hR hrole).bind fun factor _ => hfactor _
    | symbol w =>
      exact (endures_symbol hR hrole).bind fun factor _ => hfactor _

theorem endures_expression (closer : Option Char) :
    Endures plain (expression R closer) fun _ => True :=
  endures_passes.bind fun fuel _ => endures_expressionFrom hR fuel closer _

theorem endures_polynomial : Endures plain (polynomial R) fun _ => True :=
  (endures_expression hR none).bind fun _ _ => .pure trivial

/-- A text is the same polynomial, unless it passes the limit; no flat text does. -/
theorem polynomialOf_raise (limits : Limits) (d : UInt64) (depth : Nat) (t : Text)
    (hd : limits.maxDepth ≤ d) :
    polynomialOf R (limits.raise d) depth t = polynomialOf R limits depth t ∨
      ¬ Text.Flat t ∧ ∃ e : ParseError, e.TooDeep limits.maxDepth ∧
        polynomialOf R limits depth t = .error e := by
  have hstart : (Session.ofText t limits depth).scanner.Flat (decide (Text.Flat t)) :=
    Scanner.flat_ofText of_decide_eq_true
  have hruns := endures_polynomial hR (.ofText t limits depth) d hstart hd
  have hraise : Session.ofText t (limits.raise d) depth = (Session.ofText t limits depth).raise d :=
    rfl
  unfold polynomialOf
  rw [hraise]
  generalize polynomial R (.ofText t limits depth) = result at hruns ⊢
  cases result with
  | ok p s =>
    rw [hruns.1]
    exact .inl rfl
  | error e s =>
    rcases hruns.1 with hsame | ⟨hnested, hdeep⟩
    · rw [hsame]
      exact .inl rfl
    · exact .inr ⟨of_decide_eq_false hnested, e, hdeep, rfl⟩

end

end Reader

/-! ### Rings -/

/-- Polynomials are literals that endure a higher limit, if their coefficients do. -/
theorem PolyRing.enduring_arithmetic {α : Type} {R : PolyRing α} (h : R.coefficients.Enduring) :
    R.arithmetic.Enduring := by
  intro limits d depth t hd
  change R.readWithin (limits.raise d) depth t = R.readWithin limits depth t ∨ _ ∧ ∃ e, _ ∧
    R.readWithin limits depth t = _
  unfold readWithin
  rcases Reader.polynomialOf_raise h limits d depth t hd with hsame | ⟨hnested, e, hdeep, herror⟩
  · exact .inl (congrArg _ hsame)
  · exact .inr ⟨hnested, e, hdeep, congrArg _ herror⟩

/-- Residues of polynomials are literals that endure a higher limit, if the coefficients do. -/
theorem Extension.enduring_arithmetic {α : Type} {A : Arithmetic α} (h : A.Enduring)
    (E : Extension α) : (E.arithmetic A).Enduring := by
  intro limits d depth t hd
  rcases PolyRing.enduring_arithmetic (R := E.ring A) h limits d depth t hd with
    hsame | ⟨hnested, e, hdeep, herror⟩
  · exact .inl (congrArg (Except.map (E.reduce A)) hsame)
  · exact .inr ⟨hnested, e, hdeep, congrArg (Except.map (E.reduce A)) herror⟩

/-- A ring of numbers does not look at the limits. -/
theorem Rational.enduring : Rational.arithmetic.Enduring := fun _ _ _ _ _ => .inl rfl

theorem BigModulus.enduring (m : BigModulus) : m.arithmetic.Enduring := fun _ _ _ _ _ => .inl rfl

/-- The literals of every ring that a descriptor can select endure a higher limit. -/
theorem CoefficientRing.enduring (r : CoefficientRing) : r.arithmetic.Enduring := by
  cases r with
  | rational => exact Rational.enduring
  | integer => exact fun _ _ _ _ _ => .inl rfl
  | word m => exact fun _ _ _ _ _ => .inl rfl
  | big m => exact m.enduring
  | complex => exact fun _ _ _ _ _ => .inl rfl
  | quaternion => exact fun _ _ _ _ _ => .inl rfl
  | octonion => exact fun _ _ _ _ _ => .inl rfl
  | decimal => exact fun _ _ _ _ _ => .inl rfl
  | function vars => exact PolyRing.enduring_arithmetic Rational.enduring
  | algebraicRational E => exact Extension.enduring_arithmetic Rational.enduring E
  | algebraicModular m E => exact Extension.enduring_arithmetic m.enduring E

namespace Reader

variable {plain : Bool} {α : Type}

theorem endures_modulus (t : Token) : Endures plain (modulus t) fun _ => True := by
  unfold modulus
  split
  · split
    · split
      · exact .pure trivial
      · exact endures_invalidRing _
    · exact endures_invalidRing _
  · exact endures_invalidRing _

theorem endures_modular : Endures plain modular fun _ => True := by
  have hresidues : ∀ m, Endures plain
      (do orInvalidRing (residues (← get).limits.wordModulusLimit m)) fun _ => True := fun m =>
    endures_wordModulusLimit (f := fun k => orInvalidRing (residues k m)) fun _ =>
      (endures_orInvalidRing _).imp fun _ _ => trivial
  apply endures_advance.bind
  intro t _
  dsimp only
  split
  · apply endures_advance.bind
    intro word _
    apply (endures_modulus word).bind
    intro m _
    apply (endures_skipOp ']').bind
    intro _ _
    exact hresidues m
  · apply (endures_modulus t).bind
    intro m _
    exact hresidues m

theorem endures_functionVariables : Endures plain functionVariables fun _ => True := by
  apply endures_variableList.bind
  intro vars _
  split
  · exact endures_invalidRing _
  · exact (endures_orInvalidRing _).bind fun _ _ => .pure trivial

theorem endures_definingPolynomial {R : PolyRing α} (h : R.coefficients.Enduring) :
    Endures false (definingPolynomial R) fun _ => True := by
  apply endures_advance.bind
  intro t ht
  split
  · apply (endures_expression h none).nested.bind
    intro result _
    dsimp only
    split
    · exact endures_malformed _
    · exact .pure trivial
  · apply (endures_pushBack ht).bind
    intro _ _
    exact (endures_expression h _).bind fun _ _ => .pure trivial

theorem endures_extensionOver {A : Arithmetic α} (h : A.Enduring)
    (inverse : α → Except RingFault α) (vars : List Text) :
    Endures false (extensionOver A inverse vars) fun _ => True := by
  apply (endures_orInvalidRing _).bind
  intro R hmake
  obtain rfl := (PolyRing.of_make_eq_ok hmake).1
  apply (endures_definingPolynomial h).bind
  intro p _
  exact (endures_orInvalidRing _).imp fun _ _ => trivial

theorem endures_algebraic : Endures false algebraic fun _ => True := by
  apply endures_advance.bind
  intro t _
  split
  · exact endures_invalidRing _
  · apply endures_advance.bind
    intro first hfirst
    simp only [pure_bind]
    split
    · apply (endures_modulus first).bind
      intro m _
      apply endures_variableList.bind
      intro vars _
      split
      · exact endures_invalidRing _
      · apply (endures_orInvalidRing _).bind
        intro base _
        apply (endures_extensionOver base.enduring _ vars).bind
        intro E _
        exact (endures_skipOp ']').bind fun _ _ => .pure trivial
    · apply (endures_pushBack hfirst).bind
      intro _ _
      apply endures_variableList.bind
      intro vars _
      split
      · exact endures_invalidRing _
      · apply (endures_extensionOver Rational.enduring _ vars).bind
        intro E _
        exact (endures_skipOp ']').bind fun _ _ => .pure trivial

theorem endures_coefficientRing : Endures false coefficientRing fun _ => True := by
  apply endures_advance.bind
  intro t ht
  have hnone : Endures false (do pushBack t; return CoefficientRing.rational) fun _ => True :=
    (endures_pushBack ht).bind fun _ _ => .pure trivial
  cases t with
  | word w =>
    dsimp only
    split
    · exact .pure trivial
    · exact .pure trivial
    · exact .pure trivial
    · exact .pure trivial
    · exact (endures_advise _).bind fun _ _ => .pure trivial
    · exact (endures_advise _).bind fun _ _ => .pure trivial
    · exact endures_modular
    · exact endures_invalidRing _
    · exact endures_functionVariables
    · exact endures_algebraic
    · exact hnone
  | quoted u => exact hnone
  | op c => exact hnone
  | eof => exact hnone

/-! ### Lists and sets -/

section

variable {R : PolyRing α} (hR : R.coefficients.Enduring)
include hR

theorem endures_listStep (list : List (Poly α)) : Endures plain (listStep R list) fun _ => True :=
  (endures_expression hR none).bind fun _ _ => .pure trivial

theorem endures_polynomialList : Endures plain (polynomialList R) fun _ => True := by
  apply endures_advance.bind
  intro t ht
  split
  · exact (endures_pushBack ht).bind fun _ _ => .pure trivial
  · apply (endures_peek 0).bind
    intro found _
    split
    · exact endures_advance.bind fun _ _ => .pure trivial
    · exact endures_loop (endures_listStep hR) _

theorem endures_moduleStep (rows : List (List (Poly α))) :
    Endures plain (moduleStep R rows) fun _ => True := by
  apply endures_advance.bind
  intro t ht
  split
  · exact .pure trivial
  · split
    · exact .pure trivial
    · split
      · apply (endures_pushBack ht).bind
        intro _ _
        exact (endures_polynomialList hR).bind fun _ _ => .pure trivial
      · exact endures_malformed _

theorem endures_moduleList : Endures plain (moduleList R) fun _ => True := by
  apply endures_advance.bind
  intro t ht
  split
  · exact (endures_pushBack ht).bind fun _ _ => .pure trivial
  · exact endures_loop (endures_moduleStep hR) _

end

theorem endures_ringHeader : Endures false ringHeader fun _ => True := by
  apply endures_coefficientRing.bind
  intro coefficients _
  apply endures_variableList.bind
  intro vars _
  apply (endures_termOrder vars.length).bind
  intro order _
  exact (endures_orInvalidRing _).bind fun _ _ => .pure trivial

theorem endures_polynomialSet : Endures false polynomialSet fun _ => True := by
  apply endures_ringHeader.bind
  intro header _
  exact (endures_polynomialList header.coefficients.enduring).bind fun _ _ => .pure trivial

theorem endures_moduleSet : Endures false moduleSet fun _ => True := by
  apply endures_ringHeader.bind
  intro header _
  exact (endures_moduleList header.coefficients.enduring).bind fun _ _ => .pure trivial

end Reader

end PolynomialText
