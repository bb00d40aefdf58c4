import PolynomialText.Proofs.ReaderResults
import PolynomialText.Proofs.ExtensionResidues

/-!
# Polynomials that are read are regular

Whatever a source holds, an expression that is read gives a polynomial with ascending terms, without
zeros, with coefficients that the coefficient ring reads or computes, and without the variables
whose names are read as numerals. Literals of polynomials and of residues in an extension are again
expressions, so that the same holds for them.
-/

namespace PolynomialText

/-- Literals and results of the arithmetic stay in a set of elements. -/
structure Arithmetic.ReadsInto {α : Type} (A : Arithmetic α) (C : α → Prop) : Prop where
  closed : A.Closed C
  read_mem : ∀ {limits : Limits} {depth : Nat} {t : Text} {c : α},
    A.readWithin limits depth t = .ok c → C c

namespace Reader

variable {limits : Limits}

/-! ### Exponents and braces -/

theorem gives_noExponent (t : Token) : Gives limits (noExponent t) fun _ => True :=
  (gives_pushBack t).bind fun _ _ => .pure trivial

theorem gives_exponentWord : Gives limits exponentWord fun _ => True := by
  apply gives_advance.bind
  intro t _
  cases t with
  | word w =>
    dsimp only
    split
    · exact gives_malformed _
    · split
      · exact .pure trivial
      · split
        · exact (gives_pushBack _).bind fun _ _ => .pure trivial
        · exact gives_malformed _
  | _ => exact gives_malformed _

theorem gives_exponentAfter (mark : Token) (ahead : Nat) :
    Gives limits (exponentAfter mark ahead) fun _ => True := by
  apply (gives_peek ahead).bind
  intro found _
  split
  · exact gives_noExponent mark
  · split
    · split
      · exact gives_advance.bind fun _ _ => gives_exponentWord
      · exact gives_exponentWord
    · split
      · exact gives_malformed _
      · split
        · apply (gives_digitAhead _).bind
          intro digit _
          split
          · exact gives_malformed _
          · exact gives_noExponent mark
        · split
          · exact gives_malformed _
          · exact gives_noExponent mark

theorem gives_exponent : Gives limits exponent fun _ => True := by
  apply gives_advance.bind
  intro t _
  split
  · exact gives_exponentAfter t 0
  · split
    · apply (gives_peek 0).bind
      intro found _
      split
      · exact gives_exponentAfter t 1
      · exact gives_noExponent t
    · exact gives_noExponent t

theorem gives_bracesText : Gives limits bracesText fun _ => True := by
  refine gives_loop (I := fun _ => True) (fun b _ => ?_) trivial
  apply gives_advance.bind
  intro t _
  cases t with
  | op c =>
    dsimp only
    split
    · split
      · exact .pure trivial
      · exact .pure trivial
    · split
      · exact (gives_checkDepth _).bind fun _ _ => .pure trivial
      · exact .pure trivial
  | word w => exact .pure trivial
  | quoted t => exact .pure trivial
  | eof => exact gives_malformed _

end Reader

/-! ### Factors -/

section

variable {α : Type} (R : PolyRing α) (C : α → Prop)

/-- A factor that keeps a term regular. -/
def Factor.Permitted : Factor α → Prop
  | .coefficient c => C c
  | .variable index => ∀ k, R.Supports (.single R.nvars index k)
  | .polynomial p => Poly.Regular R.coefficients R.Supports C p

/-- The sum and the term are regular. -/
structure Accumulator.Regular (acc : Accumulator α) : Prop where
  sum : Poly.Regular R.coefficients R.Supports C acc.sum
  term : Poly.Regular R.coefficients R.Supports C acc.term

variable {R C}

/-- A variable whose name is read as a symbol may occur. -/
theorem PolyRing.supports_single {w : Text} {index : Nat}
    (hw : w.head?.any isNumeralStart = false) (hindex : R.varIndex? w = some index) (k : UInt64) :
    R.Supports (.single R.nvars index k) :=
  confined_single (P := fun name => name.head?.any isNumeralStart = false) hw hindex k

variable (hA : R.coefficients.Closed C)
include hA

namespace Accumulator.Regular

variable {acc : Accumulator α}

omit hA in
theorem start (hone : C R.coefficients.one) : Accumulator.Regular R C (.start R) :=
  ⟨Poly.regular_zero, PolyRing.regular_constant R.closed_supports hone⟩

theorem negate (h : acc.Regular R C) : (acc.negate R).Regular R C :=
  ⟨h.sum, h.term.neg hA⟩

theorem total (h : acc.Regular R C) :
    Poly.Regular R.coefficients R.Supports C (acc.total R) := by
  unfold Accumulator.total
  split
  · exact h.sum.add hA h.term
  · exact h.sum

theorem flush (h : acc.Regular R C) : (acc.flush R).Regular R C :=
  ⟨h.total hA, PolyRing.regular_constant R.closed_supports hA.one⟩

/-- A permitted factor keeps the term regular. -/
theorem multiply (h : acc.Regular R C) {factor : Factor α} (hfactor : factor.Permitted R C)
    (k : UInt64) : (acc.multiply R factor k).Regular R C := by
  refine ⟨h.sum, ?_⟩
  match factor, hfactor with
  | .coefficient c, hc => exact h.term.scale hA (hA.pow hc k)
  | .variable index, hindex =>
    exact h.term.mul hA R.closed_supports (Poly.regular_monomial (hindex k) hA.one)
  | .polynomial p, hp =>
    exact h.term.mul hA R.closed_supports (PolyRing.regular_pow hA R.closed_supports hp k)

end Accumulator.Regular

end

/-! ### Expressions -/

namespace Reader

variable {α : Type} {R : PolyRing α} {C : α → Prop} {limits : Limits}

/-- The role of a symbol is that of a word that starts no numeral. -/
theorem head_of_ofToken_eq_symbol {closer : Option Char} {t : Token} {w : Text}
    (h : Role.ofToken closer t = .symbol w) : w.head?.any isNumeralStart = false := by
  cases t with
  | word v =>
    rw [Role.ofToken] at h
    split at h
    · contradiction
    · rename_i hstart
      rw [← Role.symbol.inj h]
      exact Bool.eq_false_iff.2 hstart
  | op c =>
    unfold Role.ofToken at h
    dsimp only at h
    repeat' split at h
    all_goals contradiction
  | quoted v => contradiction
  | eof => contradiction

theorem gives_joinImaginary (t : Text) : Gives limits (joinImaginary R t) fun _ => True := by
  unfold joinImaginary
  split
  · apply (gives_peek 0).bind
    intro found _
    split
    · exact .pure trivial
    · split
      · apply (gives_digitAhead 1).bind
        intro digit _
        split
        · apply gives_advance.bind
          intro _ _
          apply gives_advance.bind
          intro next _
          split
          · exact .pure trivial
          · exact (gives_pushBack _).bind fun _ _ => .pure trivial
        · exact .pure trivial
      · exact .pure trivial
  · exact .pure trivial

section

variable (hA : R.coefficients.ReadsInto C)
include hA

/-- A literal that the coefficient ring accepts lies in the set. -/
theorem gives_literal? (t : Text) (extra : Nat) :
    Gives limits (literal? R t extra) fun result => ∀ c, result = .ok c → C c := by
  intro s result s' hs hok
  obtain ⟨rfl, rfl⟩ := EStateM.Result.ok.inj hok
  exact ⟨hs, fun c hc => hA.read_mem hc⟩

theorem gives_literal (t : Text) (extra : Nat) : Gives limits (literal R t extra) C := by
  apply (gives_literal? hA t extra).bind
  intro result hresult
  cases result with
  | ok c => exact .pure (hresult c rfl)
  | error fault => exact gives_literalFailure t fault

/-- A numeral is a permitted factor. -/
theorem gives_numeral (w : Text) : Gives limits (numeral R w) (Factor.Permitted R C) := by
  unfold numeral
  split
  · exact gives_line.bind fun _ _ => gives_throw
  · apply (gives_joinImaginary _).bind
    intro t _
    apply (gives_literal? hA t 0).bind
    intro result hresult
    cases result with
    | ok c => exact .pure (hresult c rfl)
    | error fault =>
      dsimp only
      split
      · exact gives_literalFailure t fault
      · apply (gives_literal hA _ 0).bind
        intro c hc
        exact (gives_pushBack _).bind fun _ _ => .pure hc

/-- A symbol is a permitted factor. -/
theorem gives_symbol {w : Text} (hw : w.head?.any isNumeralStart = false) :
    Gives limits (symbol R w) (Factor.Permitted R C) := by
  unfold symbol
  split
  · rename_i index hindex
    exact .pure fun k => PolyRing.supports_single hw hindex k
  · apply (gives_literal? hA w 0).bind
    intro result hresult
    cases result with
    | ok c => exact .pure (hresult c rfl)
    | error fault => exact gives_line.bind fun _ _ => gives_throw

/-- Multiplication by a permitted factor keeps the accumulator regular. -/
theorem gives_multiplied {acc : Accumulator α} (hacc : acc.Regular R C) {factor : Factor α}
    (hfactor : factor.Permitted R C) :
    Gives limits (multiplied R acc factor) (Accumulator.Regular R C) := by
  apply gives_exponent.bind
  intro k _
  apply gives_advance.bind
  intro next _
  refine (gives_pushBack next).bind fun _ _ => .pure ?_
  have hnext := hacc.multiply hA.closed hfactor k
  split
  · exact hnext.flush hA.closed
  · exact hnext

/-- An expression that is read from a regular accumulator on is regular. -/
theorem gives_expressionFrom (fuel : Nat) (closer : Option Char) {acc : Accumulator α}
    (hacc : acc.Regular R C) :
    Gives limits (expressionFrom R fuel closer acc)
      fun result => Poly.Regular R.coefficients R.Supports C result.1 := by
  induction fuel generalizing closer acc with
  | zero => exact gives_exhausted
  | succ fuel ih =>
    have hmultiplied : ∀ {factor : Factor α}, factor.Permitted R C →
        Gives limits (multiplied R acc factor >>= expressionFrom R fuel closer)
          fun result => Poly.Regular R.coefficients R.Supports C result.1 :=
      fun hfactor => (gives_multiplied hA hacc hfactor).bind fun acc' hacc' => ih closer hacc'
    apply gives_advance.bind
    intro t _
    cases hrole : Role.ofToken closer t with
    | negate => exact ih closer (hacc.negate hA.closed)
    | skip => exact ih closer hacc
    | stop terminator => exact .pure (hacc.total hA.closed)
    | leave => exact (gives_pushBack t).bind fun _ _ => .pure (hacc.total hA.closed)
    | strayBrace => exact gives_malformed _
    | openBrace =>
      apply (gives_nested gives_bracesText).bind
      intro text _
      exact (gives_literal hA text 1).bind fun c hc => hmultiplied hc
    | openParen =>
      apply (gives_nested (ih none (.start hA.closed.one))).bind
      intro result hresult
      obtain ⟨p, terminator⟩ := result
      dsimp only
      split
      · exact gives_malformed _
      · exact hmultiplied hresult
    | quoted text => exact (gives_literal hA text 1).bind fun c hc => hmultiplied hc
    | numeral w => exact (gives_numeral hA w).bind fun factor hfactor => hmultiplied hfactor
    | symbol w =>
      have hw := head_of_ofToken_eq_symbol hrole
      exact (gives_symbol hA hw).bind fun factor hfactor => hmultiplied hfactor

/-- An expression that is read is regular. -/
theorem gives_expression (closer : Option Char) :
    Gives limits (expression R closer)
      fun result => Poly.Regular R.coefficients R.Supports C result.1 :=
  gives_passes.bind fun fuel _ => gives_expressionFrom hA fuel closer (.start hA.closed.one)

/-- A text that is read as a polynomial gives a regular one. -/
theorem regular_of_polynomialOf {depth : Nat} {t : Text} {p : Poly α}
    (h : polynomialOf R limits depth t = .ok p) :
    Poly.Regular R.coefficients R.Supports C p := by
  have hgives : Gives limits (polynomial R) (Poly.Regular R.coefficients R.Supports C) :=
    (gives_expression hA none).bind fun result hresult => .pure hresult
  unfold polynomialOf at h
  split at h
  · rename_i q s hq
    rw [← Except.ok.inj h]
    exact (hgives _ q s rfl hq).2
  · contradiction

end

end Reader

end PolynomialText
