import PolynomialText.Proofs.ListComposition
import PolynomialText.Proofs.ReaderResults
import PolynomialText.Proofs.ResidueMaps

/-!
# Symbols that are run on to numerals

A symbol may stand behind a numeral without a blank. Where it is a declared variable, the coefficient
ring refuses the word, the numeral is cut off, and an exponent belongs to the variable. Where it is a
generator of the coefficients, the coefficient ring reads the whole word as a product, and an exponent
raises that product. With a blank between them the exponent belongs to the generator alone, so that the
two spellings differ by a power of the numeral.
-/

namespace PolynomialText

/-! ### Words -/

/-- A numeral that is a run of digits. -/
def Text.IsDigits (n : Text) : Prop := n ≠ [] ∧ ∀ c ∈ n, c.isDigit = true

instance : DecidablePred Text.IsDigits := fun n =>
  @instDecidableAnd _ _ inferInstance (List.decidableBAll (fun c => c.isDigit = true) n)

theorem Text.IsDigits.isWord {n : Text} (hn : n.IsDigits) : n.IsWord :=
  ⟨hn.1, fun c hc => isWordChar_of_isDigit (hn.2 c hc)⟩

theorem Text.IsDigits.exists_cons {n : Text} (hn : n.IsDigits) :
    ∃ d w, n = d :: w ∧ d.isDigit = true := by
  obtain ⟨d, w, rfl⟩ := List.exists_cons_of_ne_nil hn.1
  exact ⟨d, w, rfl, hn.2 d List.mem_cons_self⟩

/-- A word that starts with a letter. -/
def Text.IsSymbol (w : Text) : Prop := w.IsWord ∧ w.head?.any Text.isAlphabetic = true

instance : DecidablePred Text.IsSymbol := fun _ => inferInstanceAs (Decidable (_ ∧ _))

namespace Text.IsSymbol

variable {g : Text} (hg : g.IsSymbol)
include hg

theorem exists_cons : ∃ c w, g = c :: w ∧ isSymbolStart c = true ∧ isNumeralStart c = false := by
  obtain ⟨⟨hne, -⟩, hletter⟩ := hg
  obtain ⟨c, w, rfl⟩ := List.exists_cons_of_ne_nil hne
  have hc : isSymbolStart c = true := by
    have hletter : Text.isAlphabetic c = true := hletter
    simp [isSymbolStart, hletter]
  refine ⟨c, w, rfl, hc, ?_⟩
  rw [Bool.eq_false_iff]
  intro hnumeral
  simp [isSymbolStart_of_isNumeralStart hnumeral] at hc

/-- A word that starts with a letter is read as a symbol. -/
theorem ofToken_eq (closer : Option Char) : Role.ofToken closer (.word g) = .symbol g := by
  obtain ⟨c, w, rfl, -, hc⟩ := hg.exists_cons
  simp [Role.ofToken, hc]

variable {n : Text} (hn : n.IsDigits)
include hn

theorem isWord_append : (n ++ g).IsWord :=
  ⟨fun h => hg.1.1 (List.append_eq_nil_iff.1 h).2, fun c hc =>
    (List.mem_append.1 hc).elim (hn.isWord.2 c) (hg.1.2 c)⟩

/-- The symbol is cut off behind the digits. -/
theorem splitJuxtaposed?_append : splitJuxtaposed? (n ++ g) = some (n, g) := by
  obtain ⟨c, w, rfl, hc, -⟩ := hg.exists_cons
  have hdigits : ∀ d ∈ n, (!isSymbolStart d) = true := fun d hd => by
    simp [isSymbolStart_of_isDigit (hn.2 d hd)]
  obtain ⟨htake, hdrop⟩ := @Token.span_run _ n (c :: w) hdigits (by simp [hc])
  simp [splitJuxtaposed?, htake, hdrop, hn.1]

end Text.IsSymbol

/-- A word is one token. -/
theorem Token.ofText_word {w : Text} (hw : w.IsWord) : ofText w = [word w] := by
  have hword := ofText_word_append hw (Text.apart_nil_right w)
  rwa [List.append_nil, ofText_of_start_nil (t := []) rfl] at hword

/-- A word with an exponent. -/
theorem Token.ofText_power {w e : Text} (hw : w.IsWord) {k : UInt64} (hk : Text.word? e = some k) :
    ofText (w ++ '^' :: e) = [word w, op '^', word e] := by
  obtain ⟨c, rest, rfl, -⟩ := Reader.exists_digit_of_word? hk
  have he : Text.IsWord (c :: rest) :=
    ⟨List.cons_ne_nil _ _, fun d hd => isWordChar_of_isDigit (Reader.isDigit_of_word? hk d hd)⟩
  rw [ofText_word_append hw Text.apart_cons, ofText_op_cons (by decide), ofText_word he]

/-- A word that starts with a digit is read as a numeral. -/
theorem Role.ofToken_of_isDigit {d : Char} (hd : d.isDigit = true) (w : Text) :
    ofToken none (.word (d :: w)) = .numeral (d :: w) := by
  simp [ofToken, isNumeralStart, hd]

/-! ### Passes over words -/

namespace Grammar

variable {α : Type} {R : PolyRing α} {limits : Limits} {depth : Nat} {acc : Accumulator α}
  {tokens rest : List Token} {k : UInt64}

theorem exponent_nil : exponent [] = .ok 1 [] := rfl

theorem exponent_caret {e : Text} (hk : Text.word? e = some k) :
    exponent (.op '^' :: .word e :: rest) = .ok k rest := by
  obtain ⟨c, w, rfl, hc⟩ := Reader.exists_digit_of_word? hk
  obtain ⟨htake, hdrop⟩ := @Token.span_run _ (c :: w) [] (Reader.isDigit_of_word? hk) (by simp)
  rw [List.append_nil] at htake hdrop
  have hahead : ahead (.word (c :: w) :: rest) = some c := rfl
  have hmark : exponent (.op '^' :: .word (c :: w) :: rest) =
      exponentAfter (.op '^' :: .word (c :: w) :: rest) (.word (c :: w) :: rest)
        (.word (c :: w) :: rest) := rfl
  rw [hmark, exponentAfter, hahead]
  simp only [hc, if_true, exponentWord, List.headD_cons, htake, hdrop, hk, List.tail_cons]

/-- Behind a factor with its exponent the expression goes on. -/
theorem behind_multiplied {f : Factor α} (hexponent : exponent tokens = .ok k rest) :
    Pass.behind ((Outcome.ok f tokens).bind (multiplied R acc)) =
      .more ((acc.multiply R f k).settle R rest) rest := by
  simp only [Outcome.bind, Outcome.ok, multiplied, hexponent, Pass.behind]

section

variable {d : Char} {w : Text} (hd : d.isDigit = true)
  (hkind : R.coefficients.kind.isHypercomplex = false)
include hd hkind

/-- A literal as a whole multiplies the term. -/
theorem pass_numeral {c : α} (hc : R.coefficients.readWithin limits depth (d :: w) = .ok c)
    (hexponent : exponent tokens = .ok k rest) :
    pass R limits depth none acc (.word (d :: w) :: tokens) =
      .more ((acc.multiply R (.coefficient c) k).settle R rest) rest := by
  have hnumeral : numeral R limits depth (d :: w) tokens = .ok (.coefficient c) tokens := by
    simp [numeral, hd, Reader.completeNumeral_of_isDigit hd, joinImaginary, hkind, hc]
  simp only [pass, List.headD_cons, List.tail_cons, Role.ofToken_of_isDigit hd, hnumeral]
  exact behind_multiplied hexponent

/-- Of a word that is refused as a whole, the numeral multiplies the term and the symbol is left. -/
theorem pass_runOn {fault : LiteralFault} {number symbol : Text} {c : α}
    (hfault : R.coefficients.readWithin limits depth (d :: w) = .error fault)
    (hsplit : splitJuxtaposed? (d :: w) = some (number, symbol))
    (hc : R.coefficients.readWithin limits depth number = .ok c) :
    pass R limits depth none acc (.word (d :: w) :: tokens) =
      .more (acc.multiply R (.coefficient c) 1) (.word symbol :: tokens) := by
  have hnumeral : numeral R limits depth (d :: w) tokens =
      .ok (.coefficient c) (.word symbol :: tokens) := by
    simp [numeral, hd, Reader.completeNumeral_of_isDigit hd, joinImaginary, hkind, hfault, hsplit,
      literal, hc, Outcome.bind, Outcome.ok]
  have hexponent : exponent (.word symbol :: tokens) = .ok 1 (.word symbol :: tokens) := rfl
  simp only [pass, List.headD_cons, List.tail_cons, Role.ofToken_of_isDigit hd, hnumeral]
  exact behind_multiplied hexponent

end

section

variable {g : Text} (hg : g.IsSymbol)
include hg

theorem pass_variable {index : Nat} (hindex : R.varIndex? g = some index)
    (hexponent : exponent tokens = .ok k rest) :
    pass R limits depth none acc (.word g :: tokens) =
      .more ((acc.multiply R (.variable index) k).settle R rest) rest := by
  simp only [pass, List.headD_cons, List.tail_cons, hg.ofToken_eq, symbol, hindex]
  exact behind_multiplied hexponent

theorem pass_literal {c : α} (hindex : R.varIndex? g = none)
    (hc : R.coefficients.readWithin limits depth g = .ok c)
    (hexponent : exponent tokens = .ok k rest) :
    pass R limits depth none acc (.word g :: tokens) =
      .more ((acc.multiply R (.coefficient c) k).settle R rest) rest := by
  simp only [pass, List.headD_cons, List.tail_cons, hg.ofToken_eq, symbol, hindex, hc]
  exact behind_multiplied hexponent

theorem pass_unknown {fault : LiteralFault} (hindex : R.varIndex? g = none)
    (hfault : R.coefficients.readWithin limits depth g = .error fault) :
    pass R limits depth none acc (.word g :: tokens) =
      .last ⟨.error (.unknownLiteral 0 g fault), tokens⟩ := by
  simp only [pass, List.headD_cons, List.tail_cons, hg.ofToken_eq, symbol, hindex, hfault]
  rfl

end

end Grammar

/-! ### Terms -/

namespace PolyRing

variable {α : Type} {R : PolyRing α} {C : α → Prop}

theorem constant_scale (hzero : ∀ d, R.coefficients.mul R.coefficients.zero d = R.coefficients.zero)
    (c d : α) : (R.constant c).scale R.coefficients d = R.constant (R.coefficients.mul c d) := by
  unfold constant Poly.monomial
  by_cases hc : R.coefficients.isZero c = true
  · have hproduct : R.coefficients.isZero (R.coefficients.mul c d) = true := by
      rw [R.coefficients.isZero_eq_true_iff.1 hc, hzero]
      exact R.coefficients.isZero_eq_true_iff.2 rfl
    simp [Poly.scale, hc, hproduct]
  · by_cases hproduct : R.coefficients.isZero (R.coefficients.mul c d) = true
    · simp [Poly.scale, hc, hproduct]
    · simp [Poly.scale, hc, hproduct]

section

variable (h : R.coefficients.Unital C)
include h

/-- A multiple of one is the coefficient as a polynomial. -/
theorem one_scale {c : α} (hc : C c) : R.one.scale R.coefficients c = R.constant c := by
  rw [one_eq_single h.one_ne_zero]
  by_cases hzero : R.coefficients.isZero c = true
  · simp [Poly.scale, constant, Poly.monomial, h.one_mul hc, hzero]
  · simp [Poly.scale, constant, Poly.monomial, h.one_mul hc, hzero]

/-- The term that starts with a power of a coefficient. -/
theorem multiply_coefficient {c : α} (hc : C c) (k : UInt64) :
    (Accumulator.start R).multiply R (.coefficient c) k =
      ⟨.zero, R.constant (R.coefficients.pow c k), true⟩ := by
  simp only [Accumulator.multiply, Accumulator.start, one_scale h (h.closed.pow hc k)]

/-- The term that starts with a coefficient. -/
theorem multiply_coefficient_one {c : α} (hc : C c) :
    (Accumulator.start R).multiply R (.coefficient c) 1 = ⟨.zero, R.constant c, true⟩ := by
  rw [multiply_coefficient h hc, Arithmetic.pow_one, h.one_mul hc]

omit h in
/-- An expression of one term has it as its value. -/
theorem pass_term (limits : Limits) (depth : Nat) {p : Poly α} (hp : R.CanonicalPoly C p) :
    Grammar.pass R limits depth none ⟨.zero, p, true⟩ [] = .last (.ok (p, .finish) []) := by
  have htotal : (Accumulator.mk .zero p true).total R = p := Poly.zero_add hp.toCanonical
  change Grammar.Pass.last (.ok ((Accumulator.mk .zero p true).total R, .finish) []) = _
  rw [htotal]

end

end PolyRing

/-! ### Numerals and generators as literals -/

namespace Arithmetic.Extendable

variable {α S : Type} [CommRing S] {A : Arithmetic α} {K : α → Prop} {f : α → S}
  {inverse : α → Except RingFault α} (h : A.Extendable K f inverse)
include h

/-- Digits are a literal of the rational numbers and of residues. -/
theorem readWithin_digits (limits : Limits) (depth : Nat) {n : Text} (hn : n.IsDigits) :
    A.readWithin limits depth n = .ok (A.natural n.value) := by
  have hnumbers : A.NumberRing K := by
    cases h with
    | rational => exact Rational.numberRing
    | word m => exact m.numberRing
    | big m => exact m.numberRing
  rw [hnumbers.readWithin_eq, hnumbers.read_digits hn.1 hn.2]
  rfl

/-- Their literals are rational literals. -/
theorem exists_readRational {limits : Limits} {depth : Nat} {t : Text} {a : α}
    (hread : A.readWithin limits depth t = .ok a) : ∃ r, Rational.readRational t = .ok r := by
  have hresidue : ∀ {β : Type} {m : Nat} {g : Nat → β} {b : β},
      ((Residue.read m t).map g).mapError Refusal.reason = .ok b →
        ∃ r, Rational.readRational t = .ok r := by
    intro β m g b hb
    unfold Residue.read at hb
    cases hr : Rational.readRational t with
    | ok r => exact ⟨r, rfl⟩
    | error fault =>
      rw [hr] at hb
      contradiction
  cases h with
  | rational =>
    rw [Rational.readWithin_eq] at hread
    exact ⟨a, hread⟩
  | word m =>
    rw [m.readWithin_eq] at hread
    exact hresidue hread
  | big m =>
    rw [m.readWithin_eq] at hread
    exact hresidue hread

/-- A text with a symbol in it is refused. -/
theorem exists_fault (limits : Limits) (depth : Nat) {t : Text} {c : Char} (hmem : c ∈ t)
    (hc : isSymbolStart c = true) : ∃ fault, A.readWithin limits depth t = .error fault := by
  cases hread : A.readWithin limits depth t with
  | error fault => exact ⟨fault, rfl⟩
  | ok a =>
    obtain ⟨r, hr⟩ := h.exists_readRational hread
    simp [isSymbolStart_of_readRational hr hmem] at hc

end Arithmetic.Extendable

theorem Arithmetic.Extendable.isHypercomplex_eq {α S : Type} [CommRing S] {A : Arithmetic α}
    {K : α → Prop} {f : α → S} {inverse : α → Except RingFault α} (h : A.Extendable K f inverse) :
    A.kind.isHypercomplex = false := by
  cases h with
  | rational => rfl
  | word m => rfl
  | big m => rfl

namespace PolyRing

open Grammar

variable {α S : Type} [CommRing S] {R : PolyRing α} {K : α → Prop} {f : α → S}
  {inverse : α → Except RingFault α} (h : R.coefficients.Extendable K f inverse) (limits : Limits)
  (depth : Nat) {n g : Text}
include h

/-- Digits are a constant. -/
theorem polynomialOf_digits (hn : n.IsDigits) :
    Reader.polynomialOf R limits depth n = .ok (R.constant (R.coefficients.natural n.value)) := by
  have hread := h.readWithin_digits limits depth hn
  have hmem : K (R.coefficients.natural n.value) := h.readsInto.read_mem hread
  have hreads : Reads R limits depth none (.start R) (Token.ofText n)
      (.ok (R.constant (R.coefficients.natural n.value), .finish) []) := by
    rw [Token.ofText_word hn.isWord]
    obtain ⟨d, w, rfl, hd⟩ := hn.exists_cons
    refine .more (pass_numeral hd h.isHypercomplex_eq hread exponent_nil) (.last ?_)
    rw [multiply_coefficient_one h.unital hmem]
    exact pass_term limits depth (canonicalPoly_constant hmem)
  exact Reader.polynomialOf_of_reads hreads

/-- The symbol is cut off digits that it is run on to. -/
theorem pass_digits_append {limits : Limits} {depth : Nat} {acc : Accumulator α} {tokens : List Token}
    (hn : n.IsDigits) (hg : g.IsSymbol) :
    pass R limits depth none acc (.word (n ++ g) :: tokens) =
      .more (acc.multiply R (.coefficient (R.coefficients.natural n.value)) 1) (.word g :: tokens) := by
  have hread := h.readWithin_digits limits depth hn
  have hsplit := hg.splitJuxtaposed?_append hn
  obtain ⟨fault, hfault⟩ : ∃ fault, R.coefficients.readWithin limits depth (n ++ g) = .error fault := by
    obtain ⟨c, w, rfl, hc, -⟩ := hg.exists_cons
    exact h.exists_fault limits depth (List.mem_append_right n List.mem_cons_self) hc
  obtain ⟨d, w, rfl, hd⟩ := hn.exists_cons
  exact pass_runOn hd h.isHypercomplex_eq hfault hsplit hread

section

variable {index : Nat} (hg : g.IsSymbol) (hindex : R.varIndex? g = some index)
include hg hindex

/-- A declared variable is itself. -/
theorem polynomialOf_variable :
    Reader.polynomialOf R limits depth g = .ok (R.univariate index 1) := by
  have hmem : R.CanonicalPoly K (R.univariate index 1) := (staysCanonical h.readsInto).univariate index 1
  have hterm : (Accumulator.start R).multiply R (.variable index) 1 =
      ⟨.zero, R.univariate index 1, true⟩ := by
    simp only [Accumulator.multiply, Accumulator.start, one_mul h.unital hmem]
  have hreads : Reads R limits depth none (.start R) (Token.ofText g)
      (.ok (R.univariate index 1, .finish) []) := by
    rw [Token.ofText_word hg.1]
    refine .more (pass_variable hg hindex exponent_nil) (.last ?_)
    rw [hterm]
    exact pass_term limits depth hmem
  exact Reader.polynomialOf_of_reads hreads

/-- Digits with a variable run on to them are their product. -/
theorem polynomialOf_runOn (hn : n.IsDigits) : Reader.polynomialOf R limits depth (n ++ g) =
    .ok ((R.constant (R.coefficients.natural n.value)).mul R.coefficients (R.univariate index 1)) := by
  have hread := h.readWithin_digits limits depth hn
  have hmem : K (R.coefficients.natural n.value) := h.readsInto.read_mem hread
  have hproduct : R.CanonicalPoly K ((R.constant (R.coefficients.natural n.value)).mul R.coefficients
      (R.univariate index 1)) :=
    (staysCanonical h.readsInto).mul (canonicalPoly_constant hmem)
      ((staysCanonical h.readsInto).univariate index 1)
  have hreads : Reads R limits depth none (.start R) (Token.ofText (n ++ g))
      (.ok ((R.constant (R.coefficients.natural n.value)).mul R.coefficients (R.univariate index 1),
        .finish) []) := by
    rw [Token.ofText_word (hg.isWord_append hn)]
    refine .more (pass_digits_append h hn hg)
      (.more (pass_variable hg hindex exponent_nil) (.last ?_))
    rw [multiply_coefficient_one h.unital hmem]
    exact pass_term limits depth hproduct
  exact Reader.polynomialOf_of_reads hreads

end

/-- Digits with an unknown symbol run on to them are refused. -/
theorem polynomialOf_unknown (hg : g.IsSymbol) (hindex : R.varIndex? g = none) (hn : n.IsDigits) :
    ∃ e, Reader.polynomialOf R limits depth (n ++ g) = .error e := by
  obtain ⟨fault, hfault⟩ : ∃ fault, R.coefficients.readWithin limits depth g = .error fault := by
    obtain ⟨c, w, rfl, hc, -⟩ := hg.exists_cons
    exact h.exists_fault limits depth List.mem_cons_self hc
  have hreads : Reads R limits depth none (.start R) (Token.ofText (n ++ g))
      ⟨.error (.unknownLiteral 0 g fault), []⟩ := by
    rw [Token.ofText_word (hg.isWord_append hn)]
    exact .more (pass_digits_append h hn hg) (.last (pass_unknown hg hindex hfault))
  exact Reader.polynomialOf_of_reads hreads

end PolyRing

/-! ### Rings with generators -/

/-- A ring with generators that can be run on to digits: such a word is a literal for the product, and
no word that ends with another symbol is a literal. -/
structure Arithmetic.RunsOn {α : Type} (A : Arithmetic α) (C : α → Prop) (names : List Text) : Prop
    extends A.Unital C where
  zero_mul : ∀ c, A.mul A.zero c = A.zero
  isHypercomplex_eq : A.kind.isHypercomplex = false
  digits : ∀ limits depth {n : Text}, n.IsDigits → ∃ c, A.readWithin limits depth n = .ok c
  product : ∀ {limits depth} {n g : Text} {c : α}, n.IsDigits → g.IsSymbol → g ∈ names →
    A.readWithin limits depth n = .ok c →
    ∃ d, A.readWithin limits depth g = .ok d ∧ A.readWithin limits depth (n ++ g) = .ok (A.mul c d)
  refused : ∀ limits depth {n x : Text}, n.IsDigits → x.IsSymbol → x ∉ names →
    ∃ fault, A.readWithin limits depth (n ++ x) = .error fault

section

variable {α S : Type} [CommRing S] {K : α → Prop} {f : α → S} {inverse : α → Except RingFault α}

/-- Polynomials with the variables as generators. -/
theorem PolyRing.runsOn {R : PolyRing α} (h : R.coefficients.Extendable K f inverse) :
    R.arithmetic.RunsOn (R.CanonicalPoly K) R.vars where
  toUnital := unital_arithmetic h.unital
  zero_mul _ := rfl
  isHypercomplex_eq := rfl
  digits limits depth n hn := ⟨_, congrArg (Except.mapError _) (polynomialOf_digits h limits depth hn)⟩
  product {limits depth n g c} hn hg hmem hc := by
    obtain ⟨index, hindex⟩ := exists_varIndex? hmem
    have hdigits : R.arithmetic.readWithin limits depth n =
        .ok (R.constant (R.coefficients.natural n.value)) :=
      congrArg (Except.mapError _) (polynomialOf_digits h limits depth hn)
    obtain rfl := Except.ok.inj (hc.symm.trans hdigits)
    exact ⟨R.univariate index 1,
      congrArg (Except.mapError _) (polynomialOf_variable h limits depth hg hindex),
      congrArg (Except.mapError _) (polynomialOf_runOn h limits depth hg hindex hn)⟩
  refused limits depth n x hn hx hmem := by
    obtain ⟨e, he⟩ := polynomialOf_unknown h limits depth hx (varIndex?_eq_none hmem) hn
    exact ⟨.expression e, congrArg (Except.mapError _) he⟩

namespace Extension

variable {A : Arithmetic α} {E : Extension α} (base : A.Extendable K f inverse) (hE : E.Defined A K)
include hE

omit [CommRing S] in
/-- A constant is a residue. -/
theorem reduce_constant (c : α) : E.reduce A ((E.ring A).constant c) = (E.ring A).constant c := by
  apply reduce_of_top_lt
  intro top lead htop
  have hpos : 0 < E.degree := UInt64.pos_iff_ne_zero.2 hE.degree_ne_zero
  unfold PolyRing.constant Poly.monomial Poly.top? at htop
  split at htop
  · contradiction
  · obtain ⟨rfl, -⟩ := Prod.mk.inj (Option.some.inj htop)
    exact hpos

include base

/-- Reducing a factor does not change the remainder of a product with a constant. -/
theorem reduce_constant_mul {c : α} (hc : K c) {q : Poly α} (hq : Poly.CanonicalOver A K 1 q) :
    E.reduce A (Poly.mul A ((E.ring A).constant c) (E.reduce A q)) =
      E.reduce A (Poly.mul A ((E.ring A).constant c) q) := by
  have hrep := base.represents
  have hconstant : Poly.CanonicalOver A K 1 ((E.ring A).constant c) :=
    PolyRing.canonicalPoly_constant (R := E.ring A) hc
  have hexact : ∀ {p : Poly α}, Poly.CanonicalOver A K 1 p →
      (Poly.mul A ((E.ring A).constant c) p).exact f = Polynomial.C (f c) * p.exact f := by
    intro p hp
    have hC : ((E.ring A).constant c).exact f = Polynomial.C (f c) := Poly.exact_monomial hrep 0 c
    rw [← hC]
    apply Poly.exact_mul hrep hconstant hp
    rw [hC]
    exact (Polynomial.natDegree_C_mul_le _ _).trans_lt (p.natDegree_exact_lt f)
  have hreduced := (isResidue_reduce hrep.ringLaws base.one_ne_zero hE hq).canonical
  have hmul : ∀ {p : Poly α}, Poly.CanonicalOver A K 1 p →
      Poly.CanonicalOver A K 1 (Poly.mul A ((E.ring A).constant c) p) := fun hp =>
    Poly.CanonicalOver.mul hconstant hrep.ringLaws hp
  rw [reduce_eq_iff hrep base.one_ne_zero hE (hmul hreduced) (hmul hq), residueClass, residueClass,
    hexact hreduced, hexact hq, map_mul, map_mul]
  exact congrArg _ (residueClass_reduce hrep base.one_ne_zero hE hq)

/-- Residues of polynomials in a generator. -/
theorem runsOn : (E.arithmetic A).RunsOn (E.IsResidue A K) [E.generator] := by
  have hring : (E.ring A).arithmetic.RunsOn ((E.ring A).CanonicalPoly K) [E.generator] :=
    PolyRing.runsOn (R := E.ring A) base
  constructor
  case toUnital => exact unital_arithmetic base.unital base.represents.ringLaws hE
  case zero_mul => exact fun _ => rfl
  case isHypercomplex_eq => rfl
  case digits =>
    intro limits depth n hn
    obtain ⟨c, hc⟩ := hring.digits limits depth hn
    exact ⟨E.reduce A c, congrArg (Except.map (E.reduce A)) hc⟩
  case product =>
    intro limits depth n g c hn hg hmem hc
    have hdigits : (E.ring A).arithmetic.readWithin limits depth n =
        .ok ((E.ring A).constant (A.natural n.value)) :=
      congrArg (Except.mapError _) (PolyRing.polynomialOf_digits (R := E.ring A) base limits depth hn)
    have hnatural : K (A.natural n.value) :=
      base.readsInto.read_mem (base.readWithin_digits limits depth hn)
    obtain ⟨d, hd, hproduct⟩ := hring.product hn hg hmem hdigits
    obtain rfl : (E.ring A).constant (A.natural n.value) = c := by
      have hreduced := congrArg (Except.map (E.reduce A)) hdigits
      rw [← reduce_constant hE (A.natural n.value)]
      exact Except.ok.inj (hreduced.symm.trans hc)
    refine ⟨E.reduce A d, congrArg (Except.map (E.reduce A)) hd, ?_⟩
    refine (congrArg (Except.map (E.reduce A)) hproduct).trans (congrArg Except.ok ?_)
    exact (reduce_constant_mul base hE hnatural (hring.read_mem hd)).symm
  case refused =>
    intro limits depth n x hn hx hmem
    obtain ⟨fault, hfault⟩ := hring.refused limits depth hn hx hmem
    exact ⟨fault, congrArg (Except.map (E.reduce A)) hfault⟩

end Extension

end

/-- So are the coefficients of a descriptor with names. -/
theorem CoefficientRing.Selected.runsOn {limits : Limits} {r : CoefficientRing} (h : r.Selected limits)
    (hnames : r.names ≠ []) : ∃ C, r.arithmetic.RunsOn C r.names := by
  have hdefined : ∀ {α S : Type} [CommRing S] {A : Arithmetic α} {K : α → Prop} {f : α → S}
      {inverse : α → Except RingFault α} {E : Extension α}, A.Extendable K f inverse →
      E.Made A K inverse → E.Defined A K := fun base hE =>
    Extension.defined_of_make (fun _ hb => base.mul_inverse hb)
      (hE.regular.canonicalOver (PolyRing.closed_supports _)) hE.make_eq
  cases r with
  | function vars => exact ⟨_, PolyRing.runsOn (R := functionRing vars) .rational⟩
  | algebraicRational E => exact ⟨_, Extension.runsOn .rational (hdefined .rational h)⟩
  | algebraicModular m E => exact ⟨_, Extension.runsOn (.big m) (hdefined (.big m) h)⟩
  | _ => exact absurd rfl hnames

/-! ### Polynomials -/

namespace PolyRing

open Grammar

variable {α : Type} {R : PolyRing α} {C : α → Prop} {names : List Text}
  (h : R.coefficients.RunsOn C names) {limits : Limits} {depth : Nat} {n e : Text} {c : α} {k : UInt64}
  (hn : n.IsDigits) (hc : R.coefficients.readWithin limits depth n = .ok c) (hk : Text.word? e = some k)
include h hn hk

/-- If a generator is run on to digits, an exponent raises their product. -/
theorem polynomialOf_raised {g : Text} {c : α} (hg : g.IsSymbol)
    (hc : R.coefficients.readWithin limits depth (n ++ g) = .ok c) :
    Reader.polynomialOf R limits depth (n ++ g ++ '^' :: e) =
      .ok (R.constant (R.coefficients.pow c k)) := by
  have hmem : C c := h.read_mem hc
  have hreads : Reads R limits depth none (.start R) (Token.ofText (n ++ g ++ '^' :: e))
      (.ok (R.constant (R.coefficients.pow c k), .finish) []) := by
    rw [Token.ofText_power (hg.isWord_append hn) hk]
    obtain ⟨d, w, rfl, hd⟩ := hn.exists_cons
    refine .more (pass_numeral hd h.isHypercomplex_eq hc (exponent_caret hk)) (.last ?_)
    rw [Accumulator.settle_of_not_sign rfl, multiply_coefficient h.toUnital hmem]
    exact pass_term limits depth (canonicalPoly_constant (h.closed.pow hmem k))
  exact Reader.polynomialOf_of_reads hreads

include hc

/-- Behind a blank, the exponent raises the generator alone. -/
theorem polynomialOf_spaced {g : Text} {d : α} (hg : g.IsSymbol) (hvars : g ∉ R.vars)
    (hd : R.coefficients.readWithin limits depth g = .ok d) :
    Reader.polynomialOf R limits depth (n ++ ' ' :: g ++ '^' :: e) =
      .ok (R.constant (R.coefficients.mul c (R.coefficients.pow d k))) := by
  have hmem : C c := h.read_mem hc
  have hproduct : C (R.coefficients.mul c (R.coefficients.pow d k)) :=
    h.closed.mul hmem (h.closed.pow (h.read_mem hd) k)
  have hreads : Reads R limits depth none (.start R) (Token.ofText (n ++ ' ' :: g ++ '^' :: e))
      (.ok (R.constant (R.coefficients.mul c (R.coefficients.pow d k)), .finish) []) := by
    rw [List.append_assoc, List.cons_append, Token.ofText_word_append hn.isWord Text.apart_cons,
      Token.ofText_blank_cons (by decide), Token.ofText_power hg.1 hk]
    obtain ⟨digit, w, rfl, hdigit⟩ := hn.exists_cons
    refine .more (pass_numeral hdigit h.isHypercomplex_eq hc (k := 1) rfl)
      (.more (pass_literal hg (varIndex?_eq_none hvars) hd (exponent_caret hk)) (.last ?_))
    rw [Accumulator.settle_of_not_sign rfl, Accumulator.settle_of_not_sign rfl,
      multiply_coefficient_one h.toUnital hmem]
    simp only [Accumulator.multiply, constant_scale h.zero_mul]
    exact pass_term limits depth (canonicalPoly_constant hproduct)
  exact Reader.polynomialOf_of_reads hreads

/-- If a variable is run on to digits, the exponent is the variable's. -/
theorem polynomialOf_declared {x : Text} {index : Nat} (hx : x.IsSymbol) (hnames : x ∉ names)
    (hindex : R.varIndex? x = some index) :
    Reader.polynomialOf R limits depth (n ++ x ++ '^' :: e) =
      .ok ((R.constant c).mul R.coefficients (R.univariate index k)) := by
  have hmem : C c := h.read_mem hc
  have hproduct : R.CanonicalPoly C ((R.constant c).mul R.coefficients (R.univariate index k)) :=
    (staysCanonical h.toReadsInto).mul (canonicalPoly_constant hmem)
      ((staysCanonical h.toReadsInto).univariate index k)
  have hreads : Reads R limits depth none (.start R) (Token.ofText (n ++ x ++ '^' :: e))
      (.ok ((R.constant c).mul R.coefficients (R.univariate index k), .finish) []) := by
    rw [Token.ofText_power (hx.isWord_append hn) hk]
    obtain ⟨fault, hfault⟩ := h.refused limits depth hn hx hnames
    have hsplit := hx.splitJuxtaposed?_append hn
    obtain ⟨digit, w, rfl, hdigit⟩ := hn.exists_cons
    refine .more (pass_runOn hdigit h.isHypercomplex_eq hfault hsplit hc)
      (.more (pass_variable hx hindex (exponent_caret hk)) (.last ?_))
    rw [Accumulator.settle_of_not_sign rfl, multiply_coefficient_one h.toUnital hmem]
    exact pass_term limits depth hproduct
  exact Reader.polynomialOf_of_reads hreads

end PolyRing

/-- Over function coefficients and algebraic numbers, digits and a generator with an exponent are a
constant. Without a blank between them the exponent raises their product, and with a blank the
generator alone, as it does behind digits with a variable run on to them. -/
theorem exponents_raise_run_on_products {r : CoefficientRing} {selection : Limits}
    (hr : r.Selected selection) {g : Text} (hg : g.IsSymbol) (hname : g ∈ r.names) {vars : List Text}
    (hvars : g ∉ vars) (order : TermOrder) (limits : Limits) (depth : Nat) {n e : Text} (hn : n.IsDigits)
    {k : UInt64} (hk : Text.word? e = some k) :
    let A := r.arithmetic
    let R : PolyRing r.Elem := ⟨A, vars, order⟩
    ∃ c d, A.readWithin limits depth n = .ok c ∧ A.readWithin limits depth g = .ok d ∧
      Reader.polynomialOf R limits depth (n ++ g ++ '^' :: e) =
        .ok (R.constant (A.pow (A.mul c d) k)) ∧
      Reader.polynomialOf R limits depth (n ++ ' ' :: g ++ '^' :: e) =
        .ok (R.constant (A.mul c (A.pow d k))) ∧
      ∀ x ∈ vars, x.IsSymbol → x ∉ r.names → ∃ index, R.varIndex? x = some index ∧
        Reader.polynomialOf R limits depth (n ++ x ++ '^' :: e) =
          .ok ((R.constant c).mul A (R.univariate index k)) := by
  intro A R
  obtain ⟨C, h⟩ := hr.runsOn (List.ne_nil_of_mem hname)
  have h : R.coefficients.RunsOn C r.names := h
  obtain ⟨c, hc⟩ := h.digits limits depth hn
  obtain ⟨d, hd, hproduct⟩ := h.product hn hg hname hc
  refine ⟨c, d, hc, hd, PolyRing.polynomialOf_raised h hn hk hg hproduct,
    PolyRing.polynomialOf_spaced h hn hc hk hg hvars hd, fun x hx hsymbol hother => ?_⟩
  obtain ⟨index, hindex⟩ := PolyRing.exists_varIndex? (R := R) hx
  exact ⟨index, hindex, PolyRing.polynomialOf_declared h hn hc hk hsymbol hother hindex⟩

/-- Functions of two generators, behind a numeral of two digits. -/
theorem run_on_function_coefficients :
    let r : CoefficientRing := .function ["a".toList, "b1".toList]
    let A := r.arithmetic
    let R : PolyRing r.Elem := ⟨A, ["x".toList], {}⟩
    r.Selected {} ∧ Text.IsSymbol "b1".toList ∧ "b1".toList ∈ r.names ∧ "b1".toList ∉ R.vars ∧
      Text.IsDigits "12".toList ∧ Text.word? "3".toList = some 3 ∧
      ∃ c d, A.readWithin {} 0 "12".toList = .ok c ∧ A.readWithin {} 0 "b1".toList = .ok d ∧
        Reader.polynomialOf R {} 0 "12b1^3".toList = .ok (R.constant (A.pow (A.mul c d) 3)) ∧
        Reader.polynomialOf R {} 0 "12 b1^3".toList = .ok (R.constant (A.mul c (A.pow d 3))) ∧
        ∃ index, R.varIndex? "x".toList = some index ∧ Reader.polynomialOf R {} 0 "12x^3".toList =
          .ok ((R.constant c).mul A (R.univariate index 3)) := by
  intro r A R
  have hr : r.Selected {} := ⟨by decide, by decide⟩
  have hg : Text.IsSymbol "b1".toList := by decide +kernel
  have hname : "b1".toList ∈ r.names := by decide
  have hvars : "b1".toList ∉ R.vars := by decide
  have hn : Text.IsDigits "12".toList := by decide
  have hk : Text.word? "3".toList = some 3 := by decide
  obtain ⟨c, d, hc, hd, hraised, hspaced, hdeclared⟩ :=
    exponents_raise_run_on_products hr hg hname hvars {} {} 0 hn hk
  refine ⟨hr, hg, hname, hvars, hn, hk, c, d, hc, hd, hraised, hspaced, ?_⟩
  exact hdeclared "x".toList List.mem_cons_self (by decide +kernel) (by decide)

/-- With a generator `a`, the text `2a^2` is four times its square, and `2 a^2` twice its square. -/
theorem run_on_square_differs :
    let r : CoefficientRing := .function ["a".toList]
    let R : PolyRing r.Elem := ⟨r.arithmetic, ["x".toList], {}⟩
    let four : Poly r.Elem := ⟨[([0], (⟨[([2], 4)]⟩ : Poly Rat))]⟩
    let two : Poly r.Elem := ⟨[([0], (⟨[([2], 2)]⟩ : Poly Rat))]⟩
    (∃ s, Reader.polynomial R (.ofText "2a^2".toList) = .ok four s) ∧
      (∃ s, Reader.polynomial R (.ofText "2 a^2".toList) = .ok two s) ∧ four ≠ two :=
  ⟨Reader.exists_eq_ok (by decide +kernel), Reader.exists_eq_ok (by decide +kernel), by decide +kernel⟩

end PolynomialText
