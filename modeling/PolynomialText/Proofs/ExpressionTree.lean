import PolynomialText.Proofs.CoefficientRings
import PolynomialText.Proofs.Powers
import PolynomialText.Proofs.Spelling

/-!
# Expression trees

An expression tree is a sum of signed products, whose factors are numerals, variables, literals in
braces and trees in parentheses, each with an optional exponent. A tree has a value, computed from
the leaves up in the ring of polynomials, and tokens, which are its written form. The main lemma
says that reading the tokens takes an accumulator to the value: a sign in front of a factor may be
given to the term in front of it, and the terms may be added one after the other.
-/

namespace PolynomialText

/-- A sign in front of a term or a factor. -/
inductive Sign where
  | plus
  | minus
  deriving DecidableEq

/-- A sign as a token. -/
def Sign.token : Sign → Token
  | plus => .op '+'
  | minus => .op '-'

/-- A sign applied to an element of a ring. -/
def Sign.apply {α : Type} (A : Arithmetic α) (sign : Sign) (a : α) : α :=
  match sign with
  | plus => a
  | minus => A.neg a

/-- Signs in front of an element, the last one applied first. -/
def Sign.applyAll {α : Type} (A : Arithmetic α) (signs : List Sign) (a : α) : α :=
  signs.foldr (Sign.apply A) a

/-- The exponent of a factor. -/
inductive Tree.Exponent where
  | none
  /-- Digits behind a caret. -/
  | caret (digits : Text) (k : UInt64)
  /-- Digits behind two stars. -/
  | stars (digits : Text) (k : UInt64)

mutual

/-- A factor of a product without its exponent. -/
inductive Tree.Atom (α : Type) where
  | numeral (digits : Text)
  | variable (index : Nat)
  /-- A literal in braces, and the coefficient that it is. -/
  | forced (literal : Text) (c : α)
  | group (e : Tree.Sum α)

/-- Factors joined by stars or by standing side by side. -/
inductive Tree.Product (α : Type) where
  | factor (a : Tree.Atom α) (k : Tree.Exponent)
  | star (p : Tree.Product α) (signs : List Sign) (a : Tree.Atom α) (k : Tree.Exponent)
  | beside (p : Tree.Product α) (a : Tree.Atom α) (k : Tree.Exponent)

/-- Signed products, added or subtracted. -/
inductive Tree.Sum (α : Type) where
  | term (signs : List Sign) (p : Tree.Product α)
  | next (e : Tree.Sum α) (sign : Sign) (signs : List Sign) (p : Tree.Product α)

end

namespace Tree

variable {α : Type} (R : PolyRing α)

/-! ### Values -/

/-- A power with the exponent, if there is one. -/
def Exponent.eval (p : Poly α) : Exponent → Poly α
  | .none => p
  | .caret _ k => R.pow p k
  | .stars _ k => R.pow p k

mutual

/-- The value of an atom. -/
def Atom.eval : Atom α → Poly α
  | .numeral digits => R.constant (R.coefficients.natural digits.value)
  | .variable index => R.univariate index 1
  | .forced _ c => R.constant c
  | .group e => e.eval

/-- The value of a product, multiplied in the written order. -/
def Product.eval : Product α → Poly α
  | .factor a k => k.eval R a.eval
  | .star p signs a k => R.arithmetic.mul p.eval (Sign.applyAll R.arithmetic signs (k.eval R a.eval))
  | .beside p a k => R.arithmetic.mul p.eval (k.eval R a.eval)

/-- The value of a sum. -/
def Sum.eval : Sum α → Poly α
  | .term signs p => Sign.applyAll R.arithmetic signs p.eval
  | .next e sign signs p => R.arithmetic.add e.eval (Sign.applyAll R.arithmetic (sign :: signs) p.eval)

end

/-! ### Written form -/

/-- The tokens of an exponent. -/
def Exponent.tokens : Exponent → List Token
  | .none => []
  | .caret digits _ => [.op '^', .word digits]
  | .stars digits _ => [.op '*', .op '*', .word digits]

mutual

/-- The tokens of an atom. -/
def Atom.tokens : Atom α → List Token
  | .numeral digits => [.word digits]
  | .variable index => [.word (R.vars.getD index [])]
  | .forced literal _ => .op '\x7b' :: (Token.ofText literal ++ [.op '\x7d'])
  | .group e => .op '(' :: (e.tokens ++ [.op ')'])

/-- The tokens of a product. -/
def Product.tokens : Product α → List Token
  | .factor a k => a.tokens ++ k.tokens
  | .star p signs a k => p.tokens ++ .op '*' :: (signs.map Sign.token ++ (a.tokens ++ k.tokens))
  | .beside p a k => p.tokens ++ (a.tokens ++ k.tokens)

/-- The tokens of a sum. -/
def Sum.tokens : Sum α → List Token
  | .term signs p => signs.map Sign.token ++ p.tokens
  | .next e sign signs p => e.tokens ++ ((sign :: signs).map Sign.token ++ p.tokens)

end

mutual

/-- The nesting of parentheses and braces in an atom. -/
def Atom.depth : Atom α → Nat
  | .numeral _ => 0
  | .variable _ => 0
  | .forced _ _ => 1
  | .group e => e.depth + 1

/-- The nesting of parentheses and braces in a product. -/
def Product.depth : Product α → Nat
  | .factor a _ => a.depth
  | .star p _ a _ => max p.depth a.depth
  | .beside p a _ => max p.depth a.depth

/-- The nesting of parentheses and braces in a sum. -/
def Sum.depth : Sum α → Nat
  | .term _ p => p.depth
  | .next e _ _ p => max e.depth p.depth

end

/-! ### Well-formed trees -/

/-- The digits of an exponent are its 64-bit number. -/
def Exponent.WellFormed : Exponent → Prop
  | .none => True
  | .caret digits k => Text.word? digits = some k
  | .stars digits k => Text.word? digits = some k

mutual

/-- Numerals are digits, variables are declared, and literals are accepted by the coefficients. -/
def Atom.WellFormed : Atom α → Prop
  | .numeral digits => digits ≠ [] ∧ ∀ c ∈ digits, c.isDigit = true
  | .variable index => index < R.nvars
  | .forced literal c => (∀ d ∈ literal, IsLiteralChar d) ∧ R.coefficients.read literal = .ok c
  | .group e => e.WellFormed

/-- Every factor of a product is well formed. -/
def Product.WellFormed : Product α → Prop
  | .factor a k => a.WellFormed ∧ k.WellFormed
  | .star p _ a k => p.WellFormed ∧ a.WellFormed ∧ k.WellFormed
  | .beside p a k => p.WellFormed ∧ a.WellFormed ∧ k.WellFormed

/-- Every product of a sum is well formed. -/
def Sum.WellFormed : Sum α → Prop
  | .term _ p => p.WellFormed
  | .next e _ _ p => e.WellFormed ∧ p.WellFormed

end

end Tree

/-! ### Signs -/

namespace Arithmetic.RingLaws

variable {α : Type} {A : Arithmetic α} {C : α → Prop} (h : A.RingLaws C)
include h

/-- A signed canonical element is canonical. -/
theorem apply_mem {a : α} (ha : C a) (sign : Sign) : C (sign.apply A a) := by
  cases sign with
  | plus => exact ha
  | minus => exact h.neg_mem ha

/-- A canonical element behind signs is canonical. -/
theorem applyAll_mem {a : α} (ha : C a) (signs : List Sign) : C (Sign.applyAll A signs a) := by
  induction signs with
  | nil => exact ha
  | cons sign signs ih => exact h.apply_mem ih sign

/-- Signs taken by the left factor one after the other may stand in front of the right factor. -/
theorem foldl_apply_mul {a b : α} (ha : C a) (hb : C b) (signs : List Sign) :
    A.mul (signs.foldl (fun c sign => sign.apply A c) a) b = A.mul a (Sign.applyAll A signs b) := by
  induction signs generalizing a with
  | nil => rfl
  | cons sign signs ih =>
    have hsigned := h.applyAll_mem hb signs
    rw [List.foldl_cons, ih (h.apply_mem ha sign)]
    cases sign with
    | plus => rfl
    | minus => exact (h.neg_mul ha hsigned).trans (h.mul_neg ha hsigned).symm

/-- An element stays canonical when it takes signs. -/
theorem foldl_apply_mem {a : α} (ha : C a) (signs : List Sign) :
    C (signs.foldl (fun c sign => sign.apply A c) a) := by
  induction signs generalizing a with
  | nil => exact ha
  | cons sign signs ih => exact ih (h.apply_mem ha sign)

end Arithmetic.RingLaws

/-! ### What the tokens do -/

namespace Accumulator

variable {α : Type} (R : PolyRing α)

/-- The term multiplied by a polynomial from the right. -/
def times (acc : Accumulator α) (q : Poly α) : Accumulator α :=
  ⟨acc.sum, R.arithmetic.mul acc.term q, true⟩

/-- The term behind signs. -/
def signed (acc : Accumulator α) (signs : List Sign) : Accumulator α :=
  { acc with term := signs.foldl (fun p sign => sign.apply R.arithmetic p) acc.term }

variable {R} {C : α → Prop} (h : R.coefficients.RingLaws C)
include h

/-- A power of a coefficient multiplies the term. -/
theorem multiply_coefficient {acc : Accumulator α} (hterm : R.CanonicalPoly C acc.term) {c : α}
    (hc : C c) (k : UInt64) :
    acc.multiply R (.coefficient c) k = acc.times R (R.pow (R.constant c) k) := by
  rw [PolyRing.pow_constant h hc, times, multiply,
    ← PolyRing.scale_eq_mul_constant h hterm (h.closed.pow hc k)]

/-- A power of a variable multiplies the term. -/
theorem multiply_variable (acc : Accumulator α) (index : Nat) (k : UInt64) :
    acc.multiply R (.variable index) k = acc.times R (R.pow (R.univariate index 1) k) := by
  rw [PolyRing.pow_univariate h]
  rfl

end Accumulator

/-- The power one of a canonical polynomial is the polynomial. -/
theorem PolyRing.pow_one {α : Type} {R : PolyRing α} {C : α → Prop} (h : R.coefficients.RingLaws C)
    {p : Poly α} (hp : R.CanonicalPoly C p) : R.pow p 1 = p :=
  (R.arithmetic.pow_one p).trans ((PolyRing.ringLaws h).one_mul hp)

namespace Tree

/-- The number of an exponent, one if there is none. -/
def Exponent.value : Exponent → UInt64
  | .none => 1
  | .caret _ k => k
  | .stars _ k => k

/-- The power that an exponent stands for. -/
theorem Exponent.pow_value {α : Type} {R : PolyRing α} {C : α → Prop}
    (h : R.coefficients.RingLaws C) {p : Poly α} (hp : R.CanonicalPoly C p) (k : Exponent) :
    R.pow p k.value = k.eval R p := by
  cases k with
  | none => exact PolyRing.pow_one h hp
  | caret digits k => rfl
  | stars digits k => rfl

/-- An exponent is read up to tokens that start none. -/
theorem Exponent.takes {limits : Limits} {depth : Nat} {rest : List Token} {k : Exponent}
    (hk : k.WellFormed) (hrest : Unraised rest) :
    Reader.Takes Reader.exponent (Session.At limits depth (k.tokens ++ rest)) k.value
      (Session.At limits depth rest) := by
  cases k with
  | none => exact Reader.takes_exponent_none hrest
  | caret digits k => exact Reader.takes_exponent_caret hk
  | stars digits k => exact Reader.takes_exponent_stars hk

/-- A token that starts an atom: a word, a brace or a parenthesis. -/
def StartsAtom (t : Token) : Prop := t = .op '\x7b' ∨ t = .op '(' ∨ ∃ c w, t = .word (c :: w) ∧ c ≠ '*'

/-- Behind a star, a token that starts an atom doubles no star. -/
theorem StartsAtom.exists_lexeme {t : Token} (ht : StartsAtom t) :
    ∃ c w, ¬ t.IsQuoted ∧ t.lexeme = c :: w ∧ c ≠ '*' := by
  rcases ht with rfl | rfl | ⟨c, w, rfl, hc⟩
  · exact ⟨_, _, id, rfl, by decide⟩
  · exact ⟨_, _, id, rfl, by decide⟩
  · exact ⟨c, w, id, rfl, hc⟩

/-- Neither an exponent nor a sign starts where an atom starts. -/
theorem StartsAtom.continues {t : Token} (ht : StartsAtom t) (rest : List Token) :
    Unraised (t :: rest) ∧ signAhead (t :: rest) = false := by
  have hne : ∀ c, c ≠ '\x7b' → c ≠ '(' → t ≠ .op c := by
    rintro c hbrace hparen rfl
    rcases ht with heq | heq | ⟨_, _, heq, _⟩
    · exact hbrace (Token.op.inj heq)
    · exact hparen (Token.op.inj heq)
    · contradiction
  refine ⟨unraised_of_headD_ne (hne _ (by decide) (by decide)) (hne _ (by decide) (by decide)), ?_⟩
  simp [signAhead, hne '-' (by decide) (by decide), hne '+' (by decide) (by decide)]

/-! ### Reading a tree -/

variable {α : Type} {R : PolyRing α} {C : α → Prop} (h : R.coefficients.NumberRing C)
include h

/-- A power of a canonical polynomial is canonical. -/
theorem Exponent.eval_mem {p : Poly α} (hp : R.CanonicalPoly C p) (k : Exponent) :
    R.CanonicalPoly C (k.eval R p) := by
  have hpow : ∀ k, R.CanonicalPoly C (R.pow p k) := (PolyRing.ringLaws h.laws).closed.pow hp
  cases k with
  | none => exact hp
  | caret digits k => exact hpow k
  | stars digits k => exact hpow k

mutual

/-- The value of an atom is canonical. -/
theorem Atom.eval_mem : ∀ a : Atom α, a.WellFormed R → R.CanonicalPoly C (a.eval R)
  | .numeral digits, hwf => by
    rw [Atom.WellFormed] at hwf
    rw [Atom.eval]
    exact PolyRing.canonicalPoly_constant (h.read_mem (h.read_digits hwf.1 hwf.2))
  | .variable index, _ => by
    rw [Atom.eval]
    refine Poly.canonicalOver_iff_regular.2 (Poly.regular_monomial ?_ h.laws.one_mem)
    simp [Exponents.single, Exponents.zero]
  | .forced literal c, hwf => by
    rw [Atom.WellFormed] at hwf
    rw [Atom.eval]
    exact PolyRing.canonicalPoly_constant (h.read_mem hwf.2)
  | .group e, hwf => by
    rw [Atom.WellFormed] at hwf
    rw [Atom.eval]
    exact Sum.eval_mem e hwf

/-- The value of a product is canonical. -/
theorem Product.eval_mem : ∀ p : Product α, p.WellFormed R → R.CanonicalPoly C (p.eval R)
  | .factor a k, hwf => by
    rw [Product.WellFormed] at hwf
    rw [Product.eval]
    exact Exponent.eval_mem h (Atom.eval_mem a hwf.1) k
  | .star p signs a k, hwf => by
    rw [Product.WellFormed] at hwf
    rw [Product.eval]
    have hlaws := PolyRing.ringLaws h.laws
    exact hlaws.mul_mem (Product.eval_mem p hwf.1)
      (hlaws.applyAll_mem (Exponent.eval_mem h (Atom.eval_mem a hwf.2.1) k) signs)
  | .beside p a k, hwf => by
    rw [Product.WellFormed] at hwf
    rw [Product.eval]
    exact (PolyRing.ringLaws h.laws).mul_mem (Product.eval_mem p hwf.1)
      (Exponent.eval_mem h (Atom.eval_mem a hwf.2.1) k)

/-- The value of a sum is canonical. -/
theorem Sum.eval_mem : ∀ e : Sum α, e.WellFormed R → R.CanonicalPoly C (e.eval R)
  | .term signs p, hwf => by
    rw [Sum.WellFormed] at hwf
    rw [Sum.eval]
    exact (PolyRing.ringLaws h.laws).applyAll_mem (Product.eval_mem p hwf) signs
  | .next e sign signs p, hwf => by
    rw [Sum.WellFormed] at hwf
    rw [Sum.eval]
    have hlaws := PolyRing.ringLaws h.laws
    exact hlaws.add_mem (Sum.eval_mem e hwf.1)
      (hlaws.applyAll_mem (Product.eval_mem p hwf.2) (sign :: signs))

end

omit h in
/-- Signs in front of a factor go to the term. -/
theorem completes_signs {limits : Limits} {depth : Nat} {acc : Accumulator α} {rest : List Token}
    {out : Poly α × Terminator} {Q : Session → Prop} (signs : List Sign)
    (hrest : Reader.Completes R limits depth (acc.signed R signs) rest out Q) :
    Reader.Completes R limits depth acc (signs.map Sign.token ++ rest) out Q := by
  induction signs generalizing acc with
  | nil => exact hrest
  | cons sign signs ih =>
    cases sign with
    | plus => exact (ih hrest).plus
    | minus =>
      have hnegated : Reader.Completes R limits depth ((acc.negate R).signed R signs) rest out Q :=
        hrest
      exact (ih hnegated).minus

omit h in
/-- The written name of a declared variable. -/
theorem getD_eq_getElem {index : Nat} (hindex : index < R.vars.length) :
    R.vars.getD index [] = R.vars[index] := by
  rw [List.getD_eq_getElem?_getD, List.getElem?_eq_getElem hindex, Option.getD_some]

omit h in
/-- The tokens of an atom start it. -/
theorem Atom.exists_tokens_eq (hnames : R.Named) (a : Atom α) (hwf : a.WellFormed R) :
    ∃ t rest, a.tokens R = t :: rest ∧ StartsAtom t := by
  have hword : ∀ {w : Text}, w ≠ [] → (∀ c ∈ w, isWordChar c = true) → StartsAtom (.word w) := by
    intro w hne hw
    obtain ⟨c, rest, rfl⟩ := List.exists_cons_of_ne_nil hne
    refine .inr (.inr ⟨c, rest, rfl, ?_⟩)
    rintro rfl
    exact absurd (hw _ List.mem_cons_self) (by decide)
  cases a with
  | numeral digits =>
    rw [Atom.WellFormed] at hwf
    rw [Atom.tokens]
    exact ⟨_, _, rfl, hword hwf.1 fun c hc => isWordChar_of_isDigit (hwf.2 c hc)⟩
  | «variable» index =>
    rw [Atom.WellFormed] at hwf
    rw [Atom.tokens, getD_eq_getElem hwf]
    have hname := (hnames.isName _ (List.getElem_mem hwf)).1
    exact ⟨_, _, rfl, hword hname.1 hname.2⟩
  | forced literal c =>
    rw [Atom.tokens]
    exact ⟨_, _, rfl, .inl rfl⟩
  | group e =>
    rw [Atom.tokens]
    exact ⟨_, _, rfl, .inr (.inl rfl)⟩

/-- A literal that the ring reads is read inside an expression. -/
theorem readWithin_of_read {t : Text} {c : α} (hc : R.coefficients.read t = .ok c) (limits : Limits)
    (depth : Nat) : R.coefficients.readWithin limits depth t = .ok c := by
  rw [h.readWithin_eq, hc]
  rfl

end Tree

section

variable {α : Type} (R : PolyRing α) (C : α → Prop) (limits : Limits)

/-- Reading the atom with an exponent multiplies the term by its value. -/
def Tree.Atom.Multiplies (a : Tree.Atom α) : Prop :=
  ∀ {depth : Nat} {acc : Accumulator α} {k : Tree.Exponent} {rest : List Token}
    {out : Poly α × Terminator} {Q : Session → Prop}, k.WellFormed →
    depth + a.depth ≤ limits.maxDepth.toNat → R.CanonicalPoly C acc.term → Unraised rest →
    Reader.Completes R limits depth ((acc.times R (k.eval R (a.eval R))).settle R rest) rest out Q →
    Reader.Completes R limits depth acc (a.tokens R ++ (k.tokens ++ rest)) out Q

/-- Reading the product multiplies the term by its value. -/
def Tree.Product.Multiplies (p : Tree.Product α) : Prop :=
  ∀ {depth : Nat} {acc : Accumulator α} {rest : List Token} {out : Poly α × Terminator}
    {Q : Session → Prop}, depth + p.depth ≤ limits.maxDepth.toNat → R.CanonicalPoly C acc.term →
    Unraised rest →
    Reader.Completes R limits depth ((acc.times R (p.eval R)).settle R rest) rest out Q →
    Reader.Completes R limits depth acc (p.tokens R ++ rest) out Q

/-- Reading the sum from the start on collects its value. -/
def Tree.Sum.Collects (e : Tree.Sum α) : Prop :=
  ∀ {depth : Nat} {rest : List Token} {out : Poly α × Terminator} {Q : Session → Prop},
    depth + e.depth ≤ limits.maxDepth.toNat → Unraised rest →
    (∀ acc : Accumulator α, acc.total R = e.eval R →
      Reader.Completes R limits depth (acc.settle R rest) rest out Q) →
    Reader.Completes R limits depth (.start R) (e.tokens R ++ rest) out Q

end

namespace Tree

variable {α : Type} {R : PolyRing α} {C : α → Prop} (h : R.coefficients.NumberRing C)
  {limits : Limits}

include h in
/-- A numeral multiplies the term by its value. -/
theorem Atom.multiplies_numeral {digits : Text} (hwf : (Atom.numeral digits).WellFormed R) :
    (Atom.numeral digits).Multiplies R C limits := by
  intro depth acc k rest out Q hk _ hterm hrest hnext
  rw [← Exponent.pow_value h.laws (Atom.eval_mem h _ hwf), Atom.eval] at hnext
  rw [Atom.WellFormed] at hwf
  rw [Atom.tokens]
  have hread := h.read_digits hwf.1 hwf.2
  have hplain : PolyRing.isPlainNumeral digits = true := by
    obtain ⟨c, tail, rfl⟩ := List.exists_cons_of_ne_nil hwf.1
    simp only [PolyRing.isPlainNumeral, List.head?_cons, Option.any_some,
      hwf.2 c List.mem_cons_self, Bool.true_and, List.all_eq_true]
    exact fun d hd => by simp [hwf.2 d hd]
  refine Reader.Completes.numeral (Exponent.takes hk hrest) hplain
    (readWithin_of_read h hread limits depth) ?_
  rwa [Accumulator.multiply_coefficient h.laws hterm (h.read_mem hread)]

include h in
/-- A variable multiplies the term by its value. -/
theorem Atom.multiplies_variable (hnames : R.Named) {index : Nat}
    (hwf : (Atom.variable index : Atom α).WellFormed R) :
    (Atom.variable index).Multiplies R C limits := by
  intro depth acc k rest out Q hk _ _ hrest hnext
  rw [← Exponent.pow_value h.laws (Atom.eval_mem h _ hwf), Atom.eval] at hnext
  rw [Atom.WellFormed] at hwf
  rw [Atom.tokens, getD_eq_getElem hwf]
  refine Reader.Completes.variable (Exponent.takes hk hrest)
    (hnames.isName _ (List.getElem_mem hwf)).2 (PolyRing.varIndex?_getElem hnames.nodup hwf) ?_
  rwa [Accumulator.multiply_variable h.laws]

include h in
/-- A literal in braces multiplies the term by its coefficient. -/
theorem Atom.multiplies_forced {literal : Text} {c : α}
    (hwf : (Atom.forced literal c).WellFormed R) :
    (Atom.forced literal c).Multiplies R C limits := by
  intro depth acc k rest out Q hk hdepth hterm hrest hnext
  rw [← Exponent.pow_value h.laws (Atom.eval_mem h _ hwf), Atom.eval] at hnext
  rw [Atom.WellFormed] at hwf
  rw [Atom.depth] at hdepth
  rw [Atom.tokens, List.cons_append, List.append_assoc, List.singleton_append]
  have hrebuilt : Reader.rebuilt (Token.ofText literal) = literal := Reader.rebuilt_ofText
    fun d hd => ⟨(hwf.1 d hd).1, (hwf.1 d hd).2.1, (hwf.1 d hd).2.2.1, (hwf.1 d hd).2.2.2.1⟩
  have hread := readWithin_of_read h hwf.2 limits (depth + 1)
  refine Reader.Completes.braces (Exponent.takes hk hrest) (Reader.inLiteral_of_mem_ofText hwf.1) hdepth
    (hrebuilt.symm ▸ hread) ?_
  rwa [Accumulator.multiply_coefficient h.laws hterm (h.read_mem hwf.2)]

include h in
/-- A sum in parentheses multiplies the term by its value. -/
theorem Atom.multiplies_group {e : Sum α} (hwf : (Atom.group e).WellFormed R)
    (he : e.Collects R limits) : (Atom.group e).Multiplies R C limits := by
  intro depth acc k rest out Q hk hdepth _ hrest hnext
  rw [← Exponent.pow_value h.laws (Atom.eval_mem h _ hwf), Atom.eval] at hnext
  rw [Atom.depth] at hdepth
  rw [Atom.tokens, List.cons_append, List.append_assoc, List.singleton_append]
  refine Reader.Completes.parentheses (Exponent.takes hk hrest) (by omega) ?_ hnext
  apply he (by omega) (unraised_of_headD_ne (by simp) (by simp))
  intro acc htotal
  rw [← htotal]
  exact Reader.completes_close

/-- A single factor is a product. -/
theorem Product.multiplies_factor {a : Atom α} {k : Exponent} (ha : a.Multiplies R C limits)
    (hk : k.WellFormed) : (Product.factor a k).Multiplies R C limits := by
  intro depth acc rest out Q hdepth hterm hrest hnext
  rw [Product.eval] at hnext
  rw [Product.depth] at hdepth
  rw [Product.tokens, List.append_assoc]
  exact ha hk hdepth hterm hrest hnext

section

variable (hnames : R.Named) {p : Product α} {a : Atom α} {k : Exponent}
  (hp : p.Multiplies R C limits) (ha : a.Multiplies R C limits) (hpwf : p.WellFormed R)
  (hawf : a.WellFormed R) (hk : k.WellFormed)
include h hnames hp ha hpwf hawf hk

/-- A factor behind a star and signs multiplies a product. -/
theorem Product.multiplies_star (signs : List Sign) :
    (Product.star p signs a k).Multiplies R C limits := by
  intro depth acc rest out Q hdepth hterm hrest hnext
  rw [Product.eval] at hnext
  rw [Product.depth] at hdepth
  rw [Product.tokens, List.append_assoc, List.cons_append, List.append_assoc, List.append_assoc]
  have hlaws := PolyRing.ringLaws h.laws
  have hpmem := Product.eval_mem h p hpwf
  have hamem := Exponent.eval_mem h (Atom.eval_mem h a hawf) k
  have hproduct := hlaws.mul_mem hterm hpmem
  have hsigned : ((acc.times R (p.eval R)).signed R signs).times R (k.eval R (a.eval R)) =
      acc.times R (R.arithmetic.mul (p.eval R)
        (Sign.applyAll R.arithmetic signs (k.eval R (a.eval R)))) := by
    simp only [Accumulator.times, Accumulator.signed, Accumulator.mk.injEq, true_and, and_true]
    rw [hlaws.foldl_apply_mul hproduct hamem,
      hlaws.mul_assoc hterm hpmem (hlaws.applyAll_mem hamem signs)]
  have hbehind : Unraised (.op '*' :: (signs.map Sign.token ++ (a.tokens R ++ (k.tokens ++ rest)))) := by
    refine ⟨by simp, fun tail htail => ?_⟩
    rw [← (List.cons.inj htail).2]
    cases signs with
    | nil =>
      obtain ⟨t, others, htokens, hstart⟩ := Atom.exists_tokens_eq hnames a hawf
      obtain ⟨c, w, hquoted, hlexeme, hc⟩ := hstart.exists_lexeme
      refine ⟨t, c, w, others ++ (k.tokens ++ rest), ?_, hquoted, hlexeme, hc⟩
      rw [htokens]
      rfl
    | cons sign signs =>
      cases sign with
      | plus => exact ⟨_, _, _, _, rfl, id, rfl, by decide⟩
      | minus => exact ⟨_, _, _, _, rfl, id, rfl, by decide⟩
  apply hp (by omega) hterm hbehind
  rw [Accumulator.settle_of_not_sign rfl]
  refine Reader.Completes.star (completes_signs signs ?_)
  apply ha hk (by omega) (hlaws.foldl_apply_mem hproduct signs) hrest
  rw [hsigned]
  exact hnext

/-- A factor beside a product multiplies it. -/
theorem Product.multiplies_beside : (Product.beside p a k).Multiplies R C limits := by
  intro depth acc rest out Q hdepth hterm hrest hnext
  rw [Product.eval] at hnext
  rw [Product.depth] at hdepth
  rw [Product.tokens, List.append_assoc, List.append_assoc]
  have hlaws := PolyRing.ringLaws h.laws
  have hpmem := Product.eval_mem h p hpwf
  have hamem := Exponent.eval_mem h (Atom.eval_mem h a hawf) k
  obtain ⟨t, others, htokens, hstart⟩ := Atom.exists_tokens_eq hnames a hawf
  obtain ⟨hunraised, hsign⟩ := hstart.continues (others ++ (k.tokens ++ rest))
  have hbehind : a.tokens R ++ (k.tokens ++ rest) = t :: (others ++ (k.tokens ++ rest)) := by
    rw [htokens]
    rfl
  apply hp (by omega) hterm (hbehind ▸ hunraised)
  rw [Accumulator.settle_of_not_sign (hbehind ▸ hsign)]
  apply ha hk (by omega) (hlaws.mul_mem hterm hpmem) hrest
  rw [Accumulator.times, Accumulator.times, hlaws.mul_assoc hterm hpmem hamem]
  exact hnext

end

include h in
/-- A signed product is a sum. -/
theorem Sum.collects_term {p : Product α} (hp : p.Multiplies R C limits) (hpwf : p.WellFormed R)
    (signs : List Sign) : (Sum.term signs p).Collects R limits := by
  intro depth rest out Q hdepth hrest hnext
  rw [Sum.depth] at hdepth
  rw [Sum.tokens, List.append_assoc]
  have hlaws := PolyRing.ringLaws h.laws
  have hpmem := Product.eval_mem h p hpwf
  refine completes_signs signs (hp hdepth (hlaws.foldl_apply_mem hlaws.one_mem signs) hrest ?_)
  apply hnext
  rw [Sum.eval, ← hlaws.one_mul (hlaws.applyAll_mem hpmem signs),
    ← hlaws.foldl_apply_mul hlaws.one_mem hpmem]
  refine hlaws.zero_add (hlaws.mul_mem ?_ hpmem)
  exact hlaws.foldl_apply_mem hlaws.one_mem signs

include h in
/-- A further signed product is added to a sum. -/
theorem Sum.collects_next {e : Sum α} {p : Product α} (he : e.Collects R limits)
    (hp : p.Multiplies R C limits) (hpwf : p.WellFormed R) (sign : Sign) (signs : List Sign) :
    (Sum.next e sign signs p).Collects R limits := by
  intro depth rest out Q hdepth hrest hnext
  rw [Sum.depth] at hdepth
  rw [Sum.tokens, List.append_assoc, List.append_assoc]
  have hlaws := PolyRing.ringLaws h.laws
  have hpmem := Product.eval_mem h p hpwf
  have hsign : signAhead ((sign :: signs).map Sign.token ++ (p.tokens R ++ rest)) = true := by
    cases sign <;> rfl
  have hbehind : Unraised ((sign :: signs).map Sign.token ++ (p.tokens R ++ rest)) := by
    cases sign with
    | plus => exact unraised_of_headD_ne (by simp [Sign.token]) (by simp [Sign.token])
    | minus => exact unraised_of_headD_ne (by simp [Sign.token]) (by simp [Sign.token])
  apply he (by omega) hbehind
  intro acc htotal
  rw [Accumulator.settle_of_sign hsign, Accumulator.flush, htotal]
  refine completes_signs (sign :: signs) (hp (by omega) ?_ hrest (hnext _ ?_))
  · exact hlaws.foldl_apply_mem hlaws.one_mem (sign :: signs)
  · rw [Sum.eval, ← hlaws.one_mul (hlaws.applyAll_mem hpmem (sign :: signs)),
      ← hlaws.foldl_apply_mul hlaws.one_mem hpmem]
    rfl

section

include h

mutual

/-- Every well-formed atom multiplies the term by its value. -/
theorem Atom.multiplies (hnames : R.Named) : ∀ a : Atom α, a.WellFormed R → a.Multiplies R C limits
  | .numeral _, hwf => Atom.multiplies_numeral h hwf
  | .variable _, hwf => Atom.multiplies_variable h hnames hwf
  | .forced _ _, hwf => Atom.multiplies_forced h hwf
  | .group e, hwf => Atom.multiplies_group h hwf (Sum.collects hnames e (by rwa [Atom.WellFormed] at hwf))

/-- Every well-formed product multiplies the term by its value. -/
theorem Product.multiplies (hnames : R.Named) :
    ∀ p : Product α, p.WellFormed R → p.Multiplies R C limits
  | .factor a k, hwf => by
    rw [Product.WellFormed] at hwf
    exact Product.multiplies_factor (Atom.multiplies hnames a hwf.1) hwf.2
  | .star p signs a k, hwf => by
    rw [Product.WellFormed] at hwf
    exact Product.multiplies_star h hnames (Product.multiplies hnames p hwf.1) (Atom.multiplies hnames a hwf.2.1)
      hwf.1 hwf.2.1 hwf.2.2 signs
  | .beside p a k, hwf => by
    rw [Product.WellFormed] at hwf
    exact Product.multiplies_beside h hnames (Product.multiplies hnames p hwf.1)
      (Atom.multiplies hnames a hwf.2.1) hwf.1 hwf.2.1 hwf.2.2

/-- Every well-formed sum is collected. -/
theorem Sum.collects (hnames : R.Named) : ∀ e : Sum α, e.WellFormed R → e.Collects R limits
  | .term signs p, hwf => by
    rw [Sum.WellFormed] at hwf
    exact Sum.collects_term h (Product.multiplies hnames p hwf) hwf signs
  | .next e sign signs p, hwf => by
    rw [Sum.WellFormed] at hwf
    exact Sum.collects_next h (Sum.collects hnames e hwf.1) (Product.multiplies hnames p hwf.2) hwf.2 sign signs

end

/-- The tokens of a well-formed tree are read as the value of the tree. -/
theorem Sum.takes_polynomial (hnames : R.Named) (e : Sum α) (hwf : e.WellFormed R) {depth : Nat}
    (hdepth : depth + e.depth ≤ limits.maxDepth.toNat) :
    Reader.Takes (Reader.polynomial R) (Session.At limits depth (e.tokens R)) (e.eval R)
      (Session.At limits depth []) := by
  have hcompletes : Reader.Completes R limits depth (.start R) (e.tokens R ++ [])
      (e.eval R, .finish) (Session.At limits depth []) := by
    apply Sum.collects h hnames e hwf hdepth (unraised_of_headD_ne (by simp) (by simp))
    intro acc htotal
    rw [← htotal]
    exact Reader.completes_eof
  rw [List.append_nil] at hcompletes
  exact hcompletes.takes_expression.bind (Reader.Takes.pure _ _)

end

end Tree

/-- Over the rational numbers, the integers, residues, complex numbers and quaternions, with
variables that are different names, every rendering of a well-formed tree within the limit on
nesting is read as the value of the tree. -/
theorem read_expression_eq_eval {r : CoefficientRing} (hr : r.IsNumbers) (vars : List Text)
    (order : TermOrder) (hnodup : vars.Nodup) (hnames : ∀ v ∈ vars, v.IsName) (limits : Limits)
    (e : Tree.Sum r.Elem) (hwf : e.WellFormed ⟨r.arithmetic, vars, order⟩)
    (hdepth : e.depth ≤ limits.maxDepth.toNat) (text : Text)
    (htext : Token.Renders (e.tokens ⟨r.arithmetic, vars, order⟩) text) :
    ∃ s, Reader.polynomial ⟨r.arithmetic, vars, order⟩ (.ofText text limits) =
      .ok (e.eval ⟨r.arithmetic, vars, order⟩) s := by
  have hread : Reader.Takes (Reader.polynomial ⟨r.arithmetic, vars, order⟩)
      (Session.At limits 0 (e.tokens ⟨r.arithmetic, vars, order⟩))
      (e.eval ⟨r.arithmetic, vars, order⟩) (Session.At limits 0 []) :=
    Tree.Sum.takes_polynomial (CoefficientRing.numberRing hr) ⟨hnodup, hnames⟩ e hwf (by omega)
  rw [← htext.ofText_eq] at hread
  obtain ⟨s, hs, _⟩ := hread _ (Session.at_ofText text limits 0)
  exact ⟨s, hs⟩

/-- The products of quaternions in `- {i} * - x ^ 2 {j} ** 3 (x + 1)` are taken as written. -/
theorem read_quaternion_expression :
    let R : PolyRing Quaternion := ⟨Quaternion.arithmetic, [['x']], {}⟩
    let i : Tree.Atom Quaternion := .forced "0i1j0k0".toList ⟨0, 1, 0, 0⟩
    let j : Tree.Atom Quaternion := .forced "0i0j1k0".toList ⟨0, 0, 1, 0⟩
    let group : Tree.Sum Quaternion :=
      .next (.term [] (.factor (.variable 0) .none)) .plus [] (.factor (.numeral ['1']) .none)
    let e : Tree.Sum Quaternion := .term [.minus]
      (.beside (.beside (.star (.factor i .none) [.minus] (.variable 0) (.caret ['2'] 2)) j
        (.stars ['3'] 3)) (.group group) .none)
    Token.Renders (e.tokens R) (Token.spaced (e.tokens R) ++ "# done".toList) ∧
      ∃ s, Reader.polynomial R (.ofText (Token.spaced (e.tokens R) ++ "# done".toList)) =
        .ok (e.eval R) s := by
  intro R i j group e
  have hword : ∀ {w : Text}, w.IsWord → Token.ofText w = [.word w] := fun hw =>
    (Token.spells_word hw).ofText_eq
  have hwritten : ∀ t ∈ e.tokens R, t.Written := by
    simp only [e, i, j, group, R, Tree.Sum.tokens, Tree.Product.tokens, Tree.Atom.tokens,
      Tree.Exponent.tokens, hword (w := "0i1j0k0".toList) (by decide),
      hword (w := "0i0j1k0".toList) (by decide)]
    decide
  have hrenders : Token.Renders (e.tokens R) (Token.spaced (e.tokens R) ++ "# done".toList) :=
    Token.renders_spaced hwritten (by decide)
  have hread : ∀ a : Quaternion, Quaternion.read a.format = .ok a := Quaternion.readFor_format _
  have hi : i.WellFormed R := ⟨Text.forall_mem_of_all, hread ⟨0, 1, 0, 0⟩⟩
  have hj : j.WellFormed R := ⟨Text.forall_mem_of_all, hread ⟨0, 0, 1, 0⟩⟩
  have hx : (Tree.Atom.variable 0 : Tree.Atom Quaternion).WellFormed R := Nat.one_pos
  have hone : (Tree.Atom.numeral ['1'] : Tree.Atom Quaternion).WellFormed R :=
    ⟨List.cons_ne_nil _ _, Text.forall_mem_of_all⟩
  have htwo : Text.word? ['2'] = some 2 := by decide
  have hthree : Text.word? ['3'] = some 3 := by decide
  have hgroup : group.WellFormed R := ⟨⟨hx, trivial⟩, hone, trivial⟩
  have hwf : e.WellFormed R := ⟨⟨⟨⟨hi, trivial⟩, hx, htwo⟩, hj, hthree⟩, hgroup, trivial⟩
  exact ⟨hrenders, read_expression_eq_eval (r := .quaternion) trivial [['x']] {} (by decide)
    (by decide) {} e hwf (by decide) _ hrenders⟩

end PolynomialText
