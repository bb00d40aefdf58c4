import PolynomialText.Proofs.ListComposition
import PolynomialText.Proofs.ResidueMaps

/-!
# Defining polynomials with and without parentheses

The defining polynomial of an extension stands in parentheses, or it runs up to the closing bracket,
and its first token tells which. An expression of its own is the same polynomial either way. The
bracket ends it as the end of a source does, and is left for the descriptor; the closing parenthesis
ends it as well, and is taken. The parentheses cost one level of nesting, and a bare polynomial may
start with a parenthesis only if that encloses all of it.
-/

namespace PolynomialText

/-! ### Inverses -/

/-- A rational number that divides one is inverted. -/
theorem Rational.exists_inverse {a b : Rat} (h : a * b = 1) : ∃ c, inverse a = .ok c := by
  have hne : a ≠ 0 := left_ne_zero_of_mul_eq_one h
  exact ⟨a⁻¹, by rw [inverse, if_neg hne]⟩

/-- A residue that divides one is inverted. -/
theorem BigModulus.exists_inverse (m : BigModulus) {a b : Int}
    (h : m.arithmetic.mul a b = m.arithmetic.one) : ∃ c, m.inverse a = .ok c := by
  have hpos : 0 < m.value := Nat.lt_of_lt_of_le (by decide) m.two_le
  have hone : a * b % m.value = 1 := h
  -- What is left of the product is a multiple of the modulus.
  have hcoprime : IsCoprime a m.value := by
    refine ⟨b, -(a * b / m.value), ?_⟩
    have hdivision := Int.emod_add_mul_ediv (a * b) m.value
    rw [hone] at hdivision
    linear_combination -hdivision
  have hsome := (Residue.isSome_inverse?_iff_gcd hpos a).2 (Int.isCoprime_iff_gcd_eq_one.1 hcoprime)
  obtain ⟨c, hc⟩ := Option.isSome_iff_exists.1 hsome
  exact ⟨c, by simp [inverse, Residue.invert, hc, Except.map]⟩

/-! ### Extensions that can be made -/

/-- The polynomial can define an extension: it is not constant, and its leading coefficient divides
one. -/
def Poly.Defines {α : Type} (A : Arithmetic α) (p : Poly α) : Prop :=
  ∃ degree lead, p.top? = some (degree, lead) ∧ degree ≠ 0 ∧ ∃ b, A.mul lead b = A.one

/-- The tokens between parentheses. -/
def Token.enclosed (tokens : List Token) : List Token := .op '(' :: (tokens ++ [.op ')'])

/-- The tokens of a descriptor of an extension, from its base, its generator and what defines it. -/
def Extension.descriptorTokens (base : List Token) (v : Text) (body : List Token) : List Token :=
  .word "AN".toList :: .op '[' :: (base ++ (nameTokens [v] ++ (body ++ [.op ']'])))

namespace Extension.Base

variable {α : Type} {base : List Token} {A : Arithmetic α} {inverse : α → Except RingFault α}
  {ring : Extension α → CoefficientRing} (h : Base base A inverse ring)
include h

theorem portable : A.Portable := by
  cases h with
  | rational => exact Arithmetic.Extendable.rational.portable
  | @modular w n m => exact (Arithmetic.Extendable.big m).portable

theorem exists_unital : ∃ K, A.Unital K := by
  cases h with
  | rational => exact ⟨_, Arithmetic.Extendable.rational.unital⟩
  | @modular w n m => exact ⟨_, (Arithmetic.Extendable.big m).unital⟩

/-- Over a base every polynomial that can define an extension does. -/
theorem exists_make {v : Text} {p : Poly α} (hp : p.Defines A) :
    ∃ E, Extension.make ⟨A, [v], {}⟩ inverse p = .ok E ∧ E.generator = v ∧ E.modulus = p := by
  obtain ⟨degree, lead, htop, hdegree, b, hb⟩ := hp
  obtain ⟨c, hc⟩ : ∃ c, inverse lead = .ok c := by
    cases h with
    | rational => exact Rational.exists_inverse hb
    | @modular w n m => exact m.exists_inverse hb
  refine ⟨⟨v, {}, p, degree, c⟩, ?_, rfl, rfl⟩
  simp only [Extension.make, htop, if_neg hdegree, hc, Except.map]

end Extension.Base

/-! ### The two forms -/

/-- A parenthesis that the tokens start with encloses all of them: they are an expression of its own
between parentheses. -/
def PolyRing.Unambiguous {α : Type} (R : PolyRing α) (limits : Limits) (tokens : List Token) : Prop :=
  tokens.head? = some (.op '(') → ∃ low inner q, tokens = Token.enclosed inner ∧ R.Accepts low inner q ∧
    low.maxDepth.toNat + 1 ≤ limits.maxDepth.toNat

/-- A text that is read up to its end is an expression of its own. -/
theorem PolyRing.accepts_ofText {α : Type} {R : PolyRing α} {limits : Limits} {t : Text} {p : Poly α}
    (h : ∃ s, Reader.expression R none (.ofText t limits) = .ok (p, .finish) s) :
    R.Accepts limits (Token.ofText t) p := by
  obtain ⟨s, hrun⟩ := h
  exact ⟨_, s, Session.at_ofText t limits 0, hrun⟩

/-- An expression of its own has one value. -/
theorem PolyRing.Accepts.eq_of_reads {α : Type} {R : PolyRing α} {limits : Limits}
    {tokens rest : List Token} {p q : Poly α} (h : R.Accepts limits tokens p)
    (hreads : Grammar.Reads R limits 0 none (.start R) tokens (.ok (q, .finish) rest)) : q = p := by
  obtain ⟨s, s', hs, hrun⟩ := h
  obtain ⟨s'', hrun', -⟩ := Reader.takes_expression_of_reads hreads s hs
  rw [hrun] at hrun'
  exact (Prod.mk.inj (EStateM.Result.ok.inj hrun').1).1.symm

namespace Reader

section

variable {α : Type} {R : PolyRing α} {limits low : Limits} {depth : Nat} {tokens rest : List Token}
  {p : Poly α} (hR : R.coefficients.Portable) (haccepts : R.Accepts low tokens p)
include hR haccepts

/-- Without parentheses the polynomial runs up to the bracket, which is left. -/
theorem takes_definingPolynomial_bare (hgiven : ∀ t ∈ tokens, t.Given false (some ']'))
    (hhead : tokens.head? ≠ some (.op '(')) (hroom : low.room 0 ≤ limits.room depth) :
    Takes (definingPolynomial R) (Session.At limits depth (tokens ++ .op ']' :: rest)) p
      (Session.At limits depth (.op ']' :: rest)) := by
  have hexpression := takes_expression_of_reads (haccepts.reads hR hgiven hroom (.bracket rest))
  obtain ⟨t, more, hcons, ht⟩ : ∃ t more, tokens ++ .op ']' :: rest = t :: more ∧ t ≠ .op '(' := by
    cases tokens with
    | nil => exact ⟨_, _, rfl, by decide⟩
    | cons t tokens => exact ⟨t, _, rfl, fun h => hhead (congrArg some h)⟩
  rw [hcons] at hexpression ⊢
  apply takes_advance.bind
  rw [if_neg ht]
  exact takes_pushBack.bind (hexpression.bind (.pure _ _))

/-- In parentheses it is read one level deeper. -/
theorem takes_definingPolynomial_enclosed (hgiven : ∀ t ∈ Token.enclosed tokens, t.Given false none)
    (hroom : low.room 0 ≤ limits.room (depth + 1)) :
    Takes (definingPolynomial R) (Session.At limits depth (Token.enclosed tokens ++ rest)) p
      (Session.At limits depth rest) := by
  have hinner : ∀ t ∈ tokens, t.Given false none := fun t ht =>
    hgiven t (List.mem_cons_of_mem _ (List.mem_append_left _ ht))
  have hexpression := takes_expression_of_reads (haccepts.reads hR hinner hroom (.close rest))
  have hdepth : depth + 1 ≤ limits.maxDepth.toNat := by
    unfold Limits.room at hroom
    omega
  rw [Token.enclosed, List.cons_append, List.append_assoc]
  exact takes_next.bind ((takes_nested hdepth hexpression).bind (.pure _ _))

end

/-- The extension is read from a descriptor, if its defining polynomial is read there. Behind the
keyword nothing is held, so that all that follows are tokens of a source. -/
theorem takes_coefficientRing_of_defines {α : Type} {base : List Token} {A : Arithmetic α}
    {inverse : α → Except RingFault α} {ring : Extension α → CoefficientRing} {v : Text} {p : Poly α}
    {E : Extension α} {limits : Limits} {depth : Nat} {body rest : List Token}
    (hbase : Extension.Base base A inverse ring)
    (hmake : Extension.make ⟨A, [v], {}⟩ inverse p = .ok E)
    (hp : (∀ t ∈ body, t.Given false none) →
      Takes (definingPolynomial ⟨A, [v], {}⟩) (Session.At limits depth (body ++ .op ']' :: rest)) p
        (Session.At limits depth (.op ']' :: rest))) :
    Takes coefficientRing
      (Session.At limits depth (Extension.descriptorTokens base v body ++ rest)) (ring E)
      (Session.At limits depth rest) := by
  have hdescriptor : Extension.descriptorTokens base v body ++ rest = .word "AN".toList :: .op '[' ::
      (base ++ (nameTokens [v] ++ (body ++ .op ']' :: rest))) := by
    simp [Extension.descriptorTokens]
  rw [hdescriptor]
  apply takes_advance.bind
  intro s hs
  have hfree := hs.toFree
  obtain ⟨text, htext⟩ := hfree.sees.exists_ofText hfree.free
  have hgiven : ∀ t ∈ body, t.Given false none := by
    intro t ht
    apply Token.given_of_mem_ofText (t := text) (by simp)
    rw [htext, List.tail_cons]
    simp [ht]
  exact takes_algebraic hbase (takes_extensionOver_of_make (hp hgiven) hmake) s hs.tail

end Reader

/-- Over the rational numbers and over residues, an expression of its own without a closing bracket
that can define an extension defines it in a descriptor, and exactly what follows the descriptor is
left: as it stands, if it does not start with a parenthesis or is enclosed by it, and in parentheses,
if one level less is enough for it. -/
theorem defining_polynomials_bare_or_enclosed {α : Type} {base : List Token} {A : Arithmetic α}
    {inverse : α → Except RingFault α} {ring : Extension α → CoefficientRing}
    (hbase : Extension.Base base A inverse ring) {v : Text} {limits : Limits} {tokens : List Token}
    {p : Poly α} (haccepts : PolyRing.Accepts ⟨A, [v], {}⟩ limits tokens p) (hdefines : p.Defines A)
    (hclosing : Token.op ']' ∉ tokens) :
    ∃ E : Extension α, E.generator = v ∧ E.modulus = p ∧
      (PolyRing.Unambiguous ⟨A, [v], {}⟩ limits tokens → ∀ rest, Reader.Takes Reader.coefficientRing
        (Session.At limits 0 (Extension.descriptorTokens base v tokens ++ rest)) (ring E)
        (Session.At limits 0 rest)) ∧
      ∀ low : Limits, PolyRing.Accepts ⟨A, [v], {}⟩ low tokens p →
        low.maxDepth.toNat + 1 ≤ limits.maxDepth.toNat → ∀ rest, Reader.Takes Reader.coefficientRing
          (Session.At limits 0 (Extension.descriptorTokens base v (Token.enclosed tokens) ++ rest))
          (ring E) (Session.At limits 0 rest) := by
  obtain ⟨E, hmake, hgenerator, hmodulus⟩ := hbase.exists_make (v := v) hdefines
  have hroom : ∀ {low : Limits}, low.maxDepth.toNat + 1 ≤ limits.maxDepth.toNat →
      low.room 0 ≤ limits.room 1 := fun hlow => by
    unfold Limits.room
    omega
  refine ⟨E, hgenerator, hmodulus, ?_, ?_⟩
  · intro hform rest
    refine Reader.takes_coefficientRing_of_defines hbase hmake fun hgiven => ?_
    by_cases hhead : tokens.head? = some (.op '(')
    · obtain ⟨low, inner, q, rfl, hinner, hlow⟩ := hform hhead
      obtain ⟨K, hunital⟩ := hbase.exists_unital
      -- The parentheses around the expression add nothing to its value.
      have hreads := (PolyRing.Element.enclosed hinner hlow).reads hbase.portable hunital hgiven .finish
      rw [List.append_nil] at hreads
      obtain rfl := haccepts.eq_of_reads hreads
      exact Reader.takes_definingPolynomial_enclosed hbase.portable hinner hgiven (hroom hlow)
    · refine Reader.takes_definingPolynomial_bare hbase.portable haccepts (fun t ht => ?_) hhead
        (Int.le_refl _)
      refine ⟨(hgiven t ht).1, (hgiven t ht).2.1, fun c hc => ?_⟩
      obtain rfl := Option.some.inj hc
      rintro rfl
      exact hclosing ht
  · intro low hlow hlevels rest
    refine Reader.takes_coefficientRing_of_defines hbase hmake fun hgiven => ?_
    exact Reader.takes_definingPolynomial_enclosed hbase.portable hlow hgiven (hroom hlevels)

/-- Modulo five, within two levels: a polynomial with a factor in parentheses and a sign at its end. -/
theorem defining_polynomial_modulo_five :
    let m : BigModulus := ⟨5, by decide⟩
    let limits : Limits := { maxDepth := 2 }
    ∃ E : Extension Int, E.modulus = ⟨[([0], 1), ([2], 2)]⟩ ∧
      (∃ s, Reader.coefficientRing (.ofText "AN[ 5 (a) 2 (a)^2 + 1 - ] x".toList limits) =
        .ok (.algebraicModular m E) s ∧ s.At limits 0 [.word ['x']]) ∧
      ∃ s, Reader.coefficientRing (.ofText "AN[ 5 (a) ( 2 (a)^2 + 1 - ) ] x".toList limits) =
        .ok (.algebraicModular m E) s ∧ s.At limits 0 [.word ['x']] := by
  intro m limits
  let R : PolyRing Int := ⟨m.arithmetic, [['a']], {}⟩
  let tokens : List Token := Token.ofText "2 (a)^2 + 1 -".toList
  let p : Poly Int := ⟨[([0], 1), ([2], 2)]⟩
  have hbase : Extension.Base [.word ['5']] m.arithmetic m.inverse (.algebraicModular m) :=
    .modular (by decide) (by decide +kernel : Integer.readInteger ['5'] = .ok 5) m.ofInt_value
  have haccepts : R.Accepts limits tokens p :=
    PolyRing.accepts_ofText (Reader.exists_eq_ok (by decide +kernel))
  have hlow : R.Accepts { maxDepth := 1 } tokens p :=
    PolyRing.accepts_ofText (Reader.exists_eq_ok (by decide +kernel))
  have hdefines : p.Defines m.arithmetic := ⟨2, 2, rfl, by decide, 3, by decide +kernel⟩
  have hbare : Token.ofText "AN[ 5 (a) 2 (a)^2 + 1 - ] x".toList =
      Extension.descriptorTokens [.word ['5']] ['a'] tokens ++ [.word ['x']] := by decide +kernel
  have henclosed : Token.ofText "AN[ 5 (a) ( 2 (a)^2 + 1 - ) ] x".toList =
      Extension.descriptorTokens [.word ['5']] ['a'] (Token.enclosed tokens) ++ [.word ['x']] := by
    decide +kernel
  have hunambiguous : R.Unambiguous limits tokens := fun hhead => absurd hhead (by decide +kernel)
  obtain ⟨E, -, hmodulus, hform, hspare⟩ :=
    defining_polynomials_bare_or_enclosed hbase haccepts hdefines (by decide +kernel)
  refine ⟨E, hmodulus, ?_, ?_⟩
  · exact hform hunambiguous _ _ (hbare ▸ Session.at_ofText _ limits 0)
  · exact hspare _ hlow (by decide) _ _ (henclosed ▸ Session.at_ofText _ limits 0)

/-- At a limit of one level, `a + (1)` defines an extension as it stands and not in parentheses. The
product `(a - 1) (a + 1)` defines one in parentheses; as it stands its first factor is taken for all
of it. -/
theorem parentheses_change_definitions :
    let R : PolyRing Rat := ⟨Rational.arithmetic, [['a']], {}⟩
    let limits : Limits := { maxDepth := 1 }
    let sum : Poly Rat := ⟨[([0], 1), ([1], 1)]⟩
    let product : Poly Rat := ⟨[([0], -1), ([2], 1)]⟩
    let factor : Poly Rat := ⟨[([0], -1), ([1], 1)]⟩
    (R.Accepts limits (Token.ofText "a + (1)".toList) sum ∧
      (∃ s, Reader.coefficientRing (.ofText "AN[ (a) a + (1) ] x".toList limits) =
        .ok (.algebraicRational ⟨['a'], {}, sum, 1, 1⟩) s) ∧
      ∃ s, Reader.coefficientRing (.ofText "AN[ (a) ( a + (1) ) ] x".toList limits) =
        .error (.malformed 1 (.tooDeep 1)) s) ∧
    R.Accepts {} (Token.ofText "(a - 1) (a + 1)".toList) product ∧
      (∃ s, Reader.coefficientRing (.ofText "AN[ (a) ( (a - 1) (a + 1) ) ] x".toList) =
        .ok (.algebraicRational ⟨['a'], {}, product, 2, 1⟩) s) ∧
      ∃ s, Reader.coefficientRing (.ofText "AN[ (a) (a - 1) (a + 1) ] x".toList) =
        .ok (.algebraicRational ⟨['a'], {}, factor, 1, 1⟩) s := by
  intro R limits sum product factor
  refine ⟨⟨PolyRing.accepts_ofText ?_, ?_, ?_⟩, PolyRing.accepts_ofText ?_, ?_, ?_⟩
  · exact Reader.exists_eq_ok (by decide +kernel)
  · exact Reader.exists_eq_ok (by decide +kernel)
  · exact Reader.exists_eq_error (by decide +kernel)
  · exact Reader.exists_eq_ok (by decide +kernel)
  · exact Reader.exists_eq_ok (by decide +kernel)
  · exact Reader.exists_eq_ok (by decide +kernel)

end PolynomialText
