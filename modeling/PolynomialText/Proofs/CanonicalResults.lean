import PolynomialText.Proofs.QuotientRings
import PolynomialText.Proofs.StrippedDecimals

/-!
# Results are canonical

Rings of coefficients are built from rings of numbers by forming polynomials and extensions, in any
number of layers. Each has its canonical elements, and among these equality of what is stored is
equality of the numbers, classes or polynomials that are meant. Whatever is read from a source or
computed from canonical polynomials is canonical in turn, also over zero divisors, over octonions and
with clamped exponents, so that the tests for equality and for zero decide what they should.
-/

namespace PolynomialText

/-! ### Polynomials with the same coefficients -/

namespace Poly

variable {α : Type} (A : Arithmetic α)

/-- The coefficient of a monomial, zero if there is no term with it. -/
def coefficient (p : Poly α) (e : Exponents) : α := (p.coefficient? e).getD A.zero

/-- The coefficients of every monomial are alike. -/
def Agree (same : α → α → Prop) (p q : Poly α) : Prop :=
  ∀ e, same (p.coefficient A e) (q.coefficient A e)

variable {A} {C : α → Prop} {nvars : Nat}

theorem coefficient?_eq_some_iff {p : Poly α} (hp : Canonical A nvars p) {e : Exponents} {c : α} :
    p.coefficient? e = some c ↔ (e, c) ∈ p.terms := by
  have hnodup : (p.terms.map Prod.fst).Nodup := by
    refine List.pairwise_map.2 (hp.ascending.imp fun {s t} hlt heq => ?_)
    exact t.1.not_cmp_self_lt (heq ▸ hlt)
  have hfound : ∀ {t : Exponents × α}, p.terms.find? (fun term => term.1 = e) = some t →
      t ∈ p.terms ∧ t.1 = e := by
    intro t hfind
    exact ⟨List.mem_of_find?_eq_some hfind, by simpa using List.find?_some hfind⟩
  unfold coefficient?
  rw [Option.map_eq_some_iff]
  constructor
  · rintro ⟨t, hfind, rfl⟩
    obtain ⟨hmem, rfl⟩ := hfound hfind
    exact hmem
  · intro hmem
    have hsome : (p.terms.find? fun term => term.1 = e).isSome :=
      List.find?_isSome.2 ⟨(e, c), hmem, by simp⟩
    obtain ⟨t, hfind⟩ := Option.isSome_iff_exists.1 hsome
    obtain ⟨hmem', hkey⟩ := hfound hfind
    have ht : t = (e, c) := List.inj_on_of_nodup_map hnodup hmem' hmem hkey
    exact ⟨t, hfind, congrArg Prod.snd ht⟩

theorem coefficient_mem (hzero : C A.zero) {p : Poly α} (hp : CanonicalOver A C nvars p)
    (e : Exponents) : C (p.coefficient A e) := by
  unfold coefficient
  cases hc : p.coefficient? e with
  | none => exact hzero
  | some c => exact hp.coefficients _ ((coefficient?_eq_some_iff hp.toCanonical).1 hc)

/-- A term is what is stored of its monomial, and its coefficient is not zero. -/
theorem mem_terms_iff {p : Poly α} (hp : Canonical A nvars p) {t : Exponents × α} :
    t ∈ p.terms ↔ p.coefficient A t.1 = t.2 ∧ t.2 ≠ A.zero := by
  have hstored := coefficient?_eq_some_iff hp (e := t.1) (c := t.2)
  unfold coefficient
  constructor
  · intro ht
    rw [hstored.2 ht]
    exact ⟨rfl, hp.nonzero t ht⟩
  · rintro ⟨hcoefficient, hne⟩
    cases hc : p.coefficient? t.1 with
    | none =>
      rw [hc] at hcoefficient
      exact absurd hcoefficient.symm hne
    | some c =>
      rw [hc] at hcoefficient
      exact hstored.1 (hc.trans (congrArg some hcoefficient))

/-- Canonical polynomials are determined by their coefficients. -/
theorem agree_iff {same : α → α → Prop} (hzero : C A.zero)
    (hsame : ∀ {a b : α}, C a → C b → (same a b ↔ a = b)) {p q : Poly α}
    (hp : CanonicalOver A C nvars p) (hq : CanonicalOver A C nvars q) :
    Agree A same p q ↔ p = q := by
  constructor
  · intro hagree
    apply hp.toCanonical.eq_of_mem_iff hq.toCanonical
    intro t
    rw [mem_terms_iff hp.toCanonical, mem_terms_iff hq.toCanonical,
      (hsame (coefficient_mem hzero hp t.1) (coefficient_mem hzero hq t.1)).1 (hagree t.1)]
  · rintro rfl e
    exact (hsame (coefficient_mem hzero hp e) (coefficient_mem hzero hp e)).2 rfl

end Poly

/-! ### Rings of coefficients -/

/-- The rings that can be extended: rational numbers and residues, with the values of their elements
and with their inverses. -/
inductive Arithmetic.Extendable : {α S : Type} → [CommRing S] → Arithmetic α → (α → Prop) → (α → S) →
    (α → Except RingFault α) → Prop
  | rational : Extendable Rational.arithmetic AnyElement (id : Rat → Rat) Rational.inverse
  | word (m : WordModulus) : Extendable m.arithmetic m.Reduced
      (fun a => (a.toNat : ZMod m.value.toNat)) m.inverse
  | big (m : BigModulus) : Extendable m.arithmetic m.Reduced (fun a => (a : ZMod m.value)) m.inverse

/-- The rings of coefficients, each with its canonical elements and with equality of what the
elements stand for: equal numbers, congruent residues, decimals of equal value, polynomials whose
coefficients are equal in that sense, and polynomials in a generator that differ by a multiple of the
defining polynomial. -/
inductive Arithmetic.Built : {α : Type} → Arithmetic α → (α → Prop) → (α → α → Prop) → Prop
  | rational : Built Rational.arithmetic AnyElement Eq
  | integer : Built Integer.arithmetic AnyElement Eq
  | word (m : WordModulus) : Built m.arithmetic m.Reduced
      fun a b => a.toNat ≡ b.toNat [MOD m.value.toNat]
  | big (m : BigModulus) : Built m.arithmetic m.Reduced fun a b => a ≡ b [ZMOD m.value]
  | complex : Built Gaussian.arithmetic AnyElement Eq
  | quaternion : Built Quaternion.arithmetic AnyElement Eq
  | octonion : Built Octonion.arithmetic AnyElement Eq
  | decimal : Built FixedDecimal.arithmetic FixedDecimal.Stripped fun a b => a.value = b.value
  | polynomials {α : Type} {C : α → Prop} {same : α → α → Prop} (R : PolyRing α)
      (coefficients : Built R.coefficients C same) :
      Built R.arithmetic (R.CanonicalPoly C) (Poly.Agree R.coefficients same)
  | extension {α S : Type} [CommRing S] {A : Arithmetic α} {K : α → Prop} {f : α → S}
      {inverse : α → Except RingFault α} (base : A.Extendable K f inverse) {vars : List Text}
      {order : TermOrder} {modulus : Poly α} {E : Extension α}
      (canonical : (PolyRing.mk A vars order).CanonicalPoly K modulus)
      (make_eq : Extension.make ⟨A, vars, order⟩ inverse modulus = .ok E) :
      Built (E.arithmetic A) (E.IsResidue A K) fun p q => E.modulus.exact f ∣ p.exact f - q.exact f

/-- Elements that are read or computed are canonical, and canonical elements are equal exactly if
they stand for the same. -/
structure Arithmetic.Normalises {α : Type} (A : Arithmetic α) (C : α → Prop)
    (same : α → α → Prop) : Prop where
  readsInto : A.ReadsInto C
  same_iff : ∀ {a b : α}, C a → C b → (same a b ↔ a = b)

namespace Arithmetic.Extendable

variable {α S : Type} [CommRing S] {A : Arithmetic α} {K : α → Prop} {f : α → S}
  {inverse : α → Except RingFault α} (h : A.Extendable K f inverse)
include h

theorem represents : A.Represents K f := by
  cases h with
  | rational => exact Rational.represents
  | word m => exact m.represents
  | big m => exact m.represents

theorem readsInto : A.ReadsInto K := by
  cases h with
  | rational => exact Rational.numberRing.readsInto
  | word m => exact m.numberRing.readsInto
  | big m => exact m.numberRing.readsInto

theorem one_ne_zero : A.one ≠ A.zero := by
  cases h with
  | rational => exact Rational.legible.one_ne_zero
  | word m => exact m.legible.one_ne_zero
  | big m => exact m.legible.one_ne_zero

theorem mul_inverse {a b : α} (hb : inverse a = .ok b) : K b ∧ A.mul a b = A.one := by
  cases h with
  | rational => exact ⟨trivial, Rational.mul_inverse hb⟩
  | word m => exact m.mul_inverse hb
  | big m => exact m.mul_inverse hb

end Arithmetic.Extendable

/-- Canonical polynomials are closed under the arithmetic of polynomials. -/
theorem PolyRing.closed_canonical {α : Type} {R : PolyRing α} {C : α → Prop}
    (hA : R.coefficients.Closed C) : R.arithmetic.Closed (R.CanonicalPoly C) := by
  have hregular : R.CanonicalPoly C = Poly.Regular R.coefficients (·.length = R.nvars) C := by
    funext p
    exact propext Poly.canonicalOver_iff_regular
  rw [hregular]
  exact closed_regular hA (Exponents.closed_length R.nvars)

/-- Polynomials that are read or computed are canonical. -/
theorem PolyRing.readsInto_canonical {α : Type} {R : PolyRing α} {C : α → Prop}
    (hA : R.coefficients.ReadsInto C) : R.arithmetic.ReadsInto (R.CanonicalPoly C) where
  closed := closed_canonical hA.closed
  read_mem hread := ((readsInto hA).read_mem hread).canonicalOver R.closed_supports

/-- Residues that are read or computed are canonical polynomials of small degree. -/
theorem Extension.readsInto_isResidue {α : Type} {A : Arithmetic α} {K : α → Prop} {E : Extension α}
    (hA : A.ReadsInto K) (hlaws : A.RingLaws K) (hone : A.one ≠ A.zero) (hE : E.Defined A K) :
    (E.arithmetic A).ReadsInto (E.IsResidue A K) where
  closed := closed_isResidue hlaws hone hE
  read_mem {limits depth t p} hread := by
    change ((E.ring A).arithmetic.readWithin limits depth t).map _ = _ at hread
    cases ht : (E.ring A).arithmetic.readWithin limits depth t with
    | ok q =>
      rw [ht] at hread
      rw [← Except.ok.inj hread]
      exact isResidue_reduce hlaws hone hE
        ((PolyRing.readsInto_canonical (R := E.ring A) hA).read_mem ht)
    | error e =>
      rw [ht] at hread
      contradiction

/-- Every ring of coefficients reads and computes canonical elements, which are equal exactly if they
stand for the same. -/
theorem Arithmetic.Built.normalises {α : Type} {A : Arithmetic α} {C : α → Prop}
    {same : α → α → Prop} (h : A.Built C same) : A.Normalises C same := by
  induction h with
  | rational => exact ⟨Rational.numberRing.readsInto, fun _ _ => Iff.rfl⟩
  | integer => exact ⟨Integer.numberRing.readsInto, fun _ _ => Iff.rfl⟩
  | word m =>
    refine ⟨m.numberRing.readsInto, fun {a b} ha hb => ?_⟩
    constructor
    · intro hmod
      exact UInt64.toNat.inj (Nat.ModEq.eq_of_lt_of_lt hmod ha hb)
    · rintro rfl
      exact Nat.ModEq.refl _
  | big m =>
    refine ⟨m.numberRing.readsInto, fun {a b} ha hb => ?_⟩
    constructor
    · intro hmod
      have hmod' : a % m.value = b % m.value := hmod
      rwa [Int.emod_eq_of_lt ha.1 ha.2, Int.emod_eq_of_lt hb.1 hb.2] at hmod'
    · rintro rfl
      exact Int.ModEq.refl _
  | complex => exact ⟨Gaussian.numberRing.readsInto, fun _ _ => Iff.rfl⟩
  | quaternion => exact ⟨Quaternion.numberRing.readsInto, fun _ _ => Iff.rfl⟩
  | octonion => exact ⟨Octonion.readsInto, fun _ _ => Iff.rfl⟩
  | decimal =>
    refine ⟨FixedDecimal.readsInto, fun {a b} ha hb => ?_⟩
    constructor
    · exact FixedDecimal.eq_of_value_eq ha hb
    · rintro rfl
      rfl
  | polynomials R _ ih =>
    exact ⟨PolyRing.readsInto_canonical ih.readsInto,
      Poly.agree_iff ih.readsInto.closed.zero ih.same_iff⟩
  | extension base canonical make_eq =>
    have hE := Extension.defined_of_make (fun _ hb => base.mul_inverse hb) canonical make_eq
    refine ⟨Extension.readsInto_isResidue base.readsInto base.represents.ringLaws base.one_ne_zero hE,
      fun {p q} hp hq => ?_⟩
    constructor
    · intro hdvd
      exact Extension.eq_of_residueClass_eq base.represents hE hp hq (AdjoinRoot.mk_eq_mk.2 hdvd)
    · rintro rfl
      rw [sub_self]
      exact dvd_zero _

/-! ### What is read -/

/-- What is read over a ring is canonical, and the operations on polynomials keep to canonical
ones. -/
structure PolyRing.StaysCanonical {α : Type} (R : PolyRing α) (C : α → Prop) : Prop where
  polynomial : ∀ {s s' : Session} {p : Poly α}, Reader.polynomial R s = .ok p s' → R.CanonicalPoly C p
  polynomialList : ∀ {s s' : Session} {list : List (Poly α)}, Reader.polynomialList R s = .ok list s' →
    ∀ p ∈ list, R.CanonicalPoly C p
  moduleList : ∀ {s s' : Session} {rows : List (List (Poly α))}, Reader.moduleList R s = .ok rows s' →
    ∀ row ∈ rows, ∀ p ∈ row, R.CanonicalPoly C p
  zero : R.CanonicalPoly C .zero
  one : R.CanonicalPoly C R.one
  constant : ∀ {c : α}, C c → R.CanonicalPoly C (R.constant c)
  monomial : ∀ {e : Exponents} {c : α}, e.length = R.nvars → C c →
    R.CanonicalPoly C (.monomial R.coefficients e c)
  univariate : ∀ (index : Nat) (exponent : UInt64), R.CanonicalPoly C (R.univariate index exponent)
  ofTerms : ∀ {terms : List (Exponents × α)}, (∀ t ∈ terms, t.1.length = R.nvars ∧ C t.2) →
    R.CanonicalPoly C (.ofTerms R.coefficients terms)
  add : ∀ {p q : Poly α}, R.CanonicalPoly C p → R.CanonicalPoly C q →
    R.CanonicalPoly C (p.add R.coefficients q)
  sub : ∀ {p q : Poly α}, R.CanonicalPoly C p → R.CanonicalPoly C q →
    R.CanonicalPoly C (p.sub R.coefficients q)
  neg : ∀ {p : Poly α}, R.CanonicalPoly C p → R.CanonicalPoly C (p.neg R.coefficients)
  mul : ∀ {p q : Poly α}, R.CanonicalPoly C p → R.CanonicalPoly C q →
    R.CanonicalPoly C (p.mul R.coefficients q)
  scale : ∀ {p : Poly α} {c : α}, R.CanonicalPoly C p → C c →
    R.CanonicalPoly C (p.scale R.coefficients c)
  pow : ∀ {p : Poly α}, R.CanonicalPoly C p → ∀ exponent, R.CanonicalPoly C (R.pow p exponent)

theorem PolyRing.staysCanonical {α : Type} {R : PolyRing α} {C : α → Prop}
    (hA : R.coefficients.ReadsInto C) : R.StaysCanonical C := by
  have hclosed := closed_canonical hA.closed
  have hK := Exponents.closed_length R.nvars
  have hregular : ∀ {p : Poly α}, Poly.Regular R.coefficients R.Supports C p → R.CanonicalPoly C p :=
    fun hp => hp.canonicalOver R.closed_supports
  have hmonomial : ∀ {e : Exponents} {c : α}, e.length = R.nvars → C c →
      R.CanonicalPoly C (.monomial R.coefficients e c) := fun he hc =>
    Poly.canonicalOver_iff_regular.2 (Poly.regular_monomial he hc)
  constructor
  case polynomial =>
    intro s s' p hread
    obtain ⟨result, middle, hexpression, hresult⟩ := Reader.exists_of_bind_eq_ok hread
    obtain ⟨rfl, -⟩ := EStateM.Result.ok.inj hresult
    exact hregular (Reader.gives_expression hA none s result middle rfl hexpression).2
  case polynomialList =>
    intro s s' list hread p hp
    exact hregular ((Reader.gives_polynomialList hA s list s' rfl hread).2 p hp)
  case moduleList =>
    intro s s' rows hread row hrow p hp
    exact hregular ((Reader.gives_moduleList hA s rows s' rfl hread).2 row hrow p hp)
  case zero => exact hclosed.zero
  case one => exact hclosed.one
  case constant => exact canonicalPoly_constant
  case monomial => exact hmonomial
  case univariate =>
    intro index exponent
    apply hmonomial _ hA.closed.one
    rw [Exponents.single, List.length_set, hK.length hK.zero]
  case ofTerms =>
    intro terms hterms
    exact Poly.canonicalOver_iff_regular.2 (Poly.regular_zero.foldl_addTerm hA.closed hterms)
  case add => exact hclosed.add
  case sub => exact fun hp hq => hclosed.add hp (hclosed.neg hq)
  case neg => exact hclosed.neg
  case mul => exact hclosed.mul
  case scale =>
    intro p c hp hc
    exact Poly.canonicalOver_iff_regular.2 ((Poly.canonicalOver_iff_regular.1 hp).scale hA.closed hc)
  case pow =>
    intro p hp exponent
    exact Poly.canonicalOver_iff_regular.2
      (regular_pow hA.closed hK (Poly.canonicalOver_iff_regular.1 hp) exponent)

namespace CoefficientRing

/-- The canonical elements of a ring that a descriptor can select, with decimals in their shortest
form. -/
def Normal : (r : CoefficientRing) → r.Elem → Prop
  | decimal => FixedDecimal.Stripped
  | r => r.Canonical

/-- A ring that a descriptor selected is one of the rings of coefficients. -/
theorem Selected.built {limits : Limits} {r : CoefficientRing} (h : r.Selected limits) :
    ∃ same, r.arithmetic.Built r.Normal same := by
  have hcanonical : ∀ {α : Type} {A : Arithmetic α} {K : α → Prop} {inverse : α → Except RingFault α}
      {E : Extension α}, E.Made A K inverse → (E.ring A).CanonicalPoly K E.modulus :=
    fun hE => hE.regular.canonicalOver (PolyRing.closed_supports _)
  cases r with
  | rational => exact ⟨_, .rational⟩
  | integer => exact ⟨_, .integer⟩
  | word m => exact ⟨_, .word m⟩
  | big m => exact ⟨_, .big m⟩
  | complex => exact ⟨_, .complex⟩
  | quaternion => exact ⟨_, .quaternion⟩
  | octonion => exact ⟨_, .octonion⟩
  | decimal => exact ⟨_, .decimal⟩
  | function vars => exact ⟨_, .polynomials (functionRing vars) .rational⟩
  | algebraicRational E => exact ⟨_, .extension .rational (hcanonical h) h.make_eq⟩
  | algebraicModular m E => exact ⟨_, .extension (.big m) (hcanonical h) h.make_eq⟩

end CoefficientRing

/-- The coefficients of a header are one of the rings of coefficients, and the polynomials are
canonical over them. -/
structure RingHeader.HoldsCanonical (h : RingHeader) (polynomials : List h.Polynomial) : Prop where
  built : ∃ same, h.coefficients.arithmetic.Built h.coefficients.Normal same
  canonical : ∀ p ∈ polynomials, h.ring.CanonicalPoly h.coefficients.Normal p

/-- The coefficients of a header that is read are one of the rings of coefficients, and all polynomials
that are read under it are canonical. -/
theorem RingHeader.staysCanonical {s s' : Session} {header : RingHeader}
    (h : Reader.ringHeader s = .ok header s') :
    (∃ same, header.coefficients.arithmetic.Built header.coefficients.Normal same) ∧
      header.ring.StaysCanonical header.coefficients.Normal := by
  obtain ⟨-, hdeclared⟩ := Reader.gives_ringHeader s header s' rfl h
  obtain ⟨same, hbuilt⟩ := hdeclared.selected.built
  exact ⟨⟨same, hbuilt⟩, PolyRing.staysCanonical hbuilt.normalises.readsInto⟩

theorem PolynomialSet.holdsCanonical {s s' : Session} {set : PolynomialSet}
    (h : Reader.polynomialSet s = .ok set s') : set.header.HoldsCanonical set.polynomials := by
  obtain ⟨header, middle, hheader, hrest⟩ := Reader.exists_of_bind_eq_ok h
  obtain ⟨list, behind, hlist, hset⟩ := Reader.exists_of_bind_eq_ok hrest
  obtain ⟨rfl, -⟩ := EStateM.Result.ok.inj hset
  obtain ⟨hbuilt, hring⟩ := RingHeader.staysCanonical hheader
  exact ⟨hbuilt, hring.polynomialList hlist⟩

/-- Rows are filled up with zeros, which are canonical. -/
theorem ModuleSet.holdsCanonical {s s' : Session} {set : ModuleSet}
    (h : Reader.moduleSet s = .ok set s') : set.header.HoldsCanonical set.rows.flatten := by
  obtain ⟨header, middle, hheader, hrest⟩ := Reader.exists_of_bind_eq_ok h
  obtain ⟨rows, behind, hrows, hset⟩ := Reader.exists_of_bind_eq_ok hrest
  obtain ⟨rfl, -⟩ := EStateM.Result.ok.inj hset
  obtain ⟨hbuilt, hring⟩ := RingHeader.staysCanonical hheader
  refine ⟨hbuilt, fun p hp => ?_⟩
  obtain ⟨padded, hpadded, hp⟩ := List.mem_flatten.1 hp
  obtain ⟨row, hrow, rfl⟩ := List.mem_map.1 hpadded
  rcases List.mem_append.1 hp with hgiven | hfilled
  · exact hring.moduleList hrows row hrow p hgiven
  · rw [(List.mem_replicate.1 hfilled).2]
    exact hring.zero

/-- Over every ring of coefficients, in any number of layers, all polynomials that are read from any
source or computed from canonical ones are canonical, and the tests for zero and for equality decide
equality of all coefficients. The polynomials of a set that is read are canonical over its header. -/
theorem results_are_canonical :
    (∀ {α : Type} {C : α → Prop} {same : α → α → Prop} (R : PolyRing α), R.coefficients.Built C same →
      R.StaysCanonical C ∧
      (∀ {p : Poly α}, R.CanonicalPoly C p →
        (p.isZero = true ↔ Poly.Agree R.coefficients same p .zero)) ∧
      ∀ {p q : Poly α}, R.CanonicalPoly C p → R.CanonicalPoly C q →
        (R.arithmetic.beq p q = true ↔ Poly.Agree R.coefficients same p q)) ∧
    (∀ {s s' : Session} {set : PolynomialSet}, Reader.polynomialSet s = .ok set s' →
      set.header.HoldsCanonical set.polynomials) ∧
    ∀ {s s' : Session} {set : ModuleSet}, Reader.moduleSet s = .ok set s' →
      set.header.HoldsCanonical set.rows.flatten := by
  refine ⟨?_, PolynomialSet.holdsCanonical, ModuleSet.holdsCanonical⟩
  intro α C same R hbuilt
  have hcoefficients := hbuilt.normalises
  have hpolynomials := (Arithmetic.Built.polynomials R hbuilt).normalises
  have hring := PolyRing.staysCanonical hcoefficients.readsInto
  refine ⟨hring, ?_, ?_⟩
  · intro p hp
    rw [hpolynomials.same_iff hp hring.zero]
    obtain ⟨terms⟩ := p
    simp [Poly.isZero, Poly.zero]
  · intro p q hp hq
    rw [hpolynomials.same_iff hp hq, Arithmetic.beq_eq_true_iff]

/-- Over residues modulo six with a root of `5 a^2 + 1`, a product of zero divisors is read as the
polynomial without terms and a cube is read reduced; squares of what was read stay canonical. -/
theorem canonical_results_mod_six :
    let m : BigModulus := ⟨6, by decide⟩
    let E : Extension Int := ⟨['a'], {}, ⟨[([0], 1), ([2], 5)]⟩, 2, 5⟩
    let R : PolyRing (Poly Int) := ⟨E.arithmetic m.arithmetic, [['x']], {}⟩
    let linear : Poly (Poly Int) := ⟨[([1], ⟨[([1], 1)]⟩)]⟩
    let header : RingHeader := ⟨.algebraicModular m E, [['x']], {}⟩
    let source := "AN[ 6 (a) ( 5 a^2 + 1 ) ] (x) ( \x7b2 a\x7d \x7b3 a\x7d x , \x7ba^3\x7d x )".toList
    (∃ s', Reader.polynomialSet (.ofText source) = .ok ⟨header, [⟨[]⟩, linear]⟩ s') ∧
      header.HoldsCanonical [⟨[]⟩, linear] ∧
      R.CanonicalPoly (E.IsResidue m.arithmetic m.Reduced) linear ∧
      R.CanonicalPoly (E.IsResidue m.arithmetic m.Reduced) (R.pow linear 2) := by
  intro m E R linear header source
  have hread : ∃ s', Reader.polynomialSet (.ofText source) = .ok ⟨header, [⟨[]⟩, linear]⟩ s' :=
    Reader.exists_eq_ok (by decide +kernel)
  obtain ⟨s', hset⟩ := hread
  have hholds := results_are_canonical.2.1 hset
  have hlinear : R.CanonicalPoly (E.IsResidue m.arithmetic m.Reduced) linear :=
    hholds.canonical linear (List.mem_cons_of_mem _ List.mem_cons_self)
  obtain ⟨same, hbuilt⟩ := hholds.built
  have hring := (results_are_canonical.1 R hbuilt).1
  exact ⟨⟨s', hset⟩, hholds, hlinear, hring.pow hlinear 2⟩

end PolynomialText
