import PolynomialText.PolynomialSet
import PolynomialText.Proofs.ReadPolynomials

/-!
# Headers that are read

What is known of a ring header that was read, whatever the source holds: the modulus decides between
machine words and big integers, an extension was made from its defining polynomial, no variable
stands twice, and the term order fits the variables. Polynomials over such a header are regular.
-/

namespace PolynomialText

/-! ### Elements of a coefficient ring -/

/-- A ring of numbers reads and computes canonical elements. -/
theorem Arithmetic.NumberRing.readsInto {α : Type} {A : Arithmetic α} {C : α → Prop}
    (h : A.NumberRing C) : A.ReadsInto C where
  closed := h.laws.closed
  read_mem {limits depth t c} hread := by
    rw [h.readWithin_eq] at hread
    exact h.read_mem (eq_ok_of_mapError hread)

/-- Octonions are closed under their operations. -/
theorem Octonion.readsInto : Octonion.arithmetic.ReadsInto AnyElement where
  closed :=
    { zero := trivial
      one := trivial
      add _ _ := trivial
      mul _ _ := trivial
      neg _ := trivial
      neg_ne_zero {a} ha hne hneg := by
        have hback := units.neg_neg ha
        rw [hneg] at hback
        exact hne (hback.symm.trans (by decide)) }
  read_mem _ := trivial

/-- Regular polynomials are closed under the arithmetic of polynomials. -/
theorem PolyRing.closed_regular {α : Type} {R : PolyRing α} {C : α → Prop}
    (hA : R.coefficients.Closed C) {K : Exponents → Prop} (hK : Exponents.Closed R.nvars K) :
    R.arithmetic.Closed (Poly.Regular R.coefficients K C) where
  zero := Poly.regular_zero
  one := regular_constant hK hA.one
  add hp hq := hp.add hA hq
  mul hp hq := hp.mul hA hK hq
  neg hp := hp.neg hA
  neg_ne_zero {p} _ hne hneg := by
    have hterms : p.terms.map _ = [] := congrArg Poly.terms hneg
    exact hne (congrArg Poly.mk (List.map_eq_nil_iff.1 hterms))

/-- Polynomials that are read or computed are regular. -/
theorem PolyRing.readsInto {α : Type} {R : PolyRing α} {C : α → Prop}
    (hA : R.coefficients.ReadsInto C) :
    R.arithmetic.ReadsInto (Poly.Regular R.coefficients R.Supports C) where
  closed := closed_regular hA.closed R.closed_supports
  read_mem hread := Reader.regular_of_polynomialOf hA (eq_ok_of_mapError hread)

/-- Residues that are read or computed are regular and of small degree. -/
theorem Extension.readsInto {α : Type} {A : Arithmetic α} {C : α → Prop} {E : Extension α}
    (hA : A.ReadsInto C) (hlaws : A.RingLaws C) (hone : A.one ≠ A.zero) (hE : E.Valid A C) :
    (E.arithmetic A).ReadsInto fun p => Poly.Regular A (E.ring A).Supports C p ∧ E.Low p where
  closed := closed hlaws hone hE
  read_mem {limits depth t p} hread := by
    change ((E.ring A).arithmetic.readWithin limits depth t).map _ = _ at hread
    cases ht : (E.ring A).arithmetic.readWithin limits depth t with
    | ok q =>
      rw [ht] at hread
      rw [← Except.ok.inj hread]
      exact regular_reduce hlaws hone hE ((PolyRing.readsInto (R := E.ring A) hA).read_mem ht)
    | error e =>
      rw [ht] at hread
      contradiction

/-! ### Coefficient rings that are selected -/

/-- The extension was made from its defining polynomial. -/
structure Extension.Made {α : Type} (A : Arithmetic α) (C : α → Prop)
    (inverse : α → Except RingFault α) (E : Extension α) : Prop where
  order_eq : E.order = {}
  make_eq : make (E.ring A) inverse E.modulus = .ok E
  regular : Poly.Regular A (E.ring A).Supports C E.modulus

namespace CoefficientRing

/-- The names that a ring declares. -/
def names : CoefficientRing → List Text
  | function vars => vars
  | algebraicRational E => [E.generator]
  | algebraicModular _ E => [E.generator]
  | _ => []

/-- What is known of a ring that a descriptor selected. -/
def Selected (limits : Limits) : CoefficientRing → Prop
  | word m => m.value < limits.wordModulusLimit
  | big m => limits.wordModulusLimit.toNat ≤ m.value
  | function vars => vars ≠ [] ∧ vars.Nodup
  | algebraicRational E => E.Made Rational.arithmetic AnyElement Rational.inverse
  | algebraicModular m E => E.Made m.arithmetic m.Reduced m.inverse
  | _ => True

end CoefficientRing

/-- An extension of the rationals that was made is valid. -/
theorem Rational.valid_of_made {E : Extension Rat}
    (h : E.Made Rational.arithmetic AnyElement Rational.inverse) :
    E.Valid Rational.arithmetic AnyElement :=
  Extension.valid_of_make (fun _ hb => ⟨trivial, mul_inverse hb⟩) h.make_eq h.regular

/-- An extension of residues that was made is valid. -/
theorem BigModulus.valid_of_made {m : BigModulus} {E : Extension Int}
    (h : E.Made m.arithmetic m.Reduced m.inverse) : E.Valid m.arithmetic m.Reduced :=
  Extension.valid_of_make (fun _ hb => m.mul_inverse hb) h.make_eq h.regular

namespace CoefficientRing

variable {limits : Limits} {r : CoefficientRing}

/-- The elements of a selected ring that are read or computed are readable. -/
theorem Selected.readsInto (h : r.Selected limits) (hr : r ≠ .decimal) :
    r.arithmetic.ReadsInto r.Readable := by
  cases r with
  | rational => exact Rational.numberRing.readsInto
  | integer => exact Integer.numberRing.readsInto
  | word m => exact m.numberRing.readsInto
  | big m => exact m.numberRing.readsInto
  | complex => exact Gaussian.numberRing.readsInto
  | quaternion => exact Quaternion.numberRing.readsInto
  | octonion => exact Octonion.readsInto
  | decimal => exact absurd rfl hr
  | function vars => exact PolyRing.readsInto (R := functionRing vars) Rational.numberRing.readsInto
  | algebraicRational E =>
    exact Extension.readsInto Rational.numberRing.readsInto Rational.ringLaws
      Rational.legible.one_ne_zero (Rational.valid_of_made h)
  | algebraicModular m E =>
    exact Extension.readsInto m.numberRing.readsInto m.represents.ringLaws
      m.legible.one_ne_zero (BigModulus.valid_of_made h)

/-- A selected ring is well-formed if its names are. -/
theorem Selected.wellFormed (h : r.Selected limits) {N : Text → Prop} (hnames : ∀ v ∈ r.names, N v) :
    r.WellFormed N := by
  cases r with
  | function vars => exact ⟨h.2, hnames⟩
  | algebraicRational E =>
    exact ⟨hnames _ List.mem_cons_self, (Rational.valid_of_made h).degree_ne_zero⟩
  | algebraicModular m E =>
    exact ⟨hnames _ List.mem_cons_self, (BigModulus.valid_of_made h).degree_ne_zero⟩
  | _ => trivial

end CoefficientRing

/-- The ring that was made has no variable twice, and its order fits. -/
theorem PolyRing.of_make_eq_ok {α : Type} {A : Arithmetic α} {vars : List Text} {order : TermOrder}
    {R : PolyRing α} (h : make A vars order = .ok R) :
    R = ⟨A, vars, order⟩ ∧ order.fault? vars.length = none ∧ vars.Nodup := by
  have hnodup : ∀ {seen rest : List Text}, repeated? seen rest = none →
      rest.Nodup ∧ ∀ v ∈ rest, v ∉ seen := by
    intro seen rest hrepeated
    induction rest generalizing seen with
    | nil => exact ⟨List.nodup_nil, fun _ hv => absurd hv List.not_mem_nil⟩
    | cons v rest ih =>
      rw [repeated?] at hrepeated
      split at hrepeated
      · contradiction
      · rename_i hseen
        obtain ⟨hrest, hnew⟩ := ih hrepeated
        refine ⟨List.nodup_cons.2 ⟨fun hmem => hnew v hmem List.mem_cons_self, hrest⟩, ?_⟩
        intro u hu
        rcases List.mem_cons.1 hu with rfl | hmem
        · exact hseen
        · exact fun hin => hnew u hmem (List.mem_cons_of_mem _ hin)
  unfold make at h
  split at h
  · contradiction
  · contradiction
  · rename_i hfault hrepeated
    exact ⟨(Except.ok.inj h).symm, hfault, (hnodup hrepeated).1⟩

/-- A ring with different variables and an order that fits can be made. -/
theorem PolyRing.make_eq_ok {α : Type} (A : Arithmetic α) {vars : List Text} {order : TermOrder}
    (hfault : order.fault? vars.length = none) (hnodup : vars.Nodup) :
    make A vars order = .ok ⟨A, vars, order⟩ := by
  have hrepeated : ∀ {seen rest : List Text}, rest.Nodup → (∀ v ∈ rest, v ∉ seen) →
      repeated? seen rest = none := by
    intro seen rest hrest hnew
    induction rest generalizing seen with
    | nil => rfl
    | cons v rest ih =>
      obtain ⟨hv, hrest'⟩ := List.nodup_cons.1 hrest
      rw [repeated?, if_neg (hnew v List.mem_cons_self)]
      apply ih hrest'
      intro u hu hin
      rcases List.mem_cons.1 hin with rfl | hseen
      · exact hv hu
      · exact hnew u (List.mem_cons_of_mem _ hu) hseen
  simp [make, hfault, hrepeated hnodup]

/-- An extension keeps the ring in which its defining polynomial was given. -/
theorem Extension.of_make_eq_ok {α : Type} {R : PolyRing α} {inverse : α → Except RingFault α}
    {p : Poly α} {E : Extension α} (h : make R inverse p = .ok E) :
    E.ring R.coefficients = R ∧ E.modulus = p := by
  obtain ⟨hring, hmodulus, -⟩ := inverse_of_make h
  exact ⟨hring, hmodulus⟩

/-- The size of the modulus decides how residues are kept. -/
theorem Reader.selected_of_residues {limits : Limits} {m : Int} {r : CoefficientRing}
    (h : residues limits.wordModulusLimit m = .ok r) : r.Selected limits := by
  unfold residues at h
  split at h
  · rename_i hlt
    unfold WordModulus.ofWord at h
    split at h
    · rename_i htwo
      rw [← Except.ok.inj h]
      have hsize := limits.wordModulusLimit.toNat_lt
      have hbound : m.toNat < 2 ^ 64 := by omega
      have hvalue : (UInt64.ofNat m.toNat).toNat = m.toNat := UInt64.toNat_ofNat_of_lt' hbound
      change UInt64.ofNat m.toNat < limits.wordModulusLimit
      rw [UInt64.lt_iff_toNat_lt, hvalue]
      omega
    · contradiction
  · rename_i hge
    unfold BigModulus.ofInt at h
    split at h
    · rw [← Except.ok.inj h]
      change limits.wordModulusLimit.toNat ≤ m.toNat
      omega
    · contradiction

namespace Reader

variable {limits : Limits}

theorem gives_modulus (t : Token) : Gives limits (modulus t) fun _ => True := by
  unfold modulus
  split
  · split
    · split
      · exact .pure trivial
      · exact gives_invalidRing _
    · exact gives_invalidRing _
  · exact gives_invalidRing _

theorem gives_modular : Gives limits modular (CoefficientRing.Selected limits) := by
  have hresidues : ∀ m : Int, Gives limits
      (do orInvalidRing (residues (← get).limits.wordModulusLimit m))
      (CoefficientRing.Selected limits) := by
    intro m
    apply gives_get.bind
    intro s hs
    apply (gives_orInvalidRing _).imp
    intro r hr
    rw [hs] at hr
    exact selected_of_residues hr
  apply gives_advance.bind
  intro t _
  split
  · apply gives_advance.bind
    intro next _
    apply (gives_modulus next).bind
    intro m _
    exact (gives_skipOp _).bind fun _ _ => hresidues m
  · exact (gives_modulus t).bind fun m _ => hresidues m

theorem gives_variableList : Gives limits variableList fun _ => True := by
  have hstep : ∀ (closer : Char) (names : List Text), True →
      Gives limits (variableStep closer names) (Sum.elim (fun _ => True) fun _ => True) := by
    intro closer names _
    apply gives_advance.bind
    intro t _
    cases t with
    | op c =>
      dsimp only
      split
      · exact .pure trivial
      · exact .pure trivial
    | _ => exact .pure trivial
  apply gives_advance.bind
  intro t _
  split
  · exact gives_loop (hstep _) trivial
  · split
    · exact gives_loop (hstep _) trivial
    · exact (gives_pushBack t).bind fun _ _ => .pure trivial

theorem gives_functionVariables :
    Gives limits functionVariables (CoefficientRing.Selected limits) := by
  apply gives_variableList.bind
  intro vars _
  split
  · exact gives_invalidRing _
  · rename_i hne
    refine (gives_orInvalidRing _).bind fun R hR => .pure ?_
    obtain ⟨rfl, -, hnodup⟩ := PolyRing.of_make_eq_ok hR
    exact ⟨hne, hnodup⟩

/-- A defining polynomial that is read is regular. -/
theorem gives_definingPolynomial {α : Type} {R : PolyRing α} {C : α → Prop}
    (hA : R.coefficients.ReadsInto C) :
    Gives limits (definingPolynomial R) (Poly.Regular R.coefficients R.Supports C) := by
  apply gives_advance.bind
  intro t _
  split
  · apply (gives_nested (gives_expression hA none)).bind
    intro result hresult
    obtain ⟨p, terminator⟩ := result
    dsimp only
    split
    · exact gives_malformed _
    · exact .pure hresult
  · apply (gives_pushBack t).bind
    intro _ _
    exact (gives_expression hA _).bind fun result hresult => .pure hresult

/-- An extension that is read was made from its defining polynomial. -/
theorem gives_extensionOver {α : Type} {A : Arithmetic α} {C : α → Prop} (hA : A.ReadsInto C)
    (inverse : α → Except RingFault α) (vars : List Text) :
    Gives limits (extensionOver A inverse vars) (Extension.Made A C inverse) := by
  apply (gives_orInvalidRing _).bind
  intro R hR
  obtain ⟨rfl, -, -⟩ := PolyRing.of_make_eq_ok hR
  apply (gives_definingPolynomial hA).bind
  intro p hp
  apply (gives_orInvalidRing _).imp
  intro E hE
  obtain ⟨hring, rfl⟩ := Extension.of_make_eq_ok hE
  exact ⟨congrArg PolyRing.order hring, hring ▸ hE, hring ▸ hp⟩

theorem gives_algebraic : Gives limits algebraic (CoefficientRing.Selected limits) := by
  apply gives_advance.bind
  intro t _
  split
  · exact gives_invalidRing _
  · apply gives_advance.bind
    intro first _
    simp only [pure_bind]
    split
    · apply (gives_modulus first).bind
      intro m _
      apply gives_variableList.bind
      intro vars _
      split
      · exact gives_invalidRing _
      · apply (gives_orInvalidRing _).bind
        intro base _
        apply (gives_extensionOver base.numberRing.readsInto _ vars).bind
        intro E hE
        exact (gives_skipOp _).bind fun _ _ => .pure hE
    · apply (gives_pushBack first).bind
      intro _ _
      apply gives_variableList.bind
      intro vars _
      split
      · exact gives_invalidRing _
      · apply (gives_extensionOver Rational.numberRing.readsInto _ vars).bind
        intro E hE
        exact (gives_skipOp _).bind fun _ _ => .pure hE

/-- A coefficient ring that is read was selected. -/
theorem gives_coefficientRing :
    Gives limits coefficientRing (CoefficientRing.Selected limits) := by
  apply gives_advance.bind
  intro t _
  cases t with
  | word w =>
    dsimp only
    split
    · exact .pure trivial
    · exact .pure trivial
    · exact .pure trivial
    · exact .pure trivial
    · exact (gives_advise _).bind fun _ _ => .pure trivial
    · exact (gives_advise _).bind fun _ _ => .pure trivial
    · exact gives_modular
    · exact gives_invalidRing _
    · exact gives_functionVariables
    · exact gives_algebraic
    · exact (gives_pushBack _).bind fun _ _ => .pure trivial
  | _ => exact (gives_pushBack _).bind fun _ _ => .pure trivial

end Reader

/-! ### Term orders and headers -/

/-- Rows of weights, or a kind with a split into blocks whose numbers fit a machine word. -/
def TermOrder.Declared (order : TermOrder) : Prop :=
  (∃ rows, order = .ofWeights rows) ∨
    ∃ kind split, kind ≠ .weighted ∧ (∀ n ∈ split.entries, n < UInt64.size) ∧
      order = .block kind split

/-- The default order is the one of a keyword. -/
theorem TermOrder.declared_default : TermOrder.Declared {} :=
  .inr ⟨.iGrLex, .unspecified, by decide, by decide, rfl⟩

/-- What is known of a header that was read. -/
structure RingHeader.Declared (limits : Limits) (h : RingHeader) : Prop where
  selected : h.coefficients.Selected limits
  nodup : h.vars.Nodup
  order : h.order.Declared
  fits : h.order.fault? h.vars.length = none

namespace Reader

variable {limits : Limits}

theorem gives_weightRow : Gives limits weightRow fun _ => True := by
  refine gives_loop (I := fun _ => True) (fun row _ => ?_) trivial
  apply gives_advance.bind
  intro t _
  cases t with
  | word w =>
    dsimp only
    split
    · exact .pure trivial
    · exact gives_invalidRing _
  | op c =>
    dsimp only
    split
    · exact .pure trivial
    · split
      · exact .pure trivial
      · exact gives_invalidRing _
  | quoted t => exact gives_invalidRing _
  | eof => exact .pure trivial

theorem gives_weightArray : Gives limits weightArray fun _ => True := by
  apply gives_advance.bind
  intro t _
  split
  · apply (gives_peek 0).bind
    intro found _
    split
    · refine gives_loop (I := fun _ => True) (fun rows _ => ?_) trivial
      apply gives_advance.bind
      intro next _
      split
      · exact gives_weightRow.bind fun _ _ => .pure trivial
      · split
        · exact .pure trivial
        · split
          · exact .pure trivial
          · exact gives_invalidRing _
    · exact gives_weightRow.bind fun _ _ => .pure trivial
  · exact (gives_pushBack t).bind fun _ _ => .pure trivial

/-- A number in a split fits a machine word. -/
theorem gives_splitPoint : Gives limits splitPoint (· < UInt64.size) := by
  apply gives_advance.bind
  intro t _
  cases t with
  | word w =>
    dsimp only
    split
    · rename_i point _
      exact .pure point.toNat_lt
    · exact gives_invalidRing _
  | _ => exact gives_invalidRing _

theorem gives_splitIndex :
    Gives limits splitIndex fun split => ∀ n ∈ split.entries, n < UInt64.size := by
  apply gives_advance.bind
  intro t _
  split
  · refine gives_splitPoint.bind fun i hi => (gives_skipOp _).bind fun _ _ => .pure ?_
    exact fun n hn => List.mem_singleton.1 hn ▸ hi
  · split
    · apply gives_splitPoint.bind
      intro i hi
      apply gives_advance.bind
      intro next _
      split
      · refine gives_splitPoint.bind fun j hj => (gives_skipOp _).bind fun _ _ => .pure ?_
        intro n hn
        rcases List.mem_cons.1 hn with rfl | hmem
        · exact hi
        · exact List.mem_singleton.1 hmem ▸ hj
      · refine (gives_pushBack next).bind fun _ _ => (gives_skipOp _).bind fun _ _ => .pure ?_
        exact fun n hn => List.mem_singleton.1 hn ▸ hi
    · refine (gives_pushBack t).bind fun _ _ => .pure ?_
      exact fun n hn => absurd hn List.not_mem_nil

/-- An order that is read was declared and fits the variables. -/
theorem gives_termOrder (nvars : Nat) :
    Gives limits (termOrder nvars) fun order => order.Declared ∧ order.fault? nvars = none := by
  have hfitting : ∀ {order : TermOrder}, order.Declared → Gives limits (fitting nvars order)
      fun order => order.Declared ∧ order.fault? nvars = none := by
    intro order horder
    unfold fitting
    split
    · exact gives_invalidRing _
    · rename_i hfault
      exact .pure ⟨horder, hfault⟩
  have hdefault : TermOrder.Declared {} ∧ TermOrder.fault? {} nvars = none :=
    ⟨TermOrder.declared_default, rfl⟩
  apply gives_advance.bind
  intro t _
  cases t with
  | word w =>
    dsimp only
    split
    · exact gives_weightArray.bind fun rows _ => hfitting (.inl ⟨rows, rfl⟩)
    · split
      · rename_i kind hkind
        have hkeywords : ∀ entry ∈ OrderKind.keywords, entry.2 ≠ .weighted := by decide
        obtain ⟨front, behind, heq, -⟩ := List.lookup_eq_some_iff.1 hkind
        have hne : kind ≠ .weighted := hkeywords (w.toUpper, kind) (by simp [heq])
        exact gives_splitIndex.bind fun split hsplit => hfitting (.inr ⟨kind, split, hne, hsplit, rfl⟩)
      · exact (gives_pushBack _).bind fun _ _ => .pure hdefault
  | _ => exact (gives_pushBack _).bind fun _ _ => .pure hdefault

/-- What is known of every header that is read. -/
theorem gives_ringHeader : Gives limits ringHeader (RingHeader.Declared limits) := by
  apply gives_coefficientRing.bind
  intro coefficients hcoefficients
  apply gives_variableList.bind
  intro vars _
  apply (gives_termOrder vars.length).bind
  intro order horder
  refine (gives_orInvalidRing _).bind fun R hR => .pure ?_
  obtain ⟨rfl, hfault, hnodup⟩ := PolyRing.of_make_eq_ok hR
  exact ⟨hcoefficients, hnodup, horder.1, hfault⟩

/-! ### Lists of polynomials -/

section

variable {α : Type} {R : PolyRing α} {C : α → Prop} (hA : R.coefficients.ReadsInto C)
include hA

/-- The polynomials of a list that is read are regular. -/
theorem gives_polynomialList : Gives limits (polynomialList R)
    fun list => ∀ p ∈ list, Poly.Regular R.coefficients R.Supports C p := by
  have hnil : ∀ p ∈ ([] : List (Poly α)), Poly.Regular R.coefficients R.Supports C p :=
    fun p hp => absurd hp List.not_mem_nil
  apply gives_advance.bind
  intro t _
  split
  · exact (gives_pushBack t).bind fun _ _ => .pure hnil
  · apply (gives_peek 0).bind
    intro found _
    split
    · exact gives_advance.bind fun _ _ => .pure hnil
    · refine gives_loop (I := fun list => ∀ p ∈ list, Poly.Regular R.coefficients R.Supports C p)
        (fun list hlist => ?_) hnil
      refine (gives_expression hA none).bind fun result hresult => .pure ?_
      have hnext : ∀ p ∈ list ++ [result.1], Poly.Regular R.coefficients R.Supports C p := by
        intro p hp
        rcases List.mem_append.1 hp with hold | hnew
        · exact hlist p hold
        · exact List.mem_singleton.1 hnew ▸ hresult
      split
      · exact hnext
      · exact hnext

/-- The polynomials of all rows that are read are regular. -/
theorem gives_moduleList : Gives limits (moduleList R)
    fun rows => ∀ row ∈ rows, ∀ p ∈ row, Poly.Regular R.coefficients R.Supports C p := by
  apply gives_advance.bind
  intro t _
  split
  · exact (gives_pushBack t).bind fun _ _ => .pure fun row hrow => absurd hrow List.not_mem_nil
  · refine gives_loop (I := fun rows => ∀ row ∈ rows, ∀ p ∈ row,
      Poly.Regular R.coefficients R.Supports C p) (fun rows hrows => ?_)
      fun row hrow => absurd hrow List.not_mem_nil
    apply gives_advance.bind
    intro next _
    split
    · exact .pure hrows
    · split
      · exact .pure hrows
      · split
        · apply (gives_pushBack next).bind
          intro _ _
          refine (gives_polynomialList hA).bind fun list hlist => .pure ?_
          intro row hrow
          rcases List.mem_append.1 hrow with hold | hnew
          · exact hrows row hold
          · exact List.mem_singleton.1 hnew ▸ hlist
        · exact gives_malformed _

end

end Reader

end PolynomialText
