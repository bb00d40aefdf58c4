import PolynomialText.PolynomialSet
import PolynomialText.Proofs.ParallelExpressions
import PolynomialText.Proofs.ReadHeaders

/-!
# Declarations and lists side by side

The readers of variables and term orders are steady: the size of machine words does not matter to
them. Nor does it matter to the literals of any ring that a descriptor can select, since an
expression that is read as a literal is read over the same ring on both sides. Lists of polynomials
over two rings are parallel if expressions over these rings are.
-/

namespace PolynomialText

namespace Reader

/-! ### Variables and term orders -/

theorem steady_variableStep (closer : Char) (names : List Text) :
    Steady (variableStep closer names) := by
  apply steady_advance.bind
  intro t
  cases t with
  | eof => exact .pure rfl
  | word w => exact .pure rfl
  | quoted t => exact .pure rfl
  | op c => exact .pure rfl

theorem steady_variableList : Steady variableList := by
  apply steady_advance.bind
  intro t
  split
  · exact steady_loop (steady_variableStep _) _
  · split
    · exact steady_loop (steady_variableStep _) _
    · exact (steady_pushBack t).bind fun _ => .pure rfl

theorem steady_weightStep (row : List UInt64) : Steady (weightStep row) := by
  apply steady_advance.bind
  intro t
  cases t with
  | eof => exact .pure rfl
  | word w =>
    dsimp only
    split
    · exact .pure rfl
    · exact beside_invalidRing _
  | quoted t => exact beside_invalidRing _
  | op c =>
    dsimp only
    split
    · exact .pure rfl
    · split
      · exact .pure rfl
      · exact beside_invalidRing _

theorem steady_weightRow : Steady weightRow := steady_loop steady_weightStep _

theorem steady_weightArrayStep (rows : List (List UInt64)) : Steady (weightArrayStep rows) := by
  apply steady_advance.bind
  intro t
  split
  · exact steady_weightRow.bind fun _ => .pure rfl
  · split
    · exact .pure rfl
    · split
      · exact .pure rfl
      · exact beside_invalidRing _

theorem steady_weightArray : Steady weightArray := by
  apply steady_advance.bind
  intro t
  split
  · apply (steady_peek 0).bind
    intro found
    split
    · exact steady_loop steady_weightArrayStep _
    · exact steady_weightRow.bind fun _ => .pure rfl
  · exact (steady_pushBack t).bind fun _ => .pure rfl

theorem steady_splitPoint : Steady splitPoint := by
  apply steady_advance.bind
  intro t
  cases t with
  | word w =>
    dsimp only
    split
    · exact .pure rfl
    · exact beside_invalidRing _
  | quoted t => exact beside_invalidRing _
  | op c => exact beside_invalidRing _
  | eof => exact beside_invalidRing _

theorem steady_splitIndex : Steady splitIndex := by
  apply steady_advance.bind
  intro t
  split
  · apply steady_splitPoint.bind
    intro i
    exact (steady_skipOp '|').bind fun _ => .pure rfl
  · split
    · apply steady_splitPoint.bind
      intro i
      apply steady_advance.bind
      intro next
      split
      · apply steady_splitPoint.bind
        intro j
        exact (steady_skipOp ']').bind fun _ => .pure rfl
      · apply (steady_pushBack next).bind
        intro _
        exact (steady_skipOp ']').bind fun _ => .pure rfl
    · exact (steady_pushBack t).bind fun _ => .pure rfl

theorem steady_fitting (nvars : Nat) (order : TermOrder) : Steady (fitting nvars order) := by
  unfold fitting
  split
  · exact beside_invalidRing _
  · exact .pure rfl

theorem steady_termOrder (nvars : Nat) : Steady (termOrder nvars) := by
  apply steady_advance.bind
  intro t
  have hnone : Steady (do pushBack t; return ({} : TermOrder)) :=
    (steady_pushBack t).bind fun _ => .pure rfl
  cases t with
  | word w =>
    dsimp only
    split
    · exact steady_weightArray.bind fun _ => steady_fitting nvars _
    · split
      · exact steady_splitIndex.bind fun _ => steady_fitting nvars _
      · exact hnone
  | quoted u => exact hnone
  | op c => exact hnone
  | eof => exact hnone

end Reader

/-! ### Literals of the coefficient rings -/

/-- Literals in an expression do not depend on the size of machine words. -/
def Arithmetic.Steady {α : Type} (A : Arithmetic α) : Prop :=
  ∀ {limits limits' : Limits}, limits.maxDepth = limits'.maxDepth → ∀ depth t,
    A.readWithin limits depth t = A.readWithin limits' depth t

namespace Reader

section

variable {α : Type} {R : PolyRing α}

/-- Every expression over a ring is read alike twice. -/
theorem simulation_refl (h : R.coefficients.Steady) :
    Simulation R R (fun _ => True) (· = ·) (· = ·) where
  names _ := rfl
  hypercomplex_eq := rfl
  reads hlimits depth t := by
    rw [h hlimits depth t]
    cases R.coefficients.readWithin _ depth t with
    | ok c => exact ⟨rfl, trivial⟩
    | error fault => exact rfl
  zero := rfl
  one := rfl
  neg := by rintro p _ rfl; rfl
  add := by rintro p p' _ _ rfl rfl; rfl
  scale := by rintro p _ c _ rfl rfl exponent; rfl
  mul_variable := by
    rintro p _ w index index' rfl hindex hindex' exponent
    rw [Option.some.inj (hindex.symm.trans hindex')]
  mul_power := by rintro p p' _ _ rfl rfl exponent; rfl

theorem steady_expression (h : R.coefficients.Steady) (closer : Option Char) :
    Steady (expression R closer) :=
  ((simulation_refl h).expression (fun _ => trivial) closer).imp
    (fun _ _ hresult => Prod.ext hresult.1 hresult.2) (fun _ h => h) id

/-- A text is the same polynomial for every size of machine words. -/
theorem polynomialOf_eq (h : R.coefficients.Steady) {limits limits' : Limits}
    (hlimits : limits.maxDepth = limits'.maxDepth) (depth : Nat) (t : Text) :
    polynomialOf R limits depth t = polynomialOf R limits' depth t := by
  have hpolynomial : Steady (polynomial R) := (steady_expression h none).bind fun _ => .pure rfl
  have hruns := hpolynomial (.ofText t limits depth) (.ofText t limits' depth)
    ⟨rfl, rfl, rfl, hlimits⟩
  unfold polynomialOf
  generalize polynomial R (.ofText t limits depth) = left at hruns ⊢
  generalize polynomial R (.ofText t limits' depth) = right at hruns ⊢
  cases left with
  | ok p s =>
    cases right with
    | ok q s' => rw [hruns.1]
    | error e s' => exact absurd hruns id
  | error e s =>
    cases right with
    | ok q s' => exact absurd hruns id
    | error e' s' => rw [(hruns.resolve_right id).1]

end

end Reader

/-- Polynomials are literals that do not depend on the size of machine words, if their coefficients
do not. -/
theorem PolyRing.steady_arithmetic {α : Type} {R : PolyRing α} (h : R.coefficients.Steady) :
    R.arithmetic.Steady := by
  intro limits limits' hlimits depth t
  change (Reader.polynomialOf R limits depth t).mapError _ =
    (Reader.polynomialOf R limits' depth t).mapError _
  rw [Reader.polynomialOf_eq h hlimits]

/-- Residues of polynomials are literals that do not depend on the size of machine words, if the
coefficients do not. -/
theorem Extension.steady_arithmetic {α : Type} {A : Arithmetic α} (h : A.Steady) (E : Extension α) :
    (E.arithmetic A).Steady := by
  intro limits limits' hlimits depth t
  exact congrArg (Except.map (E.reduce A))
    (PolyRing.steady_arithmetic (R := E.ring A) h hlimits depth t)

/-- Literals of a ring of numbers are the same everywhere. -/
theorem Rational.steady : Rational.arithmetic.Steady := fun _ _ _ => rfl

theorem BigModulus.steady (m : BigModulus) : m.arithmetic.Steady := fun _ _ _ => rfl

/-- The literals of every ring that a descriptor can select are independent of the size of machine
words. -/
theorem CoefficientRing.steady (r : CoefficientRing) : r.arithmetic.Steady := by
  cases r with
  | rational => exact Rational.steady
  | integer => exact fun _ _ _ => rfl
  | word m => exact fun _ _ _ => rfl
  | big m => exact m.steady
  | complex => exact fun _ _ _ => rfl
  | quaternion => exact fun _ _ _ => rfl
  | octonion => exact fun _ _ _ => rfl
  | decimal => exact fun _ _ _ => rfl
  | function vars => exact PolyRing.steady_arithmetic Rational.steady
  | algebraicRational E => exact Extension.steady_arithmetic Rational.steady E
  | algebraicModular m E => exact Extension.steady_arithmetic m.steady E

namespace Reader

/-! ### Coefficient rings that are no residues -/

/-- Two attempts to build something that give related results, or the same fault. -/
def BuiltAlike {α β : Type} (Rel : α → β → Prop) : Except RingFault α → Except RingFault β → Prop
  | .ok a, .ok b => Rel a b
  | .error fault, .error fault' => fault = fault'
  | _, _ => False

section

variable {α β : Type} {Rel Rel' : α → β → Prop} {result : Except RingFault α}
  {result' : Except RingFault β}

theorem BuiltAlike.refl {Rel : α → α → Prop} (h : ∀ a, Rel a a) (result : Except RingFault α) :
    BuiltAlike Rel result result := by
  cases result with
  | ok a => exact h a
  | error fault => exact rfl

theorem BuiltAlike.imp (h : BuiltAlike Rel result result') (himp : ∀ a b, Rel a b → Rel' a b) :
    BuiltAlike Rel' result result' := by
  cases result with
  | ok a =>
    cases result' with
    | ok b => exact himp a b h
    | error fault' => exact h
  | error fault =>
    cases result' with
    | ok b => exact h
    | error fault' => exact h

theorem BuiltAlike.symm (h : BuiltAlike Rel result result') :
    BuiltAlike (fun b a => Rel a b) result' result := by
  cases result with
  | ok a =>
    cases result' with
    | ok b => exact h
    | error fault' => exact h
  | error fault =>
    cases result' with
    | ok b => exact h
    | error fault' => exact Eq.symm h

theorem parallel_orInvalidRing (h : BuiltAlike Rel result result') :
    Parallel Rel (orInvalidRing result) (orInvalidRing result') := by
  cases result with
  | ok a =>
    cases result' with
    | ok b => exact .pure h
    | error fault' => exact absurd h id
  | error fault =>
    cases result' with
    | ok b => exact absurd h id
    | error fault' =>
      obtain rfl : fault = fault' := h
      exact beside_invalidRing _

end

theorem steady_modulus (t : Token) : Steady (modulus t) := by
  unfold modulus
  split
  · split
    · split
      · exact .pure rfl
      · exact beside_invalidRing _
    · exact beside_invalidRing _
  · exact beside_invalidRing _

theorem steady_functionVariables : Steady functionVariables := by
  apply steady_variableList.bind
  intro vars
  split
  · exact beside_invalidRing _
  · exact (steady_orInvalidRing _).bind fun _ => .pure rfl

section

variable {α : Type}

theorem steady_definingPolynomial {R : PolyRing α} (h : R.coefficients.Steady) :
    Steady (definingPolynomial R) := by
  apply steady_advance.bind
  intro t
  split
  · apply (steady_expression h none).nested.bind
    intro result
    dsimp only
    split
    · exact beside_malformed _
    · exact .pure rfl
  · apply (steady_pushBack t).bind
    intro _
    exact (steady_expression h _).bind fun _ => .pure rfl

theorem steady_extensionOver {A : Arithmetic α} (h : A.Steady) (inverse : α → Except RingFault α)
    (vars : List Text) : Steady (extensionOver A inverse vars) := by
  have hmake : BuiltAlike (fun R R' => R = ⟨A, vars, {}⟩ ∧ R' = R) (PolyRing.make A vars {})
      (PolyRing.make A vars {}) := by
    cases hring : PolyRing.make A vars {} with
    | error fault => exact rfl
    | ok R => exact ⟨(PolyRing.of_make_eq_ok hring).1, rfl⟩
  apply (parallel_orInvalidRing hmake).bind
  rintro _ _ ⟨rfl, rfl⟩
  apply (steady_definingPolynomial h).bind
  intro p
  exact steady_orInvalidRing _

end

theorem steady_algebraic : Steady algebraic := by
  apply steady_advance.bind
  intro t
  split
  · exact beside_invalidRing _
  · apply steady_advance.bind
    intro first
    simp only [pure_bind]
    split
    · apply (steady_modulus first).bind
      intro m
      apply steady_variableList.bind
      intro vars
      split
      · exact beside_invalidRing _
      · apply (steady_orInvalidRing _).bind
        intro base
        apply (steady_extensionOver base.steady _ vars).bind
        intro E
        exact (steady_skipOp ']').bind fun _ => .pure rfl
    · apply (steady_pushBack first).bind
      intro _
      apply steady_variableList.bind
      intro vars
      split
      · exact beside_invalidRing _
      · apply (steady_extensionOver Rational.steady _ vars).bind
        intro E
        exact (steady_skipOp ']').bind fun _ => .pure rfl

/-! ### Lists -/

section

variable {α β : Type} {R : PolyRing α} {S : PolyRing β} {Rel : Poly α → Poly β → Prop}
  (h : Parallel (fun result result' => Rel result.1 result'.1 ∧ result.2 = result'.2)
    (expression R none) (expression S none))

include h

theorem parallel_listStep {list : List (Poly α)} {list' : List (Poly β)}
    (hlist : List.Forall₂ Rel list list') :
    Parallel (Sum.LiftRel (List.Forall₂ Rel) (List.Forall₂ Rel)) (listStep R list)
      (listStep S list') := by
  apply Parallel.bind h
  rintro ⟨p, terminator⟩ ⟨q, _⟩ ⟨hp, rfl⟩
  have hnext : List.Forall₂ Rel (list ++ [p]) (list' ++ [q]) :=
    List.rel_append hlist (.cons hp .nil)
  dsimp only
  split
  · exact .pure (.inl hnext)
  · exact .pure (.inr hnext)

theorem parallel_polynomialList :
    Parallel (List.Forall₂ Rel) (polynomialList R) (polynomialList S) := by
  apply steady_advance.bind
  intro t
  split
  · exact (steady_pushBack t).bind fun _ => .pure .nil
  · apply (steady_peek 0).bind
    intro found
    split
    · exact steady_advance.bind fun _ => .pure .nil
    · exact parallel_loop (fun _ _ => parallel_listStep h) .nil

theorem parallel_moduleStep {rows : List (List (Poly α))} {rows' : List (List (Poly β))}
    (hrows : List.Forall₂ (List.Forall₂ Rel) rows rows') :
    Parallel (Sum.LiftRel (List.Forall₂ (List.Forall₂ Rel)) (List.Forall₂ (List.Forall₂ Rel)))
      (moduleStep R rows) (moduleStep S rows') := by
  apply steady_advance.bind
  intro t
  split
  · exact .pure (.inr hrows)
  · split
    · exact .pure (.inl hrows)
    · split
      · apply (steady_pushBack t).bind
        intro _
        apply (parallel_polynomialList h).bind
        intro row row' hrow
        exact .pure (.inl (List.rel_append hrows (.cons hrow .nil)))
      · exact beside_malformed _

theorem parallel_moduleList :
    Parallel (List.Forall₂ (List.Forall₂ Rel)) (moduleList R) (moduleList S) := by
  apply steady_advance.bind
  intro t
  split
  · exact (steady_pushBack t).bind fun _ => .pure .nil
  · exact parallel_loop (fun _ _ => parallel_moduleStep h) .nil

end

end Reader

end PolynomialText
