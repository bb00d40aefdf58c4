import PolynomialText.Proofs.ParallelExpressions
import PolynomialText.Proofs.ReaderResults
import PolynomialText.Proofs.ResidueMaps

/-!
# Reading modulo a number

A text is read over the rational numbers and over the residues modulo a number. Both readers refuse
the same texts as literals, except for those whose denominator cannot be inverted. So the residues
accept an expression if the rational numbers do and every literal in it has a residue, and the
polynomial is then the one over the rational numbers with its coefficients reduced.
-/

namespace PolynomialText

open Reader

/-! ### Literals -/

namespace Residue

variable {α : Type} {m : Nat}

/-- The residues refuse a literal as the rational numbers do, or because of its denominator. -/
theorem readsAlike (hm : 2 ≤ m) (f : Nat → α) (t : Text) :
    ReadsAlike (Admits m) (fun r d => Admits m r ∧ f (ofRat m r) = d) t (Rational.readRational t)
      (((Residue.read m t).map f).mapError Refusal.reason) := by
  unfold Residue.read
  cases hread : Rational.readRational t with
  | error fault => exact rfl
  | ok r =>
    dsimp only
    cases hresidue : ofRat? m r with
    | none =>
      refine ⟨fun hadmits => ?_, splitJuxtaposed?_of_readRational hread⟩
      rw [ofRat?_eq_some (by omega) hadmits] at hresidue
      contradiction
    | some v =>
      have hadmits : Admits m r := (isSome_ofRat?_iff (by omega) r).1 (by rw [hresidue]; rfl)
      have hvalue : ofRat m r = v := by rw [ofRat, hresidue, Option.getD_some]
      exact ⟨⟨hadmits, congrArg f hvalue⟩, hadmits⟩

end Residue

/-! ### Polynomials -/

/-- Reading a polynomial over the rational numbers and over a ring of residues, from one session. -/
structure ReadsModulo {α : Type} (m : Nat) (residue : Rat → α) (R : PolyRing Rat) (S : PolyRing α)
    (s : Session) : Prop where
  /-- What the residues accept, the rational numbers accept up to the same place. All coefficients
  have a residue, and the polynomial is reduced. -/
  lifts : ∀ {q : Poly α} {s' : Session}, polynomial S s = .ok q s' →
    ∃ p s'', polynomial R s = .ok p s'' ∧ s''.Alike s' ∧
      (∀ term ∈ p.terms, term.2.den.Coprime m ∧
        Residue.ofRat? m term.2 = some (Residue.ofRat m term.2)) ∧
      q = p.change S.coefficients residue
  /-- What the rational numbers accept, the residues accept exactly if the denominator of every
  literal that is read on the way is coprime to the modulus. -/
  accepts : ∀ {p : Poly Rat} {s' : Session}, polynomial R s = .ok p s' →
    ∃ literals, tracedPolynomial R s = .ok (p, literals) s' ∧
      ((∃ q s'', polynomial S s = .ok q s'') ↔ ∀ r ∈ literals, r.den.Coprime m)

/-- The polynomial that is read, with the literals on the way. -/
theorem Reader.exists_traced_of_polynomial {α : Type} {R : PolyRing α} {s s' : Session} {p : Poly α}
    (h : polynomial R s = .ok p s') :
    ∃ literals, tracedPolynomial R s = .ok (p, literals) s' := by
  rw [← map_fst_tracedPolynomial] at h
  change EStateM.map Prod.fst (tracedPolynomial R) s = _ at h
  unfold EStateM.map at h
  cases htraced : tracedPolynomial R s with
  | ok a s'' =>
    rw [htraced] at h
    cases h
    exact ⟨a.2, rfl⟩
  | error e s'' =>
    rw [htraced] at h
    cases h

/-- What is read with the literals on the way is the polynomial. -/
theorem Reader.polynomial_of_traced {α : Type} {R : PolyRing α} {s s' : Session}
    {a : Poly α × List α} (h : tracedPolynomial R s = .ok a s') : polynomial R s = .ok a.1 s' := by
  rw [← map_fst_tracedPolynomial]
  change EStateM.map Prod.fst (tracedPolynomial R) s = _
  rw [EStateM.map, h]

section

variable {α : Type} {m : Nat} {f : Nat → α} {B : Arithmetic α} {D : α → Prop} (hm : 2 ≤ m)
  (hmaps : Rational.arithmetic.Maps (Residue.Admits m) B D fun r => f (Residue.ofRat m r))
  (hlaws : B.RingLaws D) (hkind : B.kind.isHypercomplex = false)
  (hreads : ∀ limits depth t, B.readWithin limits depth t =
    ((Residue.read m t).map f).mapError Refusal.reason)
  (vars : List Text) (order : TermOrder)

include hm hmaps hlaws hkind hreads

/-- A ring that reads the residues of rational numbers and computes with them follows the rational
numbers as long as all literals have residues. -/
theorem follows_rational :
    Follows (Residue.Admits m) (fun p q => PolyRing.CanonicalPoly ⟨Rational.arithmetic, vars, order⟩
        (Residue.Admits m) p ∧ p.change B (fun r => f (Residue.ofRat m r)) = q)
      (tracedPolynomial ⟨Rational.arithmetic, vars, order⟩) (polynomial ⟨B, vars, order⟩) := by
  have hliterals : ∀ {limits limits' : Limits}, limits.maxDepth = limits'.maxDepth → ∀ depth t,
      ReadsAlike (Residue.Admits m) (fun r d => Residue.Admits m r ∧ f (Residue.ofRat m r) = d) t
        (Rational.arithmetic.readWithin limits depth t) (B.readWithin limits' depth t) := by
    intro limits limits' _ depth t
    rw [Rational.readWithin_eq, hreads]
    exact Residue.readsAlike hm f t
  have hsimulation := simulation_of_maps (R := ⟨Rational.arithmetic, vars, order⟩)
    (S := ⟨B, vars, order⟩) hmaps (Rational.ringLaws_admits m) hlaws rfl hkind.symm hliterals
  exact hsimulation.tracedPolynomial

/-- Reading commutes with taking residues in every such ring. -/
theorem readsModulo_of_maps (s : Session) :
    ReadsModulo m (fun r => f (Residue.ofRat m r)) ⟨Rational.arithmetic, vars, order⟩
      ⟨B, vars, order⟩ s := by
  have hruns := follows_rational hm hmaps hlaws hkind hreads vars order s s ⟨rfl, rfl, rfl, rfl⟩
  constructor
  · intro q s' hq
    rw [hq] at hruns
    cases htraced : tracedPolynomial ⟨Rational.arithmetic, vars, order⟩ s with
    | error e s'' =>
      rw [htraced] at hruns
      exact absurd hruns id
    | ok a s'' =>
      rw [htraced] at hruns
      obtain ⟨⟨⟨hcanonical, hchange⟩, -⟩, halike⟩ := hruns
      refine ⟨a.1, s'', polynomial_of_traced htraced, halike, ?_, hchange.symm⟩
      intro term hterm
      have hcoprime : Residue.Admits m term.2 := hcanonical.coefficients term hterm
      exact ⟨hcoprime, Residue.ofRat?_eq_some (by omega) hcoprime⟩
  · intro p s' hp
    obtain ⟨literals, htraced⟩ := exists_traced_of_polynomial hp
    refine ⟨literals, htraced, ?_⟩
    rw [htraced] at hruns
    cases hresidues : polynomial ⟨B, vars, order⟩ s with
    | ok q s'' =>
      rw [hresidues] at hruns
      exact iff_of_true ⟨q, s'', rfl⟩ hruns.1.2
    | error e s'' =>
      rw [hresidues] at hruns
      obtain ⟨r, hr, hbad⟩ := hruns
      refine iff_of_false ?_ fun hall => hbad (hall r hr)
      rintro ⟨q, _, hok⟩
      contradiction

end

/-- Reading commutes with taking residues, for moduli in machine words and for moduli of any size:
over the residues, a text gives the polynomial over the rational numbers with its coefficients
reduced, unless a literal has no residue. -/
theorem reading_commutes_with_residues (vars : List Text) (order : TermOrder) (s : Session) :
    (∀ m : WordModulus, ReadsModulo m.value.toNat m.residue ⟨Rational.arithmetic, vars, order⟩
      ⟨m.arithmetic, vars, order⟩ s) ∧
    ∀ m : BigModulus, ReadsModulo m.value m.residue ⟨Rational.arithmetic, vars, order⟩
      ⟨m.arithmetic, vars, order⟩ s := by
  constructor
  · intro m
    exact readsModulo_of_maps m.two_le m.maps_residue m.represents.ringLaws rfl m.readWithin_eq vars
      order s
  · intro m
    exact readsModulo_of_maps m.two_le m.maps_residue m.represents.ringLaws rfl m.readWithin_eq vars
      order s

/-- Modulo six, `1/5 x + 6 y - 1` is `5 x + 5`, and `1/4 - 1/4` is refused although it is zero. -/
theorem read_modulo_six :
    let m : WordModulus := ⟨6, by decide⟩
    let R : PolyRing Rat := ⟨Rational.arithmetic, [['x'], ['y']], {}⟩
    let S : PolyRing UInt64 := ⟨m.arithmetic, [['x'], ['y']], {}⟩
    (∃ p s, polynomial R (.ofText "1/5 x + 6 y - 1".toList) = .ok p s ∧
      ⟨[([0, 0], 5), ([1, 0], 5)]⟩ = p.change m.arithmetic m.residue) ∧
    (∃ s, polynomial R (.ofText "1/4 - 1/4".toList) = .ok .zero s) ∧
    ¬ ∃ q s, polynomial S (.ofText "1/4 - 1/4".toList) = .ok q s := by
  intro m R S
  obtain ⟨t, hreduced⟩ : ∃ t, polynomial S (.ofText "1/5 x + 6 y - 1".toList) =
      .ok ⟨[([0, 0], 5), ([1, 0], 5)]⟩ t := exists_eq_ok (by decide +kernel)
  obtain ⟨u, htraced⟩ : ∃ u, tracedPolynomial R (.ofText "1/4 - 1/4".toList) =
      .ok (.zero, [1/4, 1/4]) u := exists_eq_ok (by decide +kernel)
  have hcancelled := polynomial_of_traced htraced
  obtain ⟨p, s, hp, -, -, hchange⟩ := ((reading_commutes_with_residues R.vars R.order _).1 m).lifts
    hreduced
  obtain ⟨literals, hliterals, haccepts⟩ :=
    ((reading_commutes_with_residues R.vars R.order _).1 m).accepts hcancelled
  refine ⟨⟨p, s, hp, hchange⟩, ⟨u, hcancelled⟩, fun haccepted => ?_⟩
  obtain rfl : [1/4, 1/4] = literals := by
    have hsame := htraced.symm.trans hliterals
    simpa using hsame
  have hcoprime := haccepts.1 haccepted (1/4) (by simp)
  exact absurd hcoprime (by decide +kernel)

end PolynomialText
