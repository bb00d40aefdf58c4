import PolynomialText.Proofs.ReadHeaders
import PolynomialText.Proofs.SafeExpressions

/-!
# Declarations, rings and lists are read without defects

Every reader of a header or a list ends, puts back at most the token that it has read, and leaves the
depth of nesting as it was. A ring whose literals are refused without a defect among the reasons is
reliable; rings of numbers are, and polynomials and residues of polynomials over reliable rings.
-/

namespace PolynomialText

namespace Reader

open Scanner (Below Behind)

variable {deep : Bool}

/-! ### Variables and term orders -/

theorem keeps_variableStep (closer : Char) (names : List Text) (k : Nat) :
    Keeps deep (Below k) (variableStep closer names) (AfterPass k) := by
  apply keeps_advance.bind
  intro t
  cases t with
  | eof => exact keeps_inr _ _
  | word w => exact keeps_inl (by simp) _
  | quoted t => exact keeps_inl (by simp) _
  | op c =>
    dsimp only
    split
    · exact keeps_inr _ _
    · exact keeps_inl (by simp) _

theorem keeps_variableList (k : Nat) : Keeps deep (Below k) variableList fun _ => Below k := by
  apply keeps_advance.bind
  intro t
  have hlist : ∀ closer,
      Keeps deep (Behind k t) (loop (variableStep closer) []) fun _ => Below k :=
    fun closer => (keeps_loop (keeps_variableStep closer) k []).of_imp fun _ h => h.toBelow
  split
  · exact hlist _
  · split
    · exact hlist _
    · exact (keeps_unread t).bind fun _ => .pure fun _ h => h

theorem keeps_weightStep (row : List UInt64) (k : Nat) :
    Keeps deep (Below k) (weightStep row) (AfterPass k) := by
  apply keeps_advance.bind
  intro t
  cases t with
  | eof => exact keeps_inr _ _
  | word w =>
    dsimp only
    split
    · exact keeps_inl (by simp) _
    · exact keeps_invalidRing _
  | quoted t => exact keeps_invalidRing _
  | op c =>
    dsimp only
    split
    · exact keeps_inr _ _
    · split
      · exact keeps_inl (by simp) _
      · exact keeps_invalidRing _

theorem keeps_weightRow (k : Nat) : Keeps deep (Below k) weightRow fun _ => Below k :=
  keeps_loop keeps_weightStep k []

theorem keeps_weightList (k : Nat) : Keeps deep (Below k) weightList fun _ => Below k := by
  apply keeps_advance.bind
  intro t
  split
  · exact (keeps_weightRow k).of_imp fun _ h => h.toBelow
  · exact (keeps_unread t).bind fun _ => .pure fun _ h => h

theorem keeps_weightArrayStep (rows : List (List UInt64)) (k : Nat) :
    Keeps deep (Below k) (weightArrayStep rows) (AfterPass k) := by
  apply keeps_advance.bind
  intro t
  split
  · rename_i ht
    apply ((keeps_weightRow (k - 1)).of_imp fun _ h => h.below_pred (by simp [ht])).bind
    intro row
    exact .pure fun _ h => h
  · split
    · exact keeps_inr _ _
    · split
      · rename_i ht
        exact keeps_inl (by simp [ht]) _
      · exact keeps_invalidRing _

theorem keeps_weightArray (k : Nat) : Keeps deep (Below k) weightArray fun _ => Below k := by
  apply keeps_advance.bind
  intro t
  split
  · apply (keeps_peek behind_of_extends 0).bind
    intro found
    refine Keeps.of_imp ?_ fun s hs => hs.1.toBelow
    split
    · exact keeps_loop keeps_weightArrayStep k []
    · exact (keeps_weightRow k).bind fun _ => .pure fun _ h => h
  · exact (keeps_unread t).bind fun _ => .pure fun _ h => h

theorem keeps_splitPoint (k : Nat) : Keeps deep (Below k) splitPoint fun _ => Below k := by
  apply keeps_advance.bind
  intro t
  cases t with
  | word w =>
    dsimp only
    split
    · exact .pure fun _ h => h.toBelow
    · exact keeps_invalidRing _
  | quoted t => exact keeps_invalidRing _
  | op c => exact keeps_invalidRing _
  | eof => exact keeps_invalidRing _

theorem keeps_splitIndex (k : Nat) : Keeps deep (Below k) splitIndex fun _ => Below k := by
  apply keeps_advance.bind
  intro t
  have hpoint : Keeps deep (Behind k t) splitPoint fun _ => Below k :=
    (keeps_splitPoint k).of_imp fun _ h => h.toBelow
  split
  · apply hpoint.bind
    intro i
    exact (keeps_skipOp '|').bind fun _ => .pure fun _ h => h
  · split
    · apply hpoint.bind
      intro i
      apply keeps_advance.bind
      intro next
      split
      · apply ((keeps_splitPoint k).of_imp fun _ h => h.toBelow).bind
        intro j
        exact (keeps_skipOp ']').bind fun _ => .pure fun _ h => h
      · apply (keeps_unread next).bind
        intro _
        exact (keeps_skipOp ']').bind fun _ => .pure fun _ h => h
    · exact (keeps_unread t).bind fun _ => .pure fun _ h => h

theorem keeps_fitting {P : Scanner → Prop} (nvars : Nat) (order : TermOrder) :
    Keeps deep P (fitting nvars order) fun _ => P := by
  unfold fitting
  split
  · exact keeps_invalidRing _
  · exact .pure fun _ h => h

theorem keeps_termOrder (nvars k : Nat) :
    Keeps deep (Below k) (termOrder nvars) fun _ => Below k := by
  apply keeps_advance.bind
  intro t
  have hnone : Keeps deep (Behind k t)
      (do pushBack t; return ({} : TermOrder)) fun _ => Below k :=
    (keeps_unread t).bind fun _ => .pure fun _ h => h
  cases t with
  | word w =>
    dsimp only
    split
    · apply ((keeps_weightArray k).of_imp fun _ h => h.toBelow).bind
      intro rows
      exact keeps_fitting nvars _
    · split
      · apply ((keeps_splitIndex k).of_imp fun _ h => h.toBelow).bind
        intro split
        exact keeps_fitting nvars _
      · exact hnone
  | quoted u => exact hnone
  | op c => exact hnone
  | eof => exact hnone

end Reader

/-! ### Literals of the coefficient rings -/

section

variable {ε ε' α β : Type} {P : ε → Prop} {P' : ε' → Prop}

theorem refuses_ok (a : α) : Refuses P (.ok a) := by
  intro e h
  contradiction

theorem refuses_error {e : ε} (h : P e) : Refuses P (.error e : Except ε α) := by
  intro e' he'
  rwa [← Except.error.inj he']

theorem Refuses.bind {result : Except ε α} {f : α → Except ε β} (h : Refuses P result)
    (hf : ∀ a, Refuses P (f a)) : Refuses P (result >>= f) := by
  cases result with
  | ok a => exact hf a
  | error e => exact refuses_error (h e rfl)

theorem Refuses.map {result : Except ε α} (h : Refuses P result) (f : α → β) :
    Refuses P (result.map f) := by
  cases result with
  | ok a => exact refuses_ok _
  | error e => exact refuses_error (h e rfl)

theorem Refuses.mapError {result : Except ε α} {f : ε → ε'} (h : Refuses (fun e => P' (f e)) result) :
    Refuses P' (result.mapError f) := by
  cases result with
  | ok a => exact refuses_ok _
  | error e => exact refuses_error (h e rfl)

theorem refuses_mapM {f : α → Except ε β} (h : ∀ a, Refuses P (f a)) (list : List α) :
    Refuses P (list.mapM f) := by
  induction list with
  | nil => exact refuses_ok _
  | cons a rest ih =>
    rw [List.mapM_cons]
    exact (h a).bind fun b => ih.bind fun bs => refuses_ok _

end

/-- A ring of numbers refuses literals everywhere for the same reasons. -/
theorem Arithmetic.reliable_readAnywhere {α : Type} {read : Text → Except Refusal α}
    (h : ∀ t, Refuses (fun refusal => ¬ refusal.reason.Defective) (read t)) (limits : Limits)
    (depth : Nat) (t : Text) :
    Refuses (¬ ·.Defective) (Arithmetic.readAnywhere read limits depth t) := by
  apply Refuses.mapError
  exact h t

theorem refuses_readDecimal (t : Text) : Refuses (¬ ·.Defective) (Rational.readDecimal t) := by
  unfold Rational.readDecimal
  dsimp only
  split
  · exact refuses_error id
  · split
    · exact refuses_error id
    · exact refuses_ok _

theorem refuses_readRational (t : Text) : Refuses (¬ ·.Defective) (Rational.readRational t) := by
  unfold Rational.readRational
  dsimp only
  split
  · exact refuses_error id
  · split
    · exact refuses_readDecimal _
    · apply (refuses_readDecimal _).bind
      intro numerator
      apply (refuses_readDecimal _).bind
      intro denominator
      split
      · exact refuses_error id
      · exact refuses_ok _

theorem Rational.reliable : Rational.arithmetic.Reliable := by
  refine Arithmetic.reliable_readAnywhere fun t => ?_
  apply Refuses.mapError
  exact refuses_readRational t

theorem Integer.reliable : Integer.arithmetic.Reliable :=
  Arithmetic.reliable_readAnywhere fun _ => Refuses.mapError fun _ _ => id

theorem refuses_readResidue (m : Nat) (t : Text) :
    Refuses (fun refusal => ¬ refusal.reason.Defective) (Residue.read m t) := by
  unfold Residue.read
  split
  · rename_i fault hfault
    exact refuses_error (refuses_readRational t fault hfault)
  · split
    · exact refuses_ok _
    · exact refuses_error id

theorem WordModulus.reliable (m : WordModulus) : m.arithmetic.Reliable :=
  Arithmetic.reliable_readAnywhere fun t => (refuses_readResidue m.value.toNat t).map UInt64.ofNat

theorem BigModulus.reliable (m : BigModulus) : m.arithmetic.Reliable :=
  Arithmetic.reliable_readAnywhere fun t =>
    ((refuses_readResidue m.value t).bind fun _ => refuses_ok _).map _

theorem refuses_readComponents (ring : Text) (separators : List Char) (t : Text) :
    Refuses (fun refusal => ¬ refusal.reason.Defective) (Components.read ring separators t) := by
  unfold Components.read
  dsimp only
  split
  · exact refuses_error id
  · refine Refuses.mapError (refuses_mapM (fun part => ?_) _)
    unfold Components.readOne
    split
    · exact refuses_ok _
    · exact refuses_readRational part

theorem Gaussian.reliable : Gaussian.arithmetic.Reliable :=
  Arithmetic.reliable_readAnywhere fun t => (refuses_readComponents _ _ t).map _

theorem refuses_readQuaternion (ring t : Text) :
    Refuses (fun refusal => ¬ refusal.reason.Defective) (Quaternion.readFor ring t) :=
  (refuses_readComponents ring _ t).map _

theorem Quaternion.reliable : Quaternion.arithmetic.Reliable :=
  Arithmetic.reliable_readAnywhere fun t => refuses_readQuaternion _ t

theorem Octonion.reliable : Octonion.arithmetic.Reliable := by
  refine Arithmetic.reliable_readAnywhere fun t => ?_
  have hhalf : ∀ part,
      Refuses (fun refusal => ¬ refusal.reason.Defective) (Octonion.readHalf part) := by
    intro part
    unfold Octonion.readHalf
    split
    · exact refuses_ok _
    · exact refuses_readQuaternion _ part
  unfold Octonion.read
  dsimp only
  split
  · exact refuses_error id
  · exact (hhalf _).bind fun left => (hhalf _).bind fun right => refuses_ok _

theorem FixedDecimal.reliable : FixedDecimal.arithmetic.Reliable := by
  refine Arithmetic.reliable_readAnywhere fun t => Refuses.mapError ?_
  have hnumber : ∀ s, Refuses (¬ ·.Defective)
      ((FixedDecimal.readNumber s).mapError LiteralFault.decimal) :=
    fun s => Refuses.mapError fun _ _ => id
  unfold FixedDecimal.readLiteral
  dsimp only
  split
  · exact hnumber _
  · apply (hnumber _).bind
    intro a
    apply (hnumber _).bind
    intro b
    split
    · exact refuses_ok _
    · exact refuses_error id

/-- A session at the start of a text holds no token. -/
theorem Scanner.proper_ofText (t : Text) : (Scanner.ofText t).Proper := Scanner.proper_of_free rfl

/-- Polynomials are reliable literals if their coefficients are. -/
theorem PolyRing.reliable {α : Type} {R : PolyRing α} (hR : R.coefficients.Reliable) :
    R.arithmetic.Reliable := by
  intro limits depth t
  refine Refuses.mapError ?_
  intro e he
  have hrun := Reader.keeps_polynomial (fun _ : true = true => hR) _ (.ofText t limits depth)
    (Scanner.proper_ofText t) (Nat.lt_succ_self _)
  unfold Reader.polynomialOf at he
  split at he
  · contradiction
  · rename_i e' s hs
    rw [hs] at hrun
    obtain rfl := Except.error.inj he
    exact hrun.1

/-- Residues of polynomials are reliable literals if the coefficients are. -/
theorem Extension.reliable {α : Type} {A : Arithmetic α} (hA : A.Reliable) (E : Extension α) :
    (E.arithmetic A).Reliable :=
  fun limits depth t => (PolyRing.reliable (R := E.ring A) hA limits depth t).map _

/-- Every ring that a descriptor can select is reliable. -/
theorem CoefficientRing.reliable (r : CoefficientRing) : r.arithmetic.Reliable := by
  cases r with
  | rational => exact Rational.reliable
  | integer => exact Integer.reliable
  | word m => exact m.reliable
  | big m => exact m.reliable
  | complex => exact Gaussian.reliable
  | quaternion => exact Quaternion.reliable
  | octonion => exact Octonion.reliable
  | decimal => exact FixedDecimal.reliable
  | function vars => exact PolyRing.reliable Rational.reliable
  | algebraicRational E => exact Extension.reliable Rational.reliable E
  | algebraicModular m E => exact Extension.reliable m.reliable E

namespace Reader

open Scanner (Below Behind)

variable {deep : Bool}

/-! ### Coefficient rings -/

theorem keeps_modulus {P : Scanner → Prop} (t : Token) :
    Keeps deep P (modulus t) fun _ => P := by
  unfold modulus
  split
  · split
    · split
      · exact .pure fun _ h => h
      · exact keeps_invalidRing _
    · exact keeps_invalidRing _
  · exact keeps_invalidRing _

theorem keeps_modular (k : Nat) : Keeps deep (Below k) modular fun _ => Below k := by
  apply keeps_advance.bind
  intro t
  have hring : ∀ m, Keeps deep (Below k)
      (do orInvalidRing (residues (← get).limits.wordModulusLimit m)) fun _ => Below k :=
    fun m => keeps_get.bind fun _ => (keeps_orInvalidRing _).weaken fun _ _ h => h.2
  split
  · apply (keeps_advance.of_imp fun _ h => h.toBelow).bind
    intro word
    apply (keeps_modulus word).bind
    intro m
    apply ((keeps_skipOp ']').of_imp fun _ h => h.toBelow).bind
    intro _
    exact hring m
  · apply (keeps_modulus t).bind
    intro m
    exact (hring m).of_imp fun _ h => h.toBelow

theorem keeps_functionVariables (k : Nat) :
    Keeps deep (Below k) functionVariables fun _ => Below k := by
  apply (keeps_variableList k).bind
  intro vars
  split
  · exact keeps_invalidRing _
  · exact (keeps_orInvalidRing _).bind fun _ => .pure fun _ h => h.2

section

variable {α : Type} {R : PolyRing α} (hR : deep = true → R.coefficients.Reliable)

include hR

theorem keeps_definingPolynomial (k : Nat) :
    Keeps deep (Below k) (definingPolynomial R) fun _ => Below k := by
  apply keeps_advance.bind
  intro t
  have hexpression : ∀ closer, Keeps deep (Below k) (expression R closer) fun _ => Below k :=
    fun closer => (keeps_expression hR k closer).weaken fun _ _ h => h.1
  split
  · apply ((keeps_nested (hexpression none)).of_imp fun _ h => h.toBelow).bind
    intro result
    dsimp only
    split
    · exact keeps_malformed _
    · exact .pure fun _ h => h
  · apply (keeps_unread t).bind
    intro _
    exact (hexpression _).bind fun _ => .pure fun _ h => h

end

theorem keeps_extensionOver {α : Type} {A : Arithmetic α} (hA : A.Reliable)
    (inverse : α → Except RingFault α) (vars : List Text) (k : Nat) :
    Keeps deep (Below k) (extensionOver A inverse vars) fun _ => Below k := by
  apply (keeps_orInvalidRing _).bind
  intro R
  apply Keeps.of_fact
  intro hmake
  obtain ⟨rfl, -⟩ := PolyRing.of_make_eq_ok hmake
  apply (keeps_definingPolynomial (fun _ => hA) k).bind
  intro p
  exact (keeps_orInvalidRing _).weaken fun _ _ h => h.2

theorem keeps_algebraic (k : Nat) : Keeps deep (Below k) algebraic fun _ => Below k := by
  apply keeps_advance.bind
  intro t
  split
  · exact keeps_invalidRing _
  · apply (keeps_advance.of_imp fun _ h => h.toBelow).bind
    intro first
    simp only [pure_bind]
    split
    · apply (keeps_modulus first).bind
      intro m
      apply ((keeps_variableList k).of_imp fun _ h => h.toBelow).bind
      intro vars
      split
      · exact keeps_invalidRing _
      · apply (keeps_orInvalidRing _).bind
        intro base
        apply Keeps.of_fact
        intro _
        apply (keeps_extensionOver base.reliable _ vars k).bind
        intro E
        exact (keeps_skipOp ']').bind fun _ => .pure fun _ h => h
    · apply (keeps_unread first).bind
      intro _
      apply (keeps_variableList k).bind
      intro vars
      split
      · exact keeps_invalidRing _
      · apply (keeps_extensionOver Rational.reliable _ vars k).bind
        intro E
        exact (keeps_skipOp ']').bind fun _ => .pure fun _ h => h

theorem keeps_coefficientRing (k : Nat) :
    Keeps deep (Below k) coefficientRing fun _ => Below k := by
  apply keeps_advance.bind
  intro t
  have hnone : Keeps deep (Behind k t) (do pushBack t; return CoefficientRing.rational)
      fun _ => Below k := (keeps_unread t).bind fun _ => .pure fun _ h => h
  have hplain : ∀ ring : CoefficientRing, Keeps deep (Behind k t) (pure ring) fun _ => Below k :=
    fun ring => .pure fun _ h => h.toBelow
  cases t with
  | word w =>
    dsimp only
    split
    · exact hplain _
    · exact hplain _
    · exact hplain _
    · exact hplain _
    · exact (keeps_advise _).bind fun _ => hplain _
    · exact (keeps_advise _).bind fun _ => hplain _
    · exact (keeps_modular k).of_imp fun _ h => h.toBelow
    · exact keeps_invalidRing _
    · exact (keeps_functionVariables k).of_imp fun _ h => h.toBelow
    · exact (keeps_algebraic k).of_imp fun _ h => h.toBelow
    · exact hnone
  | quoted u => exact hnone
  | op c => exact hnone
  | eof => exact hnone

/-! ### Lists and sets -/

section

variable {α : Type} {R : PolyRing α} (hR : deep = true → R.coefficients.Reliable)

include hR

theorem keeps_listStep (list : List (Poly α)) (k : Nat) :
    Keeps deep (Below k) (listStep R list) (AfterPass k) := by
  apply (keeps_expression hR k none).bind
  intro result
  dsimp only
  split
  · rename_i hcomma
    exact .pure fun s hs => hs.2 (by simp [hcomma])
  · exact .pure fun s hs => hs.1

/-- The polynomials behind an opening parenthesis. -/
theorem keeps_listItems (k : Nat) :
    Keeps deep (Below k) (do
      if (← peek 0) = some ')' then
        let _ ← advance
        return []
      else loop (listStep R) []) fun _ => Below k := by
  apply (keeps_peek below_of_extends 0).bind
  intro found
  refine Keeps.of_imp ?_ fun s hs => hs.1
  split
  · exact keeps_advance.bind fun _ => .pure fun _ h => h.toBelow
  · exact keeps_loop (keeps_listStep hR) k []

theorem keeps_polynomialList (k : Nat) :
    Keeps deep (Below k) (polynomialList R) fun _ => Below k := by
  apply keeps_advance.bind
  intro t
  split
  · exact (keeps_unread t).bind fun _ => .pure fun _ h => h
  · exact (keeps_listItems hR k).of_imp fun _ h => h.toBelow

/-- A list whose opening parenthesis was put back reads it. -/
theorem keeps_polynomialList_held (k : Nat) :
    Keeps deep (fun s => s.held = some (.op '(') ∧ s.Below k) (polynomialList R)
      fun _ => Below (k - 1) := by
  apply (keeps_advance_held (.op '(')).bind
  intro t
  apply Keeps.of_fact
  rintro rfl
  exact (keeps_listItems hR (k - 1)).of_imp fun _ h => h.below_pred (by simp)

theorem keeps_moduleStep (rows : List (List (Poly α))) (k : Nat) :
    Keeps deep (Below k) (moduleStep R rows) (AfterPass k) := by
  apply keeps_advance.bind
  intro t
  split
  · exact keeps_inr _ _
  · split
    · rename_i ht
      exact keeps_inl (by simp [ht]) _
    · split
      · rename_i ht
        subst ht
        apply (keeps_pushBack (.op '(')).bind
        intro _
        exact (keeps_polynomialList_held hR k).bind fun row => .pure fun _ h => h
      · exact keeps_malformed _

theorem keeps_moduleList (k : Nat) : Keeps deep (Below k) (moduleList R) fun _ => Below k := by
  apply keeps_advance.bind
  intro t
  split
  · exact (keeps_unread t).bind fun _ => .pure fun _ h => h
  · exact (keeps_loop (keeps_moduleStep hR) k []).of_imp fun _ h => h.toBelow

end

theorem keeps_ringHeader (k : Nat) : Keeps deep (Below k) ringHeader fun _ => Below k := by
  apply (keeps_coefficientRing k).bind
  intro coefficients
  apply (keeps_variableList k).bind
  intro vars
  apply (keeps_termOrder vars.length k).bind
  intro order
  exact (keeps_orInvalidRing _).bind fun ring => .pure fun _ h => h.2

theorem keeps_polynomialSet (k : Nat) : Keeps deep (Below k) polynomialSet fun _ => Below k := by
  apply (keeps_ringHeader k).bind
  intro header
  apply (keeps_polynomialList (fun _ => header.coefficients.reliable) k).bind
  intro list
  exact .pure fun _ h => h

theorem keeps_moduleSet (k : Nat) : Keeps deep (Below k) moduleSet fun _ => Below k := by
  apply (keeps_ringHeader k).bind
  intro header
  apply (keeps_moduleList (fun _ => header.coefficients.reliable) k).bind
  intro rows
  exact .pure fun _ h => h

end Reader

end PolynomialText
