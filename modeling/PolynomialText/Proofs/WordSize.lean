import PolynomialText.Proofs.ParallelDeclarations
import PolynomialText.Proofs.ResidueMaps

/-!
# The size of machine words

Residues modulo a small number are kept in machine words, and modulo a large one as integers; the
limits of a session say where the large numbers begin. Both ways compute in the same ring and write
residues alike, so that the limit cannot be seen: a set that is read under two limits has the same
text, and the same polynomials up to the way in which residues are kept.
-/

namespace PolynomialText

/-! ### One modulus, two ways -/

namespace WordModulus

variable (w : WordModulus)

/-- The modulus without a bound on its size. -/
def widen : BigModulus := ⟨w.value.toNat, w.two_le⟩

/-- Machine words are kept as integers without changing what is computed or written. -/
theorem embeds_widen :
    w.arithmetic.Embeds w.Reduced w.widen.arithmetic w.widen.Reduced fun a => (a.toNat : Int) where
  toMaps := by
    apply w.represents.evaluates.maps w.represents.ringLaws w.widen.represents
    intro a ha
    exact ⟨⟨Int.natCast_nonneg _, Int.ofNat_lt.2 ha⟩, Int.cast_natCast _⟩
  injective _ _ h := UInt64.toNat.inj (Int.ofNat.inj h)
  format_eq _ := rfl

/-- A literal is the same residue both ways, or is refused for the same reason. -/
theorem readsAlike_widen (limits limits' : Limits) (depth : Nat) (t : Text) :
    Reader.ReadsAlike (fun _ => True) (fun a b => w.Reduced a ∧ (a.toNat : Int) = b) t
      (w.arithmetic.readWithin limits depth t) (w.widen.arithmetic.readWithin limits' depth t) := by
  rw [w.readWithin_eq, w.widen.readWithin_eq, widen]
  cases hread : Residue.read w.value.toNat t with
  | error refusal => exact rfl
  | ok n =>
    have hlt := Residue.lt_of_read_eq_ok w.two_le hread
    have hvalue : (UInt64.ofNat n).toNat = n :=
      UInt64.toNat_ofNat_of_lt' (hlt.trans w.value.toNat_lt)
    refine ⟨⟨?_, congrArg Int.ofNat hvalue⟩, trivial⟩
    rw [Reduced, hvalue]
    exact hlt

/-- Expressions are read alike both ways. -/
theorem simulation_widen (vars : List Text) (order : TermOrder) :
    Reader.Simulation ⟨w.arithmetic, vars, order⟩ ⟨w.widen.arithmetic, vars, order⟩ (fun _ => True)
      (fun a b => w.Reduced a ∧ (a.toNat : Int) = b)
      fun p q => PolyRing.CanonicalPoly ⟨w.arithmetic, vars, order⟩ w.Reduced p ∧
        p.change w.widen.arithmetic (fun a => (a.toNat : Int)) = q :=
  Reader.simulation_of_maps w.embeds_widen.toMaps w.represents.ringLaws
    w.widen.represents.ringLaws rfl rfl fun _ => w.readsAlike_widen _ _

end WordModulus

/-! ### What two runs have in common -/

/-- Coefficient rings that are equal, or that keep the residues modulo one number in the two ways,
with the relation between elements of one value. -/
inductive CoefficientRing.Matches :
    (r r' : CoefficientRing) → (r.Elem → r'.Elem → Prop) → Prop where
  | same (r : CoefficientRing) : Matches r r (· = ·)
  | wider (w : WordModulus) :
    Matches (.word w) (.big w.widen) fun (a : UInt64) (b : Int) => (a.toNat : Int) = b
  | narrower (w : WordModulus) :
    Matches (.big w.widen) (.word w) fun (b : Int) (a : UInt64) => (a.toNat : Int) = b

/-- Polynomials with the same exponents and related coefficients. -/
def Poly.Matches {α β : Type} (Rel : α → β → Prop) (p : Poly α) (q : Poly β) : Prop :=
  List.Forall₂ (fun s t => s.1 = t.1 ∧ Rel s.2 t.2) p.terms q.terms

/-- Headers that differ at most in how residues are kept. -/
structure RingHeader.Matches (h h' : RingHeader)
    (Rel : h.coefficients.Elem → h'.coefficients.Elem → Prop) : Prop where
  coefficients : h.coefficients.Matches h'.coefficients Rel
  vars_eq : h.vars = h'.vars
  order_eq : h.order = h'.order

/-- Sets of polynomials that differ at most in how residues are kept. -/
structure PolynomialSet.Matches (s s' : PolynomialSet) : Prop where
  text_eq : s.text = s'.text
  length_eq : s.polynomials.length = s'.polynomials.length
  polynomials : ∃ Rel, s.header.Matches s'.header Rel ∧
    List.Forall₂ (Poly.Matches Rel) s.polynomials s'.polynomials

/-- Sets of rows that differ at most in how residues are kept. -/
structure ModuleSet.Matches (s s' : ModuleSet) : Prop where
  text_eq : s.text = s'.text
  length_eq : s.rows.length = s'.rows.length
  columns_eq : s.columns = s'.columns
  rows : ∃ Rel, s.header.Matches s'.header Rel ∧
    List.Forall₂ (List.Forall₂ (Poly.Matches Rel)) s.rows s'.rows

/-- Matching polynomials that are also written alike. -/
def PolyRing.Corresponds {α β : Type} (R : PolyRing α) (S : PolyRing β) (Rel : α → β → Prop)
    (p : Poly α) (q : Poly β) : Prop :=
  p.Matches Rel q ∧ R.format p = S.format q

theorem PolyRing.Corresponds.symm {α β : Type} {R : PolyRing α} {S : PolyRing β}
    {Rel : α → β → Prop} {p : Poly α} {q : Poly β} (h : R.Corresponds S Rel p q) :
    S.Corresponds R (fun b a => Rel a b) q p := by
  refine ⟨List.Forall₂.flip ?_, h.2.symm⟩
  exact h.1.imp fun s t hst => ⟨hst.1.symm, hst.2⟩

/-- Polynomials over machine words and their counterparts. -/
theorem WordModulus.corresponds_widen (w : WordModulus) {vars : List Text} {order : TermOrder}
    {p : Poly UInt64} (hp : PolyRing.CanonicalPoly ⟨w.arithmetic, vars, order⟩ w.Reduced p) :
    PolyRing.Corresponds ⟨w.arithmetic, vars, order⟩ ⟨w.widen.arithmetic, vars, order⟩
      (fun a b => (a.toNat : Int) = b) p
      (p.change w.widen.arithmetic fun a => (a.toNat : Int)) := by
  have hlaws := w.represents.ringLaws
  constructor
  · rw [Poly.Matches, Poly.terms_change (R := ⟨w.arithmetic, vars, order⟩)
      (S := ⟨w.widen.arithmetic, vars, order⟩) w.embeds_widen hlaws hp,
      List.forall₂_map_right_iff, List.forall₂_same]
    intro t _
    exact ⟨rfl, rfl⟩
  · exact (PolyRing.format_change (R := ⟨w.arithmetic, vars, order⟩)
      (S := ⟨w.widen.arithmetic, vars, order⟩) w.embeds_widen hlaws rfl rfl hp).symm

namespace Reader

/-! ### Rings -/

/-- A number that fits a machine word is a modulus both ways, or too small both ways. -/
theorem builtAlike_widen {m : Int} (hm : 0 ≤ m) (hlt : m < UInt64.size) :
    BuiltAlike (fun r r' => ∃ w : WordModulus, r = .word w ∧ r' = .big w.widen)
      ((WordModulus.ofWord (.ofNat m.toNat)).map CoefficientRing.word)
      ((BigModulus.ofInt m).map CoefficientRing.big) := by
  have hvalue : (UInt64.ofNat m.toNat).toNat = m.toNat := UInt64.toNat_ofNat_of_lt' (by omega)
  unfold WordModulus.ofWord BigModulus.ofInt
  by_cases htwo : 2 ≤ m.toNat
  · rw [dif_pos (hvalue.symm ▸ htwo), dif_pos htwo]
    exact ⟨_, rfl, by simp only [WordModulus.widen, hvalue]⟩
  · rw [dif_neg (hvalue.symm ▸ htwo), dif_neg htwo, hvalue, Int.toNat_of_nonneg hm]
    exact rfl

/-- Residues under two limits. -/
theorem builtAlike_residues (limit limit' : UInt64) (m : Int) :
    BuiltAlike (fun r r' => ∃ Rel, r.Matches r' Rel) (residues limit m) (residues limit' m) := by
  have hsame : ∀ r : CoefficientRing, ∃ Rel, r.Matches r Rel := fun r => ⟨_, .same r⟩
  have hsize : limit.toNat < UInt64.size ∧ limit'.toNat < UInt64.size :=
    ⟨limit.toNat_lt, limit'.toNat_lt⟩
  -- A negative number is below both limits; one that is between them fits a machine word.
  unfold residues
  split
  · split
    · exact .refl hsame _
    · refine (builtAlike_widen (by omega) (by omega)).imp ?_
      rintro _ _ ⟨w, rfl, rfl⟩
      exact ⟨_, .wider w⟩
  · split
    · refine (builtAlike_widen (by omega) (by omega)).symm.imp ?_
      rintro _ _ ⟨w, rfl, rfl⟩
      exact ⟨_, .narrower w⟩
    · exact .refl hsame _

theorem parallel_modular :
    Parallel (fun r r' => ∃ Rel, CoefficientRing.Matches r r' Rel) modular modular := by
  have hring : ∀ m, Parallel (fun r r' => ∃ Rel, CoefficientRing.Matches r r' Rel)
      (do orInvalidRing (residues (← get).limits.wordModulusLimit m))
      (do orInvalidRing (residues (← get).limits.wordModulusLimit m)) := by
    intro m
    apply parallel_get.bind
    intro s s' _
    exact parallel_orInvalidRing (builtAlike_residues _ _ m)
  apply steady_advance.bind
  intro t
  split
  · apply steady_advance.bind
    intro word
    apply (steady_modulus word).bind
    intro m
    apply (steady_skipOp ']').bind
    intro _
    exact hring m
  · apply (steady_modulus t).bind
    intro m
    exact hring m

theorem parallel_coefficientRing :
    Parallel (fun r r' => ∃ Rel, CoefficientRing.Matches r r' Rel) coefficientRing
      coefficientRing := by
  apply steady_advance.bind
  intro t
  have hsteady : ∀ {r : Reader CoefficientRing}, Steady r →
      Parallel (fun r r' => ∃ Rel, CoefficientRing.Matches r r' Rel) r r := by
    intro r hr
    refine hr.imp ?_ (fun _ h => h) id
    rintro ring _ rfl
    exact ⟨_, .same ring⟩
  have hplain : ∀ ring : CoefficientRing, Steady (pure ring) := fun ring => .pure rfl
  have hnone : Steady (do pushBack t; return CoefficientRing.rational) :=
    (steady_pushBack t).bind fun _ => .pure rfl
  cases t with
  | word w =>
    dsimp only
    split
    · exact hsteady (hplain _)
    · exact hsteady (hplain _)
    · exact hsteady (hplain _)
    · exact hsteady (hplain _)
    · exact hsteady ((steady_advise _).bind fun _ => hplain _)
    · exact hsteady ((steady_advise _).bind fun _ => hplain _)
    · exact parallel_modular
    · exact beside_invalidRing _
    · exact hsteady steady_functionVariables
    · exact hsteady steady_algebraic
    · exact hsteady hnone
  | quoted u => exact hsteady hnone
  | op c => exact hsteady hnone
  | eof => exact hsteady hnone

/-- Whether variables and an order make a ring does not depend on the coefficients. -/
theorem builtAlike_make {α β : Type} (A : Arithmetic α) (B : Arithmetic β) (vars : List Text)
    (order : TermOrder) :
    BuiltAlike (fun R S => R.vars = S.vars ∧ R.order = S.order) (PolyRing.make A vars order)
      (PolyRing.make B vars order) := by
  unfold PolyRing.make
  split
  · exact rfl
  · exact rfl
  · exact ⟨rfl, rfl⟩

theorem parallel_ringHeader :
    Parallel (fun h h' => ∃ Rel, RingHeader.Matches h h' Rel) ringHeader ringHeader := by
  apply parallel_coefficientRing.bind
  rintro r r' ⟨Rel, hr⟩
  apply steady_variableList.bind
  intro vars
  apply (steady_termOrder vars.length).bind
  intro order
  apply (parallel_orInvalidRing (builtAlike_make r.arithmetic r'.arithmetic vars order)).bind
  intro R S hRS
  exact .pure ⟨Rel, hr, hRS.1, hRS.2⟩

/-! ### Polynomials and sets -/

/-- Expressions over matching rings. -/
theorem parallel_expression {r r' : CoefficientRing} {Rel : r.Elem → r'.Elem → Prop}
    (h : r.Matches r' Rel) (vars : List Text) (order : TermOrder) (closer : Option Char) :
    Parallel (fun result result' => PolyRing.Corresponds ⟨r.arithmetic, vars, order⟩
        ⟨r'.arithmetic, vars, order⟩ Rel result.1 result'.1 ∧ result.2 = result'.2)
      (expression ⟨r.arithmetic, vars, order⟩ closer)
      (expression ⟨r'.arithmetic, vars, order⟩ closer) := by
  have hwiden : ∀ w : WordModulus, Parallel (fun result result' =>
      PolyRing.Corresponds ⟨w.arithmetic, vars, order⟩ ⟨w.widen.arithmetic, vars, order⟩
        (fun a b => (a.toNat : Int) = b) result.1 result'.1 ∧ result.2 = result'.2)
      (expression ⟨w.arithmetic, vars, order⟩ closer)
      (expression ⟨w.widen.arithmetic, vars, order⟩ closer) := by
    intro w
    refine ((w.simulation_widen vars order).expression (fun _ => trivial) closer).imp ?_
      (fun _ h => h) id
    rintro ⟨p, terminator⟩ ⟨_, _⟩ ⟨⟨hp, rfl⟩, rfl⟩
    exact ⟨w.corresponds_widen hp, rfl⟩
  cases h with
  | same =>
    refine (steady_expression (R := ⟨r.arithmetic, vars, order⟩) r.steady closer).imp ?_
      (fun _ h => h) id
    rintro result _ rfl
    exact ⟨⟨List.forall₂_same.2 fun _ _ => ⟨rfl, rfl⟩, rfl⟩, rfl⟩
  | wider w => exact hwiden w
  | narrower w =>
    refine (hwiden w).symm.imp ?_ (fun _ h => h) id
    rintro result result' ⟨hresult, hterminator⟩
    exact ⟨hresult.symm, hterminator.symm⟩

end Reader

/-- Matching rings are described alike. -/
theorem CoefficientRing.Matches.descriptor_eq {r r' : CoefficientRing}
    {Rel : r.Elem → r'.Elem → Prop} (h : r.Matches r' Rel) :
    r.arithmetic.descriptor = r'.arithmetic.descriptor := by
  cases h with
  | same => rfl
  | wider w => rfl
  | narrower w => rfl

/-- Matching headers are written alike. -/
theorem RingHeader.Matches.text_eq {h h' : RingHeader}
    {Rel : h.coefficients.Elem → h'.coefficients.Elem → Prop} (hmatch : h.Matches h' Rel) :
    h.text = h'.text := by
  simp only [text, ring, PolyRing.header, hmatch.coefficients.descriptor_eq, hmatch.vars_eq,
    hmatch.order_eq]

section

variable {h h' : RingHeader} {Rel : h.coefficients.Elem → h'.coefficients.Elem → Prop}

/-- Lists that correspond are written alike. -/
theorem map_format_eq {list : List h.Polynomial} {list' : List h'.Polynomial}
    (hlist : List.Forall₂ (h.ring.Corresponds h'.ring Rel) list list') :
    list.map h.ring.format = list'.map h'.ring.format := by
  rw [← List.forall₂_eq_eq_eq, List.forall₂_map_left_iff, List.forall₂_map_right_iff]
  exact hlist.imp fun p q hpq => hpq.2

/-- Rows that correspond have one length when they are filled up. -/
theorem longestRow_eq {rows : List (List h.Polynomial)} {rows' : List (List h'.Polynomial)}
    (hrows : List.Forall₂ (List.Forall₂ (h.ring.Corresponds h'.ring Rel)) rows rows') :
    longestRow rows = longestRow rows' := by
  induction hrows with
  | nil => rfl
  | @cons row row' rest rest' hrow _ ih =>
    change max row.length (longestRow rest) = max row'.length (longestRow rest')
    rw [hrow.length_eq, ih]

/-- Rows that correspond still do when they are filled up. -/
theorem corresponds_padRows {rows : List (List h.Polynomial)} {rows' : List (List h'.Polynomial)}
    (hrows : List.Forall₂ (List.Forall₂ (h.ring.Corresponds h'.ring Rel)) rows rows') :
    List.Forall₂ (List.Forall₂ (h.ring.Corresponds h'.ring Rel)) (padRows rows) (padRows rows') := by
  have hzero : h.ring.Corresponds h'.ring Rel .zero .zero :=
    ⟨.nil, by simp only [PolyRing.format, PolyRing.descending, Poly.zero, List.mergeSort_nil]⟩
  have hzeros : ∀ n, List.Forall₂ (h.ring.Corresponds h'.ring Rel) (.replicate n .zero)
      (.replicate n .zero) := by
    intro n
    induction n with
    | zero => exact .nil
    | succ n ih => exact .cons hzero ih
  unfold padRows
  rw [longestRow_eq hrows, List.forall₂_map_left_iff, List.forall₂_map_right_iff]
  refine hrows.imp fun row row' hrow => ?_
  rw [List.rightpad, List.rightpad, hrow.length_eq]
  exact List.rel_append hrow (hzeros _)

/-- Sets of polynomials that correspond match. -/
theorem PolynomialSet.matches_of_corresponds (hmatch : h.Matches h' Rel)
    {list : List h.Polynomial} {list' : List h'.Polynomial}
    (hlist : List.Forall₂ (h.ring.Corresponds h'.ring Rel) list list') :
    PolynomialSet.Matches ⟨h, list⟩ ⟨h', list'⟩ where
  text_eq := by simp only [text, hmatch.text_eq, map_format_eq hlist]
  length_eq := hlist.length_eq
  polynomials := ⟨Rel, hmatch, hlist.imp fun _ _ hpq => hpq.1⟩

/-- Sets of rows that correspond match. -/
theorem ModuleSet.matches_of_corresponds (hmatch : h.Matches h' Rel)
    {rows : List (List h.Polynomial)} {rows' : List (List h'.Polynomial)}
    (hrows : List.Forall₂ (List.Forall₂ (h.ring.Corresponds h'.ring Rel)) rows rows') :
    ModuleSet.Matches ⟨h, rows⟩ ⟨h', rows'⟩ where
  text_eq := by
    have hrowTexts : rows.map h.rowText = rows'.map h'.rowText := by
      rw [← List.forall₂_eq_eq_eq, List.forall₂_map_left_iff, List.forall₂_map_right_iff]
      refine hrows.imp fun row row' hrow => ?_
      rw [RingHeader.rowText, map_format_eq hrow, RingHeader.rowText]
    simp only [text, hmatch.text_eq, hrowTexts]
  length_eq := hrows.length_eq
  columns_eq := by
    cases hrows with
    | nil => rfl
    | cons hrow _ => exact hrow.length_eq
  rows := ⟨Rel, hmatch, hrows.imp fun _ _ hrow => hrow.imp fun _ _ hpq => hpq.1⟩

end

namespace Reader

theorem parallel_polynomialSet : Parallel PolynomialSet.Matches polynomialSet polynomialSet := by
  apply parallel_ringHeader.bind
  rintro ⟨r, vars, order⟩ ⟨r', _, _⟩ ⟨Rel, ⟨hr, rfl, rfl⟩⟩
  apply (parallel_polynomialList (parallel_expression hr vars order none)).bind
  intro list list' hlist
  exact .pure (PolynomialSet.matches_of_corresponds ⟨hr, rfl, rfl⟩ hlist)

theorem parallel_moduleSet : Parallel ModuleSet.Matches moduleSet moduleSet := by
  apply parallel_ringHeader.bind
  rintro ⟨r, vars, order⟩ ⟨r', _, _⟩ ⟨Rel, ⟨hr, rfl, rfl⟩⟩
  apply (parallel_moduleList (parallel_expression hr vars order none)).bind
  intro rows rows' hrows
  exact .pure (ModuleSet.matches_of_corresponds ⟨hr, rfl, rfl⟩ (corresponds_padRows hrows))

/-! ### The limit is not observable -/

/-- Two runs that succeed with related results or fail alike, and leave sessions that are alike:
behind the same tokens, on the same line, with the same notes. -/
def Agrees {α β : Type} (Rel : α → β → Prop) :
    EStateM.Result ParseError Session α → EStateM.Result ParseError Session β → Prop
  | .ok a s, .ok b s' => Rel a b ∧ s.Alike s'
  | .error e s, .error e' s' => e = e' ∧ s.Alike s'
  | _, _ => False

theorem Parallel.agrees {α β : Type} {Rel : α → β → Prop} {r : Reader α} {r' : Reader β}
    (h : Parallel Rel r r') {s s' : Session} (hs : s.Alike s') : Agrees Rel (r s) (r' s') := by
  have hrun := h s s' hs
  generalize r s = left at hrun ⊢
  generalize r' s' = right at hrun ⊢
  cases left with
  | ok a t =>
    cases right with
    | ok b t' => exact hrun
    | error e t' => exact hrun
  | error e t =>
    cases right with
    | ok b t' => exact hrun
    | error e' t' => exact hrun.resolve_right id

end Reader

/-- The session with another bound on the moduli of machine words. -/
def Session.withWordLimit (s : Session) (limit : UInt64) : Session :=
  { s with limits := { s.limits with wordModulusLimit := limit } }

/-- The bound on the moduli of machine words is not observable. Under two bounds, a set of polynomials
or of rows is refused with the same failure, or read as sets that have the same text and match in
everything but the way in which residues are kept. -/
theorem word_limit_not_observable (s : Session) (limit limit' : UInt64) :
    Reader.Agrees PolynomialSet.Matches (Reader.polynomialSet (s.withWordLimit limit))
        (Reader.polynomialSet (s.withWordLimit limit')) ∧
      Reader.Agrees ModuleSet.Matches (Reader.moduleSet (s.withWordLimit limit))
        (Reader.moduleSet (s.withWordLimit limit')) :=
  ⟨Reader.parallel_polynomialSet.agrees ⟨rfl, rfl, rfl, rfl⟩,
    Reader.parallel_moduleSet.agrees ⟨rfl, rfl, rfl, rfl⟩⟩

/-- Residues modulo six under the bounds zero and seven: integers on one side, machine words on the
other. -/
theorem word_limit_at_six :
    let s := Session.ofText "Mod 6 (x) ( 5 x + 2/5, 7 )".toList
    let big : PolynomialSet := ⟨⟨.big ⟨6, by decide⟩, [['x']], {}⟩,
      [⟨[([0], (4 : Int)), ([1], (5 : Int))]⟩, ⟨[([0], (1 : Int))]⟩]⟩
    let word : PolynomialSet := ⟨⟨.word ⟨6, by decide⟩, [['x']], {}⟩,
      [⟨[([0], (4 : UInt64)), ([1], (5 : UInt64))]⟩, ⟨[([0], (1 : UInt64))]⟩]⟩
    (∃ t, Reader.polynomialSet (s.withWordLimit 0) = .ok big t) ∧
      (∃ t, Reader.polynomialSet (s.withWordLimit 7) = .ok word t) ∧ big.Matches word := by
  -- For every session, so that nothing is read again when the two runs are compared.
  have hmatches : ∀ (s : Session) {set set' : PolynomialSet} {t t' : Session},
      Reader.polynomialSet (s.withWordLimit 0) = .ok set t →
      Reader.polynomialSet (s.withWordLimit 7) = .ok set' t' → set.Matches set' := by
    intro s set set' t t' hset hset'
    have hagrees := (word_limit_not_observable s 0 7).1
    rw [hset, hset'] at hagrees
    exact hagrees.1
  intro s big word
  obtain ⟨t, hbig⟩ : ∃ t, Reader.polynomialSet (s.withWordLimit 0) = .ok big t :=
    Reader.exists_eq_ok (by decide +kernel)
  obtain ⟨t', hword⟩ : ∃ t, Reader.polynomialSet (s.withWordLimit 7) = .ok word t :=
    Reader.exists_eq_ok (by decide +kernel)
  exact ⟨⟨t, hbig⟩, ⟨t', hword⟩, hmatches s hbig hword⟩

end PolynomialText
