import PolynomialText.Proofs.CoefficientMaps
import PolynomialText.Proofs.ParallelReaders

/-!
# Expressions over two rings side by side

An expression is read over two rings of coefficients. Which token is read next depends on the literals
that the rings accept, and on nothing that is computed from them. `Reader.tracedFrom` is the reader of
expressions with the coefficients that it has read as a second result. Where the second ring accepts
all of these, both readers take the same way, and relations between the operations of the rings carry
over to the polynomials. Where it refuses one of them, its reader fails.
-/

namespace PolynomialText

/-- The coefficients of a factor. -/
def Factor.literals {α : Type} : Factor α → List α
  | .coefficient c => [c]
  | _ => []

namespace Reader

/-! ### Expressions with the literals that are read -/

section

variable {α β γ : Type}

/-- Two readers one after the other, with what both record. -/
def record (r : Reader (α × List γ)) (f : α → Reader (β × List γ)) : Reader (β × List γ) := do
  let first ← r
  let second ← f first.1
  return (second.1, first.2 ++ second.2)

variable (R : PolyRing α)

/-- A literal, recorded. -/
def tracedLiteral (t : Text) (extra : Nat) : Reader (α × List α) := do
  let c ← literal R t extra
  return (c, [c])

/-- A factor with its coefficients. -/
def tracedFactor (factor : Reader (Factor α)) : Reader (Factor α × List α) := do
  let f ← factor
  return (f, f.literals)

/-- An expression with the literals that are read on the way, in at most the given number of
passes. -/
def tracedFrom :
    Nat → Option Char → Accumulator α → Reader ((Poly α × Terminator) × List α)
  | 0, _, _ => exhausted
  | fuel + 1, closer, acc => do
    let t ← advance
    match Role.ofToken closer t with
    | .negate => tracedFrom fuel closer (acc.negate R)
    | .skip => tracedFrom fuel closer acc
    | .stop terminator => return ((acc.total R, terminator), [])
    | .leave =>
      pushBack t
      return ((acc.total R, .finish), [])
    | .strayBrace => malformed .strayBrace
    | .openBrace =>
      let text ← nested bracesText
      record (tracedLiteral R text 1) fun c => do
        tracedFrom fuel closer (← multiplied R acc (.coefficient c))
    | .openParen =>
      record (nested (tracedFrom fuel none (.start R))) fun result => do
        if result.2 ≠ .close then malformed .missingParen
        else tracedFrom fuel closer (← multiplied R acc (.polynomial result.1))
    | .quoted text =>
      record (tracedLiteral R text 1) fun c => do
        tracedFrom fuel closer (← multiplied R acc (.coefficient c))
    | .numeral w =>
      record (tracedFactor (numeral R w)) fun factor => do
        tracedFrom fuel closer (← multiplied R acc factor)
    | .symbol w =>
      record (tracedFactor (symbol R w)) fun factor => do
        tracedFrom fuel closer (← multiplied R acc factor)

/-- One polynomial with the literals that are read on the way. -/
def tracedPolynomial : Reader (Poly α × List α) := do
  let fuel ← passes
  record (tracedFrom R fuel none (.start R)) fun result => return (result.1, [])

/-- What is recorded does not matter for the result. -/
theorem map_fst_record (r : Reader (α × List γ)) (f : α → Reader (β × List γ)) :
    Prod.fst <$> record r f = (Prod.fst <$> r) >>= fun a => Prod.fst <$> f a := by
  simp only [record, map_bind, bind_map_left, bind_pure_comp, Functor.map_map]

theorem map_fst_tracedLiteral (t : Text) (extra : Nat) :
    Prod.fst <$> tracedLiteral R t extra = literal R t extra := by
  simp [tracedLiteral]

theorem map_fst_tracedFactor (factor : Reader (Factor α)) :
    Prod.fst <$> tracedFactor factor = factor := by
  simp [tracedFactor]

theorem map_fst_nested (r : Reader (α × List γ)) :
    Prod.fst <$> nested r = nested (Prod.fst <$> r) := by
  have hdeeper : Prod.fst <$> deeper r = deeper (Prod.fst <$> r) := by
    funext s
    change EStateM.map Prod.fst (deeper r) s = deeper (EStateM.map Prod.fst r) s
    unfold EStateM.map deeper
    dsimp only
    cases r { s with depth := s.depth + 1 } <;> rfl
  rw [nested, nested, map_bind, hdeeper]

/-- Recording the literals changes nothing about the reader of expressions. -/
theorem map_fst_tracedFrom (fuel : Nat) (closer : Option Char) (acc : Accumulator α) :
    Prod.fst <$> tracedFrom R fuel closer acc = expressionFrom R fuel closer acc := by
  induction fuel generalizing closer acc with
  | zero => rfl
  | succ fuel ih =>
    unfold tracedFrom expressionFrom
    rw [map_bind]
    congr 1
    funext t
    cases Role.ofToken closer t with
    | negate => exact ih _ _
    | skip => exact ih _ _
    | stop terminator => simp
    | leave => simp
    | strayBrace => rfl
    | openBrace => simp only [map_bind, map_fst_record, map_fst_tracedLiteral, ih]
    | openParen =>
      simp only [map_fst_record, map_fst_nested, ih]
      congr 1
      funext result
      split
      · rfl
      · rw [map_bind]
        simp only [ih]
    | quoted text => simp only [map_bind, map_fst_record, map_fst_tracedLiteral, ih]
    | numeral w => simp only [map_bind, map_fst_record, map_fst_tracedFactor, ih]
    | symbol w => simp only [map_bind, map_fst_record, map_fst_tracedFactor, ih]

/-- Recording the literals changes nothing about the polynomial. -/
theorem map_fst_tracedPolynomial : Prod.fst <$> tracedPolynomial R = polynomial R := by
  simp only [tracedPolynomial, polynomial, expression, map_bind, map_fst_record, map_fst_tracedFrom,
    map_pure, bind_pure_comp]

end

/-! ### Two readers with one record -/

section

variable {α β γ α' β' : Type} {Good : γ → Prop} {Rel : α → β → Prop} {Rel' : α' → β' → Prop}

/-- The second reader follows the first one as long as everything that is recorded is good, and fails
otherwise. -/
def Follows (Good : γ → Prop) (Rel : α → β → Prop) (r : Reader (α × List γ)) (r' : Reader β) : Prop :=
  Beside (fun a b => Rel a.1 b ∧ ∀ c ∈ a.2, Good c) (fun a => ∃ c ∈ a.2, ¬ Good c)
    (∃ c, ¬ Good c) r r'

/-- Readers that follow each other, one after the other. -/
theorem Follows.record {r : Reader (α × List γ)} {r' : Reader β}
    {f : α → Reader (α' × List γ)} {f' : β → Reader β'} (hr : Follows Good Rel r r')
    (hf : ∀ a b, Rel a b → Follows Good Rel' (f a) (f' b)) :
    Follows Good Rel' (record r f) (r' >>= f') := by
  intro s s' hs
  have hrun := hr s s' hs
  change Compares _ _ _ (EStateM.bind r (fun first => f first.1 >>= fun second =>
    pure (second.1, first.2 ++ second.2)) s) (EStateM.bind r' f' s')
  unfold EStateM.bind
  generalize r s = left at hrun ⊢
  generalize r' s' = right at hrun ⊢
  cases left with
  | error e t =>
    cases right with
    | ok b t' => exact absurd hrun id
    | error e' t' => exact hrun
  | ok a t =>
    change Compares _ _ _ (EStateM.bind (f a.1) _ t) _
    unfold EStateM.bind
    cases right with
    | ok b t' =>
      have hrest := hf a.1 b hrun.1.1 t t' hrun.2
      dsimp only
      generalize f a.1 t = left at hrest ⊢
      generalize f' b t' = right at hrest ⊢
      cases left with
      | ok second u =>
        cases right with
        | ok result u' =>
          refine ⟨⟨hrest.1.1, fun c hc => ?_⟩, hrest.2⟩
          exact (List.mem_append.1 hc).elim (hrun.1.2 c) (hrest.1.2 c)
        | error e u' =>
          obtain ⟨c, hc, hbad⟩ := hrest
          exact ⟨c, List.mem_append_right _ hc, hbad⟩
      | error e u =>
        cases right with
        | ok result u' => exact hrest
        | error e' u' => exact hrest
    | error e t' =>
      -- The second reader has failed: whatever the first one does, its record shows why.
      obtain ⟨c, hc, hbad⟩ := hrun
      dsimp only
      cases f a.1 t with
      | ok second u => exact ⟨c, List.mem_append_left _ hc, hbad⟩
      | error e u => exact .inr ⟨c, hbad⟩

/-- Two readers that follow each other after two that were parallel. -/
theorem Parallel.follows {r : Reader α'} {r' : Reader β'} {f : α' → Reader (α × List γ)}
    {f' : β' → Reader β} (hr : Parallel Rel' r r')
    (hf : ∀ a b, Rel' a b → Follows Good Rel (f a) (f' b)) :
    Follows Good Rel (r >>= f) (r' >>= f') :=
  hr.bind hf

/-- Two readers that follow each other after a steady one. -/
theorem Steady.follows {r : Reader α'} {f : α' → Reader (α × List γ)} {f' : α' → Reader β}
    (hr : Steady r) (hf : ∀ a, Follows Good Rel (f a) (f' a)) :
    Follows Good Rel (r >>= f) (r >>= f') :=
  hr.bind hf

theorem Follows.nested {r : Reader (α × List γ)} {r' : Reader β} (h : Follows Good Rel r r') :
    Follows Good Rel (nested r) (nested r') :=
  Beside.nested h

theorem Steady.nested {r : Reader α} (h : Steady r) : Steady (nested r) := Beside.nested h

/-- Readers that follow each other are parallel if nothing bad can be recorded. -/
theorem Follows.parallel {r : Reader (α × List γ)} {r' : Reader β} (h : Follows Good Rel r r')
    (hgood : ∀ c, Good c) : Parallel Rel (Prod.fst <$> r) r' := by
  intro s s' hs
  have hrun := h s s' hs
  change Compares Rel _ _ (EStateM.map Prod.fst r s) (r' s')
  unfold EStateM.map
  generalize r s = left at hrun ⊢
  generalize r' s' = right at hrun ⊢
  cases left with
  | ok a t =>
    cases right with
    | ok b t' => exact ⟨hrun.1.1, hrun.2⟩
    | error e t' =>
      obtain ⟨c, -, hbad⟩ := hrun
      exact hbad (hgood c)
  | error e t =>
    cases right with
    | ok b t' => exact hrun
    | error e' t' => exact hrun.imp_right fun ⟨c, hbad⟩ => hbad (hgood c)

/-- A reader that never succeeds follows where something bad is recorded. -/
theorem follows_failure {a : α} {record : List γ} (h : ∃ c ∈ record, ¬ Good c) {r' : Reader β}
    (hfails : ∀ s, ∃ e t, r' s = .error e t) : Follows Good Rel (pure (a, record)) r' := by
  intro s s' _
  obtain ⟨e, t, hfail⟩ := hfails s'
  rw [hfail]
  exact h

/-- Nothing goes on behind a refused literal. -/
theorem literalFailure_bind (t : Text) (fault : LiteralFault) (f : α → Reader β) :
    (literalFailure t fault >>= f) = literalFailure t fault := by
  unfold literalFailure
  split
  · rfl
  · rfl

/-- A refused literal is a failure. -/
theorem literalFailure_fails (t : Text) (fault : LiteralFault) (s : Session) :
    ∃ e s', (literalFailure t fault : Reader α) s = .error e s' := by
  unfold literalFailure
  split
  · exact ⟨_, _, rfl⟩
  · exact ⟨_, _, rfl⟩

end

/-! ### Two rings -/

section

variable {α β : Type}

theorem steady_joinImaginary {R : PolyRing α} (t : Text) : Steady (joinImaginary R t) := by
  unfold joinImaginary
  split
  · apply (steady_peek 0).bind
    intro found
    cases found with
    | none => exact .pure rfl
    | some sign =>
      dsimp only
      split
      · apply (steady_digitAhead 1).bind
        intro digit
        cases digit with
        | false => exact .pure rfl
        | true =>
          apply steady_advance.bind
          intro _
          apply steady_advance.bind
          intro second
          cases second with
          | word w => exact .pure rfl
          | _ => exact (steady_pushBack _).bind fun _ => .pure rfl
      · exact .pure rfl
  · exact .pure rfl

/-- How two rings read one text: the second one refuses what the first one refuses, and what is not
good, where no symbol can be split off. -/
def ReadsAlike (Good : α → Prop) (Rel : α → β → Prop) (t : Text) :
    Except LiteralFault α → Except LiteralFault β → Prop
  | .ok c, .ok d => Rel c d ∧ Good c
  | .ok c, .error _ => ¬ Good c ∧ splitJuxtaposed? t = none
  | .error _, .ok _ => False
  | .error fault, .error fault' => fault = fault'

/-- Relations between the coefficients and the polynomials of two rings that all operations of an
expression keep. The rings have variables of the same names, at positions of their own. -/
structure Compatible (R : PolyRing α) (S : PolyRing β) (Rel : α → β → Prop)
    (PolyRel : Poly α → Poly β → Prop) : Prop where
  names : ∀ w, (R.varIndex? w).isSome = (S.varIndex? w).isSome
  hypercomplex_eq : R.coefficients.kind.isHypercomplex = S.coefficients.kind.isHypercomplex
  zero : PolyRel .zero .zero
  one : PolyRel R.one S.one
  neg : ∀ {p q}, PolyRel p q → PolyRel (p.neg R.coefficients) (q.neg S.coefficients)
  add : ∀ {p p' q q'}, PolyRel p q → PolyRel p' q' →
    PolyRel (p.add R.coefficients p') (q.add S.coefficients q')
  scale : ∀ {p q c d}, PolyRel p q → Rel c d → ∀ exponent,
    PolyRel (p.scale R.coefficients (R.coefficients.pow c exponent))
      (q.scale S.coefficients (S.coefficients.pow d exponent))
  mul_variable : ∀ {p q w index index'}, PolyRel p q → R.varIndex? w = some index →
    S.varIndex? w = some index' → ∀ exponent,
    PolyRel (p.mul R.coefficients (R.univariate index exponent))
      (q.mul S.coefficients (S.univariate index' exponent))
  mul_power : ∀ {p p' q q'}, PolyRel p q → PolyRel p' q' → ∀ exponent,
    PolyRel (p.mul R.coefficients (R.pow p' exponent)) (q.mul S.coefficients (S.pow q' exponent))

/-- Relations that reading keeps as well. -/
structure Simulation (R : PolyRing α) (S : PolyRing β) (Good : α → Prop) (Rel : α → β → Prop)
    (PolyRel : Poly α → Poly β → Prop) : Prop extends Compatible R S Rel PolyRel where
  reads : ∀ {limits limits' : Limits}, limits.maxDepth = limits'.maxDepth → ∀ depth t,
    ReadsAlike Good Rel t (R.coefficients.readWithin limits depth t)
      (S.coefficients.readWithin limits' depth t)

/-- Factors that are related: variables if they have the same name. -/
inductive FactorRel (R : PolyRing α) (S : PolyRing β) (Rel : α → β → Prop)
    (PolyRel : Poly α → Poly β → Prop) : Factor α → Factor β → Prop where
  | coefficient {c : α} {d : β} (h : Rel c d) :
    FactorRel R S Rel PolyRel (.coefficient c) (.coefficient d)
  | variable {w : Text} {index index' : Nat} (h : R.varIndex? w = some index)
    (h' : S.varIndex? w = some index') :
    FactorRel R S Rel PolyRel (.variable index) (.variable index')
  | polynomial {p : Poly α} {q : Poly β} (h : PolyRel p q) :
    FactorRel R S Rel PolyRel (.polynomial p) (.polynomial q)

/-- What was read so far is related. -/
structure AccumulatorRel (PolyRel : Poly α → Poly β → Prop) (acc : Accumulator α)
    (acc' : Accumulator β) : Prop where
  sum : PolyRel acc.sum acc'.sum
  term : PolyRel acc.term acc'.term
  pending_eq : acc.pending = acc'.pending

namespace Compatible

variable {R : PolyRing α} {S : PolyRing β} {Rel : α → β → Prop} {PolyRel : Poly α → Poly β → Prop}
  (h : Compatible R S Rel PolyRel)

include h

theorem start : AccumulatorRel PolyRel (.start R) (.start S) := ⟨h.zero, h.one, rfl⟩

variable {acc : Accumulator α} {acc' : Accumulator β} (hacc : AccumulatorRel PolyRel acc acc')

include hacc

theorem negate : AccumulatorRel PolyRel (acc.negate R) (acc'.negate S) :=
  ⟨hacc.sum, h.neg hacc.term, hacc.pending_eq⟩

theorem total : PolyRel (acc.total R) (acc'.total S) := by
  unfold Accumulator.total
  rw [hacc.pending_eq]
  split
  · exact h.add hacc.sum hacc.term
  · exact hacc.sum

theorem flush : AccumulatorRel PolyRel (acc.flush R) (acc'.flush S) := ⟨h.total hacc, h.one, rfl⟩

theorem multiply {f : Factor α} {g : Factor β} (hfactor : FactorRel R S Rel PolyRel f g)
    (exponent : UInt64) :
    AccumulatorRel PolyRel (acc.multiply R f exponent) (acc'.multiply S g exponent) := by
  refine ⟨hacc.sum, ?_, rfl⟩
  cases hfactor with
  | coefficient hc => exact h.scale hacc.term hc exponent
  | «variable» hindex hindex' => exact h.mul_variable hacc.term hindex hindex' exponent
  | polynomial hp => exact h.mul_power hacc.term hp exponent

theorem multiplied {f : Factor α} {g : Factor β} (hfactor : FactorRel R S Rel PolyRel f g) :
    Parallel (AccumulatorRel PolyRel) (multiplied R acc f) (multiplied S acc' g) := by
  apply steady_exponent.bind
  intro exponent
  apply steady_advance.bind
  intro next
  apply (steady_pushBack next).bind
  intro _
  have hmultiplied := h.multiply hacc hfactor exponent
  split
  · exact .pure (h.flush hmultiplied)
  · exact .pure hmultiplied

end Compatible

namespace Simulation

variable {R : PolyRing α} {S : PolyRing β} {Good : α → Prop} {Rel : α → β → Prop}
  {PolyRel : Poly α → Poly β → Prop} (h : Simulation R S Good Rel PolyRel)

include h

/-! ### Literals over two rings -/

theorem literal? (t : Text) (extra : Nat) :
    Parallel (ReadsAlike Good Rel t) (literal? R t extra) (literal? S t extra) := by
  intro s s' hs
  refine ⟨?_, hs⟩
  rw [hs.depth_eq]
  exact h.reads hs.maxDepth_eq _ t

theorem tracedLiteral (t : Text) (extra : Nat) :
    Follows Good Rel (tracedLiteral R t extra) (literal S t extra) := by
  unfold Reader.tracedLiteral Reader.literal
  rw [bind_assoc]
  apply (h.literal? t extra).bind
  intro left right hreads
  cases left with
  | ok c =>
    cases right with
    | ok d => exact .pure ⟨hreads.1, fun c' hc' => List.mem_singleton.1 hc' ▸ hreads.2⟩
    | error fault =>
      exact follows_failure ⟨c, List.mem_singleton_self c, hreads.1⟩ (literalFailure_fails t fault)
  | error fault =>
    cases right with
    | ok d => exact absurd hreads id
    | error fault' =>
      obtain rfl : fault = fault' := hreads
      dsimp only
      rw [literalFailure_bind]
      exact beside_literalFailure t fault

/-- Joining a numeral with what follows depends on the kind of the ring only. -/
theorem joinImaginary_eq (t : Text) : joinImaginary R t = joinImaginary S t := by
  unfold joinImaginary
  rw [h.hypercomplex_eq]

theorem tracedNumeral (w : Text) :
    Follows Good (FactorRel R S Rel PolyRel) (tracedFactor (numeral R w)) (numeral S w) := by
  unfold tracedFactor numeral
  split
  · rw [bind_assoc]
    exact steady_line.bind fun _ => beside_throw _
  · rw [bind_assoc, h.joinImaginary_eq]
    apply (steady_joinImaginary _).bind
    intro t
    rw [bind_assoc]
    apply (h.literal? t 0).bind
    intro left right hreads
    cases left with
    | ok c =>
      cases right with
      | ok d =>
        exact .pure ⟨.coefficient hreads.1, fun c' hc' => List.mem_singleton.1 hc' ▸ hreads.2⟩
      | error fault =>
        dsimp only
        rw [hreads.2]
        exact follows_failure ⟨c, List.mem_singleton_self c, hreads.1⟩ (literalFailure_fails t fault)
    | error fault =>
      cases right with
      | ok d => exact absurd hreads id
      | error fault' =>
        obtain rfl : fault = fault' := hreads
        dsimp only
        split
        · rw [literalFailure_bind]
          exact beside_literalFailure t fault
        · rename_i number symbol _
          have hrecord : (do
              let c ← literal R number 0
              pushBack (.word symbol)
              return Factor.coefficient c) >>= (fun f => pure (f, f.literals)) =
              record (Reader.tracedLiteral R number 0) fun c => do
                pushBack (.word symbol)
                return (.coefficient c, []) := by
            simp [record, Reader.tracedLiteral, Factor.literals]
          rw [hrecord]
          apply (h.tracedLiteral number 0).record
          intro c d hc
          apply (steady_pushBack _).bind
          intro _
          exact .pure ⟨.coefficient hc, fun _ hnil => absurd hnil List.not_mem_nil⟩

theorem tracedSymbol (w : Text) :
    Follows Good (FactorRel R S Rel PolyRel) (tracedFactor (symbol R w)) (symbol S w) := by
  have hnames := h.names w
  unfold tracedFactor symbol
  cases hindex : R.varIndex? w with
  | some index =>
    cases hindex' : S.varIndex? w with
    | some index' =>
      exact .pure ⟨.variable hindex hindex', fun _ hnil => absurd hnil List.not_mem_nil⟩
    | none => simp [hindex, hindex'] at hnames
  | none =>
    cases hindex' : S.varIndex? w with
    | some index' => simp [hindex, hindex'] at hnames
    | none =>
      dsimp only
      rw [bind_assoc]
      apply (h.literal? w 0).bind
      intro left right hreads
      cases left with
      | ok c =>
        cases right with
        | ok d =>
          exact .pure ⟨.coefficient hreads.1, fun c' hc' => List.mem_singleton.1 hc' ▸ hreads.2⟩
        | error fault =>
          exact follows_failure ⟨c, List.mem_singleton_self c, hreads.1⟩ fun s => ⟨_, _, rfl⟩
      | error fault =>
        cases right with
        | ok d => exact absurd hreads id
        | error fault' =>
          obtain rfl : fault = fault' := hreads
          dsimp only
          rw [bind_assoc]
          exact steady_line.bind fun _ => beside_throw _

/-! ### Expressions over two rings -/

theorem tracedFrom (fuel : Nat) (closer : Option Char) {acc : Accumulator α} {acc' : Accumulator β}
    (hacc : AccumulatorRel PolyRel acc acc') :
    Follows Good (fun result result' => PolyRel result.1 result'.1 ∧ result.2 = result'.2)
      (tracedFrom R fuel closer acc) (expressionFrom S fuel closer acc') := by
  induction fuel generalizing closer acc acc' with
  | zero => exact beside_exhausted
  | succ fuel ih =>
    have hfactor : ∀ {f : Factor α} {g : Factor β}, FactorRel R S Rel PolyRel f g →
        Follows Good (fun result result' => PolyRel result.1 result'.1 ∧ result.2 = result'.2)
          (Reader.multiplied R acc f >>= Reader.tracedFrom R fuel closer)
          (Reader.multiplied S acc' g >>= expressionFrom S fuel closer) := by
      intro f g hfg
      apply (h.multiplied hacc hfg).follows
      intro next next' hnext
      exact ih closer hnext
    unfold Reader.tracedFrom expressionFrom
    apply steady_advance.follows
    intro t
    cases Role.ofToken closer t with
    | negate => exact ih closer (h.negate hacc)
    | skip => exact ih closer hacc
    | stop terminator =>
      exact .pure ⟨⟨h.total hacc, rfl⟩, fun _ hnil => absurd hnil List.not_mem_nil⟩
    | leave =>
      apply (steady_pushBack t).follows
      intro _
      exact .pure ⟨⟨h.total hacc, rfl⟩, fun _ hnil => absurd hnil List.not_mem_nil⟩
    | strayBrace => exact beside_malformed _
    | openBrace =>
      apply steady_bracesText.nested.follows
      intro text
      apply (h.tracedLiteral text 1).record
      intro c d hc
      exact hfactor (.coefficient hc)
    | openParen =>
      apply (ih none h.start).nested.record
      rintro ⟨p, terminator⟩ ⟨q, _⟩ ⟨hp, rfl⟩
      dsimp only
      split
      · exact beside_malformed _
      · exact hfactor (.polynomial hp)
    | quoted text =>
      apply (h.tracedLiteral text 1).record
      intro c d hc
      exact hfactor (.coefficient hc)
    | numeral w =>
      apply (h.tracedNumeral w).record
      intro f g hfg
      exact hfactor hfg
    | symbol w =>
      apply (h.tracedSymbol w).record
      intro f g hfg
      exact hfactor hfg

/-- One polynomial over two rings. -/
theorem tracedPolynomial :
    Follows Good PolyRel (tracedPolynomial R) (polynomial S) := by
  unfold Reader.tracedPolynomial polynomial expression
  rw [bind_assoc]
  apply steady_passes.follows
  intro fuel
  apply (h.tracedFrom fuel none h.start).record
  intro result result' hresult
  exact .pure ⟨hresult.1, fun _ hnil => absurd hnil List.not_mem_nil⟩

/-- Expressions over two rings are read alike if every literal is good. -/
theorem expression (hgood : ∀ c, Good c) (closer : Option Char) :
    Parallel (fun result result' => PolyRel result.1 result'.1 ∧ result.2 = result'.2)
      (expression R closer) (expression S closer) := by
  unfold Reader.expression
  apply steady_passes.bind
  intro fuel
  rw [← map_fst_tracedFrom]
  exact (h.tracedFrom fuel closer h.start).parallel hgood

end Simulation

/-- A map between the coefficients is kept by all operations of an expression. -/
theorem compatible_of_maps {R : PolyRing α} {S : PolyRing β} {C : α → Prop} {D : β → Prop}
    {φ : α → β} (hφ : R.coefficients.Maps C S.coefficients D φ) (h : R.coefficients.RingLaws C)
    (k : S.coefficients.RingLaws D) (hvars : R.vars = S.vars)
    (hkind : R.coefficients.kind.isHypercomplex = S.coefficients.kind.isHypercomplex) :
    Compatible R S (fun c d => C c ∧ φ c = d)
      fun p q => R.CanonicalPoly C p ∧ p.change S.coefficients φ = q where
  names w := by rw [PolyRing.varIndex?, hvars, PolyRing.varIndex?]
  hypercomplex_eq := hkind
  zero := ⟨(PolyRing.ringLaws h).zero_mem, rfl⟩
  one := ⟨(PolyRing.ringLaws h).one_mem, PolyRing.change_one hφ hvars.symm⟩
  neg := by
    rintro p _ ⟨hp, rfl⟩
    exact ⟨Poly.CanonicalOver.neg hp h, Poly.change_neg hφ h k hp⟩
  add := by
    rintro p p' _ _ ⟨hp, rfl⟩ ⟨hp', rfl⟩
    exact ⟨Poly.CanonicalOver.add hp h hp', Poly.change_add hφ h k hp hp'⟩
  scale := by
    rintro p _ c _ ⟨hp, rfl⟩ ⟨hc, rfl⟩ exponent
    have hpower := h.closed.pow hc exponent
    refine ⟨Poly.CanonicalOver.scale hp h hpower, ?_⟩
    rw [Poly.change_scale hφ h k hp hpower, hφ.map_pow h hc]
  mul_variable := by
    rintro p _ w index index' ⟨hp, rfl⟩ hindex hindex' exponent
    obtain rfl : index = index' := by
      rw [PolyRing.varIndex?, hvars] at hindex
      exact Option.some.inj (hindex.symm.trans hindex')
    have hpower : R.CanonicalPoly C (R.univariate index exponent) :=
      Poly.canonicalOver_iff_regular.2 (Poly.regular_monomial
        (by simp [Exponents.single, Exponents.zero]) h.one_mem)
    refine ⟨Poly.CanonicalOver.mul hp h hpower, ?_⟩
    rw [Poly.change_mul hφ h k hp hpower, PolyRing.change_univariate hφ hvars.symm]
  mul_power := by
    rintro p p' _ _ ⟨hp, rfl⟩ ⟨hp', rfl⟩ exponent
    have hpower : R.CanonicalPoly C (R.pow p' exponent) :=
      Poly.canonicalOver_iff_regular.2 (PolyRing.regular_pow h.closed (Exponents.closed_length _)
        (Poly.canonicalOver_iff_regular.1 hp') exponent)
    refine ⟨Poly.CanonicalOver.mul hp h hpower, ?_⟩
    rw [Poly.change_mul hφ h k hp hpower, PolyRing.change_pow hφ h k hvars.symm hp']

/-- A map between the coefficients is kept by everything that an expression does. -/
theorem simulation_of_maps {R : PolyRing α} {S : PolyRing β} {Good C : α → Prop} {D : β → Prop}
    {φ : α → β} (hφ : R.coefficients.Maps C S.coefficients D φ) (h : R.coefficients.RingLaws C)
    (k : S.coefficients.RingLaws D) (hvars : R.vars = S.vars)
    (hkind : R.coefficients.kind.isHypercomplex = S.coefficients.kind.isHypercomplex)
    (hreads : ∀ {limits limits' : Limits}, limits.maxDepth = limits'.maxDepth → ∀ depth t,
      ReadsAlike Good (fun c d => C c ∧ φ c = d) t (R.coefficients.readWithin limits depth t)
        (S.coefficients.readWithin limits' depth t)) :
    Simulation R S Good (fun c d => C c ∧ φ c = d)
      fun p q => R.CanonicalPoly C p ∧ p.change S.coefficients φ = q :=
  ⟨compatible_of_maps hφ h k hvars hkind, hreads⟩

end

end Reader

end PolynomialText
