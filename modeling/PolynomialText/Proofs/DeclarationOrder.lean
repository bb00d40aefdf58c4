import Mathlib.Data.List.GetD
import PolynomialText.Proofs.TermSums
import PolynomialText.Proofs.WordSize

/-!
# The order of the variables

Variables may be declared in any order, and compared by any term order, without changing what an
expression is read as. Another order of declaration moves the exponents of every monomial, and with
them the place of every term in the list that a polynomial is. So sums and products are accumulated,
cancelled and inserted in another order, and still the terms correspond. A term order is not looked
at while an expression is read.
-/

namespace PolynomialText

/-! ### Exponents in another order -/

namespace Exponents

/-- The exponents of a monomial in the first list of variables, in the order of the second list. -/
def rearrange (vars vars' : List Text) (e : Exponents) : Exponents :=
  vars'.map fun name => e.getD (vars.idxOf name) 0

theorem getD_add {a b : Exponents} (h : a.length = b.length) (i : Nat) :
    (a.add b).getD i 0 = clampAdd (a.getD i 0) (b.getD i 0) := by
  simp only [List.getD_eq_getElem?_getD, add, List.getElem?_zipWith]
  by_cases hi : i < a.length
  · rw [List.getElem?_eq_getElem hi, List.getElem?_eq_getElem (h ▸ hi)]
    rfl
  · rw [List.getElem?_eq_none (Nat.le_of_not_lt hi), List.getElem?_eq_none (by omega)]
    rfl

variable {vars vars' : List Text}

theorem length_rearrange (e : Exponents) : (e.rearrange vars vars').length = vars'.length :=
  List.length_map _

theorem rearrange_zero : (zero vars.length).rearrange vars vars' = zero vars'.length := by
  simp only [rearrange, zero, List.getD_eq_getElem?_getD, List.getElem?_getD_replicate_default_eq,
    List.map_const']

theorem rearrange_add {a b : Exponents} (h : a.length = b.length) :
    (a.add b).rearrange vars vars' = (a.rearrange vars vars').add (b.rearrange vars vars') := by
  simp only [rearrange, getD_add h]
  simp only [add, List.zipWith_map, List.zipWith_self]

/-- A name keeps its exponent. -/
theorem getD_rearrange {name : Text} (h : name ∈ vars') (e : Exponents) :
    (e.rearrange vars vars').getD (vars'.idxOf name) 0 = e.getD (vars.idxOf name) 0 := by
  have hlt : vars'.idxOf name < vars'.length := List.idxOf_lt_length_of_mem h
  rw [List.getD_eq_getElem?_getD, rearrange, List.getElem?_map, List.getElem?_eq_getElem hlt,
    List.getElem_idxOf hlt]
  rfl

/-- Back in the first order, the exponents are what they were. -/
theorem rearrange_rearrange (hnodup : vars.Nodup) (hmem : ∀ name ∈ vars, name ∈ vars')
    {e : Exponents} (he : e.length = vars.length) :
    (e.rearrange vars vars').rearrange vars' vars = e := by
  apply List.ext_getElem
  · rw [length_rearrange, he]
  intro i hi hi'
  have hname : i < vars.length := he ▸ hi'
  have hget : ((e.rearrange vars vars').rearrange vars' vars)[i] =
      (e.rearrange vars vars').getD (vars'.idxOf vars[i]) 0 := List.getElem_map ..
  rw [hget, getD_rearrange (hmem _ (List.getElem_mem hname)), hnodup.idxOf_getElem i hname,
    List.getD_eq_getElem _ _ hi']

/-- The power of a variable is the power of the variable with the same name. -/
theorem rearrange_single (hnodup : vars'.Nodup) {name : Text} (hmem : name ∈ vars) (k : UInt64) :
    (single vars.length (vars.idxOf name) k).rearrange vars vars' =
      single vars'.length (vars'.idxOf name) k := by
  have hlt : vars.idxOf name < vars.length := List.idxOf_lt_length_of_mem hmem
  apply List.ext_getElem
  · simp [length_rearrange, single, zero]
  intro i hi hi'
  have hname : i < vars'.length := by rwa [length_rearrange] at hi
  have hget : ((single vars.length (vars.idxOf name) k).rearrange vars vars')[i] =
      (single vars.length (vars.idxOf name) k).getD (vars.idxOf vars'[i]) 0 := List.getElem_map ..
  rw [hget]
  by_cases heq : vars'[i] = name
  · have hindex : vars'.idxOf name = i := by rw [← heq, hnodup.idxOf_getElem i hname]
    simp [single, zero, heq, hindex, hlt]
  · have hindex : vars'.idxOf name ≠ i := by
      rintro rfl
      exact heq (List.getElem_idxOf hname)
    have hother : vars.idxOf name ≠ vars.idxOf vars'[i] := fun hsame =>
      heq ((List.idxOf_inj hmem).1 hsame).symm
    rw [List.getD_eq_getElem?_getD, single, List.getElem?_set_ne hother, zero,
      List.getElem?_getD_replicate_default_eq]
    simp [single, zero, hindex]

end Exponents

/-! ### Polynomials in another order -/

/-- The terms of the first polynomial, with their exponents in the order of the second list of
variables, are those of the second polynomial. -/
def Poly.Rearranged {α : Type} (vars vars' : List Text) (p q : Poly α) : Prop :=
  (p.terms.map fun t => (t.1.rearrange vars vars', t.2)).Perm q.terms

namespace Poly

variable {α : Type} {A : Arithmetic α} {C : α → Prop} {vars vars' : List Text} {p p' q q' : Poly α}

theorem rearranged_monomial {e e' : Exponents} (he : e.rearrange vars vars' = e') (c : α) :
    Rearranged vars vars' (monomial A e c) (monomial A e' c) := by
  unfold Rearranged monomial
  split
  · exact .refl _
  · rw [List.map_singleton, he]

theorem Rearranged.neg (h : Rearranged vars vars' p q) :
    Rearranged vars vars' (neg A p) (neg A q) := by
  have hmapped := h.map fun t => (t.1, A.neg t.2)
  rw [List.map_map] at hmapped
  unfold Rearranged Poly.neg
  rw [List.map_map]
  exact hmapped

theorem Rearranged.scale (h : Rearranged vars vars' p q) (c : α) :
    Rearranged vars vars' (scale A p c) (scale A q c) := by
  have hmapped := (h.map fun t => (t.1, A.mul t.2 c)).filter fun t => !A.isZero t.2
  rw [List.map_map, List.filter_map] at hmapped
  unfold Rearranged Poly.scale
  rw [List.filter_map, List.map_map]
  exact hmapped

/-- The products of all pairs of terms. -/
def products (A : Arithmetic α) (p q : Poly α) : List (Exponents × α) :=
  p.terms.flatMap fun s => q.terms.map fun t => mulTerm A s t

theorem mem_products (hA : A.Closed C) {nvars : Nat} (hp : CanonicalOver A C nvars p)
    (hq : CanonicalOver A C nvars q) {t : Exponents × α} (ht : t ∈ products A p q) : C t.2 := by
  obtain ⟨s, hs, hmap⟩ := List.mem_flatMap.1 ht
  obtain ⟨u, hu, rfl⟩ := List.mem_map.1 hmap
  exact hA.mul (hp.coefficients s hs) (hq.coefficients u hu)

/-- The products of terms in another order are the products in another order. -/
theorem perm_products (h : Rearranged vars vars' p q) (h' : Rearranged vars vars' p' q')
    {nvars : Nat} (hp : CanonicalOver A C nvars p) (hp' : CanonicalOver A C nvars p') :
    ((products A p p').map fun t => (t.1.rearrange vars vars', t.2)).Perm (products A q q') := by
  have hmoved : (products A p p').map (fun t => (t.1.rearrange vars vars', t.2)) =
      (p.terms.map fun t => (t.1.rearrange vars vars', t.2)).flatMap fun s =>
        (p'.terms.map fun t => (t.1.rearrange vars vars', t.2)).map (mulTerm A s) := by
    simp only [products, List.map_flatMap, List.flatMap_map, List.map_map]
    refine List.flatMap_congr fun s hs => List.map_congr_left fun t ht => ?_
    have hlength : s.1.length = t.1.length := (hp.length s hs).trans (hp'.length t ht).symm
    simp only [Function.comp_apply, mulTerm, Exponents.rearrange_add hlength]
  rw [hmoved]
  exact h.flatMap fun s _ => h'.map _

section

variable {M : Type} [AddCommMonoid M] {f : α → M} (h : A.Sums C f)

/-- What is gathered moves with the exponents. -/
theorem Rearranged.gathered_eq (hpq : Rearranged vars vars' p q) :
    gathered f q.terms = (gathered f p.terms).mapDomain (Exponents.rearrange vars vars') := by
  rw [← gathered_map]
  exact (gathered_of_perm hpq).symm

variable (hnodup : vars.Nodup) (hmem : ∀ name ∈ vars, name ∈ vars')
include h hnodup hmem

/-- Canonical polynomials correspond if what they gather does. -/
theorem rearranged_of_gathered {nvars : Nat} (hp : CanonicalOver A C vars.length p)
    (hq : CanonicalOver A C nvars q)
    (heq : gathered f q.terms = (gathered f p.terms).mapDomain (Exponents.rearrange vars vars')) :
    Rearranged vars vars' p q := by
  have hdistinct : (p.terms.map fun t => (t.1.rearrange vars vars', t.2)).Pairwise
      fun s t => s.1 ≠ t.1 := by
    refine List.pairwise_map.2 (hp.sparse.distinct.imp_of_mem ?_)
    intro s t hs ht hne heq'
    dsimp only at heq'
    apply hne
    rw [← Exponents.rearrange_rearrange hnodup hmem (hp.length s hs), heq',
      Exponents.rearrange_rearrange hnodup hmem (hp.length t ht)]
  have hsparse : Sparse A C (p.terms.map fun t => (t.1.rearrange vars vars', t.2)) :=
    ⟨hdistinct, List.forall_mem_map.2 hp.nonzero, List.forall_mem_map.2 hp.coefficients⟩
  apply hsparse.perm_of_gathered_eq h hq.sparse
  rw [heq, gathered_map]

variable (hp : CanonicalOver A C vars.length p) (hp' : CanonicalOver A C vars.length p')
  (hq : CanonicalOver A C vars'.length q) (hq' : CanonicalOver A C vars'.length q')
  (hpq : Rearranged vars vars' p q) (hpq' : Rearranged vars vars' p' q')
include hp hp' hq hq' hpq hpq'

theorem Rearranged.add : Rearranged vars vars' (add A p p') (add A q q') := by
  have hregular := canonicalOver_iff_regular.1 hp
  have hregular' := canonicalOver_iff_regular.1 hq
  apply rearranged_of_gathered h hnodup hmem
    (canonicalOver_iff_regular.2 (hregular.add h.closed (canonicalOver_iff_regular.1 hp')))
    (canonicalOver_iff_regular.2 (hregular'.add h.closed (canonicalOver_iff_regular.1 hq')))
  rw [gathered_add h hq hq', gathered_add h hp hp', Finsupp.mapDomain_add, hpq.gathered_eq,
    hpq'.gathered_eq]

theorem Rearranged.mul : Rearranged vars vars' (mul A p p') (mul A q q') := by
  have hclosed := h.closed
  apply rearranged_of_gathered h hnodup hmem
    (canonicalOver_iff_regular.2 ((canonicalOver_iff_regular.1 hp).mul hclosed
      (Exponents.closed_length _) (canonicalOver_iff_regular.1 hp')))
    (canonicalOver_iff_regular.2 ((canonicalOver_iff_regular.1 hq).mul hclosed
      (Exponents.closed_length _) (canonicalOver_iff_regular.1 hq')))
  have hleft : gathered f (Poly.mul A p p').terms = gathered f (products A p p') :=
    gathered_ofTerms h fun _ => mem_products hclosed hp hp'
  have hright : gathered f (Poly.mul A q q').terms = gathered f (products A q q') :=
    gathered_ofTerms h fun _ => mem_products hclosed hq hq'
  rw [hleft, hright, ← gathered_map]
  exact (gathered_of_perm (perm_products hpq hpq' hp hp')).symm

end

end Poly

/-! ### Expressions in rings with another order of the variables -/

/-- The literals of every ring of coefficients are independent of the size of machine words. -/
theorem Arithmetic.Built.steady {α : Type} {A : Arithmetic α} {C : α → Prop}
    {same : α → α → Prop} (h : A.Built C same) : A.Steady := by
  induction h with
  | polynomials R _ ih => exact PolyRing.steady_arithmetic ih
  | extension base =>
    apply Extension.steady_arithmetic
    cases base with
    | rational => exact fun _ _ _ => rfl
    | word m => exact fun _ _ _ => rfl
    | big m => exact fun _ _ _ => rfl
  | _ => exact fun _ _ _ => rfl

namespace PolyRing

variable {α : Type} {A : Arithmetic α} {C : α → Prop} {vars vars' : List Text}

/-- A declared variable has the position of its name. -/
theorem varIndex?_eq_some_iff {R : PolyRing α} {name : Text} {index : Nat} :
    R.varIndex? name = some index ↔ name ∈ R.vars ∧ R.vars.idxOf name = index := by
  have hequal : (fun v : Text => decide (v = name)) = (· == name) := by
    funext v
    exact (beq_eq_decide ..).symm
  rw [varIndex?, List.findIdx?_eq_some_iff_findIdx_eq, hequal, ← List.idxOf_lt_length_iff]
  constructor
  · rintro ⟨hlt, rfl⟩
    exact ⟨hlt, rfl⟩
  · rintro ⟨hlt, rfl⟩
    exact ⟨hlt, rfl⟩

/-- Canonical polynomials of two rings that correspond. -/
structure Corresponding (C : α → Prop) (R S : PolyRing α) (p q : Poly α) : Prop where
  left : R.CanonicalPoly C p
  right : S.CanonicalPoly C q
  rearranged : p.Rearranged R.vars S.vars q

/-- Everything that an expression does is the same in both orders. -/
theorem compatible_rearranged (order order' : TermOrder) (hA : A.Exact C) (hnodup : vars.Nodup)
    (hperm : vars.Perm vars') :
    Reader.Compatible ⟨A, vars, order⟩ ⟨A, vars', order'⟩ (fun c d => C c ∧ c = d)
      (Corresponding C ⟨A, vars, order⟩ ⟨A, vars', order'⟩) := by
  obtain ⟨same, hbuilt⟩ := hA.built
  obtain ⟨M, _, f, hf⟩ := hA.sumsExactly
  have hreads : A.ReadsInto C := hbuilt.normalises.readsInto
  have hmem : ∀ name ∈ vars, name ∈ vars' := fun _ => hperm.mem_iff.1
  have hleft : StaysCanonical ⟨A, vars, order⟩ C := staysCanonical hreads
  have hright : StaysCanonical ⟨A, vars', order'⟩ C := staysCanonical hreads
  have hone : Corresponding C ⟨A, vars, order⟩ ⟨A, vars', order'⟩ (one ⟨A, vars, order⟩)
      (one ⟨A, vars', order'⟩) :=
    ⟨hleft.one, hright.one, Poly.rearranged_monomial Exponents.rearrange_zero _⟩
  have hmul : ∀ {p p' q q' : Poly α}, Corresponding C ⟨A, vars, order⟩ ⟨A, vars', order'⟩ p q →
      Corresponding C ⟨A, vars, order⟩ ⟨A, vars', order'⟩ p' q' →
      Corresponding C ⟨A, vars, order⟩ ⟨A, vars', order'⟩ (p.mul A p') (q.mul A q') := by
    intro p p' q q' h h'
    exact ⟨hleft.mul h.left h'.left, hright.mul h.right h'.right,
      .mul hf hnodup hmem h.left h'.left h.right h'.right h.rearranged h'.rearranged⟩
  constructor
  case names =>
    intro w
    rw [Bool.eq_iff_iff, Option.isSome_iff_exists, Option.isSome_iff_exists]
    simp only [varIndex?_eq_some_iff, exists_and_left, exists_eq', and_true]
    exact hperm.mem_iff
  case hypercomplex_eq => rfl
  case zero => exact ⟨hleft.zero, hright.zero, .nil⟩
  case one => exact hone
  case neg => exact fun h => ⟨hleft.neg h.left, hright.neg h.right, h.rearranged.neg⟩
  case add =>
    intro p p' q q' h h'
    exact ⟨hleft.add h.left h'.left, hright.add h.right h'.right,
      .add hf hnodup hmem h.left h'.left h.right h'.right h.rearranged h'.rearranged⟩
  case scale =>
    rintro p q c _ h ⟨hc, rfl⟩ exponent
    have hpower := hreads.closed.pow hc exponent
    exact ⟨hleft.scale h.left hpower, hright.scale h.right hpower, h.rearranged.scale _⟩
  case mul_variable =>
    intro p q w index index' h hindex hindex' exponent
    obtain ⟨hdeclared, rfl⟩ := varIndex?_eq_some_iff.1 hindex
    obtain ⟨-, rfl⟩ := varIndex?_eq_some_iff.1 hindex'
    have hsingle := Exponents.rearrange_single (hperm.nodup_iff.1 hnodup) hdeclared exponent
    exact hmul h ⟨hleft.univariate _ _, hright.univariate _ _, Poly.rearranged_monomial hsingle _⟩
  case mul_power =>
    intro p p' q q' h h' exponent
    exact hmul h (powerFrom_rel hmul 64 hone h' exponent.toNat)

/-- What is read over both rings corresponds: the literals are the same. -/
theorem simulation_rearranged (order order' : TermOrder) (hA : A.Exact C) (hnodup : vars.Nodup)
    (hperm : vars.Perm vars') :
    Reader.Simulation ⟨A, vars, order⟩ ⟨A, vars', order'⟩ (fun _ => True) (fun c d => C c ∧ c = d)
      (Corresponding C ⟨A, vars, order⟩ ⟨A, vars', order'⟩) := by
  obtain ⟨same, hbuilt⟩ := hA.built
  refine ⟨compatible_rearranged order order' hA hnodup hperm, ?_⟩
  intro limits limits' hlimits depth t
  rw [hbuilt.steady hlimits depth t]
  cases hread : A.readWithin limits' depth t with
  | ok c => exact ⟨⟨hbuilt.normalises.readsInto.read_mem hread, rfl⟩, trivial⟩
  | error fault => exact rfl

end PolyRing

/-- Neither the order in which variables are declared nor the term order is observable in what is
read. Over every ring of coefficients without decimals, and from any session, a polynomial in the one
ring and in the other is refused with the same failure, or read as polynomials whose terms correspond:
each with its exponents in the order of the other variables, and with the same coefficient. -/
theorem declaration_order_not_observable {α : Type} {A : Arithmetic α} {C : α → Prop}
    (hA : A.Exact C) {vars vars' : List Text} (hperm : vars.Perm vars') {order order' : TermOrder}
    {R S : PolyRing α} (hR : PolyRing.make A vars order = .ok R)
    (hS : PolyRing.make A vars' order' = .ok S) (s : Session) :
    Reader.Agrees (Poly.Rearranged vars vars') (Reader.polynomial R s) (Reader.polynomial S s) := by
  obtain ⟨rfl, -, hnodup⟩ := PolyRing.of_make_eq_ok hR
  obtain ⟨rfl, -, -⟩ := PolyRing.of_make_eq_ok hS
  have hsimulation := PolyRing.simulation_rearranged order order' hA hnodup hperm
  have hpolynomial : Reader.Parallel (Poly.Rearranged vars vars')
      (Reader.polynomial ⟨A, vars, order⟩) (Reader.polynomial ⟨A, vars', order'⟩) := by
    apply (hsimulation.expression (fun _ => trivial) none).bind
    intro result result' hresult
    exact .pure hresult.1.rearranged
  exact hpolynomial.agrees ⟨rfl, rfl, rfl, rfl⟩

/-- A square of octonions in which a term cancels, with the variables in two orders and under two term
orders: the terms stand in other places and correspond. -/
theorem octonions_in_two_orders :
    let R : PolyRing Octonion := ⟨Octonion.arithmetic, [['x'], ['y'], ['z']], {}⟩
    let S : PolyRing Octonion :=
      ⟨Octonion.arithmetic, [['z'], ['y'], ['x']], .ofWeights [[1, 2, 3]]⟩
    let s := Session.ofText "(x + \x7bj1\x7d y)^2 + y^2 - \x7bo1\x7d z".toList
    let one : Octonion := ⟨⟨1, 0, 0, 0⟩, ⟨0, 0, 0, 0⟩⟩
    let twice : Octonion := ⟨⟨0, 0, 2, 0⟩, ⟨0, 0, 0, 0⟩⟩
    let negative : Octonion := ⟨⟨0, 0, 0, 0⟩, ⟨-1, 0, 0, 0⟩⟩
    let p : Poly Octonion := ⟨[([0, 0, 1], negative), ([1, 1, 0], twice), ([2, 0, 0], one)]⟩
    let q : Poly Octonion := ⟨[([0, 0, 2], one), ([0, 1, 1], twice), ([1, 0, 0], negative)]⟩
    (∃ t, Reader.polynomial R s = .ok p t) ∧ (∃ t, Reader.polynomial S s = .ok q t) ∧
      p.Rearranged R.vars S.vars q := by
  -- For every session, so that nothing is read again when the two runs are compared.
  have hrearranged : ∀ {vars vars' : List Text} {order order' : TermOrder} (s : Session)
      {p q : Poly Octonion} {t t' : Session}, vars.Perm vars' → vars.Nodup →
      order.fault? vars.length = none → order'.fault? vars'.length = none →
      Reader.polynomial ⟨Octonion.arithmetic, vars, order⟩ s = .ok p t →
      Reader.polynomial ⟨Octonion.arithmetic, vars', order'⟩ s = .ok q t' →
      p.Rearranged vars vars' q := by
    intro vars vars' order order' s p q t t' hperm hnodup hfits hfits' hp hq
    have hagrees := declaration_order_not_observable (.base .octonion (by decide) (by decide)) hperm
      (PolyRing.make_eq_ok _ hfits hnodup) (PolyRing.make_eq_ok _ hfits' (hperm.nodup_iff.1 hnodup)) s
    rw [hp, hq] at hagrees
    exact hagrees.1
  intro R S s one twice negative p q
  obtain ⟨t, hp⟩ : ∃ t, Reader.polynomial R s = .ok p t := Reader.exists_eq_ok (by decide +kernel)
  obtain ⟨t', hq⟩ : ∃ t, Reader.polynomial S s = .ok q t := Reader.exists_eq_ok (by decide +kernel)
  exact ⟨⟨t, hp⟩, ⟨t', hq⟩,
    hrearranged s (by decide) (by decide) (by decide) (by decide) hp hq⟩

end PolynomialText
