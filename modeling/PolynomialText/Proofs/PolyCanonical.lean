import PolynomialText.PolyRing

/-!
# Canonical polynomials stay canonical

The operations on polynomials keep the terms ascending and free of zero coefficients. They also keep
every term inside a set of exponents that is closed under products and a set of coefficients that is
closed under the arithmetic. `Poly.Regular` collects the four properties. No law of a ring is
needed, so that the results hold for octonions and for clamped exponents alike.
-/

namespace PolynomialText

instance : Std.TransCmp Exponents.cmp := inferInstanceAs (Std.TransCmp (List.compareLex compare))

instance : Std.LawfulEqCmp Exponents.cmp :=
  inferInstanceAs (Std.LawfulEqCmp (List.compareLex compare))

/-- No exponent vector is below itself. -/
theorem Exponents.not_cmp_self_lt (e : Exponents) : ¬ e.cmp e = .lt := by
  have hself : e.cmp e = .eq := Std.ReflCmp.compare_self
  rw [hself]
  decide

/-- Elements that the operations do not leave, and among which only zero has the negative zero. -/
structure Arithmetic.Closed {α : Type} (A : Arithmetic α) (C : α → Prop) : Prop where
  zero : C A.zero
  one : C A.one
  add : ∀ {a b : α}, C a → C b → C (A.add a b)
  mul : ∀ {a b : α}, C a → C b → C (A.mul a b)
  neg : ∀ {a : α}, C a → C (A.neg a)
  neg_ne_zero : ∀ {a : α}, C a → a ≠ A.zero → A.neg a ≠ A.zero

/-- Exponent vectors of one length that hold the unit and are closed under products. -/
structure Exponents.Closed (nvars : Nat) (K : Exponents → Prop) : Prop where
  length : ∀ {e : Exponents}, K e → e.length = nvars
  zero : K (.zero nvars)
  add : ∀ {d e : Exponents}, K d → K e → K (d.add e)

/-- All exponent vectors of one length are closed under products. -/
theorem Exponents.closed_length (nvars : Nat) : Exponents.Closed nvars (·.length = nvars) where
  length h := h
  zero := List.length_replicate
  add hd he := by simp [Exponents.add, hd, he]

namespace PolyRing

variable {α : Type} (R : PolyRing α)

/-- Exponents that are zero for every variable whose name lacks the property. -/
def Confined (P : Text → Prop) (e : Exponents) : Prop :=
  e.length = R.nvars ∧ ∀ factor ∈ R.vars.zip e, factor.2 ≠ 0 → P factor.1

/-- No variable without the property comes to occur in a product. -/
theorem closed_confined (P : Text → Prop) : Exponents.Closed R.nvars (R.Confined P) where
  length h := h.1
  zero := by
    refine ⟨List.length_replicate, fun factor hmem hne => ?_⟩
    exact absurd (List.eq_of_mem_replicate (List.of_mem_zip hmem).2) hne
  add {d e} hd he := by
    refine ⟨(Exponents.closed_length R.nvars).add hd.1 he.1, fun factor hmem hne => ?_⟩
    obtain ⟨i, hi, rfl⟩ := List.mem_iff_getElem.1 hmem
    simp only [Exponents.add, List.getElem_zip, List.getElem_zipWith] at hne ⊢
    rw [List.length_zip, Exponents.add, List.length_zipWith] at hi
    by_cases hzero : d[i] = 0
    · have hmem : (R.vars[i], e[i]) ∈ R.vars.zip e :=
        List.mem_iff_getElem.2 ⟨i, by rw [List.length_zip]; omega, List.getElem_zip⟩
      apply he.2 _ hmem
      rwa [hzero, clampAdd_comm, clampAdd_zero] at hne
    · have hmem : (R.vars[i], d[i]) ∈ R.vars.zip d :=
        List.mem_iff_getElem.2 ⟨i, by rw [List.length_zip]; omega, List.getElem_zip⟩
      exact hd.2 _ hmem hzero

variable {R}

/-- A variable with the property may occur. -/
theorem confined_single {P : Text → Prop} {w : Text} {index : Nat} (hw : P w)
    (hindex : R.varIndex? w = some index) (k : UInt64) :
    R.Confined P (.single R.nvars index k) := by
  obtain ⟨hlt, hname, -⟩ := List.findIdx?_eq_some_iff_getElem.1 hindex
  have hvar : R.vars[index] = w := by simpa using hname
  refine ⟨by simp [Exponents.single, Exponents.zero], fun factor hmem hne => ?_⟩
  obtain ⟨i, hi, rfl⟩ := List.mem_iff_getElem.1 hmem
  rw [List.length_zip] at hi
  simp only [List.getElem_zip, Exponents.single, Exponents.zero, List.getElem_set,
    List.getElem_replicate, ne_eq, ite_eq_right_iff, Classical.not_imp] at hne ⊢
  obtain ⟨rfl, -⟩ := hne
  rwa [hvar]

end PolyRing

/-- Powers are taken alike on both sides of a relation that products keep. -/
theorem powerFrom_rel {α β : Type} {f : α → α → α} {g : β → β → β} {R : α → β → Prop}
    (hmul : ∀ {a b x y}, R a x → R b y → R (f a b) (g x y)) (fuel : Nat) {a b : α} {x y : β}
    (hresult : R a x) (hbase : R b y) (exponent : Nat) :
    R (powerFrom f a b fuel exponent) (powerFrom g x y fuel exponent) := by
  induction fuel generalizing a b x y exponent with
  | zero => exact hresult
  | succ fuel ih =>
    have hnext : R (if exponent % 2 = 1 then f a b else a) (if exponent % 2 = 1 then g x y else x) := by
      split
      · exact hmul hresult hbase
      · exact hresult
    rw [powerFrom, powerFrom]
    split
    · exact hresult
    · dsimp only
      split
      · exact hnext
      · exact ih hnext (hmul hbase hbase) _

/-- A power stays in a set that is closed under products. -/
theorem powerFrom_mem {α : Type} {f : α → α → α} {C : α → Prop}
    (hmul : ∀ {a b}, C a → C b → C (f a b)) (fuel : Nat) {a b : α} (ha : C a) (hb : C b)
    (exponent : Nat) : C (powerFrom f a b fuel exponent) :=
  powerFrom_rel (R := fun a _ => C a) (g := f) (x := a) (y := b) hmul fuel ha hb exponent

/-- A power of an element of a closed set lies in the set. -/
theorem Arithmetic.Closed.pow {α : Type} {A : Arithmetic α} {C : α → Prop} (h : A.Closed C) {a : α}
    (ha : C a) (exponent : UInt64) : C (A.pow a exponent) :=
  powerFrom_mem h.mul 64 h.one ha exponent.toNat

namespace Poly

variable {α : Type} (A : Arithmetic α)

/-- Ascending terms without a zero, with exponents and coefficients from given sets. -/
structure Regular (K : Exponents → Prop) (C : α → Prop) (p : Poly α) : Prop where
  ascending : p.terms.Pairwise fun s t => s.1.cmp t.1 = .lt
  nonzero : ∀ term ∈ p.terms, term.2 ≠ A.zero
  exponents : ∀ term ∈ p.terms, K term.1
  coefficients : ∀ term ∈ p.terms, C term.2

/-- A canonical polynomial whose coefficients are canonical in turn. -/
structure CanonicalOver (C : α → Prop) (nvars : Nat) (p : Poly α) : Prop
    extends Canonical A nvars p where
  coefficients : ∀ term ∈ p.terms, C term.2

variable {A}

/-- Canonical polynomials are those with all exponent vectors of one length. -/
theorem canonicalOver_iff_regular {C : α → Prop} {nvars : Nat} {p : Poly α} :
    CanonicalOver A C nvars p ↔ Regular A (·.length = nvars) C p :=
  ⟨fun h => ⟨h.ascending, h.nonzero, h.length, h.coefficients⟩,
    fun h => ⟨⟨h.ascending, h.exponents, h.nonzero⟩, h.coefficients⟩⟩

/-- A regular polynomial is canonical. -/
theorem Regular.canonicalOver {K : Exponents → Prop} {C : α → Prop} {nvars : Nat} {p : Poly α}
    (hK : Exponents.Closed nvars K) (h : Regular A K C p) : CanonicalOver A C nvars p :=
  ⟨⟨h.ascending, fun term hterm => hK.length (h.exponents term hterm), h.nonzero⟩, h.coefficients⟩

/-- The terms after an insertion: old ones, the new one, or the sum of the two. -/
theorem mem_insertTerm {e : Exponents} {c : α} {terms : List (Exponents × α)} {t : Exponents × α}
    (ht : t ∈ insertTerm A e c terms) :
    t ∈ terms ∨ t = (e, c) ∨
      ∃ d, (e, d) ∈ terms ∧ A.add d c ≠ A.zero ∧ t = (e, A.add d c) := by
  induction terms with
  | nil => exact .inr (.inl (List.mem_singleton.1 ht))
  | cons head rest ih =>
    obtain ⟨f, d⟩ := head
    rw [insertTerm] at ht
    split at ht
    · rcases List.mem_cons.1 ht with rfl | hold
      · exact .inr (.inl rfl)
      · exact .inl hold
    · rename_i heq
      obtain rfl : e = f := Std.LawfulEqCmp.eq_of_compare heq
      dsimp only at ht
      split at ht
      · exact .inl (List.mem_cons_of_mem _ ht)
      · rename_i hsum
        rcases List.mem_cons.1 ht with rfl | hrest
        · exact .inr (.inr ⟨d, List.mem_cons_self, fun h => hsum (A.isZero_eq_true_iff.2 h), rfl⟩)
        · exact .inl (List.mem_cons_of_mem _ hrest)
    · rcases List.mem_cons.1 ht with rfl | hrest
      · exact .inl List.mem_cons_self
      · rcases ih hrest with hold | hnew | ⟨d', hmem, hne, rfl⟩
        · exact .inl (List.mem_cons_of_mem _ hold)
        · exact .inr (.inl hnew)
        · exact .inr (.inr ⟨d', List.mem_cons_of_mem _ hmem, hne, rfl⟩)

/-- A bound below old and new exponents is below the exponents after an insertion. -/
theorem lt_of_mem_insertTerm {e f : Exponents} {c : α} {terms : List (Exponents × α)}
    (hterms : ∀ t ∈ terms, f.cmp t.1 = .lt) (he : f.cmp e = .lt) :
    ∀ t ∈ insertTerm A e c terms, f.cmp t.1 = .lt := by
  intro t ht
  rcases mem_insertTerm ht with hold | rfl | ⟨d, _, _, rfl⟩
  · exact hterms t hold
  · exact he
  · exact he

/-- Insertion keeps the terms ascending. -/
theorem pairwise_insertTerm {e : Exponents} {c : α} {terms : List (Exponents × α)}
    (h : terms.Pairwise fun s t => s.1.cmp t.1 = .lt) :
    (insertTerm A e c terms).Pairwise fun s t => s.1.cmp t.1 = .lt := by
  induction terms with
  | nil => exact List.pairwise_singleton _ _
  | cons head rest ih =>
    obtain ⟨f, d⟩ := head
    obtain ⟨hhead, hrest⟩ := List.pairwise_cons.1 h
    rw [insertTerm]
    split
    · rename_i hlt
      refine List.pairwise_cons.2 ⟨?_, h⟩
      intro t ht
      rcases List.mem_cons.1 ht with rfl | hmem
      · exact hlt
      · exact Std.TransCmp.lt_trans hlt (hhead t hmem)
    · rename_i heq
      obtain rfl : e = f := Std.LawfulEqCmp.eq_of_compare heq
      dsimp only
      split
      · exact hrest
      · exact List.pairwise_cons.2 ⟨hhead, hrest⟩
    · rename_i hgt
      exact List.pairwise_cons.2
        ⟨lt_of_mem_insertTerm hhead (Std.OrientedCmp.lt_of_gt hgt), ih hrest⟩

section

variable {K : Exponents → Prop} {C : α → Prop} (hA : A.Closed C)
include hA

/-- Adding a term keeps a polynomial regular. -/
theorem Regular.addTerm {terms : List (Exponents × α)} (h : Regular A K C ⟨terms⟩)
    {term : Exponents × α} (he : K term.1) (hc : C term.2) :
    Regular A K C ⟨Poly.addTerm A terms term⟩ := by
  obtain ⟨e, c⟩ := term
  unfold Poly.addTerm
  split
  · exact h
  · rename_i hzero
    have hne : c ≠ A.zero := fun heq => hzero (A.isZero_eq_true_iff.2 heq)
    refine ⟨pairwise_insertTerm h.ascending, ?_, ?_, ?_⟩
    all_goals
      intro t ht
      rcases mem_insertTerm ht with hold | rfl | ⟨d, hmem, hsum, rfl⟩
    · exact h.nonzero t hold
    · exact hne
    · exact hsum
    · exact h.exponents t hold
    · exact he
    · exact he
    · exact h.coefficients t hold
    · exact hc
    · exact hA.add (h.coefficients _ hmem) hc

/-- Adding terms one after another keeps a polynomial regular. -/
theorem Regular.foldl_addTerm {start : List (Exponents × α)} (h : Regular A K C ⟨start⟩)
    {terms : List (Exponents × α)} (hterms : ∀ t ∈ terms, K t.1 ∧ C t.2) :
    Regular A K C ⟨terms.foldl (Poly.addTerm A) start⟩ := by
  induction terms generalizing start with
  | nil => exact h
  | cons t rest ih =>
    have ht := hterms t List.mem_cons_self
    exact ih (h.addTerm hA ht.1 ht.2) fun s hs => hterms s (List.mem_cons_of_mem _ hs)

omit hA in
/-- The zero polynomial is regular. -/
theorem regular_zero : Regular A K C Poly.zero :=
  ⟨List.Pairwise.nil, fun _ h => absurd h List.not_mem_nil, fun _ h => absurd h List.not_mem_nil,
    fun _ h => absurd h List.not_mem_nil⟩

omit hA in
/-- A monomial with a permitted exponent vector and coefficient is regular. -/
theorem regular_monomial {e : Exponents} {c : α} (he : K e) (hc : C c) :
    Regular A K C (monomial A e c) := by
  unfold monomial
  split
  · exact regular_zero
  · rename_i hzero
    refine ⟨List.pairwise_singleton _ _, ?_, ?_, ?_⟩
    all_goals
      intro term hterm
      rw [List.mem_singleton.1 hterm]
    · exact fun heq => hzero (A.isZero_eq_true_iff.2 heq)
    · exact he
    · exact hc

/-- Sums of regular polynomials are regular. -/
theorem Regular.add {p q : Poly α} (hp : Regular A K C p) (hq : Regular A K C q) :
    Regular A K C (Poly.add A p q) :=
  hp.foldl_addTerm hA fun t ht => ⟨hq.exponents t ht, hq.coefficients t ht⟩

/-- Negatives of regular polynomials are regular. -/
theorem Regular.neg {p : Poly α} (hp : Regular A K C p) : Regular A K C (Poly.neg A p) := by
  refine ⟨List.pairwise_map.2 hp.ascending, ?_, ?_, ?_⟩
  all_goals
    intro term hterm
    obtain ⟨t, ht, rfl⟩ := List.mem_map.1 hterm
  · exact hA.neg_ne_zero (hp.coefficients t ht) (hp.nonzero t ht)
  · exact hp.exponents t ht
  · exact hA.neg (hp.coefficients t ht)

/-- Multiples of regular polynomials by a coefficient are regular. -/
theorem Regular.scale {p : Poly α} (hp : Regular A K C p) {c : α} (hc : C c) :
    Regular A K C (Poly.scale A p c) := by
  have hmem : ∀ term ∈ (Poly.scale A p c).terms,
      term.2 ≠ A.zero ∧ ∃ t ∈ p.terms, (t.1, A.mul t.2 c) = term := by
    intro term hterm
    obtain ⟨hmap, hzero⟩ := List.mem_filter.1 hterm
    refine ⟨fun heq => ?_, List.mem_map.1 hmap⟩
    simp [A.isZero_eq_true_iff.2 heq] at hzero
  refine ⟨(List.pairwise_map.2 hp.ascending).filter _, fun term hterm => (hmem term hterm).1, ?_, ?_⟩
  all_goals
    intro term hterm
    obtain ⟨_, t, ht, rfl⟩ := hmem term hterm
  · exact hp.exponents t ht
  · exact hA.mul (hp.coefficients t ht) hc

variable {nvars : Nat} (hK : Exponents.Closed nvars K)
include hK

/-- Products of regular polynomials are regular. -/
theorem Regular.mul {p q : Poly α} (hp : Regular A K C p) (hq : Regular A K C q) :
    Regular A K C (Poly.mul A p q) := by
  apply regular_zero.foldl_addTerm hA
  intro term hterm
  obtain ⟨s, hs, hmap⟩ := List.mem_flatMap.1 hterm
  obtain ⟨t, ht, rfl⟩ := List.mem_map.1 hmap
  exact ⟨hK.add (hp.exponents s hs) (hq.exponents t ht),
    hA.mul (hp.coefficients s hs) (hq.coefficients t ht)⟩

end

end Poly

namespace PolyRing

variable {α : Type} {R : PolyRing α} {K : Exponents → Prop} {C : α → Prop}

/-- A permitted coefficient is a regular polynomial. -/
theorem regular_constant (hK : Exponents.Closed R.nvars K) {c : α} (hc : C c) :
    Poly.Regular R.coefficients K C (R.constant c) :=
  Poly.regular_monomial hK.zero hc

/-- Regular polynomials are closed under the arithmetic of polynomials. -/
theorem regular_pow (hA : R.coefficients.Closed C) (hK : Exponents.Closed R.nvars K) {p : Poly α}
    (hp : Poly.Regular R.coefficients K C p) (exponent : UInt64) :
    Poly.Regular R.coefficients K C (R.pow p exponent) :=
  powerFrom_mem (fun hq hr => hq.mul hA hK hr) 64 (regular_constant hK hA.one) hp exponent.toNat

end PolyRing

end PolynomialText
