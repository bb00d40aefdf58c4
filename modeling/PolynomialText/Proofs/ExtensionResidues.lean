import PolynomialText.Proofs.LegibleRings

/-!
# Remainders of an extension

Each step of a division cancels the leading term of what is left: a multiple of the defining
polynomial has the same leading term, because its leading coefficient was inverted when the extension
was made. The degree falls with every step, so that the division ends with a residue. Residues are
therefore closed under the arithmetic of the extension.
-/

namespace PolynomialText

/-! ### Sums in which the last terms cancel -/

namespace Poly

variable {α : Type} {A : Arithmetic α}

/-- A smaller term is put in front of the last one. -/
theorem insertTerm_append_of_lt {e f : Exponents} (h : e.cmp f = .lt) (c d : α)
    (terms : List (Exponents × α)) :
    insertTerm A e c (terms ++ [(f, d)]) = insertTerm A e c terms ++ [(f, d)] := by
  induction terms with
  | nil => simp [insertTerm, h]
  | cons t terms ih =>
    rw [List.cons_append, insertTerm, insertTerm]
    split
    · rfl
    · dsimp only
      split
      · rfl
      · rfl
    · rw [ih, List.cons_append]

/-- A term that cancels the last one leaves the terms in front of it. -/
theorem insertTerm_append_self {f : Exponents} {c d : α} {terms : List (Exponents × α)}
    (hterms : ∀ t ∈ terms, t.1.cmp f = .lt) (hsum : A.add d c = A.zero) :
    insertTerm A f c (terms ++ [(f, d)]) = terms := by
  induction terms with
  | nil =>
    have hself : f.cmp f = .eq := Std.ReflCmp.compare_self
    simp [insertTerm, hself, hsum, A.isZero_eq_true_iff.2]
  | cons t terms ih =>
    have hgt : f.cmp t.1 = .gt := Std.OrientedCmp.gt_of_lt (hterms t List.mem_cons_self)
    rw [List.cons_append, insertTerm, hgt]
    exact congrArg _ (ih fun u hu => hterms u (List.mem_cons_of_mem _ hu))

/-- Terms below a bound stay below it when they are added. -/
theorem lt_of_mem_foldl_addTerm {f : Exponents} {start terms : List (Exponents × α)}
    (hstart : ∀ t ∈ start, t.1.cmp f = .lt) (hterms : ∀ t ∈ terms, t.1.cmp f = .lt) :
    ∀ t ∈ terms.foldl (addTerm A) start, t.1.cmp f = .lt := by
  induction terms generalizing start with
  | nil => exact hstart
  | cons u terms ih =>
    apply ih
    · intro t ht
      unfold addTerm at ht
      split at ht
      · exact hstart t ht
      · rcases mem_insertTerm ht with hold | rfl | ⟨d, hmem, _, rfl⟩
        · exact hstart t hold
        · exact hterms u List.mem_cons_self
        · exact hterms u List.mem_cons_self
    · exact fun t ht => hterms t (List.mem_cons_of_mem _ ht)

/-- Leading terms that cancel can be left out of a sum. -/
theorem add_append_append {f : Exponents} {c d : α} {ps qs : List (Exponents × α)}
    (hps : ∀ t ∈ ps, t.1.cmp f = .lt) (hqs : ∀ t ∈ qs, t.1.cmp f = .lt)
    (hsum : A.add d c = A.zero) (hc : c ≠ A.zero) :
    add A ⟨ps ++ [(f, d)]⟩ ⟨qs ++ [(f, c)]⟩ = add A ⟨ps⟩ ⟨qs⟩ := by
  have hkeep : ∀ {qs ps : List (Exponents × α)}, (∀ t ∈ qs, t.1.cmp f = .lt) →
      qs.foldl (addTerm A) (ps ++ [(f, d)]) = qs.foldl (addTerm A) ps ++ [(f, d)] := by
    intro qs
    induction qs with
    | nil => exact fun _ => rfl
    | cons q qs ih =>
      intro ps hqs
      have hq : addTerm A (ps ++ [(f, d)]) q = addTerm A ps q ++ [(f, d)] := by
        unfold addTerm
        split
        · rfl
        · exact insertTerm_append_of_lt (hqs q List.mem_cons_self) _ _ _
      rw [List.foldl_cons, List.foldl_cons, hq]
      exact ih fun t ht => hqs t (List.mem_cons_of_mem _ ht)
  have hzero : ¬ A.isZero c = true := fun h => hc (A.isZero_eq_true_iff.1 h)
  have hlast : addTerm A (qs.foldl (addTerm A) ps ++ [(f, d)]) (f, c) = qs.foldl (addTerm A) ps := by
    rw [addTerm, if_neg hzero]
    exact insertTerm_append_self (lt_of_mem_foldl_addTerm hps hqs) hsum
  simp only [add, List.foldl_append, hkeep hqs, List.foldl_cons, List.foldl_nil, hlast]

end Poly

/-! ### Degrees in one variable -/

/-- Single exponents are ordered as numbers. -/
theorem Exponents.cmp_singleton_eq_lt {a b : UInt64} : Exponents.cmp [a] [b] = .lt ↔ a < b := by
  have hmatch : Exponents.cmp [a] [b] = compare a b := by
    simp only [Exponents.cmp, List.compareLex]
    cases compare a b <;> rfl
  have hlt : compare a b = .lt ↔ a < b := Std.compare_eq_lt
  rw [hmatch, hlt]

/-- A vector with one exponent. -/
theorem Exponents.eq_singleton {e : Exponents} (he : e.length = 1) : e = [e.headD 0] := by
  obtain ⟨k, rfl⟩ := List.length_eq_one_iff.1 he
  rfl

namespace Poly

variable {α : Type} {A : Arithmetic α} {p : Poly α}

/-- The leading term of a polynomial in one variable is the last one. -/
theorem exists_terms_eq_append (hp : Canonical A 1 p) {top : UInt64} {lead : α}
    (htop : p.top? = some (top, lead)) :
    ∃ terms, p.terms = terms ++ [([top], lead)] ∧ ∀ t ∈ terms, t.1.cmp [top] = .lt := by
  obtain ⟨term, hlast, heq⟩ := Option.map_eq_some_iff.1 htop
  obtain ⟨terms, hterms⟩ := List.getLast?_eq_some_iff.1 hlast
  have hmem : term ∈ p.terms := by simp [hterms]
  have hterm : term = ([top], lead) := by
    obtain ⟨rfl, rfl⟩ := Prod.mk.inj heq
    exact Prod.ext (Exponents.eq_singleton (hp.length term hmem)) rfl
  have hascending := hp.ascending
  rw [hterms, hterm] at hascending
  refine ⟨terms, by rw [hterms, hterm], fun t ht => ?_⟩
  exact (List.pairwise_append.1 hascending).2.2 t ht _ (List.mem_singleton_self _)

/-- The degree of a polynomial is that of one of its terms. -/
theorem top_lt_of_forall_lt (hp : Canonical A 1 p) {bound : UInt64}
    (hterms : ∀ t ∈ p.terms, t.1.cmp [bound] = .lt) {top : UInt64} {lead : α}
    (htop : p.top? = some (top, lead)) : top < bound := by
  obtain ⟨terms, heq, -⟩ := exists_terms_eq_append hp htop
  exact Exponents.cmp_singleton_eq_lt.1 (hterms ([top], lead) (by simp [heq]))

/-- Multiplication by a power of the variable shifts the exponents. -/
theorem mul_univariate {C : α → Prop} (hlaws : A.RingLaws C) (hone : A.one ≠ A.zero)
    {R : PolyRing α} (hR : R.coefficients = A) (hvars : R.nvars = 1)
    (hp : Canonical A 1 p) (hC : ∀ t ∈ p.terms, C t.2) {k : UInt64}
    (hbound : ∀ t ∈ p.terms, k.toNat + (t.1.headD 0).toNat < UInt64.size) :
    mul A (R.univariate 0 k) p = ⟨p.terms.map fun t => ([k + t.1.headD 0], t.2)⟩ := by
  have hzero : A.isZero A.one = false := by
    rw [← Bool.not_eq_true, A.isZero_eq_true_iff]
    exact hone
  have hpower : R.univariate 0 k = ⟨[([k], A.one)]⟩ := by
    simp [PolyRing.univariate, monomial, hR, hvars, hzero, Exponents.single, Exponents.zero]
  have hsum : ∀ t ∈ p.terms, (k + t.1.headD 0).toNat = k.toNat + (t.1.headD 0).toNat := by
    intro t ht
    rw [UInt64.toNat_add, Nat.mod_eq_of_lt (hbound t ht)]
  have hterm : ∀ t ∈ p.terms, mulTerm A ([k], A.one) t = ([k + t.1.headD 0], t.2) := by
    intro t ht
    have hclamp : clampAdd k (t.1.headD 0) = k + t.1.headD 0 := by
      apply UInt64.toNat.inj
      have := hbound t ht
      rw [toNat_clampAdd, hsum t ht]
      omega
    rw [mulTerm, hlaws.one_mul (hC t ht), Exponents.eq_singleton (hp.length t ht)]
    exact congrArg (fun e => ([e], t.2)) hclamp
  have hcanonical : Canonical A 1 ⟨p.terms.map fun t => ([k + t.1.headD 0], t.2)⟩ := by
    refine ⟨List.pairwise_map.2 ?_, ?_, ?_⟩
    · refine hp.ascending.imp_of_mem fun {s t} hs ht hlt => ?_
      rw [Exponents.eq_singleton (hp.length s hs), Exponents.eq_singleton (hp.length t ht),
        Exponents.cmp_singleton_eq_lt, UInt64.lt_iff_toNat_lt] at hlt
      rw [Exponents.cmp_singleton_eq_lt, UInt64.lt_iff_toNat_lt, hsum s hs, hsum t ht]
      omega
    · intro u hu
      obtain ⟨t, _, rfl⟩ := List.mem_map.1 hu
      rfl
    · intro u hu
      obtain ⟨t, ht, rfl⟩ := List.mem_map.1 hu
      exact hp.nonzero t ht
  rw [hpower]
  simp only [mul, List.flatMap_cons, List.flatMap_nil, List.append_nil]
  rw [List.map_congr_left hterm]
  exact ofTerms_of_perm hcanonical (List.Perm.refl _)

end Poly

/-! ### Division -/

namespace Extension

variable {α : Type} {A : Arithmetic α} {C : α → Prop} {E : Extension α}

/-- A defining polynomial that is not constant, with the inverse of its leading coefficient. -/
structure Valid (A : Arithmetic α) (C : α → Prop) (E : Extension α) : Prop where
  modulus : Poly.Regular A (E.ring A).Supports C E.modulus
  degree_ne_zero : E.degree ≠ 0
  inverse_mem : C E.leadInverse
  exists_lead : ∃ lead, E.modulus.top? = some (E.degree, lead) ∧
    A.mul lead E.leadInverse = A.one

/-- Regular polynomials in the generator are canonical. -/
theorem canonical_of_regular {p : Poly α} (hp : Poly.Regular A (E.ring A).Supports C p) :
    Poly.Canonical A 1 p :=
  ⟨hp.ascending, fun t ht => (hp.exponents t ht).1, hp.nonzero⟩

/-- Powers of the generator have exponents that are permitted if those of the defining polynomial
are. -/
theorem Valid.supports (hE : E.Valid A C) (k : UInt64) : (E.ring A).Supports [k] := by
  obtain ⟨lead, htop, -⟩ := hE.exists_lead
  obtain ⟨terms, hterms, -⟩ := Poly.exists_terms_eq_append (canonical_of_regular hE.modulus) htop
  have hlead := hE.modulus.exponents ([E.degree], lead) (by simp [hterms])
  refine ⟨rfl, fun factor hmem _ => ?_⟩
  have hname := hlead.2 (E.generator, E.degree) List.mem_cons_self hE.degree_ne_zero
  obtain rfl : factor = (E.generator, k) := by simpa [ring] using hmem
  exact hname

/-- All terms of a residue are below the degree of the defining polynomial. -/
theorem Low.lt_of_mem {p : Poly α} (hp : Poly.Canonical A 1 p) (hlow : E.Low p) :
    ∀ t ∈ p.terms, t.1.cmp [E.degree] = .lt := by
  intro t ht
  cases htop : p.top? with
  | none =>
    have hnil : p.terms = [] := List.getLast?_eq_none_iff.1 (Option.map_eq_none_iff.1 htop)
    rw [hnil] at ht
    exact absurd ht List.not_mem_nil
  | some found =>
    obtain ⟨top, lead⟩ := found
    obtain ⟨terms, hterms, hlower⟩ := Poly.exists_terms_eq_append hp htop
    have hlt : Exponents.cmp [top] [E.degree] = .lt :=
      Exponents.cmp_singleton_eq_lt.2 (hlow top lead htop)
    rw [hterms, List.mem_append, List.mem_singleton] at ht
    rcases ht with hmem | rfl
    · exact Std.TransCmp.lt_trans (hlower t hmem) hlt
    · exact hlt

variable (hA : A.RingLaws C) (hone : A.one ≠ A.zero) (hE : E.Valid A C)
include hA hone hE

/-- The multiple of the defining polynomial that is subtracted ends in the leading term that it has
to cancel. -/
theorem exists_multiple_eq_append {top : UInt64} {lead : α} (hlead : C lead) (hne : lead ≠ A.zero)
    (hle : E.degree ≤ top) :
    ∃ terms, (Poly.mul A ((E.ring A).univariate 0 (top - E.degree)) E.modulus).scale A
        (A.mul E.leadInverse lead) = ⟨terms ++ [([top], lead)]⟩ ∧
      ∀ t ∈ terms, t.1.cmp [top] = .lt := by
  obtain ⟨unit, htop, hinverse⟩ := hE.exists_lead
  have hmodulus := canonical_of_regular hE.modulus
  obtain ⟨terms, hterms, hlower⟩ := Poly.exists_terms_eq_append hmodulus htop
  have hunit : C unit := hE.modulus.coefficients ([E.degree], unit) (by simp [hterms])
  have hle' : E.degree.toNat ≤ top.toNat := UInt64.le_iff_toNat_le.1 hle
  have hshift : (top - E.degree).toNat = top.toNat - E.degree.toNat := UInt64.toNat_sub_of_le _ _ hle
  have hdegree : ∀ t ∈ terms, (t.1.headD 0).toNat < E.degree.toNat := by
    intro t ht
    have hlength := hmodulus.length t (by simp [hterms, ht])
    have hlt := hlower t ht
    rw [Exponents.eq_singleton hlength, Exponents.cmp_singleton_eq_lt, UInt64.lt_iff_toNat_lt] at hlt
    exact hlt
  have hbound : ∀ t ∈ E.modulus.terms, (top - E.degree).toNat + (t.1.headD 0).toNat < UInt64.size := by
    intro t ht
    have hsize : top.toNat < UInt64.size := top.toNat_lt
    rw [hterms, List.mem_append, List.mem_singleton] at ht
    rcases ht with hmem | rfl
    · have := hdegree t hmem
      rw [hshift]
      omega
    · rw [hshift, List.headD_cons]
      omega
  -- The product of the leading coefficients is the one to be cancelled.
  have hproduct : A.mul unit (A.mul E.leadInverse lead) = lead := by
    rw [← hA.mul_assoc hunit hE.inverse_mem hlead, hinverse, hA.one_mul hlead]
  have hzero : A.isZero lead = false := by
    rw [← Bool.not_eq_true, A.isZero_eq_true_iff]
    exact hne
  have hexponent : top - E.degree + E.degree = top := by simp
  rw [Poly.mul_univariate hA hone rfl rfl hmodulus hE.modulus.coefficients hbound, hterms]
  refine ⟨((terms.map fun t => ([top - E.degree + t.1.headD 0], t.2)).map
    fun t => (t.1, A.mul t.2 (A.mul E.leadInverse lead))).filter fun t => !A.isZero t.2, ?_, ?_⟩
  · simp [Poly.scale, hproduct, hzero]
  · intro t ht
    obtain ⟨u, hu, rfl⟩ := List.mem_map.1 (List.mem_filter.1 ht).1
    obtain ⟨v, hv, rfl⟩ := List.mem_map.1 hu
    have hlt := hdegree v hv
    have hsize := top.toNat_lt
    rw [Exponents.cmp_singleton_eq_lt, UInt64.lt_iff_toNat_lt, UInt64.toNat_add, hshift,
      Nat.mod_eq_of_lt (by omega)]
    omega

/-- A step of the division leaves a regular polynomial of a smaller degree. -/
theorem regular_cancelTop {p : Poly α} (hp : Poly.Regular A (E.ring A).Supports C p) {top : UInt64}
    {lead : α} (htop : p.top? = some (top, lead)) (hle : E.degree ≤ top) :
    Poly.Regular A (E.ring A).Supports C (E.cancelTop A p top lead) ∧
      ∀ t ∈ (E.cancelTop A p top lead).terms, t.1.cmp [top] = .lt := by
  obtain ⟨ps, hps, hbelow⟩ := Poly.exists_terms_eq_append (canonical_of_regular hp) htop
  have hmem : ([top], lead) ∈ p.terms := by simp [hps]
  have hlead : C lead := hp.coefficients _ hmem
  have hne : lead ≠ A.zero := hp.nonzero _ hmem
  have hclosed := (E.ring A).closed_supports
  have hsingle : (E.ring A).Supports (.single (E.ring A).nvars 0 (top - E.degree)) := hE.supports _
  have hpower : Poly.Regular A (E.ring A).Supports C ((E.ring A).univariate 0 (top - E.degree)) :=
    Poly.regular_monomial hsingle hA.one_mem
  have hmultiple := ((hpower.mul hA.closed hclosed hE.modulus).scale hA.closed
    (hA.mul_mem hE.inverse_mem hlead)).neg hA.closed
  refine ⟨hp.add hA.closed hmultiple, ?_⟩
  obtain ⟨qs, hqs, hlower⟩ := exists_multiple_eq_append hA hone hE hlead hne hle
  have hsum : A.add lead (A.neg lead) = A.zero := by
    rw [hA.add_comm hlead (hA.neg_mem hlead), hA.neg_add hlead]
  have hneg : Poly.neg A ⟨qs ++ [([top], lead)]⟩ =
      ⟨(qs.map fun t => (t.1, A.neg t.2)) ++ [([top], A.neg lead)]⟩ := by
    simp [Poly.neg]
  have hnegs : ∀ t ∈ qs.map (fun t => (t.1, A.neg t.2)), t.1.cmp [top] = .lt := by
    intro t ht
    obtain ⟨u, hu, rfl⟩ := List.mem_map.1 ht
    exact hlower u hu
  obtain ⟨terms⟩ := p
  obtain rfl : terms = ps ++ [([top], lead)] := hps
  rw [cancelTop, hqs, Poly.sub, hneg, Poly.add_append_append hbelow hnegs hsum
    (hA.closed.neg_ne_zero hlead hne)]
  exact Poly.lt_of_mem_foldl_addTerm hbelow hnegs

/-- Enough steps of the division leave a residue. -/
theorem regular_reduceFrom {fuel : Nat} {p : Poly α}
    (hp : Poly.Regular A (E.ring A).Supports C p)
    (hfuel : ∀ top lead, p.top? = some (top, lead) → top.toNat < fuel) :
    Poly.Regular A (E.ring A).Supports C (E.reduceFrom A fuel p) ∧ E.Low (E.reduceFrom A fuel p) := by
  induction fuel generalizing p with
  | zero => exact ⟨hp, fun top lead htop => absurd (hfuel top lead htop) (Nat.not_lt_zero _)⟩
  | succ fuel ih =>
    rw [reduceFrom]
    split
    · rename_i hnone
      exact ⟨hp, fun top lead htop => absurd (hnone.symm.trans htop) (by simp)⟩
    · rename_i top lead htop
      split
      · rename_i hlt
        refine ⟨hp, fun other coefficient hother => ?_⟩
        obtain ⟨rfl, -⟩ := Prod.mk.inj (Option.some.inj (htop.symm.trans hother))
        exact hlt
      · rename_i hge
        obtain ⟨hregular, hterms⟩ := regular_cancelTop hA hone hE hp htop (UInt64.not_lt.1 hge)
        apply ih hregular
        intro next coefficient hnext
        have hless := Poly.top_lt_of_forall_lt (canonical_of_regular hregular) hterms hnext
        have := hfuel top lead htop
        have := UInt64.lt_iff_toNat_lt.1 hless
        omega

/-- The remainder of a regular polynomial is a residue. -/
theorem regular_reduce {p : Poly α} (hp : Poly.Regular A (E.ring A).Supports C p) :
    Poly.Regular A (E.ring A).Supports C (E.reduce A p) ∧ E.Low (E.reduce A p) := by
  apply regular_reduceFrom hA hone hE hp
  intro top lead htop
  simp [htop]

/-- The arithmetic of an extension stays among the residues. -/
theorem closed : (E.arithmetic A).Closed fun p =>
    Poly.Regular A (E.ring A).Supports C p ∧ E.Low p where
  zero := ⟨Poly.regular_zero, fun _ _ htop => absurd htop (by simp [arithmetic, Poly.top?, Poly.zero])⟩
  one := ⟨PolyRing.regular_constant (E.ring A).closed_supports hA.one_mem,
    low_one hE.degree_ne_zero⟩
  add {p q} hp hq := by
    have hregular := hp.1.add hA.closed hq.1
    refine ⟨hregular, fun top lead htop => ?_⟩
    refine Poly.top_lt_of_forall_lt (canonical_of_regular hregular) ?_ htop
    exact Poly.lt_of_mem_foldl_addTerm (hp.2.lt_of_mem (canonical_of_regular hp.1))
      (hq.2.lt_of_mem (canonical_of_regular hq.1))
  mul hp hq := regular_reduce hA hone hE (hp.1.mul hA.closed (E.ring A).closed_supports hq.1)
  neg hp := ⟨hp.1.neg hA.closed, hp.2.neg⟩
  neg_ne_zero {p} _ hne hneg := by
    have hterms : p.terms.map _ = [] := congrArg Poly.terms hneg
    exact hne (congrArg Poly.mk (List.map_eq_nil_iff.1 hterms))

end Extension

/-! ### Inverses -/

namespace Residue

/-- Each remainder of Euclid's algorithm is its coefficient times the number, up to the modulus. -/
theorem dvd_euclid {m a r s r' s' : Int} (h : m ∣ r - s * a) (h' : m ∣ r' - s' * a) (fuel : Nat) :
    m ∣ (euclid r s r' s' fuel).1 - (euclid r s r' s' fuel).2 * a := by
  induction fuel generalizing r s r' s' with
  | zero => exact h
  | succ fuel ih =>
    rw [euclid]
    split
    · exact h
    · apply ih h'
      have hstep : r % r' - (s - r / r' * s') * a = (r - s * a) - (r' - s' * a) * (r / r') := by
        rw [Int.emod_def]
        ring
      rw [hstep]
      exact dvd_sub h (Dvd.dvd.mul_right h' _)

/-- An inverse is reduced, and its product with the number is one. -/
theorem mul_inverse {m : Nat} (hm : 2 ≤ m) {a : Int} {b : Nat} (h : inverse? m a = some b) :
    b < m ∧ a * b % m = 1 := by
  have hdvd : (m : Int) ∣ (euclid m 0 (a % m) 1 (m + 1)).1 - (euclid m 0 (a % m) 1 (m + 1)).2 * a :=
    dvd_euclid (by simp) (by simpa using Int.dvd_emod_sub_self) (m + 1)
  unfold inverse? at h
  generalize euclid m 0 (a % m) 1 (m + 1) = found at h hdvd
  obtain ⟨divisor, coefficient⟩ := found
  dsimp only at h hdvd
  split at h
  · rename_i hone
    obtain rfl : (coefficient % m).toNat = b := Option.some.inj h
    have hpos : (0 : Int) < m := by omega
    have hnonneg := Int.emod_nonneg coefficient hpos.ne'
    have hlt := Int.emod_lt_of_pos coefficient hpos
    refine ⟨by omega, ?_⟩
    rw [hone] at hdvd
    have hmod : (1 : Int) % m = coefficient * a % m :=
      Int.emod_eq_emod_iff_emod_sub_eq_zero.2 (Int.emod_eq_zero_of_dvd hdvd)
    rw [Int.toNat_of_nonneg hnonneg, Int.mul_emod, Int.emod_emod, ← Int.mul_emod, mul_comm, ← hmod]
    exact Int.emod_eq_of_lt (by decide) (by omega)
  · contradiction

end Residue

/-- The inverse of a rational number. -/
theorem Rational.mul_inverse {a b : Rat} (h : inverse a = .ok b) : a * b = 1 := by
  unfold inverse at h
  split at h
  · contradiction
  · rename_i hne
    rw [← Except.ok.inj h]
    exact mul_inv_cancel₀ hne

/-- The inverse of a residue. -/
theorem BigModulus.mul_inverse (m : BigModulus) {a b : Int} (h : m.inverse a = .ok b) :
    m.Reduced b ∧ m.arithmetic.mul a b = m.arithmetic.one := by
  unfold inverse Residue.invert at h
  split at h
  · rename_i c hc
    obtain ⟨hlt, hone⟩ := Residue.mul_inverse m.two_le hc
    obtain rfl : (c : Int) = b := Except.ok.inj h
    exact ⟨⟨Int.natCast_nonneg c, Int.ofNat_lt.2 hlt⟩, hone⟩
  · contradiction

/-- An extension that could be made keeps the ring and the polynomial that it was made from, and the
inverse of the leading coefficient was found. -/
theorem Extension.inverse_of_make {α : Type} {R : PolyRing α} {inverse : α → Except RingFault α}
    {p : Poly α} {E : Extension α} (h : make R inverse p = .ok E) :
    E.ring R.coefficients = R ∧ E.modulus = p ∧ E.degree ≠ 0 ∧
      ∃ lead, p.top? = some (E.degree, lead) ∧ inverse lead = .ok E.leadInverse := by
  obtain ⟨A, vars, order⟩ := R
  unfold make at h
  split at h
  · rename_i generator hvars
    obtain rfl : vars = [generator] := hvars
    split at h
    · contradiction
    · rename_i degree lead htop
      split at h
      · contradiction
      · rename_i hdegree
        cases hlead : inverse lead with
        | error fault =>
          rw [hlead] at h
          contradiction
        | ok leadInverse =>
          rw [hlead] at h
          rw [← Except.ok.inj h]
          exact ⟨rfl, rfl, hdegree, lead, htop, hlead⟩
  · contradiction

/-- An extension that could be made is valid. -/
theorem Extension.valid_of_make {α : Type} {A : Arithmetic α} {C : α → Prop} {E : Extension α}
    {inverse : α → Except RingFault α}
    (hinverse : ∀ {a b : α}, C a → inverse a = .ok b → C b ∧ A.mul a b = A.one)
    (hmake : make (E.ring A) inverse E.modulus = .ok E)
    (hmodulus : Poly.Regular A (E.ring A).Supports C E.modulus) : E.Valid A C := by
  obtain ⟨-, -, hdegree, lead, htop, hlead⟩ := inverse_of_make hmake
  obtain ⟨terms, hterms, -⟩ := Poly.exists_terms_eq_append (canonical_of_regular hmodulus) htop
  have hmem := hmodulus.coefficients ([E.degree], lead) (by simp [hterms])
  obtain ⟨hin, hone⟩ := hinverse hmem hlead
  exact ⟨hmodulus, hdegree, hin, lead, htop, hone⟩

end PolynomialText
