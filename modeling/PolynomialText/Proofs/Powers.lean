import PolynomialText.Proofs.PolyLaws

/-!
# Powers

Repeated squaring computes powers: in a monoid the ordinary ones, for constants the constants of
powers, and for variables the powers with that exponent. The exponent of a variable is not clamped
on the way, because the last squaring is left out.
-/

namespace PolynomialText

/-- Repeated squaring in a monoid, with enough steps for all binary digits of the exponent. -/
theorem powerFrom_eq_pow {M : Type} [Monoid M] (fuel : Nat) (x y : M) {n : Nat} (hn : n < 2 ^ fuel) :
    powerFrom (· * ·) x y fuel n = x * y ^ n := by
  induction fuel generalizing x y n with
  | zero =>
    obtain rfl : n = 0 := by simpa using hn
    simp [powerFrom]
  | succ fuel ih =>
    have hhalf : n / 2 < 2 ^ fuel := by
      rw [Nat.pow_succ] at hn
      omega
    have hdigits : n = n % 2 + 2 * (n / 2) := by omega
    have hodd : (if n % 2 = 1 then x * y else x) = x * y ^ (n % 2) := by
      rcases Nat.mod_two_eq_zero_or_one n with h | h <;> simp [h]
    rw [powerFrom]
    split
    · rename_i hzero
      rw [hzero, pow_zero, mul_one]
    · dsimp only
      rw [hodd]
      split
      · rename_i hlast
        have hsmall : n = n % 2 := by omega
        rw [← hsmall]
      · rw [ih _ _ hhalf, ← pow_two, ← pow_mul, mul_assoc, ← pow_add, ← hdigits]

namespace Arithmetic

variable {α : Type} {A : Arithmetic α} {C : α → Prop}

/-- The power one of an element. -/
theorem pow_one (a : α) : A.pow a 1 = A.mul A.one a := by
  simp [pow, power, powerFrom]

end Arithmetic

/-- Clamped addition of one to itself counts up to every 64-bit number. -/
theorem powerFrom_clampAdd (k : UInt64) : powerFrom clampAdd 0 1 64 k.toNat = k := by
  have hsum : ∀ {a b : UInt64} {x y : Multiplicative Nat},
      a.toNat = min x.toAdd (UInt64.size - 1) → b.toNat = min y.toAdd (UInt64.size - 1) →
      (clampAdd a b).toNat = min (x * y).toAdd (UInt64.size - 1) := by
    intro a b x y ha hb
    rw [toNat_clampAdd, toAdd_mul]
    omega
  have hpower := powerFrom_rel (g := (· * ·)) (R := fun (a : UInt64) (x : Multiplicative Nat) =>
    a.toNat = min x.toAdd (UInt64.size - 1)) hsum 64 (a := 0) (x := 1) rfl (b := 1)
    (y := Multiplicative.ofAdd 1) rfl k.toNat
  have hk : k.toNat < 2 ^ 64 := k.toNat_lt
  rw [powerFrom_eq_pow 64 _ _ hk, one_mul, ← ofAdd_nsmul] at hpower
  apply UInt64.toNat.inj
  rw [hpower]
  have hsize : UInt64.size = 2 ^ 64 := rfl
  simp only [toAdd_ofAdd, smul_eq_mul, mul_one]
  omega

/-- Powers of one variable multiply by adding their exponents. -/
theorem Exponents.single_add_single (nvars index : Nat) (a b : UInt64) :
    (single nvars index a).add (single nvars index b) = single nvars index (clampAdd a b) := by
  apply List.ext_getElem?
  intro i
  simp only [add, single, zero, List.getElem?_zipWith, List.getElem?_set, List.length_replicate,
    List.getElem?_replicate]
  by_cases hi : index = i
  · by_cases hlt : i < nvars <;> simp [hi, hlt]
  · by_cases hlt : i < nvars <;> simp [hi, hlt, clampAdd_zero]

namespace PolyRing

variable {α : Type} {R : PolyRing α} {C : α → Prop}

/-- The exponent zero of a variable gives one. -/
theorem univariate_zero (index : Nat) : R.univariate index 0 = R.one := by
  have hzero : Exponents.single R.nvars index 0 = .zero R.nvars := by
    apply List.ext_getElem?
    intro i
    simp only [Exponents.single, Exponents.zero, List.getElem?_set, List.length_replicate,
      List.getElem?_replicate]
    by_cases hi : index = i
    · by_cases hlt : i < R.nvars <;> simp [hi, hlt]
    · simp [hi]
  rw [univariate, hzero, one, constant]

/-- The product of two monomials is the monomial of the products. -/
theorem monomial_mul_monomial (h : R.coefficients.RingLaws C) {d e : Exponents} {a b : α}
    (hd : d.length = R.nvars) (he : e.length = R.nvars) (ha : C a) (hb : C b) :
    Poly.mul R.coefficients (.monomial R.coefficients d a) (.monomial R.coefficients e b) =
      .monomial R.coefficients (d.add e) (R.coefficients.mul a b) := by
  have hcanonical : ∀ {e : Exponents} {c : α}, e.length = R.nvars → C c →
      R.CanonicalPoly C (.monomial R.coefficients e c) := fun he hc =>
    Poly.canonicalOver_iff_regular.2 (Poly.regular_monomial he hc)
  have hlength : (d.add e).length = R.nvars := (Exponents.closed_length _).add hd he
  apply Poly.eq_of_value_eq (h := h)
    ((ringLaws h).mul_mem (hcanonical hd ha) (hcanonical he hb))
    (hcanonical hlength (h.mul_mem ha hb))
  rw [(represents h).map_mul (hcanonical hd ha) (hcanonical he hb)]
  simp only [Poly.value_monomial]
  exact (Poly.termValue_mulTerm (s := (d, a)) (t := (e, b)) ⟨hd, ha⟩ ⟨he, hb⟩).symm

/-- A power of a constant is the constant of the power. -/
theorem pow_constant (h : R.coefficients.RingLaws C) {c : α} (hc : C c) (k : UInt64) :
    R.pow (R.constant c) k = R.constant (R.coefficients.pow c k) := by
  have hlength : (Exponents.zero R.nvars).length = R.nvars := (Exponents.closed_length _).zero
  have hzero : (Exponents.zero R.nvars).add (.zero R.nvars) = .zero R.nvars := by
    have := Exponents.zero_add (.zero R.nvars)
    rwa [hlength] at this
  have hmul : ∀ {p q : Poly α} {a b : α}, C a ∧ p = R.constant a → C b ∧ q = R.constant b →
      C (R.coefficients.mul a b) ∧
        Poly.mul R.coefficients p q = R.constant (R.coefficients.mul a b) := by
    rintro p q a b ⟨ha, rfl⟩ ⟨hb, rfl⟩
    refine ⟨h.mul_mem ha hb, ?_⟩
    rw [constant, constant, monomial_mul_monomial h hlength hlength ha hb, hzero, constant]
  exact (powerFrom_rel (R := fun p a => C a ∧ p = R.constant a) hmul 64 ⟨h.one_mem, rfl⟩ ⟨hc, rfl⟩
    k.toNat).2

/-- A power of a variable has the exponent of the power. -/
theorem pow_univariate (h : R.coefficients.RingLaws C) (index : Nat) (k : UInt64) :
    R.pow (R.univariate index 1) k = R.univariate index k := by
  have hlength : ∀ k, (Exponents.single R.nvars index k).length = R.nvars := by
    simp [Exponents.single, Exponents.zero]
  have hmul : ∀ {p q : Poly α} {a b : UInt64}, p = R.univariate index a → q = R.univariate index b →
      Poly.mul R.coefficients p q = R.univariate index (clampAdd a b) := by
    rintro p q a b rfl rfl
    rw [univariate, univariate, monomial_mul_monomial h (hlength a) (hlength b) h.one_mem h.one_mem,
      Exponents.single_add_single, h.one_mul h.one_mem, univariate]
  have hpower := powerFrom_rel (R := fun p a => p = R.univariate index a) hmul 64
    (univariate_zero index).symm (y := 1) rfl k.toNat
  rwa [powerFrom_clampAdd] at hpower

end PolyRing

end PolynomialText
