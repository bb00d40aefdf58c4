import PolynomialText.Proofs.CoefficientMaps
import PolynomialText.Proofs.ExtensionResidues
import PolynomialText.Proofs.SafeExpressions
import Mathlib.Data.List.TakeWhile
import Mathlib.Tactic.LinearCombination

/-!
# Residues of rational numbers

A rational number has a residue if its denominator is coprime to the modulus. Such numbers form a
ring, and taking the residue keeps the operations of that ring. The residue is the element of the
integers modulo the modulus whose product with the denominator is the numerator, and this determines
it.
-/

namespace PolynomialText

namespace Residue

/-! ### Euclid's algorithm -/

/-- With enough steps Euclid's algorithm ends with the greatest common divisor. -/
theorem euclid_fst_eq_gcd {r r' : Int} (hr : 0 ≤ r) (hr' : 0 ≤ r') (s s' : Int) {fuel : Nat}
    (hfuel : r' < fuel) : (euclid r s r' s' fuel).1 = Int.gcd r r' := by
  induction fuel generalizing r r' s s' with
  | zero => exact absurd hfuel (by omega)
  | succ fuel ih =>
    rw [euclid]
    split
    · rename_i hzero
      rw [hzero, Int.gcd_zero_right, Int.natCast_natAbs, abs_of_nonneg hr]
    · rename_i hne
      have hpos : 0 < r' := lt_of_le_of_ne hr' (Ne.symm hne)
      have hlt := Int.emod_lt_of_pos r hpos
      rw [ih hr' (Int.emod_nonneg r hne) _ _ (by omega), Int.gcd_comm, Int.gcd_emod]

/-- An integer has an inverse exactly if it is coprime to the modulus. -/
theorem isSome_inverse?_iff_gcd {m : Nat} (hm : 0 < m) (a : Int) :
    (inverse? m a).isSome = true ↔ a.gcd m = 1 := by
  have hpos : (0 : Int) < m := by omega
  have hlt := Int.emod_lt_of_pos a hpos
  have hgcd : (euclid m 0 (a % m) 1 (m + 1)).1 = (a.gcd m : Int) := by
    rw [euclid_fst_eq_gcd hpos.le (Int.emod_nonneg a hpos.ne') 0 1 (by omega), Int.gcd_comm,
      Int.gcd_emod]
  unfold inverse?
  generalize euclid m 0 (a % m) 1 (m + 1) = found at hgcd ⊢
  obtain ⟨divisor, coefficient⟩ := found
  obtain rfl : divisor = (a.gcd m : Int) := hgcd
  dsimp only
  split
  · rename_i hone
    exact iff_of_true rfl (by exact_mod_cast hone)
  · rename_i hne
    exact iff_of_false (by simp) (by exact_mod_cast hne)

/-- A number has an inverse exactly if it is coprime to the modulus. -/
theorem isSome_inverse?_iff {m : Nat} (hm : 0 < m) (a : Nat) :
    (inverse? m a).isSome = true ↔ a.Coprime m := by
  rw [isSome_inverse?_iff_gcd hm, Int.gcd_natCast_natCast, Nat.Coprime]

/-! ### The residue of a rational number -/

/-- The residue of a rational number whose denominator is coprime to the modulus. -/
def ofRat (m : Nat) (r : Rat) : Nat := (ofRat? m r).getD 0

theorem ofRat?_eq_map (m : Nat) (r : Rat) :
    ofRat? m r = (inverse? m r.den).map fun d : Nat => (r.num * d % m).toNat := by
  unfold ofRat?
  cases inverse? m r.den <;> rfl

/-- A rational number has a residue exactly if its denominator is coprime to the modulus. -/
theorem isSome_ofRat?_iff {m : Nat} (hm : 0 < m) (r : Rat) :
    (ofRat? m r).isSome = true ↔ r.den.Coprime m := by
  rw [ofRat?_eq_map, Option.isSome_map]
  exact isSome_inverse?_iff hm r.den

theorem ofRat?_eq_some {m : Nat} (hm : 0 < m) {r : Rat} (h : r.den.Coprime m) :
    ofRat? m r = some (ofRat m r) := by
  obtain ⟨v, hv⟩ := Option.isSome_iff_exists.1 ((isSome_ofRat?_iff hm r).2 h)
  rw [ofRat, hv, Option.getD_some]

section

variable {m : Nat} (hm : 2 ≤ m) {a b : Rat}
include hm

theorem ofRat_lt (ha : a.den.Coprime m) : ofRat m a < m :=
  lt_of_ofRat?_eq_some hm (ofRat?_eq_some (by omega) ha)

/-- The product of the residue with the denominator is the numerator. -/
theorem ofRat_mul_den (ha : a.den.Coprime m) :
    (ofRat m a : ZMod m) * (a.den : ZMod m) = (a.num : ZMod m) := by
  have hsome := ofRat?_eq_some (by omega) ha
  rw [ofRat?_eq_map] at hsome
  obtain ⟨d, hd, hvalue⟩ := Option.map_eq_some_iff.1 hsome
  have hinverse : ((a.den : Int) * d : ZMod m) = 1 := by
    have hmod := (mul_inverse hm hd).2
    have hone : (1 : Int) % m = 1 := Int.emod_eq_of_lt (by decide) (by omega)
    have hcast := (ZMod.intCast_eq_intCast_iff' ((a.den : Int) * d) 1 m).2 (hmod.trans hone.symm)
    push_cast at hcast
    simpa using hcast
  have hnonneg : 0 ≤ a.num * d % (m : Int) := Int.emod_nonneg _ (by omega)
  have hresidue : (ofRat m a : ZMod m) = a.num * d := by
    rw [← hvalue]
    have hcast : (((a.num * d % m).toNat : Int) : ZMod m) = ((a.num * d % m : Int) : ZMod m) := by
      rw [Int.toNat_of_nonneg hnonneg]
    rw [ZMod.intCast_mod] at hcast
    push_cast at hcast
    simpa using hcast
  rw [hresidue]
  push_cast at hinverse
  linear_combination (a.num : ZMod m) * hinverse

omit hm in
/-- Denominators that are coprime to the modulus can be cancelled. -/
theorem isUnit_den (ha : a.den.Coprime m) : IsUnit (a.den : ZMod m) :=
  (ZMod.isUnit_iff_coprime a.den m).2 ha

/-- The residue is determined by its product with the denominator. -/
theorem eq_ofRat (ha : a.den.Coprime m) {x : ZMod m}
    (hx : x * (a.den : ZMod m) = (a.num : ZMod m)) : (ofRat m a : ZMod m) = x :=
  (isUnit_den ha).mul_right_cancel ((ofRat_mul_den hm ha).trans hx.symm)

variable (ha : a.den.Coprime m) (hb : b.den.Coprime m)
include ha

omit hm in
theorem coprime_den_neg : (-a).den.Coprime m := by
  rwa [Rat.neg_den]

theorem ofRat_neg : (ofRat m (-a) : ZMod m) = -ofRat m a := by
  apply eq_ofRat hm (coprime_den_neg ha)
  rw [Rat.neg_den, Rat.neg_num, neg_mul, ofRat_mul_den hm ha, Int.cast_neg]

include hb

omit hm in
theorem coprime_den_add : (a + b).den.Coprime m :=
  Nat.Coprime.coprime_dvd_left (Rat.add_den_dvd a b) (Nat.Coprime.mul_left ha hb)

omit hm in
theorem coprime_den_mul : (a * b).den.Coprime m :=
  Nat.Coprime.coprime_dvd_left (Rat.mul_den_dvd a b) (Nat.Coprime.mul_left ha hb)

theorem ofRat_add : (ofRat m (a + b) : ZMod m) = ofRat m a + ofRat m b := by
  have hsum := congrArg (Int.cast : Int → ZMod m) (Rat.add_num_den' a b)
  push_cast at hsum
  -- The denominator of the sum may be smaller than the product of the denominators.
  apply eq_ofRat hm (coprime_den_add ha hb)
  apply ((isUnit_den ha).mul (isUnit_den hb)).mul_right_cancel
  have hleft := ofRat_mul_den hm ha
  have hright := ofRat_mul_den hm hb
  linear_combination ((a + b).den : ZMod m) * (b.den * hleft + a.den * hright) - hsum

theorem ofRat_mul : (ofRat m (a * b) : ZMod m) = ofRat m a * ofRat m b := by
  have hproduct := congrArg (Int.cast : Int → ZMod m) (Rat.mul_num_den' a b)
  push_cast at hproduct
  apply eq_ofRat hm (coprime_den_mul ha hb)
  apply ((isUnit_den ha).mul (isUnit_den hb)).mul_right_cancel
  have hleft := ofRat_mul_den hm ha
  have hright := ofRat_mul_den hm hb
  linear_combination ((a * b).den : ZMod m) * (b.den * ofRat m b * hleft + a.num * hright) - hproduct

end

/-- The rational numbers that have a residue. -/
def Admits (m : Nat) (r : Rat) : Prop := r.den.Coprime m

end Residue

/-! ### Maps between rings through what they represent -/

section

variable {α β S : Type} [Ring S]

/-- The laws of a ring hold for a smaller set of elements that the operations do not leave. -/
theorem Arithmetic.RingLaws.restrict {A : Arithmetic α} {C K : α → Prop} (h : A.RingLaws C)
    (hle : ∀ {a}, K a → C a) (hzero : K A.zero) (hone : K A.one)
    (hadd : ∀ {a b}, K a → K b → K (A.add a b)) (hmul : ∀ {a b}, K a → K b → K (A.mul a b))
    (hneg : ∀ {a}, K a → K (A.neg a)) : A.RingLaws K where
  zero_mem := hzero
  one_mem := hone
  add_mem := hadd
  mul_mem := hmul
  neg_mem := hneg
  add_assoc ha hb hc := h.add_assoc (hle ha) (hle hb) (hle hc)
  add_comm ha hb := h.add_comm (hle ha) (hle hb)
  zero_add ha := h.zero_add (hle ha)
  neg_add ha := h.neg_add (hle ha)
  mul_assoc ha hb hc := h.mul_assoc (hle ha) (hle hb) (hle hc)
  one_mul ha := h.one_mul (hle ha)
  mul_one ha := h.mul_one (hle ha)
  mul_add ha hb hc := h.mul_add (hle ha) (hle hb) (hle hc)
  add_mul ha hb hc := h.add_mul (hle ha) (hle hb) (hle hc)

/-- The operations on canonical elements compute in a ring, in which elements may coincide. -/
structure Arithmetic.Evaluates (A : Arithmetic α) (C : α → Prop) (f : α → S) : Prop where
  map_zero : f A.zero = 0
  map_one : f A.one = 1
  map_add : ∀ {a b : α}, C a → C b → f (A.add a b) = f a + f b
  map_mul : ∀ {a b : α}, C a → C b → f (A.mul a b) = f a * f b
  map_neg : ∀ {a : α}, C a → f (A.neg a) = -f a

theorem Arithmetic.Represents.evaluates {A : Arithmetic α} {C : α → Prop} {f : α → S}
    (h : A.Represents C f) : A.Evaluates C f :=
  ⟨h.map_zero, h.map_one, h.map_add, h.map_mul, h.map_neg⟩

/-- A map that keeps the elements of the common ring keeps the operations. -/
theorem Arithmetic.Evaluates.maps {A : Arithmetic α} {C : α → Prop} {f : α → S}
    {B : Arithmetic β} {D : β → Prop} {g : β → S} {φ : α → β} (hA : A.Evaluates C f)
    (h : A.RingLaws C) (hB : B.Represents D g) (hφ : ∀ {a}, C a → D (φ a) ∧ g (φ a) = f a) :
    A.Maps C B D φ where
  mem ha := (hφ ha).1
  map_zero := hB.injective (hφ h.zero_mem).1 hB.zero_mem
    (by rw [(hφ h.zero_mem).2, hA.map_zero, hB.map_zero])
  map_one := hB.injective (hφ h.one_mem).1 hB.one_mem
    (by rw [(hφ h.one_mem).2, hA.map_one, hB.map_one])
  map_add {a b} ha hb := by
    obtain ⟨ha', hfa⟩ := hφ ha
    obtain ⟨hb', hfb⟩ := hφ hb
    obtain ⟨hsum, hfsum⟩ := hφ (h.add_mem ha hb)
    apply hB.injective hsum (hB.add_mem ha' hb')
    rw [hfsum, hA.map_add ha hb, hB.map_add ha' hb', hfa, hfb]
  map_mul {a b} ha hb := by
    obtain ⟨ha', hfa⟩ := hφ ha
    obtain ⟨hb', hfb⟩ := hφ hb
    obtain ⟨hproduct, hfproduct⟩ := hφ (h.mul_mem ha hb)
    apply hB.injective hproduct (hB.mul_mem ha' hb')
    rw [hfproduct, hA.map_mul ha hb, hB.map_mul ha' hb', hfa, hfb]
  map_neg {a} ha := by
    obtain ⟨ha', hfa⟩ := hφ ha
    obtain ⟨hneg, hfneg⟩ := hφ (h.neg_mem ha)
    apply hB.injective hneg (hB.neg_mem ha')
    rw [hfneg, hA.map_neg ha, hB.map_neg ha', hfa]

end

/-! ### From rational numbers to residues -/

namespace Rational

/-- The rational numbers that have a residue form a ring. -/
theorem ringLaws_admits (m : Nat) : Rational.arithmetic.RingLaws (Residue.Admits m) :=
  Rational.ringLaws.restrict (fun _ => trivial) (Nat.coprime_one_left m) (Nat.coprime_one_left m)
    Residue.coprime_den_add Residue.coprime_den_mul Residue.coprime_den_neg

/-- Rational numbers with a residue compute as their residues do. -/
theorem evaluates_ofRat {m : Nat} (hm : 2 ≤ m) :
    Rational.arithmetic.Evaluates (Residue.Admits m) fun r => (Residue.ofRat m r : ZMod m) where
  map_zero := Residue.eq_ofRat hm (Nat.coprime_one_left m) (by simp [arithmetic])
  map_one := Residue.eq_ofRat hm (Nat.coprime_one_left m) (by simp [arithmetic])
  map_add := Residue.ofRat_add hm
  map_mul := Residue.ofRat_mul hm
  map_neg := Residue.ofRat_neg hm

end Rational

/-- The residue of a rational number in a machine word. -/
def WordModulus.residue (m : WordModulus) (r : Rat) : UInt64 := .ofNat (Residue.ofRat m.value.toNat r)

/-- The residue of a rational number as an integer. -/
def BigModulus.residue (m : BigModulus) (r : Rat) : Int := Residue.ofRat m.value r

theorem WordModulus.maps_residue (m : WordModulus) :
    Rational.arithmetic.Maps (Residue.Admits m.value.toNat) m.arithmetic m.Reduced m.residue := by
  apply (Rational.evaluates_ofRat m.two_le).maps (Rational.ringLaws_admits _) m.represents
  intro r hr
  have hlt := Residue.ofRat_lt m.two_le hr
  have hvalue : (m.residue r).toNat = Residue.ofRat m.value.toNat r :=
    UInt64.toNat_ofNat_of_lt' (hlt.trans m.value.toNat_lt)
  rw [Reduced, hvalue]
  exact ⟨hlt, rfl⟩

theorem BigModulus.maps_residue (m : BigModulus) :
    Rational.arithmetic.Maps (Residue.Admits m.value) m.arithmetic m.Reduced m.residue := by
  apply (Rational.evaluates_ofRat m.two_le).maps (Rational.ringLaws_admits _) m.represents
  intro r hr
  have hlt := Residue.ofRat_lt m.two_le hr
  exact ⟨⟨Int.natCast_nonneg _, Int.ofNat_lt.2 hlt⟩, Int.cast_natCast _⟩

/-! ### Literals -/

/-- A literal of the rational numbers in an expression. -/
theorem Rational.readWithin_eq (limits : Limits) (depth : Nat) (t : Text) :
    Rational.arithmetic.readWithin limits depth t = Rational.readRational t := by
  change (Rational.read t).mapError Refusal.reason = _
  unfold Rational.read
  cases Rational.readRational t <;> rfl

/-- A literal of residues in machine words in an expression. -/
theorem WordModulus.readWithin_eq (m : WordModulus) (limits : Limits) (depth : Nat) (t : Text) :
    m.arithmetic.readWithin limits depth t =
      ((Residue.read m.value.toNat t).map UInt64.ofNat).mapError Refusal.reason := rfl

/-- A literal of residues of any size in an expression. -/
theorem BigModulus.readWithin_eq (m : BigModulus) (limits : Limits) (depth : Nat) (t : Text) :
    m.arithmetic.readWithin limits depth t =
      ((Residue.read m.value t).map fun n : Nat => (n : Int)).mapError Refusal.reason := by
  change (m.read t).mapError Refusal.reason = _
  unfold BigModulus.read
  cases Residue.read m.value t <;> rfl

/-- No white space is the start of a symbol. -/
theorem isSymbolStart_of_isWhite {c : Char} (h : Text.isWhite c = true) :
    isSymbolStart c = false := by
  have hdisjoint : ∀ white ∈ Text.whiteRanges, ∀ range ∈ Text.alphabeticRanges,
      white.2 < range.1 ∨ range.2 < white.1 := by decide +kernel
  obtain ⟨white, hwhite, hin⟩ := List.any_eq_true.1 h
  simp only [Bool.and_eq_true, decide_eq_true_eq] at hin
  rw [Bool.eq_false_iff]
  intro hstart
  rcases of_isSymbolStart hstart with rfl | ⟨range, hrange, hle, hge⟩
  · exact absurd h (by decide)
  · have hapart := hdisjoint white hwhite range hrange
    omega

/-- The characters of a decimal numeral. -/
theorem mem_of_readDecimal {t : Text} {r : Rat} (h : Rational.readDecimal t = .ok r) {c : Char}
    (hc : c ∈ t) : c.isDigit = true ∨ c = '-' ∨ c = '+' ∨ c = '.' := by
  have hsigned : c ∈ (Literal.signed t).2 ∨ c = '-' ∨ c = '+' := by
    unfold Literal.signed
    split
    · exact (List.mem_cons.1 hc).symm.imp_right .inl
    · exact (List.mem_cons.1 hc).symm.imp_right .inr
    · exact .inl hc
  unfold Rational.readDecimal at h
  dsimp only at h
  split at h
  · contradiction
  · split at h
    · contradiction
    · rename_i hdigits
      simp only [Bool.not_eq_true', Bool.not_eq_false] at hdigits
      rcases hsigned with hbody | hsign
      · cases hsplit : Text.splitOnce? '.' (Literal.signed t).2 with
        | none =>
          rw [hsplit, Option.getD_none, List.append_nil] at hdigits
          exact .inl (List.all_eq_true.1 hdigits c hbody)
        | some parts =>
          rw [hsplit, Option.getD_some] at hdigits
          rw [Text.eq_of_splitOnce?_eq_some hsplit, List.mem_append, List.mem_cons] at hbody
          rcases hbody with hwhole | hpoint | hfraction
          · exact .inl (List.all_eq_true.1 hdigits c (List.mem_append_left _ hwhole))
          · exact .inr (.inr (.inr hpoint))
          · exact .inl (List.all_eq_true.1 hdigits c (List.mem_append_right _ hfraction))
      · exact .inr (hsign.imp_right .inl)

/-- The characters of a rational literal without white space. -/
theorem mem_of_readRational {t : Text} {r : Rat} (h : Rational.readRational t = .ok r) {c : Char}
    (hc : c ∈ Literal.normalise t) :
    c.isDigit = true ∨ c = '-' ∨ c = '+' ∨ c = '.' ∨ c = '/' := by
  have hdecimal : ∀ {part : Text} {q : Rat}, Rational.readDecimal part = .ok q → c ∈ part →
      c.isDigit = true ∨ c = '-' ∨ c = '+' ∨ c = '.' ∨ c = '/' := by
    intro part q hpart hmem
    have := mem_of_readDecimal hpart hmem
    tauto
  unfold Rational.readRational at h
  dsimp only at h
  split at h
  · contradiction
  · split at h
    · exact hdecimal h hc
    · rename_i upper lower hsplit
      rw [Text.eq_of_splitOnce?_eq_some hsplit, List.mem_append, List.mem_cons] at hc
      simp only [bind, Except.bind] at h
      cases hupper : Rational.readDecimal upper with
      | error fault => simp [hupper] at h
      | ok numerator =>
        cases hlower : Rational.readDecimal lower with
        | error fault => simp [hupper, hlower] at h
        | ok denominator =>
          rcases hc with hnumerator | hslash | hdenominator
          · exact hdecimal hupper hnumerator
          · exact .inr (.inr (.inr (.inr hslash)))
          · exact hdecimal hlower hdenominator

/-- No symbol starts in a text that is a rational literal. -/
theorem isSymbolStart_of_readRational {t : Text} {r : Rat} (h : Rational.readRational t = .ok r)
    {c : Char} (hc : c ∈ t) : isSymbolStart c = false := by
  by_cases hwhite : Text.isWhite c = true
  · exact isSymbolStart_of_isWhite hwhite
  · by_cases htilde : c = '~'
    · subst htilde
      decide +kernel
    · have hnormal : c ∈ Literal.normalise t := Literal.mem_normalise hc hwhite htilde
      rcases mem_of_readRational h hnormal with hdigit | rfl | rfl | rfl | rfl
      · exact isSymbolStart_of_isDigit hdigit
      all_goals exact isSymbolStart_of_toNat_lt (by decide)

/-- No symbol can be split off a text that is a rational literal. -/
theorem splitJuxtaposed?_of_readRational {t : Text} {r : Rat} (h : Rational.readRational t = .ok r) :
    splitJuxtaposed? t = none := by
  have hsymbol : t.dropWhile (!isSymbolStart ·) = [] := by
    rw [List.dropWhile_eq_nil_iff]
    intro c hc
    simp [isSymbolStart_of_readRational h hc]
  unfold splitJuxtaposed?
  dsimp only
  rw [hsymbol, if_pos (.inr rfl)]

end PolynomialText
