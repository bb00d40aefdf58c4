import Mathlib.RingTheory.Coprime.Lemmas
import PolynomialText.Proofs.Powers
import PolynomialText.Proofs.WordSize

/-!
# Residues in machine words

Arithmetic of residues in machine words takes any words, reduced or not. Sums and products are formed
in words of twice the width, which hold them whatever the modulus is, so that the remainder is that of
the exact sum or product, and every result is the one that integers give. In both kinds of rings an
element has an inverse exactly if it is coprime to the modulus, and a rational literal is accepted
exactly if its denominator is; the inverse and the residue are the only reduced solutions of their
congruences.
-/

namespace PolynomialText

/-! ### Congruences with one reduced solution -/

namespace Residue

variable {m : Nat}

/-- The inverse is the only reduced number whose product is congruent to one. -/
theorem inverse?_eq_some_iff (hm : 2 ≤ m) {a : Int} {b : Nat} :
    inverse? m a = some b ↔ b < m ∧ a * b ≡ 1 [ZMOD m] := by
  have hone : (1 : Int) % m = 1 := Int.emod_eq_of_lt (by decide) (by omega)
  have hsolves : ∀ {c : Nat}, inverse? m a = some c → c < m ∧ a * c ≡ 1 [ZMOD m] := by
    intro c hc
    obtain ⟨hlt, hmod⟩ := mul_inverse hm hc
    exact ⟨hlt, hmod.trans hone.symm⟩
  refine ⟨hsolves, fun ⟨hlt, hb⟩ => ?_⟩
  have hgcd : a.gcd m = 1 := by
    obtain ⟨k, hk⟩ := Int.modEq_iff_dvd.1 hb
    exact Int.isCoprime_iff_gcd_eq_one.1 ⟨b, k, by linear_combination -hk⟩
  obtain ⟨c, hc⟩ := Option.isSome_iff_exists.1 ((isSome_inverse?_iff_gcd (by omega) a).2 hgcd)
  obtain ⟨hclt, hsolution⟩ := hsolves hc
  have hsame : (b : Int) ≡ c [ZMOD m] :=
    calc (b : Int) = b * 1 := by ring
      _ ≡ b * (a * c) [ZMOD m] := (hsolution.mul_left b).symm
      _ = a * b * c := by ring
      _ ≡ 1 * c [ZMOD m] := hb.mul_right c
      _ = c := by ring
  rw [Int.natCast_modEq_iff, Nat.ModEq, Nat.mod_eq_of_lt hlt, Nat.mod_eq_of_lt hclt] at hsame
  rw [hc, hsame]

/-- The residue of a rational number is the only reduced number whose product with the denominator is
congruent to the numerator. -/
theorem ofRat?_eq_some_iff (hm : 2 ≤ m) {q : Rat} {r : Nat} :
    ofRat? m q = some r ↔ q.den.Coprime m ∧ r < m ∧ (r * q.den : Int) ≡ q.num [ZMOD m] := by
  have hmodEq : ∀ n : Nat, (n * q.den : Int) ≡ q.num [ZMOD m] ↔
      (n : ZMod m) * (q.den : ZMod m) = (q.num : ZMod m) := by
    intro n
    rw [← ZMod.intCast_eq_intCast_iff]
    push_cast
    rfl
  constructor
  · intro hr
    have hcoprime := (isSome_ofRat?_iff (by omega) q).1 (Option.isSome_iff_exists.2 ⟨r, hr⟩)
    obtain rfl : ofRat m q = r := by rw [ofRat, hr, Option.getD_some]
    exact ⟨hcoprime, ofRat_lt hm hcoprime, (hmodEq _).2 (ofRat_mul_den hm hcoprime)⟩
  · rintro ⟨hcoprime, hlt, hr⟩
    have hsame := eq_ofRat hm hcoprime ((hmodEq r).1 hr)
    rw [ZMod.natCast_eq_natCast_iff', Nat.mod_eq_of_lt (ofRat_lt hm hcoprime),
      Nat.mod_eq_of_lt hlt] at hsame
    rw [ofRat?_eq_some (by omega) hcoprime, hsame]

/-- A literal is accepted as a residue if it is a rational literal and its value has this residue. -/
theorem read_eq_ok_iff {t : Text} {r : Nat} :
    read m t = .ok r ↔ ∃ q, Rational.readRational t = .ok q ∧ ofRat? m q = some r := by
  unfold read
  cases Rational.readRational t with
  | error fault => simp
  | ok q => cases hresidue : ofRat? m q <;> simp [hresidue]

/-- An element that is inverted has an inverse. -/
theorem invert_eq_ok_iff {a : Int} {b : Nat} : invert m a = .ok b ↔ inverse? m a = some b := by
  unfold invert
  cases inverse? m a <;> simp

end Residue

/-! ### Two ways to keep residues -/

/-- A way to keep the numbers below the modulus as elements of a type, in which elements may also stand
for other integers. -/
structure Residue.Keeps {α : Type} (m : Nat) (keep : Nat → α) (value : α → Int) : Prop where
  value_keep : ∀ n < m, value (keep n) = n
  keep_value : ∀ a, 0 ≤ value a → value a < m → keep (value a).toNat = a

/-- A ring of residues inverts exactly the elements that are coprime to the modulus, and takes exactly
the rational literals whose denominator is. Its answers are the reduced solutions of the congruences
that define an inverse and a quotient. -/
structure Arithmetic.DividesModulo {α : Type} (A : Arithmetic α) (m : Nat) (value : α → Int)
    (inverse : α → Except RingFault α) : Prop where
  inverse?_eq : A.inverse? = some inverse
  exists_inverse_iff : ∀ a, (∃ b, inverse a = .ok b) ↔ Int.gcd (value a) m = 1
  inverse_eq_ok_iff : ∀ a b, inverse a = .ok b ↔
    (0 ≤ value b ∧ value b < m) ∧ value a * value b ≡ 1 [ZMOD m]
  exists_read_iff : ∀ t, (∃ r, A.read t = .ok r) ↔
    ∃ q, Rational.readRational t = .ok q ∧ q.den.Coprime m
  read_eq_ok_iff : ∀ t r, A.read t = .ok r ↔
    ∃ q, Rational.readRational t = .ok q ∧ q.den.Coprime m ∧
      (0 ≤ value r ∧ value r < m) ∧ value r * q.den ≡ q.num [ZMOD m]

namespace Residue.Keeps

variable {α : Type} {m : Nat} {keep : Nat → α} {value : α → Int} (h : Keeps m keep value)
include h

/-- A reduced number that is kept after a computation. -/
theorem map_eq_ok_iff {ε : Type} {x : Except ε Nat} (hx : ∀ n, x = .ok n → n < m) {a : α} :
    x.map keep = .ok a ↔ (0 ≤ value a ∧ value a < m) ∧ x = .ok (value a).toNat := by
  constructor
  · intro hmap
    cases hxn : x with
    | error e =>
      rw [hxn] at hmap
      contradiction
    | ok n =>
      rw [hxn] at hmap
      obtain rfl : keep n = a := Except.ok.inj hmap
      have hlt := hx n hxn
      rw [h.value_keep n hlt, Int.toNat_natCast]
      exact ⟨⟨Int.natCast_nonneg n, Int.ofNat_lt.2 hlt⟩, rfl⟩
  · rintro ⟨⟨hnonneg, hlt⟩, rfl⟩
    exact congrArg Except.ok (h.keep_value a hnonneg hlt)

omit h in
/-- Whether something is kept does not depend on how it is kept. -/
theorem exists_map_eq_ok_iff {ε : Type} {x : Except ε Nat} :
    (∃ a, x.map keep = .ok a) ↔ ∃ n, x = .ok n := by
  cases x with
  | error e => exact iff_of_false (by rintro ⟨a, ha⟩; contradiction) (by rintro ⟨n, hn⟩; contradiction)
  | ok n => exact iff_of_true ⟨keep n, rfl⟩ ⟨n, rfl⟩

/-- A ring that inverts and reads residues, and keeps them, divides modulo the number. -/
theorem dividesModulo (hm : 2 ≤ m) {A : Arithmetic α} {inverse : α → Except RingFault α}
    (hinverse?: A.inverse? = some inverse)
    (hinverse : ∀ a, inverse a = (invert m (value a)).map keep)
    (hread : ∀ t, A.read t = (read m t).map keep) : A.DividesModulo m value inverse where
  inverse?_eq := hinverse?
  exists_inverse_iff a := by
    rw [hinverse, exists_map_eq_ok_iff, ← isSome_inverse?_iff_gcd (by omega),
      Option.isSome_iff_exists]
    exact exists_congr fun _ => invert_eq_ok_iff
  inverse_eq_ok_iff a b := by
    have hlt : ∀ n, invert m (value a) = .ok n → n < m := fun n hn =>
      ((inverse?_eq_some_iff hm).1 (invert_eq_ok_iff.1 hn)).1
    rw [hinverse, h.map_eq_ok_iff hlt, invert_eq_ok_iff, inverse?_eq_some_iff hm]
    refine and_congr_right fun hb => ?_
    rw [Int.toNat_of_nonneg hb.1]
    exact and_iff_right ((Int.toNat_lt hb.1).2 hb.2)
  exists_read_iff t := by
    rw [hread, exists_map_eq_ok_iff]
    simp only [Residue.read_eq_ok_iff]
    rw [exists_comm]
    refine exists_congr fun q => ?_
    rw [exists_and_left, ← Option.isSome_iff_exists, isSome_ofRat?_iff (by omega)]
  read_eq_ok_iff t r := by
    have hlt : ∀ n, Residue.read m t = .ok n → n < m := fun n => lt_of_read_eq_ok hm
    rw [hread, h.map_eq_ok_iff hlt, Residue.read_eq_ok_iff, ← exists_and_left]
    refine exists_congr fun q => ?_
    rw [ofRat?_eq_some_iff hm, and_left_comm]
    refine and_congr_right fun _ => ?_
    rw [and_left_comm]
    refine and_congr_right fun _ => and_congr_right fun hr => ?_
    rw [Int.toNat_of_nonneg hr.1]
    exact and_iff_right ((Int.toNat_lt hr.1).2 hr.2)

end Residue.Keeps

namespace WordModulus

variable (m : WordModulus)

theorem keeps : Residue.Keeps m.value.toNat UInt64.ofNat fun a : UInt64 => (a.toNat : Int) where
  value_keep n hn := by
    rw [UInt64.toNat_ofNat_of_lt' (hn.trans m.value.toNat_lt)]
  keep_value a _ _ := by
    rw [Int.toNat_natCast, UInt64.ofNat_toNat]

theorem dividesModulo :
    m.arithmetic.DividesModulo m.value.toNat (fun a => (a.toNat : Int)) m.inverse :=
  m.keeps.dividesModulo m.two_le rfl (fun _ => rfl) (fun _ => rfl)

end WordModulus

namespace BigModulus

variable (m : BigModulus)

theorem keeps : Residue.Keeps m.value (fun n : Nat => (n : Int)) id where
  value_keep _ _ := rfl
  keep_value _ hnonneg _ := Int.toNat_of_nonneg hnonneg

theorem inverse_eq (a : Int) :
    m.inverse a = (Residue.invert m.value a).map fun n : Nat => (n : Int) := by
  unfold inverse
  cases Residue.invert m.value a <;> rfl

theorem read_eq (t : Text) : m.read t = (Residue.read m.value t).map fun n : Nat => (n : Int) := by
  unfold BigModulus.read
  cases Residue.read m.value t <;> rfl

theorem dividesModulo : m.arithmetic.DividesModulo m.value id m.inverse :=
  m.keeps.dividesModulo m.two_le rfl m.inverse_eq m.read_eq

end BigModulus

/-! ### Exact arithmetic in machine words -/

/-- A machine word in twice the width. -/
def doubled (a : UInt64) : BitVec 128 := a.toBitVec.setWidth 128

theorem toNat_doubled (a : UInt64) : (doubled a).toNat = a.toNat := by
  rw [doubled, BitVec.toNat_setWidth, Nat.mod_eq_of_lt]
  · rfl
  · exact a.toNat_lt.trans (by decide)

namespace WordModulus

variable (m : WordModulus)

/-- A word that is reduced, is the number that the ring of integers computes, and is congruent to the
exact result. -/
structure IsResidue (r : UInt64) (computed exact : Int) : Prop where
  eq_computed : (r.toNat : Int) = computed
  lt : r.toNat < m.value.toNat
  modEq : (r.toNat : Int) ≡ exact [ZMOD m.value.toNat]

variable {m}

/-- A word with the value of a remainder. -/
theorem isResidue_of_eq_emod {r : UInt64} {computed exact : Int}
    (hcomputed : computed = exact % m.value.toNat) (hr : (r.toNat : Int) = computed) :
    m.IsResidue r computed exact where
  eq_computed := hr
  lt := by
    have hlt := Int.emod_lt_of_pos exact (Int.natCast_pos.2 m.pos)
    rw [← hcomputed, ← hr] at hlt
    exact Int.ofNat_lt.1 hlt
  modEq := by
    rw [hr, hcomputed]
    exact Int.mod_modEq exact _

variable (m)

/-- The operations on machine words, for any words: each result is reduced, is the one of the ring of
integers, and is congruent to the result without a modulus. Sums and products fit in words of twice
the width, in which they are formed, their remainders fit in a word, and no difference that is formed
is negative. -/
structure ComputesExactly : Prop where
  add : ∀ a b : UInt64, m.IsResidue (m.arithmetic.add a b)
    (m.widen.arithmetic.add a.toNat b.toNat) (a.toNat + b.toNat)
  sub : ∀ a b : UInt64, m.IsResidue (m.arithmetic.sub a b)
    (m.widen.arithmetic.sub a.toNat b.toNat) (a.toNat - b.toNat)
  mul : ∀ a b : UInt64, m.IsResidue (m.arithmetic.mul a b)
    (m.widen.arithmetic.mul a.toNat b.toNat) (a.toNat * b.toNat)
  neg : ∀ a : UInt64, m.IsResidue (m.arithmetic.neg a) (m.widen.arithmetic.neg a.toNat) (-a.toNat)
  pow : ∀ a n : UInt64, m.IsResidue (m.arithmetic.pow a n)
    (m.widen.arithmetic.pow (a.toNat : Int) n) ((a.toNat : Int) ^ n.toNat)
  pow_zero : ∀ a : UInt64, m.arithmetic.pow a 0 = 1
  inverse : ∀ a : UInt64, (m.inverse a).map (fun b => (b.toNat : Int)) = m.widen.inverse a.toNat
  add_fits : ∀ a b : UInt64, (doubled a).uaddOverflow (doubled b) = false ∧
    doubled (m.arithmetic.add a b) = (doubled a + doubled b) % doubled m.value
  mul_fits : ∀ a b : UInt64, (doubled a).umulOverflow (doubled b) = false ∧
    doubled (m.arithmetic.mul a b) = doubled a * doubled b % doubled m.value
  neg_fits : ∀ a : UInt64, m.value.toBitVec.usubOverflow (a % m.value).toBitVec = false

theorem natCast_toNat_add (a b : UInt64) :
    ((m.add a b).toNat : Int) = (a.toNat + b.toNat) % m.value.toNat := by
  rw [m.toNat_add]
  push_cast
  rfl

theorem natCast_toNat_mul (a b : UInt64) :
    ((m.mul a b).toNat : Int) = a.toNat * b.toNat % m.value.toNat := by
  rw [m.toNat_mul]
  push_cast
  rfl

theorem natCast_toNat_neg (a : UInt64) :
    ((m.neg a).toNat : Int) = -a.toNat % m.value.toNat := by
  have hle := (Nat.mod_lt a.toNat m.pos).le
  have hsum : (m.value.toNat : Int) - a.toNat % m.value.toNat ≡ 0 - a.toNat [ZMOD m.value.toNat] :=
    Int.modulus_modEq_zero.sub (Int.mod_modEq _ _)
  rw [zero_sub] at hsum
  rw [m.toNat_neg, Int.natCast_mod, Nat.cast_sub hle, Int.natCast_mod]
  exact hsum

/-- A power is reduced because its last factor is, and one is. -/
theorem reduced_powerFrom (fuel : Nat) {result base : UInt64} (hresult : m.Reduced result)
    (exponent : Nat) : m.Reduced (powerFrom m.mul result base fuel exponent) := by
  induction fuel generalizing result base exponent with
  | zero => exact hresult
  | succ fuel ih =>
    have hmul : m.Reduced (m.mul result base) := by
      rw [Reduced, m.toNat_mul]
      exact Nat.mod_lt _ m.pos
    have hnext : m.Reduced (if exponent % 2 = 1 then m.mul result base else result) := by
      split
      · exact hmul
      · exact hresult
    rw [powerFrom]
    split
    · exact hresult
    · dsimp only
      split
      · exact hnext
      · exact ih hnext _

theorem isResidue_pow (a n : UInt64) : m.IsResidue (m.arithmetic.pow a n)
    (m.widen.arithmetic.pow (a.toNat : Int) n) ((a.toNat : Int) ^ n.toNat) where
  eq_computed := by
    have hmul : ∀ {a b : UInt64} {x y : Int}, (a.toNat : Int) = x → (b.toNat : Int) = y →
        ((m.mul a b).toNat : Int) = m.widen.arithmetic.mul x y := by
      rintro a b _ _ rfl rfl
      exact m.natCast_toNat_mul a b
    exact powerFrom_rel (R := fun (a : UInt64) (x : Int) => (a.toNat : Int) = x) hmul 64 rfl rfl n.toNat
  lt := m.reduced_powerFrom 64 (show m.Reduced 1 from m.two_le) n.toNat
  modEq := by
    have hmul : ∀ {a b : UInt64} {x y : Int}, (a.toNat : Int) ≡ x [ZMOD m.value.toNat] →
        (b.toNat : Int) ≡ y [ZMOD m.value.toNat] →
        ((m.mul a b).toNat : Int) ≡ x * y [ZMOD m.value.toNat] := by
      intro a b x y ha hb
      rw [m.natCast_toNat_mul]
      exact (Int.mod_modEq _ _).trans (ha.mul hb)
    have hpower := powerFrom_rel (R := fun (a : UInt64) (x : Int) =>
      (a.toNat : Int) ≡ x [ZMOD m.value.toNat]) (g := (· * ·)) hmul 64 (a := 1) (x := 1) rfl
      (b := a) (y := a.toNat) rfl n.toNat
    rw [powerFrom_eq_pow 64 1 (a.toNat : Int) n.toNat_lt, one_mul] at hpower
    exact hpower

theorem computesExactly : m.ComputesExactly where
  add a b := isResidue_of_eq_emod rfl (m.natCast_toNat_add a b)
  mul a b := isResidue_of_eq_emod rfl (m.natCast_toNat_mul a b)
  neg a := isResidue_of_eq_emod rfl (m.natCast_toNat_neg a)
  sub a b := by
    have hcomputed : m.widen.arithmetic.sub a.toNat b.toNat =
        (a.toNat - b.toNat : Int) % m.value.toNat := by
      rw [sub_eq_add_neg]
      exact (Int.mod_modEq _ _).add_left _
    apply isResidue_of_eq_emod hcomputed
    rw [Arithmetic.sub, show m.arithmetic.add = m.add from rfl, natCast_toNat_add,
      show m.arithmetic.neg = m.neg from rfl, natCast_toNat_neg]
    rfl
  pow := m.isResidue_pow
  pow_zero := m.arithmetic.pow_zero
  inverse a := by
    rw [WordModulus.inverse, BigModulus.inverse_eq, show m.widen.value = m.value.toNat from rfl]
    cases hinvert : Residue.invert m.value.toNat a.toNat with
    | error fault => rfl
    | ok b =>
      have hlt := ((Residue.inverse?_eq_some_iff m.two_le).1 (Residue.invert_eq_ok_iff.1 hinvert)).1
      exact congrArg Except.ok (m.keeps.value_keep b hlt)
  add_fits a b := by
    have hsum : a.toNat + b.toNat < 2 ^ 128 := by
      have := a.toNat_lt
      have := b.toNat_lt
      omega
    refine ⟨?_, BitVec.eq_of_toNat_eq ?_⟩
    · rw [BitVec.uaddOverflow, toNat_doubled, toNat_doubled]
      exact decide_eq_false (Nat.not_le.2 hsum)
    · rw [toNat_doubled, BitVec.toNat_umod, BitVec.toNat_add, toNat_doubled, toNat_doubled,
        toNat_doubled, Nat.mod_eq_of_lt hsum]
      exact m.toNat_add a b
  mul_fits a b := by
    have hproduct : a.toNat * b.toNat < 2 ^ 128 :=
      calc a.toNat * b.toNat < 2 ^ 64 * 2 ^ 64 := Nat.mul_lt_mul'' a.toNat_lt b.toNat_lt
        _ = 2 ^ 128 := by decide
    refine ⟨?_, BitVec.eq_of_toNat_eq ?_⟩
    · rw [BitVec.umulOverflow, toNat_doubled, toNat_doubled]
      exact decide_eq_false (Nat.not_le.2 hproduct)
    · rw [toNat_doubled, BitVec.toNat_umod, BitVec.toNat_mul, toNat_doubled, toNat_doubled,
        toNat_doubled, Nat.mod_eq_of_lt hproduct]
      exact m.toNat_mul a b
  neg_fits a := by
    have hlt : a.toNat % m.value.toNat < m.value.toNat := Nat.mod_lt _ m.pos
    simpa [BitVec.usubOverflow] using hlt.le

end WordModulus

/-- In machine words, every operation on any words gives the reduced result that integers give, without
overflow. In both kinds of rings of residues, inverses and literals are exactly the reduced solutions of
their congruences, and they exist exactly where the divisor is coprime to the modulus. -/
theorem word_residues_are_exact :
    (∀ m : WordModulus, m.ComputesExactly) ∧
    (∀ m : WordModulus,
      m.arithmetic.DividesModulo m.value.toNat (fun a => (a.toNat : Int)) m.inverse) ∧
    ∀ m : BigModulus, m.arithmetic.DividesModulo m.value id m.inverse :=
  ⟨WordModulus.computesExactly, WordModulus.dividesModulo, BigModulus.dividesModulo⟩

/-- Words that are not reduced, next to the largest modulus. -/
example : (⟨0xFFFFFFFFFFFFFFFE, by decide⟩ : WordModulus).mul 0xFFFFFFFFFFFFFFFF
    0xFFFFFFFFFFFFFFFF = 1 := by
  decide

end PolynomialText
