import PolynomialText.CoefficientRing
import PolynomialText.Proofs.RingLaws
import Mathlib.Data.ZMod.Basic
import Mathlib.Tactic.Ring

/-!
# The laws of the rings of numbers

Rationals, integers, residues, complex numbers and quaternions form associative rings with a unit,
and all but the quaternions are commutative. Residues are canonical when they are reduced; they
stand for the elements of the integers modulo the modulus. In the other rings every element is
canonical.
-/

namespace PolynomialText

/-- Every element is canonical. -/
def AnyElement {α : Type} (_ : α) : Prop := True

/-- The rational numbers form a ring. -/
theorem Rational.ringLaws : Rational.arithmetic.RingLaws AnyElement where
  zero_mem := trivial
  one_mem := trivial
  add_mem _ _ := trivial
  mul_mem _ _ := trivial
  neg_mem _ := trivial
  add_assoc _ _ _ := Rat.add_assoc _ _ _
  add_comm _ _ := Rat.add_comm _ _
  zero_add _ := Rat.zero_add _
  neg_add _ := Rat.neg_add_cancel _
  mul_assoc _ _ _ := Rat.mul_assoc _ _ _
  one_mul _ := Rat.one_mul _
  mul_one _ := Rat.mul_one _
  mul_add _ _ _ := Rat.mul_add _ _ _
  add_mul _ _ _ := Rat.add_mul _ _ _

/-- The integers form a ring. -/
theorem Integer.ringLaws : Integer.arithmetic.RingLaws AnyElement where
  zero_mem := trivial
  one_mem := trivial
  add_mem _ _ := trivial
  mul_mem _ _ := trivial
  neg_mem _ := trivial
  add_assoc _ _ _ := Int.add_assoc _ _ _
  add_comm _ _ := Int.add_comm _ _
  zero_add _ := Int.zero_add _
  neg_add _ := Int.add_left_neg _
  mul_assoc _ _ _ := Int.mul_assoc _ _ _
  one_mul _ := Int.one_mul _
  mul_one _ := Int.mul_one _
  mul_add _ _ _ := Int.mul_add _ _ _
  add_mul _ _ _ := Int.add_mul _ _ _

/-- The complex numbers form a ring. -/
theorem Gaussian.ringLaws : Gaussian.arithmetic.RingLaws AnyElement where
  zero_mem := trivial
  one_mem := trivial
  add_mem _ _ := trivial
  mul_mem _ _ := trivial
  neg_mem _ := trivial
  add_assoc _ _ _ := by ext <;> simp [arithmetic, add] <;> ring
  add_comm _ _ := by ext <;> simp [arithmetic, add] <;> ring
  zero_add _ := by ext <;> simp [arithmetic, add]
  neg_add _ := by ext <;> simp [arithmetic, add, neg]
  mul_assoc _ _ _ := by ext <;> simp [arithmetic, mul] <;> ring
  one_mul _ := by ext <;> simp [arithmetic, mul]
  mul_one _ := by ext <;> simp [arithmetic, mul]
  mul_add _ _ _ := by ext <;> simp [arithmetic, add, mul] <;> ring
  add_mul _ _ _ := by ext <;> simp [arithmetic, add, mul] <;> ring

/-- The quaternions form a ring. -/
theorem Quaternion.ringLaws : Quaternion.arithmetic.RingLaws AnyElement where
  zero_mem := trivial
  one_mem := trivial
  add_mem _ _ := trivial
  mul_mem _ _ := trivial
  neg_mem _ := trivial
  add_assoc _ _ _ := by ext <;> simp [arithmetic, add] <;> ring
  add_comm _ _ := by ext <;> simp [arithmetic, add] <;> ring
  zero_add _ := by ext <;> simp [arithmetic, add, ofRat]
  neg_add _ := by ext <;> simp [arithmetic, add, neg, ofRat]
  mul_assoc _ _ _ := by ext <;> simp [arithmetic, mul] <;> ring
  one_mul _ := by ext <;> simp [arithmetic, mul, ofRat]
  mul_one _ := by ext <;> simp [arithmetic, mul, ofRat]
  mul_add _ _ _ := by ext <;> simp [arithmetic, add, mul] <;> ring
  add_mul _ _ _ := by ext <;> simp [arithmetic, add, mul] <;> ring

namespace WordModulus

variable (m : WordModulus)

/-- A residue in a machine word is canonical when it is below the modulus. -/
def Reduced (a : UInt64) : Prop := a.toNat < m.value.toNat

instance : DecidablePred m.Reduced := fun a => inferInstanceAs (Decidable (a.toNat < _))

/-- The modulus is positive. -/
theorem pos : 0 < m.value.toNat := Nat.lt_of_lt_of_le (by decide) m.two_le

/-- The negative of a word is the difference of its residue to the modulus, reduced. -/
theorem toNat_neg (a : UInt64) :
    (m.neg a).toNat = (m.value.toNat - a.toNat % m.value.toNat) % m.value.toNat := by
  have hlt := Nat.mod_lt a.toNat m.pos
  rw [neg]
  split
  · rename_i hzero
    have hmod := congrArg UInt64.toNat hzero
    rw [UInt64.toNat_mod, UInt64.toNat_zero] at hmod
    simp [hmod]
  · rename_i hne
    have hpos : a.toNat % m.value.toNat ≠ 0 := by
      rw [← UInt64.toNat_mod]
      exact fun h0 => hne (UInt64.toNat.inj h0)
    have hle : a % m.value ≤ m.value := by
      rw [UInt64.le_iff_toNat_le, UInt64.toNat_mod]
      exact hlt.le
    have hsmall : m.value.toNat - a.toNat % m.value.toNat < m.value.toNat := by omega
    rw [UInt64.toNat_sub_of_le _ _ hle, UInt64.toNat_mod, Nat.mod_eq_of_lt hsmall]

/-- Reduced machine words stand for the integers modulo the modulus. -/
theorem represents :
    m.arithmetic.Represents m.Reduced fun a => (a.toNat : ZMod m.value.toNat) where
  zero_mem := m.pos
  one_mem := m.two_le
  add_mem {a b} _ _ := by
    rw [Reduced, show m.arithmetic.add a b = m.add a b from rfl, m.toNat_add]
    exact Nat.mod_lt _ m.pos
  mul_mem {a b} _ _ := by
    rw [Reduced, show m.arithmetic.mul a b = m.mul a b from rfl, m.toNat_mul]
    exact Nat.mod_lt _ m.pos
  neg_mem {a} _ := by
    rw [Reduced, show m.arithmetic.neg a = m.neg a from rfl, m.toNat_neg]
    exact Nat.mod_lt _ m.pos
  injective {a b} ha hb heq := by
    have hmod := (ZMod.natCast_eq_natCast_iff' _ _ _).1 heq
    rw [Nat.mod_eq_of_lt ha, Nat.mod_eq_of_lt hb] at hmod
    exact UInt64.toNat.inj hmod
  map_zero := Nat.cast_zero
  map_one := Nat.cast_one
  map_add {a b} _ _ := by
    rw [show m.arithmetic.add a b = m.add a b from rfl, m.toNat_add, ZMod.natCast_mod, Nat.cast_add]
  map_mul {a b} _ _ := by
    rw [show m.arithmetic.mul a b = m.mul a b from rfl, m.toNat_mul, ZMod.natCast_mod, Nat.cast_mul]
  map_neg {a} ha := by
    rw [show m.arithmetic.neg a = m.neg a from rfl, m.toNat_neg, ZMod.natCast_mod,
      Nat.mod_eq_of_lt ha, Nat.cast_sub (Nat.le_of_lt ha), ZMod.natCast_self, zero_sub]

end WordModulus

namespace BigModulus

variable (m : BigModulus)

/-- A residue is canonical when it lies between zero and the modulus. -/
def Reduced (a : Int) : Prop := 0 ≤ a ∧ a < m.value

instance : DecidablePred m.Reduced := fun a => inferInstanceAs (Decidable (0 ≤ a ∧ a < _))

/-- Reduced integers stand for the integers modulo the modulus. -/
theorem represents : m.arithmetic.Represents m.Reduced fun a => (a : ZMod m.value) where
  zero_mem := ⟨Int.le_refl 0, Int.natCast_pos.2 (Nat.lt_of_lt_of_le (by decide) m.two_le)⟩
  one_mem := ⟨(by decide : (0 : Int) ≤ 1), Int.ofNat_lt.2 m.two_le⟩
  add_mem _ _ := m.reduce_mem _
  mul_mem _ _ := m.reduce_mem _
  neg_mem _ := m.reduce_mem _
  injective {a b} ha hb heq := by
    have hmod := (ZMod.intCast_eq_intCast_iff' _ _ _).1 heq
    rwa [Int.emod_eq_of_lt ha.1 ha.2, Int.emod_eq_of_lt hb.1 hb.2] at hmod
  map_zero := Int.cast_zero
  map_one := Int.cast_one
  map_add {a b} _ _ := (ZMod.intCast_mod (a + b) m.value).trans (Int.cast_add a b)
  map_mul {a b} _ _ := (ZMod.intCast_mod (a * b) m.value).trans (Int.cast_mul a b)
  map_neg {a} _ := (ZMod.intCast_mod (-a) m.value).trans (Int.cast_neg a)

end BigModulus

end PolynomialText
