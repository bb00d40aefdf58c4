/-!
# Exponent vectors

A monomial has one 64-bit exponent for each declared variable. Exponents of a product are added
componentwise and stay at the largest 64-bit number when their sum would pass it.
-/

namespace PolynomialText

/-- The largest exponent. -/
def maxExponent : UInt64 := 0xFFFFFFFFFFFFFFFF

/-- Addition that stays at the largest exponent. -/
def clampAdd (a b : UInt64) : UInt64 :=
  if a.toNat + b.toNat < UInt64.size then a + b else maxExponent

/-- One exponent for each variable, in the order of their declaration. -/
abbrev Exponents := List UInt64

namespace Exponents

/-- The exponents of the monomial one. -/
def zero (nvars : Nat) : Exponents := List.replicate nvars 0

/-- The exponents of a power of one variable. -/
def single (nvars index : Nat) (exponent : UInt64) : Exponents := (zero nvars).set index exponent

/-- The exponents of a product of two monomials. -/
def add (a b : Exponents) : Exponents := List.zipWith clampAdd a b

/-- The sum of the exponents, clamped as they are. -/
def totalDegree (e : Exponents) : UInt64 := e.foldl clampAdd 0

/-- Exponent vectors are stored in the lexicographic order of their entries. -/
def cmp : Exponents → Exponents → Ordering := List.compareLex compare

end Exponents

/-- Clamped addition is addition of numbers cut off at the largest exponent. -/
theorem toNat_clampAdd (a b : UInt64) :
    (clampAdd a b).toNat = min (a.toNat + b.toNat) (UInt64.size - 1) := by
  unfold clampAdd
  have ha := a.toNat_lt
  have hb := b.toNat_lt
  split
  · rename_i h
    rw [UInt64.toNat_add, Nat.mod_eq_of_lt h]
    omega
  · have hmax : maxExponent.toNat = UInt64.size - 1 := rfl
    omega

/-- The order of factors does not matter. -/
theorem clampAdd_comm (a b : UInt64) : clampAdd a b = clampAdd b a := by
  apply UInt64.toNat.inj
  rw [toNat_clampAdd, toNat_clampAdd, Nat.add_comm]

/-- Clamping does not depend on how a sum is bracketed. -/
theorem clampAdd_assoc (a b c : UInt64) :
    clampAdd (clampAdd a b) c = clampAdd a (clampAdd b c) := by
  apply UInt64.toNat.inj
  simp only [toNat_clampAdd]
  omega

/-- The exponent zero changes nothing. -/
theorem clampAdd_zero (a : UInt64) : clampAdd a 0 = a := by
  apply UInt64.toNat.inj
  have ha : a.toNat < UInt64.size := a.toNat_lt
  rw [toNat_clampAdd]
  simp only [UInt64.toNat_zero, Nat.add_zero]
  omega

end PolynomialText
