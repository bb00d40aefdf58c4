/-!
# Rounding to the nearest

A quotient of natural numbers is rounded to the nearest natural number, a half to the even one.
Rounding to a number of significant bits is rounding of the quotient by the unit of the last bit.
-/

namespace PolynomialText

/-- The quotient rounded to the nearest natural number, a half to the even one. -/
def roundDiv (n d : Nat) : Nat :=
  let q := n / d
  let twice := 2 * (n % d)
  if twice < d ∨ twice = d ∧ q % 2 = 0 then q else q + 1

/-- The number rounded to so many significant bits, a half to the even neighbour. -/
def roundToBits (bits n : Nat) : Nat :=
  let unit := Nat.pow 2 (n.log2 + 1 - bits)
  roundDiv n unit * unit

/-- The rounded quotient is within half a unit of the exact one. -/
theorem roundDiv_mul_near (n : Nat) {d : Nat} (hd : 0 < d) :
    2 * n ≤ 2 * (roundDiv n d * d) + d ∧ 2 * (roundDiv n d * d) ≤ 2 * n + d := by
  have hsplit := Nat.div_add_mod n d
  have hlt := Nat.mod_lt n hd
  have hcomm : n / d * d = d * (n / d) := Nat.mul_comm _ _
  have hsucc : (n / d + 1) * d = d * (n / d) + d := by rw [Nat.add_mul, Nat.one_mul, hcomm]
  unfold roundDiv
  simp only
  split
  · rename_i h
    rw [hcomm]
    omega
  · rename_i h
    rw [hsucc]
    omega

end PolynomialText
