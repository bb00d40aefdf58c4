import PolynomialText.Number.Rational

/-!
# Residues

Integers modulo a number from two on. Small moduli keep residues in machine words, with products
formed in twice the width; large ones keep them as integers. Both take any representative of a
residue and return the one in `[0, m)`. Literals are rational literals whose denominator can be
inverted.
-/

namespace PolynomialText

namespace Residue

/-- Euclid's algorithm on two remainders, each with the coefficient of the number to invert. -/
def euclid (r s r' s' : Int) : (fuel : Nat) → Int × Int
  | 0 => (r, s)
  | fuel + 1 => if r' = 0 then (r, s) else euclid r' s' (r % r') (s - r / r' * s') fuel

/-- The inverse of an integer modulo a number, if the two are coprime. -/
def inverse? (m : Nat) (a : Int) : Option Nat :=
  let (divisor, coefficient) := euclid m 0 (a % m) 1 (m + 1)
  if divisor = 1 then some (coefficient % m).toNat else none

/-- The residue of a rational number, if its denominator can be inverted. -/
def ofRat? (m : Nat) (r : Rat) : Option Nat :=
  (inverse? m r.den).map fun d => (r.num * d % m).toNat

/-- How a ring of residues is written. -/
def display (m : Nat) : Text := "Mod ".toList ++ Text.decimal m

/-- The residue of a rational literal. -/
def read (m : Nat) (t : Text) : Except Refusal Nat :=
  match Rational.readRational t with
  | .error fault => .error ⟨t, display m, fault⟩
  | .ok r =>
    match ofRat? m r with
    | some residue => .ok residue
    | none => .error ⟨t, display m, .denominator⟩

/-- The inverse of a residue; one that has none is named with the modulus. -/
def invert (m : Nat) (a : Int) : Except RingFault Nat :=
  match inverse? m a with
  | some b => .ok b
  | none => .error (.notInvertible (Text.decimalInt a ++ " mod ".toList ++ Text.decimal m))

end Residue

/-- A modulus that fits a machine word. -/
structure WordModulus where
  value : UInt64
  two_le : 2 ≤ value.toNat
  deriving DecidableEq

/-- A modulus of any size. -/
structure BigModulus where
  value : Nat
  two_le : 2 ≤ value
  deriving DecidableEq

/-- A machine word that is large enough to be a modulus. -/
def WordModulus.ofWord (m : UInt64) : Except RingFault WordModulus :=
  if h : 2 ≤ m.toNat then .ok ⟨m, h⟩ else .error (.smallModulus m.toNat)

/-- An integer that is large enough to be a modulus. -/
def BigModulus.ofInt (m : Int) : Except RingFault BigModulus :=
  if h : 2 ≤ m.toNat then .ok ⟨m.toNat, h⟩ else .error (.smallModulus m)

namespace WordModulus

variable (m : WordModulus)

/-- The sum, reduced. -/
def add (a b : UInt64) : UInt64 := .ofNat ((a.toNat + b.toNat) % m.value.toNat)

/-- The product, reduced. -/
def mul (a b : UInt64) : UInt64 := .ofNat (a.toNat * b.toNat % m.value.toNat)

/-- The negative, reduced. -/
def neg (a : UInt64) : UInt64 := if a % m.value = 0 then 0 else m.value - a % m.value

/-- The residue of a rational literal. -/
def read (t : Text) : Except Refusal UInt64 := (Residue.read m.value.toNat t).map .ofNat

/-- The inverse of a residue, in a machine word. -/
def inverse (a : UInt64) : Except RingFault UInt64 :=
  (Residue.invert m.value.toNat a.toNat).map .ofNat

/-- The ring of residues in machine words. -/
def arithmetic : Arithmetic UInt64 where
  kind := .modularInteger
  display := Residue.display m.value.toNat
  descriptor := Residue.display m.value.toNat
  characteristic := m.value.toNat
  decEq := inferInstance
  zero := 0
  one := 1
  add := m.add
  mul := m.mul
  neg := m.neg
  format a := Text.decimal a.toNat
  read := m.read
  readWithin := Arithmetic.readAnywhere m.read
  inverse? := some m.inverse

/-- Sums are congruent to sums of numbers, without overflow. -/
theorem toNat_add (a b : UInt64) : (m.add a b).toNat = (a.toNat + b.toNat) % m.value.toNat := by
  have hpos : 0 < m.value.toNat := Nat.lt_of_lt_of_le (by decide) m.two_le
  have hlt := Nat.lt_trans (Nat.mod_lt (a.toNat + b.toNat) hpos) m.value.toNat_lt
  rw [add, UInt64.toNat_ofNat_of_lt' hlt]

/-- Products are congruent to products of numbers, without overflow. -/
theorem toNat_mul (a b : UInt64) : (m.mul a b).toNat = a.toNat * b.toNat % m.value.toNat := by
  have hpos : 0 < m.value.toNat := Nat.lt_of_lt_of_le (by decide) m.two_le
  have hlt := Nat.lt_trans (Nat.mod_lt (a.toNat * b.toNat) hpos) m.value.toNat_lt
  rw [mul, UInt64.toNat_ofNat_of_lt' hlt]

end WordModulus

namespace BigModulus

variable (m : BigModulus)

/-- The residue of an integer. -/
def reduce (a : Int) : Int := a % m.value

/-- The residue of a rational literal. -/
def read (t : Text) : Except Refusal Int := (Residue.read m.value t).map fun n => (n : Int)

/-- The inverse of a residue, as an integer. -/
def inverse (a : Int) : Except RingFault Int := (Residue.invert m.value a).map fun n => (n : Int)

/-- The ring of residues as integers. -/
def arithmetic : Arithmetic Int where
  kind := .modularInteger
  display := Residue.display m.value
  descriptor := Residue.display m.value
  characteristic := m.value
  decEq := inferInstance
  zero := 0
  one := 1
  add a b := m.reduce (a + b)
  mul a b := m.reduce (a * b)
  neg a := m.reduce (-a)
  format := Text.decimalInt
  read := m.read
  readWithin := Arithmetic.readAnywhere m.read
  inverse? := some m.inverse

/-- A residue lies between zero and the modulus. -/
theorem reduce_mem (a : Int) : 0 ≤ m.reduce a ∧ m.reduce a < m.value := by
  have hpos : (0 : Int) < m.value := by
    have := m.two_le
    omega
  exact ⟨Int.emod_nonneg _ (Int.ne_of_gt hpos), Int.emod_lt_of_pos _ hpos⟩

end BigModulus

end PolynomialText
