import PolynomialText.TermOrder

/-!
# Weighted orders and the size of weights

The rows of a weight matrix are compared by weighted sums of exponents that are kept in 128 bits. A
product of two 64-bit numbers fits there, and a sum of several need not. So a weighted order compares
the sums modulo that size, which is the exact comparison as long as every sum fits. All sums of a row
fit if its weights add up to no more than the number of 64-bit words. Two variables with the largest
weight and the largest exponent are enough to turn the comparison around.
-/

namespace PolynomialText

namespace Exponents

/-- Comparison by the sums that rows of weights take, the first row that tells two vectors apart
deciding, and then from the last variable on. -/
def compareRows (sum : List UInt64 → Exponents → Nat) (rows : List (List UInt64))
    (a b : Exponents) : Ordering :=
  (List.compareLex compare (rows.map (sum · a)) (rows.map (sum · b))).then (a.invLex b)

theorem compareRows_cons (sum : List UInt64 → Exponents → Nat) (row : List UInt64)
    (rows : List (List UInt64)) (a b : Exponents) :
    compareRows sum (row :: rows) a b =
      (compare (sum row a) (sum row b)).then (compareRows sum rows a b) := by
  simp only [compareRows, List.map_cons, List.compareLex_cons_cons, Ordering.then_assoc]

/-- Sums that agree on the rows give the same comparison. -/
theorem compareRows_congr {sum sum' : List UInt64 → Exponents → Nat} {rows : List (List UInt64)}
    {a b : Exponents} (h : ∀ row ∈ rows, sum row a = sum' row a ∧ sum row b = sum' row b) :
    compareRows sum rows a b = compareRows sum' rows a b := by
  simp only [compareRows, List.map_congr_left fun row hrow => (h row hrow).1,
    List.map_congr_left fun row hrow => (h row hrow).2]

/-- The sum of the weights of a row. -/
def rowTotal (row : List UInt64) : Nat := row.foldr (fun w total => w.toNat + total) 0

/-- A weighted sum of exponents is at most as large as with the largest exponents. -/
theorem dot_le (row : List UInt64) (e : Exponents) :
    dot row e ≤ rowTotal row * (UInt64.size - 1) := by
  induction row generalizing e with
  | nil => simp [dot]
  | cons w row ih =>
    cases e with
    | nil => simp [dot]
    | cons x e =>
      have hx : x.toNat ≤ UInt64.size - 1 := Nat.le_sub_one_of_lt x.toNat_lt
      calc dot (w :: row) (x :: e) = w.toNat * x.toNat + dot row e := rfl
        _ ≤ w.toNat * (UInt64.size - 1) + rowTotal row * (UInt64.size - 1) :=
          Nat.add_le_add (Nat.mul_le_mul_left _ hx) (ih e)
        _ = rowTotal (w :: row) * (UInt64.size - 1) := by
          simp only [rowTotal, List.foldr_cons, Nat.add_mul]

theorem dot_lt_of_rowTotal_le {row : List UInt64} (h : rowTotal row ≤ UInt64.size) (e : Exponents) :
    dot row e < UInt64.size * UInt64.size :=
  calc dot row e ≤ rowTotal row * (UInt64.size - 1) := dot_le row e
    _ ≤ UInt64.size * (UInt64.size - 1) := Nat.mul_le_mul_right _ h
    _ < UInt64.size * UInt64.size := by decide

end Exponents

namespace TermOrder

open Exponents

/-- Weights are compared modulo the size in which they are kept. -/
theorem compareWeights_eq_compareRows (a b : Exponents) (rows : List (List UInt64)) :
    compareWeights a b rows = compareRows weight rows a b := by
  induction rows with
  | nil => rfl
  | cons row rows ih => rw [compareWeights, compareRows_cons, ih]

end TermOrder

end PolynomialText
