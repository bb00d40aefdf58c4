import PolynomialText.Error
import PolynomialText.Exponents

/-!
# Term orders

A term order compares monomials by their exponents: lexicographically from the first or from the
last variable, by total degree first, block by block, or by the rows of a weight matrix. The order
that is chosen decides which term leads and how a polynomial is written, never its value.
-/

namespace PolynomialText

/-- How two exponent vectors, or two blocks of them, are compared. -/
inductive OrderKind where
  /-- The first variable is the most significant one. -/
  | lex
  /-- The last variable is the most significant one. -/
  | invLex
  /-- Total degree, then `lex`. -/
  | grLex
  /-- Total degree, then `invLex`. -/
  | iGrLex
  /-- As `invLex`, with the smaller exponent winning. -/
  | revILex
  /-- Total degree, then `revILex`. -/
  | revITDG
  /-- The rows of a weight matrix, then `invLex`. -/
  | weighted
  deriving DecidableEq

namespace OrderKind

/-- Every kind. -/
def all : List OrderKind := [lex, invLex, grLex, iGrLex, revILex, revITDG, weighted]

/-- The keyword that a kind is written with. -/
def keyword : OrderKind → Text
  | lex => "LEX".toList
  | invLex => "INVLEX".toList
  | grLex => "GRLEX".toList
  | iGrLex => "IGRLEX".toList
  | revILex => "REVILEX".toList
  | revITDG => "REVITDG".toList
  | weighted => "W".toList

/-- The name of a kind in records. -/
def name : OrderKind → String
  | lex => "Lex"
  | invLex => "InvLex"
  | grLex => "GrLex"
  | iGrLex => "IGrLex"
  | revILex => "RevILex"
  | revITDG => "RevITDG"
  | weighted => "Weighted"

/-- The kind with a name. -/
def ofName? (s : String) : Option OrderKind := all.find? (·.name == s)

/-- The words, in capitals, that name a kind. Weights are announced by a word of their own. -/
def keywords : List (Text × OrderKind) :=
  [("L".toList, invLex), ("IL".toList, invLex), ("INVLEX".toList, invLex), ("LEX".toList, lex),
    ("G".toList, iGrLex), ("IG".toList, iGrLex), ("IGRLEX".toList, iGrLex),
    ("GRLEX".toList, grLex), ("REVITDG".toList, revITDG), ("REVILEX".toList, revILex)]

/-- The kind that a word names; capitals and small letters are alike. -/
def ofKeyword? (word : Text) : Option OrderKind := keywords.lookup word.toUpper

end OrderKind

namespace Exponents

/-- Comparison from the last variable on. -/
def invLex (a b : Exponents) : Ordering := cmp a.reverse b.reverse

/-- The exact sum of the exponents. -/
def degree : Exponents → Nat
  | [] => 0
  | x :: e => x.toNat + degree e

/-- The exact weighted sum of the exponents. -/
def dot : List UInt64 → Exponents → Nat
  | w :: row, x :: e => w.toNat * x.toNat + dot row e
  | _, _ => 0

/-- The weighted sum of the exponents, kept in 128 bits. -/
def weight (row : List UInt64) (e : Exponents) : Nat :=
  dot row e % (UInt64.size * UInt64.size)

/-- The part of a vector from one position up to another. -/
def slice (start stop : Nat) (e : Exponents) : Exponents := (e.drop start).take (stop - start)

end Exponents

/-- Comparison of two vectors, or of two blocks of the same position. -/
def OrderKind.compare (kind : OrderKind) (a b : Exponents) : Ordering :=
  match kind with
  | lex => a.cmp b
  | invLex | weighted => a.invLex b
  | grLex => (Ord.compare a.degree b.degree).then (a.cmp b)
  | iGrLex => (Ord.compare a.degree b.degree).then (a.invLex b)
  | revILex => b.invLex a
  | revITDG => (Ord.compare a.degree b.degree).then (b.invLex a)

/-- Where a term order splits the variables into blocks. -/
inductive SplitIndex where
  | unspecified
  | single (i : Nat)
  | pair (i j : Nat)
  deriving DecidableEq

namespace SplitIndex

/-- The numbers as they were given. -/
def entries : SplitIndex → List Nat
  | unspecified => []
  | single i => [i]
  | pair i j => [i, j]

/-- The positive split points, ascending and without repeats. -/
def points : SplitIndex → List Nat
  | unspecified => []
  | single i => [i].filter (0 < ·)
  | pair i j => (if i = j then [i] else [min i j, max i j]).filter (0 < ·)

end SplitIndex

/-- A comparison of monomials. -/
structure TermOrder where
  kind : OrderKind := .iGrLex
  weights : Option (List (List UInt64)) := none
  split : SplitIndex := .unspecified
  deriving DecidableEq

namespace TermOrder

/-- The order that compares rows of weights. -/
def ofWeights (rows : List (List UInt64)) : TermOrder := ⟨.weighted, some rows, .unspecified⟩

/-- A block order if there is a positive split point, the plain order otherwise. -/
def block (kind : OrderKind) (split : SplitIndex) : TermOrder :=
  ⟨kind, none, if split.points.isEmpty then .unspecified else split⟩

/-- Why an order does not fit a number of variables, if it does not. -/
def fault? (order : TermOrder) (nvars : Nat) : Option OrderFault :=
  let ofSplit := (order.split.points.find? (nvars < ·)).map fun p => .splitPoint p nvars
  match order.weights with
  | none => ofSplit
  | some [] => some .noRows
  | some rows =>
    match rows.find? (·.length ≠ nvars) with
    | some row => some (.rowLength row nvars)
    | none => ofSplit

/-- Comparison of the blocks that end at the given points, from a position on. -/
def compareBlocks (kind : OrderKind) (a b : Exponents) : Nat → List Nat → Ordering
  | _, [] => .eq
  | start, point :: rest =>
    let stop := min point a.length
    if stop ≤ start then compareBlocks kind a b start rest
    else (kind.compare (a.slice start stop) (b.slice start stop)).then
      (compareBlocks kind a b stop rest)

/-- Comparison by the rows of a weight matrix, then from the last variable on. -/
def compareWeights (a b : Exponents) : List (List UInt64) → Ordering
  | [] => a.invLex b
  | row :: rest => (Ord.compare (a.weight row) (b.weight row)).then (compareWeights a b rest)

/-- The comparison of monomials; `gt` tells that the first one is larger. -/
def compare (order : TermOrder) (a b : Exponents) : Ordering :=
  match order.weights with
  | some rows => compareWeights a b rows
  | none => compareBlocks order.kind a b 0 (order.split.points ++ [a.length])

/-- One row of weights between parentheses. -/
def rowText (row : List UInt64) : Text :=
  '(' :: Text.join [','] (row.map fun w => Text.decimal w.toNat) ++ [')']

/-- The order as a ring header writes it. -/
def text (order : TermOrder) : Text :=
  let main := match order.weights with
    | some rows => "W(".toList ++ Text.join [','] (rows.map rowText) ++ [')']
    | none => order.kind.keyword
  main ++ match order.split with
    | .unspecified => []
    | .single i => " |".toList ++ Text.decimal i ++ ['|']
    | .pair i j => " [".toList ++ Text.decimal i ++ [','] ++ Text.decimal j ++ [']']

end TermOrder

/-- The keyword that writes a kind other than weights is read as that kind. -/
theorem OrderKind.ofKeyword?_keyword {kind : OrderKind} (h : kind ≠ .weighted) :
    ofKeyword? kind.keyword = some kind := by
  cases kind with
  | weighted => exact absurd rfl h
  | _ => decide

/-- Every kind is found by its name. -/
theorem OrderKind.ofName?_name (kind : OrderKind) : ofName? kind.name = some kind := by
  cases kind <;> decide

/-- A block order without positive split points is the plain order. -/
theorem TermOrder.block_of_points_eq_nil {kind : OrderKind} {split : SplitIndex}
    (h : split.points = []) : block kind split = ⟨kind, none, .unspecified⟩ := by
  simp [block, h]

end PolynomialText
