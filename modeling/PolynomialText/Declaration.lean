import PolynomialText.Session
import PolynomialText.TermOrder

/-!
# Declarations of variables and term orders

The parts of a ring header after the coefficients: a list of variables in parentheses or braces,
and a term order, given by a keyword with an optional split or by an array of weights. Where a part
is missing nothing is read.
-/

namespace PolynomialText.Reader

/-- Read a token of a list of variables; operators between the names are skipped. -/
def variableStep (closer : Char) (names : List Text) : Reader (List Text ⊕ List Text) := do
  match ← advance with
  | .eof => return .inr names
  | .word w => return .inl (names ++ [w])
  | .quoted t => return .inl (names ++ [t])
  | .op c => return if c = closer then .inr names else .inl names

/-- A list of variables; without an opening bracket it is empty. -/
def variableList : Reader (List Text) := do
  let t ← advance
  if t = .op '(' then loop (variableStep ')') []
  else if t = .op '\x7b' then loop (variableStep '\x7d') []
  else
    pushBack t
    return []

/-- Read a token of a row of weights. -/
def weightStep (row : List UInt64) : Reader (List UInt64 ⊕ List UInt64) := do
  match ← advance with
  | .eof => return .inr row
  | .word w =>
    match Text.word? w with
    | some weight => return .inl (row ++ [weight])
    | none => invalidRing (.weightWord w)
  | .quoted t => invalidRing (.weightToken (.quoted t))
  | .op c =>
    if c = ')' then return .inr row
    else if c = ',' then return .inl row
    else invalidRing (.weightToken (.op c))

/-- A row of weights, after the opening parenthesis. -/
def weightRow : Reader (List UInt64) := loop weightStep []

/-- A row of weights; without an opening parenthesis it is empty. -/
def weightList : Reader (List UInt64) := do
  let t ← advance
  if t = .op '(' then weightRow
  else
    pushBack t
    return []

/-- Read a token between rows of weights, or a whole row. -/
def weightArrayStep (rows : List (List UInt64)) :
    Reader (List (List UInt64) ⊕ List (List UInt64)) := do
  let t ← advance
  if t = .op '(' then return .inl (rows ++ [← weightRow])
  else if t = .op ')' ∨ t = .eof then return .inr rows
  else if t = .op ',' then return .inl rows
  else invalidRing (.weightRow t)

/-- Rows of weights in parentheses, or a single row. -/
def weightArray : Reader (List (List UInt64)) := do
  let t ← advance
  if t = .op '(' then
    if (← peek 0) = some '(' then loop weightArrayStep []
    else return [← weightRow]
  else
    pushBack t
    return []

/-- A number of variables in front of a split. -/
def splitPoint : Reader Nat := do
  match ← advance with
  | .word w =>
    match Text.word? w with
    | some point => return point.toNat
    | none => invalidRing (.splitWord w)
  | other => invalidRing (.splitToken other)

/-- A split index, `|i|`, `[i]` or `[i,j]`, or none. -/
def splitIndex : Reader SplitIndex := do
  let t ← advance
  if t = .op '|' then
    let i ← splitPoint
    skipOp '|'
    return .single i
  else if t = .op '[' then
    let i ← splitPoint
    let next ← advance
    if next = .op ',' then
      let j ← splitPoint
      skipOp ']'
      return .pair i j
    else
      pushBack next
      skipOp ']'
      return .single i
  else
    pushBack t
    return .unspecified

/-- An order that has to fit the number of variables. -/
def fitting (nvars : Nat) (order : TermOrder) : Reader TermOrder := do
  match order.fault? nvars with
  | some fault => invalidRing (.order fault)
  | none => return order

/-- A term order; anything that is none is left unread and gives the default order. -/
def termOrder (nvars : Nat) : Reader TermOrder := do
  let t ← advance
  match t with
  | .word w =>
    if w.toUpper = ['W'] then fitting nvars (.ofWeights (← weightArray))
    else
      match OrderKind.ofKeyword? w with
      | some kind => fitting nvars (.block kind (← splitIndex))
      | none =>
        pushBack t
        return {}
  | _ =>
    pushBack t
    return {}

end PolynomialText.Reader
