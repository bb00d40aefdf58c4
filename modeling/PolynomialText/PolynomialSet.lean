import PolynomialText.CoefficientRing.Reader

/-!
# Sets of polynomials and of module elements

A set is a ring header, made of coefficients, variables and term order, with a list of polynomials
of that ring, or with rows of them. Rows are filled up with zeros to one length. A set is written
as its header and then one polynomial or row on each line.
-/

namespace PolynomialText

/-- A polynomial ring over a selected coefficient ring. -/
structure RingHeader where
  coefficients : CoefficientRing
  vars : List Text
  order : TermOrder
  deriving DecidableEq

/-- The polynomial ring of a header. -/
def RingHeader.ring (h : RingHeader) : PolyRing h.coefficients.Elem :=
  ⟨h.coefficients.arithmetic, h.vars, h.order⟩

/-- The polynomials over a header. -/
abbrev RingHeader.Polynomial (h : RingHeader) : Type := Poly h.coefficients.Elem

/-- A header as text. -/
def RingHeader.text (h : RingHeader) : Text := h.ring.header

/-- A list of polynomials with its ring. -/
structure PolynomialSet where
  header : RingHeader
  polynomials : List header.Polynomial
  deriving DecidableEq

/-- Rows of polynomials with their ring. -/
structure ModuleSet where
  header : RingHeader
  rows : List (List header.Polynomial)
  deriving DecidableEq

/-- Lines in parentheses, each but the last with a comma behind it. -/
def linesText : List Text → Text
  | [] => [')']
  | [last] => "  ".toList ++ last ++ "\n)".toList
  | first :: rest => "  ".toList ++ first ++ ",\n".toList ++ linesText rest

/-- A set as text. -/
def PolynomialSet.text (s : PolynomialSet) : Text :=
  s.header.text ++ "\n(\n".toList ++ linesText (s.polynomials.map s.header.ring.format)

/-- The length of the longest row. -/
def longestRow {α : Type} (rows : List (List α)) : Nat := (rows.map List.length).foldr max 0

/-- No row is longer than the longest one. -/
theorem length_le_longestRow {α : Type} {rows : List (List α)} {row : List α} (h : row ∈ rows) :
    row.length ≤ longestRow rows := by
  induction rows with
  | nil => exact absurd h List.not_mem_nil
  | cons first rest ih =>
    have hmax : longestRow (first :: rest) = max first.length (longestRow rest) := rfl
    rcases List.mem_cons.1 h with rfl | hrest
    · omega
    · have := ih hrest
      omega

/-- Rows filled up with zeros to the length of the longest one. -/
def padRows {α : Type} (rows : List (List (Poly α))) : List (List (Poly α)) :=
  rows.map fun row => row.rightpad (longestRow rows) .zero

/-- A set of rows, all of one length. -/
def ModuleSet.ofRows (header : RingHeader) (rows : List (List header.Polynomial)) : ModuleSet :=
  ⟨header, padRows rows⟩

/-- The length of the rows. -/
def ModuleSet.columns (s : ModuleSet) : Nat := (s.rows.head?.map List.length).getD 0

/-- A row as text. -/
def RingHeader.rowText (h : RingHeader) (row : List h.Polynomial) : Text :=
  "( ".toList ++ Text.join ", ".toList (row.map h.ring.format) ++ " )".toList

/-- A set of rows as text. -/
def ModuleSet.text (s : ModuleSet) : Text :=
  s.header.text ++ "\n(\n".toList ++ linesText (s.rows.map s.header.rowText)

namespace Reader

section

variable {α : Type} (R : PolyRing α)

/-- Read a polynomial of a list. -/
def listStep (list : List (Poly α)) : Reader (List (Poly α) ⊕ List (Poly α)) := do
  let (p, terminator) ← expression R none
  return if terminator = .comma then .inl (list ++ [p]) else .inr (list ++ [p])

/-- Polynomials in parentheses, separated by commas; without an opening parenthesis there are
none. -/
def polynomialList : Reader (List (Poly α)) := do
  let t ← advance
  if t ≠ .op '(' then
    pushBack t
    return []
  else if (← peek 0) = some ')' then
    let _ ← advance
    return []
  else loop (listStep R) []

/-- Read a row of a module list, or a token between rows. -/
def moduleStep (rows : List (List (Poly α))) :
    Reader (List (List (Poly α)) ⊕ List (List (Poly α))) := do
  let t ← advance
  if t = .op ')' ∨ t = .eof then return .inr rows
  else if t = .op ',' then return .inl rows
  else if t = .op '(' then
    pushBack t
    return .inl (rows ++ [← polynomialList R])
  else malformed (.bareRow t)

/-- Lists of polynomials in parentheses, as they are. -/
def moduleList : Reader (List (List (Poly α))) := do
  let t ← advance
  if t ≠ .op '(' then
    pushBack t
    return []
  else loop (moduleStep R) []

end

/-- A header that makes a ring: coefficients, variables and order. -/
def ringHeader : Reader RingHeader := do
  let coefficients ← coefficientRing
  let vars ← variableList
  let order ← termOrder vars.length
  let ring ← orInvalidRing (PolyRing.make coefficients.arithmetic vars order)
  return ⟨coefficients, ring.vars, ring.order⟩

/-- A header and a list of polynomials. -/
def polynomialSet : Reader PolynomialSet := do
  let header ← ringHeader
  return ⟨header, ← polynomialList header.ring⟩

/-- A header and rows of polynomials. -/
def moduleSet : Reader ModuleSet := do
  let header ← ringHeader
  return .ofRows header (← moduleList header.ring)

end Reader

/-- Every row of a set has the length of the longest row that was given. -/
theorem ModuleSet.length_of_mem_rows {header : RingHeader} {rows : List (List header.Polynomial)}
    {row : List header.Polynomial} (h : row ∈ (ofRows header rows).rows) :
    row.length = longestRow rows := by
  obtain ⟨shorter, hmem, rfl⟩ := List.mem_map.1 h
  have hle := length_le_longestRow hmem
  simp only [List.rightpad, List.length_append, List.length_replicate]
  omega

end PolynomialText
