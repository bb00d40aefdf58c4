import PolynomialText.Number.Rational

/-!
# Component literals

Numbers with several rational components are written with a letter between neighbouring components,
as `3i4` or `1i2j3k4`. An empty component is zero, but not every component may be empty. When all
components after the first are zero, only the first one is written.
-/

namespace PolynomialText.Components

/-- A rational component; an empty one is zero. -/
def readOne (part : Text) : Except LiteralFault Rat :=
  if part = [] then .ok 0 else Rational.readRational part

/-- The components of a literal, refused in the name of the ring. -/
def read (ring : Text) (separators : List Char) (t : Text) : Except Refusal (List Rat) :=
  let parts := Literal.components separators (Literal.normalise t)
  if parts.all (· = []) then .error ⟨t, ring, .noComponents⟩
  else (parts.mapM readOne).mapError fun fault => ⟨t, ring, fault⟩

/-- The literal of a first component and the others. -/
def format (separators : List Char) (first : Rat) (others : List Rat) : Text :=
  Rational.format first ++
    if others.all (· = 0) then []
    else (List.zipWith (fun separator part => separator :: Rational.format part)
      separators others).flatten

end PolynomialText.Components
