/-!
# Limits

How deep expressions may nest, and from which modulus on residues are kept as big integers.
-/

namespace PolynomialText

/-- Bounds that a reader keeps to. -/
structure Limits where
  /-- The deepest nesting of parentheses and braces that is accepted. -/
  maxDepth : UInt64 := 256
  /-- Moduli below this bound select residues that fit a machine word. -/
  wordModulusLimit : UInt64 := 2147483647
  deriving DecidableEq, Inhabited

end PolynomialText
