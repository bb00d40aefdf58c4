import PolynomialText.Text.Basic
import PolynomialText.Text.White
import PolynomialText.Text.Alphabetic
import PolynomialText.Text.Printable
import PolynomialText.Text.Quoted
import PolynomialText.Source
import PolynomialText.Token
import PolynomialText.Limits
import PolynomialText.Error
import PolynomialText.Scanner
import PolynomialText.Names
import PolynomialText.Exponents
import PolynomialText.TermOrder
import PolynomialText.Arithmetic
import PolynomialText.Literal
import PolynomialText.Number.Rounding
import PolynomialText.Number.Rational
import PolynomialText.Number.Integer
import PolynomialText.Number.Residue
import PolynomialText.Number.Components
import PolynomialText.Number.Gaussian
import PolynomialText.Number.Quaternion
import PolynomialText.Number.Octonion
import PolynomialText.Number.FixedDecimal
import PolynomialText.Poly
import PolynomialText.PolyRing
import PolynomialText.Session
import PolynomialText.Expression
import PolynomialText.PolyRing.AsCoefficients
import PolynomialText.Extension
import PolynomialText.CoefficientRing
import PolynomialText.Declaration
import PolynomialText.CoefficientRing.Reader
import PolynomialText.PolynomialSet
import PolynomialText.Limits.Document
import PolynomialText.Proofs.PolyCanonical
import PolynomialText.Proofs.RingLaws
import PolynomialText.Proofs.PolyLaws
import PolynomialText.Proofs.NumberLaws
import PolynomialText.Proofs.Lines
import PolynomialText.Proofs.TokenStream
import PolynomialText.Proofs.ScannerView
import PolynomialText.Proofs.ReaderSteps
import PolynomialText.Proofs.ExpressionSteps
import PolynomialText.Proofs.Spelling
import PolynomialText.Proofs.Powers
import PolynomialText.Proofs.ExpressionTree
import PolynomialText.Proofs.NumberLiterals
import PolynomialText.Proofs.CoefficientRings
import PolynomialText.Proofs.PolynomialLiterals
import PolynomialText.Proofs.LegibleRings
import PolynomialText.Proofs.ExtensionResidues
import PolynomialText.Proofs.ReaderResults
import PolynomialText.Proofs.ReadPolynomials
import PolynomialText.Proofs.ReadHeaders
import PolynomialText.Proofs.HeaderText
import PolynomialText.Proofs.SetText
import PolynomialText.Proofs.SourceLines
import PolynomialText.Proofs.LineScanning
import PolynomialText.Proofs.SafeReaders
import PolynomialText.Proofs.SafeExpressions
import PolynomialText.Proofs.SafeDeclarations
import PolynomialText.Proofs.SafeSessions
import PolynomialText.Proofs.TokenGrammar
import PolynomialText.Proofs.TokenReaders
import PolynomialText.Proofs.TokenwiseReading
import PolynomialText.Proofs.CoefficientMaps
import PolynomialText.Proofs.ParallelReaders
import PolynomialText.Proofs.ParallelExpressions
import PolynomialText.Proofs.ResidueMaps
import PolynomialText.Proofs.ModularReading
import PolynomialText.Proofs.ParallelDeclarations
import PolynomialText.Proofs.WordSize
import PolynomialText.Proofs.MonomialOrders
import PolynomialText.Proofs.ExactPolynomials
import PolynomialText.Proofs.QuotientRings
import PolynomialText.Proofs.StrippedDecimals
import PolynomialText.Proofs.CanonicalResults
import PolynomialText.Proofs.NestingExpressions
import PolynomialText.Proofs.NestingLimit
import PolynomialText.Proofs.LiteralCharacters
import PolynomialText.Proofs.PowerMarks
import PolynomialText.Proofs.MovedExpressions
import PolynomialText.Proofs.StoredDecimals
import PolynomialText.Proofs.ListComposition
import PolynomialText.Proofs.TermSums
import PolynomialText.Proofs.DeclarationOrder
import PolynomialText.Proofs.DefiningPolynomials
import PolynomialText.Proofs.ExactWeights
import PolynomialText.Proofs.IntegersAsRationals
import PolynomialText.Proofs.RunOnLiterals
import PolynomialText.Proofs.StrayOperators
import PolynomialText.Proofs.UsedNames
import PolynomialText.Proofs.LiteralEnds
import PolynomialText.Proofs.HeaderNames
import PolynomialText.Proofs.HypercomplexAlgebras
import PolynomialText.Proofs.DescendingTerms
import PolynomialText.Proofs.LeadingProducts
import PolynomialText.Proofs.Remainders
import PolynomialText.Proofs.PowerProducts
import PolynomialText.Proofs.WordResidues
import PolynomialText.Proofs.RationalGrammar
import PolynomialText.Proofs.ComponentGrammar
import PolynomialText.Proofs.TextCursors
import PolynomialText.Proofs.LookingAhead
import PolynomialText.Proofs.BraceTexts
import PolynomialText.Proofs.UnknownSymbols
import PolynomialText.Proofs.ExpressionPasses
