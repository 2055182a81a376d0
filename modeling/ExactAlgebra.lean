import ExactAlgebra.Gaussian.Arithmetic
import ExactAlgebra.RationalFunction.Arithmetic
import ExactAlgebra.Shorthand
import ExactAlgebra.Wrapping.Fractions
import ExactAlgebra.Wrapping.Formulas
import ExactAlgebra.Proofs.Ratio
import ExactAlgebra.Proofs.Representation
import ExactAlgebra.Proofs.SquareRoots
import ExactAlgebra.Proofs.Signature
import ExactAlgebra.Proofs.Polynomial
import ExactAlgebra.Proofs.NormalForm
import ExactAlgebra.Proofs.Monomials
import ExactAlgebra.Proofs.Queries
import ExactAlgebra.Proofs.Univariate
import ExactAlgebra.Proofs.Substitution
import ExactAlgebra.Proofs.Isolation
import ExactAlgebra.Proofs.Answers
import ExactAlgebra.Proofs.Outcomes
import ExactAlgebra.Proofs.Completion
import ExactAlgebra.Proofs.QuadraticSolutions
import ExactAlgebra.Proofs.RepeatedFactors
import ExactAlgebra.Proofs.ExactRoots
import ExactAlgebra.Proofs.RootCount
import ExactAlgebra.Proofs.ClosedForms
import ExactAlgebra.Proofs.Gathering
import ExactAlgebra.Proofs.Arithmetic
import ExactAlgebra.Proofs.Evaluation
import ExactAlgebra.Proofs.Programs
import ExactAlgebra.Proofs.RepeatedRoots
import ExactAlgebra.Proofs.RationalFunctions
import ExactAlgebra.Proofs.Sessions
import ExactAlgebra.Proofs.LinearSolutions
import ExactAlgebra.Proofs.Parameters
import ExactAlgebra.Proofs.Grammar
import ExactAlgebra.Proofs.Acceptance
import ExactAlgebra.Proofs.Written
import ExactAlgebra.Proofs.RoundTrip
import ExactAlgebra.Proofs.Operands
import ExactAlgebra.Proofs.Extraction
import ExactAlgebra.Proofs.GaussianField
import ExactAlgebra.Proofs.FormulaValues
import ExactAlgebra.Proofs.Content
import ExactAlgebra.Proofs.Reduction
import ExactAlgebra.Proofs.Shapes
import ExactAlgebra.Proofs.Domains
import ExactAlgebra.Proofs.ControlWords
import ExactAlgebra.Proofs.ComplexText
import ExactAlgebra.Proofs.Tolerance
import ExactAlgebra.Proofs.Cancellation
import ExactAlgebra.Proofs.RationalRoots
import ExactAlgebra.Proofs.Words
import ExactAlgebra.Proofs.WordArithmetic
import ExactAlgebra.Proofs.WordEvaluation
import ExactAlgebra.Proofs.WordFractions
import ExactAlgebra.Proofs.WordFormulas
