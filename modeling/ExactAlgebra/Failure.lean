import ExactAlgebra.Text

/-!
Failures: why an operation has no result, a constructor for each cause, with what the message
needs. Causes fall into five kinds; the wording of all of them is in `message`.
-/
namespace ExactAlgebra

inductive Failure
  | exponentTooLarge (exponent : Nat)
  | unlikeTerms (left right : Monomial)
  | divisorNotConstant (divisor : Laurent)
  | expressionUnderPower (power : Power)
  | termDoesNotFit (term : Monomial) (top : Nat)
  | notIntegral (x : Double)
  | exponentNotNatural (exponent : Laurent)
  | symbolAbsent (symbol : String) (equation : Equation)
  | divisionByZero
  | noSolution
  | negativeExponent (symbol : String)
  | severalSymbols (difference : Laurent)
  | degreeNotSolved (degree : Int) (symbol : String)
  | symbolCancels (symbol : String) (rest : Laurent)
  | unreadable
  | noEqualsSign
deriving DecidableEq

inductive FailureKind
  | invalidArgument
  | divisionByZero
  | noSolution
  | unsupportedEquation
  | unreadable
deriving DecidableEq

namespace Failure

def kind : Failure → FailureKind
  | exponentTooLarge _ | unlikeTerms _ _ | divisorNotConstant _ | expressionUnderPower _
  | termDoesNotFit _ _ | notIntegral _ | exponentNotNatural _ | symbolAbsent _ _ =>
    .invalidArgument
  | divisionByZero => .divisionByZero
  | noSolution => .noSolution
  | negativeExponent _ | severalSymbols _ | degreeNotSolved _ _ | symbolCancels _ _ =>
    .unsupportedEquation
  | unreadable | noEqualsSign => .unreadable

def detail : Failure → String
  | exponentTooLarge n => "exponent " ++ toString n ++ " exceeds the limit of 64"
  | unlikeTerms m n => "cannot combine " ++ m.text ++ " with " ++ n.text
  | divisorNotConstant e =>
    "cannot divide by the non-constant " ++ e.text ++ "; use a rational expression"
  | expressionUnderPower p =>
    "cannot substitute an expression into " ++ p.symbol ++ "^" ++ toString p.degree
  | termDoesNotFit m top =>
    m.text ++ " does not fit a single-variable polynomial of degree " ++ toString top
  | notIntegral x => x.text ++ " is not an integer; fractions only hold integer ratios"
  | exponentNotNatural e => "exponent " ++ e.text ++ " is not a non-negative integer"
  | symbolAbsent symbol q => symbol ++ " does not appear in " ++ q.text
  | divisionByZero => "divide by zero"
  | noSolution => "no solution"
  | negativeExponent symbol => symbol ++ " appears with a negative exponent"
  | severalSymbols e => "nonlinear in several variables: " ++ e.text ++ " = 0"
  | degreeNotSolved d symbol => "degree " ++ toString d ++ " in " ++ symbol
  | symbolCancels symbol e => symbol ++ " cancels out but " ++ e.text ++ " = 0 remains"
  | unreadable => "not an expression"
  | noEqualsSign => "equation must contain '='"

def message (f : Failure) : String :=
  match f.kind with
  | .invalidArgument => "invalid argument: " ++ f.detail
  | .unsupportedEquation => "unsupported equation: " ++ f.detail
  | .unreadable => "parse error: " ++ f.detail
  | .divisionByZero | .noSolution => f.detail

end Failure

end ExactAlgebra
