import ExactAlgebra.Solving.CubicRoots
import ExactAlgebra.Solving.Isolation
import ExactAlgebra.Solving.QuadraticRoots
import ExactAlgebra.Solving.Shape

/-!
Solving an equation for one symbol. The symbol must stand in the equation as it is written; if
the difference of the sides has no symbol left, it holds always or never, and otherwise its shape
decides. The numeric method is a parameter: the functions on doubles and the snap tolerance.
-/
namespace ExactAlgebra

structure NumericMethod where
  functions : RealFunctions
  /-- How far a root may lie from a fraction that is tried in its place. -/
  snapTolerance : Double

/-- Correctly rounded functions and a tolerance of a millionth. -/
def NumericMethod.standard : NumericMethod := ⟨.rounded, .ofRat (1 / 1000000)⟩

namespace Equation

def solveConstant (constant : Ratio) : Except Failure Solution :=
  if constant.isZero then .ok .anything else .error .noSolution

def solveWith (method : NumericMethod) (q : Equation) (symbol : String) :
    Except Failure Solution :=
  if !q.hasSymbol symbol then .error (.symbolAbsent symbol q)
  else if q.difference.terms.isEmpty then solveConstant q.difference.constant
  else do
    match ← q.shape symbol with
    | .linear => q.difference.isolate symbol
    | .quadratic =>
      let p ← q.difference.quadratic
      (p.roots method.functions).map .roots
    | .cubic =>
      let p ← q.difference.cubic
      (p.roots method.functions method.snapTolerance).map .roots

def solveFor (q : Equation) (symbol : String) : Except Failure Solution :=
  q.solveWith .standard symbol

end Equation

end ExactAlgebra
