import ExactAlgebra.Laurent.Arithmetic

/-!
The shape of an equation with respect to one symbol, read off the difference of its sides. Linear
means that the symbol stands only as a number times itself, whatever the other symbols do; beyond
that the symbol must be alone and its degree two or three.
-/
namespace ExactAlgebra

inductive Shape
  | linear
  | quadratic
  | cubic
deriving DecidableEq

def Equation.difference (q : Equation) : Laurent := q.left.sub q.right

namespace Laurent

def hasNegativeDegree (e : Laurent) (symbol : String) : Bool :=
  e.terms.any fun m => decide (m.degreeOf symbol < 0)

def isLinearIn (e : Laurent) (symbol : String) : Bool :=
  decide (e.maxDegreeOf symbol ≤ 1) && e.noCrossProductsWith symbol

def shape (e : Laurent) (symbol : String) : Except Failure Shape :=
  if e.hasNegativeDegree symbol then .error (.negativeExponent symbol)
  else if e.isLinearIn symbol then .ok .linear
  else if !e.onlyHasSymbol symbol then .error (.severalSymbols e)
  else if e.maxDegree = 2 then .ok .quadratic
  else if e.maxDegree = 3 then .ok .cubic
  else .error (.degreeNotSolved e.maxDegree symbol)

end Laurent

def Equation.shape (q : Equation) (symbol : String) : Except Failure Shape :=
  q.difference.shape symbol

end ExactAlgebra
