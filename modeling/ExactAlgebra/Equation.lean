import ExactAlgebra.Double
import ExactAlgebra.Laurent

/-!
Equations between two expressions, and the answers to solving one: a number or an expression for
the symbol, any value at all, or a list of roots, each exact or a double.
-/
namespace ExactAlgebra

structure Equation where
  left : Laurent
  right : Laurent
deriving DecidableEq

namespace Equation

def ofSides (left right : Laurent) : Equation := ⟨left.normalize, right.normalize⟩

def hasSymbol (q : Equation) (symbol : String) : Bool :=
  q.left.hasSymbol symbol || q.right.hasSymbol symbol

def isLinear (q : Equation) : Bool :=
  [q.left, q.right].all fun side => side.maxDegree ≤ 1 && side.noCrossProducts

def same (q r : Equation) : Bool := q.left.same r.left && q.right.same r.right

end Equation

inductive Root
  | exact (r : Ratio)
  | approximate (x : Double)
deriving DecidableEq

namespace Root

def toDouble : Root → Double
  | exact r => .ofRat r.value
  | approximate x => x

def rational? : Root → Option Ratio
  | exact r => some r
  | approximate _ => none

def same : Root → Root → Bool
  | exact r, exact s => r.same s
  | approximate x, approximate y => x.same y
  | _, _ => false

def sameAll : List Root → List Root → Bool
  | [], [] => true
  | x :: xs, y :: ys => x.same y && sameAll xs ys
  | _, _ => false

end Root

inductive Solution
  | value (r : Ratio)
  | expression (e : Laurent)
  | anything
  | roots (list : List Root)
deriving DecidableEq

def Solution.same : Solution → Solution → Bool
  | value r, value s => r.same s
  | expression e, expression f => e.same f
  | anything, anything => true
  | roots xs, roots ys => Root.sameAll xs ys
  | _, _ => false

end ExactAlgebra
