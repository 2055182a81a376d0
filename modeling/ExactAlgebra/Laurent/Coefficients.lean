import ExactAlgebra.Failure

/-!
Coefficients of an expression that is read as a polynomial of bounded degree: every term that
survives normalization must have one symbol in a degree from one to the bound. The symbols of
different terms are not compared.
-/
namespace ExactAlgebra

structure Quadratic where
  a : Rat
  b : Rat
  c : Rat
deriving DecidableEq

structure Cubic where
  a : Rat
  b : Rat
  c : Rat
  d : Rat
deriving DecidableEq

def Monomial.fits (top : Nat) (m : Monomial) : Bool :=
  m.symbolCount == 1 && decide (1 ≤ m.maxDegree) && decide (m.maxDegree ≤ top)

namespace Laurent

/-- The total coefficient of the terms of a positive degree, or the constant. -/
def coefficientAt (e : Laurent) (degree : Nat) : Rat :=
  if degree = 0 then e.constant.value
  else
    let terms := e.terms.filter fun m => m.maxDegree == (degree : Int)
    terms.foldr (fun m total => m.coefficient.value + total) 0

def coefficients (top : Nat) (e : Laurent) : Except Failure (Nat → Rat) :=
  match e.normalize.terms.find? (!·.fits top) with
  | some m => .error (.termDoesNotFit m top)
  | none => .ok e.normalize.coefficientAt

def quadratic (e : Laurent) : Except Failure Quadratic :=
  (e.coefficients 2).map fun c => ⟨c 2, c 1, c 0⟩

def cubic (e : Laurent) : Except Failure Cubic :=
  (e.coefficients 3).map fun c => ⟨c 3, c 2, c 1, c 0⟩

end Laurent

end ExactAlgebra
