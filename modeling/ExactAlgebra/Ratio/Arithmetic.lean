import ExactAlgebra.Failure

/-!
Operations on ratios that may fail: division by zero in its three forms, and the ratio of a
double, which exists for integral doubles only.
-/
namespace ExactAlgebra

def orDivisionByZero {α : Type} (x : Option α) : Except Failure α :=
  match x with
  | some a => .ok a
  | none => .error .divisionByZero

namespace Ratio

def ofParts (num den : Int) : Except Failure Ratio := orDivisionByZero (ofParts? num den)

def div (r s : Ratio) : Except Failure Ratio := orDivisionByZero (r.div? s)

def quotient (p q : Rat) : Except Failure Ratio := (ofRat p).div (ofRat q)

def inv (r : Ratio) : Except Failure Ratio := orDivisionByZero r.inv?

def pow (r : Ratio) (n : Int) : Except Failure Ratio := orDivisionByZero (r.pow? n)

def toDouble (r : Ratio) : Double := .ofRat r.value

def ofDouble (x : Double) : Except Failure Ratio :=
  match x.toRat? with
  | some q => if q.den = 1 then .ok (ofInt q.num) else .error (.notIntegral x)
  | none => .error (.notIntegral x)

end Ratio

end ExactAlgebra
