import ExactAlgebra.Double.Functions
import ExactAlgebra.Equation
import ExactAlgebra.Laurent.Coefficients
import ExactAlgebra.Ratio.Arithmetic

/-!
The real roots of a quadratic by the discriminant. The roots are exact when the discriminant is a
rational square and doubles otherwise; the root with the minus sign comes first. An exact root is a
quotient by twice the leading coefficient, which fails when that is zero.
-/
namespace ExactAlgebra.Quadratic

def value (p : Quadratic) (q : Rat) : Rat := p.a * (q * q) + p.b * q + p.c

def discriminant (p : Quadratic) : Rat := p.b * p.b - p.a * p.c * 4

/-- One of the two roots in doubles, as the sum of minus b and a signed square root. -/
def approximateRoots (f : RealFunctions) (p : Quadratic) : List Root :=
  let root := f.sqrt (.ofRat p.discriminant)
  let negB := Double.ofRat (-p.b)
  let twoA := Double.ofRat (p.a * 2)
  [.approximate ((negB - root) / twoA), .approximate ((negB + root) / twoA)]

def roots (f : RealFunctions) (p : Quadratic) : Except Failure (List Root) :=
  if p.discriminant < 0 then .ok []
  else if p.discriminant = 0 then do
    let double ← Ratio.quotient (-p.b) (p.a * 2)
    return [.exact double]
  else match Ratio.sqrtRat? p.discriminant with
    | some s => do
      let first ← Ratio.quotient (-p.b - s) (p.a * 2)
      let second ← Ratio.quotient (-p.b + s) (p.a * 2)
      return [.exact first, .exact second]
    | none => .ok (p.approximateRoots f)

end ExactAlgebra.Quadratic
