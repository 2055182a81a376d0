import ExactAlgebra.Gaussian
import ExactAlgebra.Laurent.Arithmetic
import ExactAlgebra.Laurent.Coefficients

/-!
Products and quotients of complex numbers. Two numbers are multiplied as expressions in the
symbol i, and the square of i in the product is minus one.
-/
namespace ExactAlgebra.Gaussian

def toLaurent (z : Gaussian) : Laurent :=
  (Laurent.const z.re).add ((Laurent.symbol "i").mul (.const z.im))

def mul (z w : Gaussian) : Except Failure Gaussian :=
  (z.toLaurent.mul w.toLaurent).quadratic.map fun p =>
    ofRatios ((Ratio.ofRat p.c).sub (.ofRat p.a)) (.ofRat p.b)

/-- Multiply by the conjugate and divide by the squared modulus, which must not be zero. -/
def div (z w : Gaussian) : Except Failure Gaussian :=
  if w.squaredModulus.isZero then .error .divisionByZero
  else do
    let product ← z.mul w.conjugate
    let re ← product.re.div w.squaredModulus
    let im ← product.im.div w.squaredModulus
    return ofRatios re im

end ExactAlgebra.Gaussian
