import ExactAlgebra.Ratio

/-!
Complex numbers with rational parts, kept as they were written. A number built of two ratios has its
parts in lowest terms, and so has every sum, difference and conjugate; sameness goes by value.
-/
namespace ExactAlgebra

structure Gaussian where
  re : Ratio
  im : Ratio
deriving DecidableEq

namespace Gaussian

def ofRatios (re im : Ratio) : Gaussian := ⟨re.reduce, im.reduce⟩

def ofRatio (re : Ratio) : Gaussian := ofRatios re .zero

def add (z w : Gaussian) : Gaussian := ofRatios (z.re.add w.re) (z.im.add w.im)

def sub (z w : Gaussian) : Gaussian := ofRatios (z.re.sub w.re) (z.im.sub w.im)

def conjugate (z : Gaussian) : Gaussian := ofRatios z.re z.im.neg

def squaredModulus (z : Gaussian) : Ratio := (z.re.mul z.re).add (z.im.mul z.im)

def same (z w : Gaussian) : Bool := z.re.same w.re && z.im.same w.im

end Gaussian

end ExactAlgebra
