import ExactAlgebra.RationalFunction.Arithmetic
import ExactAlgebra.Wrapping

/-!
Quotients of expressions with degrees of 64 bits. The operations and the common factor are those
with unbounded degrees; only products and normal forms are taken in words.
-/
namespace ExactAlgebra.Wrapping

def divideMonomial? (m n : Monomial) : Option Monomial :=
  (m.coefficient.div? n.coefficient).map fun c =>
    Monomial.wrapped ⟨c, m.powers ++ n.inversePowers⟩

def divMonomial? (e : Laurent) (m : Monomial) : Option Laurent := do
  let terms ← e.terms.mapM (divideMonomial? · m)
  let last ← if e.constant.isZero then some [] else
    (divideMonomial? (.ofRatio e.constant) m).map fun n => [n]
  some (Laurent.wrapped ⟨terms ++ last, .zero⟩)

def ofLaurent (e : Laurent) : RationalFunction := ⟨e.wrapped, .one⟩

def quotient (numerator denominator : Laurent) : Except Failure RationalFunction :=
  if denominator.wrapped.isZero then .error .divisionByZero
  else .ok ⟨numerator.wrapped, denominator.wrapped⟩

def addFractions (f g : RationalFunction) : RationalFunction :=
  if f.denominator.same g.denominator then ⟨add f.numerator g.numerator, f.denominator⟩
  else
    ⟨add (mul f.numerator g.denominator) (mul g.numerator f.denominator),
      mul f.denominator g.denominator⟩

def subFractions (f g : RationalFunction) : RationalFunction := addFractions f g.neg

def mulFractions (f g : RationalFunction) : RationalFunction :=
  ⟨mul f.numerator g.numerator, mul f.denominator g.denominator⟩

def inv (f : RationalFunction) : Except Failure RationalFunction :=
  quotient f.denominator f.numerator

def divFractions (f g : RationalFunction) : Except Failure RationalFunction :=
  (inv g).map (mulFractions f)

def substituteFraction (b : Bindings) (f : RationalFunction) :
    Except Failure RationalFunction := do
  let numerator ← substitute b f.numerator
  let denominator ← substitute b f.denominator
  quotient numerator denominator

def toLaurent? (f : RationalFunction) : Option Laurent :=
  match scalar? (.laurent f.denominator) with
  | none => none
  | some r => (f.numerator.divRatio? r).map (·.wrapped)

def reduce (f : RationalFunction) : Except Failure RationalFunction :=
  if f.numerator.isZero then .ok ⟨.zero, .one⟩
  else do
    let factor := Monomial.commonFactor (f.numerator.monomials ++ f.denominator.monomials)
    let numerator ← orDivisionByZero (divMonomial? f.numerator factor)
    let denominator ← orDivisionByZero (divMonomial? f.denominator factor)
    quotient numerator denominator

end ExactAlgebra.Wrapping
