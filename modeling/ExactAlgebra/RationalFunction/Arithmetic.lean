import ExactAlgebra.Laurent.Substitution
import ExactAlgebra.RationalFunction

/-!
Arithmetic of quotients of expressions. Sums over one denominator keep it, others multiply out;
`reduce` cancels the greatest monomial that divides every term of both sides, and nothing more.
-/
namespace ExactAlgebra

def Laurent.quotient (numerator denominator : Laurent) : Except Failure RationalFunction :=
  if denominator.normalize.isZero then .error .divisionByZero
  else .ok ⟨numerator.normalize, denominator.normalize⟩

namespace RationalFunction

def add (f g : RationalFunction) : RationalFunction :=
  if f.denominator.same g.denominator then ⟨f.numerator.add g.numerator, f.denominator⟩
  else
    ⟨(f.numerator.mul g.denominator).add (g.numerator.mul f.denominator),
      f.denominator.mul g.denominator⟩

def sub (f g : RationalFunction) : RationalFunction := f.add g.neg

def mul (f g : RationalFunction) : RationalFunction :=
  ⟨f.numerator.mul g.numerator, f.denominator.mul g.denominator⟩

def inv (f : RationalFunction) : Except Failure RationalFunction :=
  f.denominator.quotient f.numerator

def div (f g : RationalFunction) : Except Failure RationalFunction := g.inv.map f.mul

def substitute (b : Bindings) (f : RationalFunction) : Except Failure RationalFunction := do
  let numerator ← f.numerator.substitute b
  let denominator ← f.denominator.substitute b
  numerator.quotient denominator

def toLaurent? (f : RationalFunction) : Option Laurent :=
  match f.denominator.constantValue? with
  | none => none
  | some r => (f.numerator.divRatio? r).map (·.normalize)

end RationalFunction

/-- The terms of an expression with the constant as one of them, unless it is zero. -/
def Laurent.monomials (e : Laurent) : List Monomial :=
  e.terms.map (·.normalize) ++ if e.constant.isZero then [] else [.ofRatio e.constant]

namespace Monomial

/-- The greatest common divisor of the numerators over the least common multiple of the
denominators. -/
def commonCoefficient (ms : List Monomial) : Ratio :=
  let num := ms.foldl (fun g m => g.gcd m.coefficient.value.num.natAbs) 0
  let den := ms.foldl (fun l m => l.lcm m.coefficient.value.den) 1
  if num = 0 then .one else (Ratio.ofParts? num den).getD .one

/-- The least degree of each symbol that has a positive one in every monomial. -/
def commonPowers : List Monomial → List Power
  | [] => []
  | m :: rest => m.powers.filterMap fun p =>
    let least := (rest.map (·.degreeOf p.symbol)).foldl min p.degree
    if 0 < least then some ⟨p.symbol, least⟩ else none

def commonFactor (ms : List Monomial) : Monomial :=
  normalize ⟨commonCoefficient ms, commonPowers ms⟩

end Monomial

def RationalFunction.reduce (f : RationalFunction) : Except Failure RationalFunction :=
  if f.numerator.isZero then .ok ⟨.zero, .one⟩
  else do
    let factor := Monomial.commonFactor (f.numerator.monomials ++ f.denominator.monomials)
    let numerator ← orDivisionByZero (f.numerator.divMonomial? factor)
    let denominator ← orDivisionByZero (f.denominator.divMonomial? factor)
    numerator.quotient denominator

end ExactAlgebra
