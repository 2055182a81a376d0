import ExactAlgebra.Laurent.Substitution

/-!
Arithmetic with degrees of 64 bits. A sum of degrees that leaves the range of signed words comes
back at its other end; a build that checks its sums stops there instead. The operations are those
with unbounded degrees, except that the powers of a term are multiplied out in words, so the two
differ only after a degree has left the range.
-/
namespace ExactAlgebra

/-- The degree that a signed word holds. -/
def wrapDegree (k : Int) : Int := (BitVec.ofInt 64 k).toInt

namespace Power

def wrap (p : Power) : Power := ⟨p.symbol, wrapDegree p.degree⟩

def combineWrapped (p q : Power) : Power := (p.combine q).wrap

end Power

/-- The normal form of a term, multiplied out in words. -/
def Monomial.wrapped (m : Monomial) : Monomial where
  coefficient := m.coefficient.reduce
  powers :=
    sortBy Power.order
      ((gather Power.hasSymbolOf Power.combineWrapped (m.powers.map Power.wrap)).filter
        (·.degree != 0))

namespace Laurent

/-- Every term multiplied out in words, and none combined. -/
def wrapTerms (e : Laurent) : Laurent := ⟨e.terms.map (·.wrapped), e.constant⟩

/-- The normal form of an expression, multiplied out in words. -/
def wrapped (e : Laurent) : Laurent := e.wrapTerms.normalize

end Laurent

def Operand.wrapTerms : Operand → Operand
  | monomial m => .monomial m.wrapped
  | laurent e => .laurent e.wrapTerms
  | o => o

namespace Wrapping

section Arithmetic

def ofMonomial (m : Monomial) : Laurent := Laurent.wrapped ⟨[m], .zero⟩

def toLaurent : Operand → Laurent
  | .monomial m => ofMonomial m
  | o => o.toLaurent

def scalar? (o : Operand) : Option Ratio := o.wrapTerms.scalar?

def finish (tidy : Bool) (e : Laurent) : Laurent := if tidy then e.wrapped else e

def add (e f : Laurent) : Laurent := (e.addRaw f).wrapped

def sub (e f : Laurent) : Laurent := (e.subRaw f).wrapped

def mul (e f : Laurent) : Laurent := (e.mulRaw f).wrapped

def addWith (tidy : Bool) (e : Laurent) (o : Operand) : Laurent :=
  finish tidy (e.addRaw (toLaurent o))

def subWith (tidy : Bool) (e : Laurent) (o : Operand) : Laurent :=
  finish tidy (e.subRaw (toLaurent o))

def mulWith (tidy : Bool) (e : Laurent) (o : Operand) : Laurent :=
  finish tidy (e.mulRaw (toLaurent o))

def divWith (tidy : Bool) (e : Laurent) (o : Operand) : Except Failure Laurent :=
  match scalar? o with
  | none => .error (.divisorNotConstant (toLaurent o))
  | some r => orDivisionByZero ((e.divRatio? r).map (finish tidy))

def repeatMul (tidy : Bool) (e : Laurent) : Nat → Laurent
  | 0 => .one
  | n + 1 => finish tidy ((repeatMul tidy e n).mulRaw e)

def powWith (tidy : Bool) (e : Laurent) (n : Nat) : Except Failure Laurent :=
  if Laurent.maxExponent < n then .error (.exponentTooLarge n)
  else .ok (finish tidy (repeatMul tidy e n))

end Arithmetic

section Substitution

def substitutePower (b : Bindings) (p : Power) : Except Failure Laurent :=
  match b.lookup p.symbol with
  | none => .ok (ofMonomial (.ofPower p))
  | some o =>
    match scalar? o with
    | some r => orDivisionByZero ((r.pow? p.degree).map Laurent.const)
    | none =>
      match naturalExponent? p.degree with
      | some n => powWith true (toLaurent o) n
      | none => .error (.expressionUnderPower p)

def substituteMonomial (b : Bindings) (m : Monomial) : Except Failure Laurent :=
  m.wrapped.powers.foldlM (fun product p => (substitutePower b p).map (mul product))
    (Laurent.const m.coefficient)

def addSubstituted (tidy : Bool) (b : Bindings) (sum : Laurent) (m : Monomial) :
    Except Failure Laurent :=
  (substituteMonomial b m).map fun value => finish tidy (sum.addRaw value)

def substituteWith (tidy : Bool) (b : Bindings) (e : Laurent) : Except Failure Laurent :=
  (e.terms.foldlM (addSubstituted tidy b) (.const e.constant)).map (finish tidy)

def substitute (b : Bindings) (e : Laurent) : Except Failure Laurent := substituteWith true b e

end Substitution

end Wrapping

end ExactAlgebra
