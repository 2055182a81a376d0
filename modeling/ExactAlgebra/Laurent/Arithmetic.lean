import ExactAlgebra.Monomial.Arithmetic
import ExactAlgebra.Operand

/-!
Arithmetic of expressions. The raw operations only lay terms side by side, so what was written
stays visible; the operations with an operand take a flag that says whether the result is
normalized. Powers stop at exponent 64, and only numbers divide.
-/
namespace ExactAlgebra.Laurent

def finish (tidy : Bool) (e : Laurent) : Laurent := if tidy then e.normalize else e

def addRaw (e f : Laurent) : Laurent := ⟨e.terms ++ f.terms, e.constant.add f.constant⟩

def subRaw (e f : Laurent) : Laurent := e.addRaw f.neg

/-- A list of terms times a constant; a constant of zero leaves no terms. -/
def scaleTerms (terms : List Monomial) (r : Ratio) : List Monomial :=
  if r.isZero then [] else terms.map (·.scale r)

def distribute (m : Monomial) (f : Laurent) : List Monomial :=
  f.terms.map m.juxtapose ++ scaleTerms [m] f.constant

def mulRaw (e f : Laurent) : Laurent :=
  ⟨e.terms.flatMap (distribute · f) ++ scaleTerms f.terms e.constant, e.constant.mul f.constant⟩

def divRatio? (e : Laurent) (r : Ratio) : Option Laurent := do
  let terms ← e.terms.mapM (·.divRatio? r)
  let constant ← e.constant.div? r
  some ⟨terms, constant⟩

def add (e f : Laurent) : Laurent := (e.addRaw f).normalize

def sub (e f : Laurent) : Laurent := (e.subRaw f).normalize

def mul (e f : Laurent) : Laurent := (e.mulRaw f).normalize

def addWith (tidy : Bool) (e : Laurent) (o : Operand) : Laurent :=
  (e.addRaw o.toLaurent).finish tidy

def subWith (tidy : Bool) (e : Laurent) (o : Operand) : Laurent :=
  (e.subRaw o.toLaurent).finish tidy

def mulWith (tidy : Bool) (e : Laurent) (o : Operand) : Laurent :=
  (e.mulRaw o.toLaurent).finish tidy

def divWith (tidy : Bool) (e : Laurent) (o : Operand) : Except Failure Laurent :=
  match o.scalar? with
  | none => .error (.divisorNotConstant o.toLaurent)
  | some r => orDivisionByZero ((e.divRatio? r).map (·.finish tidy))

def div (e f : Laurent) : Except Failure Laurent := divWith true e (.laurent f)

def maxExponent : Nat := 64

def repeatMul (tidy : Bool) (e : Laurent) : Nat → Laurent
  | 0 => one
  | n + 1 => (mulRaw (repeatMul tidy e n) e).finish tidy

def powWith (tidy : Bool) (e : Laurent) (n : Nat) : Except Failure Laurent :=
  if maxExponent < n then .error (.exponentTooLarge n)
  else .ok ((repeatMul tidy e n).finish tidy)

def pow (e : Laurent) (n : Nat) : Except Failure Laurent := powWith true e n

/-- Every term divided by a monomial; the constant becomes a term too. -/
def divMonomial? (e : Laurent) (m : Monomial) : Option Laurent := do
  let terms ← e.terms.mapM (·.div? m)
  let last ← if e.constant.isZero then some [] else
    ((Monomial.ofRatio e.constant).div? m).map fun n => [n]
  some (normalize ⟨terms ++ last, Ratio.zero⟩)

end ExactAlgebra.Laurent
