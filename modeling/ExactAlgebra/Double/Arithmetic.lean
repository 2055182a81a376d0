import ExactAlgebra.Double

/-!
The four operations on doubles. Each is the exact rational result rounded once; what is left are
the cases without a finite result: infinities, quotients by zero, and the sign of a zero.
-/
namespace ExactAlgebra.Double

def infinity (negative : Bool) : Double := ofStep negative infinityStep

def isInfinite : Double → Bool
  | nan => false
  | step _ k => k.val == infinityStep

def isZero : Double → Bool
  | nan => false
  | step _ k => k.val == 0

def neg : Double → Double
  | nan => nan
  | step negative k => step (!negative) k

def abs : Double → Double
  | nan => nan
  | step _ k => step false k

def withSign (negative : Bool) (q : Rat) : Double := rounded negative q.num.natAbs q.den

/-- A sum of zero is negative only when both sides are. -/
def add (x y : Double) : Double :=
  match x.toRat?, y.toRat? with
  | some a, some b =>
    if a + b = 0 then ofStep (x.isNegative && y.isNegative) 0 else ofRat (a + b)
  | _, _ =>
    if x = nan ∨ y = nan then nan
    else if x.isInfinite && y.isInfinite then (if x.isNegative = y.isNegative then x else nan)
    else if x.isInfinite then x else y

def sub (x y : Double) : Double := add x y.neg

def mul (x y : Double) : Double :=
  let negative := x.isNegative != y.isNegative
  match x.toRat?, y.toRat? with
  | some a, some b => withSign negative (a * b)
  | _, _ =>
    if x = nan ∨ y = nan then nan
    else if x.isZero || y.isZero then nan
    else infinity negative

def div (x y : Double) : Double :=
  let negative := x.isNegative != y.isNegative
  match x.toRat?, y.toRat? with
  | some a, some b =>
    if b = 0 then (if a = 0 then nan else infinity negative) else withSign negative (a / b)
  | _, _ =>
    if x = nan ∨ y = nan then nan
    else if x.isInfinite then (if y.isInfinite then nan else infinity negative)
    else ofStep negative 0

instance : Add Double := ⟨add⟩
instance : Sub Double := ⟨sub⟩
instance : Mul Double := ⟨mul⟩
instance : Div Double := ⟨div⟩
instance : Neg Double := ⟨neg⟩

def clamp (x low high : Double) : Double :=
  if x.lt low then low else if high.lt x then high else x

def truncate? (x : Double) : Option Int := x.toRat?.map fun q => q.num.tdiv q.den

/-- The nearest integral double; a half goes away from zero. -/
def round (x : Double) : Double :=
  match x.toRat? with
  | some q => rounded x.isNegative ((2 * q.num.natAbs + q.den) / (2 * q.den)) 1
  | none => x

end ExactAlgebra.Double
