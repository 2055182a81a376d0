import ExactAlgebra.Double.Functions
import ExactAlgebra.Equation
import ExactAlgebra.Laurent.Coefficients
import ExactAlgebra.Ratio.Arithmetic

/-!
The real roots of a cubic. A zero discriminant means a repeated root, and then all roots are
rational. Otherwise the depressed cubic t³ + pt + q is solved in doubles: one real root by
Cardano's formula, three by cosines of a third of an angle. Each double is then replaced by the
fraction beside it that can be a root, if that fraction is one. The quotients in these formulas fail
when the leading coefficient is zero.
-/
namespace ExactAlgebra.Cubic

def value (p : Cubic) (q : Rat) : Rat := p.a * (q * q * q) + p.b * (q * q) + p.c * q + p.d

def discriminant (p : Cubic) : Rat :=
  18 * p.a * p.b * p.c * p.d - 4 * (p.b * p.b * p.b) * p.d + p.b * p.b * (p.c * p.c)
    - 4 * p.a * (p.c * p.c * p.c) - 27 * (p.a * p.a) * (p.d * p.d)

/-- Zero, beside a zero discriminant, for a triple root. -/
def tripleTest (p : Cubic) : Rat := p.b * p.b - 3 * p.a * p.c

def tripleRoot (p : Cubic) : Except Failure Ratio := Ratio.quotient (-p.b) (3 * p.a)

def simpleRoot (p : Cubic) : Except Failure Ratio :=
  Ratio.quotient (4 * p.a * p.b * p.c - 9 * (p.a * p.a) * p.d - p.b * p.b * p.b)
    (p.a * p.tripleTest)

def doubleRoot (p : Cubic) : Except Failure Ratio :=
  Ratio.quotient (9 * p.a * p.d - p.b * p.c) (2 * p.tripleTest)

/-- The coefficients of the depressed cubic and the shift back from it. -/
def depressedP (p : Cubic) : Except Failure Ratio :=
  Ratio.quotient (3 * p.a * p.c - p.b * p.b) (3 * (p.a * p.a))

def depressedQ (p : Cubic) : Except Failure Ratio :=
  Ratio.quotient (2 * (p.b * p.b * p.b) - 9 * p.a * p.b * p.c + 27 * (p.a * p.a) * p.d)
    (27 * (p.a * p.a * p.a))

def shift (p : Cubic) : Except Failure Ratio := Ratio.quotient p.b (3 * p.a)

def pi : Double := .ofRat (884279719003555 / 281474976710656)

/-- Cardano's formula. -/
def singleRoot (f : RealFunctions) (p q shift : Double) : Double :=
  let delta := f.sqrt (q * q / .ofInt 4 + p * p * p / .ofInt 27)
  f.cbrt (-q / .ofInt 2 + delta) + f.cbrt (-q / .ofInt 2 - delta) - shift

def cosineRoot (f : RealFunctions) (p q shift : Double) (n : Int) : Double :=
  let amplitude := .ofInt 2 * f.sqrt (-p / .ofInt 3)
  let cosine := .ofInt 3 * q / (.ofInt 2 * p) * f.sqrt (.ofInt (-3) / p)
  let angle := f.acos (cosine.clamp (.ofInt (-1)) (.ofInt 1)) / .ofInt 3
  amplitude * f.cos (angle - .ofInt 2 * pi * .ofInt n / .ofInt 3) - shift

/-- The real roots in doubles: one for a negative discriminant, three for a positive one. -/
def approximateRoots (f : RealFunctions) (p : Cubic) : Except Failure (List Double) := do
  let dp := (← p.depressedP).toDouble
  let dq := (← p.depressedQ).toDouble
  let ds := (← p.shift).toDouble
  if p.discriminant < 0 then return [singleRoot f dp dq ds]
  else return [cosineRoot f dp dq ds 2, cosineRoot f dp dq ds 1, cosineRoot f dp dq ds 0]

def commonDenominator (p : Cubic) : Nat := ((p.a.den.lcm p.b.den).lcm p.c.den).lcm p.d.den

/-- The leading coefficient once all denominators are cleared; the denominator of every rational
root divides it. -/
def leading (p : Cubic) : Int := (p.a * p.commonDenominator).num

def candidate? (f : RealFunctions) (leading : Int) (x : Double) : Option Rat :=
  match (f.round (x * .ofInt leading)).truncate? with
  | some n => if leading = 0 then none else some (n / leading)
  | none => none

/-- Farther from the candidate than the tolerance; never so when something is not a number. -/
def isFar (tolerance : Double) (x : Double) (q : Rat) : Bool :=
  tolerance.lt (Double.ofRat q - x).abs

/-- The fraction is put into the cubic; that leaves what putting it into the expression with these
coefficients leaves, by `Laurent.substitute_cubic`. -/
def snap (f : RealFunctions) (tolerance : Double) (p : Cubic) (x : Double) : Root :=
  match candidate? f p.leading x with
  | some q => if !isFar tolerance x q && p.value q == 0 then .exact (.ofRat q) else .approximate x
  | none => .approximate x

def roots (f : RealFunctions) (tolerance : Double) (p : Cubic) : Except Failure (List Root) :=
  if p.discriminant = 0 then
    if p.tripleTest = 0 then do
      let triple ← p.tripleRoot
      return [.exact triple]
    else do
      let simple ← p.simpleRoot
      let double ← p.doubleRoot
      return [.exact simple, .exact double]
  else (p.approximateRoots f).map (·.map (snap f tolerance p))

end ExactAlgebra.Cubic
